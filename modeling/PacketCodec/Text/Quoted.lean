import PacketCodec.Text.Decimal
import PacketCodec.Text.Printable

namespace PacketCodec

namespace Text

-- A single quote encloses the text unless it holds single quotes and no
-- double quote.
def enclosingQuote (t : Text) : CodePoint :=
  if t.contains 0x27 && !t.contains 0x22 then 0x22 else 0x27

-- The four escapes that have a letter of their own, and the enclosing quote.
def shortEscape? (quote c : CodePoint) : Option Text :=
  if c = quote ∨ c = 0x5C then some [0x5C, c]
  else if c = 0x0A then some "\\n"
  else if c = 0x0D then some "\\r"
  else if c = 0x09 then some "\\t"
  else none

-- The shortest of the three numeric escapes that holds the code point.
def numericEscape (c : CodePoint) : Text :=
  if c.val < 0x100 then join ["\\x", hex 2 c.val]
  else if c.val < 0x10000 then join ["\\u", hex 4 c.val]
  else join ["\\U", hex 8 c.val]

def escape (quote c : CodePoint) : Text :=
  (shortEscape? quote c).getD (if c.isPrintable then [c] else numericEscape c)

def quoted (t : Text) : Text :=
  let quote := enclosingQuote t
  join [[quote], t.flatMap (escape quote), [quote]]

-- Bytes beyond printable ASCII are written as numbers.
def escapeByte (quote : CodePoint) (b : UInt8) : Text :=
  let c : CodePoint := ⟨b.toNat, Nat.lt_trans b.toNat_lt (by decide)⟩
  (shortEscape? quote c).getD (if 0x20 ≤ b && b < 0x7F then [c] else numericEscape c)

def quotedBytes (bytes : List UInt8) : Text :=
  let quote : CodePoint := if bytes.contains 0x27 && !bytes.contains 0x22 then 0x22 else 0x27
  join ["b", [quote], bytes.flatMap (escapeByte quote), [quote]]

end Text

end PacketCodec
