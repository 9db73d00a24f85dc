import PacketCodec.Text.Basic

namespace PacketCodec

attribute [local instance (high)] Zero.ofOfNat0

abbrev CodeUnit := Fin 0x10000

instance CodeUnit.neZero : NeZero 0x10000 := ⟨by decide⟩

namespace CodePoint

def isHighSurrogate (c : CodePoint) : Bool :=
  0xD800 ≤ c.val && c.val < 0xDC00

def isLowSurrogate (c : CodePoint) : Bool :=
  0xDC00 ≤ c.val && c.val < 0xE000

def isSurrogate (c : CodePoint) : Bool :=
  c.isHighSurrogate || c.isLowSurrogate

def units (c : CodePoint) : List CodeUnit :=
  if h : c.val < 0x10000 then [⟨c.val, h⟩]
  else
    [⟨0xD800 + (c.val - 0x10000) / 0x400, by have := c.isLt; omega⟩,
     ⟨0xDC00 + (c.val - 0x10000) % 0x400, by omega⟩]

-- The code point that a pair of surrogates stands for.
def ofSurrogates (high low : CodePoint) : CodePoint :=
  ⟨0x10000 + (high.val - 0xD800) % 0x400 * 0x400 + (low.val - 0xDC00) % 0x400, by omega⟩

end CodePoint

namespace Text

def units (t : Text) : List CodeUnit :=
  t.flatMap CodePoint.units

-- A code point in front of a text, joined with the first code point of the
-- text if the two are a surrogate pair.
def consUnit (c : CodePoint) (t : Text) : Text :=
  match t with
  | [] => [c]
  | d :: rest =>
    if c.isHighSurrogate && d.isLowSurrogate then CodePoint.ofSurrogates c d :: rest
    else c :: d :: rest

def ofUnit (u : CodeUnit) : CodePoint :=
  ⟨u.val, Nat.lt_trans u.isLt (by decide)⟩

def ofUnits (units : List CodeUnit) : Text :=
  units.foldr (fun u t => consUnit (ofUnit u) t) []

end Text

end PacketCodec
