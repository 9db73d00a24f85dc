import PacketCodec.Text.Basic

namespace PacketCodec

def CodePoint.isAsciiDigit (c : CodePoint) : Bool :=
  0x30 ≤ c.val && c.val ≤ 0x39

namespace Text

def ofNat (n : Nat) : Text :=
  (Nat.toDigits 10 n).map CodePoint.ofChar

def ofInt : Int → Text
  | .ofNat n => ofNat n
  | .negSucc n => '-' :: ofNat (n + 1)

-- The value of a run of ASCII digits, most significant first.
def toNat (digits : Text) : Nat :=
  digits.foldl (fun value c => value * 10 + (c.val - 0x30)) 0

-- The most digits that a whole number may have to be written in decimal or read
-- from it.
def maxDigits : Nat := 4300

-- Whether a whole number can be written.
def isWritable (n : Int) : Bool :=
  (Nat.toDigits 10 n.natAbs).length ≤ maxDigits

-- What is said of a number that cannot be written.
def unwritable : Text :=
  join ["Exceeds the limit (", ofNat maxDigits, " digits) for integer string conversion; ",
    "use sys.set_int_max_str_digits() to increase the limit"]

-- A number that cannot be read, by the count of its digits. Zeros in front are
-- digits as well.
structure Overlong where
  count : Nat

def Overlong.message (e : Overlong) : Text :=
  join ["Exceeds the limit (", ofNat maxDigits, " digits) for integer string conversion: value has ",
    ofNat e.count, " digits; use sys.set_int_max_str_digits() to increase the limit"]

-- The value of a run of ASCII digits, if there are not too many of them.
def readDigits (digits : Text) : Except Overlong Nat :=
  if maxDigits < digits.length then .error ⟨digits.length⟩ else .ok digits.toNat

def hexDigit (n : Nat) : CodePoint :=
  CodePoint.ofChar (Nat.digitChar n)

-- The last `count` hexadecimal digits of a number.
def hex : Nat → Nat → Text
  | 0, _ => []
  | count + 1, n => hex count (n / 16) ++ [hexDigit (n % 16)]

end Text

end PacketCodec
