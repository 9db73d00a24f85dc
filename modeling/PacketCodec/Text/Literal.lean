import PacketCodec.Text.Decimal
import PacketCodec.Text.Digit

namespace PacketCodec

namespace CodePoint

-- The value of a digit of a base. Letters are digits from ten on.
def digitOf? (base : Nat) (c : CodePoint) : Option Nat :=
  let value :=
    if 0x41 ≤ c.val ∧ c.val ≤ 0x5A then some (c.val - 0x41 + 10)
    else if 0x61 ≤ c.val ∧ c.val ≤ 0x7A then some (c.val - 0x61 + 10)
    else c.digit?
  value.filter (· < base)

end CodePoint

namespace Text

-- Digits after a value, each with at most one underscore in front of it.
def moreDigits? (base : Nat) : (value : Nat) → Text → Option Nat
  | value, [] => some value
  | value, c :: rest =>
    if c = 0x5F then
      match rest with
      | [] => none
      | d :: rest =>
        match d.digitOf? base with
        | some digit => moreDigits? base (value * base + digit) rest
        | none => none
    else
      match c.digitOf? base with
      | some digit => moreDigits? base (value * base + digit) rest
      | none => none

-- A run of digits that starts with a digit.
def digits? (base : Nat) : Text → Option Nat
  | [] => none
  | c :: rest =>
    match c.digitOf? base with
    | some digit => moreDigits? base digit rest
    | none => none

def integer? : Text → Option Int
  | [] => none
  | c :: rest =>
    if c = 0x2D then (digits? 10 rest).map fun n => -(n : Int)
    else if c = 0x2B then (digits? 10 rest).map Int.ofNat
    else (digits? 10 (c :: rest)).map Int.ofNat

-- A text without a sign in front.
def unsigned : Text → Text
  | [] => []
  | c :: rest => if c = 0x2D ∨ c = 0x2B then rest else c :: rest

-- The decimal digits at the start of a number, without the underscores between
-- them. There are none if the underscores are out of place.
def leadingDigits (t : Text) : Text :=
  let run := t.unsigned.takeWhile fun c => c = 0x5F || (c.digitOf? 10).isSome
  if (digits? 10 run).isSome then run.filter (· ≠ 0x5F) else []

-- A number is too long by the digits at its start, whatever comes behind them.
def overlong? (t : Text) : Option Overlong :=
  if maxDigits < t.leadingDigits.length then some ⟨t.leadingDigits.length⟩ else none

def isHexMarked : Text → Bool
  | 0x30 :: x :: _ => x = 0x78 || x = 0x58
  | _ => false

-- A hexadecimal number after its mark.
def hexadecimal? (t : Text) : Option Int :=
  match t.drop 2 with
  | [] => none
  | digits => (moreDigits? 16 0 digits).map Int.ofNat

end Text

end PacketCodec
