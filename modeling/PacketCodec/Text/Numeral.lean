import PacketCodec.Text.Blank
import PacketCodec.Text.Decimal

-- Numerals of whole numbers in ASCII digits. White space around them, zeros and
-- underscores in front of them and zeros behind a point do not count.

namespace PacketCodec

namespace Text

-- What follows a zero or an underscore in front of a number. The last of them
-- is kept if a point or nothing comes after it.
def afterZeros? (last : CodePoint) : Text → Option Text
  | [] => some [last]
  | c :: rest =>
    if c = 0x30 ∨ c = 0x5F then afterZeros? c rest
    else if c = 0x2E then some (last :: c :: rest)
    else if c = 0x2D ∨ c.isAsciiDigit then some (c :: rest)
    else none

-- A number without the zeros in front of it. A dash may stand behind the zeros.
def withoutZeros? : Text → Option Text
  | [] => none
  | c :: rest =>
    if c = 0x30 then afterZeros? c rest
    else if c = 0x2D ∨ c.isAsciiDigit then some (c :: rest)
    else none

-- A number without its point and the zeros behind it, of which there is at
-- least one.
def withoutFraction? (t : Text) : Option Text :=
  let whole := t.takeWhile (· ≠ 0x2E)
  match t.drop whole.length with
  | [] => some whole
  | _ :: zeros => if zeros ≠ [] ∧ zeros.all (· = 0x30) then some whole else none

-- Whether each underscore stands between two other code points.
def isGrouped : Text → Bool
  | [] => true
  | [c] => c ≠ 0x5F
  | c :: d :: rest => (c ≠ 0x5F || d ≠ 0x5F) && isGrouped (d :: rest)

-- A number without its underscores.
def withoutGroups? (t : Text) : Option Text :=
  if t.head? ≠ some 0x5F ∧ t.isGrouped then some (t.filter (· ≠ 0x5F)) else none

-- The value of digits that do not start with a zero, unless it is all of them.
def natural? (digits : Text) : Option Nat :=
  if digits ≠ [] ∧ digits.all CodePoint.isAsciiDigit ∧
      (digits.head? ≠ some 0x30 ∨ digits = [0x30]) then
    some digits.toNat
  else none

-- The value of a natural number or of one behind a dash.
def signed? : Text → Option Int
  | 0x2D :: digits => (natural? digits).map fun n => -(n : Int)
  | digits => (natural? digits).map Int.ofNat

-- A number without its fraction and its underscores, as far as they can go.
def cleaned (t : Text) : Text :=
  let t := (withoutFraction? t).getD t
  (withoutGroups? t).getD t

-- A numeral without what does not count in it.
def core? (t : Text) : Option Text :=
  match t.stripAll CodePoint.isWhite with
  | 0x2D :: rest => (withoutZeros? rest).map fun rest => cleaned (0x2D :: rest)
  | 0x2B :: 0x2D :: _ => none
  | 0x2B :: rest => (withoutZeros? rest).map cleaned
  | rest => (withoutZeros? rest).map cleaned

-- Whether a text starts with a number that is too long. A number ends before
-- anything that is no digit, and after a zero in front. Its dash counts as a
-- digit.
def isOverlong (t : Text) : Bool :=
  let dash := t.takeWhile (· = 0x2D)
  let digits := (t.drop dash.length).takeWhile CodePoint.isAsciiDigit
  dash.length ≤ 1 && digits.head? ≠ some 0x30 && maxDigits < dash.length + digits.length

inductive NumeralFault where
  | malformed
  | overlong

-- The value of a numeral. Only what the text itself starts with can be too
-- long: a number that is too long without what does not count is malformed.
def readNumeral (t : Text) : Except NumeralFault Int :=
  if t.isOverlong then .error .overlong
  else
    match core? t with
    | none => .error .malformed
    | some core =>
      if core.isOverlong then .error .malformed
      else
        match signed? core with
        | some n => .ok n
        | none => .error .malformed

end Text

end PacketCodec
