import PacketCodec.Number.Double
import PacketCodec.Text.Decimal

namespace PacketCodec

attribute [local instance (high)] instPowNat

-- `digits * 10 ^ exponent`
structure Decimal where
  digits : Nat
  exponent : Int

namespace Decimal

def digitCount (n : Nat) : Nat :=
  (Nat.toDigits 10 n).length

-- The decimal as a quotient of natural numbers.
def num (d : Decimal) : Nat :=
  d.digits * 10 ^ d.exponent.toNat

def den (d : Decimal) : Nat :=
  10 ^ (-d.exponent).toNat

def readsBack (x : Double) (d : Decimal) : Bool :=
  (Binary.ofRatio false d.num d.den : Double).magnitude = x.magnitude

-- The power of ten of the leading digit of a positive double. Scaled by
-- 10 ^ 400 every positive double is above one.
def order (x : Double) : Int :=
  digitCount (x.multiple * 10 ^ (400 : Nat) / 2 ^ FloatFormat.binary64.quantum) - 401

-- Of the two neighbours of the double on the grid of multiples of
-- 10 ^ exponent, those that read back, the nearer one if both do, the even one
-- if both are equally near.
def onGrid? (x : Double) (exponent : Int) : Option Decimal :=
  let num := x.multiple * 10 ^ (-exponent).toNat
  let den := 2 ^ FloatFormat.binary64.quantum * 10 ^ exponent.toNat
  let below : Decimal := ⟨num / den, exponent⟩
  let above : Decimal := ⟨num / den + 1, exponent⟩
  match readsBack x below, readsBack x above with
  | true, true => some ⟨roundHalfEven num den, exponent⟩
  | true, false => some below
  | false, true => some above
  | false, false => none

-- The decimal with the fewest digits that reads back. Seventeen digits always
-- suffice.
def shortest (x : Double) : Decimal :=
  let grids := (List.range 17).map fun count : Nat => order x - count
  (grids.findSome? (onGrid? x)).getD ⟨0, 0⟩

-- Where the point stands among the digits, counted from their left end.
def point (d : Decimal) : Int :=
  digitCount d.digits + d.exponent

-- The digits without the zeros at their end.
def significant (d : Decimal) : Text :=
  ((Text.ofNat d.digits).reverse.dropWhile (· == 0x30)).reverse

-- Positional notation, with at least one digit on each side of the point.
def positional (d : Decimal) : Text :=
  let digits := d.significant
  if d.point ≤ 0 then Text.join ["0.", List.replicate (-d.point).toNat 0x30, digits]
  else
    let whole := d.point.toNat
    let fraction := digits.drop whole
    Text.join [digits.take whole, List.replicate (whole - digits.length) 0x30, ".",
      if fraction = [] then "0" else fraction]

-- Scientific notation, with one digit before the point and an exponent of at
-- least two digits.
def scientific (d : Decimal) : Text :=
  let exponent := d.point - 1
  let magnitude := Text.ofNat exponent.natAbs
  let mantissa : Text :=
    match d.significant with
    | first :: next :: rest => Text.join [[first], ".", next :: rest]
    | digits => digits
  Text.join [mantissa, "e", if exponent < 0 then "-" else "+",
    if magnitude.length < 2 then "0" else "", magnitude]

-- Numbers from 0.0001 up to 10 ^ 16 are written positionally.
def text (d : Decimal) : Text :=
  if -4 < d.point ∧ d.point ≤ 16 then d.positional else d.scientific

end Decimal

namespace Double

def unsignedText (x : Double) : Text :=
  if x.isNaN then "nan"
  else if x.isInfinite then "inf"
  else if x.isZero then "0.0"
  else (Decimal.shortest x).text

def text (x : Double) : Text :=
  if x.negative && !x.isNaN then '-' :: x.unsignedText else x.unsignedText

end Double

end PacketCodec
