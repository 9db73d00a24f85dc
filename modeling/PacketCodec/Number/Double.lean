import PacketCodec.Number.Binary

namespace PacketCodec

attribute [local instance (high)] instPowNat

namespace Double

def zero (negative : Bool) : Double :=
  Binary.ofMagnitude negative 0

def infinity (negative : Bool) : Double :=
  Binary.ofMagnitude negative FloatFormat.binary64.infinity

def nan : Double :=
  Binary.nan false 1 0

-- The nearest double, unless the number is too large for one.
def finite? (x : Double) : Option Double :=
  if x.isFinite then some x else none

def ofInt? (n : Int) : Option Double :=
  finite? (Binary.ofRatio (n < 0) n.natAbs 1)

-- The whole number that a double is, if it is one.
def toInt? (x : Double) : Option Int :=
  let unit := 2 ^ FloatFormat.binary64.quantum
  if x.isFinite && x.multiple % unit = 0 then
    let n : Int := (x.multiple / unit : Nat)
    some (if x.negative then -n else n)
  else none

-- The double nearest to a quotient of natural numbers.
def ofRatio? (num den : Nat) : Option Double :=
  finite? (Binary.ofRatio false num den)

-- The sum of two doubles that are finite and not negative.
def plus (x y : Double) : Double :=
  Binary.ofRatio false (x.multiple + y.multiple) (2 ^ FloatFormat.binary64.quantum)

-- The double nearest to `digits * 10 ^ exponent`. Powers far outside the range
-- of doubles are settled by the number of digits alone.
def ofDecimal (negative : Bool) (digits : Nat) (exponent : Int) : Double :=
  let order : Int := (Nat.toDigits 10 digits).length + exponent
  if digits = 0 ∨ order < -340 then zero negative
  else if 310 < order then infinity negative
  else Binary.ofRatio negative (digits * 10 ^ exponent.toNat) (10 ^ (-exponent).toNat)

end Double

end PacketCodec
