namespace PacketCodec

-- Powers are those of the core library.
attribute [local instance (high)] instPowNat

-- The quotient rounded to the nearest whole number, a half to the even one.
def roundHalfEven (num den : Nat) : Nat :=
  let quotient := num / den
  let twice := 2 * (num % den)
  if twice < den ∨ (twice = den ∧ quotient % 2 = 0) then quotient else quotient + 1

structure FloatFormat where
  exponentBits : Nat
  fractionBits : Nat

namespace FloatFormat

def binary32 : FloatFormat := ⟨8, 23⟩

def binary64 : FloatFormat := ⟨11, 52⟩

variable (f : FloatFormat)

def magnitudeBits : Nat :=
  f.exponentBits + f.fractionBits

-- The magnitude of infinity. Those below it are finite, those above it are not
-- numbers.
def infinity : Nat :=
  (2 ^ f.exponentBits - 1) * 2 ^ f.fractionBits

theorem infinity_lt : f.infinity < 2 ^ f.magnitudeBits := by
  unfold infinity magnitudeBits
  rw [Nat.pow_add]
  exact Nat.mul_lt_mul_of_pos_right (Nat.sub_lt (Nat.two_pow_pos _) Nat.one_pos)
    (Nat.two_pow_pos _)

-- Every finite number is a multiple of the smallest positive one, which is
-- 1 / 2 ^ quantum.
def quantum : Nat :=
  2 ^ (f.exponentBits - 1) - 2 + f.fractionBits

-- How many times the smallest positive number a magnitude stands for.
def multiple (magnitude : Nat) : Nat :=
  let fraction := magnitude % 2 ^ f.fractionBits
  match magnitude / 2 ^ f.fractionBits with
  | 0 => fraction
  | exponent + 1 => (2 ^ f.fractionBits + fraction) * 2 ^ exponent

-- The magnitude nearest to a multiple of the smallest positive number that
-- need not be whole, as if there were no largest one. A tie goes to the even
-- magnitude.
def nearest (num den : Nat) : Nat :=
  let exponent := Nat.log2 (num / den) - f.fractionBits
  exponent * 2 ^ f.fractionBits + roundHalfEven num (den * 2 ^ exponent)

end FloatFormat

structure Binary (f : FloatFormat) where
  negative : Bool
  magnitude : Fin (2 ^ f.magnitudeBits)
  deriving DecidableEq

abbrev Single := Binary .binary32

abbrev Double := Binary .binary64

namespace Binary

variable {f : FloatFormat}

def isFinite (x : Binary f) : Bool :=
  x.magnitude.val < f.infinity

def isInfinite (x : Binary f) : Bool :=
  x.magnitude.val = f.infinity

def isNaN (x : Binary f) : Bool :=
  f.infinity < x.magnitude.val

def isZero (x : Binary f) : Bool :=
  x.magnitude.val = 0

-- How many times the smallest positive number of the format.
def multiple (x : Binary f) : Nat :=
  f.multiple x.magnitude.val

-- The number with a given magnitude, infinity if it is beyond the finite ones.
def ofMagnitude (negative : Bool) (magnitude : Nat) : Binary f :=
  ⟨negative, ⟨min magnitude f.infinity, Nat.lt_of_le_of_lt (Nat.min_le_right _ _) f.infinity_lt⟩⟩

-- The number nearest to a quotient.
def ofRatio (negative : Bool) (num den : Nat) : Binary f :=
  ofMagnitude negative (f.nearest (num * 2 ^ f.quantum) den)

-- The bits as one number: the sign above the magnitude.
def toBits (x : Binary f) : Nat :=
  x.negative.toNat * 2 ^ f.magnitudeBits + x.magnitude.val

def ofBits (bits : Nat) : Binary f :=
  ⟨bits / 2 ^ f.magnitudeBits % 2 = 1,
    ⟨bits % 2 ^ f.magnitudeBits, Nat.mod_lt _ (Nat.two_pow_pos _)⟩⟩

-- The quiet not-a-number in which the top bits of a payload of another width
-- are kept.
def nan (negative : Bool) (payloadBits payload : Nat) : Binary f :=
  let quiet := 2 ^ (f.fractionBits - 1)
  let kept := payload * 2 ^ f.fractionBits / 2 ^ payloadBits % quiet
  ⟨negative, ⟨(f.infinity + quiet + kept) % 2 ^ f.magnitudeBits,
    Nat.mod_lt _ (Nat.two_pow_pos _)⟩⟩

-- The number of another format that is nearest to this one.
def convert {g : FloatFormat} (x : Binary f) : Binary g :=
  if x.isNaN then nan x.negative f.fractionBits (x.magnitude.val - f.infinity)
  else if x.isInfinite then ofMagnitude x.negative g.infinity
  else ofRatio x.negative x.multiple (2 ^ f.quantum)

end Binary

end PacketCodec
