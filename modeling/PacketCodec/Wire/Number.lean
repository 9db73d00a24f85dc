import PacketCodec.Wire.LittleEndian
import PacketCodec.Wire.Misfit

namespace PacketCodec

attribute [local instance (high)] instPowNat

inductive Packing where
  | whole (signed : Bool) (width : Nat)
  | single
  | double

namespace Packing

def width : Packing → Nat
  | whole _ width => width
  | single => 4
  | double => 8

def signed : Packing → Bool
  | whole signed _ => signed
  | single | double => true

-- The least and the largest whole number of the packing's width and sign.
def low (p : Packing) : Int :=
  if p.signed then -(2 ^ (8 * p.width - 1)) else 0

def high (p : Packing) : Int :=
  if p.signed then 2 ^ (8 * p.width - 1) - 1 else 2 ^ (8 * p.width) - 1

end Packing

-- The double that a whole number or a double stands for.
def Value.toDouble? : Value → Option Double
  | .int n => Double.ofInt? n
  | .double x => some x
  | _ => none

namespace Packing

-- The bytes of a value, if the packing can hold it.
def pack? : Packing → Value → Option (List UInt8)
  | whole signed width, .int n =>
    let p := whole signed width
    if p.low ≤ n ∧ n ≤ p.high then some (LittleEndian.encodeInt width n) else none
  | whole _ _, _ => none
  | single, value =>
    match value.toDouble? with
    | some x =>
      let y : Single := x.convert
      if y.isInfinite && !x.isInfinite then none else some (LittleEndian.encode 4 y.toBits)
    | none => none
  | double, value => value.toDouble?.map fun x => LittleEndian.encode 8 x.toBits

def unpack : Packing → List UInt8 → Value
  | whole true _, bytes => .int (LittleEndian.decodeInt bytes)
  | whole false _, bytes => .int (LittleEndian.decode bytes)
  | single, bytes => .double (Binary.convert (Binary.ofBits (LittleEndian.decode bytes) : Single))
  | double, bytes => .double (Binary.ofBits (LittleEndian.decode bytes))

end Packing

structure NumberType where
  packing : Packing
  -- whether only whole numbers in the range of the packing are accepted
  integral : Bool

namespace NumberType

-- Halfway between the largest finite single and the next power of two. From
-- here on doubles round to infinity.
def singleOverflow : Nat :=
  (2 ^ (128 : Nat) - 2 ^ (103 : Nat)) * 2 ^ FloatFormat.binary64.quantum

def fitsSingle (x : Double) : Bool :=
  !x.isFinite || x.multiple < singleOverflow

-- Accepts whole numbers in the range of the packing.
def checkIntegral (p : Packing) : Value → Except MisfitCause Unit
  | .bool b => .error (.notNumber (Value.bool b).quoted)
  | .int n =>
    if p.low ≤ n ∧ n ≤ p.high then .ok () else .error (.outOfRange n p.low p.high)
  | value => .error (.notInteger value.kind)

-- The double nearest to a whole number that is to be stored as one.
def nearestDouble (n : Int) : Except MisfitCause Double :=
  (Double.ofInt? n).elim (.error (.tooLargeForDouble n)) .ok

-- The double that a number is checked as.
def realOf (value : Value) : Except MisfitCause Double :=
  match value with
  | .bool b => .error (.notNumber (Value.bool b).quoted)
  | .int n => nearestDouble n
  | .double x => .ok x
  | _ => .error (.notNumber value.kind)

-- Accepts every number that does not become too large in the packing's width.
def checkReal (p : Packing) (value : Value) : Except MisfitCause Unit :=
  match realOf value with
  | .error cause => .error cause
  | .ok x => if p.width = 4 && !fitsSingle x then .error (.tooLargeForSingle value) else .ok ()

def check (t : NumberType) (value : Value) : Except MisfitCause Unit :=
  if t.integral then checkIntegral t.packing value else checkReal t.packing value

end NumberType

end PacketCodec
