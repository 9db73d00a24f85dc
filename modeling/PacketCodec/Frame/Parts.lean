import PacketCodec.Frame
import PacketCodec.Value.Order

namespace PacketCodec

namespace Frame

inductive PartError where
  | header (e : HeaderError)
  | tooLarge (size : Value)
  | notOrdered (e : NotOrdered)
  | notSequence (found : Text)
  | notDivisible
  | notEncoded
  | notByte (found : Text)
  | byteOutOfRange

namespace PartError

def failure : PartError → Failure
  | header e => e.failure
  | tooLarge size => .frameTooLarge size (.int maxSize)
  | notOrdered e => e.failure
  | notSequence found => .saying .badType (Text.join ["'", found, "' object is not subscriptable"])
  | notDivisible => .saying .badType "unhashable type: 'slice'"
  | notEncoded => .saying .badType "string argument without an encoding"
  | notByte found =>
    .saying .badType (Text.join ["'", found, "' object cannot be interpreted as an integer"])
  | byteOutOfRange => .saying .badValue "bytes must be in range(0, 256)"

end PartError

-- A length is a number that is not too large.
def checkLength (length : Value) : Except PartError Unit := do
  if ← (length.compared .greater (.int maxSize)).mapError .notOrdered then
    .error (.tooLarge length)

def byteOf (value : Value) : Except PartError UInt8 :=
  match value.integer? with
  | some n => if 0 ≤ n ∧ n < 256 then .ok (UInt8.ofNat n.toNat) else .error .byteOutOfRange
  | none => .error (.notByte value.kind)

-- The reserved bytes, given as bytes or as a list of numbers. Only those that a
-- header has room for are looked at.
def reservedOf (value : Value) : Except PartError (List UInt8) :=
  match value with
  | .bytes b => .ok b
  | .list items | .tuple items => (items.take reservedSize).mapM byteOf
  | .text _ => .error .notEncoded
  | .record _ => .error .notDivisible
  | _ => .error (.notSequence value.kind)

-- The bytes of a header.
def encodeParts (length opcode reserved : Value) : Except PartError (List UInt8) := do
  checkLength length
  let reserved ← reservedOf reserved
  match length.integer?, opcode.integer? with
  | some length, some opcode =>
    (Header.encode ⟨length, opcode, reserved⟩).mapError .header
  | _, _ => .error (.header .unpackable)

-- Fills in the size of a frame and an opcode.
def fillHeaderWith (buffer : Bytes) (opcode : Value) : Except HeaderError Bytes :=
  match opcode.integer? with
  | some n => fillHeader buffer n
  | none => .error (if maxSize < buffer.size then .tooLarge buffer.size else .unpackable)

end Frame

end PacketCodec
