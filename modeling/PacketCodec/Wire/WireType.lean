import PacketCodec.Wire.Cursor
import PacketCodec.Wire.Number
import PacketCodec.Wire.Units

namespace PacketCodec

inductive WireType where
  -- one byte, true unless it is zero
  | flag
  | number (type : NumberType)
  | text

-- Why a value could not be written.
inductive WriteFault where
  | misfit (m : Misfit)
  | unpackable
  | outOfBounds

namespace WriteFault

def failure : WriteFault → Failure
  | misfit m => m.failure
  | unpackable => .silent .unpackable
  | outOfBounds => .silent .outOfBounds

end WriteFault

namespace WireType

-- The width of the types whose values are all of one width.
def fixedWidth? : WireType → Option Nat
  | flag => some 1
  | number type => some type.packing.width
  | text => none

-- The value at a position and the position after it.
def read (type : WireType) (buffer : Bytes) (pos : Nat) : Except Truncation (Value × Nat) :=
  match type with
  | flag =>
    (Bytes.take buffer pos 1).map fun (bytes, stop) => (.bool (LittleEndian.decode bytes != 0), stop)
  | number type =>
    (Bytes.take buffer pos type.packing.width).map fun (bytes, stop) =>
      (type.packing.unpack bytes, stop)
  | text => (Bytes.takeText buffer pos).map fun (t, stop) => (.text t, stop)

-- The text that a value stands for. Null is the empty text.
def textOf (value : Value) : Except MisfitCause Text :=
  match value with
  | .null => .ok []
  | .text t => .ok t
  | _ => .error .notText

def measure (type : WireType) (value : Value) (field : Value) : Except Misfit Nat :=
  match type with
  | flag => .ok 1
  | number type =>
    match type.check value with
    | .ok _ => .ok type.packing.width
    | .error cause => .error ⟨cause, field⟩
  | text =>
    match textOf value with
    | .ok t => .ok (2 * t.units.length + 2)
    | .error cause => .error ⟨cause, field⟩

-- Writes a value at the cursor. A flag or a number needs its room in the
-- buffer, a text makes the buffer grow.
def write (type : WireType) (cursor : WriteCursor) (value : Value) (field : Value) :
    Except WriteFault WriteCursor :=
  match type with
  | flag =>
    if cursor.pos < cursor.buffer.size then .ok (cursor.putByte (if value.truth then 1 else 0))
    else .error .outOfBounds
  | number type =>
    match type.check value, type.packing.pack? value with
    | .error cause, _ => .error (.misfit ⟨cause, field⟩)
    | .ok _, none => .error .unpackable
    | .ok _, some bytes =>
      if cursor.pos + bytes.length ≤ cursor.buffer.size then .ok (cursor.put bytes)
      else .error .unpackable
  | text =>
    match textOf value with
    | .ok t => .ok (cursor.put t.terminated)
    | .error cause => .error (.misfit ⟨cause, field⟩)

end WireType

namespace ReadCursor

def read (cursor : ReadCursor) (type : WireType) : Except Truncation (Value × ReadCursor) :=
  (type.read cursor.buffer cursor.pos).map fun (value, stop) =>
    (value, { cursor with pos := stop })

end ReadCursor

end PacketCodec
