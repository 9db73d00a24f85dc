import PacketCodec.Wire.Cursor
import PacketCodec.Wire.LittleEndian

-- Frames: a header of seven bytes in front of a packet's body. The header holds
-- the size of the whole frame, the opcode and three reserved bytes.

namespace PacketCodec

namespace Frame

def headerSize : Nat := 7

def reservedSize : Nat := 3

def maxSize : Nat := 0xFFFF

-- What can go wrong when a header is written.
inductive HeaderError where
  | tooLarge (size : Int)
  | unpackable

namespace HeaderError

def failure : HeaderError → Failure
  | tooLarge size => .oversize (.int size) (.int maxSize)
  | unpackable => .silent .unpackable

end HeaderError

structure Header where
  length : Int
  opcode : Int
  reserved : List UInt8

-- The two words at the start of a frame.
def words (length opcode : Int) : Except HeaderError (List UInt8) :=
  if (0 ≤ length ∧ length ≤ 0xFFFF) ∧ (0 ≤ opcode ∧ opcode ≤ 0xFFFF) then
    .ok (LittleEndian.encode 2 length.toNat ++ LittleEndian.encode 2 opcode.toNat)
  else .error .unpackable

namespace Header

def default : Header :=
  ⟨headerSize, 0, List.replicate reservedSize 0⟩

-- The reserved bytes are cut or filled up with zeros to three.
def encode (header : Header) : Except HeaderError (List UInt8) :=
  if maxSize < header.length then .error (.tooLarge header.length)
  else
    (words header.length header.opcode).map fun start =>
      start ++ (header.reserved ++ List.replicate reservedSize 0).take reservedSize

def decode (buffer : Bytes) : Except Truncation Header :=
  if buffer.size < headerSize then .error ⟨0, headerSize, buffer.size⟩
  else
    .ok ⟨LittleEndian.decode (Bytes.slice buffer 0 2), LittleEndian.decode (Bytes.slice buffer 2 4),
      Bytes.slice buffer 4 headerSize⟩

end Header

-- The opcode of a frame that is long enough to hold one.
def opcode? (buffer : Bytes) : Option Nat :=
  if buffer.size < 4 then none else some (LittleEndian.decode (Bytes.slice buffer 2 4))

-- Fills in the size and the opcode of a frame whose header is still free.
def fillHeader (buffer : Bytes) (opcode : Int) : Except HeaderError Bytes :=
  if maxSize < buffer.size then .error (.tooLarge buffer.size)
  else if buffer.size < 4 then .error .unpackable
  else
    (words buffer.size opcode).map fun start => (WriteCursor.put ⟨buffer, 0⟩ start).buffer

end Frame

end PacketCodec
