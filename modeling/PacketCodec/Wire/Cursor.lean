import PacketCodec.Failure

namespace PacketCodec

abbrev Bytes := Array UInt8

-- The buffer ended before what was to be read from it.
structure Truncation where
  offset : Nat
  needed : Int
  available : Int

namespace Truncation

def failure (t : Truncation) : Failure :=
  .truncatedInput (.int t.offset) (.int t.needed) (.int t.available)

-- The same where the position was not given by a caller, who can give any.
def failureInside (t : Truncation) : Failure :=
  .truncation (.int t.offset) (.int t.needed) (.int t.available)

end Truncation

namespace Bytes

-- The position after a number of bytes, if the buffer holds them all.
def reserve (buffer : Bytes) (pos count : Nat) : Except Truncation Nat :=
  if buffer.size < pos + count then .error ⟨pos, count, (buffer.size - pos : Nat)⟩
  else .ok (pos + count)

def slice (buffer : Bytes) (start stop : Nat) : List UInt8 :=
  (buffer.extract start stop).toList

-- The bytes at a position and the position after them.
def take (buffer : Bytes) (pos count : Nat) : Except Truncation (List UInt8 × Nat) :=
  (buffer.reserve pos count).map fun stop => (buffer.slice pos stop, stop)

end Bytes

structure ReadCursor where
  buffer : Bytes
  pos : Nat

namespace ReadCursor

-- Reserves bytes and returns where they start. A negative count moves the
-- cursor back.
def take (cursor : ReadCursor) (count : Int) : Except Truncation (Nat × ReadCursor) :=
  let available : Int := cursor.buffer.size - cursor.pos
  if available < count then .error ⟨cursor.pos, count, max available 0⟩
  else .ok (cursor.pos, { cursor with pos := (cursor.pos + count).toNat })

end ReadCursor

structure WriteCursor where
  buffer : Bytes
  pos : Nat

namespace WriteCursor

-- Inside the buffer a byte replaces the one at the cursor, beyond its end the
-- buffer grows.
def putByte : WriteCursor → UInt8 → WriteCursor
  | ⟨buffer, pos⟩, b =>
    ⟨if h : pos < buffer.size then buffer.set pos b else buffer.push b, pos + 1⟩

def put (cursor : WriteCursor) (bytes : List UInt8) : WriteCursor :=
  bytes.foldl putByte cursor

end WriteCursor

end PacketCodec
