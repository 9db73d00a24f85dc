import PacketCodec.Layout.Basic

namespace PacketCodec

namespace Layout

-- Reads a number of items that follow each other.
def readEach (read : Nat → Except Truncation (Value × Nat)) :
    (count pos : Nat) → List Value → Except Truncation (List Value × Nat)
  | 0, pos, before => .ok (before.reverse, pos)
  | count + 1, pos, before =>
    match read pos with
    | .error e => .error e
    | .ok (value, pos) => readEach read count pos (value :: before)

-- The members of a layout from a position on, and the position after them.
def read (buffer : Bytes) : Layout → (pos : Nat) →
    Except Truncation (List (Text × Value) × Nat)
  | nil, pos => .ok ([], pos)
  | scalar name _ wire rest, pos => do
    let (value, pos) ← wire.read buffer pos
    let (others, pos) ← rest.read buffer pos
    return ((name, value) :: others, pos)
  | object name members rest, pos => do
    let (inner, pos) ← members.read buffer pos
    let (others, pos) ← rest.read buffer pos
    return ((name, .record inner) :: others, pos)
  | array name _ element rest, pos => do
    let (count, pos) ← Bytes.take buffer pos 2
    let (items, pos) ←
      readEach (fun pos => (element.read buffer pos).map fun (inner, pos) => (.record inner, pos))
        (LittleEndian.decode count) pos []
    let (others, pos) ← rest.read buffer pos
    return ((name, .list items) :: others, pos)

end Layout

end PacketCodec
