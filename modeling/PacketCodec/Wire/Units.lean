import PacketCodec.Text.Utf16
import PacketCodec.Wire.Cursor
import PacketCodec.Wire.LittleEndian

namespace PacketCodec

namespace CodeUnit

def bytes (u : CodeUnit) : List UInt8 :=
  LittleEndian.encode 2 u.val

end CodeUnit

namespace Text

def terminated (t : Text) : List UInt8 :=
  (t.units ++ [0]).flatMap CodeUnit.bytes

end Text

namespace Bytes

-- The code unit at a position of which both bytes are in the buffer.
def unitAt (buffer : Bytes) (pos : Nat) : CodeUnit :=
  Fin.ofNat 0x10000 (LittleEndian.decode (buffer.slice pos (pos + 2)))

-- The units up to the next zero unit, in reverse in front of those before them,
-- and the position after the zero unit. `whole` counts the units that are left.
def takeUnits (buffer : Bytes) :
    (whole pos : Nat) → List CodeUnit → Except Truncation (List CodeUnit × Nat)
  | 0, pos, _ => .error ⟨pos, 2, (buffer.size : Int) - pos⟩
  | whole + 1, pos, before =>
    let u := buffer.unitAt pos
    if u = 0 then .ok (before, pos + 2) else takeUnits buffer whole (pos + 2) (u :: before)

def takeText (buffer : Bytes) (pos : Nat) : Except Truncation (Text × Nat) :=
  (buffer.takeUnits ((buffer.size - pos) / 2) pos []).map fun (reversed, stop) =>
    (Text.ofUnits reversed.reverse, stop)

end Bytes

end PacketCodec
