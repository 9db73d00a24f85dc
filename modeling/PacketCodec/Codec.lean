import PacketCodec.Definition.Grammar
import PacketCodec.Layout.Compile
import PacketCodec.Layout.Decode
import PacketCodec.Layout.Encode

namespace PacketCodec

structure Codec where
  layout : Layout
  name : Value
  version : Value

namespace Codec

-- The value at an offset of a buffer, and the offset just past it.
def decodeFrom (codec : Codec) (buffer : Bytes) (offset : Nat) :
    Except Truncation (Value × Nat) :=
  (codec.layout.read buffer offset).map fun (entries, stop) => (.record entries, stop)

def decode (codec : Codec) (buffer : Bytes) (offset : Nat) : Except Truncation Value :=
  (codec.decodeFrom buffer offset).map (·.1)

def measure (codec : Codec) (value : Value) : Except Misfit Nat := do
  codec.layout.measure (← Layout.entriesOf value []) []

-- The value after a number of zero bytes, in a buffer of exactly that size.
def encode (codec : Codec) (value : Value) (offset : Nat) : Except WriteFault Bytes := do
  let size ← (codec.measure value).mapError .misfit
  let entries ← (Layout.entriesOf value []).mapError .misfit
  let cursor ← codec.layout.write ⟨Array.replicate (offset + size) 0, offset⟩ entries []
  return cursor.buffer

-- The path and the wire type of everything on the wire.
def rows (codec : Codec) : List (Text × Text) :=
  codec.layout.rows []

def shown (codec : Codec) : Text :=
  Text.join ["CompiledCodec(", codec.name.quoted, ", ", codec.version.quoted, ")"]

end Codec

namespace TypeSet

-- Compiles a definition. The type set goes on from there, also after an error.
def codec (set : TypeSet) (fields : FieldList) (name version : Value) :
    Except CompileError Codec × TypeSet :=
  let (layout, set) := set.compile fields
  (layout.map fun layout => ⟨layout, name, version⟩, set)

def codecOfText (set : TypeSet) (t : Text) : Except Failure Codec × TypeSet :=
  match Definition.ofText t with
  | .error e => (.error e.failure, set)
  | .ok fields =>
    let (codec, set) := set.codec fields .null .null
    (codec.mapError CompileError.failure, set)

end TypeSet

end PacketCodec
