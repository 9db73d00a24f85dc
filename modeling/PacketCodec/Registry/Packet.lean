import PacketCodec.Frame
import PacketCodec.Registry.Basic

namespace PacketCodec

namespace Registry

-- The name of a packet, null if its opcode has none.
def nameOrNull (r : Registry) : Identity → Value
  | .name value => value
  | .opcode n => (r.packets.nameOf n.val).getD .null

-- A packet in messages: its name, or what it is addressed by if it has none.
def describe (r : Registry) (identity : Identity) : Text :=
  let name := r.nameOrNull identity
  if name.truth then name.shown
  else
    match identity with
    | .name value => Text.join ["opcode ", value.shown]
    | .opcode n => Text.join ["opcode ", Text.ofNat n.val]

-- The name that the opcode in a frame stands for, null if there is none.
def nameInFrame (r : Registry) (frame : Bytes) : Value :=
  ((Frame.opcode? frame).bind fun n => r.packets.nameOf n).getD .null

-- A failure to read is labelled with the packet that the frame itself names,
-- else with the packet asked for.
def parsingFailed (r : Registry) (identity : Identity) (frame : Bytes) (e : Failure) : Failure :=
  let named := r.nameInFrame frame
  let packet := if named.truth then named.shown else r.describe identity
  e.annotate (.text (Text.join ["Error parsing ", packet])) named

def writingFailed (r : Registry) (identity : Identity) (e : Failure) : Failure :=
  e.annotate (.text (Text.join ["Error writing ", r.describe identity])) (r.nameOrNull identity)

-- The value in a frame, whose header must be complete.
def decodeFrame (codec : Codec) (frame : Bytes) : Except Failure Value := do
  let _ ← (Frame.Header.decode frame).mapError Truncation.failureInside
  (codec.decode frame Frame.headerSize).mapError Truncation.failureInside

-- The frame of a value.
def encodeFrame (codec : Codec) (opcode : Nat) (value : Value) : Except Failure Bytes := do
  let frame ← (codec.encode value Frame.headerSize).mapError WriteFault.failure
  (Frame.fillHeader frame opcode).mapError Frame.HeaderError.failure

def frameLength (codec : Codec) (value : Value) : Except Failure Nat := do
  let size ← (codec.measure value).mapError Misfit.failure
  return Frame.headerSize + size

-- Decodes a framed packet.
def read (r : Registry) (definitions : DefinitionTable) (identity : Identity) (version : Value)
    (frame : Bytes) : Served Value :=
  (r.codec definitions identity version).mapOutcome fun codec =>
    (codec.bind fun codec => decodeFrame codec frame).mapError (r.parsingFailed identity frame)

-- Encodes a packet into a frame. A packet without an opcode is framed with zero.
def write (r : Registry) (definitions : DefinitionTable) (identity : Identity) (version : Value)
    (value : Value) : Served Bytes :=
  (r.codec definitions identity version).mapOutcome fun codec =>
    (do
      let codec ← codec
      let opcode ← (r.opcodeOf identity).mapError NotKey.failure
      encodeFrame codec (opcode.getD 0) value).mapError (r.writingFailed identity)

-- The length of the frame that writing would produce.
def length (r : Registry) (definitions : DefinitionTable) (identity : Identity) (version : Value)
    (value : Value) : Served Nat :=
  (r.codec definitions identity version).mapOutcome fun codec =>
    (codec.bind fun codec => frameLength codec value).mapError (r.writingFailed identity)

end Registry

end PacketCodec
