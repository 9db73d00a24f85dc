import PacketCodec.Codec
import PacketCodec.Definition.Table
import PacketCodec.EnumMap.Basic
import PacketCodec.LogEntry
import PacketCodec.Registry.Identity

namespace PacketCodec

structure Registry where
  identifier : Text
  revision : Revision
  -- packet names and opcodes
  packets : EnumMap
  sysmsgs : EnumMap
  types : TypeSet
  -- compiled codecs by name and version
  byName : List ((Value × Value) × Codec)
  -- the same codecs by the key of an opcode and a version
  byId : List (Int × Codec)
  compileCount : Nat

-- The answer of a registry, with the registry as it is afterwards and what was
-- reported on the way.
structure Served (α : Type) where
  outcome : Except Failure α
  registry : Registry
  log : List LogEntry

namespace Served

-- The same service with another answer.
def mapOutcome {α β : Type} (served : Served α) (f : Except Failure α → Except Failure β) :
    Served β :=
  ⟨f served.outcome, served.registry, served.log⟩

end Served

namespace Registry

inductive ResolveError where
  | unmapped (opcode : Nat)
  | invalidVersion (version name : Value)
  | undefined (e : DefinitionTable.LookUpError)
  | notKey (e : NotKey)
  | notBits (version : Value)

namespace ResolveError

def message : ResolveError → Text
  | unmapped opcode => Text.join ["opcode ", Text.ofNat opcode, " is not mapped"]
  | invalidVersion version name =>
    Text.join ["invalid version ", version.quoted, " for ", name.shown]
  | undefined e => e.message
  | notKey e => e.failure.message
  | notBits version =>
    Text.join ["unsupported operand type(s) for <<: '", version.kind, "' and 'int'"]

def failure : ResolveError → Failure
  | undefined e => e.failure
  | notKey e => e.failure
  | notBits version => .saying .badType (notBits version).message
  | invalidVersion version name =>
    .showing [version] (.saying .unknownPacket (invalidVersion version name).message)
  | unmapped opcode => .saying .unknownPacket (unmapped opcode).message

end ResolveError

-- The name of a packet. A null name counts as none.
def nameOf (r : Registry) : Identity → Except ResolveError Value
  | .name value => .ok value
  | .opcode n =>
    match r.packets.nameOf n.val with
    | none | some .null => .error (.unmapped n.val)
    | some name => .ok name

-- The opcode of a packet, if its name has one.
def opcodeOf (r : Registry) : Identity → Except NotKey (Option Nat)
  | .name value => value.key.map r.packets.codeOf
  | .opcode n => .ok (some n.val)

def maxVersion : Int := 0xFFFF

-- The spellings of the wildcard for the highest version.
def isLatest (t : Text) : Bool :=
  t = "latest" || t = "*"

-- A version is an integer of 16 bits or the wildcard. What the wildcard stands
-- for may be any key.
def resolveVersion (definitions : DefinitionTable) (name version : Value) :
    Except ResolveError Value :=
  match version with
  | .int n =>
    if 0 ≤ n ∧ n ≤ maxVersion then .ok version else .error (.invalidVersion version name)
  | .text t =>
    if isLatest t then (definitions.latest name).mapError .undefined
    else .error (.invalidVersion version name)
  | _ => .error (.invalidVersion version name)

-- Bitwise or with a natural number, in two's complement.
def bitOr (n : Int) (m : Nat) : Int :=
  match n with
  | .ofNat n => .ofNat (n ||| m)
  | .negSucc n => .negSucc (n - (n &&& m))

-- The key of an opcode and a version: the version above the lower 16 bits of
-- the opcode, overlaid with the bits of the opcode beyond 16.
def idKey (opcode : Nat) (version : Int) : Int :=
  bitOr version (opcode / 0x10000) * 0x10000 + (opcode % 0x10000 : Nat)

-- The compiled codec of a name and version. The version may have been taken from
-- the definitions.
def compiled? (r : Registry) (name version : Value) : Option Codec :=
  (r.byName.find? fun entry => entry.1.1.same name && entry.1.2.alike version).map (·.2)

-- Keeps a codec that was compiled for a name and version.
def keep (r : Registry) (name version : Value) (codec : Codec) : Registry :=
  { r with
    byName := r.byName ++ [((name, version), codec)]
    compileCount := r.compileCount + 1 }

-- The codec of a name and version, compiled if it is not there yet. A codec is
-- kept also if it cannot be reported.
def compiled (r : Registry) (definitions : DefinitionTable) (name version : Value) :
    Served Codec :=
  match r.compiled? name version with
  | some codec => ⟨.ok codec, r, []⟩
  | none =>
    match definitions.getOwn name version with
    | .error e => ⟨.error (ResolveError.undefined e).failure, r, []⟩
    | .ok fields =>
      match r.types.codec fields name version with
      | (.error e, types) => ⟨.error e.failure, { r with types := types }, []⟩
      | (.ok codec, types) =>
        let r := { r with types := types }.keep name version codec
        match LogEntry.reportedVersion version with
        | .ok n => ⟨.ok codec, r, [.compiled name n]⟩
        | .error e => ⟨.error e.failure, r, []⟩

-- Files a codec under a key that is still free.
def file (r : Registry) (key : Int) (codec : Codec) : Registry :=
  { r with byId := r.byId ++ [(key, codec)] }

-- The key of an opcode and a version, which must be an integer.
def idKeyOf (opcode : Nat) (version : Value) : Except ResolveError Int :=
  match version.integer? with
  | some n => .ok (idKey opcode n)
  | none => .error (.notBits version)

-- The codec of a packet whose name, opcode and version are known. With an
-- opcode only the key of the opcode is looked up before compiling.
def resolved (r : Registry) (definitions : DefinitionTable) (name : Value) (opcode : Option Nat)
    (version : Value) : Served Codec :=
  match opcode with
  | none => r.compiled definitions name version
  | some opcode =>
    match idKeyOf opcode version with
    | .error e => ⟨.error e.failure, r, []⟩
    | .ok key =>
      match r.byId.lookup key with
      | some codec => ⟨.ok codec, r, []⟩
      | none =>
        let served := r.compiled definitions name version
        match served.outcome with
        | .ok codec => { served with registry := served.registry.file key codec }
        | .error _ => served

-- The name, the opcode and the version of a packet.
def resolve (r : Registry) (definitions : DefinitionTable) (identity : Identity)
    (version : Value) : Except ResolveError (Value × Option Nat × Value) := do
  let name ← r.nameOf identity
  let opcode ← (r.opcodeOf identity).mapError .notKey
  return (name, opcode, ← resolveVersion definitions name version)

-- The codec of a packet.
def codec (r : Registry) (definitions : DefinitionTable) (identity : Identity)
    (version : Value) : Served Codec :=
  match r.resolve definitions identity version with
  | .error e => ⟨.error e.failure, r, []⟩
  | .ok (name, opcode, version) => r.resolved definitions name opcode version

-- A codec for the text of a definition, which is not kept.
def compileText (r : Registry) (t : Text) : Served Codec :=
  let (codec, types) := r.types.codecOfText t
  ⟨codec, { r with types := types }, []⟩

end Registry

end PacketCodec
