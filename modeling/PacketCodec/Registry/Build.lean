import PacketCodec.Files.Load
import PacketCodec.Registry.Basic
import PacketCodec.Settings

namespace PacketCodec

namespace Registry

-- What can be given instead of being loaded.
structure Given where
  revisions : Option (List (Text × Value))
  packets : Option EnumMap
  sysmsgs : Option EnumMap

-- The settings, where something has to be loaded.
def required (settings : Option Settings) (what : Text) : Except Failure Settings :=
  match settings with
  | some settings => .ok settings
  | none =>
    .error (.saying .badValue
      (Text.join ["no ", what, " given and no data settings to load it from"]))

def maxOpcode : Nat := 0xFFFF

def revisionsOf (tree : FileTree) (settings : Option Settings) (given : Given) :
    Except Failure (List (Text × Value)) :=
  match given.revisions with
  | some revisions => .ok revisions
  | none => do
    let revisions ← (← required settings "revision table").loadRevisions tree
    return revisions.map fun (key, value) => (key, .text value)

-- The revision of an identifier.
def revisionOf (revisions : List (Text × Value)) (identifier : Text) : Except Failure Revision :=
  match lookUp revisions identifier with
  | .null => .error (.revisionNotFound (.text identifier))
  | value => Revision.ofValue value

-- The opcode map, which must keep to 16 bits.
def packetsOf (tree : FileTree) (settings : Option Settings) (given : Given)
    (identifier : Text) : Except Failure EnumMap :=
  match given.packets with
  | some packets =>
    if packets.codes.any (maxOpcode < ·) then
      .error (.resourceNotFound
        (Text.join ["opcode map for ", identifier, " has codes above 0xffff"]))
    else .ok packets
  | none => do
    let path := (← required settings "opcode map").protocolMap identifier
    EnumMap.load tree path (.int maxOpcode)

-- The system message map.
def sysmsgsOf (tree : FileTree) (settings : Option Settings) (given : Given)
    (revision : Revision) : Except Failure EnumMap :=
  match given.sysmsgs with
  | some sysmsgs => .ok sysmsgs
  | none => do
    let path := (← required settings "sysmsg map").sysmsgMap (Text.ofNat revision.sysmsgMapVersion)
    EnumMap.load tree path .null

def typesOf (revision : Revision) : Except Failure TypeSet :=
  revision.gameVersion?.elim (.error (.silent .numberTooLarge)) fun version =>
    .ok (.new (.double version))

def assemble (tree : FileTree) (settings : Option Settings) (given : Given)
    (identifier : Text) : Except Failure Registry := do
  let revision ← revisionOf (← revisionsOf tree settings given) identifier
  let packets ← packetsOf tree settings given identifier
  let sysmsgs ← sysmsgsOf tree settings given revision
  let types ← typesOf revision
  return ⟨identifier, revision, packets, sysmsgs, types, [], [], 0⟩

-- A new registry, and what is reported about it.
def build (tree : FileTree) (settings : Option Settings) (given : Given) (identifier : Text) :
    Except Failure Registry × List LogEntry :=
  match assemble tree settings given identifier with
  | .ok r => (.ok r, [.revisionInUse r.identifier r.revision])
  | .error e => (.error e, [])

end Registry

end PacketCodec
