import PacketCodec.Definition.Grammar
import PacketCodec.Value.Order

namespace PacketCodec

-- Sums start from the zero of the core library.
attribute [local instance (high)] Zero.ofOfNat0

structure DefinitionTable where
  -- by name, then by version
  packets : Keyed (Keyed FieldList)
  frozen : Bool

namespace DefinitionTable

inductive AddError where
  | frozen
  | grammar (e : GrammarError)
  | notKey (e : NotKey)

namespace AddError

def failure : AddError → Failure
  | frozen => .saying .readOnly "definition table is read-only"
  | grammar e => e.failure
  | notKey e => e.failure

end AddError

inductive LookUpError where
  | noPacket (name : Value)
  | noVersion (name version : Value)
  | notKey (e : NotKey)
  | notOrdered (e : NotOrdered)

namespace LookUpError

def message : LookUpError → Text
  | noPacket name => Text.join ["no definitions for packet ", name.shown]
  | noVersion name version =>
    Text.join ["no definition for ", name.shown, " version ", version.shown]
  | notKey e => e.failure.message
  | notOrdered e => e.failure.message

def failure : LookUpError → Failure
  | notKey e => e.failure
  | notOrdered e => e.failure
  | noPacket name => .saying .unknownPacket (noPacket name).message
  | noVersion name version =>
    .showing [version] (.saying .unknownPacket (noVersion name version).message)

end LookUpError

def empty : DefinitionTable :=
  ⟨[], false⟩

def packet (table : DefinitionTable) (name : Value) : Keyed FieldList :=
  (table.packets.get? name).getD []

-- Puts the definitions of a packet in place of those it had before.
def withPacket (table : DefinitionTable) (name : Value) (versions : Keyed FieldList) :
    DefinitionTable :=
  { table with packets := table.packets.put name versions }

-- Puts a definition in place of the one that the name and version had before.
def insert (table : DefinitionTable) (name version : Value) (fields : FieldList) :
    DefinitionTable :=
  table.withPacket name ((table.packet name).put version fields)

-- The answer to adding a definition, and the table afterwards. If only the
-- version is no key, the packet is there without it.
def add (table : DefinitionTable) (name version : Value) (fields : FieldList) :
    Except AddError Unit × DefinitionTable :=
  if table.frozen then (.error .frozen, table)
  else
    match name.key, version.key with
    | .ok name, .ok version => (.ok (), table.insert name version fields)
    | .ok name, .error e => (.error (.notKey e), table.withPacket name (table.packet name))
    | .error e, _ => (.error (.notKey e), table)

def addText (table : DefinitionTable) (name version : Value) (t : Text) :
    Except AddError Unit × DefinitionTable :=
  if table.frozen then (.error .frozen, table)
  else
    match Definition.ofText t with
    | .ok fields => table.add name version fields
    | .error e => (.error (.grammar e), table)

def freeze (table : DefinitionTable) : DefinitionTable :=
  { table with frozen := true }

def contains (table : DefinitionTable) (name : Value) : Except NotKey Bool :=
  name.key.map table.packets.contains

-- A definition, given how a version is found among those of its packet.
def lookUp (table : DefinitionTable) (find : Keyed FieldList → Value → Option FieldList)
    (name version : Value) : Except LookUpError FieldList := do
  let name ← name.key.mapError .notKey
  match table.packets.get? name with
  | none => .error (.noPacket name)
  | some versions =>
    let version ← version.key.mapError .notKey
    match find versions version with
    | none => .error (.noVersion name version)
    | some fields => .ok fields

def get (table : DefinitionTable) (name version : Value) : Except LookUpError FieldList :=
  table.lookUp Keyed.get? name version

-- The definition of a version that may have been taken from the table itself.
def getOwn (table : DefinitionTable) (name version : Value) : Except LookUpError FieldList :=
  table.lookUp Keyed.getOwn? name version

def versions (table : DefinitionTable) (name : Value) : Except LookUpError (List Value) := do
  let name ← name.key.mapError .notKey
  (Value.sorted (table.packet name).keys).mapError .notOrdered

def latest (table : DefinitionTable) (name : Value) : Except LookUpError Value := do
  let name ← name.key.mapError .notKey
  match (table.packet name).keys with
  | [] => .error (.noPacket name)
  | version :: rest => (version.greatest rest).mapError .notOrdered

def names (table : DefinitionTable) : Except NotOrdered (List Value) :=
  Value.sorted table.packets.keys

-- The names of all packets with their versions, all in order.
def index (table : DefinitionTable) : Except NotOrdered (Keyed (List Value)) := do
  (← Value.sortedBy (·.1) table.packets).mapM fun packet => do
    return (packet.1, ← Value.sorted packet.2.keys)

def size (table : DefinitionTable) : Nat :=
  table.packets.length

def count (table : DefinitionTable) : Nat :=
  (table.packets.map fun entry => entry.2.length).sum

end DefinitionTable

end PacketCodec
