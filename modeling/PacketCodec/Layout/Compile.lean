import PacketCodec.Failure
import PacketCodec.Layout.Basic
import PacketCodec.Wire.TypeSet

namespace PacketCodec

inductive CompileCause where
  | emptyName
  | duplicate
  | noMembers (type : Text)
  | superfluousMembers (type : Text)
  | unknownType (type : Text)

namespace CompileCause

def message : CompileCause → Text
  | emptyName => "field with empty name"
  | duplicate => "duplicate field"
  | noMembers type => Text.join [type, " has no fields"]
  | superfluousMembers type => Text.join ["primitive type ", type, " cannot have fields"]
  | unknownType type => Text.join ["Unknown type: ", type]

def failure (cause : CompileCause) : Failure :=
  .saying .compilation cause.message

end CompileCause

structure CompileError where
  -- the path of the field, or of what the field belongs to if it has no name
  path : Text
  cause : CompileCause

namespace CompileError

def message (e : CompileError) : Text :=
  Text.join [if e.path = [] then "packet" else e.path, ": ", e.cause.message]

def failure (e : CompileError) : Failure :=
  .saying .compilation e.message

end CompileError

namespace TypeSet

-- The type of a name, for a caller that needs one.
def get (set : TypeSet) (name : Text) : Except CompileCause WireType :=
  match set.find? name with
  | some type => .ok type
  | none => .error (.unknownType name)

end TypeSet

namespace Layout

-- What is wrong with the name of a field, given its siblings before it.
def nameError? (path : Text) (before : List Text) (name : Text) : Option CompileError :=
  if name = [] then some ⟨path, .emptyName⟩
  else if name ∈ before then some ⟨member path name, .duplicate⟩
  else none

-- The wire type of a field without members.
def scalarType (types : TypeSet) (path type : Text) : Except CompileError WireType :=
  if isComposite type then .error ⟨path, .noMembers type⟩
  else (types.get type).mapError fun cause => ⟨path, cause⟩

-- Compiles a list of fields. The number of working names handed out so far goes
-- along and is part of the answer also where compiling fails. An array takes
-- its name before its members do.
def compile (types : TypeSet) :
    FieldList → (path : Text) → (before : List Text) → (issued : Nat) →
      Except CompileError Layout × Nat
  | .nil, _, _, issued => (.ok .nil, issued)
  | .leaf name type rest, path, before, issued =>
    match nameError? path before name, scalarType types (member path name) type with
    | some e, _ => (.error e, issued)
    | none, .error e => (.error e, issued)
    | none, .ok wire =>
      let (others, issued) := compile types rest path (name :: before) issued
      (others.map (.scalar name type wire), issued)
  | .branch name type members rest, path, before, issued =>
    let here := member path name
    match nameError? path before name with
    | some e => (.error e, issued)
    | none =>
      if members.isEmpty then
        match scalarType types here type with
        | .error e => (.error e, issued)
        | .ok wire =>
          let (others, issued) := compile types rest path (name :: before) issued
          (others.map (.scalar name type wire), issued)
      else if type = objectType then
        match compile types members here [] issued with
        | (.error e, issued) => (.error e, issued)
        | (.ok members, issued) =>
          let (others, issued) := compile types rest path (name :: before) issued
          (others.map (.object name members), issued)
      else if type = arrayType then
        let count := TypeSet.bindingName "count" issued
        match compile types members (elements here) [] (issued + 1) with
        | (.error e, issued) => (.error e, issued)
        | (.ok element, issued) =>
          let (others, issued) := compile types rest path (name :: before) issued
          (others.map (.array name count element), issued)
      else (.error ⟨here, .superfluousMembers type⟩, issued)

end Layout

namespace TypeSet

-- The layout of a definition, and the type set with its count of working names
-- brought up to date.
def compile (set : TypeSet) (fields : FieldList) : Except CompileError Layout × TypeSet :=
  let (layout, issued) := Layout.compile set fields [] [] set.issued
  (layout, { set with issued := issued })

end TypeSet

end PacketCodec
