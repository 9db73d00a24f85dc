import PacketCodec.Definition.Basic
import PacketCodec.Failure
import PacketCodec.Text.Utf8

namespace PacketCodec

namespace Definition

-- The text under a key of a record that must have it. Bytes are read as UTF-8.
def requireText (entries : List (Text × Value)) (key : Text) : Except (List Issue) Text :=
  match entries.lookup key with
  | none => .error [⟨[.key key], .missing⟩]
  | some (.text t) => .ok t
  | some (.bytes b) =>
    match Utf8.decode? b with
    | some t => .ok t
    | none => .error [⟨[.key key], .notUnicode⟩]
  | some _ => .error [⟨[.key key], .notText⟩]

mutual

-- A field in front of the fields that follow it.
def field (value : Value) (rest : Except (List Issue) FieldList) (i : Nat) :
    Except (List Issue) FieldList :=
  match value with
  | .record entries =>
    let name := requireText entries "name"
    let type := requireText entries "type"
    let members := membersOf entries
    match name, type, members, rest with
    | .ok name, .ok type, .ok (some members), .ok rest => .ok (.branch name type members rest)
    | .ok name, .ok type, .ok none, .ok rest => .ok (.leaf name type rest)
    | _, _, _, _ =>
      .error ((Issue.found name ++ Issue.found type ++ Issue.found members).map
        (Issue.under (.index i)) ++ Issue.found rest)
  | _ => .error (⟨[.index i], .notDefinition⟩ :: Issue.found rest)

-- The fields of a list, the first of which has the index `i`.
def fields : List Value → (i : Nat) → Except (List Issue) FieldList
  | [], _ => .ok .nil
  | value :: rest, i => field value (fields rest (i + 1)) i

-- The member list among the parts of a field, if it has one.
def membersOf : List (Text × Value) → Except (List Issue) (Option FieldList)
  | [] => .ok none
  | (key, value) :: rest =>
    if key = "fields" then
      match value with
      | .null => .ok none
      | .list items | .tuple items =>
        match fields items 0 with
        | .ok members => .ok (some members)
        | .error found => .error (found.map (Issue.under (.key "fields")))
      | _ => .error [⟨[.key "fields"], .notMembers⟩]
    else membersOf rest

end

-- A whole definition is a record of fields; without them it has none.
def ofValue (value : Value) : Except (List Issue) FieldList :=
  match value with
  | .record entries =>
    match entries.lookup (Text.ofString "fields") with
    | some .null => .error [⟨[.key "fields"], .notMembers⟩]
    | _ => (membersOf entries).map (·.getD .nil)
  | _ => .error [⟨[], .notDefinition⟩]

end Definition

end PacketCodec
