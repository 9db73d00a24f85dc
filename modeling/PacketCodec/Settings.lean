import PacketCodec.Files.Tree
import PacketCodec.Json

namespace PacketCodec

structure Settings where
  root : Path
  definitions : Path
  maps : Path
  revisions : Path

namespace Settings

-- A path given as a value. Null stands for none.
def pathOf (key : Text) (value : Value) : Except (List Issue) (Option Path) :=
  match value with
  | .null => .ok none
  | .text t => .ok (some (.ofText t))
  | _ => .error [⟨[.key key], .notPath⟩]

-- The root is required. The other places are below it unless they are given.
def ofFields (entries : List (Text × Value)) : Except (List Issue) Settings :=
  let root : Except (List Issue) Path :=
    match entries.lookup (Text.ofString "root") with
    | none => .error [⟨[.key "root"], .missing⟩]
    | some value =>
      match pathOf "root" value with
      | .ok (some path) => .ok path
      | .ok none => .error [⟨[.key "root"], .notPath⟩]
      | .error issues => .error issues
  let place (key : Text) := pathOf key (lookUp entries key)
  let definitions := place "definitions_dir"
  let maps := place "map_dir"
  let revisions := place "revisions_file"
  match root, definitions, maps, revisions with
  | .ok root, .ok definitions, .ok maps, .ok revisions =>
    .ok ⟨root, definitions.getD (root.join (.ofText "protocol")),
      maps.getD (root.join (.ofText "map")),
      revisions.getD (root.join (.ofText "revisions.json"))⟩
  | _, _, _, _ =>
    .error (Issue.found root ++ Issue.found definitions ++ Issue.found maps ++
      Issue.found revisions)

def protocolMap (settings : Settings) (identifier : Text) : Path :=
  settings.maps.join (.ofText (Text.join ["protocol.", identifier, ".map"]))

-- The system message map of a version, which is given as its text.
def sysmsgMap (settings : Settings) (version : Text) : Path :=
  settings.maps.join (.ofText (Text.join ["sysmsg.", version, ".map"]))

-- The table of revisions by protocol identifier. Every member of the file's
-- object counts, its value as a text.
def loadRevisions (settings : Settings) (tree : FileTree) :
    Except Failure (List (Text × Text)) :=
  let unusable (reason : Text) : Failure :=
    .resourceNotFound (Text.join [settings.revisions.text, reason])
  match tree.readText settings.revisions with
  | .ok t =>
    match Json.read t with
    | .ok (.record entries) => .ok (entries.map fun (key, value) => (key, value.shown))
    | .ok _ => .error (unusable " must contain a JSON object")
    | .error .malformed => .error (unusable " is not valid JSON")
    | .error (.overlong e) => .error (.overlong e)
  | .error (.file fault) =>
    .error (if fault.isReported then unusable " not found"
      else (FileTree.ReadError.file fault).failure)
  | .error .undecodable => .error (FileTree.ReadError.undecodable).failure

end Settings

end PacketCodec
