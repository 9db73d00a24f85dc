import PacketCodec.Definition.Basic
import PacketCodec.Failure
import PacketCodec.Text.Blank

namespace PacketCodec

inductive GrammarCause where
  | notTypeAndName (found : Text)
  | tooDeep (name : Text)
  | noMembers (type name : Text)

namespace GrammarCause

def message : GrammarCause → Text
  | notTypeAndName found => Text.join ["expected '<type> <name>', got ", found.quoted]
  | tooDeep name => Text.join ["field ", name.quoted, " is nested too deep"]
  | noMembers type name => Text.join [type, " ", name.quoted, " has no fields"]

end GrammarCause

structure GrammarError where
  -- the number of the line at fault, none at the end of the text
  line : Option Nat
  cause : GrammarCause

namespace GrammarError

def failure (e : GrammarError) : Failure :=
  .misspelling (.text e.cause.message) (e.line.elim .null fun n => .int n)

end GrammarError

structure Entry where
  depth : Nat
  type : Text
  name : Text
  deriving DecidableEq

namespace Entry

def isComposite (e : Entry) : Bool :=
  PacketCodec.isComposite e.type

end Entry

namespace Definition

-- The part of a line that counts: without its comment and the blanks around it.
def content (line : Text) : Text :=
  Text.strip (line.takeWhile (· ≠ (0x23 : CodePoint)))

def dashes (content : Text) : Nat :=
  (content.takeWhile (· = (0x2D : CodePoint))).length

-- A line is read as its dashes, a type and a name. A line without content is
-- skipped.
def readLine (line : Text) : Except GrammarCause (Option Entry) :=
  let content := content line
  if content = [] then .ok none
  else
    match Text.words (content.drop (dashes content)) with
    | [type, name] => .ok (some ⟨dashes content, type, name⟩)
    | _ => .error (.notTypeAndName (Text.strip line))

end Definition

-- An array or object that is still open, with the fields before it in the
-- structure around it, the last one first.
structure Parent where
  type : Text
  name : Text
  before : FieldList

-- A definition that is read in part: the fields of the innermost open structure,
-- the last one first, and the open arrays and objects, the innermost first.
structure Draft where
  fields : FieldList
  parents : List Parent

namespace Draft

def empty : Draft :=
  ⟨.nil, []⟩

-- Closes an array or object, whose members are the given fields. It must have
-- some.
def close (line : Option Nat) (fields : FieldList) (parent : Parent) :
    Except GrammarError FieldList :=
  if fields.isEmpty then .error ⟨line, .noMembers parent.type parent.name⟩
  else .ok (.branch parent.name parent.type fields.reverse parent.before)

-- Closes arrays and objects from the innermost outwards until no more than a
-- number of them are open.
def closeTo (line : Option Nat) (depth : Nat) (fields : FieldList) :
    (parents : List Parent) → Except GrammarError Draft
  | [] => .ok ⟨fields, []⟩
  | parent :: parents =>
    if parents.length < depth then .ok ⟨fields, parent :: parents⟩
    else
      match close line fields parent with
      | .error e => .error e
      | .ok fields => closeTo line depth fields parents

-- Adds a field to the innermost open structure. An array or object is open from
-- then on.
def push (draft : Draft) (entry : Entry) : Draft :=
  if entry.isComposite then
    ⟨.nil, ⟨entry.type, entry.name, draft.fields⟩ :: draft.parents⟩
  else ⟨.leaf entry.name entry.type draft.fields, draft.parents⟩

-- Adds the field of a line where its depth says.
def place (draft : Draft) (line : Nat) (entry : Entry) : Except GrammarError Draft :=
  if draft.parents.length < entry.depth then .error ⟨some line, .tooDeep entry.name⟩
  else (closeTo (some line) entry.depth draft.fields draft.parents).map (·.push entry)

-- Adds the fields of numbered lines.
def readLines (draft : Draft) : (number : Nat) → List Text → Except GrammarError Draft
  | _, [] => .ok draft
  | number, line :: rest =>
    match Definition.readLine line with
    | .error cause => .error ⟨some number, cause⟩
    | .ok none => draft.readLines (number + 1) rest
    | .ok (some entry) =>
      match draft.place number entry with
      | .error e => .error e
      | .ok draft => draft.readLines (number + 1) rest

-- The fields of a definition that is read to its end.
def finish (draft : Draft) : Except GrammarError FieldList :=
  (closeTo none 0 draft.fields draft.parents).map (·.fields.reverse)

end Draft

namespace Definition

def ofText (t : Text) : Except GrammarError FieldList := do
  (← Draft.empty.readLines 1 t.lines).finish

end Definition

end PacketCodec
