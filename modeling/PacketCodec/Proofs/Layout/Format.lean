import PacketCodec.Layout.Basic
import PacketCodec.Proofs.Value.Parts
import PacketCodec.Proofs.Wire.Format

namespace PacketCodec

namespace FieldList

variable {α : Type} {members : FieldList}

-- A field without members is a single field, one with members an object or an
-- array.
def byKind (type : Text) (members : FieldList) (scalar object array : α) : α :=
  if members.isEmpty then scalar else if type = objectType then object else array

theorem byKind_nil (type : Text) (scalar object array : α) :
    byKind type .nil scalar object array = scalar := rfl

theorem byKind_object (hsome : members.isEmpty = false) (scalar object array : α) :
    byKind objectType members scalar object array = object := by
  simp only [byKind, hsome, Bool.false_eq_true, if_false, if_true]

theorem byKind_array (hsome : members.isEmpty = false) (scalar object array : α) :
    byKind arrayType members scalar object array = array := by
  have hne : arrayType ≠ objectType := by decide
  simp only [byKind, hsome, Bool.false_eq_true, if_false, if_neg hne]

-- The bytes of a record that fits. A missing member counts as null, and null as
-- an empty record or an empty array.
def encoding : FieldList → (entries : List (Text × Value)) → List UInt8
  | nil, _ => []
  | leaf name type rest, entries =>
    (WireType.ofName type).encoding (lookUp entries name) ++ rest.encoding entries
  | branch name type members rest, entries =>
    let value := lookUp entries name
    byKind type members
        ((WireType.ofName type).encoding value)
        (members.encoding value.entries)
        (LittleEndian.encode 2 value.items.length ++
          value.items.flatMap fun item => members.encoding item.entries) ++
      rest.encoding entries

-- A record as it comes back: the members of the definition in their order, with
-- their defaults filled in, and lists in the place of tuples.
def normal : FieldList → (entries : List (Text × Value)) → List (Text × Value)
  | nil, _ => []
  | leaf name type rest, entries =>
    (name, (WireType.ofName type).normal (lookUp entries name)) :: rest.normal entries
  | branch name type members rest, entries =>
    let value := lookUp entries name
    (name, byKind type members
        ((WireType.ofName type).normal value)
        (.record (members.normal value.entries))
        (.list (value.items.map fun item => .record (members.normal item.entries)))) ::
      rest.normal entries

end FieldList

-- Bytes and what they become, the bytes of one part in front of those of the
-- next.
def Followed (first second : List UInt8 → List UInt8 → Prop) (read written : List UInt8) : Prop :=
  ∃ read₁ read₂ written₁ written₂, read = read₁ ++ read₂ ∧ written = written₁ ++ written₂ ∧
    first read₁ written₁ ∧ second read₂ written₂

-- The same for a number of parts of one kind.
def Repeated (part : List UInt8 → List UInt8 → Prop) :
    (count : Nat) → (read written : List UInt8) → Prop
  | 0, read, written => read = [] ∧ written = []
  | count + 1, read, written => Followed part (Repeated part count) read written

-- A count of two bytes and as many parts as it says. The count stays.
def Counted (part : List UInt8 → List UInt8 → Prop) (read written : List UInt8) : Prop :=
  ∃ count read' written', count.length = 2 ∧ read = count ++ read' ∧ written = count ++ written' ∧
    Repeated part (LittleEndian.decode count) read' written'

namespace FieldList

-- What the bytes of a record become when they are read and written again.
def Rewritten : FieldList → (read written : List UInt8) → Prop
  | nil, read, written => read = [] ∧ written = []
  | leaf _ type rest, read, written =>
    Followed (WireType.ofName type).Rewritten rest.Rewritten read written
  | branch _ type members rest, read, written =>
    Followed
      (byKind type members (WireType.ofName type).Rewritten members.Rewritten
        (Counted members.Rewritten))
      rest.Rewritten read written

end FieldList

-- Bytes that spell several things one behind the other.
inductive SpellsEach {α : Type} (spells : List UInt8 → α → Prop) : List UInt8 → List α → Prop
  | nil : SpellsEach spells [] []
  | cons {first second item rest} (hfirst : spells first item)
      (hrest : SpellsEach spells second rest) :
      SpellsEach spells (first ++ second) (item :: rest)

namespace Layout

-- Whether bytes spell the members of a layout.
def Spells : Layout → (bytes : List UInt8) → (entries : List (Text × Value)) → Prop
  | nil, bytes, entries => bytes = [] ∧ entries = []
  | scalar name _ wire rest, bytes, entries =>
    ∃ value others first second, bytes = first ++ second ∧ entries = (name, value) :: others ∧
      wire.Spells first value ∧ rest.Spells second others
  | object name members rest, bytes, entries =>
    ∃ inner others first second, bytes = first ++ second ∧
      entries = (name, .record inner) :: others ∧
      members.Spells first inner ∧ rest.Spells second others
  | array name _ element rest, bytes, entries =>
    ∃ items others count first second, bytes = count ++ (first ++ second) ∧
      entries = (name, .list (items.map Value.record)) :: others ∧
      count.length = 2 ∧ LittleEndian.decode count = items.length ∧
      SpellsEach element.Spells first items ∧ rest.Spells second others

end Layout

end PacketCodec
