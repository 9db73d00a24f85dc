import PacketCodec.Proofs.Inspection
import PacketCodec.Proofs.Layout.Format
import PacketCodec.Proofs.Layout.Measuring
import PacketCodec.Proofs.Layout.WellFormed
import PacketCodec.Proofs.Value.Showable
import PacketCodec.Proofs.Wire.Accepts

namespace PacketCodec

namespace Value

-- Null stands for an empty record and for an empty list.
def StandsForRecord (value : Value) : Prop :=
  value = .null ∨ ∃ entries, value = .record entries

def StandsForSequence (value : Value) : Prop :=
  value = .null ∨ ∃ items, (value = .list items ∨ value = .tuple items) ∧ items.length ≤ 0xFFFF

end Value

inductive Requirement where
  | record
  | sequence
  | field (type : WireType)

def Requirement.Met : Requirement → Value → Prop
  | record, value => value.StandsForRecord
  | sequence, value => value.StandsForSequence
  | field type, value => type.Accepts value

-- A value at its place in a record. The whole record has no path.
structure Node where
  path : Value
  requirement : Requirement
  value : Value

namespace Node

def Fits (node : Node) : Prop :=
  node.requirement.Met node.value

-- A field for numbers that is given a number which cannot be shown.
def Overlong (node : Node) : Prop :=
  ∃ type, node.requirement = .field type ∧ type.Overlong node.value

-- The misfit is reported for the node, unless it has to show a number that cannot
-- be shown.
structure Blames (node : Node) (m : Misfit) : Prop where
  field : m.field = node.path
  showable : m.cause.shownValues.all Value.isShowable = true ↔ ¬ node.Overlong

-- The nodes of elements, the first of which has the index `i`.
def each (nodes : Value → Text → List Node) (path : Text) : List Value → (i : Nat) → List Node
  | [], _ => []
  | item :: rest, i => nodes item (Layout.element path i) ++ each nodes path rest (i + 1)

theorem forall_each_iff {nodes : Value → Text → List Node} {Conforms : Value → Prop}
    (hitem : ∀ item path, (∀ node ∈ nodes item path, node.Fits) ↔ Conforms item) (path : Text)
    (items : List Value) (i : Nat) :
    (∀ node ∈ each nodes path items i, node.Fits) ↔ ∀ item ∈ items, Conforms item := by
  induction items generalizing i with
  | nil => simp [each]
  | cons item rest ih =>
      rw [each, List.forall_mem_append, hitem, ih, List.forall_mem_cons]

-- Whatever else is wrong with a container, no number is shown.
theorem Blames.of_container {node : Node} {m : Misfit} (h : m.field = node.path)
    (hcontainer : ∀ type, node.requirement ≠ .field type) (hnone : m.cause.shownValues = []) :
    node.Blames m := by
  refine ⟨h, iff_of_true (by rw [hnone]; rfl) ?_⟩
  rintro ⟨type, htype, -⟩
  exact hcontainer type htype

end Node

namespace FieldList

-- Whether the members of a record conform. A missing member counts as null.
def EntriesConform : FieldList → (entries : List (Text × Value)) → Prop
  | nil, _ => True
  | leaf name type rest, entries =>
    (WireType.ofName type).Accepts (lookUp entries name) ∧ rest.EntriesConform entries
  | branch name type members rest, entries =>
    let value := lookUp entries name
    byKind type members
        ((WireType.ofName type).Accepts value)
        (value.StandsForRecord ∧ members.EntriesConform value.entries)
        (value.StandsForSequence ∧
          ∀ item ∈ value.items, item.StandsForRecord ∧ members.EntriesConform item.entries) ∧
      rest.EntriesConform entries

def Conforms (fields : FieldList) (value : Value) : Prop :=
  value.StandsForRecord ∧ fields.EntriesConform value.entries

-- The nodes of the members of a record in wire order, a container in front of
-- its contents.
def entryNodes : FieldList → (entries : List (Text × Value)) → (path : Text) → List Node
  | nil, _, _ => []
  | leaf name type rest, entries, path =>
    ⟨.text (Layout.member path name), .field (WireType.ofName type), lookUp entries name⟩ ::
      rest.entryNodes entries path
  | branch name type members rest, entries, path =>
    let value := lookUp entries name
    let here := Layout.member path name
    byKind type members
        [⟨.text here, .field (WireType.ofName type), value⟩]
        (⟨.text here, .record, value⟩ :: members.entryNodes value.entries here)
        (⟨.text here, .sequence, value⟩ ::
          Node.each (fun item path => ⟨.text path, .record, item⟩ ::
            members.entryNodes item.entries path) here value.items 0) ++
      rest.entryNodes entries path

def nodes (fields : FieldList) (value : Value) : List Node :=
  ⟨.null, .record, value⟩ :: fields.entryNodes value.entries []

theorem forall_entryNodes_iff (fields : FieldList) (entries : List (Text × Value)) (path : Text) :
    (∀ node ∈ fields.entryNodes entries path, node.Fits) ↔ fields.EntriesConform entries := by
  induction fields generalizing entries path with
  | nil => simp [entryNodes, EntriesConform]
  | leaf name type rest ih =>
      rw [entryNodes, List.forall_mem_cons, ih, EntriesConform]
      rfl
  | branch name type members rest ihmembers ih =>
      rw [entryNodes, List.forall_mem_append, ih, EntriesConform]
      apply and_congr_left
      intro _
      have hitem : ∀ item path,
          (∀ node ∈ (⟨.text path, .record, item⟩ :: members.entryNodes item.entries path :
            List Node), node.Fits) ↔
            item.StandsForRecord ∧ members.EntriesConform item.entries := by
        intro item path
        rw [List.forall_mem_cons, ihmembers]
        rfl
      simp only [byKind]
      split
      · rw [List.forall_mem_singleton]
        rfl
      · split
        · exact hitem _ _
        · rw [List.forall_mem_cons, Node.forall_each_iff hitem]
          rfl

-- The two views agree.
theorem conforms_iff_forall_fits (fields : FieldList) (value : Value) :
    fields.Conforms value ↔ ∀ node ∈ fields.nodes value, node.Fits := by
  rw [nodes, List.forall_mem_cons, forall_entryNodes_iff]
  rfl

theorem forall_each {nodes : Value → Text → List Node} {p : Node → Prop} {items : List Value}
    (hitem : ∀ item ∈ items, ∀ path, ∀ node ∈ nodes item path, p node) (path : Text) (i : Nat) :
    ∀ node ∈ Node.each nodes path items i, p node := by
  induction items generalizing i with
  | nil => nofun
  | cons item rest ih =>
      obtain ⟨hfirst, hrest⟩ := List.forall_mem_cons.mp hitem
      exact List.forall_mem_append.mpr ⟨hfirst _, ih hrest _⟩

-- What is at the nodes of a record is in the record.
theorem isShowable_of_mem_entryNodes (fields : FieldList) {entries : List (Text × Value)}
    (h : Value.entriesAreShowable entries = true) (path : Text) :
    ∀ node ∈ fields.entryNodes entries path, node.value.isShowable = true := by
  induction fields generalizing entries path with
  | nil => nofun
  | leaf name type rest ih =>
      exact List.forall_mem_cons.mpr ⟨Value.isShowable_lookUp h name, ih h path⟩
  | branch name type members rest ihmembers ih =>
      have hvalue := Value.isShowable_lookUp h name
      have hitem : ∀ item : Value, item.isShowable = true → ∀ path,
          ∀ node ∈ (⟨.text path, .record, item⟩ :: members.entryNodes item.entries path :
            List Node), node.value.isShowable = true := fun item hitem path =>
        List.forall_mem_cons.mpr
          ⟨hitem, ihmembers (Value.entriesAreShowable_entries hitem) path⟩
      rw [entryNodes, List.forall_mem_append]
      refine ⟨?_, ih h path⟩
      simp only [byKind]
      split
      · exact List.forall_mem_singleton.mpr hvalue
      · split
        · exact hitem _ hvalue _
        · refine List.forall_mem_cons.mpr ⟨hvalue, forall_each (fun item hmem => ?_) _ _⟩
          exact hitem item (Value.isShowable_of_mem_items hvalue item hmem)

theorem not_overlong_of_mem_nodes (fields : FieldList) {value : Value} {node : Node}
    (h : value.isShowable = true) (hnode : node ∈ fields.nodes value) : ¬ node.Overlong := by
  have hshowable : ∀ node ∈ fields.nodes value, node.value.isShowable = true :=
    List.forall_mem_cons.mpr
      ⟨h, fields.isShowable_of_mem_entryNodes (Value.entriesAreShowable_entries h) []⟩
  rintro ⟨type, -, t, n, -, hvalue, hn⟩
  rw [← hvalue, hshowable node hnode] at hn
  contradiction

end FieldList

namespace Layout

variable {types : TypeSet} {fields : FieldList} {layout : Layout} {before : List Text}

theorem exists_entriesOf_iff {value : Value} {path : Text} :
    (∃ entries, entriesOf value path = .ok entries) ↔ value.StandsForRecord := by
  cases value <;> simp [entriesOf, Value.StandsForRecord]

theorem exists_itemsOf_iff {value : Value} {path : Text} :
    (∃ items, itemsOf value path = .ok items) ↔ value.StandsForSequence := by
  cases value with
  | list found | tuple found =>
      by_cases hlong : 0xFFFF < found.length
      · simp [itemsOf, maxElements, Value.StandsForSequence, hlong]
      · simp [itemsOf, maxElements, Value.StandsForSequence, hlong, Nat.not_lt.mp hlong]
  | _ => simp [itemsOf, Value.StandsForSequence]

theorem inspects_entriesOf (value : Value) (path : Text) :
    Inspects Node.Fits Node.Blames
      [⟨if path = [] then .null else .text path, .record, value⟩] (entriesOf value path) := by
  apply Inspects.single
  · exact exists_entriesOf_iff
  · intro m h
    cases value with
    | null | record => contradiction
    | _ =>
        cases h
        exact .of_container rfl (fun _ htype => by cases htype) rfl

theorem inspects_itemsOf (value : Value) (path : Text) :
    Inspects Node.Fits Node.Blames [⟨.text path, .sequence, value⟩] (itemsOf value path) := by
  apply Inspects.single
  · exact exists_itemsOf_iff
  · intro m h
    cases value with
    | null => contradiction
    | list | tuple =>
        simp only [itemsOf] at h
        split at h
        · cases h
          exact .of_container rfl (fun _ htype => by cases htype) rfl
        · contradiction
    | _ =>
        cases h
        exact .of_container rfl (fun _ htype => by cases htype) rfl

theorem inspects_wire {wire : WireType} (hwire : wire.Standard) (value : Value) (path : Text) :
    Inspects Node.Fits Node.Blames [⟨.text path, .field wire, value⟩]
      (wire.measure value (.text path)) := by
  refine .single (WireType.exists_measure_iff_accepts hwire) fun m h => ?_
  refine ⟨WireType.field_of_measure_error h, ?_⟩
  rw [WireType.isShowable_of_measure_error h]
  simp [Node.Overlong]

theorem inspects_measureEach {measure : Value → Text → Except Misfit Nat}
    {nodes : Value → Text → List Node} (path : Text)
    (hitem : ∀ item i, Inspects Node.Fits Node.Blames (nodes item (element path i))
      (measure item (element path i)))
    (items : List Value) (i size : Nat) :
    Inspects Node.Fits Node.Blames (Node.each nodes path items i)
      (measureEach measure path items i size) := by
  induction items generalizing i size with
  | nil => exact .passed fun _ h => absurd h List.not_mem_nil
  | cons item rest ih =>
      have hfirst := hitem item i
      rw [measureEach, Node.each]
      generalize measure item (element path i) = outcome at hfirst ⊢
      cases outcome with
      | error m => exact hfirst.append_of_error _
      | ok n => exact hfirst.append_of_ok (ih _ _)

theorem member_ne_nil {name : Text} (path : Text) (h : name ≠ []) : member path name ≠ [] := by
  unfold member
  split
  · exact h
  next hpath =>
    simp [Text.join, hpath]

theorem element_ne_nil (path : Text) (i : Nat) : element path i ≠ [] := by
  have hbracket : ("[" : Text) ≠ [] := by decide
  simp [element, Text.join, hbracket]

theorem measure_object {name : Text} {members rest : Layout} (entries : List (Text × Value))
    (path : Text) :
    (object name members rest).measure entries path =
      measureItem members (lookUp entries name) (member path name) >>= fun size =>
        rest.measure entries path >>= fun others => pure (size + others) := by
  simp only [measure, measureItem, bind_assoc]

theorem measure_array {name count : Text} {element rest : Layout} (entries : List (Text × Value))
    (path : Text) :
    (array name count element rest).measure entries path =
      (itemsOf (lookUp entries name) (member path name) >>= fun items =>
        measureEach (measureItem element) (member path name) items 0 2) >>= fun size =>
        rest.measure entries path >>= fun others => pure (size + others) := by
  simp only [measure, bind_assoc]
  rfl

-- A record that has a path of its own.
theorem inspects_entriesOf_of_ne_nil (value : Value) {path : Text} (hpath : path ≠ []) :
    Inspects Node.Fits Node.Blames [⟨.text path, .record, value⟩] (entriesOf value path) := by
  have h := inspects_entriesOf value path
  rwa [if_neg hpath] at h

-- The members of a record that has a path of its own.
theorem inspects_measureItem {members : FieldList} {inner : Layout}
    (hmembers : ∀ entries path, Inspects Node.Fits Node.Blames (members.entryNodes entries path)
      (inner.measure entries path)) (value : Value) {path : Text} (hpath : path ≠ []) :
    Inspects Node.Fits Node.Blames
      (⟨.text path, .record, value⟩ :: members.entryNodes value.entries path)
      (measureItem inner value path) := by
  apply (inspects_entriesOf_of_ne_nil value hpath).bind
  intro found h
  obtain rfl := eq_entries_of_entriesOf h
  exact hmembers _ _

-- The elements of an array behind the array itself.
theorem inspects_elements {members : FieldList} {inner : Layout}
    (hmembers : ∀ entries path, Inspects Node.Fits Node.Blames (members.entryNodes entries path)
      (inner.measure entries path)) (value : Value) (path : Text) :
    Inspects Node.Fits Node.Blames
      (⟨.text path, .sequence, value⟩ ::
        Node.each (fun item path => ⟨.text path, .record, item⟩ ::
          members.entryNodes item.entries path) path value.items 0)
      (itemsOf value path >>= fun items => measureEach (measureItem inner) path items 0 2) := by
  apply (inspects_itemsOf value path).bind
  intro items h
  obtain ⟨rfl, -⟩ := eq_items_of_itemsOf h
  apply inspects_measureEach
  intro item i
  exact inspects_measureItem hmembers item (element_ne_nil path i)

-- Measuring goes through the nodes of a record in wire order.
theorem inspects_measure (hset : types.types = WireType.builtin)
    (hresolves : Resolves types before fields layout) (hfields : fields.WellFormed types)
    (entries : List (Text × Value)) (path : Text) :
    Inspects Node.Fits Node.Blames (fields.entryNodes entries path)
      (layout.measure entries path) := by
  induction hresolves generalizing entries path with
  | nil => exact .passed fun _ h => absurd h List.not_mem_nil
  | leaf _ _ hwire _ ih =>
      obtain ⟨-, hrest⟩ := FieldList.wellFormed_leaf hfields
      obtain ⟨hstandard, htype⟩ := TypeSet.standard_of_find? hset hwire
      rw [FieldList.entryNodes, htype]
      apply (inspects_wire hstandard _ _).bind
      intro size _
      exact (ih hrest entries path).bind_pure _
  | empty _ _ hwire _ ih =>
      obtain ⟨-, hrest, -⟩ := FieldList.wellFormed_branch hfields
      obtain ⟨hstandard, htype⟩ := TypeSet.standard_of_find? hset hwire
      rw [FieldList.entryNodes, FieldList.byKind_nil, htype]
      apply (inspects_wire hstandard _ _).bind
      intro size _
      exact (ih hrest entries path).bind_pure _
  | object _ hsome _ _ ihmembers ih =>
      obtain ⟨hname, hrest, hmembers⟩ := FieldList.wellFormed_branch hfields
      rw [FieldList.entryNodes, FieldList.byKind_object hsome]
      rw [measure_object]
      apply (inspects_measureItem (ihmembers (hmembers rfl)) _ (member_ne_nil path hname)).bind
      intro size _
      exact (ih hrest entries path).bind_pure _
  | array _ hsome _ _ ihmembers ih =>
      obtain ⟨-, hrest, hmembers⟩ := FieldList.wellFormed_branch hfields
      rw [FieldList.entryNodes, FieldList.byKind_array hsome, measure_array]
      apply (inspects_elements (ihmembers (hmembers rfl)) _ _).bind
      intro size _
      exact (ih hrest entries path).bind_pure _

end Layout

end PacketCodec
