import PacketCodec.Proofs.Layout.Format
import PacketCodec.Proofs.Layout.WellFormed

namespace PacketCodec

namespace Text

variable {separator last : Text} {parts : List Text}

theorem joinWith_concat (h : parts ≠ []) :
    joinWith separator (parts ++ [last]) = joinWith separator parts ++ (separator ++ last) := by
  induction parts with
  | nil => contradiction
  | cons part rest ih =>
      cases rest with
      | nil => simp [joinWith]
      | cons next rest =>
          have hrest := ih (List.cons_ne_nil _ _)
          simp only [List.cons_append] at hrest
          rw [List.cons_append, List.cons_append, joinWith, hrest, joinWith, List.append_assoc,
            List.append_assoc, List.append_assoc]

theorem joinWith_concat_append (parts : List Text) (last more : Text) :
    joinWith separator (parts ++ [last]) ++ more =
      joinWith separator (parts ++ [last ++ more]) := by
  by_cases h : parts = []
  · subst h
    rfl
  · simp only [joinWith_concat h, List.append_assoc]

theorem joinWith_ne_nil (h : parts ≠ []) (hparts : ∀ part ∈ parts, part ≠ []) :
    joinWith separator parts ≠ [] := by
  cases parts with
  | nil => contradiction
  | cons part rest =>
      have hpart := hparts part List.mem_cons_self
      cases rest with
      | nil => exact hpart
      | cons next rest => simp [joinWith, hpart]

end Text

namespace Layout

theorem member_joinWith {parts : List Text} (h : ∀ part ∈ parts, part ≠ []) (name : Text) :
    member (Text.joinWith "." parts) name = Text.joinWith "." (parts ++ [name]) := by
  by_cases hnone : parts = []
  · subst hnone
    rfl
  · rw [member, if_neg (Text.joinWith_ne_nil hnone h), Text.joinWith_concat hnone]
    simp [Text.join]

theorem elements_joinWith (parts : List Text) (name : Text) :
    elements (Text.joinWith "." (parts ++ [name])) =
      Text.joinWith "." (parts ++ [elements name]) := by
  simp only [elements, Text.join, List.flatten_cons, List.flatten_nil, List.append_nil,
    Text.joinWith_concat_append]

theorem element_joinWith (parts : List Text) (name : Text) (i : Nat) :
    element (Text.joinWith "." (parts ++ [name])) i =
      Text.joinWith "." (parts ++ [element name i]) := by
  simp only [element, Text.join, List.flatten_cons, List.flatten_nil, List.append_nil,
    Text.joinWith_concat_append]

end Layout

-- From a record to a member of it, or on to the elements of a member.
inductive Component where
  | member (name : Text)
  | element (name : Text)

namespace Component

def text : Component → Text
  | member name => name
  | element name => Layout.elements name

def path (components : List Component) : Text :=
  Text.joinWith "." (components.map text)

variable {outer : List Component} {name : Text}

theorem path_member (h : ∀ component ∈ outer, component.text ≠ []) (name : Text) :
    path (outer ++ [.member name]) = Layout.member (path outer) name := by
  have htexts : ∀ part ∈ outer.map text, part ≠ [] := by simpa using h
  rw [path, path, Layout.member_joinWith htexts, List.map_append]
  rfl

theorem path_element :
    path (outer ++ [.element name]) = Layout.elements (path (outer ++ [.member name])) := by
  rw [path, path, List.map_append, List.map_append]
  exact (Layout.elements_joinWith (outer.map text) name).symm

theorem forall_concat_member (h : ∀ component ∈ outer, component.text ≠ []) (hname : name ≠ []) :
    ∀ component ∈ outer ++ [.member name], component.text ≠ [] :=
  List.forall_mem_append.mpr ⟨h, List.forall_mem_singleton.mpr hname⟩

theorem forall_concat_element (h : ∀ component ∈ outer, component.text ≠ []) (name : Text) :
    ∀ component ∈ outer ++ [.element name], component.text ≠ [] := by
  have helements : Layout.elements name ≠ [] := by simp [Layout.elements, Text.join, Text.ofString]
  exact List.forall_mem_append.mpr ⟨h, List.forall_mem_singleton.mpr helements⟩

end Component

-- What a field is on the wire. An array has the number of its count.
inductive Part where
  | single (type : Text)
  | object
  | array (number : Nat)

-- A field at its location in a definition.
structure Location where
  outer : List Component
  name : Text
  part : Part

namespace Location

def components (location : Location) : List Component :=
  location.outer ++ [.member location.name]

def path (location : Location) : Text :=
  Component.path location.components

def number? (location : Location) : Option Nat :=
  match location.part with
  | .array number => some number
  | _ => none

-- An object has no bytes of its own. Those of an array are its count.
def row? (location : Location) : Option (Text × Text) :=
  match location.part with
  | .single type => some (location.path, type)
  | .object => none
  | .array number =>
    let count := TypeSet.bindingName "count" number
    some (Component.path (location.components ++ [.member count]), "uint16")

end Location

namespace FieldList

-- How many arrays there are, at any depth.
def arrays : FieldList → Nat
  | nil => 0
  | leaf _ _ rest => rest.arrays
  | branch _ type members rest =>
    byKind type members 0 members.arrays (members.arrays + 1) + rest.arrays

-- The fields in pre-order. The counts of arrays are numbered from `first` on.
def locations : FieldList → (outer : List Component) → (first : Nat) → List Location
  | nil, _, _ => []
  | leaf name type rest, outer, first => ⟨outer, name, .single type⟩ :: rest.locations outer first
  | branch name type members rest, outer, first =>
    byKind type members
        [⟨outer, name, .single type⟩]
        (⟨outer, name, .object⟩ :: members.locations (outer ++ [.member name]) first)
        (⟨outer, name, .array first⟩ :: members.locations (outer ++ [.element name]) (first + 1)) ++
      rest.locations outer (first + byKind type members 0 members.arrays (members.arrays + 1))

section Branch

variable {members : FieldList} (name : Text) (rest : FieldList) (outer : List Component)
  (first : Nat)

theorem locations_object (hsome : members.isEmpty = false) :
    (branch name objectType members rest).locations outer first =
      ⟨outer, name, .object⟩ :: (members.locations (outer ++ [.member name]) first ++
        rest.locations outer (first + members.arrays)) := by
  rw [locations, byKind_object hsome, byKind_object hsome, List.cons_append]

theorem locations_array (hsome : members.isEmpty = false) :
    (branch name arrayType members rest).locations outer first =
      ⟨outer, name, .array first⟩ :: (members.locations (outer ++ [.element name]) (first + 1) ++
        rest.locations outer (first + (members.arrays + 1))) := by
  rw [locations, byKind_array hsome, byKind_array hsome, List.cons_append]

end Branch

-- The numbers of the arrays are consecutive in pre-order.
theorem filterMap_number? (fields : FieldList) (outer : List Component) (first : Nat) :
    (fields.locations outer first).filterMap Location.number? =
      List.range' first fields.arrays := by
  induction fields generalizing outer first with
  | nil => rfl
  | leaf name type rest ih => exact ih outer first
  | branch name type members rest ihmembers ih =>
      rw [locations, arrays, List.filterMap_append, ih, ← List.range'_append_1]
      congr 1
      unfold byKind
      split
      · rfl
      split
      · exact ihmembers _ _
      · rw [List.range'_succ]
        exact congrArg (first :: ·) (ihmembers _ _)

end FieldList

namespace Layout

-- The counts carry the numbers from `first` to `stop`, in wire order.
def Numbered : Layout → (first stop : Nat) → Prop
  | nil, first, stop => stop = first
  | scalar _ _ _ rest, first, stop => rest.Numbered first stop
  | object _ members rest, first, stop =>
    ∃ middle, members.Numbered first middle ∧ rest.Numbered middle stop
  | array _ count element rest, first, stop =>
    count = TypeSet.bindingName "count" first ∧
      ∃ middle, element.Numbered (first + 1) middle ∧ rest.Numbered middle stop

variable {types : TypeSet} {fields : FieldList} {before : List Text} {path : Text}
  {outer : List Component} {layout : Layout} {first stop : Nat}

theorem numbered_of_compile (h : compile types fields path before first = (.ok layout, stop)) :
    layout.Numbered first stop := by
  induction fields generalizing path before first layout stop with
  | nil =>
      cases h
      rfl
  | leaf name type rest ih =>
      simp only [compile] at h
      split at h
      · cases h
      · cases h
      next wire hname hwire =>
        obtain ⟨hlayout, rfl⟩ := Prod.mk.inj h
        obtain ⟨others, hrest, rfl⟩ := map_eq_ok_iff.mp hlayout
        have hothers : others.Numbered first _ := ih (Prod.ext hrest rfl)
        exact hothers
  | branch name type members rest ihmembers ih =>
      simp only [compile] at h
      split at h
      · cases h
      split at h
      · split at h
        · cases h
        · obtain ⟨hlayout, rfl⟩ := Prod.mk.inj h
          obtain ⟨others, hrest, rfl⟩ := map_eq_ok_iff.mp hlayout
          have hothers : others.Numbered first _ := ih (Prod.ext hrest rfl)
          exact hothers
      split at h
      · split at h
        · cases h
        next inner middle hmembers =>
          obtain ⟨hlayout, rfl⟩ := Prod.mk.inj h
          obtain ⟨others, hrest, rfl⟩ := map_eq_ok_iff.mp hlayout
          exact ⟨middle, ihmembers hmembers, ih (Prod.ext hrest rfl)⟩
      split at h
      · split at h
        · cases h
        next element middle hmembers =>
          obtain ⟨hlayout, rfl⟩ := Prod.mk.inj h
          obtain ⟨others, hrest, rfl⟩ := map_eq_ok_iff.mp hlayout
          exact ⟨rfl, middle, ihmembers hmembers, ih (Prod.ext hrest rfl)⟩
      · cases h

-- The rows of a layout.
theorem rows_eq_filterMap (hresolves : Resolves types before fields layout)
    (hwell : fields.WellFormed types) (hnumbered : layout.Numbered first stop)
    (houter : ∀ component ∈ outer, component.text ≠ []) :
    stop = first + fields.arrays ∧
      layout.rows (Component.path outer) =
        (fields.locations outer first).filterMap Location.row? := by
  induction hresolves generalizing outer first stop with
  | nil => exact ⟨hnumbered, rfl⟩
  | @leaf before name type rest wire others hname hscalar hwire hrest ih =>
      obtain ⟨hne, hwell⟩ := FieldList.wellFormed_leaf hwell
      obtain ⟨rfl, hrows⟩ := ih hwell hnumbered houter
      refine ⟨rfl, ?_⟩
      rw [rows, ← Component.path_member houter, hrows]
      rfl
  | @empty before name type rest wire others hname hscalar hwire hrest ih =>
      obtain ⟨hne, hwell, -⟩ := FieldList.wellFormed_branch hwell
      obtain ⟨rfl, hrows⟩ := ih hwell hnumbered houter
      rw [FieldList.arrays, FieldList.byKind_nil, Nat.zero_add]
      refine ⟨rfl, ?_⟩
      rw [rows, ← Component.path_member houter, hrows]
      rfl
  | @object before name members rest inner others hname hsome hmembers hrest ihmembers ih =>
      obtain ⟨hne, hrestWell, hmembersWell⟩ := FieldList.wellFormed_branch hwell
      obtain ⟨middle, hinner, hothers⟩ := hnumbered
      obtain ⟨rfl, hrows⟩ := ihmembers (hmembersWell rfl) hinner
        (Component.forall_concat_member houter hne)
      obtain ⟨rfl, hothersRows⟩ := ih hrestWell hothers houter
      rw [FieldList.arrays, FieldList.byKind_object hsome, FieldList.locations_object _ _ _ _ hsome]
      refine ⟨Nat.add_assoc _ _ _, ?_⟩
      rw [rows, ← Component.path_member houter, hrows, hothersRows, ← List.filterMap_append]
      rfl
  | @array before name members rest count element others hname hsome hmembers hrest ihmembers ih =>
      obtain ⟨hne, hrestWell, hmembersWell⟩ := FieldList.wellFormed_branch hwell
      obtain ⟨rfl, middle, hinner, hothers⟩ := hnumbered
      obtain ⟨rfl, hrows⟩ := ihmembers (hmembersWell rfl) hinner
        (Component.forall_concat_element houter name)
      obtain ⟨rfl, hothersRows⟩ := ih hrestWell hothers houter
      rw [FieldList.arrays, FieldList.byKind_array hsome, FieldList.locations_array _ _ _ _ hsome]
      refine ⟨by omega, ?_⟩
      have hcount := Component.path_member (Component.forall_concat_member houter hne)
        (TypeSet.bindingName "count" first)
      rw [rows, ← Component.path_member houter, ← hcount, ← Component.path_element, hrows,
        Nat.add_comm members.arrays, ← Nat.add_assoc, hothersRows, ← List.filterMap_append]
      rfl

end Layout

namespace TypeSet

variable {set : TypeSet} {fields : FieldList} {name version : Value} {codec : Codec}

theorem numbered_of_codec (h : (set.codec fields name version).1 = .ok codec) :
    codec.layout.Numbered set.issued (set.codec fields name version).2.issued := by
  obtain ⟨layout, hlayout, rfl⟩ := map_eq_ok_iff.mp h
  have hcompile : Layout.compile set fields [] [] set.issued =
      (.ok layout, (set.codec fields name version).2.issued) := Prod.ext hlayout rfl
  exact Layout.numbered_of_compile hcompile

-- Every array of a definition takes a number of its own.
theorem rows_of_codec (h : (set.codec fields name version).1 = .ok codec) :
    (set.codec fields name version).2.issued = set.issued + fields.arrays ∧
      codec.rows = (fields.locations [] set.issued).filterMap Location.row? := by
  have houter : ∀ component ∈ ([] : List Component), component.text ≠ [] := List.forall_mem_nil _
  exact Layout.rows_eq_filterMap (resolves_of_codec h) (wellFormed_of_codec h)
    (numbered_of_codec h) houter

end TypeSet

end PacketCodec
