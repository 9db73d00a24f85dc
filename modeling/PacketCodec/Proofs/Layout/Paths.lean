import Mathlib.Data.List.DropRight
import PacketCodec.Proofs.Layout.Conforms
import PacketCodec.Proofs.Layout.Locations
import PacketCodec.Proofs.Text.Decimal

namespace PacketCodec

namespace Text

-- Whether a text ends in brackets with nothing but digits in them, if anything.
def EndsInIndex (t : Text) : Prop :=
  t.getLast? = some 0x5D ∧ (t.dropLast.rdropWhile CodePoint.isAsciiDigit).getLast? = some 0x5B

instance (t : Text) : Decidable t.EndsInIndex :=
  inferInstanceAs (Decidable (_ ∧ _))

-- A name without the dot that separates the parts of a path, and which does not
-- end like the part of an element.
def Plain (name : Text) : Prop :=
  0x2E ∉ name ∧ ¬name.EndsInIndex

instance (name : Text) : Decidable name.Plain :=
  inferInstanceAs (Decidable (_ ∧ _))

-- A part of a path without the digits in the brackets at its end.
def withoutIndex (part : Text) : Text :=
  if part.EndsInIndex then part.dropLast.rdropWhile CodePoint.isAsciiDigit ++ [0x5D] else part

def withoutIndices (path : Text) : Text :=
  joinWith "." ((path.splitOn 0x2E).map withoutIndex)

variable {name digits : Text} {parts : List Text}

theorem joinWith_eq_intercalate (separator : Text) (parts : List Text) :
    joinWith separator parts = separator.intercalate parts := by
  induction parts with
  | nil => rfl
  | cons part rest ih =>
      cases rest with
      | nil => simp [joinWith]
      | cons next rest => rw [joinWith, ih, List.intercalate_cons_cons, List.append_assoc]

theorem splitOn_joinWith (h : ∀ part ∈ parts, 0x2E ∉ part) (hparts : parts ≠ []) :
    (joinWith "." parts).splitOn 0x2E = parts := by
  rw [joinWith_eq_intercalate]
  exact List.splitOn_intercalate 0x2E h hparts

theorem withoutIndices_joinWith (h : ∀ part ∈ parts, 0x2E ∉ part) (hparts : parts ≠ []) :
    (joinWith "." parts).withoutIndices = joinWith "." (parts.map withoutIndex) := by
  rw [withoutIndices, splitOn_joinWith h hparts]

theorem Plain.withoutIndex_eq (h : name.Plain) : name.withoutIndex = name :=
  if_neg h.2

theorem elements_eq (name : Text) : Layout.elements name = name ++ [0x5B] ++ [0x5D] := by
  rw [Layout.elements, join, List.append_assoc]
  rfl

theorem element_eq (name : Text) (i : Nat) :
    Layout.element name i = name ++ [0x5B] ++ ofNat i ++ [0x5D] := by
  simp only [Layout.element, join, List.flatten_cons, List.flatten_nil, List.append_assoc]
  rfl

theorem rdropWhile_digits (name : Text) (h : ∀ c ∈ digits, c.isAsciiDigit = true) :
    (name ++ [0x5B] ++ digits).rdropWhile CodePoint.isAsciiDigit = name ++ [0x5B] := by
  have hreverse : ∀ c ∈ digits.reverse, c.isAsciiDigit = true := by simpa using h
  rw [List.rdropWhile, List.reverse_append, List.dropWhile_append_of_pos hreverse,
    List.reverse_append]
  simp [CodePoint.isAsciiDigit]

theorem endsInIndex_brackets (name : Text) (h : ∀ c ∈ digits, c.isAsciiDigit = true) :
    (name ++ [0x5B] ++ digits ++ [0x5D]).EndsInIndex := by
  constructor
  · exact List.getLast?_concat
  · rw [List.dropLast_concat, rdropWhile_digits name h, List.getLast?_concat]

theorem endsInIndex_elements (name : Text) : (Layout.elements name).EndsInIndex := by
  have hnone : ∀ c ∈ ([] : Text), c.isAsciiDigit = true := List.forall_mem_nil _
  have hends := endsInIndex_brackets name hnone
  rwa [List.append_nil, ← elements_eq] at hends

theorem withoutIndex_element (name : Text) (i : Nat) :
    (Layout.element name i).withoutIndex = Layout.elements name := by
  have hdigits := (isNumeral_ofNat i).2
  rw [withoutIndex, element_eq, if_pos (endsInIndex_brackets name hdigits), List.dropLast_concat,
    rdropWhile_digits name hdigits, elements_eq]

theorem plain_of_notMem (hdot : 0x2E ∉ name) (hbracket : 0x5D ∉ name) : name.Plain :=
  ⟨hdot, fun hends => hbracket (List.mem_of_getLast? hends.1)⟩

theorem plain_count (number : Nat) : (TypeSet.bindingName "count" number).Plain := by
  have hnumeral := isNumeral_ofNat number
  have hnot : ∀ c, c.isAsciiDigit = false → c ∉ ("_count" : Text) →
      c ∉ TypeSet.bindingName "count" number := by
    intro c hc hhint hmem
    have hparts : TypeSet.bindingName "count" number = ("_count" : Text) ++ ofNat number := by
      simp only [TypeSet.bindingName, join, List.flatten_cons, List.flatten_nil, List.append_nil]
      rfl
    cases List.mem_append.mp (hparts ▸ hmem) with
    | inl h => exact hhint h
    | inr h => exact hnumeral.notMem hc h
  exact plain_of_notMem (hnot _ (by decide) (by decide)) (hnot _ (by decide) (by decide))

end Text

namespace Component

def name : Component → Text
  | member name | element name => name

variable {a b : Component} {address other : List Component}

theorem text_inj (ha : a.name.Plain) (hb : b.name.Plain) (h : a.text = b.text) : a = b := by
  cases a with
  | member name =>
      cases b with
      | member other => exact congrArg member h
      | element other =>
          change name = Layout.elements other at h
          exact absurd (h ▸ Text.endsInIndex_elements other) ha.2
  | element name =>
      cases b with
      | member other =>
          change Layout.elements name = other at h
          exact absurd (h ▸ Text.endsInIndex_elements name) hb.2
      | element other =>
          rw [text, text, Text.elements_eq, Text.elements_eq, List.append_assoc,
            List.append_assoc] at h
          rw [List.append_cancel_right h]

theorem dot_notMem_text (h : a.name.Plain) : 0x2E ∉ a.text := by
  cases a with
  | member name => exact h.1
  | element name =>
      have hname : 0x2E ∉ name := h.1
      rw [text, Text.elements_eq]
      simp [hname]

theorem map_text_inj (ha : ∀ component ∈ address, component.name.Plain)
    (hb : ∀ component ∈ other, component.name.Plain) (h : address.map text = other.map text) :
    address = other := by
  induction address generalizing other with
  | nil => exact (List.map_eq_nil_iff.mp h.symm).symm
  | cons a rest ih =>
      cases other with
      | nil => contradiction
      | cons b others =>
          obtain ⟨hhead, hrest⟩ := List.cons.inj h
          rw [List.forall_mem_cons] at ha hb
          rw [text_inj ha.1 hb.1 hhead, ih ha.2 hb.2 hrest]

-- A path of plain names can be read in one way only.
theorem path_inj (ha : ∀ component ∈ address, component.name.Plain) (hane : address ≠ [])
    (hb : ∀ component ∈ other, component.name.Plain) (hbne : other ≠ [])
    (h : path address = path other) : address = other := by
  have hsplit : ∀ components : List Component, (∀ c ∈ components, c.name.Plain) →
      components ≠ [] → (path components).splitOn 0x2E = components.map text := by
    intro components hplain hne
    apply Text.splitOn_joinWith
    · simpa using fun c hc => dot_notMem_text (hplain c hc)
    · simpa using hne
  apply map_text_inj ha hb
  rw [← hsplit address ha hane, ← hsplit other hb hbne, h]

end Component

namespace Location

-- The components of the paths that belong to a field: its own path, and for an
-- array also those of its elements and of its count.
def addresses (location : Location) : List (List Component) :=
  match location.part with
  | .array number =>
    [location.components, location.outer ++ [.element location.name],
      location.components ++ [.member (TypeSet.bindingName "count" number)]]
  | _ => [location.components]

def paths (location : Location) : List Text :=
  location.addresses.map Component.path

end Location

-- An address that begins at a level with a field of the given name.
def Begins (outer : List Component) (name : Text) (address : List Component) : Prop :=
  ∃ component more, address = outer ++ component :: more ∧ component.name = name

theorem begins_member (outer : List Component) (name : Text) :
    Begins outer name (outer ++ [.member name]) :=
  ⟨.member name, [], rfl, rfl⟩

namespace Begins

variable {outer address : List Component} {name other : Text} {component : Component}

theorem inside (h : Begins (outer ++ [component]) other address) :
    Begins outer component.name address := by
  obtain ⟨inner, more, rfl, -⟩ := h
  exact ⟨component, inner :: more, List.append_assoc _ _ _, rfl⟩

theorem ne_level (h : Begins outer name address) : address ≠ outer := by
  obtain ⟨component, more, rfl, -⟩ := h
  simp

theorem name_eq (h : Begins outer name address) (hother : Begins outer other address) :
    name = other := by
  obtain ⟨component, more, rfl, rfl⟩ := h
  obtain ⟨component', more', heq, rfl⟩ := hother
  rw [(List.cons.inj (List.append_cancel_left heq)).1]

end Begins

namespace Location

theorem begins (location : Location) :
    ∀ address ∈ location.addresses, Begins location.outer location.name address := by
  obtain ⟨outer, name, part⟩ := location
  intro address h
  cases part with
  | single | object =>
      obtain rfl := List.mem_singleton.mp h
      exact begins_member outer name
  | array number =>
      simp only [addresses, components, List.mem_cons, List.not_mem_nil, or_false] at h
      obtain rfl | rfl | rfl := h
      · exact begins_member outer name
      · exact ⟨.element name, [], rfl, rfl⟩
      · exact ⟨.member name, [.member _], List.append_assoc _ _ _, rfl⟩

theorem nodup_addresses (location : Location) : location.addresses.Nodup := by
  obtain ⟨outer, name, part⟩ := location
  cases part with
  | single | object => exact List.nodup_singleton _
  | array number => simp [addresses, components]

end Location

namespace FieldList

variable {types : TypeSet} {fields : FieldList} {before : List Text} {outer : List Component}
  {layout : Layout} {first : Nat} {name : Text} {address : List Component}

-- All addresses of some fields, in pre-order.
def addresses (fields : FieldList) (outer : List Component) (first : Nat) :
    List (List Component) :=
  (fields.locations outer first).flatMap Location.addresses

theorem addresses_object {members : FieldList} (hsome : members.isEmpty = false) (name : Text)
    (rest : FieldList) (outer : List Component) (first : Nat) :
    (branch name objectType members rest).addresses outer first =
      ((outer ++ [.member name]) :: members.addresses (outer ++ [.member name]) first) ++
        rest.addresses outer (first + members.arrays) := by
  rw [addresses, locations_object _ _ _ _ hsome, List.flatMap_cons, List.flatMap_append,
    ← List.append_assoc]
  rfl

theorem addresses_array {members : FieldList} (hsome : members.isEmpty = false) (name : Text)
    (rest : FieldList) (outer : List Component) (first : Nat) :
    (branch name arrayType members rest).addresses outer first =
      ((⟨outer, name, .array first⟩ : Location).addresses ++
        members.addresses (outer ++ [.element name]) (first + 1)) ++
        rest.addresses outer (first + (members.arrays + 1)) := by
  rw [addresses, locations_array _ _ _ _ hsome, List.flatMap_cons, List.flatMap_append,
    ← List.append_assoc]
  rfl

end FieldList

namespace Layout.Resolves

variable {types : TypeSet} {fields : FieldList} {before : List Text} {layout : Layout}
  {outer : List Component} {name : Text}

theorem names_notMem (h : Resolves types before fields layout) :
    ∀ name ∈ fields.names, name ∉ before := by
  induction h with
  | nil => exact fun _ hmem => absurd hmem List.not_mem_nil
  | leaf hname _ _ _ ih | empty hname _ _ _ ih | object hname _ _ _ _ ih | array hname _ _ _ _ ih =>
      refine List.forall_mem_cons.mpr ⟨hname, ?_⟩
      intro other hother hmem
      exact ih other hother (List.mem_cons_of_mem _ hmem)

theorem name_notMem (h : Resolves types (name :: before) fields layout) : name ∉ fields.names :=
  fun hmem => h.names_notMem name hmem List.mem_cons_self

end Layout.Resolves

-- The addresses of the fields of a level are distinct, and begin with the names
-- of its fields.
structure Spread (outer : List Component) (names : List Text)
    (addresses : List (List Component)) : Prop where
  begins : ∀ address ∈ addresses, ∃ name ∈ names, Begins outer name address
  nodup : addresses.Nodup

namespace Spread

variable {outer : List Component} {name : Text} {names : List Text} {component : Component}
  {own others inner : List (List Component)}

theorem nil : Spread outer [] [] :=
  ⟨fun _ h => absurd h List.not_mem_nil, List.nodup_nil⟩

-- A field in front of its siblings.
theorem append (hbegins : ∀ address ∈ own, Begins outer name address) (hown : own.Nodup)
    (h : Spread outer names others) (hname : name ∉ names) :
    Spread outer (name :: names) (own ++ others) := by
  constructor
  · refine List.forall_mem_append.mpr ⟨?_, ?_⟩
    · intro address hmem
      exact ⟨name, List.mem_cons_self, hbegins address hmem⟩
    · intro address hmem
      obtain ⟨other, hother, hbegins⟩ := h.begins address hmem
      exact ⟨other, List.mem_cons_of_mem _ hother, hbegins⟩
  · refine List.nodup_append'.mpr ⟨hown, h.nodup, ?_⟩
    intro address hmem hother
    obtain ⟨other, hothers, hbegins'⟩ := h.begins address hother
    rw [(hbegins address hmem).name_eq hbegins'] at hname
    exact hname hothers

theorem single (h : Spread outer names others) (hname : name ∉ names) :
    Spread outer (name :: names) ([outer ++ [.member name]] ++ others) := by
  have hbegins : ∀ address ∈ [outer ++ [.member name]], Begins outer name address :=
    List.forall_mem_singleton.mpr (begins_member outer name)
  exact append hbegins (List.nodup_singleton _) h hname

theorem inside (h : Spread (outer ++ [component]) names inner) :
    ∀ address ∈ inner, Begins outer component.name address := by
  intro address hmem
  obtain ⟨other, -, hbegins⟩ := h.begins address hmem
  exact hbegins.inside

theorem level_notMem (h : Spread outer names inner) : outer ∉ inner := by
  intro hmem
  obtain ⟨other, -, hbegins⟩ := h.begins _ hmem
  exact hbegins.ne_level rfl

theorem disjoint_array {first : Nat} (h : Spread (outer ++ [.element name]) names inner) :
    (⟨outer, name, .array first⟩ : Location).addresses.Disjoint inner := by
  intro address hmem hinner
  obtain ⟨other, -, component, more, rfl, -⟩ := h.begins _ hinner
  simp [Location.addresses, Location.components] at hmem

end Spread

-- No two paths of a compiled definition have the same components. Those of
-- siblings differ right behind the level, and members lie deeper than the field
-- that they belong to.
theorem Layout.Resolves.spread {types : TypeSet} {before : List Text} {fields : FieldList}
    {layout : Layout} (h : Resolves types before fields layout) (outer : List Component)
    (first : Nat) : Spread outer fields.names (fields.addresses outer first) := by
  induction h generalizing outer first with
  | nil => exact .nil
  | leaf _ _ _ hrest ih | empty _ _ _ hrest ih =>
      exact (ih outer _).single hrest.name_notMem
  | @object before name members rest inner others hname hsome hmembers hrest ihmembers ih =>
      have hinner := ihmembers (outer ++ [.member name]) first
      rw [FieldList.addresses_object hsome]
      refine .append ?_ ?_ (ih outer _) hrest.name_notMem
      · exact List.forall_mem_cons.mpr ⟨begins_member outer name, hinner.inside⟩
      · exact List.nodup_cons.mpr ⟨hinner.level_notMem, hinner.nodup⟩
  | @array before name members rest count element others hname hsome hmembers hrest ihmembers ih =>
      have hinner := ihmembers (outer ++ [.element name]) (first + 1)
      rw [FieldList.addresses_array hsome]
      refine .append ?_ ?_ (ih outer _) hrest.name_notMem
      · exact List.forall_mem_append.mpr ⟨Location.begins _, hinner.inside⟩
      · exact List.nodup_append'.mpr
          ⟨Location.nodup_addresses _, hinner.nodup, hinner.disjoint_array⟩

section Plain

variable {fields : FieldList} {outer : List Component} {first : Nat} {location : Location}

theorem Component.forall_plain_concat {component : Component}
    (houter : ∀ other ∈ outer, other.name.Plain) (h : component.name.Plain) :
    ∀ other ∈ outer ++ [component], other.name.Plain :=
  List.forall_mem_append.mpr ⟨houter, List.forall_mem_singleton.mpr h⟩

theorem Location.plain_addresses (houter : ∀ component ∈ location.outer, component.name.Plain)
    (hname : location.name.Plain) :
    ∀ address ∈ location.addresses,
      address ≠ [] ∧ ∀ component ∈ address, component.name.Plain := by
  obtain ⟨outer, name, part⟩ := location
  have hmember : ∀ component ∈ outer ++ [Component.member name], component.name.Plain :=
    Component.forall_plain_concat houter hname
  intro address h
  constructor
  · obtain ⟨component, more, rfl, -⟩ := Location.begins _ address h
    simp
  · cases part with
    | single | object =>
        obtain rfl := List.mem_singleton.mp h
        exact hmember
    | array number =>
        simp only [addresses, components, List.mem_cons, List.not_mem_nil, or_false] at h
        obtain rfl | rfl | rfl := h
        · exact hmember
        · exact Component.forall_plain_concat houter hname
        · exact Component.forall_plain_concat hmember (Text.plain_count number)

-- What a field lies in are fields as well.
theorem FieldList.plain_outer (houter : ∀ component ∈ outer, component.name.Plain)
    (h : ∀ location ∈ fields.locations outer first, location.name.Plain) :
    ∀ location ∈ fields.locations outer first,
      ∀ component ∈ location.outer, component.name.Plain := by
  induction fields generalizing outer first with
  | nil => exact fun _ hmem => absurd hmem List.not_mem_nil
  | leaf name type rest ih =>
      rw [locations, List.forall_mem_cons] at h ⊢
      exact ⟨houter, ih houter h.2⟩
  | branch name type members rest ihmembers ih =>
      rw [locations, List.forall_mem_append] at h ⊢
      obtain ⟨hown, hrest⟩ := h
      refine ⟨?_, ih houter hrest⟩
      unfold byKind at hown ⊢
      by_cases hempty : members.isEmpty = true
      · rw [if_pos hempty]
        exact List.forall_mem_singleton.mpr houter
      rw [if_neg hempty] at hown ⊢
      by_cases hobject : type = objectType
      · rw [if_pos hobject, List.forall_mem_cons] at hown ⊢
        exact ⟨houter, ihmembers (Component.forall_plain_concat houter hown.1) hown.2⟩
      · rw [if_neg hobject, List.forall_mem_cons] at hown ⊢
        exact ⟨houter, ihmembers (Component.forall_plain_concat houter hown.1) hown.2⟩

theorem FieldList.plain_addresses
    (h : ∀ location ∈ fields.locations [] first, location.name.Plain) :
    ∀ address ∈ fields.addresses [] first,
      address ≠ [] ∧ ∀ component ∈ address, component.name.Plain := by
  intro address hmem
  obtain ⟨location, hlocation, haddress⟩ := List.mem_flatMap.mp hmem
  have houter := FieldList.plain_outer (List.forall_mem_nil _) h location hlocation
  exact Location.plain_addresses houter (h location hlocation) address haddress

end Plain

namespace FieldList

variable {types : TypeSet} {before : List Text} {fields : FieldList} {layout : Layout}
  {first : Nat} {path : Text}

-- A path belongs to one field and to no other.
def Denotes (fields : FieldList) (first : Nat) (path : Text) : Prop :=
  ∃ before location after, fields.locations [] first = before ++ location :: after ∧
    path ∈ location.paths ∧ ∀ other ∈ before ++ after, path ∉ other.paths

theorem flatMap_paths (fields : FieldList) (outer : List Component) (first : Nat) :
    (fields.locations outer first).flatMap Location.paths =
      (fields.addresses outer first).map Component.path := by
  rw [addresses, List.map_flatMap]
  rfl

theorem nodup_paths (hresolves : Layout.Resolves types before fields layout)
    (h : ∀ location ∈ fields.locations [] first, location.name.Plain) :
    ((fields.locations [] first).flatMap Location.paths).Nodup := by
  rw [flatMap_paths]
  refine (hresolves.spread [] first).nodup.map_on ?_
  intro address haddress other hother heq
  obtain ⟨hne, hplain⟩ := plain_addresses h address haddress
  obtain ⟨hotherNe, hotherPlain⟩ := plain_addresses h other hother
  exact Component.path_inj hplain hne hotherPlain hotherNe heq

theorem denotes_of_mem (hresolves : Layout.Resolves types before fields layout)
    (h : ∀ location ∈ fields.locations [] first, location.name.Plain)
    (hpath : path ∈ (fields.locations [] first).flatMap Location.paths) :
    fields.Denotes first path := by
  obtain ⟨location, hlocation, hpath⟩ := List.mem_flatMap.mp hpath
  obtain ⟨earlier, later, hsplit⟩ := List.append_of_mem hlocation
  have hnodup := nodup_paths hresolves h
  refine ⟨earlier, location, later, hsplit, hpath, ?_⟩
  rw [hsplit, List.flatMap_append, List.flatMap_cons] at hnodup
  obtain ⟨-, hnodup, hearlier⟩ := List.nodup_append'.mp hnodup
  obtain ⟨-, -, hlater⟩ := List.nodup_append'.mp hnodup
  refine List.forall_mem_append.mpr ⟨?_, ?_⟩
  · intro other hother hmem
    exact hearlier (List.mem_flatMap.mpr ⟨other, hother, hmem⟩) (List.mem_append_left _ hpath)
  · intro other hother hmem
    exact hlater hpath (List.mem_flatMap.mpr ⟨other, hother, hmem⟩)

end FieldList

end PacketCodec
