import PacketCodec.Value.Basic

namespace PacketCodec

theorem lookUp_cons_self (entries : List (Text × Value)) (name : Text) (value : Value) :
    lookUp ((name, value) :: entries) name = value := by
  simp [lookUp]

theorem lookUp_cons_of_ne (entries : List (Text × Value)) {name key : Text} (value : Value)
    (h : key ≠ name) : lookUp ((name, value) :: entries) key = lookUp entries key := by
  rw [lookUp, List.lookup_cons, beq_false_of_ne h, lookUp]

namespace Value

-- Whatever is no record has no entries.
def entries : Value → List (Text × Value)
  | record entries => entries
  | _ => []

-- Whatever is neither a list nor a tuple has no elements.
def items : Value → List Value
  | list items | tuple items => items
  | _ => []

mutual

-- The texts in a value, at any depth. Keys are not among them.
def texts : Value → List Text
  | text t => [t]
  | list items => textsOfItems items
  | tuple items => textsOfItems items
  | record entries => textsOfEntries entries
  | _ => []

def textsOfItems : List Value → List Text
  | [] => []
  | item :: rest => item.texts ++ textsOfItems rest

def textsOfEntries : List (Text × Value) → List Text
  | [] => []
  | (_, value) :: rest => value.texts ++ textsOfEntries rest

end

mutual

-- A value with a function applied to each text in it, at any depth.
def mapTexts (f : Text → Text) : Value → Value
  | text t => text (f t)
  | list items => list (mapTextsOfItems f items)
  | tuple items => tuple (mapTextsOfItems f items)
  | record entries => record (mapTextsOfEntries f entries)
  | value => value

def mapTextsOfItems (f : Text → Text) : List Value → List Value
  | [] => []
  | item :: rest => item.mapTexts f :: mapTextsOfItems f rest

def mapTextsOfEntries (f : Text → Text) : List (Text × Value) → List (Text × Value)
  | [] => []
  | (key, value) :: rest => (key, value.mapTexts f) :: mapTextsOfEntries f rest

end

theorem textsOfItems_eq (items : List Value) : textsOfItems items = items.flatMap texts := by
  induction items with
  | nil => rfl
  | cons item rest ih => rw [textsOfItems, ih, List.flatMap_cons]

theorem mapTextsOfItems_eq (f : Text → Text) (items : List Value) :
    mapTextsOfItems f items = items.map (mapTexts f) := by
  induction items with
  | nil => rfl
  | cons item rest ih => rw [mapTextsOfItems, ih, List.map_cons]

section Fixed

variable {f : Text → Text}

mutual

-- Where every text stays, so does the value.
theorem mapTexts_eq_self : (value : Value) → (∀ t ∈ value.texts, f t = t) →
    value.mapTexts f = value
  | .text t, h => by
      rw [mapTexts, h t (List.mem_singleton_self t)]
  | .list items, h => by
      rw [texts] at h
      rw [mapTexts, mapTextsOfItems_eq_self items h]
  | .tuple items, h => by
      rw [texts] at h
      rw [mapTexts, mapTextsOfItems_eq_self items h]
  | .record entries, h => by
      rw [texts] at h
      rw [mapTexts, mapTextsOfEntries_eq_self entries h]
  | .null, _ | .bool _, _ | .int _, _ | .double _, _ | .bytes _, _ => rfl

theorem mapTextsOfItems_eq_self : (items : List Value) → (∀ t ∈ textsOfItems items, f t = t) →
    mapTextsOfItems f items = items
  | [], _ => rfl
  | item :: rest, h => by
      rw [textsOfItems, List.forall_mem_append] at h
      rw [mapTextsOfItems, mapTexts_eq_self item h.1, mapTextsOfItems_eq_self rest h.2]

theorem mapTextsOfEntries_eq_self : (entries : List (Text × Value)) →
    (∀ t ∈ textsOfEntries entries, f t = t) → mapTextsOfEntries f entries = entries
  | [], _ => rfl
  | (key, value) :: rest, h => by
      rw [textsOfEntries, List.forall_mem_append] at h
      rw [mapTextsOfEntries, mapTexts_eq_self value h.1, mapTextsOfEntries_eq_self rest h.2]

end

end Fixed

theorem texts_lookUp_subset (entries : List (Text × Value)) (key : Text) :
    (lookUp entries key).texts ⊆ textsOfEntries entries := by
  induction entries with
  | nil => simp [lookUp, texts]
  | cons entry rest ih =>
      obtain ⟨name, value⟩ := entry
      rw [textsOfEntries]
      by_cases hname : key = name
      · rw [hname, lookUp_cons_self]
        exact List.subset_append_left _ _
      · rw [lookUp_cons_of_ne rest value hname]
        exact List.Subset.trans ih (List.subset_append_right _ _)

theorem textsOfEntries_entries_subset (value : Value) :
    textsOfEntries value.entries ⊆ value.texts := by
  cases value with
  | record entries => rw [Value.entries, texts]; exact List.Subset.refl _
  | _ => exact List.nil_subset _

theorem texts_subset_of_mem {items : List Value} {item : Value} (h : item ∈ items) :
    item.texts ⊆ textsOfItems items := by
  induction items with
  | nil => contradiction
  | cons first rest ih =>
      rw [textsOfItems]
      rcases List.mem_cons.mp h with rfl | h
      · exact List.subset_append_left _ _
      · exact List.Subset.trans (ih h) (List.subset_append_right _ _)

theorem textsOfItems_items_subset (value : Value) : textsOfItems value.items ⊆ value.texts := by
  cases value with
  | list items => rw [Value.items, texts]; exact List.Subset.refl _
  | tuple items => rw [Value.items, texts]; exact List.Subset.refl _
  | _ => exact List.nil_subset _

variable {entries : List (Text × Value)} {name : Text}

-- The texts of a member's entries, and those of the entries of its elements, are
-- texts of the record.
theorem textsOfEntries_member_subset :
    textsOfEntries (lookUp entries name).entries ⊆ textsOfEntries entries :=
  List.Subset.trans (textsOfEntries_entries_subset _) (texts_lookUp_subset entries name)

theorem textsOfEntries_element_subset {item : Value} (h : item ∈ (lookUp entries name).items) :
    textsOfEntries item.entries ⊆ textsOfEntries entries := by
  have hmember := texts_lookUp_subset entries name
  have hitems := List.Subset.trans (textsOfItems_items_subset _) hmember
  have hitem := List.Subset.trans (texts_subset_of_mem h) hitems
  exact List.Subset.trans (textsOfEntries_entries_subset item) hitem

end Value

end PacketCodec
