import PacketCodec.Proofs.Layout.Puts

namespace PacketCodec

section Each

variable {α β : Type} {spells : List UInt8 → α → Prop}

theorem spellsEach_flatMap {xs : List β} {bytes : β → List UInt8} {item : β → α}
    (h : ∀ x ∈ xs, spells (bytes x) (item x)) :
    SpellsEach spells (xs.flatMap bytes) (xs.map item) := by
  induction xs with
  | nil => exact .nil
  | cons x xs ih =>
      rw [List.forall_mem_cons] at h
      exact .cons h.1 (ih h.2)

theorem repeated_flatMap {part : List UInt8 → List UInt8 → Prop} {bytes : List UInt8}
    {items : List α} {written : α → List UInt8} (h : SpellsEach spells bytes items)
    (hpart : ∀ bytes item, spells bytes item → part bytes (written item)) :
    Repeated part items.length bytes (items.flatMap written) := by
  induction h with
  | nil => exact ⟨rfl, rfl⟩
  | cons hfirst _ ih => exact ⟨_, _, _, _, rfl, rfl, hpart _ _ hfirst, ih⟩

theorem counted_flatMap {part : List UInt8 → List UInt8 → Prop} {count bytes : List UInt8}
    {items : List α} {written : α → List UInt8} (hcount : count.length = 2)
    (hlen : LittleEndian.decode count = items.length) (h : SpellsEach spells bytes items)
    (hpart : ∀ bytes item, spells bytes item → part bytes (written item)) :
    Counted part (count ++ bytes)
      (LittleEndian.encode 2 items.length ++ items.flatMap written) := by
  have hsame : LittleEndian.encode 2 items.length = count := by
    rw [← hlen, ← hcount]
    exact LittleEndian.encode_decode count
  refine ⟨count, bytes, items.flatMap written, hcount, rfl, by rw [hsame], ?_⟩
  rw [hlen]
  exact repeated_flatMap h hpart

end Each

namespace Layout

variable {types : TypeSet} {before : List Text} {fields : FieldList} {layout : Layout}
  {entries : List (Text × Value)} {path : Text} {n : Nat}

theorem exists_of_mem_of_measureEach {measure : Value → Text → Except Misfit Nat}
    {items : List Value} {i size : Nat} (h : measureEach measure path items i size = .ok n) :
    ∀ item ∈ items, ∃ path n, measure item path = .ok n := by
  induction items generalizing i size with
  | nil => exact fun _ hitem => absurd hitem List.not_mem_nil
  | cons item rest ih =>
      obtain ⟨first, hfirst, hrest⟩ := measureEach_cons_eq_ok_iff.mp h
      exact List.forall_mem_cons.mpr ⟨⟨_, first, hfirst⟩, ih hrest⟩

theorem mapTextsOfItems_map_record (f : Text → Text) (items : List Value)
    (normal : Value → List (Text × Value)) :
    Value.mapTextsOfItems f (items.map fun item => .record (normal item)) =
      (items.map fun item => Value.mapTextsOfEntries f (normal item)).map Value.record := by
  rw [Value.mapTextsOfItems_eq, List.map_map, List.map_map]
  rfl

theorem textsOfEntries_subset_textsOfItems {normal : Value → List (Text × Value)}
    {items : List Value} {item : Value} (h : item ∈ items) :
    Value.textsOfEntries (normal item) ⊆
      Value.textsOfItems (items.map fun item => .record (normal item)) := by
  have hmem : Value.record (normal item) ∈ items.map fun item => Value.record (normal item) :=
    List.mem_map_of_mem h
  have htexts := Value.texts_subset_of_mem hmem
  rwa [Value.texts] at htexts

-- The texts of a record must not end early, and surrogates in them are joined.
theorem spells_rejoined (hset : types.types = WireType.builtin)
    (h : Resolves types before fields layout)
    (hzero : ∀ t ∈ Value.textsOfEntries (fields.normal entries), 0 ∉ t)
    (hn : layout.measure entries path = .ok n) :
    layout.Spells (fields.encoding entries)
      (Value.mapTextsOfEntries Text.rejoined (fields.normal entries)) := by
  induction h generalizing entries path n with
  | nil => exact ⟨rfl, rfl⟩
  | @leaf before name type rest wire others hname hscalar hwire hrest ih
  | @empty before name type rest wire others hname hscalar hwire hrest ih =>
      obtain ⟨size, more, hsize, hmore, rfl⟩ := measure_scalar_eq_ok_iff.mp hn
      obtain ⟨hstandard, rfl⟩ := TypeSet.standard_of_find? hset hwire
      obtain ⟨hvalue, hothers⟩ := List.forall_mem_append.mp hzero
      exact ⟨_, _, _, _, rfl, rfl, WireType.spells_encoding hstandard hsize hvalue,
        ih hothers hmore⟩
  | @object before name members rest inner others hname hsome hmembers hrest ihmembers ih =>
      obtain ⟨-, size, more, hsize, hmore, rfl⟩ := measure_object_eq_ok_iff.mp hn
      rw [FieldList.normal, FieldList.byKind_object hsome] at hzero
      rw [FieldList.encoding, FieldList.normal, FieldList.byKind_object hsome,
        FieldList.byKind_object hsome]
      obtain ⟨hvalue, hothers⟩ := List.forall_mem_append.mp hzero
      rw [Value.texts] at hvalue
      exact ⟨_, _, _, _, rfl, rfl, ihmembers hvalue hsize, ih hothers hmore⟩
  | @array before name members rest count element others hname hsome hmembers hrest ihmembers ih =>
      obtain ⟨items, size, more, hitems, hsize, hmore, rfl⟩ := measure_array_eq_ok_iff.mp hn
      obtain ⟨rfl, hshort⟩ := eq_items_of_itemsOf hitems
      rw [FieldList.normal, FieldList.byKind_array hsome] at hzero
      rw [FieldList.encoding, FieldList.normal, FieldList.byKind_array hsome,
        FieldList.byKind_array hsome]
      obtain ⟨hvalue, hothers⟩ := List.forall_mem_append.mp hzero
      rw [Value.texts] at hvalue
      refine ⟨(lookUp entries name).items.map fun item =>
        Value.mapTextsOfEntries Text.rejoined (members.normal item.entries), _, _, _, _,
        List.append_assoc _ _ _, ?_, LittleEndian.length_encode _ _, ?_, ?_, ih hothers hmore⟩
      · rw [Value.mapTextsOfEntries, Value.mapTexts, mapTextsOfItems_map_record]
      · rw [List.length_map]
        exact LittleEndian.decode_encode 2 _ (Nat.lt_succ_of_le hshort)
      · refine spellsEach_flatMap fun item hitem => ?_
        obtain ⟨path, n, hn⟩ := exists_of_mem_of_measureEach hsize item hitem
        exact ihmembers (fun t ht => hvalue t (textsOfEntries_subset_textsOfItems hitem ht))
          (measureItem_eq_ok_iff.mp hn).2

theorem texts_normal {type : WireType} {value : Value} {t : Text}
    (h : t ∈ (type.normal value).texts) : t = [] ∨ t ∈ value.texts := by
  cases type with
  | flag => exact absurd h List.not_mem_nil
  | number type =>
      obtain ⟨packing, integral⟩ := type
      cases packing with
      | whole signed width => exact .inr h
      | single | double =>
          simp only [WireType.normal, Packing.normal] at h
          split at h
          · exact absurd h List.not_mem_nil
          · exact .inr h
  | text =>
      cases value with
      | null => exact .inl (List.mem_singleton.mp h)
      | _ => exact .inr h

theorem texts_normal_lookUp {type : WireType} {name t : Text}
    (h : t ∈ (type.normal (lookUp entries name)).texts) :
    t = [] ∨ t ∈ Value.textsOfEntries entries :=
  (texts_normal h).imp_right fun h => Value.texts_lookUp_subset entries name h

-- The normal form of a record has no texts of its own, apart from the empty text
-- in the place of null.
theorem textsOfEntries_normal {t : Text} (h : t ∈ Value.textsOfEntries (fields.normal entries)) :
    t = [] ∨ t ∈ Value.textsOfEntries entries := by
  induction fields generalizing entries with
  | nil => exact absurd h List.not_mem_nil
  | leaf name type rest ih =>
      rcases List.mem_append.mp h with h | h
      · exact texts_normal_lookUp h
      · exact ih h
  | branch name type members rest ihmembers ih =>
      rcases List.mem_append.mp h with h | h
      · simp only [FieldList.byKind] at h
        split at h
        · exact texts_normal_lookUp h
        · split at h
          · rw [Value.texts] at h
            exact (ihmembers h).imp_right fun h => Value.textsOfEntries_member_subset h
          · rw [Value.texts, Value.textsOfItems_eq, List.mem_flatMap] at h
            obtain ⟨element, helement, h⟩ := h
            obtain ⟨item, hitem, rfl⟩ := List.mem_map.mp helement
            rw [Value.texts] at h
            exact (ihmembers h).imp_right fun h => Value.textsOfEntries_element_subset hitem h
      · exact ih h

-- The texts of a record must be such that they come back.
theorem spells_encoding (hset : types.types = WireType.builtin)
    (h : Resolves types before fields layout)
    (hplain : ∀ t ∈ Value.textsOfEntries entries, 0 ∉ t ∧ t.Unpaired)
    (hn : layout.measure entries path = .ok n) :
    layout.Spells (fields.encoding entries) (fields.normal entries) := by
  have hnormal : ∀ t ∈ Value.textsOfEntries (fields.normal entries), 0 ∉ t ∧ t.Unpaired := by
    intro t ht
    rcases textsOfEntries_normal ht with rfl | ht
    · exact ⟨List.not_mem_nil, .nil⟩
    · exact hplain t ht
  have hspells := spells_rejoined hset h (fun t ht => (hnormal t ht).1) hn
  rwa [Value.mapTextsOfEntries_eq_self _ fun t ht => Text.rejoined_of_unpaired t (hnormal t ht).2]
    at hspells

-- An entry under the name of an earlier sibling is not looked at.
theorem measure_cons {value : Value} {name : Text} (h : Resolves types before fields layout)
    (hname : name ∈ before) :
    layout.measure ((name, value) :: entries) path = layout.measure entries path := by
  induction h generalizing path with
  | nil => rfl
  | leaf hother _ _ _ ih | empty hother _ _ _ ih | object hother _ _ _ _ ih
  | array hother _ _ _ _ ih =>
      have hne := (ne_of_mem_of_not_mem hname hother).symm
      simp only [measure, lookUp_cons_of_ne entries value hne, ih (List.mem_cons_of_mem _ hname)]

theorem encoding_cons {value : Value} {name : Text} (h : Resolves types before fields layout)
    (hname : name ∈ before) :
    fields.encoding ((name, value) :: entries) = fields.encoding entries := by
  induction h with
  | nil => rfl
  | leaf hother _ _ _ ih | empty hother _ _ _ ih | object hother _ _ _ _ ih
  | array hother _ _ _ _ ih =>
      have hne := (ne_of_mem_of_not_mem hname hother).symm
      simp only [FieldList.encoding, lookUp_cons_of_ne entries value hne,
        ih (List.mem_cons_of_mem _ hname)]

theorem measureEach_of_spellsEach {element : Layout} {bytes : List UInt8}
    {items : List (List (Text × Value))} {i size : Nat} (h : SpellsEach element.Spells bytes items)
    (hitem : ∀ bytes inner, element.Spells bytes inner →
      ∀ path, element.measure inner path = .ok bytes.length) :
    measureEach (measureItem element) path (items.map .record) i size =
      .ok (size + bytes.length) := by
  induction h generalizing i size with
  | nil => rfl
  | cons hfirst _ ih =>
      rw [List.map_cons, List.length_append, ← Nat.add_assoc]
      exact measureEach_cons_eq_ok_iff.mpr ⟨_, hitem _ _ hfirst _, ih⟩

theorem rewritten_of_spells (hset : types.types = WireType.builtin)
    (h : Resolves types before fields layout) {bytes : List UInt8}
    (hspells : layout.Spells bytes entries) (path : Text) :
    layout.measure entries path = .ok bytes.length ∧
      fields.Rewritten bytes (fields.encoding entries) := by
  induction h generalizing bytes entries path with
  | nil =>
      obtain ⟨rfl, rfl⟩ := hspells
      exact ⟨rfl, rfl, rfl⟩
  | @leaf before name type rest wire others hname hscalar hwire hrest ih
  | @empty before name type rest wire others hname hscalar hwire hrest ih =>
      obtain ⟨value, tail, first, second, rfl, rfl, hfirst, hsecond⟩ := hspells
      obtain ⟨hstandard, rfl⟩ := TypeSet.standard_of_find? hset hwire
      obtain ⟨hsize, hwritten⟩ := WireType.rewritten_of_spells hstandard hfirst
        (.text (member path name))
      obtain ⟨hmore, hothers⟩ := ih hsecond path
      constructor
      · refine measure_scalar_eq_ok_iff.mpr ⟨first.length, second.length, ?_, ?_,
          List.length_append⟩
        · rw [lookUp_cons_self, hsize]
        · rw [measure_cons hrest List.mem_cons_self, hmore]
      · refine ⟨first, second, _, _, rfl, rfl, ?_, ?_⟩
        · rw [lookUp_cons_self]
          exact hwritten
        · rw [encoding_cons hrest List.mem_cons_self]
          exact hothers
  | @object before name members rest inner others hname hsome hmembers hrest ihmembers ih =>
      obtain ⟨found, tail, first, second, rfl, rfl, hfirst, hsecond⟩ := hspells
      obtain ⟨hsize, hwritten⟩ := ihmembers hfirst (member path name)
      obtain ⟨hmore, hothers⟩ := ih hsecond path
      constructor
      · refine measure_object_eq_ok_iff.mpr ⟨?_, first.length, second.length, ?_, ?_,
          List.length_append⟩
        · rw [lookUp_cons_self]
          rfl
        · rw [lookUp_cons_self]
          exact hsize
        · rw [measure_cons hrest List.mem_cons_self, hmore]
      · rw [FieldList.Rewritten, FieldList.encoding, FieldList.byKind_object hsome,
          FieldList.byKind_object hsome, lookUp_cons_self, encoding_cons hrest List.mem_cons_self]
        exact ⟨first, second, _, _, rfl, rfl, hwritten, hothers⟩
  | @array before name members rest number element others hname hsome hmembers hrest ihmembers ih =>
      obtain ⟨items, tail, count, first, second, rfl, rfl, hcount, hlen, hitems, hsecond⟩ := hspells
      obtain ⟨hmore, hothers⟩ := ih hsecond path
      have hbound : items.length < 256 ^ 2 := by
        rw [← hlen, ← hcount]
        exact LittleEndian.decode_lt count
      have hshort : (items.map Value.record).length ≤ maxElements := by
        rw [List.length_map]
        exact Nat.le_of_lt_succ hbound
      have hcounted := counted_flatMap hcount hlen hitems fun _ _ hinner =>
        (ihmembers hinner path).2
      constructor
      · refine measure_array_eq_ok_iff.mpr ⟨items.map .record, 2 + first.length, second.length, ?_,
          measureEach_of_spellsEach hitems fun _ _ hinner path => (ihmembers hinner path).1, ?_, ?_⟩
        · rw [lookUp_cons_self]
          exact itemsOf_list hshort
        · rw [measure_cons hrest List.mem_cons_self, hmore]
        · rw [List.length_append, List.length_append, hcount, Nat.add_assoc]
      · rw [FieldList.Rewritten, FieldList.encoding, FieldList.byKind_array hsome,
          FieldList.byKind_array hsome, lookUp_cons_self, encoding_cons hrest List.mem_cons_self]
        refine ⟨count ++ first, second, _, _, (List.append_assoc _ _ _).symm, rfl, ?_, hothers⟩
        rw [Value.items, List.length_map, List.flatMap_map]
        exact hcounted

end Layout

end PacketCodec
