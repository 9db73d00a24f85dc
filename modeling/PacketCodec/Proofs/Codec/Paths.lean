import PacketCodec.Proofs.Codec.Encoding
import PacketCodec.Proofs.Layout.Paths

namespace PacketCodec

-- What is said of the field of every misfit that something ends with.
def BlamesOnly {α : Type} (P : Value → Prop) (outcome : Except Misfit α) : Prop :=
  ∀ m, outcome = .error m → P m.field

namespace BlamesOnly

variable {α β : Type} {P Q : Value → Prop} {outcome : Except Misfit α}

theorem ok (a : α) : BlamesOnly P (.ok a : Except Misfit α) :=
  fun _ h => nomatch h

theorem bind {next : α → Except Misfit β} (h : BlamesOnly P outcome)
    (hnext : ∀ a, outcome = .ok a → BlamesOnly P (next a)) : BlamesOnly P (outcome >>= next) := by
  intro m hm
  obtain herror | ⟨a, ha, hm⟩ := bind_eq_error_iff.mp hm
  · exact h m herror
  · exact hnext a ha m hm

theorem mono (h : BlamesOnly P outcome) (hPQ : ∀ field, P field → Q field) : BlamesOnly Q outcome :=
  fun m hm => hPQ _ (h m hm)

end BlamesOnly

-- A part of the path of a value, in which an element stands with its index.
structure Indexes (part : Text) (component : Component) : Prop where
  ne_nil : part ≠ []
  dot_notMem : 0x2E ∉ part
  withoutIndex : part.withoutIndex = component.text

def Indexed (parts : List Text) (address : List Component) : Prop :=
  List.Forall₂ Indexes parts address

namespace Indexed

variable {parts : List Text} {address outer : List Component} {name : Text}

theorem member (h : Indexed parts outer) (hne : name ≠ []) (hname : name.Plain) :
    Indexed (parts ++ [name]) (outer ++ [.member name]) :=
  List.rel_append h (.cons ⟨hne, hname.1, hname.withoutIndex_eq⟩ .nil)

theorem element (h : Indexed parts outer) (hname : name.Plain) (i : Nat) :
    Indexed (parts ++ [Layout.element name i]) (outer ++ [.element name]) := by
  have hdot : 0x2E ∉ Layout.element name i := by
    have hdigit : CodePoint.isAsciiDigit 0x2E = false := by decide
    have hdigits := (Text.isNumeral_ofNat i).notMem hdigit
    rw [Text.element_eq]
    simp [hname.1, hdigits]
  exact List.rel_append h
    (.cons ⟨Layout.element_ne_nil name i, hdot, Text.withoutIndex_element name i⟩ .nil)

theorem forall_parts (h : Indexed parts address) :
    (∀ part ∈ parts, part ≠ []) ∧ (∀ part ∈ parts, 0x2E ∉ part) ∧
      parts.map Text.withoutIndex = address.map Component.text := by
  induction h with
  | nil => simp
  | cons hpart _ ih =>
      rw [List.forall_mem_cons, List.forall_mem_cons, List.map_cons, List.map_cons,
        hpart.withoutIndex, ih.2.2]
      exact ⟨⟨hpart.ne_nil, ih.1⟩, ⟨hpart.dot_notMem, ih.2.1⟩, rfl⟩

theorem withoutIndices_eq (h : Indexed parts address) (hne : address ≠ []) :
    (Text.joinWith "." parts).withoutIndices = Component.path address := by
  obtain ⟨-, hdot, htexts⟩ := h.forall_parts
  have hparts : parts ≠ [] := by
    rintro rfl
    exact hne (List.forall₂_nil_left_iff.mp h)
  rw [Text.withoutIndices_joinWith hdot hparts, htexts, Component.path]

end Indexed

-- The path of a misfit, which with its indices erased is one of the given ones.
def Reaches (addresses : List (List Component)) (field : Value) : Prop :=
  ∃ address ∈ addresses, ∃ parts, Indexed parts address ∧ field = .text (Text.joinWith "." parts)

theorem Reaches.mono {addresses others : List (List Component)} (h : addresses ⊆ others)
    (field : Value) (hreach : Reaches addresses field) : Reaches others field := by
  obtain ⟨address, hmem, hparts⟩ := hreach
  exact ⟨address, h hmem, hparts⟩

theorem BlamesOnly.behind {α : Type} {addresses : List (List Component)}
    {outcome : Except Misfit α} (h : BlamesOnly (Reaches addresses) outcome)
    (own : List (List Component)) : BlamesOnly (Reaches (own ++ addresses)) outcome :=
  h.mono (Reaches.mono (List.subset_append_right own addresses))

namespace Layout

variable {types : TypeSet} {before : List Text} {fields : FieldList} {layout : Layout}
  {outer : List Component} {parts : List Text} {first : Nat} {P : Value → Prop}

theorem blamesOnly_entriesOf (value : Value) {path : Text} (hpath : path ≠ [])
    (h : P (.text path)) : BlamesOnly P (entriesOf value path) := by
  intro m hm
  cases value with
  | null | record => contradiction
  | _ =>
      cases hm
      simp only [if_neg hpath]
      exact h

theorem blamesOnly_itemsOf (value : Value) {path : Text} (h : P (.text path)) :
    BlamesOnly P (itemsOf value path) := by
  intro m hm
  cases value with
  | null => contradiction
  | list items | tuple items =>
      simp only [itemsOf] at hm
      split at hm
      · cases hm
        exact h
      · contradiction
  | _ =>
      cases hm
      exact h

theorem blamesOnly_measureEach {measure : Value → Text → Except Misfit Nat} {path : Text}
    (hitem : ∀ item i, BlamesOnly P (measure item (element path i))) (items : List Value)
    (i size : Nat) : BlamesOnly P (measureEach measure path items i size) := by
  induction items generalizing i size with
  | nil => exact .ok size
  | cons item rest ih =>
      have hfirst := hitem item i
      rw [measureEach]
      generalize measure item (element path i) = outcome at hfirst ⊢
      cases outcome with
      | error m => exact hfirst
      | ok n => exact ih _ _

theorem blamesOnly_measureItem {inner : Layout} (value : Value) {path : Text} (hpath : path ≠ [])
    (h : P (.text path)) (hinner : ∀ entries, BlamesOnly P (inner.measure entries path)) :
    BlamesOnly P (measureItem inner value path) :=
  (blamesOnly_entriesOf value hpath h).bind fun entries _ => hinner entries

theorem reaches_member {name : Text} (hparts : Indexed parts outer) (hne : name ≠ [])
    (hname : name.Plain) {addresses : List (List Component)}
    (h : outer ++ [.member name] ∈ addresses) :
    Reaches addresses (.text (member (Text.joinWith "." parts) name)) := by
  rw [member_joinWith hparts.forall_parts.1]
  exact ⟨_, h, _, hparts.member hne hname, rfl⟩

theorem blamesOnly_scalar {name type : Text} {wire : WireType} {rest : Layout}
    {addresses : List (List Component)} (hparts : Indexed parts outer) (hne : name ≠ [])
    (hname : name.Plain) (entries : List (Text × Value))
    (hrest : BlamesOnly (Reaches addresses) (rest.measure entries (Text.joinWith "." parts))) :
    BlamesOnly (Reaches ([outer ++ [.member name]] ++ addresses))
      ((scalar name type wire rest).measure entries (Text.joinWith "." parts)) := by
  refine BlamesOnly.bind ?_ fun size _ => BlamesOnly.bind ?_ fun others _ => .ok _
  · intro m hm
    rw [WireType.field_of_measure_error hm]
    exact reaches_member hparts hne hname List.mem_cons_self
  · exact hrest.behind _

-- Wherever measuring fails, the path of the misfit is that of a field.
theorem blamesOnly_measure (hresolves : Resolves types before fields layout)
    (hwell : fields.WellFormed types)
    (hplain : ∀ location ∈ fields.locations outer first, location.name.Plain)
    (hparts : Indexed parts outer) (entries : List (Text × Value)) :
    BlamesOnly (Reaches (fields.addresses outer first))
      (layout.measure entries (Text.joinWith "." parts)) := by
  induction hresolves generalizing outer parts first entries with
  | nil => exact .ok 0
  | @leaf before name type rest wire others hname hscalar hwire hrest ih =>
      obtain ⟨hne, hrestWell⟩ := FieldList.wellFormed_leaf hwell
      obtain ⟨hname, hothers⟩ := List.forall_mem_cons.mp hplain
      exact blamesOnly_scalar hparts hne hname entries (ih hrestWell hothers hparts entries)
  | @empty before name type rest wire others hname hscalar hwire hrest ih =>
      obtain ⟨hne, hrestWell, -⟩ := FieldList.wellFormed_branch hwell
      obtain ⟨hname, hothers⟩ := List.forall_mem_cons.mp hplain
      exact blamesOnly_scalar hparts hne hname entries (ih hrestWell hothers hparts entries)
  | @object before name members rest inner others hname hsome hmembers hrest ihmembers ih =>
      obtain ⟨hne, hrestWell, hmembersWell⟩ := FieldList.wellFormed_branch hwell
      rw [FieldList.locations_object _ _ _ _ hsome, List.forall_mem_cons,
        List.forall_mem_append] at hplain
      obtain ⟨hname, hinner, hothers⟩ := hplain
      rw [FieldList.addresses_object hsome, measure_object]
      refine BlamesOnly.bind ?_ fun size _ => BlamesOnly.bind ?_ fun others _ => .ok _
      · refine blamesOnly_measureItem _ (member_ne_nil _ hne) ?_ ?_
        · exact reaches_member hparts hne hname (List.mem_append_left _ List.mem_cons_self)
        · intro entries
          rw [member_joinWith hparts.forall_parts.1]
          refine (ihmembers (hmembersWell rfl) hinner (hparts.member hne hname) entries).mono ?_
          exact Reaches.mono fun _ h => List.mem_append_left _ (List.mem_cons_of_mem _ h)
      · exact (ih hrestWell hothers hparts entries).behind _
  | @array before name members rest count element others hname hsome hmembers hrest ihmembers ih =>
      obtain ⟨hne, hrestWell, hmembersWell⟩ := FieldList.wellFormed_branch hwell
      rw [FieldList.locations_array _ _ _ _ hsome, List.forall_mem_cons,
        List.forall_mem_append] at hplain
      obtain ⟨hname, hinner, hothers⟩ := hplain
      rw [FieldList.addresses_array hsome, measure_array]
      refine BlamesOnly.bind ?_ fun size _ => BlamesOnly.bind ?_ fun others _ => .ok _
      · refine BlamesOnly.bind ?_ fun items _ => ?_
        · apply blamesOnly_itemsOf
          apply reaches_member hparts hne hname
          exact List.mem_append_left _ (List.mem_append_left _ List.mem_cons_self)
        · apply blamesOnly_measureEach
          intro item i
          refine blamesOnly_measureItem _ (element_ne_nil _ i) ?_ ?_
          · rw [member_joinWith hparts.forall_parts.1, element_joinWith]
            refine ⟨_, ?_, _, hparts.element hname i, rfl⟩
            apply List.mem_append_left _ (List.mem_append_left _ _)
            exact List.mem_cons_of_mem _ List.mem_cons_self
          · intro entries
            rw [member_joinWith hparts.forall_parts.1, element_joinWith]
            refine (ihmembers (hmembersWell rfl) hinner (hparts.element hname i) entries).mono ?_
            exact Reaches.mono fun _ h => List.mem_append_left _ (List.mem_append_right _ h)
      · exact (ih hrestWell hothers hparts entries).behind _

end Layout

theorem Put.foldlM_write_ne_misfit {puts : List Put} {n : Nat} (h : measureAll puts = .ok n)
    (cursor : WriteCursor) (m : Misfit) : puts.foldlM Put.write cursor ≠ .error (.misfit m) := by
  induction puts generalizing cursor n with
  | nil => exact fun hrun => nomatch hrun
  | cons put rest ih =>
      obtain ⟨size, others, hsize, hothers, -⟩ := measureAll_cons_eq_ok_iff.mp h
      intro hrun
      rw [List.foldlM_cons] at hrun
      obtain hput | ⟨next, -, hrest⟩ := bind_eq_error_iff.mp hrun
      · rw [WireType.measure_of_write_misfit hput] at hsize
        contradiction
      · exact ih hothers next hrest

namespace Codec

variable {set : TypeSet} {fields : FieldList} {name version value : Value} {codec : Codec}
  {m : Misfit}

theorem measure_of_encode_misfit {k : Nat} (h : codec.encode value k = .error (.misfit m)) :
    codec.measure value = .error m := by
  cases hmeasure : codec.measure value with
  | error other =>
      rw [encode_of_measure_error hmeasure] at h
      cases h
      rfl
  | ok n =>
      obtain ⟨hentries, hn⟩ := measure_eq_ok_iff.mp hmeasure
      rw [encode, hmeasure, mapError_ok, ok_bind, hentries, mapError_ok, ok_bind,
        Layout.write_eq_foldlM hn] at h
      obtain hrun | ⟨cursor, -, hdone⟩ := bind_eq_error_iff.mp h
      · exact absurd hrun (Put.foldlM_write_ne_misfit (Layout.measureAll_puts hn) _ m)
      · contradiction

theorem sublist_paths (locations : List Location) :
    ((locations.filterMap Location.row?).map Prod.fst).Sublist
      (locations.flatMap Location.paths) := by
  induction locations with
  | nil => exact List.Sublist.refl _
  | cons location rest ih =>
      obtain ⟨outer, name, part⟩ := location
      rw [List.flatMap_cons]
      cases part with
      | single type => exact ih.cons_cons _
      | object => exact ih.cons _
      | array number => exact ((ih.cons_cons _).cons _).cons _

-- Only a value that is no record at all is blamed without a path.
theorem denotes_of_measure_error (hcodec : (set.codec fields name version).1 = .ok codec)
    (hplain : ∀ location ∈ fields.locations [] set.issued, location.name.Plain)
    (h : codec.measure value = .error m) :
    m.field = .null ∧ Layout.entriesOf value [] = .error m ∨
      ∃ path, m.field = .text path ∧ fields.Denotes set.issued path.withoutIndices := by
  have hresolves := TypeSet.resolves_of_codec hcodec
  obtain hentries | ⟨entries, -, h⟩ := bind_eq_error_iff.mp h
  · left
    refine ⟨?_, hentries⟩
    cases value with
    | null | record => contradiction
    | _ =>
        cases hentries
        rfl
  · right
    have hblames := Layout.blamesOnly_measure hresolves (TypeSet.wellFormed_of_codec hcodec) hplain
      .nil entries
    obtain ⟨address, haddress, parts, hparts, hfield⟩ := hblames m h
    refine ⟨_, hfield, ?_⟩
    rw [hparts.withoutIndices_eq (FieldList.plain_addresses hplain address haddress).1]
    apply FieldList.denotes_of_mem hresolves hplain
    rw [FieldList.flatMap_paths]
    exact List.mem_map_of_mem haddress

-- If names leave the punctuation of paths alone, every row and every misfit says
-- which field it is about.
theorem paths_identify (hcodec : (set.codec fields name version).1 = .ok codec)
    (hplain : ∀ location ∈ fields.locations [] set.issued, location.name.Plain) :
    (codec.rows.map Prod.fst).Nodup ∧
    (∀ row ∈ codec.rows, fields.Denotes set.issued row.1) ∧
    ∀ value m, (codec.measure value = .error m ∨ ∃ k, codec.encode value k = .error (.misfit m)) →
      m.field = .null ∧ Layout.entriesOf value [] = .error m ∨
        ∃ path, m.field = .text path ∧ fields.Denotes set.issued path.withoutIndices := by
  have hresolves := TypeSet.resolves_of_codec hcodec
  have hrows := (TypeSet.rows_of_codec hcodec).2
  have hsublist := sublist_paths (fields.locations [] set.issued)
  rw [← hrows] at hsublist
  refine ⟨(FieldList.nodup_paths hresolves hplain).sublist hsublist, ?_, ?_⟩
  · intro row hrow
    apply FieldList.denotes_of_mem hresolves hplain
    exact hsublist.subset (List.mem_map_of_mem hrow)
  · rintro value m (h | ⟨k, h⟩)
    · exact denotes_of_measure_error hcodec hplain h
    · exact denotes_of_measure_error hcodec hplain (measure_of_encode_misfit h)

theorem paths_identify_spawn :
    (spawnCodec.rows.map Prod.fst).Nodup ∧
    (∀ row ∈ spawnCodec.rows, spawnFields.Denotes 0 row.1) ∧
    ∃ m, spawnCodec.measure
        (.record [("path", .list [.record [("x", .int 1)], .record [("x", .int 32768)]])]) =
        .error m ∧
      m.field = .text "path[1].x" ∧ spawnFields.Denotes 0 "path[].x" := by
  have hplain : ∀ location ∈ spawnFields.locations [] 0, location.name.Plain := by decide
  obtain ⟨hnodup, hrows, hmisfits⟩ := paths_identify codec_spawnFields hplain
  have hmeasure : ∃ m, spawnCodec.measure
      (.record [("path", .list [.record [("x", .int 1)], .record [("x", .int 32768)]])]) =
      .error m ∧ m.field = .text "path[1].x" := ⟨_, rfl, rfl⟩
  obtain ⟨m, hmeasure, hfield⟩ := hmeasure
  refine ⟨hnodup, hrows, m, hmeasure, hfield, ?_⟩
  obtain ⟨hnull, -⟩ | ⟨path, hpath, hdenotes⟩ := hmisfits _ m (.inl hmeasure)
  · rw [hfield] at hnull
    contradiction
  · rw [hfield] at hpath
    cases hpath
    exact hdenotes

-- A name with a dot in it may look like the path of another field.
def dottedCodec : Codec where
  layout :=
    .object "o" (.scalar "a" "byte" (.number (.integer false 1)) .nil)
      (.scalar "o.a" "byte" (.number (.integer false 1)) .nil)
  name := .null
  version := .null

theorem rows_dotted :
    ((TypeSet.new .null).codecOfText "object o\n- byte a\nbyte o.a").1 = .ok dottedCodec ∧
      ¬(dottedCodec.rows.map Prod.fst).Nodup ∧
      (∃ m, dottedCodec.measure (.record [("o", .record [("a", .int 256)]), ("o.a", .int 1)]) =
        .error m ∧ m.field = .text "o.a") ∧
      ∃ m, dottedCodec.measure (.record [("o", .record [("a", .int 1)]), ("o.a", .int 256)]) =
        .error m ∧ m.field = .text "o.a" := by
  refine ⟨?_, ?_, ⟨_, rfl, rfl⟩, ⟨_, rfl, rfl⟩⟩
  · rfl
  · decide

end Codec

end PacketCodec
