import Mathlib.Data.List.Nodup
import PacketCodec.EnumMap.Basic
import PacketCodec.Proofs.Value.Key

namespace PacketCodec

namespace EnumMap

structure Paired (map : EnumMap) : Prop where
  texts : ∀ entry ∈ map.entries, ∃ t code, entry = ⟨.text t, code, true⟩
  names : map.names.Nodup
  codes : (map.entries.map (·.code)).Nodup

-- What adding makes of the empty map, also where a pair is not accepted.
inductive OfTexts : EnumMap → Prop
  | empty (maxCode : Value) : OfTexts (empty maxCode)
  | add {map : EnumMap} (h : OfTexts map) (name : Text) (code : Value) :
      OfTexts (map.add (.text name) code).2

variable {map : EnumMap} {name : Value} {t : Text} {code : Nat} {entry : Entry}

theorem Entry.isNamedBy_iff :
    entry.isNamedBy code = true ↔ entry.isMutual = true ∧ entry.code = code := by
  rw [Entry.isNamedBy, Bool.and_eq_true, decide_eq_true_iff, Int.ofNat_inj]

theorem find?_eq_some_of_unique {α : Type} {p : α → Bool} {l : List α} {a : α} (ha : a ∈ l)
    (hp : p a = true) (hunique : ∀ b ∈ l, p b = true → b = a) : l.find? p = some a := by
  have hsome : (l.find? p).isSome = true := List.find?_isSome.mpr ⟨a, ha, hp⟩
  obtain ⟨b, hfind⟩ := Option.isSome_iff_exists.mp hsome
  rw [hfind, hunique b (List.mem_of_find?_eq_some hfind) (List.find?_some hfind)]

namespace Paired

theorem isMutual (h : map.Paired) (hentry : entry ∈ map.entries) : entry.isMutual = true := by
  obtain ⟨t, code, rfl⟩ := h.texts entry hentry
  rfl

theorem codes_eq (h : map.Paired) : map.codes = map.entries.map (·.code) := by
  unfold EnumMap.codes
  rw [List.filter_eq_self.mpr fun _ hentry => h.isMutual hentry]

theorem eq_of_name_eq (h : map.Paired) {other : Entry} (hentry : entry ∈ map.entries)
    (hother : other ∈ map.entries) (hname : entry.name = other.name) : entry = other :=
  List.inj_on_of_nodup_map h.names hentry hother hname

theorem eq_of_code_eq (h : map.Paired) {other : Entry} (hentry : entry ∈ map.entries)
    (hother : other ∈ map.entries) (hcode : entry.code = other.code) : entry = other :=
  List.inj_on_of_nodup_map h.codes hentry hother hcode

theorem codeOf_eq_some_iff (h : map.Paired) :
    map.codeOf (.text t) = some code ↔ ⟨.text t, code, true⟩ ∈ map.entries := by
  simp only [codeOf, Option.map_eq_some_iff]
  constructor
  · rintro ⟨entry, hfind, rfl⟩
    have hentry := List.mem_of_find?_eq_some hfind
    have hsame := List.find?_some hfind
    obtain ⟨t', code, rfl⟩ := h.texts entry hentry
    rw [← Value.same_text_iff.mp hsame]
    exact hentry
  · intro hentry
    refine ⟨_, find?_eq_some_of_unique hentry (Value.same_text_iff.mpr rfl) ?_, rfl⟩
    intro other hother hsame
    exact h.eq_of_name_eq hother hentry (Value.same_text_iff.mp hsame)

theorem nameOf_eq_some_iff (h : map.Paired) :
    map.nameOf code = some name ↔ ⟨name, code, true⟩ ∈ map.entries := by
  simp only [nameOf, Option.map_eq_some_iff]
  constructor
  · rintro ⟨entry, hfind, rfl⟩
    have hentry := List.mem_of_find?_eq_some hfind
    have hnamed := List.find?_some hfind
    obtain ⟨t, code', rfl⟩ := h.texts entry hentry
    obtain ⟨-, rfl⟩ := Entry.isNamedBy_iff.mp hnamed
    exact hentry
  · intro hentry
    refine ⟨_, find?_eq_some_of_unique hentry (Entry.isNamedBy_iff.mpr ⟨rfl, rfl⟩) ?_, rfl⟩
    intro other hother hnamed
    exact h.eq_of_code_eq hother hentry (Entry.isNamedBy_iff.mp hnamed).2

-- The two directions are inverse to each other.
theorem nameOf_eq_some_iff_codeOf (h : map.Paired) :
    map.nameOf code = some (.text t) ↔ map.codeOf (.text t) = some code := by
  rw [h.nameOf_eq_some_iff, h.codeOf_eq_some_iff]

theorem exists_text_of_nameOf (h : map.Paired) (hname : map.nameOf code = some name) :
    ∃ t, name = .text t := by
  obtain ⟨t, _, hentry⟩ := h.texts _ (h.nameOf_eq_some_iff.mp hname)
  exact ⟨t, congrArg Entry.name hentry⟩

-- Only texts have codes.
theorem exists_text_of_codeOf (h : map.Paired) (hcode : map.codeOf name = some code) :
    ∃ t, name = .text t := by
  obtain ⟨entry, hfind, -⟩ := Option.map_eq_some_iff.mp hcode
  have hsame := List.find?_some hfind
  obtain ⟨t, _, rfl⟩ := h.texts entry (List.mem_of_find?_eq_some hfind)
  have hparts := Value.keyParts?_eq_of_alike (Value.alike_of_same hsame)
  exact ⟨t, Value.keyParts?_eq_text_iff.mp hparts.symm⟩

end Paired

-- Forgetting a code changes nothing where no name stands for it both ways.
theorem withoutCode_eq (hfree : ∀ entry ∈ map.entries, entry.isNamedBy code = false) :
    map.withoutCode code = map := by
  have hmap : (map.entries.map fun entry : Entry =>
      if entry.isNamedBy code then { entry with isMutual := false } else entry) = map.entries := by
    refine (List.map_congr_left fun entry hentry => ?_).trans (List.map_id _)
    rw [hfree entry hentry]
    rfl
  unfold withoutCode
  rw [hmap]

theorem withoutName_withoutCode (map : EnumMap) (code : Nat) (name : Value) :
    (map.withoutCode code).withoutName name = (map.withoutName name).withoutCode code := by
  have hname : ((fun entry : Entry => !entry.name.same name) ∘ fun entry : Entry =>
      if entry.isNamedBy code then { entry with isMutual := false } else entry) =
      fun entry => !entry.name.same name := by
    funext entry
    simp only [Function.comp_apply]
    split <;> rfl
  simp only [withoutCode, withoutName, List.filter_map, hname]

namespace Paired

theorem withoutName (h : map.Paired) (name : Value) : (map.withoutName name).Paired where
  texts entry hentry := h.texts entry (List.mem_of_mem_filter hentry)
  names := h.names.sublist (List.filter_sublist.map _)
  codes := h.codes.sublist (List.filter_sublist.map _)

theorem name_ne_of_mem_withoutName (hentry : entry ∈ (map.withoutName (.text t)).entries) :
    entry ∈ map.entries ∧ entry.name ≠ .text t := by
  obtain ⟨hentry, hname⟩ := List.mem_filter.mp hentry
  refine ⟨hentry, fun heq => ?_⟩
  rw [Value.same_text_iff.mpr heq] at hname
  contradiction

-- The entry that gives its code away is the one that is taken out, so no entry
-- is left that stands one way only.
theorem dropName_eq (h : map.Paired) (t : Text) :
    map.dropName (.text t) = (.ok (), map.withoutName (.text t)) := by
  cases hcode : map.codeOf (.text t) with
  | none =>
      have hkeep : ∀ entry ∈ map.entries, (!entry.name.same (.text t)) = true := by
        intro entry hentry
        rw [Bool.not_eq_true', ← Bool.not_eq_true, Value.same_text_iff]
        intro hname
        obtain ⟨t', code, rfl⟩ := h.texts entry hentry
        cases hname
        rw [h.codeOf_eq_some_iff.mpr hentry] at hcode
        contradiction
      simp only [dropName, hcode, EnumMap.withoutName, List.filter_eq_self.mpr hkeep]
  | some code =>
      have hentry := h.codeOf_eq_some_iff.mp hcode
      have hmem : code ∈ map.codes := by
        rw [h.codes_eq]
        exact List.mem_map_of_mem hentry
      have hfree : ∀ entry ∈ (map.withoutName (.text t)).entries,
          entry.isNamedBy code = false := by
        intro other hother
        obtain ⟨hother, hname⟩ := name_ne_of_mem_withoutName hother
        rw [← Bool.not_eq_true, Entry.isNamedBy_iff]
        rintro ⟨-, hsame⟩
        exact hname (congrArg Entry.name (h.eq_of_code_eq hother hentry hsame))
      simp only [dropName, hcode, if_pos hmem, withoutName_withoutCode, withoutCode_eq hfree]

theorem dropCode_eq (h : map.Paired) (code : Nat) :
    map.dropCode code =
      { map with entries := map.entries.filter fun entry => entry.code ≠ code } := by
  have hkeep : (map.entries.filter fun entry => !entry.isNamedBy code || entry.name.isNull) =
      map.entries.filter fun entry => entry.code ≠ code := by
    refine List.filter_congr fun entry hentry => ?_
    obtain ⟨t, code', rfl⟩ := h.texts entry hentry
    have hnamed : Entry.isNamedBy ⟨.text t, code', true⟩ code = decide (code' = code) := by
      rw [Bool.eq_iff_iff, Entry.isNamedBy_iff, decide_eq_true_iff]
      exact and_iff_right rfl
    simp [hnamed, Value.isNull]
  unfold dropCode
  rw [hkeep]
  refine withoutCode_eq fun entry hentry => ?_
  rw [← Bool.not_eq_true, Entry.isNamedBy_iff]
  rintro ⟨-, hcode⟩
  simpa [hcode] using (List.mem_filter.mp hentry).2

-- A new pair takes the place of what the name and the code stood for.
theorem insert_eq (h : map.Paired) (t : Text) (code : Nat) :
    map.insert (.text t) code =
      (.ok (), { map with
        entries := (map.withoutName (.text t)).entries.filter (fun entry => entry.code ≠ code) ++
          [⟨.text t, code, true⟩] }) := by
  simp only [insert, h.dropName_eq, (h.withoutName _).dropCode_eq]
  rfl

theorem mem_insert (h : map.Paired) (hentry : entry ∈ (map.insert (.text t) code).2.entries) :
    entry ∈ map.entries ∨ entry = ⟨.text t, code, true⟩ := by
  rw [h.insert_eq] at hentry
  rcases List.mem_append.mp hentry with hentry | hentry
  · exact .inl (List.mem_of_mem_filter (List.mem_of_mem_filter hentry))
  · exact .inr (List.mem_singleton.mp hentry)

theorem maxCode_insert (h : map.Paired) (t : Text) (code : Nat) :
    (map.insert (.text t) code).2.maxCode = map.maxCode := by
  rw [h.insert_eq]

theorem insert (h : map.Paired) (t : Text) (code : Nat) : (map.insert (.text t) code).2.Paired := by
  have hrest := h.withoutName (.text t)
  constructor
  · intro entry hentry
    rcases h.mem_insert hentry with hentry | rfl
    · exact h.texts entry hentry
    · exact ⟨t, code, rfl⟩
  · rw [h.insert_eq]
    simp only [EnumMap.names, List.map_append, List.map_cons, List.map_nil]
    refine List.nodup_append.mpr ⟨hrest.names.sublist (List.filter_sublist.map _), by simp, ?_⟩
    intro name hname other hother
    obtain ⟨entry, hentry, rfl⟩ := List.mem_map.mp hname
    rw [List.mem_singleton.mp hother]
    exact (name_ne_of_mem_withoutName (List.mem_of_mem_filter hentry)).2
  · rw [h.insert_eq]
    simp only [List.map_append, List.map_cons, List.map_nil]
    refine List.nodup_append.mpr ⟨hrest.codes.sublist (List.filter_sublist.map _), by simp, ?_⟩
    intro code' hcode other hother
    obtain ⟨entry, hentry, rfl⟩ := List.mem_map.mp hcode
    rw [List.mem_singleton.mp hother]
    simpa using (List.mem_filter.mp hentry).2

end Paired

-- What adding does to a map: nothing where it fails, otherwise it puts in a pair
-- whose code is in range.
theorem add_eq (map : EnumMap) (t : Text) (code : Value) :
    (∃ e, map.add (.text t) code = (.error e, map)) ∨
      ∃ n : Nat, code = .int n ∧ map.accepts n = .ok true ∧
        map.add (.text t) code = map.insert (.text t) n := by
  cases code with
  | int n =>
      cases haccepts : map.accepts n with
      | error e => exact .inl ⟨.notOrdered e, by simp only [add, haccepts]⟩
      | ok accepted =>
          cases accepted with
          | false =>
              exact .inl ⟨.outOfRange (.text t) n, by simp only [add, haccepts, Value.key_text]⟩
          | true =>
              have hn : 0 ≤ n := by
                by_contra hneg
                simp [accepts, show n < 0 by omega] at haccepts
              obtain ⟨n, rfl⟩ := Int.eq_ofNat_of_zero_le hn
              exact .inr ⟨n, rfl, haccepts, by simp only [add, haccepts, Value.key_text]; rfl⟩
  | _ => exact .inl ⟨_, rfl⟩

theorem add_cases (map : EnumMap) (t : Text) (code : Value) :
    (map.add (.text t) code).2 = map ∨
      ∃ n : Nat, code = .int n ∧ map.accepts n = .ok true ∧
        map.add (.text t) code = map.insert (.text t) n := by
  rcases map.add_eq t code with ⟨e, hadd⟩ | hadd
  · exact .inl (congrArg Prod.snd hadd)
  · exact .inr hadd

theorem accepts_of_maxCode_eq {other : EnumMap} (h : map.maxCode = other.maxCode) :
    map.accepts = other.accepts := by
  funext code
  unfold accepts
  rw [h]

namespace OfTexts

theorem paired (h : map.OfTexts) : map.Paired := by
  induction h with
  | empty maxCode => exact ⟨by simp [EnumMap.empty], List.nodup_nil, List.nodup_nil⟩
  | @add map _ name code ih =>
      rcases map.add_cases name code with hadd | ⟨n, -, -, hadd⟩
      · rw [hadd]
        exact ih
      · rw [hadd]
        exact ih.insert name n

theorem accepts_code (h : map.OfTexts) :
    ∀ entry ∈ map.entries, map.accepts entry.code = .ok true := by
  induction h with
  | empty maxCode => simp [EnumMap.empty]
  | @add map hmap name code ih =>
      rcases map.add_cases name code with hadd | ⟨n, -, haccepts, hadd⟩
      · rw [hadd]
        exact ih
      · rw [hadd, accepts_of_maxCode_eq (hmap.paired.maxCode_insert name n)]
        intro entry hentry
        rcases hmap.paired.mem_insert hentry with hentry | rfl
        · exact ih entry hentry
        · exact haccepts

end OfTexts

end EnumMap

end PacketCodec
