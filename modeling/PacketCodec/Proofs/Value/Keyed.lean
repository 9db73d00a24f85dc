import Mathlib.Data.List.Nodup
import PacketCodec.Proofs.Value.Key

namespace PacketCodec

-- Sums start from the zero of the core library.
attribute [local instance (high)] Zero.ofOfNat0

namespace Keyed

variable {α : Type} {entries : Keyed α} {key other : Value} {a : α}

theorem mem_of_get? (h : entries.get? key = some a) : ∃ own, (own, a) ∈ entries := by
  obtain ⟨⟨own, b⟩, hfind, rfl⟩ := Option.map_eq_some_iff.mp h
  exact ⟨own, List.mem_of_find?_eq_some hfind⟩

theorem get?_congr (entries : Keyed α) (h : key.alike other = true) :
    entries.get? key = entries.get? other := by
  have hsame : (fun entry : Value × α => entry.1.same key) = fun entry => entry.1.same other :=
    funext fun entry => (Value.alike_congr h entry.1).2
  simp only [get?, hsame]

theorem mem_put {entry : Value × α} (h : entry ∈ entries.put key a) :
    (entry.1 = key ∨ ∃ other ∈ entries, entry.1 = other.1) ∧ (entry ∈ entries ∨ entry.2 = a) := by
  unfold put at h
  split at h
  · obtain ⟨other, hother, rfl⟩ := List.mem_map.mp h
    by_cases hsame : other.1.same key = true
    · rw [if_pos hsame]
      exact ⟨.inr ⟨other, hother, rfl⟩, .inr rfl⟩
    · rw [if_neg hsame]
      exact ⟨.inr ⟨other, hother, rfl⟩, .inl hother⟩
  · rcases List.mem_append.mp h with h | h
    · exact ⟨.inr ⟨entry, h, rfl⟩, .inl h⟩
    · rw [List.mem_singleton.mp h]
      exact ⟨.inl rfl, .inr rfl⟩

-- A key that is a number is found whether or not it was taken from the keys.
theorem getOwn?_eq_get? (entries : Keyed α) (h : key.holdsNaN = false) :
    entries.getOwn? key = entries.get? key := by
  have hsame : (fun entry : Value × α => entry.1.alike key) = fun entry => entry.1.same key := by
    funext entry
    unfold Value.same
    by_cases halike : entry.1.alike key = true
    · rw [halike, Value.holdsNaN_eq_of_alike halike, h]
      rfl
    · rw [Bool.not_eq_true] at halike
      rw [halike, Bool.false_and]
  simp only [getOwn?, get?, hsame]

theorem contains_iff : entries.contains key = true ↔ ∃ entry ∈ entries, entry.1.same key = true :=
  List.any_eq_true

theorem isSome_get? : (entries.get? key).isSome = entries.contains key := by
  rw [get?, Option.isSome_map, List.isSome_find?]
  rfl

theorem get?_eq_none (h : entries.contains key = false) : entries.get? key = none := by
  rw [← Option.not_isSome_iff_eq_none, isSome_get?, h]
  exact Bool.false_ne_true

theorem get?_cons (entry : Value × α) (rest : Keyed α) (key : Value) :
    Keyed.get? (entry :: rest) key = if entry.1.same key then some entry.2 else rest.get? key := by
  rw [get?, List.find?_cons]
  cases entry.1.same key <;> rfl

section Put

-- A pair that is put gets the place of the pair with the same key.
def replace (key : Value) (a : α) (entry : Value × α) : Value × α :=
  if entry.1.same key then (entry.1, a) else entry

theorem replace_fst (entry : Value × α) : (replace key a entry).1 = entry.1 := by
  unfold replace
  split <;> rfl

theorem put_of_contains (h : entries.contains key = true) :
    entries.put key a = entries.map (replace key a) :=
  if_pos h

theorem put_of_not_contains (h : entries.contains key = false) :
    entries.put key a = entries ++ [(key, a)] :=
  if_neg (by rw [h]; exact Bool.false_ne_true)

theorem get?_append_singleton (entries : Keyed α) (key : Value) (a : α) (found : Value) :
    Keyed.get? (entries ++ [(key, a)]) found =
      (entries.get? found).or (if key.same found then some a else none) := by
  induction entries with
  | nil => exact get?_cons (key, a) [] found
  | cons entry rest ih =>
      rw [List.cons_append, get?_cons, get?_cons, ih]
      split <;> rfl

theorem get?_put_self (hkey : key.same key = true) : (entries.put key a).get? key = some a := by
  by_cases hcontains : entries.contains key = true
  · rw [put_of_contains hcontains]
    induction entries with
    | nil => contradiction
    | cons entry rest ih =>
        rw [List.map_cons, get?_cons, replace_fst]
        by_cases hsame : entry.1.same key = true
        · rw [if_pos hsame, replace, if_pos hsame]
        · rw [contains, List.any_cons, Bool.eq_false_iff.mpr hsame, Bool.false_or] at hcontains
          rw [if_neg hsame, ih hcontains]
  · rw [Bool.not_eq_true] at hcontains
    rw [put_of_not_contains hcontains, get?_append_singleton, get?_eq_none hcontains, if_pos hkey]
    rfl

theorem get?_put_of_not_alike (h : ¬key.alike other = true) :
    (entries.put key a).get? other = entries.get? other := by
  by_cases hcontains : entries.contains key = true
  · rw [put_of_contains hcontains]
    clear hcontains
    induction entries with
    | nil => rfl
    | cons entry rest ih =>
        rw [List.map_cons, get?_cons, get?_cons, replace_fst, ih]
        by_cases hsame : entry.1.same other = true
        · have hkey : ¬entry.1.same key = true := by
            intro hkey
            have halike := Value.alike_symm (Value.alike_of_same hkey)
            rw [(Value.alike_congr (Value.alike_of_same hsame) key).1] at halike
            exact h halike
          rw [replace, if_neg hkey]
        · rw [if_neg hsame, if_neg hsame]
  · rw [Bool.not_eq_true] at hcontains
    rw [put_of_not_contains hcontains, get?_append_singleton,
      if_neg fun hsame => h (Value.alike_of_same hsame), Option.or_none]

-- What was put is found under every key that is alike, and nothing else changes.
theorem get?_put (hkey : key.same key = true) :
    (entries.put key a).get? other = if key.alike other then some a else entries.get? other := by
  by_cases halike : key.alike other = true
  · rw [if_pos halike, ← get?_congr _ halike, get?_put_self hkey]
  · rw [if_neg halike, get?_put_of_not_alike halike]

-- No key is the same as two of those that are there.
def Distinct (entries : Keyed α) : Prop :=
  entries.Pairwise fun entry entry' =>
    ∀ key : Value, ¬(entry.1.same key = true ∧ entry'.1.same key = true)

theorem Distinct.put (h : entries.Distinct) : (entries.put key a).Distinct := by
  by_cases hcontains : entries.contains key = true
  · rw [put_of_contains hcontains, Distinct, List.pairwise_map]
    simp only [replace_fst]
    exact h
  · rw [Bool.not_eq_true] at hcontains
    rw [put_of_not_contains hcontains]
    refine List.pairwise_append.mpr ⟨h, List.pairwise_singleton .., ?_⟩
    intro entry hentry other hother found hboth
    rw [List.mem_singleton.mp hother] at hboth
    obtain ⟨hsame, hsame'⟩ := hboth
    have hkey : entry.1.same key = true :=
      Value.same_iff.mpr ⟨Value.alike_of_same_same hsame hsame', (Value.same_iff.mp hsame).2⟩
    rw [contains_iff.mpr ⟨entry, hentry, hkey⟩] at hcontains
    contradiction

theorem Distinct.sum_replace (h : entries.Distinct) (hcontains : entries.contains key = true)
    (f : α → ℕ) :
    ((entries.map (replace key a)).map fun entry => f entry.2).sum + (entries.get? key).elim 0 f =
      (entries.map fun entry => f entry.2).sum + f a := by
  induction entries with
  | nil => contradiction
  | cons entry rest ih =>
      obtain ⟨hfirst, hrest⟩ := List.pairwise_cons.mp h
      rw [get?_cons, List.map_cons, List.map_cons, List.map_cons, List.sum_cons, List.sum_cons]
      by_cases hsame : entry.1.same key = true
      · have hkept : rest.map (replace key a) = rest :=
          (List.map_congr_left fun other hother =>
            if_neg fun hsame' => hfirst other hother key ⟨hsame, hsame'⟩).trans (List.map_id rest)
        have hnew : (replace key a entry).2 = a := congrArg Prod.snd (if_pos hsame)
        rw [if_pos hsame, hkept, hnew, Option.elim_some]
        omega
      · have hold : replace key a entry = entry := if_neg hsame
        rw [contains, List.any_cons, Bool.eq_false_iff.mpr hsame, Bool.false_or] at hcontains
        have hrest' := ih hrest hcontains
        rw [if_neg hsame, hold]
        omega

-- Putting adds what is put and takes away what was there.
theorem Distinct.sum_put (h : entries.Distinct) (key : Value) (a : α) (f : α → ℕ) :
    ((entries.put key a).map fun entry => f entry.2).sum + (entries.get? key).elim 0 f =
      (entries.map fun entry => f entry.2).sum + f a := by
  by_cases hcontains : entries.contains key = true
  · rw [put_of_contains hcontains]
    exact h.sum_replace hcontains f
  · rw [Bool.not_eq_true] at hcontains
    rw [put_of_not_contains hcontains, get?_eq_none hcontains, List.map_append, List.sum_append]
    rfl

theorem length_put : (entries.put key a).length =
    entries.length + if entries.contains key then 0 else 1 := by
  by_cases hcontains : entries.contains key = true
  · rw [put_of_contains hcontains, if_pos hcontains, List.length_map, Nat.add_zero]
  · rw [Bool.not_eq_true] at hcontains
    rw [put_of_not_contains hcontains, hcontains, List.length_append]
    rfl

end Put

section Lists

-- Keys of one kind, in their order and none of them twice.
def Lists {β : Type} (key : β → Value) (entries : Keyed α) (names : List β) : Prop :=
  entries.keys = names.map key ∧ names.Nodup

variable {β : Type} {ofName : β → Value} {names : List β}

theorem Lists.contains_iff (h : entries.Lists ofName names)
    (hsame : ∀ name other, (ofName name).same (ofName other) = true ↔ name = other) (name : β) :
    entries.contains (ofName name) = true ↔ name ∈ names := by
  have hkeys : entries.contains (ofName name) = true ↔
      ∃ own ∈ entries.keys, own.same (ofName name) = true := by
    simp [Keyed.contains_iff, keys]
  rw [hkeys, h.1]
  simp [hsame]

-- A key that is put is one of the keys, in its old place or as the last one.
theorem Lists.put [DecidableEq β] (h : entries.Lists ofName names)
    (hsame : ∀ name other, (ofName name).same (ofName other) = true ↔ name = other) (name : β)
    (a : α) :
    ∃ names', (entries.put (ofName name) a).Lists ofName names' ∧
      ∀ other, other ∈ names' ↔ other = name ∨ other ∈ names := by
  by_cases hmem : name ∈ names
  · refine ⟨names, ⟨?_, h.2⟩, fun other => ?_⟩
    · rw [put_of_contains ((h.contains_iff hsame name).mpr hmem), keys, List.map_map, ← h.1]
      exact List.map_congr_left fun entry _ => replace_fst entry
    · exact ⟨.inr, fun hother => hother.elim (fun heq => heq ▸ hmem) id⟩
  · have hnew : entries.contains (ofName name) = false :=
      Bool.eq_false_iff.mpr fun hcontains => hmem ((h.contains_iff hsame name).mp hcontains)
    refine ⟨names ++ [name], ⟨?_, ?_⟩, fun other => ?_⟩
    · rw [put_of_not_contains hnew, keys, List.map_append, List.map_append, ← h.1]
      rfl
    · exact h.2.append (List.nodup_singleton name) (List.disjoint_singleton.mpr hmem)
    · rw [List.mem_append, List.mem_singleton, or_comm]

-- What is kept, key by key.
theorem Lists.map_get? (h : entries.Lists ofName names)
    (hsame : ∀ name other, (ofName name).same (ofName other) = true ↔ name = other) :
    names.map (fun name => entries.get? (ofName name)) = entries.map fun entry => some entry.2 := by
  obtain ⟨hkeys, hnodup⟩ := h
  induction entries generalizing names with
  | nil =>
      rw [List.map_eq_nil_iff.mp hkeys.symm]
      rfl
  | cons entry rest ih =>
      cases names with
      | nil => contradiction
      | cons name names =>
          obtain ⟨hfirst, hrest⟩ : entry.1 = ofName name ∧ rest.map (·.1) = names.map ofName :=
            List.cons.inj hkeys
          obtain ⟨hnew, hnodup⟩ := List.nodup_cons.mp hnodup
          have hothers : ∀ other ∈ names, Keyed.get? (entry :: rest) (ofName other) =
              Keyed.get? rest (ofName other) := by
            intro other hother
            rw [get?_cons, hfirst, if_neg]
            intro hkey
            exact hnew ((hsame name other).mp hkey ▸ hother)
          rw [List.map_cons, List.map_cons, List.map_congr_left hothers, ih hrest hnodup,
            get?_cons, hfirst, if_pos ((hsame name name).mpr rfl)]

end Lists

end Keyed

end PacketCodec
