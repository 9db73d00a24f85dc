import Mathlib.Data.Finset.Card
import PacketCodec.Proofs.Definition.LookUp

namespace PacketCodec

-- Sums start from the zero of the core library.
attribute [local instance (high)] Zero.ofOfNat0

namespace DefinitionTable

variable {table : DefinitionTable} {name name' version version' : Value} {fields : FieldList}

theorem get_eq_ok_iff_packet (hname : name.key = .ok name) (hversion : version.key = .ok version) :
    table.get name version = .ok fields ↔ (table.packet name).get? version = some fields := by
  rw [get_eq_ok_iff, packet]
  cases table.packets.get? name with
  | none => simp [Keyed.get?]
  | some versions => simp [hname, hversion]

theorem packet_insert (hname : name.same name = true) :
    (table.insert name version fields).packet name' =
      if name.alike name' then (table.packet name).put version fields else table.packet name' := by
  rw [packet, insert, withPacket, Keyed.get?_put hname]
  split <;> rfl

-- The definition that was inserted is found, and all others are as before.
theorem get?_packet_insert (hname : name.same name = true)
    (hversion : version.same version = true) :
    ((table.insert name version fields).packet name').get? version' =
      if name.alike name' ∧ version.alike version' then some fields
      else (table.packet name').get? version' := by
  rw [packet_insert hname]
  by_cases halike : name.alike name' = true
  · have hpacket : table.packet name = table.packet name' := by
      rw [packet, packet, Keyed.get?_congr _ halike]
    rw [if_pos halike, Keyed.get?_put hversion, hpacket]
    simp only [halike, true_and]
  · rw [if_neg halike, if_neg (fun h => halike h.1)]

theorem length_packet (table : DefinitionTable) (name : Value) :
    (table.packet name).length = (table.packets.get? name).elim 0 List.length := by
  rw [packet]
  cases table.packets.get? name <;> rfl

-- A definition is one more unless it takes the place of another.
theorem count_insert (h : table.packets.Distinct) :
    (table.insert name version fields).count =
      table.count + if (table.packet name).contains version then 0 else 1 := by
  have hsum := h.sum_put name ((table.packet name).put version fields) List.length
  rw [Keyed.length_put, ← length_packet] at hsum
  change ((table.packets.put name ((table.packet name).put version fields)).map
    fun entry => entry.2.length).sum = (table.packets.map fun entry => entry.2.length).sum + _
  omega

section Additions

-- A definition with the name and the version of its packet.
structure Addition where
  name : Text
  version : Int
  fields : FieldList

def Addition.key (addition : Addition) : Text × Int :=
  (addition.name, addition.version)

def insertAddition (table : DefinitionTable) (addition : Addition) : DefinitionTable :=
  table.insert (.text addition.name) (.int addition.version) addition.fields

-- The table of definitions that are inserted one after the other.
def ofAdditions (additions : List Addition) : DefinitionTable :=
  additions.foldl insertAddition empty

variable {additions : List Addition} {name : Text} {version : Int} {fields : FieldList}

theorem ofAdditions_concat (additions : List Addition) (addition : Addition) :
    ofAdditions (additions ++ [addition]) = (ofAdditions additions).insertAddition addition := by
  rw [ofAdditions, List.foldl_append]
  rfl

-- The last definition of a name and a version is the one that is found.
theorem get?_ofAdditions (additions : List Addition) (name : Text) (version : Int) :
    ((ofAdditions additions).packet (.text name)).get? (.int version) =
      (additions.reverse.find? fun addition =>
        addition.name = name ∧ addition.version = version).map (·.fields) := by
  induction additions using List.reverseRecOn with
  | nil => rfl
  | append_singleton additions addition ih =>
      rw [ofAdditions_concat, insertAddition,
        get?_packet_insert (Value.same_text_iff.mpr rfl) (Value.same_int_iff.mpr rfl),
        List.reverse_append, List.reverse_singleton, List.singleton_append, List.find?_cons, ih]
      simp only [Value.alike_text_iff, Value.alike_int_iff]
      by_cases h : addition.name = name ∧ addition.version = version
      · simp only [if_pos h, decide_eq_true h, Option.map_some]
      · simp only [if_neg h, decide_eq_false h]

theorem get_ofAdditions_iff :
    (ofAdditions additions).get (.text name) (.int version) = .ok fields ↔
      ∃ before after, additions = before ++ ⟨name, version, fields⟩ :: after ∧
        ∀ addition ∈ after, addition.key ≠ (name, version) := by
  rw [get_eq_ok_iff_packet rfl rfl, get?_ofAdditions, Option.map_eq_some_iff]
  constructor
  · rintro ⟨addition, hfind, rfl⟩
    obtain ⟨hkey, before, after, hsplit, hbefore⟩ := List.find?_eq_some_iff_append.mp hfind
    obtain ⟨rfl, rfl⟩ := of_decide_eq_true hkey
    refine ⟨after.reverse, before.reverse, ?_, ?_⟩
    · rw [← additions.reverse_reverse, hsplit]
      simp
    · intro other hmem heq
      have h := hbefore other (List.mem_reverse.mp hmem)
      rw [Addition.key, Prod.mk.injEq] at heq
      simp [heq] at h
  · rintro ⟨before, after, rfl, hafter⟩
    refine ⟨⟨name, version, fields⟩, List.find?_eq_some_iff_append.mpr ⟨by simp, after.reverse,
      before.reverse, by simp, ?_⟩, rfl⟩
    intro addition hmem
    have h := hafter addition (List.mem_reverse.mp hmem)
    rw [Addition.key, ne_eq, Prod.mk.injEq] at h
    simpa [imp_iff_not_or] using h

theorem contains_ofAdditions :
    ((ofAdditions additions).packet (.text name)).contains (.int version) = true ↔
      (name, version) ∈ additions.map Addition.key := by
  rw [← Keyed.isSome_get?, get?_ofAdditions, Option.isSome_map, List.find?_isSome]
  simp [Addition.key]

theorem distinct_ofAdditions (additions : List Addition) :
    (ofAdditions additions).packets.Distinct := by
  induction additions using List.reverseRecOn with
  | nil => exact List.Pairwise.nil
  | append_singleton additions addition ih =>
      rw [ofAdditions_concat]
      exact ih.put

-- A table has as many definitions as there are names with versions.
theorem count_ofAdditions (additions : List Addition) :
    (ofAdditions additions).count = (additions.map Addition.key).toFinset.card := by
  induction additions using List.reverseRecOn with
  | nil => rfl
  | append_singleton additions addition ih =>
      have hkeys : ((additions ++ [addition]).map Addition.key).toFinset =
          Insert.insert addition.key (additions.map Addition.key).toFinset := by
        ext key
        simp
      rw [ofAdditions_concat, insertAddition, count_insert (distinct_ofAdditions additions), ih,
        hkeys]
      by_cases hmem : addition.key ∈ additions.map Addition.key
      · rw [if_pos (contains_ofAdditions.mpr hmem),
          Finset.insert_eq_of_mem (List.mem_toFinset.mpr hmem), Nat.add_zero]
      · rw [if_neg (fun h => hmem (contains_ofAdditions.mp h)),
          Finset.card_insert_of_notMem (fun h => hmem (List.mem_toFinset.mp h))]

end Additions

-- Definitions whose versions are given by digits.
section Titled

structure Titled where
  name : Text
  version : Nat
  fields : FieldList

def Titled.key (definition : Titled) : Text × Nat :=
  (definition.name, definition.version)

def Titled.addition (definition : Titled) : Addition :=
  ⟨definition.name, definition.version, definition.fields⟩

def insertTitled (table : DefinitionTable) (definition : Titled) : DefinitionTable :=
  table.insert (.text definition.name) (.int definition.version) definition.fields

def ofTitled (definitions : List Titled) : DefinitionTable :=
  definitions.foldl insertTitled empty

variable {definitions : List Titled} {name : Text}

theorem ofTitled_eq (definitions : List Titled) :
    ofTitled definitions = ofAdditions (definitions.map Titled.addition) := by
  rw [ofAdditions, List.foldl_map]
  rfl

theorem get_ofTitled_iff {version : Int} {fields : FieldList} :
    (ofTitled definitions).get (.text name) (.int version) = .ok fields ↔
      ∃ (n : Nat) (before after : List Titled), version = n ∧
        definitions = before ++ ⟨name, n, fields⟩ :: after ∧
        ∀ definition ∈ after, definition.key ≠ (name, n) := by
  rw [ofTitled_eq, get_ofAdditions_iff]
  constructor
  · rintro ⟨before, after, hsplit, hafter⟩
    obtain ⟨before, _, rfl, rfl, hrest⟩ := List.map_eq_append_iff.mp hsplit
    obtain ⟨⟨_, n, _⟩, after, rfl, hfirst, rfl⟩ := List.map_eq_cons_iff.mp hrest
    cases hfirst
    refine ⟨n, before, after, rfl, rfl, fun definition hmem heq => ?_⟩
    refine hafter _ (List.mem_map_of_mem hmem) ?_
    rw [Titled.key, Prod.mk.injEq] at heq
    rw [Addition.key, Titled.addition, heq.1, heq.2]
  · rintro ⟨n, before, after, rfl, rfl, hafter⟩
    refine ⟨before.map Titled.addition, after.map Titled.addition, List.map_append, ?_⟩
    intro addition hmem heq
    obtain ⟨definition, hdefinition, rfl⟩ := List.mem_map.mp hmem
    refine hafter definition hdefinition ?_
    simpa [Addition.key, Titled.addition, Titled.key] using heq

theorem contains_ofTitled {version : Nat} :
    ((ofTitled definitions).packet (.text name)).contains (.int version) = true ↔
      (name, version) ∈ definitions.map Titled.key := by
  rw [ofTitled_eq, contains_ofAdditions]
  simp [Addition.key, Titled.addition, Titled.key]

theorem count_ofTitled (definitions : List Titled) :
    (ofTitled definitions).count = (definitions.map Titled.key).toFinset.card := by
  have hkeys : ((definitions.map Titled.addition).map Addition.key).toFinset =
      (definitions.map Titled.key).toFinset.image (Prod.map id (Nat.cast : ℕ → ℤ)) := by
    ext key
    simp [Addition.key, Titled.addition, Titled.key]
  have hinj : Function.Injective (Prod.map id (Nat.cast : ℕ → ℤ) : Text × ℕ → Text × ℤ) :=
    Function.injective_id.prodMap Nat.cast_injective
  rw [ofTitled_eq, count_ofAdditions, hkeys, Finset.card_image_of_injective _ hinj]

end Titled

end DefinitionTable

end PacketCodec
