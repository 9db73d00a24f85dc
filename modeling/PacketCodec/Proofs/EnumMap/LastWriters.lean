import PacketCodec.Proofs.EnumMap.MapText

namespace PacketCodec

-- The pairs behind which no other has the same name or the same code, in the order
-- in which they came.
def lastWriters : List (Text × Nat) → List (Text × Nat)
  | [] => []
  | pair :: later =>
    if ∃ other ∈ later, other.1 = pair.1 ∨ other.2 = pair.2 then lastWriters later
    else pair :: lastWriters later

-- One more pair takes the place of those with its name or its code.
theorem lastWriters_append_singleton (pairs : List (Text × Nat)) (last : Text × Nat) :
    lastWriters (pairs ++ [last]) =
      (lastWriters pairs).filter (fun pair => pair.1 ≠ last.1 ∧ pair.2 ≠ last.2) ++ [last] := by
  induction pairs with
  | nil => simp [lastWriters]
  | cons pair later ih =>
      have hbehind : (∃ other ∈ later ++ [last], other.1 = pair.1 ∨ other.2 = pair.2) ↔
          (∃ other ∈ later, other.1 = pair.1 ∨ other.2 = pair.2) ∨
            last.1 = pair.1 ∨ last.2 = pair.2 := by
        simp [or_and_right, exists_or]
      rw [List.cons_append, lastWriters, lastWriters, ih]
      by_cases hlater : ∃ other ∈ later, other.1 = pair.1 ∨ other.2 = pair.2
      · rw [if_pos (hbehind.mpr (.inl hlater)), if_pos hlater]
      · rw [if_neg hlater]
        by_cases hlast : last.1 = pair.1 ∨ last.2 = pair.2
        · have hdrop : ¬(pair.1 ≠ last.1 ∧ pair.2 ≠ last.2) := by
            rintro ⟨hname, hcode⟩
            exact hlast.elim (fun h => hname h.symm) (fun h => hcode h.symm)
          rw [if_pos (hbehind.mpr (.inr hlast)), List.filter_cons_of_neg (by simpa using hdrop)]
        · have hkeep : pair.1 ≠ last.1 ∧ pair.2 ≠ last.2 :=
            ⟨fun h => hlast (.inl h.symm), fun h => hlast (.inr h.symm)⟩
          rw [if_neg (fun h => (hbehind.mp h).elim hlater hlast),
            List.filter_cons_of_pos (by simpa using hkeep), List.cons_append]

theorem lastWriters_sublist (pairs : List (Text × Nat)) : (lastWriters pairs).Sublist pairs := by
  induction pairs with
  | nil => exact .slnil
  | cons pair later ih =>
      rw [lastWriters]
      split
      · exact ih.cons pair
      · exact ih.cons_cons pair

-- No two of the pairs that remain share a name or a code.
theorem pairwise_lastWriters (pairs : List (Text × Nat)) :
    (lastWriters pairs).Pairwise fun pair other => pair.1 ≠ other.1 ∧ pair.2 ≠ other.2 := by
  induction pairs with
  | nil => exact .nil
  | cons pair later ih =>
      rw [lastWriters]
      split
      · exact ih
      next hlast =>
        refine List.pairwise_cons.mpr ⟨fun other hother => ?_, ih⟩
        have hlater := (lastWriters_sublist later).mem hother
        constructor
        · intro hname
          exact hlast ⟨other, hlater, .inl hname.symm⟩
        · intro hcode
          exact hlast ⟨other, hlater, .inr hcode.symm⟩

theorem nodup_names_lastWriters (pairs : List (Text × Nat)) :
    ((lastWriters pairs).map Prod.fst).Nodup :=
  List.pairwise_map.mpr ((pairwise_lastWriters pairs).imp And.left)

theorem nodup_codes_lastWriters (pairs : List (Text × Nat)) :
    ((lastWriters pairs).map Prod.snd).Nodup :=
  List.pairwise_map.mpr ((pairwise_lastWriters pairs).imp And.right)

namespace EnumMap

-- The entry of a pair of which each stands for the other.
def Entry.ofPair (pair : Text × Nat) : Entry :=
  ⟨.text pair.1, pair.2, true⟩

-- The map after a call to add a pair. A call that fails is left behind.
def call (map : EnumMap) (pair : Text × Value) : EnumMap :=
  (map.add (.text pair.1) pair.2).2

def calls (map : EnumMap) (pairs : List (Text × Value)) : EnumMap :=
  pairs.foldl call map

-- The pair that a call puts into the map, if it succeeds.
def added? (map : EnumMap) (pair : Text × Value) : Option (Text × Nat) :=
  match (map.add (.text pair.1) pair.2).1, pair.2 with
  | .ok _, .int code => some (pair.1, code.toNat)
  | _, _ => none

-- The pairs of the calls that succeed, in the order of the calls.
def added (map : EnumMap) : List (Text × Value) → List (Text × Nat)
  | [] => []
  | pair :: rest => (map.added? pair).toList ++ (map.call pair).added rest

-- The pair on a line of a text.
def pairOf? (line : Text) : Option (Text × Nat) :=
  let content := Text.strip (line.takeWhile (· ≠ (0x23 : CodePoint)))
  match Text.words (content.map fun c => if c = 0x3D then 0x20 else c) with
  | [name, word] => (readCode word).toOption.map fun code => (name, code.toNat)
  | _ => none

-- A map with a history.
structure Keeps (limit : Value) (history : List (Text × Nat)) (map : EnumMap) : Prop where
  ofTexts : map.OfTexts
  maxCode : map.maxCode = limit
  entries : map.entries = (lastWriters history).map Entry.ofPair

namespace Keeps

variable {limit : Value} {history : List (Text × Nat)} {map map' : EnumMap}

theorem empty (limit : Value) : Keeps limit [] (empty limit) :=
  ⟨.empty limit, rfl, rfl⟩

theorem entries_insert (h : Keeps limit history map) (name : Text) (code : Nat) :
    (map.insert (.text name) code).2.entries =
      (lastWriters (history ++ [(name, code)])).map Entry.ofPair := by
  rw [h.ofTexts.paired.insert_eq, lastWriters_append_singleton, List.map_append]
  simp only [withoutName, h.entries, List.filter_map, List.filter_filter, List.map_cons,
    List.map_nil]
  congr 2
  apply List.filter_congr
  intro pair _
  have hname : (Value.text pair.1).same (.text name) = false ↔ pair.1 ≠ name := by
    rw [← Bool.not_eq_true, Value.same_text_iff, Value.text.injEq]
  show (decide (pair.2 ≠ code) && !(Value.text pair.1).same (.text name)) =
    decide (pair.1 ≠ name ∧ pair.2 ≠ code)
  rw [Bool.eq_iff_iff]
  simp only [Bool.and_eq_true, Bool.not_eq_true', hname, decide_eq_true_iff]
  exact and_comm

-- What one call does to a map and to its history.
theorem call (h : Keeps limit history map) (pair : Text × Value) :
    Keeps limit (history ++ (map.added? pair).toList) (map.call pair) := by
  obtain ⟨name, code⟩ := pair
  rcases map.add_eq name code with ⟨e, hadd⟩ | ⟨n, rfl, -, hadd⟩
  · have hnone : map.added? (name, code) = none := by simp [added?, hadd]
    have hsame : map.call (name, code) = map := congrArg Prod.snd hadd
    rw [hnone, hsame, Option.toList_none, List.append_nil]
    exact h
  · have hinsert := h.ofTexts.paired.insert_eq name n
    have hsome : map.added? (name, .int n) = some (name, n) := by simp [added?, hadd, hinsert]
    have hcall : map.call (name, .int n) = (map.insert (.text name) n).2 := congrArg Prod.snd hadd
    rw [hsome, Option.toList_some]
    refine ⟨h.ofTexts.add name (.int n), ?_, ?_⟩
    · rw [hcall, h.ofTexts.paired.maxCode_insert, h.maxCode]
    · rw [hcall, h.entries_insert]

theorem calls (h : Keeps limit history map) (pairs : List (Text × Value)) :
    Keeps limit (history ++ map.added pairs) (map.calls pairs) := by
  induction pairs generalizing history map with
  | nil =>
      rw [added, List.append_nil]
      exact h
  | cons pair rest ih =>
      rw [added, ← List.append_assoc]
      exact ih (h.call pair)

-- A line that is accepted has no content, or a pair on it that is added.
theorem addLine (h : Keeps limit history map) {line : Text} (hadd : map.addLine line = .ok map') :
    Keeps limit (history ++ (pairOf? line).toList) map' := by
  simp only [EnumMap.addLine] at hadd
  split at hadd
  next hcontent =>
    cases hadd
    have hnone : pairOf? line = none := by
      simp only [pairOf?, hcontent]
      rfl
    rw [hnone, Option.toList_none, List.append_nil]
    exact h
  · split at hadd
    next name word hwords =>
      split at hadd
      · contradiction
      next code hcode =>
        have hpair : pairOf? line = some (name, code.toNat) := by
          simp only [pairOf?, hwords, hcode, Except.toOption, Option.map_some]
        have hcall := h.call (name, .int code)
        split at hadd
        next hsum =>
          cases hadd
          have hadded : map.added? (name, .int code) = some (name, code.toNat) := by
            simp [added?, hsum]
          rw [hadded, EnumMap.call, hsum] at hcall
          rw [hpair]
          exact hcall
        · contradiction
    · contradiction

theorem addLines (h : Keeps limit history map) {number : Nat} {lines : List Text}
    (hadd : map.addLines number lines = .ok map') :
    Keeps limit (history ++ lines.filterMap pairOf?) map' := by
  induction lines generalizing history map number with
  | nil =>
      cases hadd
      rw [List.filterMap_nil, List.append_nil]
      exact h
  | cons line rest ih =>
      rw [EnumMap.addLines] at hadd
      split at hadd
      next hline =>
        have hrest := ih (h.addLine hline) hadd
        rw [List.append_assoc] at hrest
        rw [List.filterMap_cons]
        cases hpair : pairOf? line with
        | none | some => simpa [hpair] using hrest
      · contradiction

theorem ofText {t : Text} (hmap : EnumMap.ofText t limit = .ok map) :
    Keeps limit (t.lines.filterMap pairOf?) map :=
  (empty limit).addLines hmap

theorem names_eq (h : Keeps limit history map) :
    map.names = (lastWriters history).map fun pair => .text pair.1 := by
  rw [names, h.entries, List.map_map]
  rfl

theorem codes_eq (h : Keeps limit history map) :
    map.codes = (lastWriters history).map fun pair => pair.2 := by
  rw [h.ofTexts.paired.codes_eq, h.entries, List.map_map]
  rfl

end Keeps

-- The code of a name and the name of a code are the same pairs. What is negative
-- is no code.
theorem Paired.nameOf_eq_some_iff_exists {map : EnumMap} (h : map.Paired) (name : Value)
    (code : Int) :
    map.nameOf code = some name ↔ ∃ n : Nat, n = code ∧ map.codeOf name = some n := by
  constructor
  · intro hname
    obtain ⟨entry, hfind, -⟩ := Option.map_eq_some_iff.mp hname
    have hnamed := List.find?_some hfind
    simp only [Entry.isNamedBy, Bool.and_eq_true, decide_eq_true_eq] at hnamed
    refine ⟨entry.code, hnamed.2, ?_⟩
    rw [← hnamed.2] at hname
    obtain ⟨t, rfl⟩ := h.exists_text_of_nameOf hname
    exact h.nameOf_eq_some_iff_codeOf.mp hname
  · rintro ⟨n, rfl, hcode⟩
    obtain ⟨t, rfl⟩ := h.exists_text_of_codeOf hcode
    exact h.nameOf_eq_some_iff_codeOf.mpr hcode

-- Pairs that a map is made of are calls that succeed.
theorem calls_of_addAll {map map' : EnumMap} {pairs : List (Text × Value)}
    (h : map.addAll (pairs.map fun pair => (.text pair.1, pair.2)) = .ok map') :
    map.calls pairs = map' := by
  induction pairs generalizing map with
  | nil => exact Except.ok.inj h
  | cons pair rest ih =>
      simp only [List.map_cons, addAll] at h
      split at h
      next following hadd =>
        have hcall : map.call pair = following := congrArg Prod.snd hadd
        rw [← ih h, ← hcall]
        rfl
      · contradiction

theorem calls_append (map : EnumMap) (first pairs : List (Text × Value)) :
    map.calls (first ++ pairs) = (map.calls first).calls pairs :=
  List.foldl_append

theorem Keeps.of_addAll {limit : Value} {first : List (Text × Value)} {start : EnumMap}
    (hstart : (EnumMap.empty limit).addAll (first.map fun pair => (.text pair.1, pair.2)) =
      .ok start) (pairs : List (Text × Value)) :
    Keeps limit ((EnumMap.empty limit).added (first ++ pairs)) (start.calls pairs) := by
  have h := (Keeps.empty limit).calls (first ++ pairs)
  rw [List.nil_append, calls_append, calls_of_addAll hstart] at h
  exact h

-- A call that fails is answered by an error about the value, if the limit is none
-- or a whole number.
theorem failure_of_add_error {map : EnumMap} (h : map.OfTexts) (hlimit : Limit map.maxCode)
    {name : Text} {code : Value} {e : AddError} (hadd : (map.add (.text name) code).1 = .error e) :
    e.failure = .saying .badValue e.message := by
  cases code with
  | int n =>
      obtain rfl := h.eq_outOfRange_of_add hlimit hadd
      rfl
  | _ =>
      cases hadd
      rfl

end EnumMap

end PacketCodec
