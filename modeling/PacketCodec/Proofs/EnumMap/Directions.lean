import PacketCodec.Proofs.EnumMap.LastWriters

namespace PacketCodec

-- Keys and what they stand for, in the order in which the keys came in.
abbrev Dictionary (κ α : Type) :=
  List (κ × α)

namespace Dictionary

variable {κ α : Type}

def swapped (d : Dictionary κ α) : Dictionary α κ :=
  List.map Prod.swap d

theorem swapped_swapped (d : Dictionary κ α) : d.swapped.swapped = d := by
  simp [swapped]

variable [DecidableEq κ]

def get? (d : Dictionary κ α) (key : κ) : Option α :=
  List.lookup key d

def without (d : Dictionary κ α) (key : κ) : Dictionary κ α :=
  List.filter (fun entry => entry.1 ≠ key) d

-- Fails if the key is not there.
def delete? (d : Dictionary κ α) (key : κ) : Option (Dictionary κ α) :=
  (d.get? key).map fun _ => d.without key

-- A key that is there keeps its place.
def set (d : Dictionary κ α) (key : κ) (a : α) : Dictionary κ α :=
  if (d.get? key).isSome then List.map (fun entry => if entry.1 = key then (key, a) else entry) d
  else d ++ [(key, a)]

theorem get?_eq_none_iff {d : Dictionary κ α} {key : κ} :
    d.get? key = none ↔ ∀ entry ∈ d, entry.1 ≠ key := by
  rw [get?, List.lookup_eq_none_iff]
  apply forall₂_congr
  intro entry _
  rw [bne_iff_ne, ne_comm]

theorem set_of_not_mem {d : Dictionary κ α} {key : κ} (h : ∀ entry ∈ d, entry.1 ≠ key) (a : α) :
    d.set key a = d ++ [(key, a)] := by
  simp [set, get?_eq_none_iff.mpr h]

theorem mem_of_get? {d : Dictionary κ α} {key : κ} {a : α} (h : d.get? key = some a) :
    (key, a) ∈ d := by
  obtain ⟨before, after, hsplit, -⟩ := List.lookup_eq_some_iff.mp h
  simp [hsplit]

-- Where no two entries share a key or a value, taking out a key in one direction
-- and what it stands for in the other is the same.
theorem delete?_swapped [DecidableEq α] {d : Dictionary κ α} (hkeys : (List.map Prod.fst d).Nodup)
    (hvalues : (List.map Prod.snd d).Nodup) (key : κ) :
    (d.get? key).elim (some d.swapped) d.swapped.delete? = some (d.without key).swapped := by
  cases hget : d.get? key with
  | none =>
      have hkeep : d.without key = d :=
        List.filter_eq_self.mpr (by simpa using get?_eq_none_iff.mp hget)
      rw [hkeep, Option.elim_none]
  | some a =>
      have hmem := mem_of_get? hget
      have hthere : d.swapped.get? a ≠ none := by
        intro hnone
        exact get?_eq_none_iff.mp hnone (a, key) (List.mem_map_of_mem hmem) rfl
      obtain ⟨other, hother⟩ := Option.ne_none_iff_exists'.mp hthere
      rw [Option.elim_some, delete?, hother, Option.map_some, without, swapped, List.filter_map,
        swapped, without]
      congr 2
      apply List.filter_congr
      intro entry hentry
      have hiff : entry.2 = a ↔ entry.1 = key := by
        constructor
        · intro h
          exact congrArg Prod.fst (List.inj_on_of_nodup_map hvalues hentry hmem h)
        · intro h
          exact congrArg Prod.snd (List.inj_on_of_nodup_map hkeys hentry hmem h)
      simp [hiff]

end Dictionary

-- A map kept as two dictionaries, one for each direction.
structure Directions where
  codes : Dictionary Text Nat
  names : Dictionary Nat Text

namespace Directions

-- The two directions of some pairs.
def ofPairs (pairs : List (Text × Nat)) : Directions :=
  ⟨pairs, Dictionary.swapped pairs⟩

-- Makes a name and a code stand for each other. What either stood for before is
-- taken out of the other dictionary, and fails if it is not there.
def put? (d : Directions) (pair : Text × Nat) : Option Directions := do
  let names ← (d.codes.get? pair.1).elim (some d.names) d.names.delete?
  let codes := d.codes.without pair.1
  let codes ← (names.get? pair.2).elim (some codes) codes.delete?
  let names := names.without pair.2
  return ⟨codes.set pair.1 pair.2, names.set pair.2 pair.1⟩

-- A pair that comes in drives the same pairs out of both dictionaries.
theorem put?_ofPairs {pairs : List (Text × Nat)} (hnames : (pairs.map Prod.fst).Nodup)
    (hcodes : (pairs.map Prod.snd).Nodup) (pair : Text × Nat) :
    (ofPairs pairs).put? pair = some
      (ofPairs (pairs.filter (fun other => other.1 ≠ pair.1 ∧ other.2 ≠ pair.2) ++ [pair])) := by
  obtain ⟨name, code⟩ := pair
  have hrest : List.Sublist (Dictionary.without pairs name) pairs := List.filter_sublist
  have hfirst := Dictionary.delete?_swapped hnames hcodes name
  generalize hkeep : Dictionary.without pairs name = rest at hrest hfirst
  have hswapped : (List.map Prod.fst (Dictionary.swapped rest)).Nodup ∧
      (List.map Prod.snd (Dictionary.swapped rest)).Nodup := by
    simp only [Dictionary.swapped, List.map_map]
    exact ⟨hcodes.sublist (hrest.map _), hnames.sublist (hrest.map _)⟩
  have hsecond := Dictionary.delete?_swapped hswapped.1 hswapped.2 code
  rw [Dictionary.swapped_swapped] at hsecond
  have hleft : (Dictionary.swapped rest).without code =
      Dictionary.swapped (pairs.filter fun other => other.1 ≠ name ∧ other.2 ≠ code) := by
    rw [← hkeep]
    simp only [Dictionary.swapped, Dictionary.without, List.filter_map, List.filter_filter]
    congr 1
    apply List.filter_congr
    intro other _
    rw [Bool.decide_and, Bool.and_comm]
    rfl
  have hgone : ∀ other ∈ pairs.filter (fun other => other.1 ≠ name ∧ other.2 ≠ code),
      other.1 ≠ name ∧ other.2 ≠ code := by
    intro other hother
    simpa using (List.mem_filter.mp hother).2
  simp only [put?, ofPairs, hfirst, hkeep, Option.bind_eq_bind, Option.bind_some, hsecond, hleft,
    Dictionary.swapped_swapped]
  rw [Dictionary.set_of_not_mem fun other hother => (hgone other hother).1,
    Dictionary.set_of_not_mem, Dictionary.swapped, Dictionary.swapped, List.map_append]
  · rfl
  · intro other hother
    obtain ⟨entry, hentry, rfl⟩ := List.mem_map.mp hother
    exact (hgone entry hentry).2

theorem foldlM_put? (history later : List (Text × Nat)) :
    later.foldlM put? (ofPairs (lastWriters history)) =
      some (ofPairs (lastWriters (history ++ later))) := by
  induction later generalizing history with
  | nil =>
      rw [List.append_nil]
      rfl
  | cons pair later ih =>
      have hput := put?_ofPairs (nodup_names_lastWriters history) (nodup_codes_lastWriters history)
        pair
      rw [List.foldlM_cons, hput, ← lastWriters_append_singleton]
      have hlater := ih (history ++ [pair])
      rw [List.append_assoc, List.singleton_append] at hlater
      exact hlater

end Directions

namespace EnumMap

-- Whatever is added to a map that was made of pairs: its entries are those pairs
-- that were accepted and behind which no other has the same name or the same
-- code, in their order, so that no two of them share a name or a code. They are
-- what two dictionaries hold to which the accepted pairs were added. The names and
-- the codes of the map are listed in that order, stand for each other, and are in
-- range. A call that fails changes nothing. And a map that is read from a text
-- keeps the pairs on its lines in the same way.
theorem entries_eq_lastWriters {limit : Value} {first pairs : List (Text × Value)}
    {start : EnumMap}
    (hstart : (empty limit).addAll (first.map fun pair => (.text pair.1, pair.2)) = .ok start) :
    let map := start.calls pairs
    let accepted := (empty limit).added (first ++ pairs)
    let kept := lastWriters accepted
    map.entries = kept.map Entry.ofPair ∧
      map.names = (kept.map fun pair => .text pair.1) ∧
      map.codes = (kept.map fun pair => pair.2) ∧
      kept.Sublist accepted ∧
      (kept.Pairwise fun pair other => pair.1 ≠ other.1 ∧ pair.2 ≠ other.2) ∧
      accepted.foldlM Directions.put? ⟨[], []⟩ = some (.ofPairs kept) ∧
      (∀ name code, map.nameOf code = some name ↔
        ∃ n : Nat, n = code ∧ map.codeOf name = some n) ∧
      (∀ code ∈ map.codes, map.accepts code = .ok true ∧
        ∀ n : Int, limit = .int n → (code : Int) ≤ n) ∧
      (∀ name code e, (map.add (.text name) code).1 = .error e →
        (map.add (.text name) code).2 = map ∧
          (Limit limit → e.failure = .saying .badValue e.message)) ∧
      ∀ t parsed, ofText t limit = .ok parsed →
        parsed.entries = (lastWriters (t.lines.filterMap pairOf?)).map Entry.ofPair := by
  intro map accepted kept
  have hkeeps := Keeps.of_addAll hstart pairs
  have hpaired := hkeeps.ofTexts.paired
  refine ⟨hkeeps.entries, hkeeps.names_eq, hkeeps.codes_eq, lastWriters_sublist accepted,
    pairwise_lastWriters accepted, Directions.foldlM_put? [] accepted,
    hpaired.nameOf_eq_some_iff_exists, ?_, ?_,
    fun t parsed hparsed => (Keeps.ofText hparsed).entries⟩
  · intro code hcode
    rw [hpaired.codes_eq] at hcode
    obtain ⟨entry, hentry, rfl⟩ := List.mem_map.mp hcode
    have haccepts := hkeeps.ofTexts.accepts_code entry hentry
    exact ⟨haccepts, fun n hn => le_of_accepts (hkeeps.maxCode.trans hn) haccepts⟩
  · intro name code e hadd
    refine ⟨?_, fun hlimit => failure_of_add_error hkeeps.ofTexts (hkeeps.maxCode ▸ hlimit) hadd⟩
    rcases map.add_eq name code with ⟨e', hfail⟩ | ⟨n, -, -, hinsert⟩
    · rw [hfail]
    · rw [hinsert, hpaired.insert_eq] at hadd
      contradiction

-- A name moves to a code that was taken, a code below zero is refused, and the
-- code that has become free is taken again.
theorem entries_eq_lastWriters_moved :
    ∃ start, (empty .null).addAll [(.text "A", .int 1), (.text "B", .int 2)] = .ok start ∧
      (start.calls [("A", .int 2), ("C", .int (-1)), ("C", .int 1)]).names =
        [.text "A", .text "C"] ∧
      (start.calls [("A", .int 2), ("C", .int (-1)), ("C", .int 1)]).codes = [2, 1] := by
  have hstart : (empty .null).addAll
      ([(("A" : Text), Value.int 1), ("B", .int 2)].map fun pair => (.text pair.1, pair.2)) =
        .ok ⟨[Entry.ofPair ("A", 1), Entry.ofPair ("B", 2)], .null⟩ := by
    rfl
  obtain ⟨-, hnames, hcodes, -⟩ := @entries_eq_lastWriters _ _
    [("A", .int 2), ("C", .int (-1)), ("C", .int 1)] _ hstart
  exact ⟨_, hstart, hnames, hcodes⟩

end EnumMap

end PacketCodec
