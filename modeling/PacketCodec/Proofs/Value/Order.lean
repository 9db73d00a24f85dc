import Mathlib.Algebra.Order.Ring.Int
import PacketCodec.Proofs.Except
import PacketCodec.Value.Order

namespace PacketCodec

namespace Value

variable {value other : Value} {m n : Int}

theorem standing?_of_integer? (h : value.integer? = some n) :
    value.standing? = some (.finite (n * 2 ^ FloatFormat.binary64.quantum)) := by
  cases value with
  | bool b => cases h; rfl
  | int n => cases h; rfl
  | _ => contradiction

theorem compared_greater (h : value.integer? = some m) (hother : other.integer? = some n) :
    value.compared .greater other = .ok (decide (n < m)) := by
  have hstanding := standing?_of_integer? h
  have hothers := standing?_of_integer? hother
  have hunit : (0 : Int) < 2 ^ FloatFormat.binary64.quantum := Int.pow_pos (by decide)
  generalize (2 : Int) ^ FloatFormat.binary64.quantum = unit at *
  have hbefore : Standing.before (.finite (n * unit)) (.finite (m * unit)) = decide (n < m) := by
    simp only [Standing.before, Int.mul_lt_mul_right hunit]
  cases value <;> try contradiction
  all_goals
    simp only [compared, hstanding, hothers, Comparison.holds, hbefore]

theorem exists_greatest {rest : List Value} (hvalue : (value.integer?).isSome = true)
    (hrest : ∀ other ∈ rest, (other.integer?).isSome = true) :
    ∃ found, value.greatest rest = .ok found ∧ found ∈ value :: rest := by
  induction rest generalizing value with
  | nil => exact ⟨value, rfl, List.mem_singleton_self value⟩
  | cons other rest ih =>
      rw [List.forall_mem_cons] at hrest
      obtain ⟨m, hm⟩ := Option.isSome_iff_exists.mp hrest.1
      obtain ⟨n, hn⟩ := Option.isSome_iff_exists.mp hvalue
      rw [greatest, compared_greater hm hn, ok_bind]
      by_cases hless : n < m
      · obtain ⟨found, hfound, hmem⟩ := ih hrest.1 hrest.2
        exact ⟨found, by simpa [hless] using hfound, List.mem_cons_of_mem _ hmem⟩
      · obtain ⟨found, hfound, hmem⟩ := ih hvalue hrest.2
        refine ⟨found, by simpa [hless] using hfound, ?_⟩
        rcases List.mem_cons.mp hmem with rfl | hmem
        · exact List.mem_cons_self
        · exact List.mem_cons_of_mem _ (List.mem_cons_of_mem _ hmem)

-- Whole numbers given as integers are compared and sorted as integers.

theorem greatest_int (n : Int) (rest : List Int) :
    (int n).greatest (rest.map int) = .ok (int (rest.foldl max n)) := by
  induction rest generalizing n with
  | nil => rfl
  | cons m rest ih =>
      have hcompared : (int m).compared .greater (int n) = .ok (decide (n < m)) :=
        compared_greater rfl rfl
      rw [List.map_cons, greatest, hcompared, ok_bind, List.foldl_cons]
      by_cases hless : n < m
      · rw [if_pos (by simpa using hless), ih, max_eq_right hless.le]
      · rw [if_neg (by simpa using hless), ih, max_eq_left (not_lt.mp hless)]

theorem sorted_int (ns : List Int) :
    sorted (ns.map int) = .ok ((ns.mergeSort fun m n => m ≤ n).map int) := by
  have hwhole : (ns.map int).all (fun value => (id value).whole?.isSome) = true := by
    simp [whole?, integer?]
  have hsorted : (ns.mergeSort fun m n => m ≤ n).map int = (ns.map int).mergeSort
      fun value other => (id value).whole?.getD 0 ≤ (id other).whole?.getD 0 :=
    List.map_mergeSort fun _ _ _ _ => rfl
  rw [hsorted]
  exact if_pos hwhole

theorem sorted_text (names : List Text) :
    sorted (names.map text) = .ok ((names.mergeSort Text.le).map text) := by
  cases names with
  | nil => simp [sorted, sortedBy]
  | cons name rest =>
      have hwhole : ¬ ((name :: rest).map text).all (fun value => (id value).whole?.isSome) := by
        simp [whole?, integer?]
      rw [sorted, sortedBy]
      dsimp only
      rw [if_neg hwhole, if_pos (by simp)]
      refine congrArg Except.ok (Eq.symm ?_)
      apply List.map_mergeSort
      intros
      rfl

end Value

end PacketCodec
