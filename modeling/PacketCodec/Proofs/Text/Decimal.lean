import Mathlib.Algebra.Group.Nat.Defs
import Mathlib.Data.List.Basic
import Mathlib.Data.List.TakeWhile
import PacketCodec.Proofs.Except
import PacketCodec.Text.Decimal

namespace PacketCodec

namespace Text

-- A number in ASCII digits. Zeros may stand in front.
def IsNumeral (t : Text) : Prop :=
  t ≠ [] ∧ ∀ c ∈ t, c.isAsciiDigit = true

instance (t : Text) : Decidable t.IsNumeral :=
  decidable_of_iff (t ≠ [] ∧ t.all CodePoint.isAsciiDigit = true) (by simp [IsNumeral])

variable {t digits rest before after : Text} {c : CodePoint}

theorem isNumeral_ofNat (n : ℕ) : (ofNat n).IsNumeral := by
  refine ⟨fun h => Nat.toDigits_ne_nil (List.map_eq_nil_iff.mp h), ?_⟩
  intro c hc
  obtain ⟨digit, hdigit, rfl⟩ := List.mem_map.mp hc
  have hrange := Nat.isDigit_of_mem_toDigits (by decide) (by decide) hdigit
  simp only [Char.isDigit, Bool.and_eq_true, decide_eq_true_eq, UInt32.le_iff_toNat_le,
    ge_iff_le] at hrange
  exact Bool.and_eq_true_iff.mpr ⟨decide_eq_true hrange.1, decide_eq_true hrange.2⟩

theorem toNat_ofNat (n : ℕ) : toNat (ofNat n) = n := by
  rw [toNat, ofNat, List.foldl_map]
  have hdigits := Nat.ofDigitChars_toDigits (b := 10) (n := n) (by decide) (by decide)
  rw [Nat.ofDigitChars] at hdigits
  simp only [Nat.mul_comm 10] at hdigits
  exact hdigits

theorem IsNumeral.takeWhile (h : digits.IsNumeral)
    (hrest : ∀ c ∈ rest.head?, c.isAsciiDigit = false) :
    (digits ++ rest).takeWhile CodePoint.isAsciiDigit = digits := by
  rw [List.takeWhile_append_of_pos h.2]
  cases rest with
  | nil => simp
  | cons c rest => simp [hrest c rfl]

-- A run of digits at the start of a text.
theorem isNumeral_takeWhile (h : t.takeWhile CodePoint.isAsciiDigit ≠ []) :
    IsNumeral (t.takeWhile CodePoint.isAsciiDigit) :=
  ⟨h, fun _ hc => List.mem_takeWhile_imp hc⟩

theorem IsNumeral.notMem (h : digits.IsNumeral) (hc : c.isAsciiDigit = false) : c ∉ digits := by
  intro hmem
  rw [h.2 c hmem] at hc
  contradiction

theorem isWritable_iff {n : ℤ} : isWritable n = true ↔ n.natAbs < 10 ^ maxDigits := by
  rw [isWritable, decide_eq_true_iff]
  exact Nat.length_toDigits_le_iff (by decide) (by decide)

theorem ten_le : 10 ≤ 10 ^ maxDigits :=
  Nat.le_self_pow (by decide) 10

theorem readDigits_of_le (h : digits.length ≤ maxDigits) :
    readDigits digits = .ok digits.toNat :=
  if_neg (Nat.not_lt.mpr h)

theorem readDigits_of_lt (h : maxDigits < digits.length) :
    readDigits digits = .error ⟨digits.length⟩ :=
  if_pos h

-- The first of several numbers that has too many digits to be read.
def firstOverlong? (numbers : List Text) : Option Text :=
  numbers.find? fun digits => decide (maxDigits < digits.length)

theorem firstOverlong?_eq_none_iff {numbers : List Text} :
    firstOverlong? numbers = none ↔ ∀ digits ∈ numbers, digits.length ≤ maxDigits := by
  simp only [firstOverlong?, List.find?_eq_none, decide_eq_true_eq, Nat.not_lt]

-- Reading one more number in front of others.
theorem readDigits_bind {α : Type} {numbers : List Text} {next : ℕ → Except Overlong α} {a : α}
    (h : next digits.toNat =
      (firstOverlong? numbers).elim (.ok a) fun digits => .error ⟨digits.length⟩) :
    (readDigits digits >>= next) =
      (firstOverlong? (digits :: numbers)).elim (.ok a) fun digits => .error ⟨digits.length⟩ := by
  by_cases hlong : maxDigits < digits.length
  · have hfirst : firstOverlong? (digits :: numbers) = some digits :=
      List.find?_cons_of_pos (decide_eq_true hlong)
    rw [hfirst, readDigits_of_lt hlong]
    rfl
  · have hfirst : firstOverlong? (digits :: numbers) = firstOverlong? numbers :=
      List.find?_cons_of_neg (by simpa using hlong)
    rw [hfirst, readDigits_of_le (Nat.not_lt.mp hlong), ok_bind]
    exact h

-- Digits behind a value stand for less than a step of the value.
theorem foldl_lt (h : ∀ c ∈ digits, c.isAsciiDigit = true) (value : ℕ) :
    digits.foldl (fun value c => value * 10 + (c.val - 0x30)) value <
      (value + 1) * 10 ^ digits.length := by
  induction digits generalizing value with
  | nil => simp
  | cons c digits ih =>
      obtain ⟨hc, hdigits⟩ := List.forall_mem_cons.mp h
      have hrange : 0x30 ≤ c.val ∧ c.val ≤ 0x39 := by
        simpa [CodePoint.isAsciiDigit] using hc
      have hstep : value * 10 + (c.val - 0x30) + 1 ≤ (value + 1) * 10 := by omega
      calc
        _ < (value * 10 + (c.val - 0x30) + 1) * 10 ^ digits.length := ih hdigits _
        _ ≤ (value + 1) * 10 * 10 ^ digits.length := Nat.mul_le_mul_right _ hstep
        _ = _ := by rw [List.length_cons, Nat.pow_succ', Nat.mul_assoc]

-- A number that can be read can be written.
theorem IsNumeral.isWritable_toNat (h : digits.IsNumeral) (hlength : digits.length ≤ maxDigits) :
    isWritable digits.toNat = true := by
  have hlt : digits.toNat < 10 ^ digits.length := by
    have hfold := foldl_lt h.2 0
    rwa [Nat.zero_add, Nat.one_mul] at hfold
  exact isWritable_iff.mpr (hlt.trans_le (Nat.pow_le_pow_right (by decide) hlength))

theorem splitLast_eq_none_iff : splitLast c t = none ↔ c ∉ t := by
  induction t with
  | nil => simp [splitLast]
  | cons d t ih =>
      rw [splitLast]
      cases hsplit : splitLast c t with
      | none =>
          have hnot := ih.mp hsplit
          by_cases hd : d = c
          · simp [hd]
          · simp [hd, hnot, Ne.symm hd]
      | some parts =>
          have hmem : c ∈ t := by
            by_contra h
            rw [ih.mpr h] at hsplit
            contradiction
          simp [hmem]

theorem splitLast_append (h : c ∉ after) :
    splitLast c (before ++ c :: after) = some (before, after) := by
  induction before with
  | nil => simp [splitLast, splitLast_eq_none_iff.mpr h]
  | cons d before ih => simp [splitLast, ih]

theorem of_splitLast (h : splitLast c t = some (before, after)) :
    t = before ++ c :: after ∧ c ∉ after := by
  induction t generalizing before with
  | nil => contradiction
  | cons d t ih =>
      rw [splitLast] at h
      cases hsplit : splitLast c t with
      | none =>
          rw [hsplit] at h
          by_cases hd : d = c
          · simp only [if_pos hd, Option.some.injEq, Prod.mk.injEq] at h
            obtain ⟨rfl, rfl⟩ := h
            exact ⟨by rw [hd, List.nil_append], splitLast_eq_none_iff.mp hsplit⟩
          · simp [hd] at h
      | some parts =>
          rw [hsplit] at h
          obtain ⟨before', after'⟩ := parts
          simp only [Option.some.injEq, Prod.mk.injEq] at h
          obtain ⟨rfl, rfl⟩ := h
          obtain ⟨rfl, hnot⟩ := ih hsplit
          exact ⟨rfl, hnot⟩

end Text

end PacketCodec
