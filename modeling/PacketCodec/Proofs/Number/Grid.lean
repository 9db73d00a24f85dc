import Mathlib.Algebra.Order.Field.Basic
import Mathlib.Algebra.Order.Field.Rat
import Mathlib.Tactic.FieldSimp
import PacketCodec.Proofs.Number.Rounding

-- The numbers of a format as points of a grid with no end, and which of them is
-- nearest to a rational number: the one that is closest to it, of two that are
-- equally close the one with the even significand.

namespace PacketCodec

namespace FloatFormat

variable {f : FloatFormat}

-- A point of the grid: a significand and an exponent, which counts from the
-- exponent of the smallest positive number on. Only a number with the least
-- exponent may have a significand without its leading bit.
structure Point (f : FloatFormat) where
  significand : ℕ
  exponent : ℕ
  significand_lt : significand < 2 ^ (f.fractionBits + 1)
  normalized : exponent = 0 ∨ 2 ^ f.fractionBits ≤ significand

namespace Point

def multiple (p : Point f) : ℕ :=
  p.significand * 2 ^ p.exponent

def value (p : Point f) : ℚ :=
  p.multiple / 2 ^ f.quantum

-- The place in the order of all points.
def magnitude (p : Point f) : ℕ :=
  p.exponent * 2 ^ f.fractionBits + p.significand

-- The finite points are those whose exponent the format has room for. One field
-- is that of the infinite number, and the first two fields share an exponent.
def IsFinite (p : Point f) : Prop :=
  p.exponent ≤ 2 ^ f.exponentBits - 3

instance (p : Point f) : Decidable p.IsFinite :=
  inferInstanceAs (Decidable (p.exponent ≤ 2 ^ f.exponentBits - 3))

structure IsNearest (p : Point f) (x : ℚ) : Prop where
  closest (other : Point f) : |p.value - x| ≤ |other.value - x|
  even (other : Point f) : |other.value - x| = |p.value - x| → other ≠ p → Even p.significand

variable {p q : Point f} {x : ℚ}

section Order

theorem multiple_lt_next (p : Point f) :
    p.multiple < 2 ^ f.fractionBits * 2 ^ (p.exponent + 1) := by
  have hpow : 2 ^ (f.fractionBits + 1) * 2 ^ p.exponent =
      2 ^ f.fractionBits * 2 ^ (p.exponent + 1) := by ring
  rw [← hpow]
  exact Nat.mul_lt_mul_of_pos_right p.significand_lt (Nat.two_pow_pos _)

-- Below the exponent of another point with its leading bit.
theorem multiple_lt_of_exponent_lt {exponent : ℕ} (h : p.exponent < exponent) :
    p.multiple < 2 ^ f.fractionBits * 2 ^ exponent :=
  p.multiple_lt_next.trans_le
    (Nat.mul_le_mul_left _ (Nat.pow_le_pow_right Nat.two_pos h))

theorem le_multiple (h : p.exponent ≠ 0) : 2 ^ f.fractionBits * 2 ^ p.exponent ≤ p.multiple :=
  Nat.mul_le_mul_right _ (p.normalized.resolve_left h)

theorem exponent_le_of_multiple_le (h : p.multiple ≤ q.multiple) : p.exponent ≤ q.exponent := by
  by_contra hlt
  rw [Nat.not_le] at hlt
  have hp := le_multiple (p := p) (by omega)
  have hq := multiple_lt_of_exponent_lt hlt
  omega

theorem ext (hsignificand : p.significand = q.significand) (hexponent : p.exponent = q.exponent) :
    p = q := by
  cases p
  cases q
  cases hsignificand
  cases hexponent
  rfl

theorem multiple_injective : Function.Injective (multiple (f := f)) := by
  intro p q h
  have hexponent : p.exponent = q.exponent :=
    le_antisymm (exponent_le_of_multiple_le h.le) (exponent_le_of_multiple_le h.ge)
  refine ext ?_ hexponent
  unfold multiple at h
  rw [hexponent] at h
  exact Nat.eq_of_mul_eq_mul_right (Nat.two_pow_pos _) h

-- Between two points with even significands there is another one.
theorem exists_between (h : p.multiple < q.multiple) (hp : Even p.significand)
    (hq : Even q.significand) :
    ∃ r : Point f, p.multiple < r.multiple ∧ r.multiple < q.multiple := by
  have hpos : 0 < 2 ^ p.exponent := Nat.two_pow_pos _
  rw [Nat.even_iff] at hp hq
  have hroom : p.significand + 1 < 2 ^ (f.fractionBits + 1) := by
    have hlt := p.significand_lt
    rw [Nat.pow_succ] at hlt ⊢
    omega
  obtain ⟨r, hsignificand, hexponent⟩ : ∃ r : Point f,
      r.significand = p.significand + 1 ∧ r.exponent = p.exponent :=
    ⟨⟨p.significand + 1, p.exponent, hroom, p.normalized.imp_right Nat.le_succ_of_le⟩, rfl, rfl⟩
  refine ⟨r, ?_, ?_⟩
  · unfold multiple
    rw [hsignificand, hexponent]
    exact Nat.mul_lt_mul_of_pos_right (Nat.lt_succ_self _) hpos
  · rcases (exponent_le_of_multiple_le h.le).lt_or_eq with hlt | heq
    · have hr : r.multiple < 2 ^ f.fractionBits * 2 ^ q.exponent :=
        multiple_lt_of_exponent_lt (hexponent ▸ hlt)
      exact hr.trans_le (le_multiple (by omega))
    · unfold multiple at h ⊢
      rw [← heq] at h ⊢
      rw [hsignificand, hexponent]
      have hlt := Nat.lt_of_mul_lt_mul_right h
      exact Nat.mul_lt_mul_of_pos_right (by omega) hpos

end Order

theorem value_lt_value (h : p.multiple < q.multiple) : p.value < q.value := by
  have h : (p.multiple : ℚ) < q.multiple := by exact_mod_cast h
  exact div_lt_div_of_pos_right h (by positivity)

-- What lies between two points that are equally close is closer than both.
theorem abs_sub_lt_of_tie {a b c : ℚ} (hab : a < b) (hbc : b < c) (htie : |c - x| = |a - x|) :
    |b - x| < |a - x| := by
  have hsides : a - x = -(c - x) := by
    rcases abs_eq_abs.mp htie with h | h
    · linarith
    · linarith
  have hnonneg : 0 ≤ c - x := by linarith
  rw [hsides, abs_neg, abs_of_nonneg hnonneg, abs_lt]
  constructor <;> linarith

theorem IsNearest.not_lt_of_tie (hp : p.IsNearest x) (hq : q.IsNearest x) (hne : p ≠ q) :
    ¬p.multiple < q.multiple := by
  intro hlt
  have htie : |q.value - x| = |p.value - x| := le_antisymm (hq.closest p) (hp.closest q)
  obtain ⟨r, hpr, hrq⟩ := exists_between hlt (hp.even q htie hne.symm) (hq.even p htie.symm hne)
  have hcloser := abs_sub_lt_of_tie (value_lt_value hpr) (value_lt_value hrq) htie
  exact (hp.closest r).not_gt hcloser

-- A number has one nearest point.
theorem IsNearest.unique (hp : p.IsNearest x) (hq : q.IsNearest x) : p = q := by
  by_contra hne
  rcases lt_or_gt_of_ne (multiple_injective.ne hne) with hlt | hlt
  · exact hp.not_lt_of_tie hq hne hlt
  · exact hq.not_lt_of_tie hp (Ne.symm hne) hlt

section Magnitude

theorem multiple_magnitude (p : Point f) : f.multiple p.magnitude = p.multiple := by
  by_cases hlow : p.significand < 2 ^ f.fractionBits
  · have hzero : p.exponent = 0 := p.normalized.resolve_right (by omega)
    rw [magnitude, multiple, hzero, Nat.zero_mul, Nat.zero_add, f.multiple_subnormal _ hlow,
      Nat.pow_zero, Nat.mul_one]
  · exact f.multiple_normal _ _ (by omega) p.significand_lt

theorem magnitude_injective : Function.Injective (magnitude (f := f)) := by
  intro p q h
  apply multiple_injective
  rw [← multiple_magnitude, ← multiple_magnitude, h]

theorem exists_magnitude (f : FloatFormat) (m : ℕ) : ∃ p : Point f, p.magnitude = m := by
  obtain ⟨exponent, significand, hhigh, -, -, hm, hlow⟩ := f.exists_significand m
  exact ⟨⟨significand, exponent, hhigh, hlow⟩, hm.symm⟩

-- The finite points are those before the place of infinity.
theorem isFinite_iff (hf : 2 < 2 ^ f.exponentBits) : p.IsFinite ↔ p.magnitude < f.infinity := by
  have hpos : 0 < 2 ^ f.fractionBits := Nat.two_pow_pos _
  have hhigh := p.significand_lt
  rw [Nat.pow_succ] at hhigh
  obtain ⟨top, htop⟩ := Nat.exists_eq_add_of_le hf
  have hinf : f.infinity = (top + 2) * 2 ^ f.fractionBits := by
    rw [infinity, htop]
    congr 1
    omega
  have hfin : p.IsFinite ↔ p.exponent ≤ top := by
    unfold IsFinite
    rw [htop]
    omega
  rw [hfin, hinf, magnitude]
  constructor
  · intro h
    have hle := Nat.mul_le_mul_right (2 ^ f.fractionBits) h
    have hexpand : (top + 2) * 2 ^ f.fractionBits =
        top * 2 ^ f.fractionBits + 2 * 2 ^ f.fractionBits := Nat.add_mul _ _ _
    omega
  · intro h
    by_contra hlt
    have hle := Nat.mul_le_mul_right (2 ^ f.fractionBits) (Nat.lt_of_not_le hlt)
    have hleading := p.normalized.resolve_left (by omega)
    have hexpand : (top + 2) * 2 ^ f.fractionBits =
        (top + 1) * 2 ^ f.fractionBits + 2 ^ f.fractionBits := Nat.succ_mul _ _
    have hsucc : top.succ = top + 1 := rfl
    rw [hsucc] at hle
    omega

end Magnitude

theorem IsNearest.value_eq_zero (h : p.IsNearest 0) : p.value = 0 := by
  obtain ⟨zero, hzero⟩ : ∃ zero : Point f, zero.value = 0 :=
    ⟨⟨0, 0, Nat.two_pow_pos _, .inl rfl⟩, by simp [value, multiple]⟩
  have hclosest := h.closest zero
  rw [hzero, sub_zero, sub_zero, abs_zero] at hclosest
  exact abs_eq_zero.mp (le_antisymm hclosest (abs_nonneg _))

end Point

end FloatFormat

end PacketCodec
