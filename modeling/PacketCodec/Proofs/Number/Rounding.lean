import Mathlib.Tactic.Linarith
import Mathlib.Tactic.Positivity
import Mathlib.Tactic.Ring
import PacketCodec.Number.Binary

namespace PacketCodec

theorem roundHalfEven_mul (n den : Nat) (hden : 0 < den) : roundHalfEven (n * den) den = n := by
  simp [roundHalfEven, Nat.mul_div_cancel _ hden, hden]

-- The nearest whole number does not exceed one that is less than a half below.
theorem roundHalfEven_le (num den n : Nat) (h : 2 * num < (2 * n + 1) * den) :
    roundHalfEven num den ≤ n := by
  have hdiv := Nat.div_add_mod num den
  have hquot : num / den ≤ n := by
    by_contra hlt
    have hstep : (n + 1) * den ≤ num / den * den := Nat.mul_le_mul_right den (by omega)
    have hcomm : num / den * den = den * (num / den) := Nat.mul_comm _ _
    have hnum : (2 * n + 1) * den ≤ 2 * ((n + 1) * den) := by
      rw [← Nat.mul_assoc]
      exact Nat.mul_le_mul_right den (by omega)
    omega
  simp only [roundHalfEven]
  split
  · exact hquot
  next hup =>
    by_cases heq : num / den = n
    · -- with the quotient itself at the bound, less than a half is left over
      have hrest : (2 * n + 1) * den = 2 * (den * n) + den := by ring
      rw [heq] at hdiv
      omega
    · omega

-- The quotient rounded down is never above the nearest whole number.
theorem div_le_roundHalfEven (num den : Nat) : num / den ≤ roundHalfEven num den := by
  simp only [roundHalfEven]
  split <;> omega

-- From a half above an odd number on, the nearest whole number is the next one.
theorem lt_roundHalfEven (num den n : Nat) (hodd : n % 2 = 1) (hden : 0 < den)
    (h : (2 * n + 1) * den ≤ 2 * num) : n < roundHalfEven num den := by
  have hdiv := Nat.div_add_mod num den
  have hquot : n ≤ num / den := by
    apply (Nat.le_div_iff_mul_le hden).mpr
    have hexpand : (2 * n + 1) * den = 2 * (n * den) + den := by ring
    omega
  rcases hquot.lt_or_eq with hlt | heq
  · exact hlt.trans_le (div_le_roundHalfEven num den)
  · have hrest : (2 * n + 1) * den = 2 * (den * n) + den := by ring
    have hhalf : den ≤ 2 * (num % den) := by
      rw [← heq] at hdiv
      omega
    have hup : ¬(2 * (num % den) < den ∨ 2 * (num % den) = den ∧ num / den % 2 = 0) := by omega
    simp only [roundHalfEven, if_neg hup]
    omega

namespace FloatFormat

variable (f : FloatFormat)

theorem multiple_subnormal (m : Nat) (hm : m < 2 ^ f.fractionBits) : f.multiple m = m := by
  simp [multiple, Nat.div_eq_of_lt hm, Nat.mod_eq_of_lt hm]

theorem multiple_normal (exponent significand : Nat)
    (hlow : 2 ^ f.fractionBits ≤ significand) (hhigh : significand < 2 ^ (f.fractionBits + 1)) :
    f.multiple (exponent * 2 ^ f.fractionBits + significand) = significand * 2 ^ exponent := by
  have hpos : 0 < 2 ^ f.fractionBits := Nat.two_pow_pos _
  obtain ⟨fraction, rfl⟩ := Nat.exists_eq_add_of_le hlow
  have hfraction : fraction < 2 ^ f.fractionBits := by rw [Nat.pow_succ] at hhigh; omega
  have hsplit : exponent * 2 ^ f.fractionBits + (2 ^ f.fractionBits + fraction) =
      fraction + 2 ^ f.fractionBits * (exponent + 1) := by ring
  simp only [multiple, hsplit, Nat.add_mul_mod_self_left, Nat.add_mul_div_left _ _ hpos,
    Nat.div_eq_of_lt hfraction, Nat.mod_eq_of_lt hfraction, Nat.zero_add]

-- Every magnitude has a significand and an exponent. The magnitudes of one
-- exponent lie between two multiples of the power of two.
theorem exists_significand (m : Nat) :
    ∃ exponent significand, significand < 2 ^ (f.fractionBits + 1) ∧
      exponent ≤ m / 2 ^ f.fractionBits - 1 ∧ f.multiple m = significand * 2 ^ exponent ∧
      m = exponent * 2 ^ f.fractionBits + significand ∧
      (exponent = 0 ∨ 2 ^ f.fractionBits ≤ significand) := by
  have hpos : 0 < 2 ^ f.fractionBits := Nat.two_pow_pos _
  have hmod : m % 2 ^ f.fractionBits < 2 ^ f.fractionBits := Nat.mod_lt _ hpos
  have hsplit := Nat.div_add_mod m (2 ^ f.fractionBits)
  cases hfield : m / 2 ^ f.fractionBits with
  | zero =>
      have hlt : m < 2 ^ f.fractionBits := by
        rw [hfield] at hsplit
        omega
      refine ⟨0, m, ?_, by omega, ?_, by omega, .inl rfl⟩
      · rw [Nat.pow_succ]; omega
      · rw [f.multiple_subnormal m hlt]; simp
  | succ exponent =>
      have hm : m = exponent * 2 ^ f.fractionBits +
          (2 ^ f.fractionBits + m % 2 ^ f.fractionBits) := by
        rw [hfield] at hsplit
        linarith
      have hlt : 2 ^ f.fractionBits + m % 2 ^ f.fractionBits < 2 ^ (f.fractionBits + 1) := by
        rw [Nat.pow_succ]; omega
      refine ⟨exponent, _, hlt, by omega, ?_, hm, .inr (by omega)⟩
      conv_lhs => rw [hm]
      exact f.multiple_normal exponent _ (by omega) hlt

-- A significand times a power of two is on the grid, at a magnitude that the
-- power bounds.
theorem exists_multiple_eq (significand exponent : Nat)
    (h : significand < 2 ^ (f.fractionBits + 1)) :
    ∃ m, m < (exponent + 2) * 2 ^ f.fractionBits ∧
      f.multiple m = significand * 2 ^ exponent := by
  induction exponent generalizing significand with
  | zero =>
      refine ⟨significand, by rw [Nat.pow_succ] at h; omega, ?_⟩
      by_cases hs : significand < 2 ^ f.fractionBits
      · rw [f.multiple_subnormal _ hs]; simp
      · simpa using f.multiple_normal 0 significand (by omega) h
  | succ exponent ih =>
      by_cases hs : significand < 2 ^ f.fractionBits
      · -- there is room for one more bit in the significand
        obtain ⟨m, hm, hmul⟩ := ih (2 * significand) (by rw [Nat.pow_succ]; omega)
        refine ⟨m, hm.trans_le (Nat.mul_le_mul_right _ (by omega)), ?_⟩
        rw [hmul]
        ring
      · refine ⟨(exponent + 1) * 2 ^ f.fractionBits + significand, ?_, ?_⟩
        · rw [Nat.pow_succ] at h
          linarith
        · exact f.multiple_normal (exponent + 1) significand (by omega) h

-- The power of two below a number on the grid gives its exponent back.
theorem log2_sub_fractionBits (exponent significand : Nat)
    (hhigh : significand < 2 ^ (f.fractionBits + 1))
    (hlow : exponent = 0 ∨ 2 ^ f.fractionBits ≤ significand) :
    Nat.log2 (significand * 2 ^ exponent) - f.fractionBits = exponent := by
  rcases hlow with rfl | hlow
  · rcases Nat.eq_zero_or_pos significand with rfl | hpos
    · simp
    · have := (Nat.log2_lt hpos.ne').mpr hhigh
      simp only [Nat.pow_zero, Nat.mul_one]
      omega
  · have hpos : 0 < 2 ^ f.fractionBits := Nat.two_pow_pos _
    have hne : significand * 2 ^ exponent ≠ 0 :=
      Nat.mul_ne_zero (by omega) (Nat.two_pow_pos _).ne'
    have hup : Nat.log2 (significand * 2 ^ exponent) < f.fractionBits + 1 + exponent := by
      rw [Nat.log2_lt hne, Nat.pow_add]
      exact Nat.mul_lt_mul_of_pos_right hhigh (Nat.two_pow_pos _)
    have hdown : f.fractionBits + exponent ≤ Nat.log2 (significand * 2 ^ exponent) := by
      rw [Nat.le_log2 hne, Nat.pow_add]
      exact Nat.mul_le_mul_right _ hlow
    omega

-- What is on the grid is its own nearest.
theorem nearest_multiple (m den : Nat) (hden : 0 < den) :
    f.nearest (f.multiple m * den) den = m := by
  obtain ⟨exponent, significand, hhigh, -, hmul, hm, hlow⟩ := f.exists_significand m
  have hround : f.multiple m * den = significand * (den * 2 ^ exponent) := by rw [hmul]; ring
  simp only [nearest, Nat.mul_div_cancel _ hden]
  rw [hmul, f.log2_sub_fractionBits exponent significand hhigh hlow, ← hmul, hround,
    roundHalfEven_mul _ _ (by positivity)]
  exact hm.symm

-- A quotient lies between two powers of two, with as many bits as a significand
-- has between them.

theorem lt_next_binade (num : Nat) {den : Nat} (hden : 0 < den) :
    num < 2 ^ (f.fractionBits + 1) * (den * 2 ^ (Nat.log2 (num / den) - f.fractionBits)) := by
  have hlog : num / den < 2 ^ (Nat.log2 (num / den) + 1) := Nat.lt_log2_self
  have hle : 2 ^ (Nat.log2 (num / den) + 1) ≤
      2 ^ (f.fractionBits + 1 + (Nat.log2 (num / den) - f.fractionBits)) :=
    Nat.pow_le_pow_right (by omega) (by omega)
  have hlt := (Nat.div_lt_iff_lt_mul hden).mp (hlog.trans_le hle)
  rw [Nat.pow_add] at hlt
  linarith

theorem binade_le {num den : Nat} (h : Nat.log2 (num / den) - f.fractionBits ≠ 0) :
    2 ^ f.fractionBits * (den * 2 ^ (Nat.log2 (num / den) - f.fractionBits)) ≤ num := by
  have hne : num / den ≠ 0 := by
    intro hzero
    rw [hzero, Nat.log2_zero, Nat.zero_sub] at h
    contradiction
  have hden : 0 < den := Nat.pos_of_ne_zero fun hzero => hne (by rw [hzero, Nat.div_zero])
  have hle : 2 ^ (f.fractionBits + (Nat.log2 (num / den) - f.fractionBits)) ≤ num / den :=
    (Nat.le_log2 hne).mp (by omega)
  have hmul := (Nat.le_div_iff_mul_le hden).mp hle
  rw [Nat.pow_add] at hmul
  linarith

-- Below the middle between the largest finite number and the next power of two
-- the nearest magnitude is finite. `top` is the exponent of the largest finite
-- number.
theorem nearest_lt_infinity (top num den : Nat) (htop : 2 ^ f.exponentBits = top + 3)
    (h : 2 * num < (2 ^ (f.fractionBits + 2) - 1) * 2 ^ top * den) :
    f.nearest num den < f.infinity := by
  have hpos : 0 < 2 ^ f.fractionBits := Nat.two_pow_pos _
  have hden : 0 < den := Nat.pos_of_ne_zero (by rintro rfl; omega)
  have hinf : f.infinity = (top + 2) * 2 ^ f.fractionBits := by rw [infinity, htop]; rfl
  have hbits : 2 ^ (f.fractionBits + 2) = 4 * 2 ^ f.fractionBits := by ring
  have hbits' : 2 ^ (f.fractionBits + 1) = 2 * 2 ^ f.fractionBits := by ring
  generalize hexp : Nat.log2 (num / den) - f.fractionBits = exponent
  -- the significand before rounding is below the next power of two
  have hnum : num < 2 ^ (f.fractionBits + 1) * (den * 2 ^ exponent) :=
    hexp ▸ f.lt_next_binade num hden
  have hexpTop : exponent ≤ top := by
    by_contra hlt
    have hle : 2 ^ f.fractionBits * (den * 2 ^ exponent) ≤ num := by
      rw [← hexp] at hlt ⊢
      exact f.binade_le (by omega)
    have hpow : 2 ^ f.fractionBits * (den * 2 ^ (top + 1)) ≤
        2 ^ f.fractionBits * (den * 2 ^ exponent) :=
      Nat.mul_le_mul_left _ (Nat.mul_le_mul_left _ (Nat.pow_le_pow_right Nat.two_pos (by omega)))
    have hgrid : 2 ^ f.fractionBits * (den * 2 ^ (top + 1)) * 2 =
        2 ^ (f.fractionBits + 2) * 2 ^ top * den := by ring
    have hcap : (2 ^ (f.fractionBits + 2) - 1) * 2 ^ top * den ≤
        2 ^ (f.fractionBits + 2) * 2 ^ top * den :=
      Nat.mul_le_mul_right _ (Nat.mul_le_mul_right _ (Nat.sub_le _ _))
    omega
  simp only [nearest, hexp, hinf]
  rcases hexpTop.lt_or_eq with hlt | rfl
  · have hround : roundHalfEven num (den * 2 ^ exponent) ≤ 2 ^ (f.fractionBits + 1) :=
      roundHalfEven_le _ _ _ (by nlinarith)
    have hstep : (exponent + 1) * 2 ^ f.fractionBits ≤ top * 2 ^ f.fractionBits :=
      Nat.mul_le_mul_right _ hlt
    nlinarith
  · -- in the last binade the significand must not be rounded up to the power
    have hround : roundHalfEven num (den * 2 ^ exponent) ≤ 2 ^ (f.fractionBits + 1) - 1 := by
      apply roundHalfEven_le
      have hodd : 2 * (2 ^ (f.fractionBits + 1) - 1) + 1 = 2 ^ (f.fractionBits + 2) - 1 := by omega
      rw [hodd]
      linarith
    have hsplit : (exponent + 2) * 2 ^ f.fractionBits =
        exponent * 2 ^ f.fractionBits + 2 * 2 ^ f.fractionBits := by ring
    omega

-- From that middle on the nearest magnitude is infinite. The tie goes up,
-- because the largest significand is odd.
theorem infinity_le_nearest (top num den : Nat) (htop : 2 ^ f.exponentBits = top + 3)
    (hden : 0 < den) (h : (2 ^ (f.fractionBits + 2) - 1) * 2 ^ top * den ≤ 2 * num) :
    f.infinity ≤ f.nearest num den := by
  have hpos : 0 < 2 ^ f.fractionBits := Nat.two_pow_pos _
  have hinf : f.infinity = (top + 2) * 2 ^ f.fractionBits := by rw [infinity, htop]; rfl
  have hbits : 2 ^ (f.fractionBits + 2) = 4 * 2 ^ f.fractionBits := by ring
  have hbits' : 2 ^ (f.fractionBits + 1) = 2 * 2 ^ f.fractionBits := by ring
  generalize hexp : Nat.log2 (num / den) - f.fractionBits = exponent
  have hquot : 2 ^ (f.fractionBits + top) ≤ num / den := by
    apply (Nat.le_div_iff_mul_le hden).mpr
    have hle : 2 * 2 ^ f.fractionBits * 2 ^ top * den ≤
        (2 ^ (f.fractionBits + 2) - 1) * 2 ^ top * den :=
      Nat.mul_le_mul_right _ (Nat.mul_le_mul_right _ (by omega))
    have hgrid : 2 * 2 ^ f.fractionBits * 2 ^ top * den =
        2 * (2 ^ (f.fractionBits + top) * den) := by ring
    omega
  have hne : num / den ≠ 0 := by
    have := Nat.two_pow_pos (f.fractionBits + top)
    omega
  have hlog : f.fractionBits + top ≤ Nat.log2 (num / den) := (Nat.le_log2 hne).mpr hquot
  simp only [nearest, hexp, hinf]
  by_cases heq : exponent = top
  · subst heq
    have hround : 2 ^ (f.fractionBits + 1) - 1 < roundHalfEven num (den * 2 ^ exponent) := by
      apply lt_roundHalfEven
      · omega
      · positivity
      · have hodd : 2 * (2 ^ (f.fractionBits + 1) - 1) + 1 = 2 ^ (f.fractionBits + 2) - 1 := by
          omega
        rw [hodd]
        linarith
    have hsplit : (exponent + 2) * 2 ^ f.fractionBits =
        exponent * 2 ^ f.fractionBits + 2 * 2 ^ f.fractionBits := by ring
    omega
  · -- beyond the last binade every significand with its leading bit will do
    have hround : 2 ^ f.fractionBits ≤ num / (den * 2 ^ exponent) := by
      apply (Nat.le_div_iff_mul_le (by positivity)).mpr
      rw [← hexp]
      exact f.binade_le (by omega)
    have hle := hround.trans (div_le_roundHalfEven num (den * 2 ^ exponent))
    have hstep : (top + 1) * 2 ^ f.fractionBits ≤ exponent * 2 ^ f.fractionBits :=
      Nat.mul_le_mul_right _ (by omega)
    have hsplit : (top + 2) * 2 ^ f.fractionBits =
        (top + 1) * 2 ^ f.fractionBits + 2 ^ f.fractionBits := by ring
    omega

end FloatFormat

end PacketCodec
