import PacketCodec.Number.Double
import PacketCodec.Proofs.Number.Conversion
import PacketCodec.Proofs.Number.Grid

namespace PacketCodec

-- A whole number that is at most a half away, and is even if it is a half.
structure IsNearestWhole (n : ℕ) (x : ℚ) : Prop where
  close : |n - x| ≤ 1 / 2
  even : |n - x| = 1 / 2 → Even n

theorem roundHalfEven_bounds (num : ℕ) {den : ℕ} (hden : 0 < den) :
    let n := roundHalfEven num den
    2 * (n * den) ≤ 2 * num + den ∧ 2 * num ≤ 2 * (n * den) + den ∧
      (2 * (n * den) = 2 * num + den ∨ 2 * num = 2 * (n * den) + den → n % 2 = 0) := by
  intro n
  have hsplit := Nat.div_add_mod' num den
  have hmod := Nat.mod_lt num hden
  have hnext : (num / den + 1) * den = num / den * den + den := Nat.succ_mul _ _
  by_cases hdown : 2 * (num % den) < den ∨ 2 * (num % den) = den ∧ num / den % 2 = 0
  · have hn : n = num / den := if_pos hdown
    rw [hn]
    omega
  · have hn : n = num / den + 1 := if_neg hdown
    rw [hn, hnext]
    omega

theorem isNearestWhole_roundHalfEven (num : ℕ) {den : ℕ} (hden : 0 < den) :
    IsNearestWhole (roundHalfEven num den) (num / den) := by
  obtain ⟨hup, hdown, heven⟩ := roundHalfEven_bounds num hden
  generalize roundHalfEven num den = n at hup hdown heven
  have hpos : (0 : ℚ) < den := by exact_mod_cast hden
  have hup : 2 * ((n : ℚ) * den) ≤ 2 * num + den := by exact_mod_cast hup
  have hdown : 2 * (num : ℚ) ≤ 2 * (n * den) + den := by exact_mod_cast hdown
  have hdist : (n : ℚ) - num / den = (n * den - num) / den := by field_simp
  constructor
  · rw [hdist, abs_le, le_div_iff₀ hpos, div_le_iff₀ hpos]
    constructor <;> linarith
  · intro htie
    rw [hdist, abs_eq (by norm_num), div_eq_iff hpos.ne', div_eq_iff hpos.ne'] at htie
    refine Nat.even_iff.mpr (heven ?_)
    rcases htie with htie | htie
    · left
      have : 2 * ((n : ℚ) * den) = 2 * num + den := by linarith
      exact_mod_cast this
    · right
      have : 2 * (num : ℚ) = 2 * (n * den) + den := by linarith
      exact_mod_cast this

-- No other whole number is closer, and only to an even one is another as close.
theorem IsNearestWhole.closest {n k : ℕ} {x : ℚ} (h : IsNearestWhole n x) (hk : k ≠ n) :
    |n - x| ≤ |k - x| ∧ (|k - x| = |n - x| → Even n) := by
  have hapart : (1 : ℚ) ≤ |(k : ℚ) - n| := by
    have : (1 : ℤ) ≤ |(k : ℤ) - n| := Int.one_le_abs (by omega)
    exact_mod_cast this
  have htriangle := abs_sub_le (k : ℚ) x n
  rw [abs_sub_comm x] at htriangle
  have hclose := h.close
  refine ⟨by linarith, fun htie => h.even (by linarith)⟩

namespace FloatFormat

variable {f : FloatFormat}

namespace Point

variable {p : Point f}

-- The significand of the nearest point, before a full one is carried.
theorem exists_rounded (f : FloatFormat) (num : ℕ) {den : ℕ} (hden : 0 < den) :
    ∃ rounded exponent, IsNearestWhole rounded (num / (den * 2 ^ exponent)) ∧
      rounded ≤ 2 ^ (f.fractionBits + 1) ∧ (exponent = 0 ∨ 2 ^ f.fractionBits ≤ rounded) ∧
      f.nearest num den = exponent * 2 ^ f.fractionBits + rounded ∧
      (exponent ≠ 0 → 2 ^ f.fractionBits * (den * 2 ^ exponent) ≤ num) := by
  obtain ⟨exponent, hexponent⟩ : ∃ e, e = Nat.log2 (num / den) - f.fractionBits := ⟨_, rfl⟩
  have hscale : 0 < den * 2 ^ exponent := Nat.mul_pos hden (Nat.two_pow_pos _)
  have hbelow : num < 2 ^ (f.fractionBits + 1) * (den * 2 ^ exponent) :=
    hexponent ▸ f.lt_next_binade num hden
  have habove : exponent ≠ 0 → 2 ^ f.fractionBits * (den * 2 ^ exponent) ≤ num := by
    intro h
    rw [hexponent] at h ⊢
    exact f.binade_le h
  refine ⟨roundHalfEven num (den * 2 ^ exponent), exponent, ?_, ?_, ?_, ?_, habove⟩
  · have h := isNearestWhole_roundHalfEven num hscale
    push_cast at h
    exact h
  · apply roundHalfEven_le
    rw [Nat.add_mul, Nat.mul_assoc]
    omega
  · refine (Nat.eq_zero_or_pos exponent).imp_right fun h => ?_
    exact ((Nat.le_div_iff_mul_le hscale).mpr (habove (by omega))).trans (div_le_roundHalfEven _ _)
  · rw [nearest, ← hexponent]

theorem multiple_of_magnitude {rounded exponent : ℕ} (hf : 0 < f.fractionBits)
    (hhigh : rounded ≤ 2 ^ (f.fractionBits + 1))
    (hlow : exponent = 0 ∨ 2 ^ f.fractionBits ≤ rounded)
    (hp : p.magnitude = exponent * 2 ^ f.fractionBits + rounded) :
    p.multiple = rounded * 2 ^ exponent ∧ (Even rounded → Even p.significand) := by
  rcases hhigh.lt_or_eq with hlt | rfl
  · have hpoint : p = ⟨rounded, exponent, hlt, hlow⟩ := magnitude_injective hp
    rw [hpoint]
    exact ⟨rfl, id⟩
  · -- the carry moves the leading bit into the next exponent
    have hpoint : p = ⟨2 ^ f.fractionBits, exponent + 1,
        Nat.pow_lt_pow_right Nat.one_lt_two (Nat.lt_succ_self _), .inr le_rfl⟩ := by
      apply magnitude_injective
      rw [hp, magnitude]
      ring
    rw [hpoint]
    refine ⟨?_, fun _ => (Nat.even_pow.mpr ⟨even_two, by omega⟩)⟩
    rw [multiple]
    ring

-- In units of one exponent the points from there on are whole numbers, and all
-- others lie below the numbers with a leading bit.
theorem point_cases (p : Point f) (exponent : ℕ) :
    (∃ k : ℕ, (p.multiple : ℚ) / 2 ^ exponent = k ∧ p.multiple = k * 2 ^ exponent) ∨
      exponent ≠ 0 ∧ (p.multiple : ℚ) / 2 ^ exponent < 2 ^ f.fractionBits := by
  have hpos : (0 : ℚ) < 2 ^ exponent := by positivity
  by_cases hle : exponent ≤ p.exponent
  · left
    obtain ⟨more, hmore⟩ := Nat.exists_eq_add_of_le hle
    have hmultiple : p.multiple = p.significand * 2 ^ more * 2 ^ exponent := by
      rw [multiple, hmore]
      ring
    refine ⟨p.significand * 2 ^ more, ?_, hmultiple⟩
    rw [div_eq_iff hpos.ne', hmultiple]
    push_cast
    rfl
  · right
    have hlt := multiple_lt_of_exponent_lt (Nat.lt_of_not_le hle)
    refine ⟨by omega, ?_⟩
    rw [div_lt_iff₀ hpos]
    exact_mod_cast hlt

-- Nothing on the grid is closer than the rounded significand.
theorem closest_of_rounded {rounded exponent : ℕ} {x : ℚ} (hwhole : IsNearestWhole rounded x)
    (habove : exponent ≠ 0 → 2 ^ f.fractionBits ≤ x)
    (hp : p.multiple = rounded * 2 ^ exponent) (other : Point f) :
    |rounded - x| ≤ |other.multiple / 2 ^ exponent - x| ∧
      (|other.multiple / 2 ^ exponent - x| = |rounded - x| → other ≠ p → Even rounded) := by
  rcases other.point_cases exponent with ⟨k, hk, hmultiple⟩ | ⟨hexponent, hlt⟩
  · rw [hk]
    by_cases heq : k = rounded
    · subst heq
      exact ⟨le_rfl, fun _ hne => absurd (multiple_injective (hmultiple.trans hp.symm)) hne⟩
    · obtain ⟨hclosest, htie⟩ := hwhole.closest heq
      exact ⟨hclosest, fun h _ => htie h⟩
  · -- the least number with a leading bit lies between this point and the number
    have hle := habove hexponent
    have hleading : |(rounded : ℚ) - x| ≤ x - 2 ^ f.fractionBits := by
      rw [← abs_of_nonneg (sub_nonneg.mpr hle), abs_sub_comm x]
      by_cases heq : 2 ^ f.fractionBits = rounded
      · rw [← heq]
        push_cast
        exact le_rfl
      · have hclosest := (hwhole.closest heq).1
        push_cast at hclosest
        exact hclosest
    have hother :
        |(other.multiple : ℚ) / 2 ^ exponent - x| = x - other.multiple / 2 ^ exponent := by
      rw [abs_sub_comm, abs_of_nonneg (by linarith)]
    have hstrict : |(rounded : ℚ) - x| < |other.multiple / 2 ^ exponent - x| := by
      rw [hother]
      linarith
    exact ⟨hstrict.le, fun h _ => absurd h hstrict.ne'⟩

-- The magnitude that is computed is that of the nearest point.
theorem isNearest_of_magnitude (hf : 0 < f.fractionBits) (num : ℕ) {den : ℕ} (hden : 0 < den)
    (hp : p.magnitude = f.nearest (num * 2 ^ f.quantum) den) : p.IsNearest (num / den) := by
  obtain ⟨rounded, exponent, hwhole, hhigh, hlow, hnearest, habove⟩ :=
    exists_rounded f (num * 2 ^ f.quantum) hden
  obtain ⟨hmultiple, heven⟩ := multiple_of_magnitude hf hhigh hlow (hp.trans hnearest)
  have hdenpos : (0 : ℚ) < den := by exact_mod_cast hden
  -- the number and all points in units of the exponent
  obtain ⟨unit, hunit⟩ : ∃ unit : ℚ, unit = 2 ^ exponent / 2 ^ f.quantum := ⟨_, rfl⟩
  have hunitpos : 0 < unit := by
    rw [hunit]
    positivity
  generalize hx : ((num * 2 ^ f.quantum : ℕ) : ℚ) / (den * 2 ^ exponent) = x at hwhole
  have hscaled : (num : ℚ) / den = x * unit := by
    rw [← hx, hunit]
    push_cast
    field_simp
  have hvalue : ∀ q : Point f, q.value - num / den = (q.multiple / 2 ^ exponent - x) * unit := by
    intro q
    rw [hscaled, value, sub_mul, hunit]
    field_simp
  have hrounded : (p.multiple : ℚ) / 2 ^ exponent = rounded := by
    rw [hmultiple]
    push_cast
    field_simp
  have hleading : exponent ≠ 0 → 2 ^ f.fractionBits ≤ x := by
    intro h
    rw [← hx, le_div_iff₀ (by positivity)]
    exact_mod_cast habove h
  have hclosest := closest_of_rounded hwhole hleading hmultiple
  refine ⟨fun other => ?_, fun other htie hne => heven ?_⟩
  · rw [hvalue, hvalue, abs_mul, abs_mul, hrounded]
    exact mul_le_mul_of_nonneg_right (hclosest other).1 (abs_nonneg _)
  · rw [hvalue, hvalue, abs_mul, abs_mul, hrounded,
      mul_left_inj' (abs_pos.mpr hunitpos.ne').ne'] at htie
    exact (hclosest other).2 htie hne

end Point

-- What a rational number becomes in a format: the nearest point, on the side of
-- zero where the number is, or nothing if that point is not finite.
inductive Rounds (f : FloatFormat) (x : ℚ) : Option ℚ → Prop
  | finite {p : Point f} (h : p.IsNearest |x|) (hfinite : p.IsFinite) :
      Rounds f x (some (if x < 0 then -p.value else p.value))
  | overflow {p : Point f} (h : p.IsNearest |x|) (hinfinite : ¬p.IsFinite) : Rounds f x none

theorem Rounds.unique {x : ℚ} {result result' : Option ℚ} (h : f.Rounds x result)
    (h' : f.Rounds x result') : result = result' := by
  cases h with
  | finite h hfinite =>
      cases h' with
      | finite h' => rw [h.unique h']
      | overflow h' hinfinite => exact absurd (h.unique h' ▸ hfinite) hinfinite
  | overflow h hinfinite =>
      cases h' with
      | finite h' hfinite => exact absurd (h.unique h' ▸ hfinite) hinfinite
      | overflow => rfl

theorem Rounds.iff_eq {x : ℚ} {result result' : Option ℚ} (h : f.Rounds x result) :
    f.Rounds x result' ↔ result' = result :=
  ⟨fun h' => h'.unique h, fun heq => heq ▸ h⟩

-- A whole number, by the place of its nearest point and the whole number there.
theorem rounds_of_point (p : f.Point) (hf : 0 < f.fractionBits) {num rounded : ℕ}
    (hp : p.magnitude = f.nearest (num * 2 ^ f.quantum) 1) (hfinite : p.IsFinite)
    (hvalue : p.multiple = rounded * 2 ^ f.quantum) : f.Rounds num (some rounded) := by
  have hnearest := Point.isNearest_of_magnitude hf num Nat.one_pos hp
  have hnonneg : (0 : ℚ) ≤ num := num.cast_nonneg
  have hpoint : p.value = rounded := by
    rw [Point.value, hvalue]
    push_cast
    field_simp
  rw [Nat.cast_one, div_one] at hnearest
  have h := Rounds.finite (x := num) (p := p) (by rwa [abs_of_nonneg hnonneg]) hfinite
  rwa [if_neg hnonneg.not_gt, hpoint] at h

end FloatFormat

namespace Binary

variable {f g : FloatFormat}

-- The rational number that a finite number stands for.
def value? (x : Binary f) : Option ℚ :=
  if x.isFinite then some ((if x.negative then -1 else 1) * (x.multiple / 2 ^ f.quantum)) else none

theorem value?_ofMagnitude (hexponent : 2 < 2 ^ f.exponentBits) (negative : Bool)
    (p : f.Point) : (ofMagnitude negative p.magnitude : Binary f).value? =
      if p.IsFinite then some ((if negative then -1 else 1) * p.value) else none := by
  have hfinite : (ofMagnitude negative p.magnitude : Binary f).isFinite = true ↔ p.IsFinite := by
    rw [FloatFormat.Point.isFinite_iff hexponent, isFinite, decide_eq_true_iff]
    exact min_lt_iff.trans (or_iff_left (lt_irrefl _))
  by_cases h : p.IsFinite
  · have hlt := (FloatFormat.Point.isFinite_iff hexponent).mp h
    rw [value?, if_pos (hfinite.mpr h), if_pos h, multiple]
    simp only [ofMagnitude, Nat.min_eq_left hlt.le, p.multiple_magnitude, FloatFormat.Point.value]
  · rw [value?, if_neg (mt hfinite.mp h), if_neg h]

theorem rounds_ofRatio (hfraction : 0 < f.fractionBits) (hexponent : 2 < 2 ^ f.exponentBits)
    (negative : Bool) (num : ℕ) {den : ℕ} (hden : 0 < den) :
    f.Rounds ((if negative then -1 else 1) * (num / den))
      (ofRatio negative num den : Binary f).value? := by
  obtain ⟨p, hp⟩ := FloatFormat.Point.exists_magnitude f (f.nearest (num * 2 ^ f.quantum) den)
  have hnearest := FloatFormat.Point.isNearest_of_magnitude hfraction num hden hp
  have hnonneg : (0 : ℚ) ≤ num / den := by positivity
  have habs : |(if negative then -1 else 1) * ((num : ℚ) / den)| = num / den := by
    cases negative <;> simp [abs_of_nonneg hnonneg]
  have hsign : (if negative then -1 else 1) * p.value =
      if (if negative then -1 else 1) * ((num : ℚ) / den) < 0 then -p.value else p.value := by
    cases negative with
    | false => simp [hnonneg.not_gt]
    | true =>
        rcases hnonneg.lt_or_eq with hlt | hzero
        · simp [hlt]
        · rw [← hzero] at hnearest
          simp [hnearest.value_eq_zero]
  rw [ofRatio, ← hp, value?_ofMagnitude hexponent]
  by_cases h : p.IsFinite
  · rw [if_pos h, hsign]
    exact .finite (habs.symm ▸ hnearest) h
  · rw [if_neg h]
    exact .overflow (habs.symm ▸ hnearest) h

-- A finite number is converted to its rounding.
theorem rounds_convert (hfraction : 0 < g.fractionBits) (hexponent : 2 < 2 ^ g.exponentBits)
    (x : Binary f) {q : ℚ} (hx : x.value? = some q) :
    g.Rounds q (x.convert : Binary g).value? := by
  have hfinite : x.isFinite = true := by
    by_contra h
    rw [value?, if_neg h] at hx
    contradiction
  rw [value?, if_pos hfinite, Option.some_inj] at hx
  have h := rounds_ofRatio hfraction hexponent x.negative x.multiple (Nat.two_pow_pos f.quantum)
  rw [convert_of_isFinite x hfinite, ← hx]
  push_cast at h
  exact h

end Binary

theorem Double.bind_value?_finite? (x : Double) :
    (Double.finite? x).bind Binary.value? = x.value? := by
  unfold Double.finite? Binary.value?
  cases h : x.isFinite <;> simp [h]

-- A whole number becomes the double that it is rounded to, if that is finite.
theorem Double.rounds_ofInt? (n : ℤ) :
    FloatFormat.binary64.Rounds n ((Double.ofInt? n).bind Binary.value?) := by
  have h := Binary.rounds_ofRatio (f := .binary64) (by decide) (by decide) (n < 0) n.natAbs
    Nat.one_pos
  have hnumber : (if decide (n < 0) then -1 else 1) * ((n.natAbs : ℚ) / (1 : ℕ)) = n := by
    rw [Nat.cast_one, div_one, Nat.cast_natAbs]
    rcases lt_or_ge n 0 with hneg | hnonneg
    · rw [decide_eq_true hneg, if_pos rfl, abs_of_neg hneg]
      push_cast
      ring
    · rw [decide_eq_false (not_lt.mpr hnonneg), if_neg Bool.false_ne_true, abs_of_nonneg hnonneg,
        one_mul]
  rw [hnumber] at h
  rw [Double.ofInt?, Double.bind_value?_finite?]
  exact h

end PacketCodec
