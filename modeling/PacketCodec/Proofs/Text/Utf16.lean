import Mathlib.Data.List.Chain
import PacketCodec.Text.Utf16

namespace PacketCodec

namespace CodePoint

theorem isHighSurrogate_iff (c : CodePoint) :
    c.isHighSurrogate = true ↔ 0xD800 ≤ c.val ∧ c.val < 0xDC00 := by
  simp [isHighSurrogate]

theorem isLowSurrogate_iff (c : CodePoint) :
    c.isLowSurrogate = true ↔ 0xDC00 ≤ c.val ∧ c.val < 0xE000 := by
  simp [isLowSurrogate]

end CodePoint

namespace Text

-- No high surrogate stands directly in front of a low one.
def Unpaired (t : Text) : Prop :=
  t.IsChain fun c d => ¬(c.isHighSurrogate = true ∧ d.isLowSurrogate = true)

instance (t : Text) : Decidable t.Unpaired :=
  inferInstanceAs (Decidable (List.IsChain _ _))

theorem units_cons (c : CodePoint) (t : Text) : units (c :: t) = c.units ++ units t := rfl

theorem ofUnits_cons (u : CodeUnit) (us : List CodeUnit) :
    ofUnits (u :: us) = consUnit (ofUnit u) (ofUnits us) := rfl

theorem units_ofUnit (u : CodeUnit) : (ofUnit u).units = [u] := by
  simp [CodePoint.units, ofUnit]

theorem units_ofSurrogates (high low : CodePoint) (hhigh : high.isHighSurrogate = true)
    (hlow : low.isLowSurrogate = true) :
    (CodePoint.ofSurrogates high low).units = high.units ++ low.units := by
  rw [CodePoint.isHighSurrogate_iff] at hhigh
  rw [CodePoint.isLowSurrogate_iff] at hlow
  have hpair : (CodePoint.ofSurrogates high low).val =
      0x10000 + (high.val - 0xD800) % 0x400 * 0x400 + (low.val - 0xDC00) % 0x400 := rfl
  rw [CodePoint.units, CodePoint.units, CodePoint.units, dif_neg (by omega), dif_pos (by omega),
    dif_pos (by omega)]
  refine congrArg₂ (fun first second => [first, second]) (Fin.ext ?_) (Fin.ext ?_)
  · dsimp only
    omega
  · dsimp only
    omega

theorem units_consUnit (u : CodeUnit) (t : Text) :
    units (consUnit (ofUnit u) t) = u :: units t := by
  cases t with
  | nil => simp [consUnit, units_cons, units_ofUnit]
  | cons d rest =>
      simp only [consUnit]
      split
      next h =>
        rw [Bool.and_eq_true] at h
        rw [units_cons, units_ofSurrogates _ _ h.1 h.2, units_ofUnit]
        rfl
      · rw [units_cons, units_ofUnit]
        rfl

-- Unpaired surrogates included, nothing is lost when units are read.
@[simp] theorem units_ofUnits (us : List CodeUnit) : units (ofUnits us) = us := by
  induction us with
  | nil => rfl
  | cons u us ih => rw [ofUnits_cons, units_consUnit, ih]

theorem consUnit_of_not_pair (c : CodePoint) (t : Text)
    (h : ∀ d ∈ t.head?, ¬(c.isHighSurrogate = true ∧ d.isLowSurrogate = true)) :
    consUnit c t = c :: t := by
  cases t with
  | nil => rfl
  | cons d rest =>
      have hpair : (c.isHighSurrogate && d.isLowSurrogate) = false := by
        rw [← Bool.not_eq_true, Bool.and_eq_true]
        exact h d rfl
      simp [consUnit, hpair]

-- A code point above the others is read from its two units.
theorem ofUnits_units_append (c : CodePoint) (us : List CodeUnit)
    (h : ∀ d ∈ (ofUnits us).head?, ¬(c.isHighSurrogate = true ∧ d.isLowSurrogate = true)) :
    ofUnits (c.units ++ us) = c :: ofUnits us := by
  by_cases hc : c.val < 0x10000
  · have hunits : c.units = [⟨c.val, hc⟩] := by simp [CodePoint.units, hc]
    rw [hunits, List.singleton_append, ofUnits_cons]
    exact consUnit_of_not_pair c _ h
  · have hlt := c.isLt
    have hsecond : ∀ d ∈ (ofUnits us).head?,
        ¬((ofUnit ⟨0xDC00 + (c.val - 0x10000) % 0x400, by omega⟩).isHighSurrogate = true ∧
          d.isLowSurrogate = true) := by
      rintro d - ⟨hd, -⟩
      obtain ⟨-, hd⟩ := (CodePoint.isHighSurrogate_iff _).mp hd
      simp only [ofUnit] at hd
      omega
    have hhigh :
        (ofUnit ⟨0xD800 + (c.val - 0x10000) / 0x400, by omega⟩).isHighSurrogate = true := by
      rw [CodePoint.isHighSurrogate_iff]
      simp only [ofUnit]
      omega
    have hlow : (ofUnit ⟨0xDC00 + (c.val - 0x10000) % 0x400, by omega⟩).isLowSurrogate = true := by
      rw [CodePoint.isLowSurrogate_iff]
      simp only [ofUnit]
      omega
    rw [CodePoint.units, dif_neg hc, List.cons_append, List.singleton_append, ofUnits_cons,
      ofUnits_cons, consUnit_of_not_pair _ _ hsecond]
    simp only [consUnit, hhigh, hlow, Bool.and_self, if_true]
    refine congrArg (· :: ofUnits us) (Fin.ext ?_)
    simp only [CodePoint.ofSurrogates, ofUnit]
    omega

theorem ofUnits_units (t : Text) (ht : t.Unpaired) : ofUnits (units t) = t := by
  induction t with
  | nil => rfl
  | cons c rest ih =>
      obtain ⟨hhead, htail⟩ := List.isChain_cons.mp ht
      have hrest : ofUnits (units rest) = rest := ih htail
      rw [units_cons, ofUnits_units_append c _ (by rw [hrest]; exact hhead), hrest]

-- A text as it comes back from its units, with surrogates that stand for one
-- code point joined.
def rejoined (t : Text) : Text :=
  ofUnits t.units

theorem rejoined_of_unpaired (t : Text) (ht : t.Unpaired) : t.rejoined = t :=
  ofUnits_units t ht

theorem zero_mem_units (t : Text) (h : 0 ∈ units t) : 0 ∈ t := by
  induction t with
  | nil => simp [units] at h
  | cons c rest ih =>
      rw [units_cons, List.mem_append] at h
      rcases h with h | h
      · have hc : c = 0 := by
          simp only [CodePoint.units] at h
          split at h
          · simp only [List.mem_singleton, Fin.ext_iff] at h
            exact Fin.ext h.symm
          · simp only [List.mem_cons, Fin.ext_iff, List.not_mem_nil, or_false] at h
            have hzero : ((0 : CodeUnit) : Nat) = 0 := rfl
            omega
        simp [hc]
      · exact List.mem_cons_of_mem c (ih h)

end Text

end PacketCodec
