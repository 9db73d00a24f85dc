import PacketCodec.Proofs.Number.Rounding

namespace PacketCodec

namespace Binary

variable {f g : FloatFormat}

@[simp] theorem ofBits_toBits (x : Binary f) : ofBits x.toBits = x := by
  have hpos : 0 < 2 ^ f.magnitudeBits := Nat.two_pow_pos _
  have hmod : (x.negative.toNat * 2 ^ f.magnitudeBits + x.magnitude.val) % 2 ^ f.magnitudeBits =
      x.magnitude.val := by
    rw [Nat.add_comm, Nat.add_mul_mod_self_right, Nat.mod_eq_of_lt x.magnitude.isLt]
  have hdiv : (x.negative.toNat * 2 ^ f.magnitudeBits + x.magnitude.val) / 2 ^ f.magnitudeBits =
      x.negative.toNat := by
    rw [Nat.add_comm, Nat.add_mul_div_right _ _ hpos, Nat.div_eq_of_lt x.magnitude.isLt,
      Nat.zero_add]
  simp only [ofBits, toBits, hmod, hdiv]
  cases x with
  | mk negative magnitude => cases negative <;> rfl

theorem toBits_lt (x : Binary f) : x.toBits < 2 ^ (f.magnitudeBits + 1) := by
  have hm := x.magnitude.isLt
  have hs : x.negative.toNat * 2 ^ f.magnitudeBits ≤ 1 * 2 ^ f.magnitudeBits :=
    Nat.mul_le_mul_right _ (Bool.toNat_le _)
  rw [toBits, Nat.pow_succ]
  omega

theorem toBits_ofBits (n : Nat) (hn : n < 2 ^ (f.magnitudeBits + 1)) :
    (ofBits n : Binary f).toBits = n := by
  have hdiv : n / 2 ^ f.magnitudeBits < 2 :=
    Nat.div_lt_of_lt_mul (by rw [Nat.pow_succ] at hn; exact hn)
  have hbit : ∀ sign < 2, (decide (sign % 2 = 1)).toNat = sign := by decide
  have hsign := hbit _ hdiv
  have hsplit := Nat.div_add_mod n (2 ^ f.magnitudeBits)
  simp only [toBits, ofBits, hsign]
  rw [Nat.mul_comm]
  exact hsplit

theorem isFinite_or (x : Binary f) : x.isFinite = true ∨ x.isInfinite = true ∨ x.isNaN = true := by
  simp only [isFinite, isInfinite, isNaN, decide_eq_true_eq]
  omega

theorem isFinite_iff (x : Binary f) :
    x.isFinite = true ↔ x.isNaN = false ∧ x.isInfinite = false := by
  simp only [isFinite, isInfinite, isNaN, decide_eq_true_eq, decide_eq_false_iff_not]
  omega

theorem eq_ofMagnitude (x : Binary f) (hx : x.isNaN = false) :
    ofMagnitude x.negative x.magnitude.val = x := by
  simp only [isNaN, decide_eq_false_iff_not, Nat.not_lt] at hx
  simp only [ofMagnitude, Nat.min_eq_left hx]

@[simp] theorem isNaN_ofMagnitude (negative : Bool) (m : Nat) :
    (ofMagnitude negative m : Binary f).isNaN = false :=
  decide_eq_false (Nat.not_lt.mpr (Nat.min_le_right _ _))

-- The quiet bit keeps a payload apart from infinity.
theorem isNaN_nan (hf : 0 < f.fractionBits) (negative : Bool) (payloadBits payload : Nat) :
    (nan negative payloadBits payload : Binary f).isNaN = true := by
  have hquiet : 0 < 2 ^ (f.fractionBits - 1) := Nat.two_pow_pos _
  have hhalf : 2 ^ f.fractionBits = 2 * 2 ^ (f.fractionBits - 1) := by
    conv_lhs => rw [← Nat.sub_add_cancel hf, Nat.pow_succ, Nat.mul_comm]
  have htop : f.infinity + 2 ^ f.fractionBits = 2 ^ f.magnitudeBits := by
    have hexp : 0 < 2 ^ f.exponentBits := Nat.two_pow_pos _
    rw [FloatFormat.infinity, FloatFormat.magnitudeBits, Nat.pow_add, ← Nat.succ_mul]
    congr 1
    omega
  have hkept := Nat.mod_lt (payload * 2 ^ f.fractionBits / 2 ^ payloadBits) hquiet
  refine decide_eq_true ?_
  simp only [nan]
  rw [Nat.mod_eq_of_lt (by omega)]
  omega

@[simp] theorem negative_convert (x : Binary f) : (x.convert : Binary g).negative = x.negative := by
  simp only [convert]
  split
  · rfl
  · split <;> rfl

theorem isNaN_convert (hg : 0 < g.fractionBits) (x : Binary f) :
    (x.convert : Binary g).isNaN = x.isNaN := by
  simp only [convert]
  split
  next h => rw [isNaN_nan hg, h]
  next h =>
    have hx : x.isNaN = false := by simpa using h
    split <;> simp [hx, ofRatio]

theorem convert_of_isInfinite (x : Binary f) (hx : x.isInfinite = true) :
    (x.convert : Binary g) = ofMagnitude x.negative g.infinity := by
  have hnan : x.isNaN = false := by
    simp only [isInfinite, isNaN, decide_eq_true_eq, decide_eq_false_iff_not] at hx ⊢
    omega
  simp [convert, hnan, hx]

theorem convert_of_isFinite (x : Binary f) (hx : x.isFinite = true) :
    (x.convert : Binary g) = ofMagnitude x.negative
      (g.nearest (x.multiple * 2 ^ g.quantum) (2 ^ f.quantum)) := by
  obtain ⟨hnan, hinf⟩ := x.isFinite_iff.mp hx
  simp [convert, hnan, hinf, ofRatio]

-- A finite number that both formats hold is converted to itself.
theorem convert_eq_of_multiple_eq (x : Binary f) (y : Binary g) (hx : x.isFinite = true)
    (hy : y.isNaN = false) (hsign : x.negative = y.negative)
    (h : x.multiple * 2 ^ g.quantum = y.multiple * 2 ^ f.quantum) : x.convert = y := by
  rw [convert_of_isFinite x hx, h, multiple, FloatFormat.nearest_multiple _ _ _ (Nat.two_pow_pos _),
    hsign, eq_ofMagnitude y hy]

end Binary

namespace Single

-- Every finite single is a double of the same sign and the same value.
theorem exists_double (x : Single) :
    ∃ y : Double, y.isFinite = true ∧ y.negative = x.negative ∧
      y.multiple * 2 ^ FloatFormat.binary32.quantum =
        x.multiple * 2 ^ FloatFormat.binary64.quantum := by
  obtain ⟨exponent, significand, hhigh, hexp, hmul, -, -⟩ :=
    FloatFormat.binary32.exists_significand x.magnitude.val
  have hexponent : exponent ≤ 254 := by
    have hlt := x.magnitude.isLt
    simp only [FloatFormat.magnitudeBits, FloatFormat.binary32] at hexp hlt
    omega
  obtain ⟨finer, hfiner, hquantum⟩ : ∃ finer, finer ≤ 1000 ∧
      FloatFormat.binary64.quantum = FloatFormat.binary32.quantum + finer := ⟨925, by decide, rfl⟩
  have hroom : significand < 2 ^ (FloatFormat.binary64.fractionBits + 1) :=
    hhigh.trans (by decide)
  obtain ⟨m, hm, hmultiple⟩ :=
    FloatFormat.binary64.exists_multiple_eq significand (exponent + finer) hroom
  have hinf : m < FloatFormat.binary64.infinity :=
    hm.trans_le (Nat.mul_le_mul_right _ (by simp only [FloatFormat.binary64]; omega))
  refine ⟨⟨x.negative, m, hinf.trans FloatFormat.binary64.infinity_lt⟩, decide_eq_true hinf, rfl,
    ?_⟩
  simp only [Binary.multiple, hmultiple, hmul, hquantum]
  ring

-- The double of a finite single is the same number, and so is the single made
-- from it.
theorem convert_finite (x : Single) (hx : x.isFinite = true) :
    (x.convert : Double).isFinite = true ∧
      (x.convert : Double).multiple * 2 ^ FloatFormat.binary32.quantum =
        x.multiple * 2 ^ FloatFormat.binary64.quantum ∧
      ((x.convert : Double).convert : Single) = x := by
  obtain ⟨y, hy, hsign, hmul⟩ := exists_double x
  have hwide : (x.convert : Double) = y :=
    Binary.convert_eq_of_multiple_eq x y hx (y.isFinite_iff.mp hy).1 hsign.symm hmul.symm
  rw [hwide]
  exact ⟨hy, hmul, Binary.convert_eq_of_multiple_eq y x hy (x.isFinite_iff.mp hx).1 hsign hmul⟩

theorem isInfinite_convert (x : Single) (hx : x.isInfinite = true) :
    (x.convert : Double).isInfinite = true := by
  rw [Binary.convert_of_isInfinite x hx]
  exact decide_eq_true (Nat.min_self _)

theorem convert_convert (x : Single) (hx : x.isNaN = false) :
    ((x.convert : Double).convert : Single) = x := by
  rcases x.isFinite_or with h | h | h
  · exact (convert_finite x h).2.2
  · have hmagnitude : x.magnitude.val = FloatFormat.binary32.infinity := of_decide_eq_true h
    rw [Binary.convert_of_isInfinite _ (isInfinite_convert x h), Binary.negative_convert,
      ← hmagnitude, Binary.eq_ofMagnitude x hx]
  · rw [hx] at h
    contradiction

end Single

end PacketCodec
