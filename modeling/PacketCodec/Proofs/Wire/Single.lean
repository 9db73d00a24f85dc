import PacketCodec.Proofs.Number.Nearest
import PacketCodec.Proofs.Wire.Accepts
import PacketCodec.Proofs.Wire.Writing

namespace PacketCodec

namespace Single

-- A single is widened without a loss.
theorem value?_convert (x : Single) : (x.convert : Double).value? = x.value? := by
  by_cases hx : x.isFinite = true
  · obtain ⟨hwide, hmultiple, -⟩ := convert_finite x hx
    have hvalue : ((x.convert : Double).multiple : ℚ) / 2 ^ FloatFormat.binary64.quantum =
        x.multiple / 2 ^ FloatFormat.binary32.quantum := by
      rw [div_eq_div_iff (by positivity) (by positivity)]
      exact_mod_cast hmultiple
    rw [Binary.value?, Binary.value?, if_pos hwide, if_pos hx, Binary.negative_convert, hvalue]
  · have hwide : ¬(x.convert : Double).isFinite = true := by
      rw [Binary.isFinite_iff, Binary.isNaN_convert (by decide)]
      rintro ⟨hnan, hinf⟩
      rcases x.isFinite_or with h | h | h
      · exact hx h
      · rw [isInfinite_convert x h] at hinf
        contradiction
      · rw [h] at hnan
        contradiction
    rw [Binary.value?, Binary.value?, if_neg hwide, if_neg hx]

end Single

namespace Double

-- What is infinite or not a number stays so with its sign in both widths.
theorem convert_convert_of_not_finite (x : Double) (hx : x.isFinite = false) :
    ((x.convert : Single).convert : Double).isNaN = x.isNaN ∧
      ((x.convert : Single).convert : Double).isInfinite = x.isInfinite := by
  have hnan : ((x.convert : Single).convert : Double).isNaN = x.isNaN := by
    rw [Binary.isNaN_convert (by decide), Binary.isNaN_convert (by decide)]
  refine ⟨hnan, ?_⟩
  rcases x.isFinite_or with h | h | h
  · rw [hx] at h
    contradiction
  · have hsingle : (x.convert : Single).isInfinite = true := by
      rw [Binary.convert_of_isInfinite x h]
      exact decide_eq_true (Nat.min_self _)
    rw [Single.isInfinite_convert _ hsingle, h]
  · have hdisjoint : ∀ y : Double, y.isNaN = true → y.isInfinite = false := by
      intro y hy
      simp only [Binary.isNaN, Binary.isInfinite, decide_eq_true_eq, decide_eq_false_iff_not]
        at hy ⊢
      omega
    rw [hdisjoint x h, hdisjoint _ (hnan.trans h)]

end Double

namespace Binary

theorem isSome_value? {f : FloatFormat} (x : Binary f) : x.value?.isSome = x.isFinite := by
  unfold value?
  cases x.isFinite <;> rfl

end Binary

namespace NumberType

variable {value : Value} {x : Double}

-- The bounds of the check are those of rounding, and packing agrees with it.
theorem check_single_iff (hvalue : value.toDouble? = some x) :
    (⟨.single, false⟩ : NumberType).check value = .ok () ↔
      (x.isFinite = true → (x.convert : Single).isFinite = true) := by
  rw [check_real_eq_ok_iff, hvalue, ← fitsSingle_iff_convert]
  simp [Packing.width]

theorem isSome_pack?_single (hvalue : value.toDouble? = some x) (hx : x.isFinite = true) :
    (Packing.single.pack? value).isSome = (x.convert : Single).isFinite := by
  obtain ⟨hnan, hinf⟩ := x.isFinite_iff.mp hx
  have hsingle : (x.convert : Single).isNaN = false := by
    rw [Binary.isNaN_convert (by decide), hnan]
  have hkind : (x.convert : Single).isFinite = !(x.convert : Single).isInfinite := by
    simp only [Binary.isFinite, Binary.isInfinite, Binary.isNaN, decide_eq_false_iff_not]
      at hsingle ⊢
    rw [Bool.eq_iff_iff, Bool.not_eq_true', decide_eq_true_iff, decide_eq_false_iff_not]
    omega
  simp only [Packing.pack?, hvalue, hinf, hkind, Bool.not_false, Bool.and_true]
  cases (x.convert : Single).isInfinite <;> rfl

end NumberType

namespace WireType

variable {value : Value} {x : Double}

-- An accepted number comes back as the double of its single.
theorem read_write_single (hvalue : value.toDouble? = some x)
    (hcheck : (⟨.single, false⟩ : NumberType).check value = .ok ()) (field : Value)
    (cursor : WriteCursor) (hroom : cursor.pos + 4 ≤ cursor.buffer.size) :
    ∃ written, (number ⟨.single, false⟩).write cursor value field = .ok written ∧
      (number ⟨.single, false⟩).read written.buffer cursor.pos =
        .ok (.double (x.convert : Single).convert, written.pos) := by
  have hmeasure : (number ⟨.single, false⟩).measure value field = .ok 4 := by
    simp only [measure, hcheck, Packing.width]
  have hnormal : (number ⟨.single, false⟩).normal value = .double (x.convert : Single).convert := by
    simp only [normal, Packing.normal, hvalue]
  obtain ⟨written, hwrite, hread⟩ :=
    read_of_write .single hmeasure (by simp [hnormal, Value.texts]) cursor hroom
  rw [hnormal] at hread
  exact ⟨written, hwrite, hread⟩

-- The type `float` over the whole numbers and the doubles. A whole number is
-- rounded to a double first, and is refused if it is too large for one. The
-- double is accepted if and only if it is rounded to a finite single, which is
-- when packing does not overflow, and what is written is read as exactly that
-- single, with the sign of the double also at zero. What is infinite or not a
-- number is accepted and comes back.
theorem float_rounds (version value field : Value) (cursor : WriteCursor)
    (hroom : cursor.pos + 4 ≤ cursor.buffer.size) :
    ∃ t : NumberType, (TypeSet.new version).find? "float" = some (number t) ∧
      (∀ n : ℤ, value = .int n →
        (∀ result, FloatFormat.binary64.Rounds n result ↔
          result = value.toDouble?.bind Binary.value?) ∧
        (value.toDouble? = none → t.check value = .error (.tooLargeForDouble n))) ∧
      (∀ x q, value.toDouble? = some x → x.value? = some q →
        ∃ rounded, (∀ result, FloatFormat.binary32.Rounds q result ↔ result = rounded) ∧
          (t.check value = .ok () ↔ rounded.isSome) ∧
          (t.packing.pack? value).isSome = rounded.isSome ∧
          ∀ q', rounded = some q' → ∃ written y,
            (number t).write cursor value field = .ok written ∧
              (number t).read written.buffer cursor.pos = .ok (.double y, written.pos) ∧
              y.value? = some q' ∧ y.negative = x.negative) ∧
      ∀ x, value = .double x → x.value? = none →
        t.check value = .ok () ∧ ∃ written y,
          (number t).write cursor value field = .ok written ∧
            (number t).read written.buffer cursor.pos = .ok (.double y, written.pos) ∧
            y.isNaN = x.isNaN ∧ y.isInfinite = x.isInfinite ∧ y.negative = x.negative := by
  refine ⟨⟨.single, false⟩, rfl, ?_, ?_, ?_⟩
  · rintro n rfl
    refine ⟨fun _ => (Double.rounds_ofInt? n).iff_eq, fun hnone => ?_⟩
    rw [NumberType.check_real, NumberType.checkReal, NumberType.realOf, NumberType.nearestDouble]
    rw [Value.toDouble?] at hnone
    rw [hnone]
    rfl
  · intro x q hvalue hx
    have hfinite : x.isFinite = true := by rw [← x.isSome_value?, hx]; rfl
    have hrounds := x.rounds_convert (g := .binary32) (by decide) (by decide) hx
    have hcheck : (⟨.single, false⟩ : NumberType).check value = .ok () ↔
        (x.convert : Single).value?.isSome = true := by
      rw [NumberType.check_single_iff hvalue, Binary.isSome_value?]
      exact forall_prop_of_true hfinite
    refine ⟨(x.convert : Single).value?, fun _ => hrounds.iff_eq, hcheck, ?_, ?_⟩
    · rw [NumberType.isSome_pack?_single hvalue hfinite, Binary.isSome_value?]
    · intro q' hq'
      obtain ⟨written, hwrite, hread⟩ := read_write_single hvalue
        (hcheck.mpr (by rw [hq']; rfl)) field cursor hroom
      refine ⟨written, _, hwrite, hread, ?_, ?_⟩
      · rw [Single.value?_convert, hq']
      · rw [Binary.negative_convert, Binary.negative_convert]
  · rintro x rfl hx
    have hfinite : x.isFinite = false := by rw [← x.isSome_value?, hx]; rfl
    have hcheck : (⟨.single, false⟩ : NumberType).check (.double x) = .ok () := by
      rw [NumberType.check_single_iff (x := x) rfl, hfinite]
      exact fun h => absurd h Bool.false_ne_true
    obtain ⟨written, hwrite, hread⟩ := read_write_single rfl hcheck field cursor hroom
    obtain ⟨hnan, hinf⟩ := x.convert_convert_of_not_finite hfinite
    refine ⟨hcheck, written, _, hwrite, hread, hnan, hinf, ?_⟩
    rw [Binary.negative_convert, Binary.negative_convert]

-- Halfway between two singles the one with the even significand is taken.
theorem float_rounds_tie :
    ∃ t : NumberType, (TypeSet.new .null).find? "float" = some (number t) ∧ ∃ written y,
      (number t).write ⟨#[0, 0, 0, 0], 0⟩ (.int 16777217) .null = .ok written ∧
        (number t).read written.buffer 0 = .ok (.double y, written.pos) ∧
        y.value? = some 16777216 := by
  obtain ⟨t, hfind, hint, hreal, -⟩ :=
    float_rounds .null (.int 16777217) .null ⟨#[0, 0, 0, 0], 0⟩ (by decide)
  refine ⟨t, hfind, ?_⟩
  have hexact : FloatFormat.binary64.Rounds ((16777217 : ℤ) : ℚ) (some 16777217) :=
    FloatFormat.rounds_of_point (f := .binary64)
      ⟨16777217 * 2 ^ 28, 1046, by decide, by decide⟩ (by decide) (by decide +kernel) (by decide)
      (by decide +kernel)
  have htie : FloatFormat.binary32.Rounds 16777217 (some 16777216) :=
    FloatFormat.rounds_of_point (f := .binary32)
      ⟨2 ^ 23, 150, by decide, by decide⟩ (by decide) (by decide +kernel) (by decide)
      (by decide +kernel)
  have hdouble := ((hint _ rfl).1 _).mp hexact
  obtain ⟨x, hx, hvalue⟩ := Option.bind_eq_some_iff.mp hdouble.symm
  obtain ⟨rounded, hrounds, -, -, hread⟩ := hreal x _ hx hvalue
  obtain ⟨written, y, hwrite, hread, hy, -⟩ := hread _ ((hrounds _).mp htie).symm
  exact ⟨written, y, hwrite, hread, hy⟩

end WireType

end PacketCodec
