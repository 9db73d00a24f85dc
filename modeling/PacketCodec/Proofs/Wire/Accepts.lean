import PacketCodec.Proofs.Wire.Number

namespace PacketCodec

namespace WireType

-- A flag accepts every value. A single accepts a double unless rounding makes
-- it infinite; what is infinite or not a number from the start is accepted.
def Accepts : WireType → Value → Prop
  | flag, _ => True
  | number ⟨.whole true width, _⟩, value =>
    ∃ n : Int, value = .int n ∧ -2 ^ (8 * width - 1) ≤ n ∧ n < 2 ^ (8 * width - 1)
  | number ⟨.whole false width, _⟩, value =>
    ∃ n : Int, value = .int n ∧ 0 ≤ n ∧ n < 2 ^ (8 * width)
  | number ⟨.single, _⟩, value =>
    ∃ x, value.toDouble? = some x ∧
      (x.isFinite = true → (x.convert : Single).isFinite = true)
  | number ⟨.double, _⟩, value => ∃ x, value.toDouble? = some x
  | text, value => value = .null ∨ ∃ t, value = .text t

end WireType

namespace NumberType

-- A double passes the check of singles if and only if it is not rounded to
-- infinity.
theorem fitsSingle_iff_convert (x : Double) :
    fitsSingle x = true ↔ (x.isFinite = true → (x.convert : Single).isFinite = true) := by
  constructor
  · intro hx hfin
    obtain ⟨hnan, hinf⟩ := x.isFinite_iff.mp hfin
    apply (Binary.isFinite_iff _).mpr
    constructor
    · rw [Binary.isNaN_convert (by decide), hnan]
    · by_contra hsingle
      rw [isInfinite_of_fitsSingle x hx (Bool.not_eq_false _ ▸ hsingle)] at hinf
      contradiction
  · intro h
    apply (fitsSingle_iff x).mpr
    intro hfin
    by_contra hover
    have hsingle := h hfin
    rw [singleOverflow_eq, Nat.not_lt] at hover
    have hinf : FloatFormat.binary32.infinity ≤
        FloatFormat.binary32.nearest (x.multiple * 2 ^ FloatFormat.binary32.quantum)
          (2 ^ FloatFormat.binary64.quantum) := by
      apply FloatFormat.infinity_le_nearest _ 253 _ _ rfl (Nat.two_pow_pos _)
      generalize 2 ^ FloatFormat.binary64.quantum = unit at hover ⊢
      have hquantum : FloatFormat.binary32.quantum = 149 := rfl
      have hbits : FloatFormat.binary32.fractionBits = 23 := rfl
      rw [hquantum, hbits]
      norm_num at hover ⊢
      omega
    have hmagnitude : (x.convert : Single).magnitude.val = FloatFormat.binary32.infinity := by
      rw [Binary.convert_of_isFinite x hfin]
      exact Nat.min_eq_right hinf
    rw [Binary.isFinite, hmagnitude] at hsingle
    simp at hsingle

theorem check_integer_eq_ok_iff (signed : Bool) (width : Nat) (value : Value) :
    (integer signed width).check value = .ok () ↔
      ∃ n, value = .int n ∧ (Packing.whole signed width).low ≤ n ∧
        n ≤ (Packing.whole signed width).high := by
  constructor
  · exact exists_int_of_check signed width value
  · rintro ⟨n, rfl, hn⟩
    rw [check_integer_int, if_pos hn]

theorem realOf_of_toDouble? (value : Value) (x : Double) (h : value.toDouble? = some x) :
    realOf value = .ok x := by
  cases value with
  | int n =>
      have hn : Double.ofInt? n = some x := h
      rw [realOf, nearestDouble, hn, Option.elim_some]
  | double y =>
      cases h
      rfl
  | _ => contradiction

theorem check_real_eq_ok_iff (p : Packing) (value : Value) :
    (⟨p, false⟩ : NumberType).check value = .ok () ↔
      ∃ x, value.toDouble? = some x ∧ (p.width = 4 → fitsSingle x = true) := by
  constructor
  · exact exists_double_of_check p value
  · rintro ⟨x, hx, hfits⟩
    rw [check_real, checkReal, realOf_of_toDouble? value x hx]
    by_cases hw : p.width = 4
    · simp [hw, hfits hw]
    · simp [hw]

-- The numbers that pass the check of a type are those that the type accepts.
theorem check_eq_ok_iff_accepts (t : NumberType) (ht : (WireType.number t).Standard)
    (value : Value) : t.check value = .ok () ↔ (WireType.number t).Accepts value := by
  cases ht with
  | whole signed width hw =>
      rw [check_integer_eq_ok_iff]
      cases signed with
      | true =>
          apply exists_congr
          intro n
          simp only [Packing.low, Packing.high, Packing.signed, Packing.width, if_true]
          apply and_congr_right
          intro _
          omega
      | false =>
          apply exists_congr
          intro n
          simp only [Packing.low, Packing.high, Packing.signed, Packing.width, Bool.false_eq_true,
            if_false]
          apply and_congr_right
          intro _
          omega
  | single =>
      rw [check_real_eq_ok_iff]
      apply exists_congr
      intro x
      rw [← fitsSingle_iff_convert]
      simp [Packing.width]
  | double =>
      rw [check_real_eq_ok_iff]
      simp [Packing.width, WireType.Accepts]

-- What is said of a number that is refused shows that number.
theorem isShowable_of_check_error (t : NumberType) {value : Value} {cause : MisfitCause}
    (h : t.check value = .error cause) :
    cause.shownValues.all Value.isShowable = true ↔
      ∀ n, value = .int n → (Value.int n).isShowable = true := by
  unfold check at h
  split at h
  · cases value with
    | int n =>
        simp only [checkIntegral] at h
        split at h
        · contradiction
        · cases h
          simp [MisfitCause.shownValues]
    | _ =>
        cases h
        simp [MisfitCause.shownValues]
  · unfold checkReal at h
    split at h
    next hreal =>
      cases h
      cases value with
      | int n =>
          simp only [realOf, nearestDouble] at hreal
          cases hdouble : Double.ofInt? n with
          | none =>
              rw [hdouble] at hreal
              cases hreal
              simp [MisfitCause.shownValues]
          | some x =>
              rw [hdouble] at hreal
              contradiction
      | double x => contradiction
      | _ =>
          cases hreal
          simp [MisfitCause.shownValues]
    next hreal =>
      split at h
      · cases h
        cases value with
        | int n => simp [MisfitCause.shownValues]
        | double x => simp [MisfitCause.shownValues, Value.isShowable]
        | _ => contradiction
      · contradiction

end NumberType

namespace WireType

variable {type : WireType} {value field : Value}

theorem exists_measure_iff_accepts (htype : type.Standard) :
    (∃ n, type.measure value field = .ok n) ↔ type.Accepts value := by
  cases type with
  | flag => simp [measure, Accepts]
  | number t =>
      rw [← t.check_eq_ok_iff_accepts htype]
      simp only [measure]
      cases t.check value with
      | ok => simp
      | error cause => simp
  | text =>
      cases value with
      | null | text t => simp [measure, textOf, Accepts]
      | _ => simp [measure, textOf, Accepts]

-- A value that does not fit is reported for the field that it was given for.
theorem field_of_measure_error {m : Misfit} (h : type.measure value field = .error m) :
    m.field = field := by
  cases type with
  | flag => contradiction
  | number t =>
      simp only [measure] at h
      split at h
      · contradiction
      · cases h
        rfl
  | text =>
      simp only [measure] at h
      split at h
      · contradiction
      · cases h
        rfl

-- A number that cannot be shown, in a field for numbers.
def Overlong (type : WireType) (value : Value) : Prop :=
  ∃ t n, type = number t ∧ value = .int n ∧ (Value.int n).isShowable = false

theorem isShowable_of_measure_error {m : Misfit} (h : type.measure value field = .error m) :
    m.cause.shownValues.all Value.isShowable = true ↔ ¬ type.Overlong value := by
  cases type with
  | flag => contradiction
  | number t =>
      simp only [measure] at h
      split at h
      · contradiction
      next cause hcheck =>
        cases h
        rw [t.isShowable_of_check_error hcheck]
        simp [Overlong]
  | text =>
      simp only [measure, textOf] at h
      have hnumber : ¬ text.Overlong value := by
        rintro ⟨t, n, htype, -⟩
        contradiction
      cases value with
      | null | text t => contradiction
      | _ =>
          cases h
          exact iff_of_true rfl hnumber

end WireType

end PacketCodec
