import PacketCodec.Proofs.Number.Conversion
import PacketCodec.Proofs.Wire.Format
import PacketCodec.Proofs.Wire.LittleEndian

namespace PacketCodec

namespace NumberType

theorem fitsSingle_iff (x : Double) :
    fitsSingle x = true ↔ (x.isFinite = true → x.multiple < singleOverflow) := by
  simp only [fitsSingle, Bool.or_eq_true, Bool.not_eq_true', decide_eq_true_eq]
  cases x.isFinite <;> simp

theorem singleOverflow_eq :
    singleOverflow = (2 ^ 128 - 2 ^ 103) * 2 ^ FloatFormat.binary64.quantum := by
  rw [singleOverflow]

-- What passes the check of singles does not overflow.
theorem isInfinite_of_fitsSingle (x : Double) (hx : fitsSingle x = true)
    (hinf : (x.convert : Single).isInfinite = true) : x.isInfinite = true := by
  rcases x.isFinite_or with hfin | h | hnan
  · have hbelow := (fitsSingle_iff x).mp hx hfin
    rw [singleOverflow_eq] at hbelow
    have hlt : FloatFormat.binary32.nearest (x.multiple * 2 ^ FloatFormat.binary32.quantum)
        (2 ^ FloatFormat.binary64.quantum) < FloatFormat.binary32.infinity := by
      apply FloatFormat.nearest_lt_infinity _ 253 _ _ rfl
      generalize 2 ^ FloatFormat.binary64.quantum = unit at hbelow ⊢
      have hquantum : FloatFormat.binary32.quantum = 149 := rfl
      have hbits : FloatFormat.binary32.fractionBits = 23 := rfl
      rw [hquantum, hbits]
      norm_num at hbelow ⊢
      omega
    have heq : min _ FloatFormat.binary32.infinity = FloatFormat.binary32.infinity :=
      of_decide_eq_true (by rw [← hinf, Binary.convert_of_isFinite x hfin]; rfl)
    omega
  · exact h
  · have hsingle : (x.convert : Single).isNaN = true := by
      rw [Binary.isNaN_convert (by decide), hnan]
    simp only [Binary.isInfinite, Binary.isNaN, decide_eq_true_eq] at hinf hsingle
    omega

-- Every single passes the check of singles.
theorem fitsSingle_of_single (x : Single) : fitsSingle x.convert = true := by
  rw [fitsSingle_iff]
  intro hwide
  have hfin : x.isFinite = true := by
    rcases x.isFinite_or with h | h | h
    · exact h
    · rw [Binary.isFinite_iff, Single.isInfinite_convert x h] at hwide
      simp at hwide
    · rw [Binary.isFinite_iff, Binary.isNaN_convert (by decide), h] at hwide
      simp at hwide
  obtain ⟨-, hmul, -⟩ := Single.convert_finite x hfin
  obtain ⟨exponent, significand, hhigh, hexp, hsingle, -, -⟩ :=
    FloatFormat.binary32.exists_significand x.magnitude.val
  have hexponent : exponent ≤ 253 := by
    have hlt : x.magnitude.val < FloatFormat.binary32.infinity := of_decide_eq_true hfin
    simp only [FloatFormat.infinity, FloatFormat.binary32] at hexp hlt
    omega
  -- the largest single is one unit of its last place below the power of two
  have hmax : x.multiple ≤ (2 ^ 24 - 1) * 2 ^ 253 := by
    rw [Binary.multiple, hsingle]
    exact Nat.mul_le_mul (Nat.le_sub_one_of_lt hhigh) (Nat.pow_le_pow_right (by decide) hexponent)
  have hpos : 0 < 2 ^ FloatFormat.binary64.quantum := Nat.two_pow_pos _
  have hquantum : FloatFormat.binary32.quantum = 149 := rfl
  rw [hquantum] at hmul
  rw [singleOverflow_eq]
  generalize 2 ^ FloatFormat.binary64.quantum = unit at hmul hpos ⊢
  have hscaled := Nat.mul_le_mul_right unit hmax
  norm_num at hscaled hmul ⊢
  omega

theorem check_integer_int (signed : Bool) (width : Nat) (n : Int) :
    (integer signed width).check (.int n) =
      if (Packing.whole signed width).low ≤ n ∧ n ≤ (Packing.whole signed width).high then .ok ()
      else .error (.outOfRange n (Packing.whole signed width).low
        (Packing.whole signed width).high) := by
  have h :
      (integer signed width).check (.int n) = checkIntegral (.whole signed width) (.int n) := by
    rw [check, if_pos (by rfl)]
    rfl
  rw [h, checkIntegral]

theorem check_real (p : Packing) (value : Value) :
    (⟨p, false⟩ : NumberType).check value = checkReal p value := by
  rw [check, if_neg Bool.false_ne_true]

theorem exists_int_of_check (signed : Bool) (width : Nat) (value : Value)
    (h : (integer signed width).check value = .ok ()) :
    ∃ n, value = .int n ∧ (Packing.whole signed width).low ≤ n ∧
      n ≤ (Packing.whole signed width).high := by
  cases value with
  | int n =>
      rw [check_integer_int] at h
      split at h
      next hn => exact ⟨n, rfl, hn⟩
      · contradiction
  | _ => simp [check, integer, checkIntegral] at h

theorem eq_some_of_elim_eq_ok {α ε : Type} (o : Option α) (e : ε) (a : α)
    (h : o.elim (.error e) Except.ok = .ok a) : o = some a := by
  cases o with
  | none => contradiction
  | some b =>
      cases h
      rfl

theorem toDouble?_of_realOf (value : Value) (x : Double) (h : realOf value = .ok x) :
    value.toDouble? = some x := by
  cases value with
  | int n =>
      have hn : nearestDouble n = .ok x := h
      exact eq_some_of_elim_eq_ok _ _ _ hn
  | double y =>
      cases h
      rfl
  | _ => contradiction

theorem exists_double_of_check (p : Packing) (value : Value)
    (h : (⟨p, false⟩ : NumberType).check value = .ok ()) :
    ∃ x, value.toDouble? = some x ∧ (p.width = 4 → fitsSingle x = true) := by
  rw [check_real, checkReal] at h
  split at h
  · contradiction
  next x hx =>
    refine ⟨x, toDouble?_of_realOf value x hx, fun hw => ?_⟩
    by_contra hover
    simp [hw, hover] at h

theorem check_double (p : Packing) (x : Double) (h : p.width = 4 → fitsSingle x = true) :
    (⟨p, false⟩ : NumberType).check (.double x) = .ok () := by
  have hreal : realOf (.double x) = .ok x := rfl
  rw [check_real, checkReal, hreal]
  by_cases hw : p.width = 4
  · simp [hw, h hw]
  · simp [hw]

end NumberType

namespace Binary

-- Numbers of a format that fills a number of bytes, as bytes and back.
theorem ofBits_decode_encode {f : FloatFormat} (width : Nat)
    (hw : 2 ^ (f.magnitudeBits + 1) = 256 ^ width) (x : Binary f) :
    ofBits (LittleEndian.decode (LittleEndian.encode width x.toBits)) = x := by
  rw [LittleEndian.decode_encode _ _ (by rw [← hw]; exact x.toBits_lt), ofBits_toBits]

theorem encode_toBits_ofBits {f : FloatFormat} (bytes : List UInt8)
    (hw : 2 ^ (f.magnitudeBits + 1) = 256 ^ bytes.length) :
    LittleEndian.encode bytes.length (ofBits (LittleEndian.decode bytes) : Binary f).toBits =
      bytes := by
  rw [toBits_ofBits _ (by rw [hw]; exact LittleEndian.decode_lt bytes), LittleEndian.encode_decode]

end Binary

theorem two_pow_binary32 : 2 ^ (FloatFormat.binary32.magnitudeBits + 1) = 256 ^ 4 := rfl

theorem two_pow_binary64 : 2 ^ (FloatFormat.binary64.magnitudeBits + 1) = 256 ^ 8 := rfl

namespace Packing

theorem unpack_encodeInt (signed : Bool) (width : Nat) (n : Int) (hw : 0 < width)
    (hlow : (whole signed width).low ≤ n) (hhigh : n ≤ (whole signed width).high) :
    (whole signed width).unpack (LittleEndian.encodeInt width n) = .int n := by
  cases signed with
  | true => exact congrArg Value.int (LittleEndian.decodeInt_encodeInt width n hw hlow hhigh)
  | false => exact congrArg Value.int (LittleEndian.decode_encodeInt width n hlow hhigh)

-- Every sequence of bytes is a whole number in the range of its packing, and
-- the only spelling of that number.
theorem exists_int_of_unpack (signed : Bool) (bytes : List UInt8) (hw : 0 < bytes.length) :
    ∃ n, (whole signed bytes.length).unpack bytes = .int n ∧
      (whole signed bytes.length).low ≤ n ∧ n ≤ (whole signed bytes.length).high ∧
      LittleEndian.encodeInt bytes.length n = bytes := by
  cases signed with
  | true =>
      obtain ⟨hlow, hhigh⟩ := LittleEndian.decodeInt_mem_range bytes hw
      exact ⟨_, rfl, hlow, hhigh, LittleEndian.encodeInt_decodeInt bytes⟩
  | false =>
      have hrange : (256 : Int) ^ bytes.length = 2 ^ (8 * bytes.length) := by
        rw [pow_mul]; norm_num
      have hlt : (LittleEndian.decode bytes : Int) < 256 ^ bytes.length := by
        exact_mod_cast LittleEndian.decode_lt bytes
      have hhigh : (LittleEndian.decode bytes : Int) ≤ 2 ^ (8 * bytes.length) - 1 := by omega
      exact ⟨_, rfl, Int.natCast_nonneg _, hhigh, LittleEndian.encodeInt_decode bytes⟩

end Packing

namespace NumberType

-- A number that passes its check is stored in its width and comes back in its
-- normal form.
theorem pack?_of_check (t : NumberType) (ht : (WireType.number t).Standard) (value : Value)
    (h : t.check value = .ok ()) :
    t.packing.pack? value = some (t.packing.encoding value) ∧
      (t.packing.encoding value).length = t.packing.width ∧
      t.packing.unpack (t.packing.encoding value) = t.packing.normal value := by
  cases ht with
  | whole signed width hw =>
      obtain ⟨n, rfl, hlow, hhigh⟩ := exists_int_of_check signed width value h
      exact ⟨if_pos ⟨hlow, hhigh⟩, LittleEndian.length_encodeInt width n,
        Packing.unpack_encodeInt signed width n hw hlow hhigh⟩
  | single =>
      obtain ⟨x, hx, hfits⟩ := exists_double_of_check .single value h
      have hinf : ((x.convert : Single).isInfinite && !x.isInfinite) = false := by
        rw [← Bool.not_eq_true, Bool.and_eq_true]
        rintro ⟨hsingle, hdouble⟩
        simp [isInfinite_of_fitsSingle x (hfits rfl) hsingle] at hdouble
      refine ⟨?_, ?_, ?_⟩
      · simp only [Packing.pack?, Packing.encoding, hx, hinf, Bool.false_eq_true, if_false]
      · simp only [Packing.encoding, hx, LittleEndian.length_encode, Packing.width]
      · simp only [Packing.encoding, Packing.unpack, Packing.normal, hx,
          Binary.ofBits_decode_encode 4 two_pow_binary32]
  | double =>
      obtain ⟨x, hx, -⟩ := exists_double_of_check .double value h
      refine ⟨?_, ?_, ?_⟩
      · simp only [Packing.pack?, Packing.encoding, hx, Option.map_some]
      · simp only [Packing.encoding, hx, LittleEndian.length_encode, Packing.width]
      · simp only [Packing.encoding, Packing.unpack, Packing.normal, hx,
          Binary.ofBits_decode_encode 8 two_pow_binary64]

-- Bytes of the right length are a number that passes the check, and are stored
-- again as the same number.
theorem check_unpack (t : NumberType) (ht : (WireType.number t).Standard) (bytes : List UInt8)
    (hb : bytes.length = t.packing.width) :
    t.check (t.packing.unpack bytes) = .ok () ∧
      (WireType.number t).Rewritten bytes (t.packing.encoding (t.packing.unpack bytes)) := by
  cases ht with
  | whole signed width hw =>
      obtain rfl : bytes.length = width := hb
      obtain ⟨n, hn, hlow, hhigh, hbytes⟩ := Packing.exists_int_of_unpack signed bytes hw
      simp only [integer, hn]
      exact ⟨(check_integer_int _ _ n).trans (if_pos ⟨hlow, hhigh⟩), rfl, hbytes⟩
  | single =>
      have hlen : bytes.length = 4 := hb
      have hbits : LittleEndian.encode 4
          (Binary.ofBits (LittleEndian.decode bytes) : Single).toBits = bytes := by
        rw [← hlen]
        exact Binary.encode_toBits_ofBits bytes (by rw [hlen]; exact two_pow_binary32)
      simp only [Packing.unpack, Packing.encoding, Value.toDouble?]
      generalize hx : (Binary.ofBits (LittleEndian.decode bytes) : Single) = x at hbits ⊢
      refine ⟨check_double .single _ fun _ => fitsSingle_of_single x, hlen, ?_, ?_⟩
      · rw [LittleEndian.length_encode, hlen]
      · by_cases hnan : x.isNaN = true
        · right
          rw [Binary.ofBits_decode_encode 4 two_pow_binary32, hx, Binary.isNaN_convert (by decide),
            Binary.isNaN_convert (by decide), Binary.negative_convert, Binary.negative_convert]
          exact ⟨hnan, hnan, rfl⟩
        · left
          rw [Single.convert_convert x (Bool.not_eq_true _ ▸ hnan), hbits]
  | double =>
      have hlen : bytes.length = 8 := hb
      have hbits : LittleEndian.encode 8
          (Binary.ofBits (LittleEndian.decode bytes) : Double).toBits = bytes := by
        rw [← hlen]
        exact Binary.encode_toBits_ofBits bytes (by rw [hlen]; exact two_pow_binary64)
      simp only [Packing.unpack, Packing.encoding, Value.toDouble?]
      refine ⟨check_double .double _ fun hw => absurd hw (by decide), hlen, ?_, .inl hbits⟩
      rw [LittleEndian.length_encode, hlen]

end NumberType

end PacketCodec
