import Mathlib.Tactic.Positivity
import Mathlib.Tactic.Ring
import Mathlib.Tactic.Zify
import PacketCodec.Wire.LittleEndian

namespace PacketCodec.LittleEndian

@[simp] theorem length_encode (width n : Nat) : (encode width n).length = width := by
  induction width generalizing n with
  | zero => rfl
  | succ width ih => simp [encode, ih]

theorem decode_lt (bytes : List UInt8) : decode bytes < 256 ^ bytes.length := by
  induction bytes with
  | nil => simp [decode]
  | cons b rest ih =>
      have hb : b.toNat < 256 := b.toNat_lt
      simp only [decode, List.length_cons, Nat.pow_succ]
      omega

theorem decode_encode (width n : Nat) (hn : n < 256 ^ width) : decode (encode width n) = n := by
  induction width generalizing n with
  | zero => simp only [Nat.pow_zero, Nat.lt_one_iff] at hn; simp [encode, decode, hn]
  | succ width ih =>
      have hquot : n / 256 < 256 ^ width := by
        rw [Nat.pow_succ] at hn
        exact Nat.div_lt_of_lt_mul (by omega)
      have hlow : (UInt8.ofNat (n % 256)).toNat = n % 256 := by simp
      rw [encode, decode, ih _ hquot, hlow]
      omega

theorem encode_decode (bytes : List UInt8) : encode bytes.length (decode bytes) = bytes := by
  induction bytes with
  | nil => rfl
  | cons b rest ih =>
      have hb : b.toNat < 256 := b.toNat_lt
      have hlow : (b.toNat + 256 * decode rest) % 256 = b.toNat := by omega
      have hhigh : (b.toNat + 256 * decode rest) / 256 = decode rest := by omega
      rw [List.length_cons, decode, encode, hlow, hhigh, ih, UInt8.ofNat_toNat]

-- A single byte stands for zero only if it is zero.
theorem decode_singleton_bne (b : UInt8) : (decode [b] != 0) = (b != 0) := by
  rw [Bool.eq_iff_iff, bne_iff_ne, bne_iff_ne, not_iff_not, decode, decode, Nat.mul_zero,
    Nat.add_zero, ← UInt8.toNat_inj]
  rfl

-- A byte count that is not zero holds an even number of values, half of them
-- for the numbers below zero.
theorem two_mul_half (width : Nat) (hw : 0 < width) :
    (256 : Int) ^ width = 2 * 2 ^ (8 * width - 1) := by
  have hbits : 8 * width = (8 * width - 1) + 1 := by omega
  calc
    (256 : Int) ^ width = 2 ^ (8 * width) := by rw [pow_mul]; norm_num
    _ = 2 * 2 ^ (8 * width - 1) := by rw [hbits, pow_succ]; simp [mul_comm]

@[simp] theorem length_encodeInt (width : Nat) (n : Int) : (encodeInt width n).length = width := by
  simp [encodeInt]

-- Only the low bytes are written.
theorem encode_mod (width n : Nat) : encode width (n % 256 ^ width) = encode width n := by
  induction width generalizing n with
  | zero => rfl
  | succ width ih =>
      have hlow : n % (256 * 256 ^ width) % 256 = n % 256 := Nat.mod_mul_right_mod n 256 _
      have hhigh : n % (256 * 256 ^ width) / 256 = n / 256 % 256 ^ width :=
        Nat.mod_mul_right_div_self n 256 _
      rw [Nat.pow_succ', encode, encode, hlow, hhigh, ih]

theorem encodeInt_natCast (width n : Nat) : encodeInt width n = encode width n := by
  have hmod : ((n : Int) % 256 ^ width).toNat = n % 256 ^ width := by
    rw [← Int.toNat_natCast (n % 256 ^ width)]
    push_cast
    rfl
  rw [encodeInt, hmod, encode_mod]

theorem decodeInt_encodeInt (width : Nat) (n : Int) (hw : 0 < width)
    (hlow : -2 ^ (8 * width - 1) ≤ n) (hhigh : n ≤ 2 ^ (8 * width - 1) - 1) :
    decodeInt (encodeInt width n) = n := by
  have hhalf := two_mul_half width hw
  have hpos : (0 : Int) < 256 ^ width := by positivity
  have hres : (((n % 256 ^ width).toNat : Nat) : Int) = n % 256 ^ width :=
    Int.toNat_of_nonneg (Int.emod_nonneg _ hpos.ne')
  have hlt : (n % 256 ^ width).toNat < 256 ^ width := by
    have := Int.emod_lt_of_pos n hpos
    zify
    omega
  simp only [decodeInt, encodeInt, length_encode, decode_encode width _ hlt]
  by_cases hn : 0 ≤ n
  · have hmod : n % 256 ^ width = n := Int.emod_eq_of_lt hn (by omega)
    rw [if_pos (by zify; omega), hres, hmod]
  · -- below zero the residue is the number raised by the whole range
    have hmod : n % 256 ^ width = n + 256 ^ width := by
      rw [← Int.add_emod_right]
      exact Int.emod_eq_of_lt (by omega) (by omega)
    rw [if_neg (by zify; omega), hres, hmod]
    omega

theorem decode_encodeInt (width : Nat) (n : Int) (hlow : 0 ≤ n) (hhigh : n ≤ 2 ^ (8 * width) - 1) :
    (decode (encodeInt width n) : Int) = n := by
  have hrange : (256 : Int) ^ width = 2 ^ (8 * width) := by rw [pow_mul]; norm_num
  have hmod : n % 256 ^ width = n := Int.emod_eq_of_lt hlow (by omega)
  have hlt : n.toNat < 256 ^ width := by zify; omega
  rw [encodeInt, hmod, decode_encode width _ hlt, Int.toNat_of_nonneg hlow]

theorem encodeInt_decode (bytes : List UInt8) :
    encodeInt bytes.length (decode bytes) = bytes := by
  have hlt := decode_lt bytes
  have hmod : (decode bytes : Int) % 256 ^ bytes.length = decode bytes :=
    Int.emod_eq_of_lt (by omega) (by exact_mod_cast hlt)
  rw [encodeInt, hmod, Int.toNat_natCast, encode_decode]

theorem encodeInt_decodeInt (bytes : List UInt8) :
    encodeInt bytes.length (decodeInt bytes) = bytes := by
  have hmod : decodeInt bytes % 256 ^ bytes.length = (decode bytes : Int) % 256 ^ bytes.length := by
    simp only [decodeInt]
    split
    · rfl
    · exact Int.sub_emod_right _ _
  rw [encodeInt, hmod]
  exact encodeInt_decode bytes

theorem decodeInt_mem_range (bytes : List UInt8) (hw : 0 < bytes.length) :
    -2 ^ (8 * bytes.length - 1) ≤ decodeInt bytes ∧
      decodeInt bytes ≤ 2 ^ (8 * bytes.length - 1) - 1 := by
  have hhalf := two_mul_half bytes.length hw
  have hlt : (decode bytes : Int) < 256 ^ bytes.length := by exact_mod_cast decode_lt bytes
  simp only [decodeInt]
  split
  next h => zify at h; omega
  next h => zify at h; omega

end PacketCodec.LittleEndian
