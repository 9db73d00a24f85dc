import PacketCodec.Proofs.Reader
import PacketCodec.Proofs.Wire.Format
import PacketCodec.Proofs.Wire.LittleEndian

namespace PacketCodec

namespace CodeUnit

theorem bytes_zero : CodeUnit.bytes 0 = [0, 0] := rfl

@[simp] theorem length_bytes (u : CodeUnit) : (CodeUnit.bytes u).length = 2 :=
  LittleEndian.length_encode _ _

@[simp] theorem length_flatMap_bytes (units : List CodeUnit) :
    (units.flatMap CodeUnit.bytes).length = 2 * units.length := by
  induction units with
  | nil => rfl
  | cons u units ih =>
      rw [List.flatMap_cons, List.length_append, length_bytes, ih, List.length_cons]
      omega

theorem decode_bytes (u : CodeUnit) : LittleEndian.decode (CodeUnit.bytes u) = u.val :=
  LittleEndian.decode_encode 2 u.val u.isLt

end CodeUnit

namespace Bytes

variable {b : Bytes} {pos whole : Nat}

theorem reads_take (count : Nat) :
    Reads (fun b pos => Bytes.take b pos count)
      fun bytes bytes' => bytes.length = count ∧ bytes' = bytes where
  sound b pos bytes stop h := by
    simp only [take, reserve] at h
    split at h
    · contradiction
    next hroom =>
      cases h
      have hlen := length_slice (b := b) pos (pos + count) (by omega)
      exact ⟨_, holds_slice b pos (pos + count), by omega, by omega, rfl⟩
  complete b pos bytes bytes' hpos hholds := by
    rintro ⟨rfl, rfl⟩
    have hstop := hholds.stop_le hpos
    simp only [take, reserve, if_neg (Nat.not_lt.mpr hstop), Except.map, hholds.slice_eq]
  extend b pos result more h := by
    simp only [take, reserve] at h ⊢
    split at h
    · contradiction
    next hroom =>
      cases h
      have hmore : ¬(b ++ more).size < pos + count := by rw [Array.size_append]; omega
      have hholds := (holds_slice b pos (pos + count)).append more
      have hslice := hholds.slice_eq
      rw [length_slice _ _ (by omega), Nat.add_sub_cancel_left] at hslice
      rw [if_neg hmore]
      simp only [Except.map, hslice]
  starve b pos t more h hmore := by
    simp only [take, reserve] at h ⊢
    split at h
    next hroom =>
      cases h
      have hstill : (b ++ more).size < pos + count := by
        rw [Array.size_append]
        simp only at hmore
        omega
      exact ⟨⟨pos, count, ((b ++ more).size - pos : Nat)⟩, by rw [if_pos hstill]; rfl, rfl⟩
    · contradiction

theorem unitAt_of_holds (u : CodeUnit) (h : b.Holds pos (CodeUnit.bytes u)) : b.unitAt pos = u := by
  have hslice := h.slice_eq
  rw [CodeUnit.length_bytes] at hslice
  rw [unitAt, hslice, CodeUnit.decode_bytes]
  exact Fin.ofNat_val_eq_self u

theorem holds_unitAt (h : pos + 2 ≤ b.size) : b.Holds pos (CodeUnit.bytes (b.unitAt pos)) := by
  have hlen : (b.slice pos (pos + 2)).length = 2 := by rw [length_slice _ _ h]; omega
  have hlt := LittleEndian.decode_lt (b.slice pos (pos + 2))
  rw [hlen] at hlt
  have hval : (b.unitAt pos).val = LittleEndian.decode (b.slice pos (pos + 2)) :=
    Nat.mod_eq_of_lt hlt
  have hbytes := LittleEndian.encode_decode (b.slice pos (pos + 2))
  rw [hlen] at hbytes
  rw [CodeUnit.bytes, hval, hbytes]
  exact holds_slice b pos (pos + 2)

-- Scanning ends behind the first zero unit, in front of which it has collected
-- the others.
theorem holds_of_takeUnits (before units : List CodeUnit) (stop : Nat)
    (hwhole : 2 * whole ≤ b.size - pos)
    (h : b.takeUnits whole pos before = .ok (units, stop)) :
    ∃ us : List CodeUnit, 0 ∉ us ∧ units = us.reverse ++ before ∧ stop = pos + (2 * us.length + 2) ∧
      b.Holds pos (us.flatMap CodeUnit.bytes ++ [0, 0]) := by
  induction whole generalizing pos before with
  | zero => contradiction
  | succ whole ih =>
      have hunit := @holds_unitAt b pos (by omega)
      simp only [takeUnits] at h
      split at h
      next hzero =>
        cases h
        rw [hzero, CodeUnit.bytes_zero] at hunit
        exact ⟨[], by simp, rfl, rfl, hunit⟩
      next hzero =>
        obtain ⟨us, hus, hunits, hstop, hholds⟩ := ih (b.unitAt pos :: before) (by omega) h
        refine ⟨b.unitAt pos :: us, ?_, ?_, ?_, ?_⟩
        · simpa [hus] using Ne.symm hzero
        · simp [hunits]
        · simp only [hstop, List.length_cons]
          omega
        · rw [List.flatMap_cons, List.append_assoc]
          exact holds_append.mpr ⟨hunit, hholds⟩

theorem takeUnits_of_holds (before us : List CodeUnit) (hus : 0 ∉ us)
    (hwhole : us.length < whole) (h : b.Holds pos (us.flatMap CodeUnit.bytes ++ [0, 0])) :
    b.takeUnits whole pos before = .ok (us.reverse ++ before, pos + (2 * us.length + 2)) := by
  induction us generalizing whole pos before with
  | nil =>
      obtain ⟨whole, rfl⟩ := Nat.exists_eq_succ_of_ne_zero (by omega : whole ≠ 0)
      rw [takeUnits, unitAt_of_holds 0 h, if_pos rfl]
      rfl
  | cons u us ih =>
      obtain ⟨whole, rfl⟩ := Nat.exists_eq_succ_of_ne_zero (by omega : whole ≠ 0)
      rw [List.flatMap_cons, List.append_assoc, holds_append] at h
      obtain ⟨hu, hrest⟩ := h
      rw [List.mem_cons, not_or] at hus
      rw [CodeUnit.length_bytes] at hrest
      rw [takeUnits, unitAt_of_holds u hu, if_neg (Ne.symm hus.1),
        ih (u :: before) hus.2 (by simpa using hwhole) hrest]
      simp only [List.reverse_cons, List.append_assoc, List.singleton_append, List.length_cons]
      congr 2
      omega

-- Scanning that finds no zero unit stops where less than a unit is left, and
-- does so in every longer buffer.
theorem takeUnits_error (before : List CodeUnit) (t : Truncation) (more : Bytes)
    (hwhole : 2 * whole ≤ b.size - pos) (h : b.takeUnits whole pos before = .error t) :
    t = ⟨pos + 2 * whole, 2, (b.size : Int) - (pos + 2 * whole : Nat)⟩ ∧
      ∃ t', (b ++ more).takeUnits whole pos before = .error t' ∧ t'.offset = t.offset := by
  induction whole generalizing pos before with
  | zero =>
      cases h
      exact ⟨rfl, _, rfl, rfl⟩
  | succ whole ih =>
      have hunit := (@holds_unitAt b pos (by omega)).append more
      simp only [takeUnits] at h
      split at h
      · contradiction
      next hzero =>
        obtain ⟨ht, t', ht', hoffset⟩ := ih (b.unitAt pos :: before) (by omega) h
        refine ⟨?_, t', ?_, hoffset⟩
        · simp only [ht, Truncation.mk.injEq, true_and]
          omega
        · rw [takeUnits, unitAt_of_holds _ hunit, if_neg hzero]
          exact ht'

theorem reads_takeText :
    Reads takeText fun bytes t => ∃ us : List CodeUnit, 0 ∉ us ∧
      bytes = us.flatMap CodeUnit.bytes ++ [0, 0] ∧ t = Text.ofUnits us where
  sound b pos t stop h := by
    cases hunits : b.takeUnits ((b.size - pos) / 2) pos [] with
    | error _ =>
        rw [takeText, hunits] at h
        contradiction
    | ok result =>
        rw [takeText, hunits] at h
        cases h
        obtain ⟨us, hus, hrev, hstop, hholds⟩ :=
          holds_of_takeUnits [] result.1 result.2 (by omega) hunits
        refine ⟨_, hholds, ?_, us, hus, rfl, ?_⟩
        · rw [hstop, List.length_append, CodeUnit.length_flatMap_bytes]
          rfl
        · rw [hrev, List.append_nil, List.reverse_reverse]
  complete b pos bytes t hpos hholds := by
    rintro ⟨us, hus, rfl, rfl⟩
    have hroom := hholds.length_le
    have hlen : (us.flatMap CodeUnit.bytes ++ [0, 0]).length = 2 * us.length + 2 := by
      rw [List.length_append, CodeUnit.length_flatMap_bytes]
      rfl
    rw [takeText, takeUnits_of_holds [] us hus (by omega) hholds, hlen, List.append_nil]
    simp only [Except.map, List.reverse_reverse]
  extend b pos result more h := by
    cases hunits : b.takeUnits ((b.size - pos) / 2) pos [] with
    | error _ =>
        rw [takeText, hunits] at h
        contradiction
    | ok scanned =>
        obtain ⟨us, hus, hrev, hstop, hholds⟩ :=
          holds_of_takeUnits [] scanned.1 scanned.2 (by omega) hunits
        have hroom := (hholds.append more).length_le
        rw [List.length_append, CodeUnit.length_flatMap_bytes, List.length_cons,
          List.length_singleton] at hroom
        have hsame : (b ++ more).takeUnits (((b ++ more).size - pos) / 2) pos [] = .ok scanned := by
          rw [takeUnits_of_holds [] us hus (by omega) (hholds.append more), ← hrev, ← hstop]
        rw [takeText, hunits] at h
        rw [takeText, hsame]
        exact h
  starve b pos t more h hmore := by
    cases hunits : b.takeUnits ((b.size - pos) / 2) pos [] with
    | ok _ =>
        rw [takeText, hunits] at h
        contradiction
    | error t =>
        rw [takeText, hunits] at h
        cases h
        obtain ⟨ht, t', ht', hoffset⟩ := takeUnits_error [] t more (by omega) hunits
        -- what is added does not complete one more unit
        have hcount : ((b ++ more).size - pos) / 2 = (b.size - pos) / 2 := by
          rw [ht] at hmore
          simp only [Array.size_append] at hmore ⊢
          omega
        exact ⟨t', by rw [takeText, hcount, ht']; rfl, hoffset⟩

end Bytes

namespace WireType

theorem reads (type : WireType) : Reads type.read type.Spells := by
  cases type with
  | flag =>
      refine ((Bytes.reads_take 1).map fun bytes =>
        Value.bool (LittleEndian.decode bytes != 0)).congr fun bytes value => ?_
      constructor
      · rintro ⟨_, ⟨hlen, rfl⟩, rfl⟩
        obtain ⟨b, rfl⟩ := List.length_eq_one_iff.mp hlen
        exact ⟨b, rfl, congrArg Value.bool (LittleEndian.decode_singleton_bne b)⟩
      · rintro ⟨b, rfl, rfl⟩
        exact ⟨[b], ⟨rfl, rfl⟩, congrArg Value.bool (LittleEndian.decode_singleton_bne b).symm⟩
  | number type =>
      refine ((Bytes.reads_take type.packing.width).map type.packing.unpack).congr
        fun bytes value => ?_
      constructor
      · rintro ⟨_, ⟨hlen, rfl⟩, rfl⟩
        exact ⟨hlen, rfl⟩
      · rintro ⟨hlen, rfl⟩
        exact ⟨bytes, ⟨hlen, rfl⟩, rfl⟩
  | text =>
      refine (Bytes.reads_takeText.map Value.text).congr fun bytes value => ?_
      constructor
      · rintro ⟨_, ⟨units, hunits, rfl, rfl⟩, rfl⟩
        exact ⟨units, hunits, rfl, rfl⟩
      · rintro ⟨units, hunits, rfl, rfl⟩
        exact ⟨_, ⟨units, hunits, rfl, rfl⟩, rfl⟩

end WireType

end PacketCodec
