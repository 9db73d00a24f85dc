import PacketCodec.Proofs.Except
import PacketCodec.Proofs.Wire.Reading

-- Reading where each access to the buffer is checked at the place where it is
-- made: single bytes, bytes that are unpacked as a number, bytes that are taken
-- for a text. None of these checks ever fails, for the room in the buffer has
-- been made sure of before.

namespace PacketCodec

inductive ReadFault where
  | truncated (t : Truncation)
  | outOfBounds
  | unpackable
  | undecodable

namespace Bytes

variable {b : Bytes} {pos whole : Nat}

def byteAt (b : Bytes) (i : Nat) : Except ReadFault UInt8 :=
  b[i]?.elim (.error .outOfBounds) .ok

def unpackAt (b : Bytes) (pos count : Nat) : Except ReadFault (List UInt8) :=
  if b.size < pos + count then .error .unpackable else .ok (b.slice pos (pos + count))

def takeGuarded (b : Bytes) (pos count : Nat) : Except ReadFault (List UInt8 × Nat) := do
  let stop ← (b.reserve pos count).mapError .truncated
  let bytes ← b.unpackAt pos count
  return (bytes, stop)

-- The position of the next zero unit. The second byte of a unit is looked at only
-- if the first one is zero.
def terminator (b : Bytes) (pos : Nat) : Except ReadFault Nat :=
  if (b.size : Int) - pos < 2 then .error (.truncated ⟨pos, 2, (b.size : Int) - pos⟩)
  else
    match b.byteAt pos with
    | .error fault => .error fault
    | .ok low =>
      if low ≠ 0 then terminator b (pos + 2)
      else
        match b.byteAt (pos + 1) with
        | .error fault => .error fault
        | .ok high => if high ≠ 0 then terminator b (pos + 2) else .ok pos
termination_by b.size - pos

-- An odd byte at the end belongs to no unit.
def units? : List UInt8 → Option (List CodeUnit)
  | [] => some []
  | [_] => none
  | low :: high :: rest =>
    (units? rest).map (Fin.ofNat 0x10000 (LittleEndian.decode [low, high]) :: ·)

def decodeText (bytes : List UInt8) : Except ReadFault Text :=
  (units? bytes).elim (.error .undecodable) fun us => .ok (Text.ofUnits us)

def takeTextGuarded (b : Bytes) (pos : Nat) : Except ReadFault (Text × Nat) := do
  let stop ← b.terminator pos
  if stop = pos then .ok ([], stop + 2)
  else
    let t ← decodeText (b.slice pos stop)
    return (t, stop + 2)

theorem byteAt_of_lt {i : Nat} (h : i < b.size) : b.byteAt i = .ok b[i] := by
  rw [byteAt, Array.getElem?_eq_getElem h]
  rfl

theorem takeGuarded_eq (b : Bytes) (pos count : Nat) :
    b.takeGuarded pos count = (Bytes.take b pos count).mapError .truncated := by
  by_cases hroom : b.size < pos + count
  · simp only [takeGuarded, take, reserve, if_pos hroom]
    rfl
  · simp only [takeGuarded, take, reserve, unpackAt, if_neg hroom]
    rfl

theorem slice_one (h : pos < b.size) : b.slice pos (pos + 1) = [b[pos]] := by
  have hfirst : pos < b.toList.length := by rwa [Array.length_toList]
  rw [slice_eq, List.drop_eq_getElem_cons hfirst, Nat.add_sub_cancel_left]
  simp

theorem slice_two (h : pos + 2 ≤ b.size) : b.slice pos (pos + 2) = [b[pos], b[pos + 1]] := by
  have hfirst : pos < b.toList.length := by rw [Array.length_toList]; omega
  have hsecond : pos + 1 < b.toList.length := by rw [Array.length_toList]; omega
  rw [slice_eq, List.drop_eq_getElem_cons hfirst, List.drop_eq_getElem_cons hsecond,
    Nat.add_sub_cancel_left]
  simp

theorem unitAt_eq_zero_iff (h : pos + 2 ≤ b.size) :
    b.unitAt pos = 0 ↔ b[pos] = 0 ∧ b[pos + 1] = 0 := by
  have hlow : b[pos].toNat < 256 := b[pos].toNat_lt
  have hhigh : b[pos + 1].toNat < 256 := b[pos + 1].toNat_lt
  rw [unitAt, slice_two h, ← UInt8.toNat_inj, ← UInt8.toNat_inj, ← Fin.val_inj]
  simp only [LittleEndian.decode, Fin.ofNat, UInt8.toNat_ofNat, Fin.val_zero]
  omega

theorem terminator_of_short (h : b.size < pos + 2) :
    b.terminator pos = .error (.truncated ⟨pos, 2, (b.size : Int) - pos⟩) := by
  rw [terminator, if_pos (by omega)]

-- Going on by one unit looks at two bytes that are there.
theorem terminator_step (h : pos + 2 ≤ b.size) :
    b.terminator pos = if b.unitAt pos = 0 then .ok pos else b.terminator (pos + 2) := by
  rw [terminator, if_neg (by omega), byteAt_of_lt (by omega), byteAt_of_lt (by omega)]
  simp only [unitAt_eq_zero_iff h]
  by_cases hlow : b[pos] = 0
  · by_cases hhigh : b[pos + 1] = 0
    · simp [hlow, hhigh]
    · simp [hlow, hhigh]
  · simp [hlow]

theorem terminator_of_holds (us : List CodeUnit) (hus : 0 ∉ us) (hpos : pos ≤ b.size)
    (h : b.Holds pos (us.flatMap CodeUnit.bytes ++ [0, 0])) :
    b.terminator pos = .ok (pos + 2 * us.length) := by
  induction us generalizing pos with
  | nil =>
      have hroom := h.stop_le hpos
      rw [terminator_step hroom, if_pos (unitAt_of_holds 0 h)]
      rfl
  | cons u us ih =>
      rw [List.flatMap_cons, List.append_assoc, holds_append, CodeUnit.length_bytes] at h
      obtain ⟨hu, hrest⟩ := h
      rw [List.mem_cons, not_or] at hus
      have hroom := hu.stop_le hpos
      rw [CodeUnit.length_bytes] at hroom
      rw [terminator_step hroom, unitAt_of_holds u hu, if_neg (Ne.symm hus.1),
        ih hus.2 hroom hrest, List.length_cons]
      congr 1
      omega

-- Both scans give up at the same place.
theorem terminator_of_takeUnits_error (before : List CodeUnit) {t : Truncation}
    (hwhole : whole = (b.size - pos) / 2) (h : b.takeUnits whole pos before = .error t) :
    b.terminator pos = .error (.truncated t) := by
  induction whole generalizing pos before with
  | zero =>
      cases h
      exact terminator_of_short (by omega)
  | succ whole ih =>
      simp only [takeUnits] at h
      split at h
      · contradiction
      next hzero =>
        rw [terminator_step (by omega), if_neg hzero]
        exact ih _ (by omega) h

theorem units?_flatMap_bytes (us : List CodeUnit) :
    units? (us.flatMap CodeUnit.bytes) = some us := by
  induction us with
  | nil => rfl
  | cons u us ih =>
      have hunit : Fin.ofNat 0x10000 (LittleEndian.decode (CodeUnit.bytes u)) = u := by
        rw [CodeUnit.decode_bytes]
        exact Fin.ofNat_val_eq_self u
      obtain ⟨low, high, hbytes⟩ := List.length_eq_two.mp (CodeUnit.length_bytes u)
      rw [hbytes] at hunit
      rw [List.flatMap_cons, hbytes, List.cons_append, List.cons_append, List.nil_append, units?,
        ih, Option.map_some, hunit]

theorem takeTextGuarded_eq (b : Bytes) (pos : Nat) :
    b.takeTextGuarded pos = (b.takeText pos).mapError .truncated := by
  cases hunits : b.takeUnits ((b.size - pos) / 2) pos [] with
  | error t =>
      rw [takeTextGuarded, terminator_of_takeUnits_error [] rfl hunits, takeText, hunits]
      rfl
  | ok result =>
      obtain ⟨us, hus, hrev, hstop, hholds⟩ :=
        holds_of_takeUnits [] result.1 result.2 (by omega) hunits
      have hroom := hholds.length_le
      rw [List.length_append, List.length_cons] at hroom
      have hslice := (holds_append.mp hholds).1.slice_eq
      rw [CodeUnit.length_flatMap_bytes] at hslice
      rw [List.append_nil] at hrev
      have hend : result.2 = pos + 2 * us.length + 2 := hstop
      rw [takeTextGuarded, terminator_of_holds us hus (by omega) hholds, ok_bind, takeText, hunits]
      by_cases hnone : us = []
      · subst hnone
        simp [Except.map, mapError_ok, hrev, hend, Text.ofUnits]
      · have hlen : us.length ≠ 0 := fun h => hnone (List.length_eq_zero_iff.mp h)
        rw [if_neg (by omega), hslice, decodeText, units?_flatMap_bytes]
        simp [Except.map, mapError_ok, hrev, hend, ok_bind, pure, Except.pure]

end Bytes

namespace WireType

def readGuarded (type : WireType) (buffer : Bytes) (pos : Nat) :
    Except ReadFault (Value × Nat) :=
  match type with
  | flag => do
    let stop ← (buffer.reserve pos 1).mapError .truncated
    let b ← buffer.byteAt pos
    return (.bool (b != 0), stop)
  | number type => do
    let (bytes, stop) ← buffer.takeGuarded pos type.packing.width
    return (type.packing.unpack bytes, stop)
  | text => do
    let (t, stop) ← buffer.takeTextGuarded pos
    return (.text t, stop)

theorem readGuarded_eq (type : WireType) (buffer : Bytes) (pos : Nat) :
    type.readGuarded buffer pos = (type.read buffer pos).mapError .truncated := by
  cases type with
  | flag =>
      simp only [readGuarded, read, Bytes.take, Bytes.reserve]
      by_cases hroom : buffer.size < pos + 1
      · simp only [if_pos hroom]
        rfl
      · have hslice : buffer.slice pos (pos + 1) = [buffer[pos]] := Bytes.slice_one (by omega)
        simp only [if_neg hroom, Bytes.byteAt_of_lt (by omega : pos < buffer.size), Except.map,
          hslice, LittleEndian.decode_singleton_bne]
        rfl
  | number type =>
      rw [readGuarded, Bytes.takeGuarded_eq, read, mapError_map]
      cases Bytes.take buffer pos type.packing.width <;> rfl
  | text =>
      rw [readGuarded, Bytes.takeTextGuarded_eq, read, mapError_map]
      cases buffer.takeText pos <;> rfl

end WireType

end PacketCodec
