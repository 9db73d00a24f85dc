import PacketCodec.Proofs.Text.Utf16
import PacketCodec.Proofs.Value.Parts
import PacketCodec.Proofs.Wire.Number
import PacketCodec.Proofs.Wire.Reading

namespace PacketCodec

namespace WriteCursor

theorem put_append (cursor : WriteCursor) (first second : List UInt8) :
    cursor.put (first ++ second) = (cursor.put first).put second :=
  List.foldl_append

theorem put_cons (cursor : WriteCursor) (b : UInt8) (bytes : List UInt8) :
    cursor.put (b :: bytes) = (cursor.putByte b).put bytes := rfl

theorem putByte_of_lt (cursor : WriteCursor) (b : UInt8) (h : cursor.pos < cursor.buffer.size) :
    cursor.putByte b = ⟨cursor.buffer.set cursor.pos b, cursor.pos + 1⟩ := by
  rw [putByte, dif_pos h]

@[simp] theorem pos_put (cursor : WriteCursor) (bytes : List UInt8) :
    (cursor.put bytes).pos = cursor.pos + bytes.length := by
  induction bytes generalizing cursor with
  | nil => rfl
  | cons b bytes ih =>
      have hpos : (cursor.putByte b).pos = cursor.pos + 1 := rfl
      rw [put_cons, ih, hpos, List.length_cons]
      omega

-- Only the bytes at the cursor are replaced. A buffer that is too short for them
-- grows.
theorem toList_put (cursor : WriteCursor) (bytes : List UInt8) :
    (cursor.put bytes).buffer.toList =
      cursor.buffer.toList.take cursor.pos ++ bytes ++
        cursor.buffer.toList.drop (cursor.pos + bytes.length) := by
  induction bytes generalizing cursor with
  | nil => simp [put]
  | cons b bytes ih =>
      rw [put_cons, ih, List.length_cons]
      by_cases hlt : cursor.pos < cursor.buffer.size
      · have hlist : cursor.pos < cursor.buffer.toList.length := by rwa [Array.length_toList]
        have htake : (cursor.buffer.toList.set cursor.pos b).take (cursor.pos + 1) =
            cursor.buffer.toList.take cursor.pos ++ [b] := by
          rw [List.take_add_one, List.getElem?_set_self hlist, List.take_set_of_le (Nat.le_refl _)]
          rfl
        have hdrop : (cursor.buffer.toList.set cursor.pos b).drop (cursor.pos + 1 + bytes.length) =
            cursor.buffer.toList.drop (cursor.pos + (bytes.length + 1)) := by
          rw [List.drop_set_of_lt (by omega), Nat.add_assoc, Nat.add_comm 1]
        rw [putByte_of_lt cursor b hlt]
        simp only [Array.toList_set]
        rw [htake, hdrop, List.append_assoc _ [b], List.singleton_append]
      · have hlen : cursor.buffer.toList.length ≤ cursor.pos := by
          rw [Array.length_toList]
          omega
        have hpush : (cursor.putByte b).buffer.toList = cursor.buffer.toList ++ [b] := by
          rw [putByte, dif_neg hlt, Array.toList_push]
        have hpos : (cursor.putByte b).pos = cursor.pos + 1 := rfl
        rw [hpush, hpos, List.take_of_length_le (by simpa using hlen), List.take_of_length_le hlen,
          List.drop_of_length_le (by rw [List.length_append, List.length_singleton]; omega),
          List.drop_of_length_le (by omega), List.append_assoc _ [b], List.singleton_append]

-- With room for the bytes the buffer keeps its size.
theorem size_put (cursor : WriteCursor) (bytes : List UInt8)
    (h : cursor.pos + bytes.length ≤ cursor.buffer.size) :
    (cursor.put bytes).buffer.size = cursor.buffer.size := by
  have hlist := congrArg List.length (toList_put cursor bytes)
  simp only [List.length_append, List.length_take, List.length_drop, Array.length_toList] at hlist
  omega

theorem holds_put (cursor : WriteCursor) (bytes : List UInt8)
    (h : cursor.pos + bytes.length ≤ cursor.buffer.size) :
    (cursor.put bytes).buffer.Holds cursor.pos bytes := by
  have hlen : (cursor.buffer.toList.take cursor.pos).length = cursor.pos := by
    rw [List.length_take, Array.length_toList]
    omega
  unfold Bytes.Holds
  rw [toList_put, List.append_assoc, List.drop_left' hlen]
  exact List.prefix_append _ _

end WriteCursor

namespace WireType

variable {type : WireType} {value field : Value} {n : Nat}

theorem terminated_eq (t : Text) : t.terminated = t.units.flatMap CodeUnit.bytes ++ [0, 0] := by
  rw [Text.terminated, List.flatMap_append]
  rfl

theorem check_of_measure {t : NumberType} (h : (number t).measure value field = .ok n) :
    t.check value = .ok () ∧ n = t.packing.width := by
  simp only [measure] at h
  split at h
  next hcheck =>
    cases h
    exact ⟨hcheck, rfl⟩
  · contradiction

-- A text field holds a text or null, which is written like the empty text.
theorem exists_text_of_measure (h : text.measure value field = .ok n) :
    ∃ t : Text, textOf value = .ok t ∧ text.encoding value = t.terminated ∧
      text.normal value = .text t ∧ n = 2 * t.units.length + 2 ∧
      (value = .text t ∨ value = .null ∧ t = []) := by
  cases value with
  | null =>
      cases h
      exact ⟨[], rfl, rfl, rfl, rfl, .inr ⟨rfl, rfl⟩⟩
  | text t =>
      cases h
      exact ⟨t, rfl, (terminated_eq t).symm, rfl, rfl, .inl rfl⟩
  | _ => contradiction

theorem length_encoding (htype : type.Standard) (h : type.measure value field = .ok n) :
    (type.encoding value).length = n := by
  cases type with
  | flag =>
      cases h
      rfl
  | number t =>
      obtain ⟨hcheck, rfl⟩ := check_of_measure h
      exact (t.pack?_of_check htype value hcheck).2.1
  | text =>
      obtain ⟨t, -, hbytes, -, rfl, -⟩ := exists_text_of_measure h
      rw [hbytes, terminated_eq, List.length_append, CodeUnit.length_flatMap_bytes]
      rfl

-- What is measured can be written, if its room is there.
theorem write_eq_put (htype : type.Standard) (h : type.measure value field = .ok n)
    (cursor : WriteCursor) (hroom : cursor.pos + n ≤ cursor.buffer.size) :
    type.write cursor value field = .ok (cursor.put (type.encoding value)) := by
  have hlen := length_encoding htype h
  cases type with
  | flag =>
      cases h
      rw [write, if_pos (by omega)]
      rfl
  | number t =>
      obtain ⟨hcheck, rfl⟩ := check_of_measure h
      obtain ⟨hpack, -, -⟩ := t.pack?_of_check htype value hcheck
      have hbytes : (number t).encoding value = t.packing.encoding value := rfl
      rw [hbytes] at hlen ⊢
      simp only [write, hcheck, hpack, hlen, if_pos hroom]
  | text =>
      obtain ⟨t, htext, hbytes, -, -, -⟩ := exists_text_of_measure h
      simp only [write, htext, hbytes]

-- Wherever there is room for them, these bytes are written for a value.
def Writes (type : WireType) (value : Value) (bytes : List UInt8) : Prop :=
  ∀ (cursor : WriteCursor) (field : Value), cursor.pos + bytes.length ≤ cursor.buffer.size →
    type.write cursor value field = .ok (cursor.put bytes)

theorem measure_of_measure (h : type.measure value field = .ok n) (other : Value) :
    type.measure value other = .ok n := by
  cases type with
  | flag => exact h
  | number t =>
      simp only [measure] at h ⊢
      split at h
      next hcheck => exact h
      next => contradiction
  | text =>
      simp only [measure] at h ⊢
      split at h
      next htext => exact h
      next => contradiction

theorem writes_encoding (htype : type.Standard) (h : type.measure value field = .ok n) :
    type.Writes value (type.encoding value) := by
  intro cursor other hroom
  rw [length_encoding htype h] at hroom
  exact write_eq_put htype (measure_of_measure h other) cursor hroom

-- What is written is checked again, and fails as it does when it is measured.
theorem measure_of_write_misfit {cursor : WriteCursor} {m : Misfit}
    (h : type.write cursor value field = .error (.misfit m)) :
    type.measure value field = .error m := by
  cases type with
  | flag =>
      simp only [write] at h
      split at h <;> cases h
  | number t =>
      simp only [write] at h
      simp only [measure]
      split at h
      next cause _ hcheck =>
        cases h
        rw [hcheck]
      next => cases h
      next =>
        split at h <;> cases h
  | text =>
      simp only [write] at h
      simp only [measure]
      split at h
      next => cases h
      next cause htext =>
        cases h
        rfl

theorem mapTexts_unpack (f : Text → Text) (packing : Packing) (bytes : List UInt8) :
    (packing.unpack bytes).mapTexts f = packing.unpack bytes := by
  cases packing with
  | whole signed width => cases signed <;> rfl
  | _ => rfl

-- What is measured is spelled by its bytes in its normal form, where a text must
-- not end early, and its surrogates are joined.
theorem spells_encoding (htype : type.Standard) (h : type.measure value field = .ok n)
    (hzero : ∀ t ∈ (type.normal value).texts, 0 ∉ t) :
    type.Spells (type.encoding value) ((type.normal value).mapTexts Text.rejoined) := by
  cases type with
  | flag =>
      refine ⟨if value.truth then 1 else 0, rfl, ?_⟩
      cases htruth : value.truth <;> simp [normal, htruth, Value.mapTexts]
  | number t =>
      obtain ⟨hcheck, -⟩ := check_of_measure h
      obtain ⟨-, hlen, hunpack⟩ := t.pack?_of_check htype value hcheck
      have hnormal : (number t).normal value = t.packing.normal value := rfl
      rw [hnormal, ← hunpack, mapTexts_unpack]
      exact ⟨hlen, rfl⟩
  | text =>
      obtain ⟨t, -, hbytes, hnormal, -, -⟩ := exists_text_of_measure h
      rw [hnormal] at hzero ⊢
      have ht : 0 ∉ t := hzero t (List.mem_singleton_self t)
      exact ⟨t.units, fun h => ht (Text.zero_mem_units t h), by rw [hbytes, terminated_eq], rfl⟩

-- What is measured and written is read again at the same place.
theorem read_of_write (htype : type.Standard) (h : type.measure value field = .ok n)
    (hzero : ∀ t ∈ (type.normal value).texts, 0 ∉ t) (cursor : WriteCursor)
    (hroom : cursor.pos + n ≤ cursor.buffer.size) :
    ∃ written, type.write cursor value field = .ok written ∧
      type.read written.buffer cursor.pos =
        .ok ((type.normal value).mapTexts Text.rejoined, written.pos) := by
  have hlen := length_encoding htype h
  have hroom' : cursor.pos + (type.encoding value).length ≤ cursor.buffer.size := by omega
  refine ⟨_, write_eq_put htype h cursor hroom, ?_⟩
  rw [WriteCursor.pos_put]
  exact (reads type).complete _ _ _ _ (by rw [WriteCursor.size_put _ _ hroom']; omega)
    (cursor.holds_put _ hroom') (spells_encoding htype h hzero)

-- What bytes spell can be measured, and is written as the same bytes.
theorem rewritten_of_spells (htype : type.Standard) {bytes : List UInt8}
    (h : type.Spells bytes value) (field : Value) :
    type.measure value field = .ok bytes.length ∧ type.Rewritten bytes (type.encoding value) := by
  cases type with
  | flag =>
      obtain ⟨b, rfl, rfl⟩ := h
      refine ⟨rfl, b, rfl, ?_⟩
      by_cases hb : b = 0 <;> simp [encoding, Value.truth, hb]
  | number t =>
      obtain ⟨hlen, rfl⟩ := h
      obtain ⟨hcheck, hrewritten⟩ := t.check_unpack htype bytes hlen
      refine ⟨?_, hrewritten⟩
      simp only [measure, hcheck, hlen]
  | text =>
      obtain ⟨units, hunits, rfl, rfl⟩ := h
      refine ⟨?_, units, hunits, rfl, ?_⟩
      · simp only [measure, textOf, Text.units_ofUnits, List.length_append,
          CodeUnit.length_flatMap_bytes]
        rfl
      · simp only [encoding, Text.units_ofUnits]

end WireType

end PacketCodec
