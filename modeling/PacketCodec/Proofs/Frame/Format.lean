import PacketCodec.Frame.Parts
import PacketCodec.Proofs.Frame.Header
import PacketCodec.Proofs.Value.Order

namespace PacketCodec

namespace Frame

variable {length opcode : Int} {reserved rest start bytes : List UInt8} {buffer data frame : Bytes}

-- Reserved bytes as a header carries them.
def padded (reserved : List UInt8) : List UInt8 :=
  reserved.take reservedSize ++ List.replicate (reservedSize - reserved.length) 0

@[simp] theorem length_padded (reserved : List UInt8) :
    (padded reserved).length = reservedSize := by
  simp only [padded, List.length_append, List.length_take, List.length_replicate]
  omega

theorem padded_of_length (h : reserved.length = reservedSize) : padded reserved = reserved := by
  rw [padded, h, Nat.sub_self, List.replicate_zero, List.append_nil, ← h, List.take_length]

theorem take_append_zeros (reserved : List UInt8) :
    (reserved ++ List.replicate reservedSize 0).take reservedSize = padded reserved := by
  rw [List.take_append, List.take_replicate, Nat.min_eq_left (Nat.sub_le _ _), padded]

theorem Header.encode_eq_ok (hlength : 0 ≤ length ∧ length ≤ maxSize)
    (hopcode : 0 ≤ opcode ∧ opcode ≤ maxSize) (reserved : List UInt8) :
    Header.encode ⟨length, opcode, reserved⟩ =
      .ok (LittleEndian.encode 2 length.toNat ++ LittleEndian.encode 2 opcode.toNat ++
        padded reserved) := by
  rw [Header.encode, if_neg (by simpa using hlength.2), words_eq_ok hlength hopcode,
    take_append_zeros]
  rfl

-- Parts that are given as values are written in the same format.
theorem encodeParts_eq (length opcode : Int) (reserved : List UInt8) :
    encodeParts (.int length) (.int opcode) (.bytes reserved) =
      if maxSize < length then .error (.tooLarge (.int length))
      else (Header.encode ⟨length, opcode, reserved⟩).mapError .header := by
  have hcheck : checkLength (.int length) =
      if maxSize < length then .error (.tooLarge (.int length)) else .ok () := by
    rw [checkLength, Value.compared_greater (n := maxSize) (m := length) rfl rfl]
    by_cases h : maxSize < length
    · rw [if_pos h, decide_eq_true h]
      rfl
    · rw [if_neg h, decide_eq_false h]
      rfl
  rw [encodeParts, hcheck]
  split
  · rfl
  · rfl

theorem decode_encode_header (hlength : 0 ≤ length ∧ length ≤ maxSize)
    (hopcode : 0 ≤ opcode ∧ opcode ≤ maxSize) (reserved rest : List UInt8) :
    ∃ bytes, Header.encode ⟨length, opcode, reserved⟩ = .ok bytes ∧
      encodeParts (.int length) (.int opcode) (.bytes reserved) = .ok bytes ∧
      Header.decode (bytes ++ rest).toArray = .ok ⟨length, opcode, padded reserved⟩ := by
  have hencode := Header.encode_eq_ok hlength hopcode reserved
  refine ⟨_, hencode, ?_, ?_⟩
  · rw [encodeParts_eq, if_neg (Int.not_lt.mpr hlength.2), hencode, mapError_ok]
  · rw [(decode_words (length_padded reserved) List.toList_toArray (Int.toNat_le.mpr hlength.2)
      (Int.toNat_le.mpr hopcode.2)).1, Int.toNat_of_nonneg hlength.1, Int.toNat_of_nonneg hopcode.1]

theorem encode_decode_word (start stop : Nat) (hstop : stop = start + 2) (h : stop ≤ data.size) :
    LittleEndian.encode 2 (LittleEndian.decode (data.slice start stop)) = data.slice start stop ∧
      LittleEndian.decode (data.slice start stop) ≤ maxSize := by
  have hlen : (data.slice start stop).length = 2 := by
    rw [Bytes.length_slice _ _ h]
    omega
  have hlt := LittleEndian.decode_lt (data.slice start stop)
  have hwhole := LittleEndian.encode_decode (data.slice start stop)
  rw [hlen] at hlt hwhole
  exact ⟨hwhole, Nat.le_of_lt_succ hlt⟩

-- A header that is read gives back the bytes that it was read from.
theorem encode_decode_header (hroom : headerSize ≤ data.size) :
    ∃ header, Header.decode data = .ok header ∧
      header.encode = .ok (data.toList.take headerSize) ∧
      (opcode? data).map Int.ofNat = some header.opcode := by
  have hwords : 4 ≤ data.size := Nat.le_trans (by decide) hroom
  obtain ⟨hlength, hlengthMax⟩ := encode_decode_word 0 2 rfl (Nat.le_trans (by decide) hwords)
  obtain ⟨hopcode, hopcodeMax⟩ := encode_decode_word 2 4 rfl hwords
  have hreserved : (data.slice 4 headerSize).length = reservedSize := Bytes.length_slice _ _ hroom
  have hstart : data.toList.take headerSize =
      data.slice 0 2 ++ data.slice 2 4 ++ data.slice 4 headerSize := by
    rw [Bytes.slice_append_slice _ (by decide) (by decide),
      Bytes.slice_append_slice _ (by decide) (by decide), Bytes.slice_eq]
    rfl
  refine ⟨_, by rw [Header.decode, if_neg (Nat.not_lt.mpr hroom)], ?_, ?_⟩
  · rw [Header.encode_eq_ok (by omega) (by omega), padded_of_length hreserved, Int.toNat_natCast,
      Int.toNat_natCast, hlength, hopcode, hstart]
  · rw [opcode?, if_neg (Nat.not_lt.mpr hwords)]
    rfl

theorem decode_short (h : data.size < headerSize) :
    Header.decode data = .error ⟨0, headerSize, data.size⟩ :=
  if_pos h

theorem opcode?_eq_none_iff : opcode? data = none ↔ data.size < 4 := by
  by_cases h : data.size < 4
  · simp [opcode?, h]
  · simp [opcode?, h]

-- Filling in a header where the buffer is: what has been stored stays when
-- something fails.
section InPlace

-- What a store that is refused leaves behind.
variable (spoil : Bytes → Bytes)

def store (buffer : Bytes) : Except HeaderError (List UInt8) → EStateM HeaderError Bytes Unit
  | .ok start => set (WriteCursor.put ⟨buffer, 0⟩ start).buffer
  | .error e => do
    set (spoil buffer)
    throw e

def storeWords (length opcode : Int) : EStateM HeaderError Bytes Unit := do
  let buffer ← get
  store spoil buffer (if buffer.size < 4 then .error .unpackable else words length opcode)

def fillHeaderIn (opcode : Int) : EStateM HeaderError Bytes Unit := do
  let buffer ← get
  if maxSize < buffer.size then throw (.tooLarge buffer.size)
  else storeWords spoil buffer.size opcode

theorem fillHeaderIn_apply (buffer : Bytes) (opcode : Int) :
    fillHeaderIn spoil opcode buffer =
      if maxSize < buffer.size then .error (.tooLarge buffer.size) buffer
      else storeWords spoil buffer.size opcode buffer := by
  change (if maxSize < buffer.size then throw (.tooLarge buffer.size)
    else storeWords spoil buffer.size opcode : EStateM HeaderError Bytes Unit) buffer = _
  by_cases h : maxSize < buffer.size
  · rw [if_pos h, if_pos h]
    rfl
  · rw [if_neg h, if_neg h]

theorem storeWords_apply (length opcode : Int) (buffer : Bytes) :
    storeWords spoil length opcode buffer =
      match (if buffer.size < 4 then .error .unpackable else words length opcode) with
      | .ok start => .ok () (WriteCursor.put ⟨buffer, 0⟩ start).buffer
      | .error e => .error e (spoil buffer) := by
  change store spoil buffer (if buffer.size < 4 then .error .unpackable else words length opcode)
    buffer = _
  cases (if buffer.size < 4 then .error .unpackable else words length opcode :
    Except HeaderError (List UInt8)) with
  | ok start => rfl
  | error e => rfl

-- Filling in a header in place has the outcome of the function on buffers.
theorem fillHeader_eq_fillHeaderIn (buffer : Bytes) (opcode : Int) :
    fillHeader buffer opcode =
      match fillHeaderIn spoil opcode buffer with
      | .ok _ frame => .ok frame
      | .error e _ => .error e := by
  rw [fillHeader, fillHeaderIn_apply, storeWords_apply]
  by_cases hlarge : maxSize < buffer.size
  · rw [if_pos hlarge, if_pos hlarge]
  rw [if_neg hlarge, if_neg hlarge]
  by_cases hshort : buffer.size < 4
  · rw [if_pos hshort, if_pos hshort]
  · rw [if_neg hshort, if_neg hshort]
    cases words buffer.size opcode with
    | ok start => rfl
    | error e => rfl

theorem fillHeaderIn_of_ok (h : fillHeader buffer opcode = .ok frame) :
    fillHeaderIn spoil opcode buffer = .ok () frame := by
  rw [fillHeader_eq_fillHeaderIn spoil] at h
  split at h
  next hrun =>
    rw [hrun]
    cases h
    rfl
  next => contradiction

end InPlace

-- Only the two words change, and the frame starts with the header that is
-- written for its size, its opcode and the reserved bytes that it had.
theorem fillHeader_format (hroom : headerSize ≤ buffer.size) (hsize : buffer.size ≤ maxSize)
    (hopcode : 0 ≤ opcode ∧ opcode ≤ maxSize) :
    ∃ frame bytes, fillHeader buffer opcode = .ok frame ∧ frame.size = buffer.size ∧
      (∀ i, 4 ≤ i → frame[i]? = buffer[i]?) ∧
      Header.encode ⟨buffer.size, opcode, buffer.slice 4 headerSize⟩ = .ok bytes ∧
      frame.toList = bytes ++ buffer.toList.drop headerSize := by
  obtain ⟨code, rfl⟩ := Int.eq_ofNat_of_zero_le hopcode.1
  obtain ⟨frame, hfill, hframe⟩ := fillHeader_eq_ok (Nat.le_trans (by decide) hroom) hsize
    (Int.ofNat_le.mp hopcode.2)
  have hreserved : (buffer.slice 4 headerSize).length = reservedSize :=
    Bytes.length_slice _ _ hroom
  have hrest : buffer.toList.drop 4 =
      buffer.slice 4 headerSize ++ buffer.toList.drop headerSize := by
    have hsplit := List.take_append_drop (headerSize - 4) (buffer.toList.drop 4)
    rw [List.drop_drop] at hsplit
    rw [Bytes.slice_eq]
    exact hsplit.symm
  have hwords : (LittleEndian.encode 2 buffer.size ++ LittleEndian.encode 2 code).length = 4 := by
    simp
  refine ⟨frame, _, hfill, ?_, ?_, Header.encode_eq_ok (by omega) hopcode _, ?_⟩
  · rw [← Array.length_toList, hframe, List.length_append, hwords, List.length_drop,
      Array.length_toList]
    unfold headerSize at hroom
    omega
  · intro i hi
    rw [← Array.getElem?_toList, ← Array.getElem?_toList, hframe,
      List.getElem?_append_right (by omega), hwords, List.getElem?_drop, Nat.add_sub_cancel' hi]
  · rw [hframe, hrest, padded_of_length hreserved, ← List.append_assoc]
    rfl

-- One format: reading inverts writing up to the length of the reserved bytes,
-- writing inverts reading, and filling in a header in place writes the same
-- bytes.
theorem headers_agree :
    (∀ (length opcode : Int) (reserved rest : List UInt8), 0 ≤ length ∧ length ≤ maxSize →
      0 ≤ opcode ∧ opcode ≤ maxSize →
      ∃ bytes, Header.encode ⟨length, opcode, reserved⟩ = .ok bytes ∧
        encodeParts (.int length) (.int opcode) (.bytes reserved) = .ok bytes ∧
        Header.decode (bytes ++ rest).toArray = .ok ⟨length, opcode, padded reserved⟩) ∧
    (∀ data : Bytes, headerSize ≤ data.size →
      ∃ header, Header.decode data = .ok header ∧
        header.encode = .ok (data.toList.take headerSize) ∧
        (opcode? data).map Int.ofNat = some header.opcode) ∧
    (∀ data : Bytes, data.size < headerSize →
      Header.decode data = .error ⟨0, headerSize, data.size⟩ ∧
        (opcode? data = none ↔ data.size < 4)) ∧
    (∀ (spoil : Bytes → Bytes) (buffer : Bytes) (opcode : Int), headerSize ≤ buffer.size →
      buffer.size ≤ maxSize → 0 ≤ opcode ∧ opcode ≤ maxSize →
      ∃ frame bytes, fillHeaderIn spoil opcode buffer = .ok () frame ∧
        fillHeader buffer opcode = .ok frame ∧ frame.size = buffer.size ∧
        (∀ i, 4 ≤ i → frame[i]? = buffer[i]?) ∧
        Header.encode ⟨buffer.size, opcode, buffer.slice 4 headerSize⟩ = .ok bytes ∧
        frame.toList = bytes ++ buffer.toList.drop headerSize) ∧
    (∀ (spoil : Bytes → Bytes) (buffer : Bytes) (opcode : Int), maxSize < buffer.size →
      fillHeaderIn spoil opcode buffer = .error (.tooLarge buffer.size) buffer ∧
        fillHeader buffer opcode = .error (.tooLarge buffer.size)) := by
  refine ⟨?_, ?_, ?_, ?_, ?_⟩
  · intro length opcode reserved rest hlength hopcode
    exact decode_encode_header hlength hopcode reserved rest
  · intro data hroom
    exact encode_decode_header hroom
  · intro data hshort
    exact ⟨decode_short hshort, opcode?_eq_none_iff⟩
  · intro spoil buffer opcode hroom hsize hopcode
    obtain ⟨frame, bytes, hfill, hformat⟩ := fillHeader_format hroom hsize hopcode
    exact ⟨frame, bytes, fillHeaderIn_of_ok spoil hfill, hfill, hformat⟩
  · intro spoil buffer opcode hlarge
    exact ⟨by rw [fillHeaderIn_apply, if_pos hlarge], if_pos hlarge⟩

-- Four reserved bytes are cut to three, and the reserved bytes of a frame stay.
theorem headers_agree_samples :
    (∃ bytes, Header.encode ⟨14, 258, [1, 2, 3, 4]⟩ = .ok bytes ∧
      encodeParts (.int 14) (.int 258) (.bytes [1, 2, 3, 4]) = .ok bytes ∧
      Header.decode (bytes ++ [9]).toArray = .ok ⟨14, 258, [1, 2, 3]⟩) ∧
    (∃ header, Header.decode #[7, 0, 5, 0, 1, 2, 3, 9] = .ok header ∧
      header.encode = .ok [7, 0, 5, 0, 1, 2, 3] ∧ some (5 : Int) = some header.opcode) ∧
    (Header.decode #[7, 0, 5] = .error ⟨0, 7, 3⟩ ∧ (opcode? #[7, 0, 5] = none ↔ 3 < 4)) ∧
    (∃ frame bytes, fillHeaderIn id 500 #[0, 0, 0, 0, 1, 2, 3, 9] = .ok () frame ∧
      fillHeader #[0, 0, 0, 0, 1, 2, 3, 9] 500 = .ok frame ∧ frame.size = 8 ∧
      (∀ i, 4 ≤ i → frame[i]? = (#[0, 0, 0, 0, 1, 2, 3, 9] : Bytes)[i]?) ∧
      Header.encode ⟨8, 500, [1, 2, 3]⟩ = .ok bytes ∧ frame.toList = bytes ++ [9]) ∧
    ∃ buffer : Bytes, buffer.size = 0x10000 ∧
      fillHeaderIn id 500 buffer = .error (.tooLarge buffer.size) buffer ∧
        fillHeader buffer 500 = .error (.tooLarge buffer.size) := by
  have hlarge : maxSize < (Array.replicate 0x10000 0 : Bytes).size := by simp [maxSize]
  refine ⟨?_, ?_, ?_, ?_, ?_⟩
  · exact headers_agree.1 14 258 [1, 2, 3, 4] [9] (by decide) (by decide)
  · exact headers_agree.2.1 #[7, 0, 5, 0, 1, 2, 3, 9] (by decide)
  · exact headers_agree.2.2.1 #[7, 0, 5] (by decide)
  · exact headers_agree.2.2.2.1 id #[0, 0, 0, 0, 1, 2, 3, 9] 500 (by decide) (by decide)
      (by decide)
  · exact ⟨_, Array.size_replicate, headers_agree.2.2.2.2 id _ 500 hlarge⟩

end Frame

end PacketCodec
