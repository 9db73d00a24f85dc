import PacketCodec.Frame
import PacketCodec.Proofs.Except
import PacketCodec.Proofs.Reader
import PacketCodec.Proofs.Wire.LittleEndian
import PacketCodec.Proofs.Wire.Writing

namespace PacketCodec

namespace Frame

variable {size opcode n : Nat} {buffer frame : Bytes} {body : List UInt8}

-- The bytes of a header whose reserved bytes are zero.
def head (size opcode : Nat) : List UInt8 :=
  LittleEndian.encode 2 size ++ LittleEndian.encode 2 opcode ++ List.replicate reservedSize 0

theorem length_head : (head size opcode).length = headerSize := by
  simp [head, headerSize, reservedSize]

theorem words_eq_ok {length opcode : Int} (hlength : 0 ≤ length ∧ length ≤ maxSize)
    (hopcode : 0 ≤ opcode ∧ opcode ≤ maxSize) :
    words length opcode =
      .ok (LittleEndian.encode 2 length.toNat ++ LittleEndian.encode 2 opcode.toNat) :=
  if_pos ⟨hlength, hopcode⟩

theorem words_natCast (hsize : size ≤ maxSize) (hopcode : opcode ≤ maxSize) :
    words size opcode = .ok (LittleEndian.encode 2 size ++ LittleEndian.encode 2 opcode) :=
  words_eq_ok ⟨Int.natCast_nonneg _, Int.ofNat_le.mpr hsize⟩
    ⟨Int.natCast_nonneg _, Int.ofNat_le.mpr hopcode⟩

-- Filling in the header leaves everything behind the two words as it is.
theorem fillHeader_eq_ok (hroom : 4 ≤ buffer.size) (hsize : buffer.size ≤ maxSize)
    (hopcode : opcode ≤ maxSize) :
    ∃ frame, fillHeader buffer opcode = .ok frame ∧
      frame.toList = LittleEndian.encode 2 buffer.size ++ LittleEndian.encode 2 opcode ++
        buffer.toList.drop 4 := by
  refine ⟨_, by rw [fillHeader, if_neg (Nat.not_lt.mpr hsize), if_neg (Nat.not_lt.mpr hroom),
    words_natCast hsize hopcode]; rfl, ?_⟩
  rw [WriteCursor.toList_put]
  simp

theorem fillHeader_free (hbuffer : buffer.toList = List.replicate headerSize 0 ++ body)
    (hsize : buffer.size ≤ maxSize) (hopcode : opcode ≤ maxSize) :
    ∃ frame, fillHeader buffer opcode = .ok frame ∧
      frame.toList = head buffer.size opcode ++ body := by
  have hroom : 4 ≤ buffer.size := by
    rw [← Array.length_toList, hbuffer, List.length_append, List.length_replicate]
    exact Nat.le_add_right_of_le (by decide)
  obtain ⟨frame, hfill, hframe⟩ := fillHeader_eq_ok hroom hsize hopcode
  refine ⟨frame, hfill, ?_⟩
  rw [hframe, hbuffer]
  simp [head, headerSize, reservedSize, List.replicate]

theorem decode_words {reserved : List UInt8} (hreserved : reserved.length = reservedSize)
    (h : frame.toList =
      LittleEndian.encode 2 size ++ LittleEndian.encode 2 opcode ++ reserved ++ body)
    (hsize : size ≤ maxSize) (hopcode : opcode ≤ maxSize) :
    Header.decode frame = .ok ⟨size, opcode, reserved⟩ ∧ opcode? frame = some opcode := by
  have hlen : frame.size = headerSize + body.length := by
    rw [← Array.length_toList, h]
    simp only [List.length_append, LittleEndian.length_encode, hreserved, headerSize, reservedSize]
  have hfirst : frame.slice 0 2 = LittleEndian.encode 2 size := by
    rw [Bytes.slice_eq, h]
    rfl
  have hsecond : frame.slice 2 4 = LittleEndian.encode 2 opcode := by
    rw [Bytes.slice_eq, h]
    rfl
  have hrest : frame.slice 4 headerSize = reserved := by
    rw [Bytes.slice_eq, h]
    exact List.take_left' hreserved
  have hdecode : ∀ n ≤ maxSize, LittleEndian.decode (LittleEndian.encode 2 n) = n :=
    fun n hn => LittleEndian.decode_encode 2 n (Nat.lt_succ_of_le hn)
  constructor
  · rw [Header.decode, if_neg (by omega), hfirst, hsecond, hrest, hdecode size hsize,
      hdecode opcode hopcode]
  · rw [opcode?, if_neg (by unfold headerSize at hlen; omega), hsecond, hdecode opcode hopcode]

theorem decode_head (h : frame.toList = head size opcode ++ body) (hsize : size ≤ maxSize)
    (hopcode : opcode ≤ maxSize) :
    Header.decode frame = .ok ⟨size, opcode, List.replicate reservedSize 0⟩ ∧
      opcode? frame = some opcode :=
  decode_words List.length_replicate h hsize hopcode

-- A buffer that is cut behind its header keeps the header.
section Cut

variable (hn : headerSize ≤ n) (hsize : n ≤ buffer.size)

include hn hsize

theorem decode_extract : Header.decode (buffer.extract 0 n) = Header.decode buffer := by
  have hcut : (buffer.extract 0 n).size = n := by
    rw [Array.size_extract]
    omega
  have hwords : 4 ≤ n := Nat.le_trans (by decide) hn
  rw [Header.decode, Header.decode, hcut, if_neg (Nat.not_lt.mpr hn),
    if_neg (Nat.not_lt.mpr (hn.trans hsize)), Bytes.slice_extract _ _ (by omega),
    Bytes.slice_extract _ _ hwords, Bytes.slice_extract _ _ hn]

theorem opcode?_extract : opcode? (buffer.extract 0 n) = opcode? buffer := by
  have hcut : (buffer.extract 0 n).size = n := by
    rw [Array.size_extract]
    omega
  have hwords : 4 ≤ n := Nat.le_trans (by decide) hn
  rw [opcode?, opcode?, hcut, if_neg (Nat.not_lt.mpr hwords),
    if_neg (Nat.not_lt.mpr (hwords.trans hsize)), Bytes.slice_extract _ _ hwords]

end Cut

end Frame

end PacketCodec
