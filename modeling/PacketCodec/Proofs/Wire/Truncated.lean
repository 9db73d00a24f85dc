import PacketCodec.Proofs.Except
import PacketCodec.Proofs.Value.Showable
import PacketCodec.Proofs.Wire.Reading
import PacketCodec.Wire.TypeSet

namespace PacketCodec

structure Truncation.Sound (t : Truncation) (b : Bytes) (pos : Nat) : Prop where
  le_offset : pos ≤ t.offset
  offset_le : t.offset ≤ max pos b.size
  one_le_needed : 1 ≤ t.needed
  needed_le : t.needed ≤ 8
  available_lt : t.available < t.needed
  le_available : -(t.offset : Int) ≤ t.available
  available_eq : pos ≤ b.size → t.available = max ((b.size : Int) - t.offset) 0

variable {b : Bytes} {pos : Nat} {t : Truncation}

-- What is missing for the second of two readers is missing for both of them.
theorem Truncation.Sound.after {α : Type} {read : Reader α} {spells : List UInt8 → α → Prop}
    {a : α} {stop : Nat} (h : t.Sound b stop) (hreads : Reads read spells)
    (hread : read b pos = .ok (a, stop)) : t.Sound b pos where
  le_offset := Nat.le_trans (hreads.le_stop hread) h.le_offset
  offset_le := by
    have hle := h.offset_le
    have hstop := hreads.stop_le_max hread
    omega
  one_le_needed := h.one_le_needed
  needed_le := h.needed_le
  available_lt := h.available_lt
  le_available := h.le_available
  available_eq hpos := h.available_eq (hreads.stop_le_size hpos hread)

-- Only a position that is too long to be written keeps the report from being made.
theorem Truncation.Sound.failure_eq (h : t.Sound b pos) :
    t.failure = if t.offset < 10 ^ Text.maxDigits then t.failureInside else .unwritable := by
  have hneeded := h.one_le_needed
  have hle := h.needed_le
  have hlt := h.available_lt
  have havailable := h.le_available
  have hten := Text.ten_le
  by_cases hoffset : t.offset < 10 ^ Text.maxDigits
  · have hshowable : [Value.int t.offset, .int t.needed, .int t.available].all Value.isShowable := by
      simp only [List.all_cons, List.all_nil, Bool.and_true, Bool.and_eq_true,
        Value.isShowable_int_iff]
      omega
    rw [if_pos hoffset, failure, Failure.truncatedInput, Failure.showing, if_pos hshowable]
    rfl
  · have hnot : ¬[Value.int t.offset, .int t.needed, .int t.available].all Value.isShowable := by
      simp only [List.all_cons, Bool.and_eq_true, Value.isShowable_int_iff]
      omega
    rw [if_neg hoffset, failure, Failure.truncatedInput, Failure.showing, if_neg hnot]

namespace Bytes

theorem take_eq_error_iff {count : Nat} :
    Bytes.take b pos count = .error t ↔
      b.size < pos + count ∧ t = ⟨pos, count, (b.size - pos : Nat)⟩ := by
  rw [take, map_eq_error_iff, reserve]
  split
  next hroom => simp [hroom, eq_comm]
  next hroom => simp [hroom]

theorem takeText_eq_error (h : b.takeText pos = .error t) :
    t = ⟨pos + 2 * ((b.size - pos) / 2), 2,
      (b.size : Int) - (pos + 2 * ((b.size - pos) / 2) : Nat)⟩ :=
  (takeUnits_error [] t #[] (by omega) (map_eq_error_iff.mp h)).1

theorem sound_of_take {count : Nat} (hcount : 0 < count) (hle : count ≤ 8)
    (h : Bytes.take b pos count = .error t) : t.Sound b pos := by
  obtain ⟨hroom, rfl⟩ := take_eq_error_iff.mp h
  constructor <;> simp only <;> omega

theorem sound_of_takeText (h : b.takeText pos = .error t) : t.Sound b pos := by
  obtain rfl := takeText_eq_error h
  constructor <;> simp only <;> omega

end Bytes

namespace WireType

variable {type : WireType}

theorem sound_of_read (htype : type.Standard) (hwidth : type.width ≤ 8)
    (h : type.read b pos = .error t) : t.Sound b pos := by
  cases htype with
  | flag => exact Bytes.sound_of_take Nat.one_pos (by decide) (map_eq_error_iff.mp h)
  | whole signed width hw => exact Bytes.sound_of_take hw hwidth (map_eq_error_iff.mp h)
  | single => exact Bytes.sound_of_take (by decide) hwidth (map_eq_error_iff.mp h)
  | double => exact Bytes.sound_of_take (by decide) hwidth (map_eq_error_iff.mp h)
  | text => exact Bytes.sound_of_takeText (map_eq_error_iff.mp h)

theorem available_of_read_text (h : text.read b pos = .error t) :
    t.available = (b.size : Int) - t.offset := by
  obtain rfl := Bytes.takeText_eq_error (map_eq_error_iff.mp h)
  rfl

theorem available_of_read (htype : type ≠ text) (h : type.read b pos = .error t) :
    t.available = max ((b.size : Int) - t.offset) 0 := by
  have htake : ∃ count, Bytes.take b pos count = .error t := by
    cases type with
    | flag | number => exact ⟨_, map_eq_error_iff.mp h⟩
    | text => contradiction
  obtain ⟨count, hcount⟩ := htake
  obtain ⟨-, rfl⟩ := Bytes.take_eq_error_iff.mp hcount
  simp only
  omega

theorem length_pos_of_spells (htype : type.Standard) {bytes : List UInt8} {value : Value}
    (h : type.Spells bytes value) : 0 < bytes.length := by
  cases htype with
  | flag =>
      obtain ⟨b, rfl, -⟩ := h
      exact Nat.one_pos
  | whole signed width hw => exact h.1 ▸ hw
  | single | double =>
      rw [h.1]
      decide
  | text =>
      obtain ⟨units, -, rfl, -⟩ := h
      rw [List.length_append]
      exact Nat.lt_add_left _ (by decide)

theorem exists_read_error (htype : type.Standard) (hpos : b.size < pos) :
    ∃ t, type.read b pos = .error t := by
  cases hread : type.read b pos with
  | error t => exact ⟨t, rfl⟩
  | ok result =>
      obtain ⟨bytes, hholds, -, hspells⟩ := type.reads.sound b pos _ _ hread
      have hlen := length_pos_of_spells htype hspells
      have hroom := hholds.length_le
      omega

end WireType

end PacketCodec
