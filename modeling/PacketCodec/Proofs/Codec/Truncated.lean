import PacketCodec.Proofs.Codec.Encoding
import PacketCodec.Proofs.Layout.Truncated

namespace PacketCodec

namespace TypeSet

variable {set : TypeSet} {name : Text}

theorem find?_eq_text_iff (hset : set.types = WireType.builtin) :
    set.find? name = some .text ↔ name = "string" := by
  rw [find?, hset]
  constructor
  · intro h
    obtain ⟨before, after, hsplit, -⟩ := List.lookup_eq_some_iff.mp h
    have hmem : (name, WireType.text) ∈ WireType.builtin := by rw [hsplit]; simp
    simpa [WireType.builtin] using hmem
  · rintro rfl
    rfl

end TypeSet

namespace Codec

variable {set : TypeSet} {fields : FieldList} {name version : Value} {codec : Codec}

-- Decoding with every access to the buffer checked.
def decodeGuarded (codec : Codec) (buffer : Bytes) (offset : Nat) :
    Except ReadFault (Value × Nat) :=
  (codec.layout.readGuarded buffer offset).map fun (entries, stop) => (.record entries, stop)

theorem decodeGuarded_eq (codec : Codec) (b : Bytes) (k : Nat) :
    codec.decodeGuarded b k = (codec.decodeFrom b k).mapError .truncated := by
  rw [decodeGuarded, Layout.readGuarded_eq, decodeFrom, mapError_map]

-- Whether the first thing on the wire is a text.
def StartsWithText (codec : Codec) : Prop :=
  ∃ path rows, codec.rows = (path, Text.ofString "string") :: rows

theorem exists_first_row (hset : set.types = WireType.builtin)
    (hcodec : (set.codec fields name version).1 = .ok codec) {b : Bytes} {k : Nat}
    {t : Truncation} (hk : b.size < k) (h : codec.decodeFrom b k = .error t) :
    ∃ row rows wire, codec.rows = row :: rows ∧ set.find? row.2 = some wire ∧
      wire.read b k = .error t := by
  have hresolves := TypeSet.resolves_of_codec hcodec
  have hread := map_eq_error_iff.mp h
  rw [rows]
  generalize codec.layout = layout at hresolves hread ⊢
  have hsome : fields.isEmpty = false := by
    cases hresolves with
    | nil => contradiction
    | _ => rfl
  obtain ⟨row, rows, wire, t', hrows, hwire, hread', ht⟩ :=
    Layout.read_beyond hset hresolves hsome hk []
  obtain rfl : t' = t := Except.error.inj (hread'.symm.trans hread)
  exact ⟨row, rows, wire, hrows, hwire, ht⟩

-- A text that comes first reports less than nothing beyond the end of the buffer,
-- everything else reports nothing.
theorem available_beyond (hset : set.types = WireType.builtin)
    (hcodec : (set.codec fields name version).1 = .ok codec) {b : Bytes} {k : Nat}
    {t : Truncation} (hk : b.size < k) (h : codec.decodeFrom b k = .error t) :
    (codec.StartsWithText → t.available = (b.size : Int) - t.offset) ∧
      (¬codec.StartsWithText → t.available = max ((b.size : Int) - t.offset) 0) := by
  obtain ⟨⟨path, type⟩, rows, wire, hrows, hwire, ht⟩ := exists_first_row hset hcodec hk h
  constructor
  · rintro ⟨path', rows', hrows'⟩
    rw [hrows] at hrows'
    cases hrows'
    obtain rfl : WireType.text = wire :=
      Option.some.inj (((TypeSet.find?_eq_text_iff hset).mpr rfl).symm.trans hwire)
    exact WireType.available_of_read_text ht
  · intro hnot
    apply WireType.available_of_read _ ht
    rintro rfl
    obtain rfl := (TypeSet.find?_eq_text_iff hset).mp hwire
    exact hnot ⟨path, rows, hrows⟩

-- Decoding gives a value or reports that the buffer is too short, and no access
-- to the buffer goes wrong. Some bytes are needed, not before the offset, and
-- fewer of them are available. As many are as there are behind the place where
-- they are missing, except that a text in front of all else counts below zero if
-- the offset is beyond the end. The report is made unless the place is too long a
-- number to be shown, and inside the buffer it is not.
theorem decodeFrom_truncated (hset : set.types = WireType.builtin)
    (hcodec : (set.codec fields name version).1 = .ok codec) (b : Bytes) (k : Nat) :
    (∃ result, codec.decodeFrom b k = .ok result ∧ codec.decodeGuarded b k = .ok result) ∨
    ∃ t, codec.decodeFrom b k = .error t ∧ codec.decodeGuarded b k = .error (.truncated t) ∧
      k ≤ t.offset ∧ t.offset ≤ max k b.size ∧ 1 ≤ t.needed ∧ t.available < t.needed ∧
      t.failure = (if t.offset < 10 ^ Text.maxDigits then
        .truncation (.int t.offset) (.int t.needed) (.int t.available) else .unwritable) ∧
      (¬(b.size < k ∧ codec.StartsWithText) →
        t.available = max ((b.size : Int) - t.offset) 0) ∧
      (b.size < k ∧ codec.StartsWithText → t.available = (b.size : Int) - t.offset) := by
  have hguarded := decodeGuarded_eq codec b k
  cases hdecode : codec.decodeFrom b k with
  | ok result =>
      rw [hdecode] at hguarded
      exact .inl ⟨result, rfl, hguarded⟩
  | error t =>
      rw [hdecode] at hguarded
      have hsound := Layout.sound_of_read hset (TypeSet.resolves_of_codec hcodec)
        (map_eq_error_iff.mp hdecode)
      refine .inr ⟨t, rfl, hguarded, hsound.le_offset, hsound.offset_le, hsound.one_le_needed,
        hsound.available_lt, hsound.failure_eq, ?_, ?_⟩
      · intro hnot
        by_cases hk : k ≤ b.size
        · exact hsound.available_eq hk
        · have hk := Nat.not_le.mp hk
          exact (available_beyond hset hcodec hk hdecode).2 fun htext => hnot ⟨hk, htext⟩
      · rintro ⟨hk, htext⟩
        exact (available_beyond hset hcodec hk hdecode).1 htext

-- The name has a byte of its second unit, or there is nothing at all.
theorem decodeFrom_truncated_spawn :
    spawnCodec.decodeGuarded #[65, 0, 7] 0 = .error (.truncated ⟨2, 2, 1⟩) ∧
      ∃ t, spawnCodec.decodeFrom #[65, 0, 7] 5 = .error t ∧ t.available = 3 - (t.offset : Int) := by
  have hset := TypeSet.types_new .null
  constructor
  · rcases decodeFrom_truncated hset codec_spawnFields #[65, 0, 7] 0 with
      ⟨result, h, -⟩ | ⟨t, h, hguarded, -⟩
    · contradiction
    · cases h
      exact hguarded
  · rcases decodeFrom_truncated hset codec_spawnFields #[65, 0, 7] 5 with
      ⟨result, h, -⟩ | ⟨t, h, -, -, -, -, -, -, -, hbeyond⟩
    · contradiction
    · exact ⟨t, h, hbeyond ⟨by decide, _, _, rfl⟩⟩

-- At the same place a number reports that nothing is available, a text that one
-- byte less than nothing is.
theorem decodeFrom_text_beyond :
    ∃ number text, ((TypeSet.new .null).codec (.leaf "n" "int16" .nil) .null .null).1 = .ok number ∧
      ((TypeSet.new .null).codec (.leaf "s" "string" .nil) .null .null).1 = .ok text ∧
      number.decodeFrom #[] 1 = .error ⟨1, 2, 0⟩ ∧ text.decodeFrom #[] 1 = .error ⟨1, 2, -1⟩ ∧
      (-1 : Int) ≠ max (((#[] : Bytes).size : Int) - 1) 0 :=
  ⟨_, _, rfl, rfl, by rfl, by rfl, by decide⟩

end Codec

end PacketCodec
