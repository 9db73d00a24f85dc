import PacketCodec.Proofs.Codec.RoundTrip

namespace PacketCodec

namespace Text

-- A text with a zero in it is written like two texts.
theorem terminated_append_zero (before after : Text) :
    terminated (before ++ 0 :: after) = before.terminated ++ after.terminated := by
  have hzero : CodePoint.units 0 = [0] := rfl
  simp only [terminated, units, List.flatMap_append, List.flatMap_cons, hzero, List.append_assoc]

theorem length_terminated_pos (t : Text) : 0 < t.terminated.length := by
  rw [WireType.terminated_eq, List.length_append]
  exact Nat.lt_add_left _ (by decide)

end Text

namespace WireType

variable {buffer : Bytes} {pos : Nat} {t before after : Text}

theorem read_text_of_holds (hpos : pos ≤ buffer.size) (hholds : buffer.Holds pos t.terminated)
    (hzero : 0 ∉ t) :
    text.read buffer pos = .ok (.text t.rejoined, pos + t.terminated.length) := by
  rw [terminated_eq] at hholds ⊢
  have hunits : 0 ∉ t.units := fun h => hzero (Text.zero_mem_units t h)
  exact (reads text).complete _ _ _ _ hpos hholds ⟨t.units, hunits, rfl, rfl⟩

theorem read_text_append_zero (hpos : pos ≤ buffer.size)
    (hholds : buffer.Holds pos (Text.terminated (before ++ 0 :: after))) (hzero : 0 ∉ before) :
    text.read buffer pos = .ok (.text before.rejoined, pos + before.terminated.length) := by
  rw [Text.terminated_append_zero, Bytes.holds_append] at hholds
  exact read_text_of_holds hpos hholds.1 hzero

-- The bytes of a text are read to their end iff it has no zero in it.
theorem exists_read_text (hpos : pos ≤ buffer.size) (hholds : buffer.Holds pos t.terminated) :
    ∃ read stop, text.read buffer pos = .ok (.text read, stop) ∧
      (stop = pos + t.terminated.length ↔ 0 ∉ t) := by
  by_cases hzero : 0 ∈ t
  · obtain ⟨before, after, rfl, hbefore⟩ := List.eq_append_cons_of_mem hzero
    refine ⟨_, _, read_text_append_zero hpos hholds hbefore, ?_⟩
    have hafter := Text.length_terminated_pos after
    rw [Text.terminated_append_zero, List.length_append]
    constructor
    · intro hstop
      omega
    · intro hnot
      contradiction
  · exact ⟨_, _, read_text_of_holds hpos hholds hzero, by simp [hzero]⟩

end WireType

namespace Codec

variable {set : TypeSet} {fields : FieldList} {name version value : Value} {codec : Codec}
  {buffer : Bytes}

theorem measure_of_encode {k : Nat} (h : codec.encode value k = .ok buffer) :
    ∃ n, codec.measure value = .ok n := by
  cases hmeasure : codec.measure value with
  | ok n => exact ⟨n, rfl⟩
  | error m =>
      rw [encode_of_measure_error hmeasure] at h
      contradiction

-- The bytes of an encoded value are read to their end, and all but the texts in
-- it comes back in its normal form, if no text in a text field has a zero in it.
-- Surrogates in the texts are joined. Wherever the bytes of a text stand, they are
-- read to their end only if it has no zero in it: from its first zero on they are
-- taken for what follows the text.
theorem decodeFrom_encode_rejoined (hset : set.types = WireType.builtin)
    (hcodec : (set.codec fields name version).1 = .ok codec) {k : Nat}
    (h : codec.encode value k = .ok buffer)
    (hzero : ∀ t ∈ Value.textsOfEntries (fields.normal value.entries), 0 ∉ t) :
    (∃ n, codec.measure value = .ok n ∧ codec.decodeFrom buffer k =
      .ok (.record (Value.mapTextsOfEntries Text.rejoined (fields.normal value.entries)),
        k + n)) ∧
    ∀ t pos, pos ≤ buffer.size → buffer.Holds pos (Text.terminated t) →
      ∃ read stop, WireType.text.read buffer pos = .ok (.text read, stop) ∧
        (stop = pos + (Text.terminated t).length ↔ 0 ∉ t) := by
  refine ⟨?_, fun t pos hpos hholds => WireType.exists_read_text hpos hholds⟩
  obtain ⟨n, hmeasure⟩ := measure_of_encode h
  have hspells := Layout.spells_rejoined hset (TypeSet.resolves_of_codec hcodec) hzero
    (measure_eq_ok_iff.mp hmeasure).2
  obtain ⟨written, hwritten, hdecode⟩ := decodeFrom_of_spells hset hcodec hmeasure hspells k
  obtain rfl : written = buffer := Except.ok.inj (hwritten.symm.trans h)
  exact ⟨n, hmeasure, hdecode⟩

-- A pair of surrogates comes back as the code point that it stands for.
theorem decodeFrom_encode_rejoined_spawn :
    ∃ n, spawnCodec.measure (.record [("spawn", .record [("name", .text [0xD800, 0xDC01])])]) =
        .ok n ∧
      spawnCodec.decodeFrom #[0, 0x00, 0xD8, 0x01, 0xDC, 0, 0, 0, 0, 0] 1 =
        .ok (.record [("spawn", .record [("name", .text [0x10001]), ("alive", .bool false)]),
          ("path", .list [])], 1 + n) := by
  have hencode : spawnCodec.encode
      (.record [("spawn", .record [("name", .text [0xD800, 0xDC01])])]) 1 =
        .ok #[0, 0x00, 0xD8, 0x01, 0xDC, 0, 0, 0, 0, 0] := by
    rfl
  have hzero : ∀ t ∈ [([0xD800, 0xDC01] : Text)], 0 ∉ t := by decide
  exact (decodeFrom_encode_rejoined (TypeSet.types_new .null) codec_spawnFields hencode hzero).1

-- What is left of the name is taken for the flag and for the count of the array.
theorem decodeFrom_encode_zero :
    let value := Value.record [("spawn", .record [("name", .text [0, 0x101]),
      ("alive", .bool false)])]
    spawnCodec.measure value = .ok 9 ∧
      spawnCodec.encode value 0 = .ok #[0, 0, 1, 1, 0, 0, 0, 0, 0] ∧
      spawnCodec.decodeFrom #[0, 0, 1, 1, 0, 0, 0, 0, 0] 0 =
        .ok (.record [("spawn", .record [("name", .text []), ("alive", .bool true)]),
          ("path", .list [.record [("x", .int 0)]])], 7) :=
  ⟨by rfl, by rfl, by rfl⟩

end Codec

end PacketCodec
