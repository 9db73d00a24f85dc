import PacketCodec.Proofs.Codec.SelfDelimiting
import PacketCodec.Proofs.Layout.RoundTrip

namespace PacketCodec

namespace Codec

variable {set : TypeSet} {fields : FieldList} {name version value : Value} {codec : Codec} {n : Nat}

-- What the bytes of a value spell is what is decoded from them.
theorem decodeFrom_of_spells (hset : set.types = WireType.builtin)
    (hcodec : (set.codec fields name version).1 = .ok codec) (h : codec.measure value = .ok n)
    {entries : List (Text × Value)}
    (hspells : codec.layout.Spells (fields.encoding value.entries) entries) (k : Nat) :
    ∃ buffer, codec.encode value k = .ok buffer ∧
      codec.decodeFrom buffer k = .ok (.record entries, k + n) := by
  obtain ⟨cursor, -, hencode, -, hbytes⟩ := write_of_measure hset hcodec h k
  refine ⟨cursor.buffer, hencode, ?_⟩
  have hlen := length_encoding hset hcodec h
  have hsize : k ≤ cursor.buffer.size := by
    rw [← Array.length_toList, hbytes, List.length_append, List.length_replicate]
    exact Nat.le_add_right _ _
  have hholds : cursor.buffer.Holds k (fields.encoding value.entries) := by
    rw [Bytes.Holds, hbytes, List.drop_left' List.length_replicate]
  rw [← hlen]
  exact codec.reads.complete _ _ _ _ hsize hholds ⟨_, hspells, rfl⟩

-- A value that can be measured comes back in its normal form, if its texts do
-- not end early and none of their surrogates are taken for a pair.
theorem decodeFrom_encode (hset : set.types = WireType.builtin)
    (hcodec : (set.codec fields name version).1 = .ok codec)
    (hplain : ∀ t ∈ value.texts, 0 ∉ t ∧ t.Unpaired) (h : codec.measure value = .ok n) (k : Nat) :
    ∃ buffer, codec.encode value k = .ok buffer ∧
      codec.decodeFrom buffer k = .ok (.record (fields.normal value.entries), k + n) := by
  have hspells := Layout.spells_encoding hset (TypeSet.resolves_of_codec hcodec)
    (fun t ht => hplain t (value.textsOfEntries_entries_subset ht)) (measure_eq_ok_iff.mp h).2
  exact decodeFrom_of_spells hset hcodec h hspells k

-- Surrogates that are no pair, a number in the place of a flag, and a tuple in
-- the place of a list.
theorem decodeFrom_encode_spawn :
    ∃ buffer, spawnCodec.encode
        (.record [("path", .tuple [.record [("x", .int (-2))], .record [("x", .int 5)]]),
          ("spawn", .record [("alive", .int 7), ("name", .text [0xDC00, 0xD800])])]) 2 =
        .ok buffer ∧
      spawnCodec.decodeFrom buffer 2 =
        .ok (.record [("spawn", .record [("name", .text [0xDC00, 0xD800]), ("alive", .bool true)]),
          ("path", .list [.record [("x", .int (-2))], .record [("x", .int 5)]])], 15) := by
  have hplain : ∀ t ∈ [([0xDC00, 0xD800] : Text)], 0 ∉ t ∧ Text.Unpaired t := by decide
  have hmeasure : spawnCodec.measure
      (.record [("path", .tuple [.record [("x", .int (-2))], .record [("x", .int 5)]]),
        ("spawn", .record [("alive", .int 7), ("name", .text [0xDC00, 0xD800])])]) = .ok 13 := by
    rfl
  refine decodeFrom_encode (TypeSet.types_new .null) codec_spawnFields ?_ hmeasure 2
  exact hplain

-- Whatever bytes are decoded, the value can be encoded, at the same offset and
-- in as many bytes, and they are the same bytes again. Only flags other than
-- zero and one and the payload of what is not a number can differ.
theorem encode_decodeFrom (hset : set.types = WireType.builtin)
    (hcodec : (set.codec fields name version).1 = .ok codec) {b : Bytes} {k stop : Nat}
    (h : codec.decodeFrom b k = .ok (value, stop)) :
    k ≤ stop ∧ codec.measure value = .ok (stop - k) ∧
      ∃ out, codec.encode value k = .ok out ∧ out.size = stop ∧
        fields.Rewritten (b.slice k stop) (out.slice k stop) := by
  have hresolves := TypeSet.resolves_of_codec hcodec
  obtain ⟨bytes, hholds, rfl, entries, hspells, rfl⟩ := codec.reads.sound b k value stop h
  obtain ⟨hmeasure, hrewritten⟩ := Layout.rewritten_of_spells hset hresolves hspells []
  have hmeasure : codec.measure (.record entries) = .ok bytes.length := hmeasure
  obtain ⟨cursor, -, hencode, -, hbytes⟩ := write_of_measure hset hcodec hmeasure k
  have hlen := length_encoding hset hcodec hmeasure
  have hslice : cursor.buffer.slice k (k + bytes.length) = fields.encoding entries := by
    rw [Bytes.slice_eq, hbytes, List.drop_left' List.length_replicate, Nat.add_sub_cancel_left,
      ← hlen]
    exact List.take_length
  refine ⟨Nat.le_add_right _ _, ?_, cursor.buffer, hencode, ?_, ?_⟩
  · rw [hmeasure, Nat.add_sub_cancel_left]
  · rw [← Array.length_toList, hbytes, List.length_append, List.length_replicate, hlen]
  · rw [hholds.slice_eq, hslice]
    exact hrewritten

-- A flag of seven becomes one.
theorem encode_decodeFrom_spawn :
    ∃ out, spawnCodec.encode
        (.record [("spawn", .record [("name", .text "A"), ("alive", .bool true)]),
          ("path", .list [.record [("x", .int (-2))]])]) 1 = .ok out ∧ out.size = 10 ∧
      spawnFields.Rewritten [65, 0, 0, 0, 7, 1, 0, 254, 255] (out.slice 1 10) := by
  have hdecode : spawnCodec.decodeFrom #[9, 65, 0, 0, 0, 7, 1, 0, 254, 255, 3] 1 =
      .ok (.record [("spawn", .record [("name", .text "A"), ("alive", .bool true)]),
        ("path", .list [.record [("x", .int (-2))]])], 10) := by
    rfl
  exact (encode_decodeFrom (TypeSet.types_new .null) codec_spawnFields hdecode).2.2

end Codec

end PacketCodec
