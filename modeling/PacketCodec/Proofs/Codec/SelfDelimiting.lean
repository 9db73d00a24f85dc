import PacketCodec.Proofs.Codec.Encoding
import PacketCodec.Proofs.Layout.Reading

namespace PacketCodec

namespace Codec

theorem reads (codec : Codec) : Reads (fun b pos => codec.decodeFrom b pos) fun bytes value =>
    ∃ entries, codec.layout.Spells bytes entries ∧ value = .record entries :=
  codec.layout.reads.map Value.record

-- A value that is decoded ends inside the buffer. What stands in front of it
-- and behind it does not matter, and without its last bytes the buffer is too
-- short. And a buffer that is too short stays so, and is found to be so at the
-- same place, until as many bytes follow as are missing.
theorem decodeFrom_delimited (codec : Codec) (b : Bytes) (k : Nat) :
    (∀ value stop, k ≤ b.size → codec.decodeFrom b k = .ok (value, stop) →
      k ≤ stop ∧ stop ≤ b.size ∧
      (∀ front back : Bytes, codec.decodeFrom (front ++ b.extract k stop ++ back) front.size =
        .ok (value, front.size + (stop - k))) ∧
      ∀ n, k ≤ n → n < stop → ∃ t, codec.decodeFrom (b.extract 0 n) k = .error t) ∧
    ∀ t (more : Bytes), codec.decodeFrom b k = .error t → more.size < t.needed - t.available →
      ∃ t', codec.decodeFrom (b ++ more) k = .error t' ∧ t'.offset = t.offset := by
  constructor
  · intro value stop hk hdecode
    have hstop := codec.reads.stop_le_size hk hdecode
    exact ⟨codec.reads.le_stop hdecode, hstop, codec.reads.move hdecode,
      fun n hn hcut => codec.reads.cut hdecode hn hcut hstop⟩
  · intro t more hdecode hmore
    exact codec.reads.starve b k t more hdecode hmore

theorem decodeFrom_spawn_delimited :
    spawnCodec.decodeFrom #[7, 7, 65, 0, 0, 0, 1, 1, 0, 254, 255, 7] 2 =
        .ok (.record [("spawn", .record [("name", .text "A"), ("alive", .bool true)]),
          ("path", .list [.record [("x", .int (-2))]])], 11) ∧
      (∃ t, spawnCodec.decodeFrom #[9, 65, 0, 0, 0, 1, 1, 0, 254] 1 = .error t) ∧
      ∃ t, spawnCodec.decodeFrom #[9, 65, 0, 0, 0, 1, 1] 1 = .error t ∧ t.offset = 6 := by
  obtain ⟨hread, -⟩ := decodeFrom_delimited spawnCodec #[9, 65, 0, 0, 0, 1, 1, 0, 254, 255] 1
  obtain ⟨-, -, hmove, hcut⟩ := hread _ 10 (by decide) (by rfl)
  obtain ⟨-, hstarve⟩ := decodeFrom_delimited spawnCodec #[9, 65, 0, 0, 0, 1] 1
  exact ⟨hmove #[7, 7] #[7], hcut 9 (by decide) (by decide),
    hstarve ⟨6, 2, 0⟩ #[1] (by rfl) (by decide)⟩

end Codec

end PacketCodec
