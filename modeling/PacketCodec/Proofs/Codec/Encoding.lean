import PacketCodec.Proofs.Layout.Puts

namespace PacketCodec

namespace Codec

variable {set : TypeSet} {fields : FieldList} {name version value : Value} {codec : Codec} {n : Nat}

theorem measure_eq_ok_iff : codec.measure value = .ok n ↔
    Layout.entriesOf value [] = .ok value.entries ∧
      codec.layout.measure value.entries [] = .ok n :=
  Layout.entriesOf_bind_eq_ok_iff

theorem encode_of_measure_error {m : Misfit} (h : codec.measure value = .error m) (k : Nat) :
    codec.encode value k = .error (.misfit m) := by
  rw [encode, h]
  rfl

-- The empty buffer of the right size is balanced before anything is written.
theorem balanced_start (h : codec.measure value = .ok n) (k : Nat) :
    Put.Balanced ⟨Array.replicate (k + n) 0, k⟩ (codec.layout.puts value.entries []) := by
  have hn := (measure_eq_ok_iff.mp h).2
  exact ⟨n, Layout.measureAll_puts hn, Array.size_replicate.symm⟩

theorem length_encoding (hset : set.types = WireType.builtin)
    (hcodec : (set.codec fields name version).1 = .ok codec) (h : codec.measure value = .ok n) :
    (fields.encoding value.entries).length = n := by
  have hn := (measure_eq_ok_iff.mp h).2
  have hresolves := TypeSet.resolves_of_codec hcodec
  rw [← Layout.flatMap_encoding_puts hset hresolves _ []]
  exact Put.length_encoding (Layout.standard_puts hset hresolves _ _) (Layout.measureAll_puts hn)

-- The whole write pass.
theorem write_of_measure (hset : set.types = WireType.builtin)
    (hcodec : (set.codec fields name version).1 = .ok codec) (h : codec.measure value = .ok n)
    (k : Nat) :
    ∃ cursor, codec.layout.write ⟨Array.replicate (k + n) 0, k⟩ value.entries [] = .ok cursor ∧
      codec.encode value k = .ok cursor.buffer ∧ cursor.pos = k + n ∧
      cursor.buffer.toList = List.replicate k 0 ++ fields.encoding value.entries := by
  obtain ⟨hentries, hn⟩ := measure_eq_ok_iff.mp h
  have hresolves := TypeSet.resolves_of_codec hcodec
  have hlen := length_encoding hset hcodec h
  have hstart := balanced_start h k
  rw [← List.append_nil (codec.layout.puts _ _)] at hstart
  obtain ⟨hrun, -, -⟩ := hstart.foldlM_write (Layout.standard_puts hset hresolves _ _)
  rw [Layout.flatMap_encoding_puts hset hresolves, ← Layout.write_eq_foldlM hn] at hrun
  refine ⟨_, hrun, ?_, ?_, ?_⟩
  · rw [encode, h, mapError_ok, ok_bind, hentries, mapError_ok, ok_bind, hrun, ok_bind]
    rfl
  · rw [WriteCursor.pos_put, hlen]
  · rw [WriteCursor.toList_put, hlen]
    simp

-- Encoding fails exactly where measuring does, with the same misfit and with the
-- same failure for the caller, also where the misfit cannot be shown. Where
-- measuring gives a size, the write pass puts one field after the other without
-- failing. After each of them the buffer still has its size, and the position
-- and the sizes of the fields to come add up to it. In the end there are the
-- zeros in front, then the bytes of the value, and nothing else.
theorem encode_refines_encoding (hset : set.types = WireType.builtin)
    (hcodec : (set.codec fields name version).1 = .ok codec) (value : Value) (k : Nat) :
    (∀ fault, codec.encode value k = .error fault ↔
      ∃ m, codec.measure value = .error m ∧ fault = .misfit m) ∧
    (∀ e, (codec.encode value k).mapError WriteFault.failure = .error e ↔
      (codec.measure value).mapError Misfit.failure = .error e) ∧
    ∀ n, codec.measure value = .ok n →
      (∀ cursor, codec.layout.write cursor value.entries [] =
        (codec.layout.puts value.entries []).foldlM Put.write cursor) ∧
      (∀ done todo, codec.layout.puts value.entries [] = done ++ todo →
        ∃ cursor, done.foldlM Put.write ⟨Array.replicate (k + n) 0, k⟩ = .ok cursor ∧
          cursor.buffer.size = k + n ∧ Put.Balanced cursor todo) ∧
      ∃ cursor, codec.layout.write ⟨Array.replicate (k + n) 0, k⟩ value.entries [] = .ok cursor ∧
        codec.encode value k = .ok cursor.buffer ∧
        cursor.pos = k + n ∧ cursor.buffer.size = k + n ∧
        cursor.buffer.toList = List.replicate k 0 ++ fields.encoding value.entries := by
  refine ⟨fun fault => ?_, fun e => ?_, fun n h => ?_⟩
  · cases h : codec.measure value with
    | error m =>
        rw [encode_of_measure_error h]
        simp [eq_comm]
    | ok n =>
        obtain ⟨cursor, -, hencode, -, -⟩ := write_of_measure hset hcodec h k
        simp [hencode]
  · cases h : codec.measure value with
    | error m =>
        rw [encode_of_measure_error h, mapError_error, mapError_error, Except.error.injEq,
          Except.error.injEq]
        exact Iff.rfl
    | ok n =>
        obtain ⟨cursor, -, hencode, -, -⟩ := write_of_measure hset hcodec h k
        simp [hencode, mapError_ok]
  · refine ⟨Layout.write_eq_foldlM (measure_eq_ok_iff.mp h).2, fun done todo hputs => ?_, ?_⟩
    · have hstart := balanced_start h k
      have hstandard := Layout.standard_puts hset (TypeSet.resolves_of_codec hcodec)
        value.entries []
      rw [hputs] at hstart hstandard
      obtain ⟨hrun, hsize, htodo⟩ :=
        hstart.foldlM_write fun put hput => hstandard put (List.mem_append_left _ hput)
      exact ⟨_, hrun, hsize.trans Array.size_replicate, htodo⟩
    · obtain ⟨cursor, hwrite, hencode, hpos, hbytes⟩ := write_of_measure hset hcodec h k
      have hsize := congrArg List.length hbytes
      rw [List.length_append, List.length_replicate, length_encoding hset hcodec h,
        Array.length_toList] at hsize
      exact ⟨cursor, hwrite, hencode, hpos, hsize, hbytes⟩

-- An object and an array, with a text, a flag and numbers in them.
def spawnFields : FieldList :=
  .branch "spawn" "object" (.leaf "name" "string" (.leaf "alive" "bool" .nil))
    (.branch "path" "array" (.leaf "x" "int16" .nil) .nil)

def spawnCodec : Codec where
  layout :=
    .object "spawn" (.scalar "name" "string" .text (.scalar "alive" "bool" .flag .nil))
      (.array "path" "_count0" (.scalar "x" "int16" (.number (.integer true 2)) .nil) .nil)
  name := .null
  version := .null

theorem codec_spawnFields :
    ((TypeSet.new .null).codec spawnFields .null .null).1 = .ok spawnCodec := by
  rfl

theorem encode_spawn :
    ∃ buffer, spawnCodec.encode
        (.record [("path", .tuple [.record [("x", .int (-2))]]), ("spawn", .null)]) 3 = .ok buffer ∧
      buffer.toList = [0, 0, 0, 0, 0, 0, 1, 0, 254, 255] := by
  obtain ⟨-, -, hmeasured⟩ := encode_refines_encoding (TypeSet.types_new .null) codec_spawnFields
    (.record [("path", .tuple [.record [("x", .int (-2))]]), ("spawn", .null)]) 3
  obtain ⟨-, -, cursor, -, hencode, -, -, hbytes⟩ := hmeasured 7 (by rfl)
  exact ⟨cursor.buffer, hencode, hbytes⟩

end Codec

end PacketCodec
