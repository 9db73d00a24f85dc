import PacketCodec.Proofs.Codec.Encoding
import PacketCodec.Proofs.Failure
import PacketCodec.Proofs.Layout.Conforms

namespace PacketCodec

namespace Codec

variable {set : TypeSet} {fields : FieldList} {name version : Value} {codec : Codec}

theorem inspects_measure (hset : set.types = WireType.builtin)
    (hcodec : (set.codec fields name version).1 = .ok codec) (value : Value) :
    Inspects Node.Fits Node.Blames (fields.nodes value) (codec.measure value) := by
  apply (Layout.inspects_entriesOf value []).bind
  intro entries h
  obtain rfl := Layout.eq_entries_of_entriesOf h
  exact Layout.inspects_measure hset (TypeSet.resolves_of_codec hcodec)
    (TypeSet.wellFormed_of_codec hcodec) _ _

-- What does not fit in a value that can be shown is reported by the library.
theorem saysUnless_of_measure_error (hset : set.types = WireType.builtin)
    (hcodec : (set.codec fields name version).1 = .ok codec) {value : Value} {m : Misfit}
    (h : codec.measure value = .error m) :
    m.failure.SaysUnless (value.isShowable = false) := by
  obtain ⟨before, node, after, hsplit, -, -, hblames⟩ :=
    (inspects_measure hset hcodec value).exists_first h
  have hnode : node ∈ fields.nodes value := by rw [hsplit]; simp
  obtain ⟨text, htext⟩ := Failure.exists_says_typeValidation m.cause.message m.field
  refine (htext.showing _).mono fun hunshown => ?_
  by_contra hvalue
  have hshown := hblames.showable.mpr
    (fields.not_overlong_of_mem_nodes (Bool.not_eq_false _ ▸ hvalue) hnode)
  rw [hunshown] at hshown
  contradiction

-- A value is measured if and only if it conforms to the definition. Otherwise
-- the first node that does not fit is reported under its path, in wire order and
-- a container before its contents. Only where this node is a field for numbers
-- and its number has more digits than can be shown, it is the report that fails.
theorem measure_iff_conforms (hset : set.types = WireType.builtin)
    (hcodec : (set.codec fields name version).1 = .ok codec) (value : Value) :
    ((∃ n, codec.measure value = .ok n) ↔ fields.Conforms value) ∧
    ∀ m, codec.measure value = .error m →
      ∃ before node after, fields.nodes value = before ++ node :: after ∧
        (∀ earlier ∈ before, earlier.Fits) ∧ ¬node.Fits ∧ m.field = node.path ∧
        (¬node.Overlong → m.failure = .typeValidation (.text m.cause.message) node.path) ∧
        (node.Overlong → m.failure = .unwritable) := by
  have hinspects := inspects_measure hset hcodec value
  constructor
  · rw [FieldList.conforms_iff_forall_fits]
    exact hinspects.exists_ok_iff
  · intro m hm
    obtain ⟨before, node, after, hsplit, hbefore, hwrong, hblames⟩ := hinspects.exists_first hm
    refine ⟨before, node, after, hsplit, hbefore, hwrong, hblames.field, fun h => ?_, fun h => ?_⟩
    · rw [Misfit.failure, Failure.showing, if_pos (hblames.showable.mpr h), hblames.field]
    · rw [Misfit.failure, Failure.showing, if_neg fun hshown => hblames.showable.mp hshown h]

-- The second element has a number out of range, the third one none at all. The
-- object is missing, which is no mistake.
theorem measure_iff_conforms_spawn :
    let value := Value.record [("path", .tuple [.record [("x", .int 1)],
      .record [("x", .int 40000)], .null])]
    ¬spawnFields.Conforms value ∧
      ∃ before node after, spawnFields.nodes value = before ++ node :: after ∧
        (∀ earlier ∈ before, earlier.Fits) ∧ ¬node.Fits ∧ node.path = .text "path[1].x" := by
  intro value
  have hm : spawnCodec.measure value =
      .error ⟨.outOfRange 40000 (-32768) 32767, .text "path[1].x"⟩ := by
    rfl
  obtain ⟨hiff, hfirst⟩ :=
    measure_iff_conforms (TypeSet.types_new .null) codec_spawnFields value
  constructor
  · intro h
    obtain ⟨n, hn⟩ := hiff.mpr h
    rw [hm] at hn
    contradiction
  · obtain ⟨before, node, after, hsplit, hbefore, hwrong, hpath, -⟩ := hfirst _ hm
    exact ⟨before, node, after, hsplit, hbefore, hwrong, hpath.symm⟩

-- Null in the place of a record is taken for an empty one, also in the place of
-- the whole packet. It fits if all members may be missing, which a number may
-- not.
theorem measure_null_record :
    ∃ codec, ((TypeSet.new .null).codec (.branch "a" "array" (.leaf "x" "int16" .nil) .nil)
        .null .null).1 = .ok codec ∧
      codec.measure .null = .ok 2 ∧
      codec.measure (.record [("a", .list [.null])]) =
        .error ⟨.notInteger "NoneType", .text "a[0].x"⟩ :=
  ⟨_, rfl, by rfl, by rfl⟩

end Codec

end PacketCodec
