import PacketCodec.Proofs.Codec.Conforms
import PacketCodec.Proofs.Codec.SelfDelimiting
import PacketCodec.Proofs.Frame.Header
import PacketCodec.Proofs.Layout.RoundTrip
import PacketCodec.Proofs.Registry.Anew

namespace PacketCodec

-- A packet can be looked up if its name is a key, as every text is.
def Identity.Valid : Identity → Prop
  | .name value => value.key = .ok value
  | .opcode _ => True

namespace Registry

-- A frame of a value: a header with the size and the opcode, then the value.
structure IsFrame (fields : FieldList) (opcode : Nat) (value : Value) (frame : Bytes) : Prop where
  size_le : frame.size ≤ Frame.maxSize
  toList : frame.toList = Frame.head frame.size opcode ++ fields.encoding value.entries

variable {set : TypeSet} {fields : FieldList} {name version value : Value} {codec : Codec}
  {opcode size : Nat} {frame : Bytes}

section Codec

theorem frameLength_eq_ok_iff : frameLength codec value = .ok size ↔
    ∃ n, codec.measure value = .ok n ∧ size = Frame.headerSize + n := by
  simp only [frameLength, bind_eq_ok_iff, mapError_eq_ok_iff]
  constructor
  · rintro ⟨n, hmeasure, ⟨⟩⟩
    exact ⟨n, hmeasure, rfl⟩
  · rintro ⟨n, hmeasure, rfl⟩
    exact ⟨n, hmeasure, rfl⟩

theorem size_eq_of_toList {rest : List UInt8}
    (h : frame.toList = Frame.head size opcode ++ rest) :
    frame.size = Frame.headerSize + rest.length := by
  rw [← Array.length_toList, h, List.length_append, Frame.length_head]

variable (hset : set.types = WireType.builtin)
  (hcodec : (set.codec fields name version).1 = .ok codec)

include hset hcodec

-- A value that does not fit has neither a length nor a frame. A value that fits
-- has a length, and it has a frame of that length unless it is too large.
theorem encodeFrame_cases (hopcode : opcode ≤ Frame.maxSize) (value : Value) :
    (∃ e : Failure, e.SaysUnless (value.isShowable = false) ∧
      frameLength codec value = .error e ∧ encodeFrame codec opcode value = .error e) ∨
    (∃ size : Nat, frameLength codec value = .ok size ∧ Frame.maxSize < size ∧
      encodeFrame codec opcode value = .error (.oversize (.int size) (.int Frame.maxSize))) ∨
    ∃ frame, frameLength codec value = .ok frame.size ∧
      encodeFrame codec opcode value = .ok frame ∧ IsFrame fields opcode value frame := by
  cases hmeasure : codec.measure value with
  | error m =>
      refine .inl ⟨m.failure, Codec.saysUnless_of_measure_error hset hcodec hmeasure, ?_, ?_⟩
      · rw [frameLength, hmeasure]
        rfl
      · rw [encodeFrame, Codec.encode_of_measure_error hmeasure]
        rfl
  | ok n =>
      -- the value fills the rest of the buffer and leaves the header free
      have hlength := frameLength_eq_ok_iff.mpr ⟨n, hmeasure, rfl⟩
      have hlen := Codec.length_encoding hset hcodec hmeasure
      obtain ⟨cursor, -, hencode, -, hbytes⟩ :=
        Codec.write_of_measure hset hcodec hmeasure Frame.headerSize
      have hsize : cursor.buffer.size = Frame.headerSize + n := by
        rw [← Array.length_toList, hbytes, List.length_append, List.length_replicate, hlen]
      have hframe : encodeFrame codec opcode value =
          (Frame.fillHeader cursor.buffer opcode).mapError Frame.HeaderError.failure := by
        rw [encodeFrame, hencode]
        rfl
      by_cases hlarge : Frame.maxSize < Frame.headerSize + n
      · refine .inr (.inl ⟨_, hlength, hlarge, ?_⟩)
        rw [hframe, Frame.fillHeader, hsize, if_pos hlarge]
        rfl
      · have hfits := Nat.not_lt.mp hlarge
        obtain ⟨frame, hfill, htoList⟩ := Frame.fillHeader_free hbytes (hsize ▸ hfits) hopcode
        have hsame : frame.size = Frame.headerSize + n := hlen ▸ size_eq_of_toList htoList
        refine .inr (.inr ⟨frame, hsame ▸ hlength, ?_, hsame ▸ hfits, ?_⟩)
        · rw [hframe, hfill]
          rfl
        · rw [htoList, hsame, hsize]

theorem decodeFrame_of_isFrame (hplain : ∀ t ∈ value.texts, 0 ∉ t ∧ t.Unpaired)
    (hlength : frameLength codec value = .ok size) (hopcode : opcode ≤ Frame.maxSize)
    (hframe : IsFrame fields opcode value frame) :
    decodeFrame codec frame = .ok (.record (fields.normal value.entries)) := by
  obtain ⟨n, hmeasure, -⟩ := frameLength_eq_ok_iff.mp hlength
  have hspells := Layout.spells_encoding hset (TypeSet.resolves_of_codec hcodec)
    (fun t ht => hplain t (value.textsOfEntries_entries_subset ht))
    (Codec.measure_eq_ok_iff.mp hmeasure).2
  have hholds : frame.Holds Frame.headerSize (fields.encoding value.entries) := by
    rw [Bytes.Holds, hframe.toList, List.drop_left' Frame.length_head]
  have hroom : Frame.headerSize ≤ frame.size := by
    rw [size_eq_of_toList hframe.toList]
    exact Nat.le_add_right _ _
  have hdecode := codec.reads.complete _ _ _ _ hroom hholds ⟨_, hspells, rfl⟩
  rw [decodeFrame, (Frame.decode_head hframe.toList hframe.size_le hopcode).1, mapError_ok, ok_bind,
    Codec.decode, hdecode]
  rfl

end Codec

variable {r : Registry} {definitions : DefinitionTable} {identity other : Identity} {e : Failure}
  {opcode? : Option Nat} {found : Value}

section Resolve

theorem opcodeOf_le (h : r.WellFormed definitions) (hopcode : r.opcodeOf identity = .ok opcode?) :
    opcode?.getD 0 ≤ Frame.maxSize := by
  cases identity with
  | name value =>
      obtain ⟨key, -, rfl⟩ := map_eq_ok_iff.mp hopcode
      cases hcode : r.packets.codeOf key with
      | none => exact Nat.zero_le _
      | some code => exact (h.packets.nameOf_of_codeOf hcode).1
  | opcode n =>
      cases hopcode
      exact Nat.le_of_lt_succ n.isLt

-- The definition of a packet, by its name and the version that it is resolved to.
def DefinedBy (r : Registry) (definitions : DefinitionTable) (identity : Identity)
    (version : Value) (fields : FieldList) : Prop :=
  ∃ name found, r.nameOf identity = .ok name ∧ resolveVersion definitions name version = .ok found ∧
    definitions.get name found = .ok fields

theorem exists_definedBy (hcodec : r.codecAnew definitions identity version = .ok codec) :
    ∃ fields name found, r.DefinedBy definitions identity version fields ∧
      (r.types.codec fields name found).1 = .ok codec := by
  obtain ⟨name, opcode?, found, hresolve, hcompile⟩ := codecAnew_eq_ok_iff.mp hcodec
  obtain ⟨hname, -, hfound⟩ := resolve_eq_ok_iff.mp hresolve
  obtain ⟨fields, hget, hcodec⟩ := compileAnew_eq_ok_iff.mp hcompile
  exact ⟨fields, name, found, ⟨name, found, hname, hfound, hget⟩, hcodec⟩

theorem exists_opcodeOf (r : Registry) (hvalid : identity.Valid) :
    ∃ opcode?, r.opcodeOf identity = .ok opcode? := by
  cases identity with
  | name value =>
      have hkey : value.key = .ok value := hvalid
      exact ⟨_, by rw [opcodeOf, hkey]; rfl⟩
  | opcode n => exact ⟨some n.val, rfl⟩

theorem valid_of_nameOf (hname : r.nameOf identity = .ok name) (hkey : name.key = .ok name) :
    identity.Valid := by
  cases identity with
  | name value =>
      cases hname
      exact hkey
  | opcode n => trivial

-- A packet has the same codec under each of its names and opcodes.
theorem codecAnew_of_nameOf_eq (h : r.WellFormed definitions)
    (hname : r.nameOf other = r.nameOf identity)
    (hcodec : r.codecAnew definitions identity version = .ok codec) :
    r.codecAnew definitions other version = .ok codec := by
  obtain ⟨name, _, found, hresolve, hcompile⟩ := codecAnew_eq_ok_iff.mp hcodec
  have hkey := (resolved_of_resolve h.packets h.whole hresolve).key
  obtain ⟨hown, -, hfound⟩ := resolve_eq_ok_iff.mp hresolve
  rw [hown] at hname
  obtain ⟨opcode?, hopcode⟩ := r.exists_opcodeOf (valid_of_nameOf hname hkey)
  exact codecAnew_eq_ok_iff.mpr
    ⟨name, opcode?, found, resolve_eq_ok_iff.mpr ⟨hname, hopcode, hfound⟩, hcompile⟩

end Resolve

section Own

theorem key_of_nameOf (h : r.WellFormed definitions) (hvalid : identity.Valid)
    (hname : r.nameOf identity = .ok name) : name.key = .ok name := by
  cases identity with
  | name value =>
      cases hname
      exact hvalid
  | opcode n =>
      have hpaired := h.packets.ofTexts.paired
      obtain ⟨t, rfl⟩ := hpaired.exists_text_of_nameOf ((nameOf_opcode_eq_ok_iff hpaired).mp hname)
      rfl

-- What a version is resolved to is the version itself, unless it is the wildcard,
-- which stands for a version with a definition.
theorem resolveVersion_cases (hdefs : definitions.Whole) (hname : name.key = .ok name)
    (h : resolveVersion definitions name version = .ok found) :
    found = version ∨ ∃ fields, definitions.get name found = .ok fields := by
  unfold resolveVersion at h
  split at h
  · split at h
    · cases h
      exact .inl rfl
    · contradiction
  · split at h
    · have hlatest := mapError_eq_ok_iff.mp h
      rcases definitions.latest_cases hdefs hname with hnone | ⟨highest, hmem, hsome, -⟩
      · rw [hnone] at hlatest
        contradiction
      · obtain rfl : highest = found := Except.ok.inj (hsome.symm.trans hlatest)
        exact .inr (DefinitionTable.exists_get_of_mem_keys hdefs hname hmem)
    · contradiction
  · contradiction

theorem saysUnless_of_invalidVersion (version name : Value) :
    (ResolveError.invalidVersion version name).failure.SaysUnless (version.isShowable = false) :=
  ((Failure.says_saying rfl rfl _).showing _).mono (by simp)

theorem saysUnless_of_resolveVersion_error (hdefs : definitions.Whole)
    (hname : name.key = .ok name) {fault : ResolveError}
    (h : resolveVersion definitions name version = .error fault) :
    fault.failure.SaysUnless (version.isShowable = false) := by
  unfold resolveVersion at h
  split at h
  · split at h
    · contradiction
    · cases h
      exact saysUnless_of_invalidVersion _ _
  · split at h
    · obtain ⟨cause, hlatest, rfl⟩ := mapError_eq_error_iff.mp h
      rcases definitions.latest_cases hdefs hname with hnone | ⟨version, -, hsome, -⟩
      · rw [hnone] at hlatest
        cases hlatest
        exact .inl ⟨_, Failure.says_saying rfl rfl _⟩
      · rw [hsome] at hlatest
        contradiction
    · cases h
      exact saysUnless_of_invalidVersion _ _
  · cases h
    exact saysUnless_of_invalidVersion _ _

theorem says_of_nameOf_error {fault : ResolveError} (h : r.nameOf identity = .error fault) :
    ∃ m, fault.failure.Says m := by
  unfold nameOf at h
  split at h
  · contradiction
  · split at h <;> cases h <;> exact ⟨_, Failure.says_saying rfl rfl _⟩

theorem saysUnless_of_resolve_error (h : r.WellFormed definitions) (hvalid : identity.Valid)
    {fault : ResolveError} (herror : r.resolve definitions identity version = .error fault) :
    fault.failure.SaysUnless (version.isShowable = false) := by
  obtain ⟨opcode?, hopcode⟩ := r.exists_opcodeOf hvalid
  cases hname : r.nameOf identity with
  | error cause =>
      rw [resolve, hname] at herror
      cases herror
      exact .inl (says_of_nameOf_error hname)
  | ok name =>
      simp only [resolve, hname, hopcode, mapError_ok, ok_bind] at herror
      cases hversion : resolveVersion definitions name version with
      | error cause =>
          rw [hversion] at herror
          cases herror
          exact saysUnless_of_resolveVersion_error h.whole (key_of_nameOf h hvalid hname) hversion
      | ok found =>
          rw [hversion] at herror
          contradiction

-- Where a packet has no codec, it is the library that says so, unless the version
-- cannot be shown.
theorem saysUnless_of_codecAnew_error (h : r.WellFormed definitions) (hvalid : identity.Valid)
    (herror : r.codecAnew definitions identity version = .error e) :
    e.SaysUnless (version.isShowable = false) := by
  unfold codecAnew at herror
  cases hresolve : r.resolve definitions identity version with
  | error fault =>
      rw [hresolve] at herror
      cases herror
      exact saysUnless_of_resolve_error h hvalid hresolve
  | ok packet =>
      obtain ⟨name, opcode?, found⟩ := packet
      rw [hresolve] at herror
      obtain ⟨hname, ⟨n, hversion⟩, -⟩ := resolved_of_resolve h.packets h.whole hresolve
      simp only [compileAnew] at herror
      cases hget : definitions.get name found with
      | error cause =>
          rw [hget] at herror
          cases herror
          have hfound := (resolve_eq_ok_iff.mp hresolve).2.2
          rcases resolveVersion_cases h.whole hname hfound with rfl | ⟨fields, hfields⟩
          · exact DefinitionTable.saysUnless_of_get_error hname (Value.key_of_integer? hversion)
              hget
          · rw [hget] at hfields
            contradiction
      | ok fields =>
          rw [hget, mapError_ok, ok_bind] at herror
          obtain ⟨cause, -, rfl⟩ := mapError_eq_error_iff.mp herror
          exact .inl ⟨_, Failure.says_saying rfl rfl _⟩

end Own

section Packet

theorem lengthAnew_of_codecAnew (hcodec : r.codecAnew definitions identity version = .ok codec)
    (value : Value) : r.lengthAnew definitions identity version value =
      (frameLength codec value).mapError (r.writingFailed identity) := by
  rw [lengthAnew, hcodec]
  rfl

theorem writeAnew_of_codecAnew (hcodec : r.codecAnew definitions identity version = .ok codec)
    (hopcode : r.opcodeOf identity = .ok opcode?) (value : Value) :
    r.writeAnew definitions identity version value =
      (encodeFrame codec (opcode?.getD 0) value).mapError (r.writingFailed identity) := by
  rw [writeAnew, hcodec, hopcode]
  rfl

-- A frame is only written where there is a codec and an opcode to write it with.
theorem of_writeAnew (h : r.writeAnew definitions identity version value = .ok frame) :
    ∃ codec opcode?, r.codecAnew definitions identity version = .ok codec ∧
      r.opcodeOf identity = .ok opcode? ∧
      encodeFrame codec (opcode?.getD 0) value = .ok frame := by
  simpa only [writeAnew, mapError_eq_ok_iff, bind_eq_ok_iff, exists_and_left] using h

theorem writeAnew_cases (h : r.WellFormed definitions) (hvalid : identity.Valid)
    (version value : Value) :
    (∃ e : Failure, e.SaysUnless (version.isShowable = false ∨ value.isShowable = false) ∧
      r.lengthAnew definitions identity version value = .error (r.writingFailed identity e) ∧
      r.writeAnew definitions identity version value = .error (r.writingFailed identity e)) ∨
    (∃ size : Nat, r.lengthAnew definitions identity version value = .ok size ∧
      Frame.maxSize < size ∧ r.writeAnew definitions identity version value =
        .error (r.writingFailed identity (.oversize (.int size) (.int Frame.maxSize)))) ∨
    ∃ frame : Bytes, r.lengthAnew definitions identity version value = .ok frame.size ∧
      frame.size ≤ Frame.maxSize ∧
      r.writeAnew definitions identity version value = .ok frame := by
  obtain ⟨opcode?, hopcode⟩ := r.exists_opcodeOf hvalid
  cases hcodec : r.codecAnew definitions identity version with
  | error e =>
      have hsays := saysUnless_of_codecAnew_error h hvalid hcodec
      refine .inl ⟨e, hsays.mono .inl, ?_, ?_⟩
      · rw [lengthAnew, hcodec]
        rfl
      · rw [writeAnew, hcodec]
        rfl
  | ok codec =>
      rw [lengthAnew_of_codecAnew hcodec, writeAnew_of_codecAnew hcodec hopcode]
      obtain ⟨fields, name, found, -, hcompile⟩ := exists_definedBy hcodec
      rcases encodeFrame_cases h.types hcompile (opcodeOf_le h hopcode) value with
        ⟨e, hsays, hlength, hwrite⟩ | ⟨size, hlength, hlarge, hwrite⟩ |
        ⟨frame, hlength, hwrite, hframe⟩
      · rw [hlength, hwrite]
        exact .inl ⟨e, hsays.mono .inr, rfl, rfl⟩
      · rw [hlength, hwrite]
        exact .inr (.inl ⟨size, rfl, hlarge, rfl⟩)
      · rw [hlength, hwrite]
        exact .inr (.inr ⟨frame, rfl, hframe.size_le, rfl⟩)

-- What is written has the length that was found, and under every identity of the
-- same packet it is read back in its normal form.
theorem exists_isFrame_of_writeAnew (h : r.WellFormed definitions)
    (hwrite : r.writeAnew definitions identity version value = .ok frame) :
    ∃ opcode? fields, r.opcodeOf identity = .ok opcode? ∧
      r.DefinedBy definitions identity version fields ∧
      opcode?.getD 0 ≤ Frame.maxSize ∧ IsFrame fields (opcode?.getD 0) value frame ∧
      r.lengthAnew definitions identity version value = .ok frame.size ∧
      ((∀ t ∈ value.texts, 0 ∉ t ∧ t.Unpaired) →
        ∀ other, r.nameOf other = r.nameOf identity →
          r.readAnew definitions other version frame =
            .ok (.record (fields.normal value.entries))) := by
  obtain ⟨codec, opcode?, hcodec, hopcode, hencode⟩ := of_writeAnew hwrite
  obtain ⟨fields, name, found, hdefined, hcompile⟩ := exists_definedBy hcodec
  have hbound := opcodeOf_le h hopcode
  rcases encodeFrame_cases h.types hcompile hbound value with
    ⟨e, -, -, herror⟩ | ⟨size, -, -, herror⟩ | ⟨written, hlength, hok, hframe⟩
  · rw [hencode] at herror
    contradiction
  · rw [hencode] at herror
    contradiction
  · obtain rfl : frame = written := Except.ok.inj (hencode.symm.trans hok)
    refine ⟨opcode?, fields, hopcode, hdefined, hbound, hframe, ?_, fun hplain other hname => ?_⟩
    · rw [lengthAnew_of_codecAnew hcodec, hlength, mapError_ok]
    · have hother := codecAnew_of_nameOf_eq h hname hcodec
      have hdecode := decodeFrame_of_isFrame h.types hcompile hplain hlength hbound hframe
      rw [readAnew, hother]
      exact congrArg (·.mapError (r.parsingFailed other frame)) hdecode

end Packet

section Build

variable {tree : FileTree} {settings : Option Settings} {given : Given} {identifier : Text}

-- Whatever was asked of a registry since it was built, a frame that it writes
-- holds its own size, the opcode of the packet and three zeros in front of the
-- value. Its size is the length that is found for the value, and it is read back,
-- also by registries of which other things were asked.
theorem write_run_of_build (hbuild : (build tree settings given identifier).1 = .ok r)
    (hgiven : ∀ map, given.packets = some map → map.OfTexts) (hdefs : definitions.Whole)
    (requests : List Request)
    (hwrite : ((r.run definitions requests).write definitions identity version value).outcome =
      .ok frame) :
    ∃ opcode? fields, r.opcodeOf identity = .ok opcode? ∧
      r.DefinedBy definitions identity version fields ∧
      IsFrame fields (opcode?.getD 0) value frame ∧
      Frame.Header.decode frame = .ok ⟨frame.size, (opcode?.getD 0 : Nat), [0, 0, 0]⟩ ∧
      Frame.opcode? frame = some (opcode?.getD 0) ∧
      ∀ others, let s := r.run definitions others
        (s.length definitions identity version value).outcome = .ok frame.size ∧
        ((∀ t ∈ value.texts, 0 ∉ t ∧ t.Unpaired) →
          ∀ other, r.nameOf other = r.nameOf identity →
            (s.read definitions other version frame).outcome =
              .ok (.record (fields.normal value.entries))) := by
  have hbuilt := wellFormed_of_build hbuild hgiven hdefs
  obtain ⟨hrun, hkeeps⟩ := wellFormed_run hbuilt requests
  rw [outcome_write hkeeps hrun] at hwrite
  obtain ⟨opcode?, fields, hopcode, hdefined, hbound, hframe, hlength, hread⟩ :=
    exists_isFrame_of_writeAnew hbuilt hwrite
  obtain ⟨hheader, hpeek⟩ := Frame.decode_head hframe.toList hframe.size_le hbound
  refine ⟨opcode?, fields, hopcode, hdefined, hframe, hheader, hpeek, fun others => ?_⟩
  obtain ⟨hrun, hkeeps⟩ := wellFormed_run hbuilt others
  refine ⟨?_, fun hplain other hname => ?_⟩
  · rw [outcome_length hkeeps hrun, hlength]
  · rw [outcome_read hkeeps hrun, hread hplain other hname]

-- What is written by opcode is read by name, after the wildcard was used.
theorem write_run_of_build_move :
    ∃ frame : Bytes, frame = #[9, 0, 5, 0, 0, 0, 0, 3, 0] ∧
      ((moveRegistry.run moveDefinitions []).write moveDefinitions (.opcode 5) (.int 1)
        (.record [("x", .int 3)])).outcome = .ok frame ∧
      Frame.opcode? frame = some 5 ∧
      ((moveRegistry.run moveDefinitions [.codec (.opcode 5) (.text "latest")]).read moveDefinitions
        (.name (.text "MOVE")) (.int 1) frame).outcome = .ok (.record [("x", .int 3)]) := by
  have hwrite : ((moveRegistry.run moveDefinitions []).write moveDefinitions (.opcode 5) (.int 1)
      (.record [("x", .int 3)])).outcome = .ok #[9, 0, 5, 0, 0, 0, 0, 3, 0] := by
    rfl
  obtain ⟨opcode?, fields, hopcode, ⟨name, found, hname, hfound, hget⟩, -, -, hpeek, hothers⟩ :=
    write_run_of_build build_move given_move whole_move [] hwrite
  cases hopcode
  cases hname
  cases hfound
  cases hget
  exact ⟨_, rfl, hwrite, hpeek, (hothers [.codec (.opcode 5) (.text "latest")]).2
    (by simp [Value.texts, Value.textsOfEntries]) (.name (.text "MOVE")) (by rfl)⟩

-- Whatever was asked of a registry since it was built, a packet can be written
-- where its length is found and is not too large, and then that is the size of the
-- frame. Otherwise writing fails as finding the length does, or because of the
-- length. No fault comes from the layers below unless the version or the value holds
-- a number that cannot be shown, and what is compiled on the way is the same.
theorem write_run_iff_length (hbuild : (build tree settings given identifier).1 = .ok r)
    (hgiven : ∀ map, given.packets = some map → map.OfTexts) (hdefs : definitions.Whole)
    (requests : List Request) (identity : Identity) (hvalid : identity.Valid)
    (version value : Value) :
    let s := r.run definitions requests
    let length := s.length definitions identity version value
    let write := s.write definitions identity version value
    ((∃ frame, write.outcome = .ok frame) ↔ ∃ n, length.outcome = .ok n ∧ n ≤ Frame.maxSize) ∧
    (∀ frame, write.outcome = .ok frame → length.outcome = .ok frame.size) ∧
    (∀ e, length.outcome = .error e → write.outcome = .error e) ∧
    (∀ n : Nat, length.outcome = .ok n → Frame.maxSize < n →
      ∃ e, write.outcome = .error e ∧ e.fault = .frameTooLarge (.int n) (.int Frame.maxSize)) ∧
    (∀ e, write.outcome = .error e ∨ length.outcome = .error e → e.fault.isOwn = true ∨
      e.fault = .badValue ∧ (version.isShowable = false ∨ value.isShowable = false)) ∧
    write.registry = length.registry := by
  intro s length write
  have hbuilt := wellFormed_of_build hbuild hgiven hdefs
  obtain ⟨hrun, hkeeps⟩ := wellFormed_run hbuilt requests
  have hlength : length.outcome = r.lengthAnew definitions identity version value :=
    outcome_length hkeeps hrun identity version value
  have hwrite : write.outcome = r.writeAnew definitions identity version value :=
    outcome_write hkeeps hrun identity version value
  rw [hlength, hwrite]
  rcases writeAnew_cases hbuilt hvalid version value with
    ⟨e, hsays, hlength, hwrite⟩ | ⟨size, hlength, hlarge, hwrite⟩ | ⟨frame, hlength, hfits, hwrite⟩
  · have hfault := hsays.fault_annotate (Text.join ["Error writing ", r.describe identity])
      (r.nameOrNull identity)
    rw [hlength, hwrite]
    refine ⟨by simp, by simp, by simp, by simp, ?_, rfl⟩
    rintro e' (he | he) <;> (cases he; exact hfault)
  · rw [hlength, hwrite]
    refine ⟨by simpa using hlarge, by simp, by simp, fun n hn _ => ?_, ?_, rfl⟩
    · cases hn
      exact ⟨_, rfl, rfl⟩
    · rintro e (he | he)
      · cases he
        exact .inl rfl
      · contradiction
  · rw [hlength, hwrite]
    exact ⟨by simpa using hfits, by simp, by simp, by simpa using hfits, by simp, rfl⟩

theorem write_run_iff_length_move :
    ∃ frame, ((moveRegistry.run moveDefinitions []).write moveDefinitions (.name (.text "MOVE"))
      (.int 1) (.record [("x", .int 3)])).outcome = .ok frame := by
  obtain ⟨hfits, -⟩ := write_run_iff_length build_move given_move whole_move []
    (.name (.text "MOVE")) Value.key_text (.int 1) (.record [("x", .int 3)])
  exact hfits.mpr ⟨9, by rfl, by decide⟩

-- A number that is out of range and cannot be shown.
theorem length_of_unwritable {n : Int} (hlarge : 32767 < n) (hlong : Text.isWritable n = false) :
    (moveRegistry.length moveDefinitions (.opcode 5) (.int 1) (.record [("x", .int n)])).outcome =
      .error (moveRegistry.writingFailed (.opcode 5) .unwritable) := by
  have hcheck := NumberType.check_integer_int true 2 n
  have hhigh : (Packing.whole true 2).high = 32767 := by decide
  generalize (Packing.whole true 2).low = low at hcheck
  rw [hhigh, if_neg fun h => absurd h.2 (Int.not_le.mpr hlarge)] at hcheck
  have hfield : (WireType.number (.integer true 2)).measure (.int n) (.text "x") =
      .error ⟨.outOfRange n low 32767, .text "x"⟩ := by
    rw [WireType.measure, hcheck]
  have hmisfit : Misfit.failure ⟨.outOfRange n low 32767, .text "x"⟩ = .unwritable := by
    rw [Misfit.failure, Failure.showing, if_neg]
    simp [MisfitCause.shownValues, Value.isShowable, hlong]
  change Except.mapError _ (Except.mapError Misfit.failure
    (WireType.measure (.number (.integer true 2)) (.int n) (.text "x") >>= _) >>= _) = _
  rw [hfield, error_bind, mapError_error, error_bind, mapError_error, hmisfit]

-- A version of one and a half.
def halfDefinitions : DefinitionTable :=
  (DefinitionTable.empty.add (.text "MOVE") (.double (Binary.ofBits 0x3FF8000000000000))
    (.leaf "x" "int16" .nil)).2

-- Neither a version in the table that is no whole number nor a number that cannot be
-- shown is reported as a failure of the library.
theorem length_unreported :
    (∃ e, (moveRegistry.length halfDefinitions (.opcode 5) (.text "latest")
        (.record [("x", .int 1)])).outcome = .error e ∧ e.fault = .badType) ∧
      ∃ e, (moveRegistry.length moveDefinitions (.opcode 5) (.int 1)
        (.record [("x", .int (10 ^ Text.maxDigits : Nat))])).outcome = .error e ∧
          e.fault = .badValue := by
  refine ⟨⟨_, by rfl, by rfl⟩, ?_⟩
  have hlong : Text.isWritable (10 ^ Text.maxDigits : Nat) = false := by
    rw [← Bool.not_eq_true, Text.isWritable_iff, Int.natAbs_natCast]
    exact Nat.lt_irrefl _
  have hlarge : 32767 < ((10 ^ Text.maxDigits : Nat) : Int) := by
    have hpow : 10 ^ 5 ≤ 10 ^ Text.maxDigits := Nat.pow_le_pow_right (by decide) (by decide)
    omega
  exact ⟨_, length_of_unwritable hlarge hlong, rfl⟩

end Build

end Registry

end PacketCodec
