import PacketCodec.Proofs.Registry.Coherent

namespace PacketCodec

theorem Identity.ofOpcode_natCast {n : Nat} (h : n < 0x10000) :
    ofOpcode (.int n) = .ok (.opcode ⟨n, h⟩) := by
  simp [ofOpcode, h]

namespace Registry

variable {r s : Registry} {definitions : DefinitionTable} {identity : Identity}
  {version value : Value} {frame : Bytes} {codec other : Codec} {t : Text} {code : Nat}

-- Reading, writing and measuring where every request compiles the definition of
-- its packet and nothing is kept.

def readAnew (r : Registry) (definitions : DefinitionTable) (identity : Identity)
    (version : Value) (frame : Bytes) : Except Failure Value :=
  ((r.codecAnew definitions identity version).bind fun codec =>
    decodeFrame codec frame).mapError (r.parsingFailed identity frame)

def writeAnew (r : Registry) (definitions : DefinitionTable) (identity : Identity)
    (version value : Value) : Except Failure Bytes :=
  (do
    let codec ← r.codecAnew definitions identity version
    let opcode ← (r.opcodeOf identity).mapError NotKey.failure
    encodeFrame codec (opcode.getD 0) value).mapError (r.writingFailed identity)

def lengthAnew (r : Registry) (definitions : DefinitionTable) (identity : Identity)
    (version value : Value) : Except Failure Nat :=
  ((r.codecAnew definitions identity version).bind fun codec =>
    frameLength codec value).mapError (r.writingFailed identity)

-- One registry answers as another one would that compiles every codec anew.
structure AnswersAnew (s r : Registry) (definitions : DefinitionTable) : Prop where
  read : ∀ identity version frame, (s.read definitions identity version frame).outcome =
    r.readAnew definitions identity version frame
  write : ∀ identity version value, (s.write definitions identity version value).outcome =
    r.writeAnew definitions identity version value
  length : ∀ identity version value, (s.length definitions identity version value).outcome =
    r.lengthAnew definitions identity version value

-- Two identities that nothing which is asked of a registry can tell apart, not
-- even by what is kept or reported.
structure Interchangeable (s : Registry) (definitions : DefinitionTable)
    (identity other : Identity) : Prop where
  read : ∀ version frame, s.read definitions identity version frame =
    s.read definitions other version frame
  write : ∀ version value, s.write definitions identity version value =
    s.write definitions other version value
  length : ∀ version value, s.length definitions identity version value =
    s.length definitions other version value

section Form

theorem decodeFrame_congr (h : codec.form = other.form) :
    decodeFrame codec = decodeFrame other := by
  funext frame
  simp only [decodeFrame, Codec.decode_congr h]

theorem encodeFrame_congr (h : codec.form = other.form) :
    encodeFrame codec = encodeFrame other := by
  funext opcode value
  simp only [encodeFrame, Codec.encode_congr h]

theorem frameLength_congr (h : codec.form = other.form) :
    frameLength codec = frameLength other := by
  funext value
  simp only [frameLength, Codec.measure_congr h]

-- What is done with a codec that was served depends on its form alone.
theorem bind_congr_form {α : Type} {e e' : Except Failure Codec} {f : Codec → Except Failure α}
    (h : e.map Codec.form = e'.map Codec.form)
    (hf : ∀ codec other : Codec, codec.form = other.form → f codec = f other) :
    e.bind f = e'.bind f := by
  cases e with
  | error fault =>
      cases e' with
      | error fault' =>
          cases h
          rfl
      | ok other => contradiction
  | ok codec =>
      cases e' with
      | error fault' => contradiction
      | ok other => exact hf codec other (Except.ok.inj h)

end Form

section Same

theorem opcodeOf_congr (h : s.packets = r.packets) (identity : Identity) :
    s.opcodeOf identity = r.opcodeOf identity := by
  cases identity <;> simp only [opcodeOf, h]

theorem resolve_congr (h : s.packets = r.packets) (definitions : DefinitionTable)
    (identity : Identity) (version : Value) :
    s.resolve definitions identity version = r.resolve definitions identity version := by
  have hname : s.nameOf identity = r.nameOf identity := by cases identity <;> simp only [nameOf, h]
  simp only [resolve, hname, opcodeOf_congr h]

theorem nameOrNull_congr (h : s.packets = r.packets) (identity : Identity) :
    s.nameOrNull identity = r.nameOrNull identity := by
  cases identity <;> simp only [nameOrNull, h]

theorem describe_congr (h : s.packets = r.packets) (identity : Identity) :
    s.describe identity = r.describe identity := by
  unfold describe
  rw [nameOrNull_congr h]

theorem parsingFailed_congr (h : s.packets = r.packets) (identity : Identity) (frame : Bytes) :
    s.parsingFailed identity frame = r.parsingFailed identity frame := by
  have hframe : s.nameInFrame frame = r.nameInFrame frame := by simp only [nameInFrame, h]
  funext e
  unfold parsingFailed
  rw [hframe, describe_congr h]

theorem writingFailed_congr (h : s.packets = r.packets) (identity : Identity) :
    s.writingFailed identity = r.writingFailed identity := by
  funext e
  simp only [writingFailed, describe_congr h, nameOrNull_congr h]

theorem codecAnew_of_keeps (h : r.Keeps s) (definitions : DefinitionTable) (identity : Identity)
    (version : Value) :
    (s.codecAnew definitions identity version).map Codec.form =
      (r.codecAnew definitions identity version).map Codec.form := by
  rw [codecAnew, codecAnew, resolve_congr h.packets]
  cases r.resolve definitions identity version with
  | error e => rfl
  | ok packet => exact compileAnew_congr h.types packet.1 packet.2.2

end Same

section Outcome

-- The outcomes of a registry that grew out of another, by what the other one
-- would compile anew.
variable (hkeeps : r.Keeps s) (h : s.WellFormed definitions)

include hkeeps h

theorem outcome_codec_form (identity : Identity) (version : Value) :
    (s.codec definitions identity version).outcome.map Codec.form =
      (r.codecAnew definitions identity version).map Codec.form := by
  rw [(serves_codec h identity version).form, codecAnew_of_keeps hkeeps]

theorem outcome_read (identity : Identity) (version : Value) (frame : Bytes) :
    (s.read definitions identity version frame).outcome =
      r.readAnew definitions identity version frame := by
  have hform := outcome_codec_form hkeeps h identity version
  have hbind := bind_congr_form hform fun _ _ heq => congrFun (decodeFrame_congr heq) frame
  unfold readAnew
  rw [← hbind, ← parsingFailed_congr hkeeps.packets]
  rfl

theorem outcome_write (identity : Identity) (version value : Value) :
    (s.write definitions identity version value).outcome =
      r.writeAnew definitions identity version value := by
  have hform := outcome_codec_form hkeeps h identity version
  have hopcode : s.opcodeOf identity = r.opcodeOf identity := opcodeOf_congr hkeeps.packets identity
  have hbind := bind_congr_form hform fun codec other heq =>
    congrArg (fun encode : Nat → Value → Except Failure Bytes => do
      let opcode ← (r.opcodeOf identity).mapError NotKey.failure
      encode (opcode.getD 0) value) (encodeFrame_congr heq)
  have hwrite := congrArg (·.mapError (s.writingFailed identity)) hbind
  unfold writeAnew
  rw [← writingFailed_congr hkeeps.packets]
  unfold write
  rw [hopcode]
  exact hwrite

theorem outcome_length (identity : Identity) (version value : Value) :
    (s.length definitions identity version value).outcome =
      r.lengthAnew definitions identity version value := by
  have hform := outcome_codec_form hkeeps h identity version
  have hbind := bind_congr_form hform fun _ _ heq => congrFun (frameLength_congr heq) value
  unfold lengthAnew
  rw [← hbind, ← writingFailed_congr hkeeps.packets]
  rfl

theorem answersAnew : s.AnswersAnew r definitions :=
  ⟨outcome_read hkeeps h, outcome_write hkeeps h, outcome_length hkeeps h⟩

end Outcome

section Addressing

-- A name with an opcode, in a map that pairs the two.
variable (hcode : r.packets.codeOf (.text t) = some code) (hlt : code < 0x10000)

include hcode

theorem opcodeOf_name_eq :
    r.opcodeOf (.name (.text t)) = r.opcodeOf (.opcode ⟨code, hlt⟩) := by
  simp only [opcodeOf, Value.key_text, Except.map, hcode]

variable (hpaired : r.packets.Paired)

include hpaired

theorem nameOf_code : r.packets.nameOf code = some (.text t) :=
  hpaired.nameOf_eq_some_iff_codeOf.mpr hcode

theorem codec_name_eq (version : Value) :
    r.codec definitions (.name (.text t)) version =
      r.codec definitions (.opcode ⟨code, hlt⟩) version := by
  have hname : r.nameOf (.opcode ⟨code, hlt⟩) = .ok (.text t) :=
    (nameOf_opcode_eq_ok_iff hpaired).mpr (nameOf_code hcode hpaired)
  have hresolve : r.resolve definitions (.name (.text t)) version =
      r.resolve definitions (.opcode ⟨code, hlt⟩) version := by
    unfold resolve
    rw [hname, opcodeOf_name_eq hcode hlt]
    rfl
  unfold codec
  rw [hresolve]

theorem nameOrNull_name_eq :
    r.nameOrNull (.name (.text t)) = r.nameOrNull (.opcode ⟨code, hlt⟩) := by
  simp only [nameOrNull, nameOf_code hcode hpaired, Option.getD_some]

variable (ht : t ≠ [])

include ht

-- The packet has a name to be shown, so that the number is not shown.
theorem describe_name_eq :
    r.describe (.name (.text t)) = r.describe (.opcode ⟨code, hlt⟩) := by
  have htruth : (Value.text t).truth = true := by simpa [Value.truth] using ht
  unfold describe
  rw [← nameOrNull_name_eq hcode hlt hpaired]
  simp only [nameOrNull, htruth, if_true]

theorem read_name_eq (version : Value) (frame : Bytes) :
    r.read definitions (.name (.text t)) version frame =
      r.read definitions (.opcode ⟨code, hlt⟩) version frame := by
  have hfailed : r.parsingFailed (.name (.text t)) frame =
      r.parsingFailed (.opcode ⟨code, hlt⟩) frame := by
    funext e
    unfold parsingFailed
    rw [describe_name_eq hcode hlt hpaired ht]
  unfold read
  rw [codec_name_eq hcode hlt hpaired, hfailed]

theorem writingFailed_name_eq :
    r.writingFailed (.name (.text t)) = r.writingFailed (.opcode ⟨code, hlt⟩) := by
  funext e
  simp only [writingFailed, describe_name_eq hcode hlt hpaired ht,
    nameOrNull_name_eq hcode hlt hpaired]

theorem write_name_eq (version value : Value) :
    r.write definitions (.name (.text t)) version value =
      r.write definitions (.opcode ⟨code, hlt⟩) version value := by
  unfold write
  rw [codec_name_eq hcode hlt hpaired, writingFailed_name_eq hcode hlt hpaired ht,
    opcodeOf_name_eq hcode hlt]

theorem length_name_eq (version value : Value) :
    r.length definitions (.name (.text t)) version value =
      r.length definitions (.opcode ⟨code, hlt⟩) version value := by
  unfold length
  rw [codec_name_eq hcode hlt hpaired, writingFailed_name_eq hcode hlt hpaired ht]

theorem interchangeable_name :
    r.Interchangeable definitions (.name (.text t)) (.opcode ⟨code, hlt⟩) :=
  ⟨read_name_eq hcode hlt hpaired ht, write_name_eq hcode hlt hpaired ht,
    length_name_eq hcode hlt hpaired ht⟩

end Addressing

section Build

variable {tree : FileTree} {settings : Option Settings} {given : Given} {identifier : Text}

-- An opcode map that is given was read from a text as well as one that is loaded.
theorem parsed_of_build
    (hgiven : ∀ map, given.packets = some map →
      ∃ t limit, EnumMap.ofText t limit = .ok map)
    (hbuild : (build tree settings given identifier).1 = .ok r) :
    ∃ limit, r.packets.Parsed limit := by
  have hpackets := (of_build hbuild).1
  cases hmap : given.packets with
  | none => exact ⟨_, packetsOf_loaded hmap hpackets⟩
  | some map =>
      obtain ⟨t, limit, htext⟩ := hgiven map hmap
      rw [(packetsOf_given hmap hpackets).1]
      exact ⟨limit, .ofText htext⟩

-- Whatever was asked of a registry since it was built, it answers as if every
-- definition was compiled when it is needed, and as if a packet that has an
-- opcode was always addressed by that.
theorem run_of_build_anew (hbuild : (build tree settings given identifier).1 = .ok r)
    (hgiven : ∀ map, given.packets = some map →
      ∃ t limit, EnumMap.ofText t limit = .ok map)
    (hdefs : definitions.Whole) (requests : List Request) :
    (r.run definitions requests).AnswersAnew r definitions ∧
    ∀ name code, r.packets.codeOf (.text name) = some code →
      ∃ hlt : code < 0x10000,
        Identity.ofValue (.text name) = .ok (.name (.text name)) ∧
        Identity.ofValue (.int code) = .ok (.opcode ⟨code, hlt⟩) ∧
        Identity.ofOpcode (.int code) = .ok (.opcode ⟨code, hlt⟩) ∧
        (r.run definitions requests).Interchangeable definitions
          (.name (.text name)) (.opcode ⟨code, hlt⟩) := by
  obtain ⟨limit, hparsed⟩ := parsed_of_build hgiven hbuild
  have hbuilt : r.WellFormed definitions := by
    refine wellFormed_of_build hbuild (fun map hmap => ?_) hdefs
    obtain ⟨t, limit, htext⟩ := hgiven map hmap
    exact (EnumMap.Parsed.ofText htext).ofTexts
  obtain ⟨hrun, hkeeps⟩ := wellFormed_run hbuilt requests
  refine ⟨answersAnew hkeeps hrun, fun name code hcode => ?_⟩
  have hpaired := hbuilt.packets.ofTexts.paired
  have hentry := hpaired.codeOf_eq_some_iff.mp hcode
  have hlt : code < 0x10000 := Nat.lt_succ_of_le (hbuilt.packets.nameOf_of_codeOf hcode).1
  have hname : name ≠ [] := fun hnil => hparsed.nonempty _ hentry (congrArg Value.text hnil)
  have hopcode := Identity.ofOpcode_natCast hlt
  rw [← hkeeps.packets] at hcode hpaired
  exact ⟨hlt, rfl, hopcode, hopcode, interchangeable_name hcode hlt hpaired hname⟩

theorem ofText_move : EnumMap.ofText "MOVE 5" .null = .ok movePackets := by
  rfl

-- After a packet was measured by its name, its opcode leads to the same codec,
-- and reading gives what it would give without that codec.
theorem run_of_build_anew_move :
    let s := moveRegistry.run moveDefinitions
      [.length (.name (.text "MOVE")) (.int 1) (.record [("x", .int 3)])]
    s.compileCount = 1 ∧
    (s.read moveDefinitions (.opcode 5) (.int 1) #[9, 0, 5, 0, 0, 0, 0, 3, 0]).outcome =
      moveRegistry.readAnew moveDefinitions (.opcode 5) (.int 1) #[9, 0, 5, 0, 0, 0, 0, 3, 0] ∧
    ∃ hlt : 5 < 0x10000,
      s.write moveDefinitions (.name (.text "MOVE")) (.int 1) (.int 3) =
        s.write moveDefinitions (.opcode ⟨5, hlt⟩) (.int 1) (.int 3) := by
  have hgiven : ∀ map, moveGiven.packets = some map →
      ∃ t limit, EnumMap.ofText t limit = .ok map := by
    rintro _ ⟨⟩
    exact ⟨"MOVE 5", .null, ofText_move⟩
  obtain ⟨hanew, hname⟩ := run_of_build_anew build_move hgiven whole_move
    [.length (.name (.text "MOVE")) (.int 1) (.record [("x", .int 3)])]
  obtain ⟨hlt, -, -, -, hsame⟩ := hname "MOVE" 5 (by rfl)
  exact ⟨by rfl, hanew.read _ _ _, hlt, hsame.write _ _⟩

end Build

end Registry

end PacketCodec
