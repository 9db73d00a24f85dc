import PacketCodec.Proofs.Failure
import PacketCodec.Proofs.Registry.Coherent

namespace PacketCodec

section Worded

theorem Truncation.worded (t : Truncation) : t.failureInside.Worded :=
  .saying rfl _

theorem Misfit.worded (m : Misfit) : m.failure.Worded :=
  Failure.Worded.showing (fun _ => Failure.exists_says_typeValidation _ _) _

theorem WriteFault.worded (fault : WriteFault) : fault.failure.Worded := by
  cases fault with
  | misfit m => exact m.worded
  | unpackable => exact .of_below rfl
  | outOfBounds => exact .of_below rfl

theorem Frame.HeaderError.worded (e : HeaderError) : e.failure.Worded := by
  cases e with
  | tooLarge size => exact .saying rfl _
  | unpackable => exact .of_below rfl

theorem CompileError.worded (e : CompileError) : e.failure.Worded :=
  .saying rfl _

theorem LogEntry.worded (fault : VersionFault) : fault.failure.Worded := by
  cases fault <;> exact .of_below rfl

theorem Registry.ResolveError.worded (e : ResolveError) : e.failure.Worded := by
  cases e with
  | undefined e =>
      cases e with
      | noPacket name => exact .saying rfl _
      | noVersion name version => exact Failure.Worded.showing (.saying rfl _) _
      | notKey e => exact .of_below rfl
      | notOrdered e => exact .of_below rfl
  | notKey e => exact .of_below rfl
  | notBits version => exact .of_below rfl
  | unmapped opcode => exact .saying rfl _
  | invalidVersion version name => exact Failure.Worded.showing (.saying rfl _) _

end Worded

-- What an identity holds, as messages show it.
def Identity.shown : Identity → Text
  | .name value => value.shown
  | .opcode n => Text.ofNat n.val

namespace Registry

variable {r : Registry} {definitions : DefinitionTable} {identity : Identity}
  {name version value : Value} {frame : Bytes} {codec : Codec} {e : Failure} {opcode : Nat}

-- What is done inside, before a failure is labelled.

def readInside (r : Registry) (definitions : DefinitionTable) (identity : Identity)
    (version : Value) (frame : Bytes) : Except Failure Value :=
  (r.codec definitions identity version).outcome >>= fun codec => decodeFrame codec frame

def writeInside (r : Registry) (definitions : DefinitionTable) (identity : Identity)
    (version value : Value) : Except Failure Bytes := do
  let codec ← (r.codec definitions identity version).outcome
  let opcode ← (r.opcodeOf identity).mapError NotKey.failure
  encodeFrame codec (opcode.getD 0) value

def lengthInside (r : Registry) (definitions : DefinitionTable) (identity : Identity)
    (version value : Value) : Except Failure Nat :=
  (r.codec definitions identity version).outcome >>= fun codec => frameLength codec value

-- How a message calls the packet of an identity, and the packet that is reported
-- with it. A name that counts as false is not shown.
inductive Label (r : Registry) (identity : Identity) : Text → Value → Prop
  | named {name : Value} (h : r.nameOf identity = .ok name) (hname : name.truth = true) :
      Label r identity name.shown name
  | nameless {n : Fin 0x10000} (hidentity : identity = .opcode n)
      (h : r.nameOf identity = .error (.unmapped n.val)) :
      Label r identity (Text.join ["opcode ", Text.ofNat n.val]) .null
  | blank {name : Value} (h : r.nameOf identity = .ok name) (hname : name.truth = false) :
      Label r identity (Text.join ["opcode ", identity.shown]) name

-- How a message calls the packet in a frame. The opcode in the frame comes first;
-- where it stands for no name, the packet that was asked for is shown, but none is
-- reported.
inductive FrameLabel (r : Registry) (identity : Identity) (frame : Bytes) : Text → Value → Prop
  | inFrame {n : Nat} {name : Value} (hn : Frame.opcode? frame = some n)
      (h : r.packets.nameOf n = some name) (hname : name.truth = true) :
      FrameLabel r identity frame name.shown name
  | unmapped {shown : Text} {packet : Value}
      (h : ∀ n : Nat, Frame.opcode? frame = some n → r.packets.nameOf n = none)
      (hlabel : r.Label identity shown packet) : FrameLabel r identity frame shown .null
  | blank {n : Nat} {name packet : Value} {shown : Text} (hn : Frame.opcode? frame = some n)
      (h : r.packets.nameOf n = some name) (hname : name.truth = false)
      (hlabel : r.Label identity shown packet) : FrameLabel r identity frame shown name

section Inside

theorem worded_of_compiled (h : (r.compiled definitions name version).outcome = .error e) :
    e.Worded := by
  unfold compiled at h
  split at h
  · contradiction
  · split at h
    next cause _ =>
      cases h
      exact (ResolveError.undefined cause).worded
    · split at h
      next cause _ _ =>
        cases h
        exact cause.worded
      · split at h
        · contradiction
        next cause _ =>
          cases h
          exact LogEntry.worded cause

theorem worded_of_resolved {opcode? : Option Nat}
    (h : (r.resolved definitions name opcode? version).outcome = .error e) : e.Worded := by
  unfold resolved at h
  split at h
  · exact worded_of_compiled h
  · split at h
    next cause _ =>
      cases h
      exact cause.worded
    · split at h
      · contradiction
      · dsimp only at h
        split at h
        next hcodec =>
          rw [hcodec] at h
          contradiction
        · exact worded_of_compiled h

theorem worded_of_codec (h : (r.codec definitions identity version).outcome = .error e) :
    e.Worded := by
  unfold Registry.codec at h
  split at h
  next cause _ =>
    cases h
    exact cause.worded
  · exact worded_of_resolved h

theorem worded_of_decodeFrame (h : decodeFrame codec frame = .error e) : e.Worded := by
  rcases bind_eq_error_iff.mp h with hheader | ⟨_, -, hbody⟩
  · obtain ⟨t, -, rfl⟩ := mapError_eq_error_iff.mp hheader
    exact t.worded
  · obtain ⟨t, -, rfl⟩ := mapError_eq_error_iff.mp hbody
    exact t.worded

theorem worded_of_encodeFrame (h : encodeFrame codec opcode value = .error e) : e.Worded := by
  rcases bind_eq_error_iff.mp h with hbody | ⟨_, -, hheader⟩
  · obtain ⟨fault, -, rfl⟩ := mapError_eq_error_iff.mp hbody
    exact fault.worded
  · obtain ⟨fault, -, rfl⟩ := mapError_eq_error_iff.mp hheader
    exact fault.worded

theorem worded_of_frameLength (h : frameLength codec value = .error e) : e.Worded := by
  rcases bind_eq_error_iff.mp h with hmeasure | ⟨_, -, hsize⟩
  · obtain ⟨m, -, rfl⟩ := mapError_eq_error_iff.mp hmeasure
    exact m.worded
  · contradiction

theorem worded_of_readInside (h : r.readInside definitions identity version frame = .error e) :
    e.Worded := by
  rcases bind_eq_error_iff.mp h with hcodec | ⟨codec, -, hframe⟩
  · exact worded_of_codec hcodec
  · exact worded_of_decodeFrame hframe

theorem worded_of_writeInside (h : r.writeInside definitions identity version value = .error e) :
    e.Worded := by
  rcases bind_eq_error_iff.mp h with hcodec | ⟨codec, -, h⟩
  · exact worded_of_codec hcodec
  · rcases bind_eq_error_iff.mp h with hopcode | ⟨opcode, -, hframe⟩
    · obtain ⟨cause, -, rfl⟩ := mapError_eq_error_iff.mp hopcode
      exact .of_below rfl
    · exact worded_of_encodeFrame hframe

theorem worded_of_lengthInside (h : r.lengthInside definitions identity version value = .error e) :
    e.Worded := by
  rcases bind_eq_error_iff.mp h with hcodec | ⟨codec, -, hlength⟩
  · exact worded_of_codec hcodec
  · exact worded_of_frameLength hlength

end Inside

section Label

theorem describe_eq (r : Registry) (identity : Identity) :
    r.describe identity =
      if (r.nameOrNull identity).truth then (r.nameOrNull identity).shown
      else Text.join ["opcode ", identity.shown] := by
  cases identity <;> rfl

-- The name of a packet, where null stands for none.
theorem nameOf_cases (r : Registry) (identity : Identity) :
    r.nameOf identity = .ok (r.nameOrNull identity) ∨
      ∃ n, identity = .opcode n ∧ r.nameOf identity = .error (.unmapped n.val) ∧
        r.nameOrNull identity = .null := by
  cases identity with
  | name value => exact .inl rfl
  | opcode n =>
      cases hname : r.packets.nameOf n.val with
      | none => exact .inr ⟨n, rfl, by rw [nameOf, hname], by rw [nameOrNull, hname]; rfl⟩
      | some name =>
          have hnull : r.nameOrNull (.opcode n) = name := by rw [nameOrNull, hname]; rfl
          rw [hnull, nameOf, hname]
          cases name with
          | null => exact .inr ⟨n, rfl, rfl, rfl⟩
          | _ => exact .inl rfl

theorem label (r : Registry) (identity : Identity) :
    r.Label identity (r.describe identity) (r.nameOrNull identity) := by
  rw [describe_eq]
  rcases r.nameOf_cases identity with hname | ⟨n, rfl, hname, hnull⟩
  · cases htruth : (r.nameOrNull identity).truth with
    | true => exact .named hname htruth
    | false => exact .blank hname htruth
  · rw [hnull]
    exact .nameless rfl hname

theorem frameLabel (r : Registry) (identity : Identity) (frame : Bytes) :
    r.FrameLabel identity frame
      (if (r.nameInFrame frame).truth then (r.nameInFrame frame).shown else r.describe identity)
      (r.nameInFrame frame) := by
  cases hpeek : Frame.opcode? frame with
  | none =>
      have hnull : r.nameInFrame frame = .null := by rw [nameInFrame, hpeek]; rfl
      rw [hnull, if_neg (by decide)]
      exact .unmapped (by rw [hpeek]; nofun) (r.label identity)
  | some n =>
      cases hname : r.packets.nameOf n with
      | none =>
          have hnull : r.nameInFrame frame = .null := by
            rw [nameInFrame, hpeek, Option.bind_some, hname]
            rfl
          rw [hnull, if_neg (by decide)]
          refine .unmapped (fun m hm => ?_) (r.label identity)
          rw [hpeek] at hm
          cases hm
          exact hname
      | some name =>
          have hnamed : r.nameInFrame frame = name := by
            rw [nameInFrame, hpeek, Option.bind_some, hname]
            rfl
          rw [hnamed]
          by_cases htruth : name.truth = true
          · rw [if_pos htruth]
            exact .inFrame hpeek hname htruth
          · rw [if_neg htruth]
            exact .blank hpeek hname (Bool.eq_false_iff.mpr htruth) (r.label identity)

end Label

-- A failure of the library is labelled once, with what the operation was and with
-- the name of the packet, and nothing else of it is changed.
theorem failures_labelled (r : Registry) (definitions : DefinitionTable) (identity : Identity)
    (version : Value) :
    (∀ frame e, (r.read definitions identity version frame).outcome = .error e →
      e.fault.isOwn = true → ∃ inner shown,
        r.readInside definitions identity version frame = .error inner ∧
        Failure.Labelled inner e (Text.join ["Error parsing ", shown]) ∧
        r.FrameLabel identity frame shown e.packet) ∧
    (∀ value e, (r.write definitions identity version value).outcome = .error e →
      e.fault.isOwn = true → ∃ inner shown,
        r.writeInside definitions identity version value = .error inner ∧
        Failure.Labelled inner e (Text.join ["Error writing ", shown]) ∧
        r.Label identity shown e.packet) ∧
    ∀ value e, (r.length definitions identity version value).outcome = .error e →
      e.fault.isOwn = true → ∃ inner shown,
        r.lengthInside definitions identity version value = .error inner ∧
        Failure.Labelled inner e (Text.join ["Error writing ", shown]) ∧
        r.Label identity shown e.packet := by
  refine ⟨fun frame e h hown => ?_, fun value e h hown => ?_, fun value e h hown => ?_⟩
  · obtain ⟨inner, hinner, hlabelled, hpacket⟩ :=
      Failure.exists_labelled (fun _ => worded_of_readInside) h hown
    exact ⟨inner, _, hinner, hlabelled, hpacket ▸ r.frameLabel identity frame⟩
  · obtain ⟨inner, hinner, hlabelled, hpacket⟩ :=
      Failure.exists_labelled (fun _ => worded_of_writeInside) h hown
    exact ⟨inner, _, hinner, hlabelled, hpacket ▸ r.label identity⟩
  · obtain ⟨inner, hinner, hlabelled, hpacket⟩ :=
      Failure.exists_labelled (fun _ => worded_of_lengthInside) h hown
    exact ⟨inner, _, hinner, hlabelled, hpacket ▸ r.label identity⟩

theorem failures_labelled_move :
    ∃ e inner, (moveRegistry.read moveDefinitions (.opcode 7) (.int 1)
        #[7, 0, 5, 0, 0, 0, 0]).outcome = .error e ∧
      moveRegistry.readInside moveDefinitions (.opcode 7) (.int 1) #[7, 0, 5, 0, 0, 0, 0] =
        .error inner ∧
      Failure.Labelled inner e "Error parsing MOVE" ∧ e.packet = .text "MOVE" := by
  obtain ⟨hread, -⟩ := failures_labelled moveRegistry moveDefinitions (.opcode 7) (.int 1)
  obtain ⟨inner, shown, hinner, hlabelled, hframe⟩ := hread #[7, 0, 5, 0, 0, 0, 0] _ rfl rfl
  generalize hpacket : Failure.packet _ = packet at hframe
  have hpeek : Frame.opcode? #[7, 0, 5, 0, 0, 0, 0] = some 5 := by rfl
  cases hframe with
  | inFrame hn h hname =>
      rw [hpeek] at hn
      cases hn
      cases h
      exact ⟨_, inner, rfl, hinner, hlabelled, hpacket⟩
  | unmapped h => cases h 5 hpeek
  | blank hn h hname =>
      rw [hpeek] at hn
      cases hn
      cases h
      contradiction

-- The message falls back on the name that was asked for, but the packet does not.
theorem read_label_unmapped_move :
    ∃ e, (moveRegistry.read moveDefinitions (.name (.text "MOVE")) (.int 1)
        #[7, 0, 6, 0, 0, 0, 0]).outcome = .error e ∧ e.fault.isOwn = true ∧ e.packet = .null ∧
      e.message = Text.ofString ("Error parsing MOVE: truncated input at offset 7: " ++
        "needed 2 byte(s), 0 available") :=
  ⟨_, by rfl, by rfl, by rfl, by rfl⟩

end Registry

end PacketCodec
