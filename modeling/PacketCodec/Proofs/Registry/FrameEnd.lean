import PacketCodec.Proofs.Codec.SelfDelimiting
import PacketCodec.Proofs.Frame.Header
import PacketCodec.Proofs.Registry.Coherent

namespace PacketCodec

namespace Failure

def IsTruncation (e : Failure) : Prop :=
  ∃ offset needed available, e.fault = .truncatedInput offset needed available

end Failure

namespace Registry

variable {r : Registry} {definitions : DefinitionTable} {identity : Identity} {version : Value}
  {buffer : Bytes} {header : Frame.Header} {codec : Codec} {value : Value} {stop n : Nat}

-- Outcomes that are equal, or both are truncations of the same packet.
inductive SameKind : Except Failure Value → Except Failure Value → Prop
  | same (outcome : Except Failure Value) : SameKind outcome outcome
  | truncated {e e' : Failure} (h : e.IsTruncation) (h' : e'.IsTruncation)
      (hpacket : e.packet = e'.packet) : SameKind (.error e) (.error e')

-- The packet has this value in the buffer, but its body goes on beyond the first
-- `n` bytes.
def Overruns (r : Registry) (definitions : DefinitionTable) (identity : Identity) (version : Value)
    (buffer : Bytes) (n : Nat) (value : Value) : Prop :=
  ∃ codec stop, (r.codec definitions identity version).outcome = .ok codec ∧
    codec.decodeFrom buffer Frame.headerSize = .ok (value, stop) ∧ n < stop

theorem parsingFailed_extract (hn : Frame.headerSize ≤ n) (hsize : n ≤ buffer.size) :
    r.parsingFailed identity (buffer.extract 0 n) = r.parsingFailed identity buffer := by
  have hname : r.nameInFrame (buffer.extract 0 n) = r.nameInFrame buffer := by
    rw [nameInFrame, Frame.opcode?_extract hn hsize, nameInFrame]
  funext e
  rw [parsingFailed, hname, parsingFailed]

theorem isTruncation_parsingFailed (t : Truncation) :
    (r.parsingFailed identity buffer t.failureInside).IsTruncation :=
  ⟨_, _, _, rfl⟩

-- What is read of a frame, by what becomes of its codec and of its body.

theorem read_of_codec_error {e : Failure}
    (hcodec : (r.codec definitions identity version).outcome = .error e) :
    (r.read definitions identity version buffer).outcome =
      .error (r.parsingFailed identity buffer e) := by
  rw [read, Served.mapOutcome, hcodec]
  rfl

section Body

variable (hcodec : (r.codec definitions identity version).outcome = .ok codec)
  (hsize : Frame.headerSize ≤ buffer.size)

include hcodec hsize

theorem read_of_codec :
    (r.read definitions identity version buffer).outcome =
      ((codec.decode buffer Frame.headerSize).mapError Truncation.failureInside).mapError
        (r.parsingFailed identity buffer) := by
  have hframe : decodeFrame codec buffer =
      (codec.decode buffer Frame.headerSize).mapError Truncation.failureInside := by
    rw [decodeFrame, Frame.Header.decode, if_neg (Nat.not_lt.mpr hsize), mapError_ok, ok_bind]
  rw [← hframe, read, Served.mapOutcome, hcodec]
  rfl

theorem read_of_body (hbody : codec.decodeFrom buffer Frame.headerSize = .ok (value, stop)) :
    (r.read definitions identity version buffer).outcome = .ok value := by
  rw [read_of_codec hcodec hsize, Codec.decode, hbody]
  rfl

theorem read_of_body_error {t : Truncation}
    (hbody : codec.decodeFrom buffer Frame.headerSize = .error t) :
    (r.read definitions identity version buffer).outcome =
      .error (r.parsingFailed identity buffer t.failureInside) := by
  rw [read_of_codec hcodec hsize, Codec.decode, hbody]
  rfl

end Body

section Extract

variable (hn : Frame.headerSize ≤ n) (hsize : n ≤ buffer.size)

include hn hsize

theorem headerSize_le_extract : Frame.headerSize ≤ (buffer.extract 0 n).size := by
  rw [Array.size_extract]
  omega

theorem truncation_of_overruns (h : r.Overruns definitions identity version buffer n value) :
    (r.read definitions identity version buffer).outcome = .ok value ∧
      ∃ e, (r.read definitions identity version (buffer.extract 0 n)).outcome = .error e ∧
        e.IsTruncation := by
  obtain ⟨codec, stop, hcodec, hbody, hstop⟩ := h
  have hend := codec.reads.stop_le_size (hn.trans hsize) hbody
  obtain ⟨t, hcut⟩ := codec.reads.cut hbody hn hstop hend
  exact ⟨read_of_body hcodec (hn.trans hsize) hbody, _,
    read_of_body_error hcodec (headerSize_le_extract hn hsize) hcut, isTruncation_parsingFailed t⟩

theorem sameKind_of_not_overruns
    (h : ¬ ∃ value, r.Overruns definitions identity version buffer n value) :
    SameKind (r.read definitions identity version buffer).outcome
      (r.read definitions identity version (buffer.extract 0 n)).outcome := by
  have hfailed : r.parsingFailed identity (buffer.extract 0 n) = r.parsingFailed identity buffer :=
    parsingFailed_extract hn hsize
  cases hcodec : (r.codec definitions identity version).outcome with
  | error e =>
      rw [read_of_codec_error hcodec, read_of_codec_error hcodec, hfailed]
      exact .same _
  | ok codec =>
      have hcut := headerSize_le_extract hn hsize
      cases hbody : codec.decodeFrom buffer Frame.headerSize with
      | error t =>
          obtain ⟨t', hbody'⟩ := codec.reads.cut_error hbody hsize
          rw [read_of_body_error hcodec (hn.trans hsize) hbody,
            read_of_body_error hcodec hcut hbody', hfailed]
          exact .truncated (isTruncation_parsingFailed t) (isTruncation_parsingFailed t') rfl
      | ok result =>
          obtain ⟨value, stop⟩ := result
          have hstop : stop ≤ n := by
            by_contra hlt
            exact h ⟨value, codec, stop, hcodec, hbody, Nat.not_le.mp hlt⟩
          have hbody' := codec.reads.within hbody hn hstop hsize
          rw [read_of_body hcodec (hn.trans hsize) hbody, read_of_body hcodec hcut hbody']
          exact .same _

end Extract

-- Where a buffer holds a frame and more, reading from it is as good as reading
-- the frame alone, unless the body goes on beyond the end that the header gives:
-- then the rest is taken from what follows. Nothing but the end of the buffer
-- makes the body too short.
theorem read_beyond_frame (r : Registry) (definitions : DefinitionTable) (identity : Identity)
    (version : Value) (hheader : Frame.Header.decode buffer = .ok header)
    (hlength : Frame.headerSize ≤ header.length ∧ header.length ≤ buffer.size) :
    ∃ frame : Bytes, frame = buffer.extract 0 header.length.toNat ∧
      Frame.Header.decode frame = .ok header ∧ header.length = frame.size ∧
      let whole := r.read definitions identity version buffer
      let alone := r.read definitions identity version frame
      alone.registry = whole.registry ∧ alone.log = whole.log ∧
      ((¬ ∃ value, r.Overruns definitions identity version buffer frame.size value) →
        SameKind whole.outcome alone.outcome) ∧
      (∀ value, r.Overruns definitions identity version buffer frame.size value →
        whole.outcome = .ok value ∧ ∃ e, alone.outcome = .error e ∧ e.IsTruncation) ∧
      ∀ codec t, (r.codec definitions identity version).outcome = .ok codec →
        codec.decodeFrom buffer Frame.headerSize = .error t →
        ∃ e, whole.outcome = .error e ∧ e.IsTruncation := by
  obtain ⟨n, hvalue⟩ := Int.eq_ofNat_of_zero_le (a := header.length) (by omega)
  have hn : Frame.headerSize ≤ n := by omega
  have hsize : n ≤ buffer.size := by omega
  have hframe : (buffer.extract 0 n).size = n := by
    rw [Array.size_extract]
    omega
  refine ⟨buffer.extract 0 n, by rw [hvalue, Int.toNat_natCast], ?_, by rw [hframe, hvalue], rfl,
    rfl, ?_⟩
  · rw [Frame.decode_extract hn hsize, hheader]
  · rw [hframe]
    refine ⟨sameKind_of_not_overruns hn hsize, fun _ => truncation_of_overruns hn hsize,
      fun codec t hcodec hbody => ?_⟩
    exact ⟨_, read_of_body_error hcodec (hn.trans hsize) hbody, isTruncation_parsingFailed t⟩

theorem read_beyond_frame_move :
    SameKind
      (moveRegistry.read moveDefinitions (.opcode 5) (.int 1)
        #[9, 0, 5, 0, 0, 0, 0, 3, 0, 7]).outcome
      (moveRegistry.read moveDefinitions (.opcode 5) (.int 1)
        #[9, 0, 5, 0, 0, 0, 0, 3, 0]).outcome := by
  have hheader : Frame.Header.decode #[9, 0, 5, 0, 0, 0, 0, 3, 0, 7] =
      .ok ⟨9, 5, [0, 0, 0]⟩ := by rfl
  obtain ⟨frame, rfl, -, -, -, -, hsame, -⟩ :=
    read_beyond_frame moveRegistry moveDefinitions (.opcode 5) (.int 1) hheader (by decide)
  refine hsame ?_
  rintro ⟨value, codec, stop, hcodec, hbody, hstop⟩
  cases hcodec
  cases hbody
  exact absurd hstop (by decide)

-- The two bytes of the body that are missing are taken from the next frame.
theorem read_next_frame_move :
    Frame.Header.decode #[7, 0, 5, 0, 0, 0, 0, 9, 0, 5, 0, 0, 0, 0, 3, 0] =
        .ok ⟨7, 5, [0, 0, 0]⟩ ∧
      (moveRegistry.read moveDefinitions (.opcode 5) (.int 1)
        #[7, 0, 5, 0, 0, 0, 0, 9, 0, 5, 0, 0, 0, 0, 3, 0]).outcome = .ok (.record [("x", .int 9)]) ∧
      ∃ e, (moveRegistry.read moveDefinitions (.opcode 5) (.int 1) #[7, 0, 5, 0, 0, 0, 0]).outcome =
        .error e ∧ e.IsTruncation :=
  ⟨by rfl, by rfl, _, by rfl, ⟨_, _, _, rfl⟩⟩

end Registry

end PacketCodec
