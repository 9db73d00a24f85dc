import PacketCodec.Proofs.Registry.Coherent

namespace PacketCodec

namespace Registry

-- A registry and the definitions that it is used with.
structure Scene where
  registry : Registry
  definitions : DefinitionTable

-- What happens to them: a request, or a change of the opcodes or definitions.
inductive Event where
  | request (request : Request)
  | map (name : Text) (opcode : Fin 0x10000)
  | define (name : Value) (version : Int) (fields : FieldList)
  | defineText (name : Value) (version : Int) (t : Text)

-- A codec that was served, and what its packet was resolved to then.
structure Answer where
  name : Value
  opcode? : Option Nat
  version : Value
  codec : Codec

namespace Answer

-- Whether an answer was given under an opcode, for a version.
def IsUnder (old : Answer) (opcode? : Option Nat) (version : Value) : Prop :=
  old.opcode? ≠ none ∧ old.opcode? = opcode? ∧ old.version.alike version = true

-- Whether the codec is that of a name and version.
def IsOf (old : Answer) (name version : Value) : Prop :=
  old.codec.name.same name = true ∧ old.codec.version.alike version = true

end Answer

namespace Scene

def after (scene : Scene) : Event → Scene
  | .request request =>
    { scene with registry := scene.registry.after scene.definitions request }
  | .map name opcode =>
    let packets := (scene.registry.packets.add (.text name) (.int opcode.val)).2
    { scene with registry := { scene.registry with packets := packets } }
  | .define name version fields =>
    { scene with definitions := (scene.definitions.add name (.int version) fields).2 }
  | .defineText name version t =>
    { scene with definitions := (scene.definitions.addText name (.int version) t).2 }

def run (scene : Scene) (events : List Event) : Scene :=
  events.foldl after scene

-- The answer that a request gets, if its packet is found and compiled. Reading
-- and writing can still fail with the codec.
def answer? (scene : Scene) : Event → Option Answer
  | .request request =>
    request.packet?.bind fun (identity, version) =>
      (scene.registry.resolve scene.definitions identity version).toOption.bind
        fun (name, opcode?, found) =>
          (scene.registry.codec scene.definitions identity version).outcome.toOption.map
            fun codec => ⟨name, opcode?, found, codec⟩
  | _ => none

-- All answers in the order in which they are given.
def answers (scene : Scene) : List Event → List Answer
  | [] => []
  | event :: rest => (scene.answer? event).toList ++ (scene.after event).answers rest

end Scene

-- An answer as the ones before it determine it. Under an opcode that was
-- answered for the version before, the same codec is served, whatever the opcode
-- and the definitions are now. Otherwise it is a codec of the packet's name, the
-- one that was served for the name and version before or else a new one.
structure Answer.Follows (answer : Answer) (earlier : List Answer) (scene : Scene) : Prop where
  version : answer.codec.version.alike answer.version = true
  again : ∀ old ∈ earlier, old.IsUnder answer.opcode? answer.version → answer.codec = old.codec
  name : (∀ old ∈ earlier, ¬ old.IsUnder answer.opcode? answer.version) →
    answer.codec.name.alike answer.name = true
  kept : (∀ old ∈ earlier, ¬ old.IsUnder answer.opcode? answer.version) →
    ∀ old ∈ earlier, old.IsOf answer.name answer.version → answer.codec = old.codec
  anew : (∀ old ∈ earlier, ¬ old.IsUnder answer.opcode? answer.version) →
    (∀ old ∈ earlier, ¬ old.IsOf answer.name answer.version) →
      compileAnew scene.registry.types scene.definitions answer.name answer.version =
        .ok answer.codec

variable {r s : Registry} {definitions : DefinitionTable} {name version found : Value} {codec : Codec}
  {n : Int} {opcode : Nat} {opcode? : Option Nat} {answers : List Answer}

section Compiled

-- The first index holds what was served, and nothing else.
structure KeepsAnswers (r : Registry) (answers : List Answer) : Prop where
  served : ∀ entry ∈ r.byName, entry.1 = (entry.2.name, entry.2.version) ∧
    ∃ old ∈ answers, old.codec = entry.2
  kept : ∀ old ∈ answers, r.compiled? old.codec.name old.codec.version = some old.codec

theorem KeepsAnswers.of_byName (h : r.KeepsAnswers answers) (hbyName : s.byName = r.byName) :
    s.KeepsAnswers answers := by
  refine ⟨hbyName ▸ h.served, fun old hold => ?_⟩
  rw [← h.kept old hold, compiled?, hbyName, compiled?]

-- A codec that was served before can be served once more.
theorem KeepsAnswers.repeated (h : r.KeepsAnswers answers) {answer old : Answer}
    (hold : old ∈ answers) (hcodec : answer.codec = old.codec) :
    r.KeepsAnswers (answers ++ [answer]) := by
  constructor
  · intro entry hentry
    obtain ⟨hkey, other, hother, hserved⟩ := h.served entry hentry
    exact ⟨hkey, other, List.mem_append_left _ hother, hserved⟩
  · intro other hother
    rcases List.mem_append.mp hother with hother | hother
    · exact h.kept other hother
    · rw [List.mem_singleton.mp hother, hcodec]
      exact h.kept old hold

theorem compiled?_of_isOf (h : r.KeepsAnswers answers) {old : Answer} (hold : old ∈ answers)
    (hof : old.IsOf name version) : r.compiled? name version = some old.codec := by
  rw [← h.kept old hold, ← compiled?_congr hof.2,
    compiled?_congr_name (Value.alike_of_same hof.1)]

theorem exists_isOf_of_compiled? (h : r.KeepsAnswers answers)
    (hfound : r.compiled? name version = some codec) :
    ∃ old ∈ answers, old.codec = codec ∧ old.IsOf name version := by
  obtain ⟨entry, hentry, hsame, halike, rfl⟩ := compiled?_eq_some hfound
  obtain ⟨hkey, old, hold, hcodec⟩ := h.served entry hentry
  rw [hkey] at hsame halike
  refine ⟨old, hold, hcodec, ?_⟩
  rw [Answer.IsOf, hcodec]
  exact ⟨hsame, halike⟩

theorem KeepsAnswers.keep (h : r.KeepsAnswers answers) {set : TypeSet}
    (hnew : r.compiled? name version = none) (hversion : version.integer? = some n)
    (hanew : compileAnew set definitions name version = .ok codec) (opcode? : Option Nat) :
    (r.keep name version codec).KeepsAnswers (answers ++ [⟨name, opcode?, version, codec⟩]) := by
  obtain ⟨hname, hshown⟩ := shown_of_compileAnew hanew
  constructor
  · intro entry hentry
    rcases List.mem_append.mp hentry with hentry | hentry
    · obtain ⟨hkey, old, hold, hcodec⟩ := h.served entry hentry
      exact ⟨hkey, old, List.mem_append_left _ hold, hcodec⟩
    · rw [List.mem_singleton.mp hentry]
      exact ⟨by rw [hname, hshown], _, List.mem_append_right _ (List.mem_singleton_self _), rfl⟩
  · intro old hold
    rcases List.mem_append.mp hold with hold | hold
    · exact (Keeps.keep r name version codec).compiled?_eq (h.kept old hold)
    · rw [List.mem_singleton.mp hold, hname, hshown]
      exact compiled?_keep hnew hversion hanew

theorem keepsAnswers_of_error (h : r.KeepsAnswers answers) (hname : name.key = .ok name)
    (hversion : version.integer? = some n) {e : Failure}
    (houtcome : (r.compiled definitions name version).outcome = .error e) :
    (r.compiled definitions name version).registry.KeepsAnswers answers := by
  rcases compiled_cases r definitions hname hversion with ⟨codec, -, hcompiled⟩ |
    ⟨-, types, -, ⟨e, -, hcompiled⟩ | ⟨codec, -, hcompiled⟩⟩
  · rw [hcompiled] at houtcome
    contradiction
  · rw [hcompiled]
    exact h.of_byName rfl
  · rw [hcompiled] at houtcome
    contradiction

-- Compiling on first use, in terms of what was served before.
theorem keepsAnswers_of_compiled (h : r.KeepsAnswers answers) (hname : name.key = .ok name)
    (hversion : version.integer? = some n) (opcode? : Option Nat)
    (houtcome : (r.compiled definitions name version).outcome = .ok codec) :
    (r.compiled definitions name version).registry.KeepsAnswers
        (answers ++ [⟨name, opcode?, version, codec⟩]) ∧
      (codec.name.alike name = true ∧ codec.version.alike version = true) ∧
      (∀ old ∈ answers, old.IsOf name version → codec = old.codec) ∧
      ((∀ old ∈ answers, ¬ old.IsOf name version) →
        compileAnew r.types definitions name version = .ok codec) := by
  rcases compiled_cases r definitions hname hversion with ⟨found, hfound, hcompiled⟩ |
    ⟨hnew, types, -, ⟨e, -, hcompiled⟩ | ⟨found, hanew, hcompiled⟩⟩
  · rw [hcompiled] at houtcome ⊢
    cases houtcome
    obtain ⟨old, hold, rfl, hof⟩ := exists_isOf_of_compiled? h hfound
    refine ⟨h.repeated hold rfl, ⟨Value.alike_of_same hof.1, hof.2⟩, ?_, ?_⟩
    · intro other hother hother'
      exact Option.some.inj (hfound.symm.trans (compiled?_of_isOf h hother hother'))
    · intro hnone
      exact absurd hof (hnone old hold)
  · rw [hcompiled] at houtcome
    contradiction
  · rw [hcompiled] at houtcome ⊢
    cases houtcome
    obtain ⟨hcodec, hshown⟩ := shown_of_compileAnew hanew
    have hsame := same_self_of_compileAnew hanew
    have htypes : ({ r with types := types } : Registry).KeepsAnswers answers := h.of_byName rfl
    refine ⟨htypes.keep hnew hversion hanew opcode?, ⟨?_, ?_⟩, ?_, fun _ => hanew⟩
    · rw [hcodec]
      exact Value.alike_of_same hsame
    · rw [hshown]
      exact Value.alike_of_integer? hversion hversion
    · intro old hold hof
      rw [compiled?_of_isOf h hold hof] at hnew
      contradiction

end Compiled

section Resolved

-- The second index holds, under an opcode and a version, what was served under
-- them.
def FilesAnswers (r : Registry) (answers : List Answer) : Prop :=
  ∀ opcode n codec, opcode ≤ maxOpcode →
    (r.byId.lookup (idKey opcode n) = some codec ↔
      ∃ old ∈ answers, old.opcode? = some opcode ∧ old.version.integer? = some n ∧
        old.codec = codec)

-- What both indices say about the answers before, each of which was given for a
-- whole number as version.
structure Recalls (r : Registry) (answers : List Answer) : Prop where
  whole : ∀ old ∈ answers, (∃ n, old.version.integer? = some n) ∧
    old.codec.version.alike old.version = true
  keeps : r.KeepsAnswers answers
  files : r.FilesAnswers answers

theorem Recalls.of_indices (h : r.Recalls answers) (hbyName : s.byName = r.byName)
    (hbyId : s.byId = r.byId) : s.Recalls answers :=
  ⟨h.whole, h.keeps.of_byName hbyName, by rw [FilesAnswers, hbyId]; exact h.files⟩

-- Being served under an opcode before and being found under it are the same.
theorem Recalls.lookup_of_isUnder (h : r.Recalls answers) {old : Answer} (hold : old ∈ answers)
    (hopcode : opcode ≤ maxOpcode) (hversion : version.integer? = some n)
    (hunder : old.IsUnder (some opcode) version) :
    r.byId.lookup (idKey opcode n) = some old.codec := by
  obtain ⟨-, hsame, halike⟩ := hunder
  obtain ⟨m, hm⟩ := (h.whole old hold).1
  obtain rfl := Value.eq_of_alike_of_integer? halike hm hversion
  exact (h.files opcode m old.codec hopcode).mpr ⟨old, hold, hsame, hm, rfl⟩

theorem Recalls.exists_isUnder_of_lookup (h : r.Recalls answers) (hopcode : opcode ≤ maxOpcode)
    (hversion : version.integer? = some n) (hlookup : r.byId.lookup (idKey opcode n) = some codec) :
    ∃ old ∈ answers, old.codec = codec ∧ old.IsUnder (some opcode) version ∧
      codec.version.alike version = true := by
  obtain ⟨old, hold, hsame, hm, rfl⟩ := (h.files opcode n codec hopcode).mp hlookup
  have halike : old.version.alike version = true := Value.alike_of_integer? hm hversion
  have hcodec := (h.whole old hold).2
  rw [(Value.alike_congr halike old.codec.version).1] at hcodec
  exact ⟨old, hold, rfl, ⟨by rw [hsame]; nofun, hsame, halike⟩, hcodec⟩

theorem FilesAnswers.append (h : r.FilesAnswers answers) {answer : Answer}
    (hfiles : ∀ opcode n codec, opcode ≤ maxOpcode →
      (s.byId.lookup (idKey opcode n) = some codec ↔
        r.byId.lookup (idKey opcode n) = some codec ∨
          answer.opcode? = some opcode ∧ answer.version.integer? = some n ∧
            answer.codec = codec)) :
    s.FilesAnswers (answers ++ [answer]) := by
  intro opcode n codec hopcode
  rw [hfiles opcode n codec hopcode, h opcode n codec hopcode]
  simp only [List.mem_append, List.mem_singleton, or_and_right, exists_or, exists_eq_left]

theorem FilesAnswers.repeated (h : r.FilesAnswers answers) (hversion : version.integer? = some n)
    (hlookup : r.byId.lookup (idKey opcode n) = some codec) :
    r.FilesAnswers (answers ++ [⟨name, some opcode, version, codec⟩]) := by
  refine h.append fun other m found hother => ?_
  constructor
  · exact .inl
  · rintro (hfound | ⟨hsame, hm, rfl⟩)
    · exact hfound
    · obtain rfl := Option.some.inj hsame
      obtain rfl := Option.some.inj (hversion.symm.trans hm)
      exact hlookup

theorem FilesAnswers.without (h : r.FilesAnswers answers) (hbyId : s.byId = r.byId) :
    s.FilesAnswers (answers ++ [⟨name, none, version, codec⟩]) := by
  refine h.append fun other m found hother => ?_
  rw [hbyId]
  simp

theorem FilesAnswers.file (h : r.FilesAnswers answers) (hbyId : s.byId = r.byId)
    (hopcode : opcode ≤ maxOpcode) (hversion : version.integer? = some n)
    (hfree : r.byId.lookup (idKey opcode n) = none) :
    (s.file (idKey opcode n) codec).FilesAnswers
      (answers ++ [⟨name, some opcode, version, codec⟩]) := by
  refine h.append fun other m found hother => ?_
  have hlookup : (s.file (idKey opcode n) codec).byId.lookup (idKey other m) =
      (r.byId.lookup (idKey other m)).or ([(idKey opcode n, codec)].lookup (idKey other m)) := by
    rw [Registry.file, hbyId, List.lookup_append]
  rw [hlookup]
  by_cases hkey : idKey other m = idKey opcode n
  · obtain ⟨rfl, rfl⟩ := (idKey_inj hother hopcode).mp hkey
    simp [hfree, hversion]
  · have hne : ¬ (some opcode = some other ∧ version.integer? = some m ∧ codec = found) := by
      rintro ⟨hsame, hm, -⟩
      obtain rfl := Option.some.inj hsame
      obtain rfl := Option.some.inj (hversion.symm.trans hm)
      exact hkey rfl
    have hmiss : [(idKey opcode n, codec)].lookup (idKey other m) = none := by
      rw [List.lookup_cons, beq_false_of_ne hkey]
      rfl
    rw [hmiss, Option.or_none]
    exact (or_iff_left hne).symm

theorem follows_of_compiled (h : r.KeepsAnswers answers) (hname : name.key = .ok name)
    (hversion : version.integer? = some n)
    (hfree : ∀ old ∈ answers, ¬ old.IsUnder opcode? version)
    (houtcome : (r.compiled definitions name version).outcome = .ok codec) :
    Answer.Follows ⟨name, opcode?, version, codec⟩ answers ⟨r, definitions⟩ := by
  obtain ⟨-, ⟨hcodec, hshown⟩, hkept, hanew⟩ :=
    keepsAnswers_of_compiled h hname hversion opcode? houtcome
  exact ⟨hshown, fun old hold hunder => absurd hunder (hfree old hold), fun _ => hcodec,
    fun _ => hkept, fun _ => hanew⟩

theorem Recalls.append (h : r.Recalls answers) {answer : Answer}
    (hversion : answer.version.integer? = some n)
    (halike : answer.codec.version.alike answer.version = true)
    (hkeeps : s.KeepsAnswers (answers ++ [answer])) (hfiles : s.FilesAnswers (answers ++ [answer])) :
    s.Recalls (answers ++ [answer]) := by
  refine ⟨fun old hold => ?_, hkeeps, hfiles⟩
  rcases List.mem_append.mp hold with hold | hold
  · exact h.whole old hold
  · rw [List.mem_singleton.mp hold]
    exact ⟨⟨n, hversion⟩, halike⟩

-- A codec that is found under its opcode was served under it before.
theorem Recalls.again (h : r.Recalls answers) (definitions : DefinitionTable) (name : Value)
    (hopcode : opcode ≤ maxOpcode) (hversion : version.integer? = some n)
    (hlookup : r.byId.lookup (idKey opcode n) = some codec) :
    Answer.Follows ⟨name, some opcode, version, codec⟩ answers ⟨r, definitions⟩ ∧
      r.Recalls (answers ++ [⟨name, some opcode, version, codec⟩]) := by
  obtain ⟨old, hold, hcodec, hunder, halike⟩ := h.exists_isUnder_of_lookup hopcode hversion hlookup
  have hsome (hnone : ∀ old ∈ answers, ¬ old.IsUnder (some opcode) version) : False :=
    hnone old hold hunder
  have hagain : ∀ other ∈ answers, other.IsUnder (some opcode) version → codec = other.codec := by
    intro other hother hunder
    have hother := h.lookup_of_isUnder hother hopcode hversion hunder
    exact Option.some.inj (hlookup.symm.trans hother)
  exact ⟨⟨halike, hagain, fun hnone => (hsome hnone).elim, fun hnone => (hsome hnone).elim,
      fun hnone => (hsome hnone).elim⟩,
    h.append hversion halike (h.keeps.repeated hold hcodec.symm)
      (h.files.repeated hversion hlookup)⟩

-- One request. Its answer follows from those before it, and is recalled with them.
theorem recalls_resolved (h : r.Recalls answers) (hresolved : r.Resolved name opcode? version)
    (houtcome : (r.resolved definitions name opcode? version).outcome = .ok codec) :
    Answer.Follows ⟨name, opcode?, version, codec⟩ answers ⟨r, definitions⟩ ∧
      (r.resolved definitions name opcode? version).registry.Recalls
        (answers ++ [⟨name, opcode?, version, codec⟩]) := by
  have hname := hresolved.key
  obtain ⟨n, hversion⟩ := hresolved.version
  have hbyId := (keeps_compiled r definitions hname hversion).2
  rcases resolved_split r definitions name opcode? hversion with
    ⟨opcode, found, rfl, hlookup, heq⟩ | ⟨hfree, ⟨hnone, heq⟩ | ⟨opcode, found, rfl, hfound, heq⟩⟩
  · rw [heq] at houtcome ⊢
    cases houtcome
    exact h.again definitions name (hresolved.opcode opcode rfl).1 hversion hlookup
  · rw [heq] at houtcome ⊢
    rcases hnone with rfl | ⟨e, herror⟩
    · have hunder : ∀ old ∈ answers, ¬ old.IsUnder none version := by
        rintro old - ⟨hsome, hnone, -⟩
        exact hsome hnone
      have hfollows := follows_of_compiled h.keeps hname hversion hunder houtcome
      have hkeeps := (keepsAnswers_of_compiled h.keeps hname hversion none houtcome).1
      exact ⟨hfollows, h.append hversion hfollows.version hkeeps (h.files.without hbyId)⟩
    · rw [herror] at houtcome
      contradiction
  · rw [heq] at houtcome ⊢
    cases houtcome
    have hopcode := (hresolved.opcode opcode rfl).1
    have hlookup := hfree opcode rfl
    have hunder : ∀ old ∈ answers, ¬ old.IsUnder (some opcode) version := by
      intro old hold hunder
      rw [h.lookup_of_isUnder hold hopcode hversion hunder] at hlookup
      contradiction
    have hfollows := follows_of_compiled h.keeps hname hversion hunder hfound
    have hkeeps := (keepsAnswers_of_compiled h.keeps hname hversion (some opcode) hfound).1
    exact ⟨hfollows, h.append hversion hfollows.version (hkeeps.of_byName rfl)
      (h.files.file hbyId hopcode hversion hlookup)⟩

-- A request whose packet cannot be compiled adds nothing.
theorem recalls_of_resolved_error (h : r.Recalls answers)
    (hresolved : r.Resolved name opcode? version) {e : Failure}
    (houtcome : (r.resolved definitions name opcode? version).outcome = .error e) :
    (r.resolved definitions name opcode? version).registry.Recalls answers := by
  have hname := hresolved.key
  obtain ⟨n, hversion⟩ := hresolved.version
  rcases resolved_split r definitions name opcode? hversion with
    ⟨opcode, found, -, -, heq⟩ | ⟨-, ⟨-, heq⟩ | ⟨opcode, found, -, -, heq⟩⟩
  · rw [heq] at houtcome
    contradiction
  · rw [heq] at houtcome ⊢
    refine ⟨h.whole, keepsAnswers_of_error h.keeps hname hversion houtcome, ?_⟩
    rw [FilesAnswers, (keeps_compiled r definitions hname hversion).2]
    exact h.files
  · rw [heq] at houtcome
    contradiction

end Resolved

namespace Scene

variable {scene : Scene} {identity : Identity} {request : Request}

-- What stays as it is whatever happens: the opcodes stand for texts, and the
-- versions are whole numbers.
structure Sound (scene : Scene) : Prop where
  packets : IsOpcodeMap scene.registry.packets
  whole : scene.definitions.Whole

theorem answer?_of_resolve_error (hpacket : request.packet? = some (identity, version))
    {e : ResolveError}
    (hresolve : scene.registry.resolve scene.definitions identity version = .error e) :
    scene.answer? (.request request) = none := by
  simp only [answer?, hpacket, hresolve, Except.toOption, Option.bind_some, Option.bind_none]

theorem answer?_of_resolve (hpacket : request.packet? = some (identity, version))
    (hresolve : scene.registry.resolve scene.definitions identity version =
      .ok (name, opcode?, found)) :
    scene.answer? (.request request) =
      (scene.registry.codec scene.definitions identity version).outcome.toOption.map
        fun codec => ⟨name, opcode?, found, codec⟩ := by
  simp only [answer?, hpacket, hresolve, Except.toOption, Option.bind_some]

-- What a request does.
theorem step_request (hsound : scene.Sound) (hrecalls : scene.registry.Recalls answers)
    (hpacket : request.packet? = some (identity, version)) :
    (scene.after (.request request)).Sound ∧
      (scene.after (.request request)).registry.Recalls
        (answers ++ (scene.answer? (.request request)).toList) ∧
      ∀ answer ∈ scene.answer? (.request request), answer.Follows answers scene := by
  have hafter : scene.after (.request request) =
      ⟨(scene.registry.codec scene.definitions identity version).registry, scene.definitions⟩ := by
    rw [after, after_of_packet? hpacket]
  rw [hafter]
  cases hresolve : scene.registry.resolve scene.definitions identity version with
  | error e =>
      have hcodec : scene.registry.codec scene.definitions identity version =
          ⟨.error e.failure, scene.registry, []⟩ := by
        simp only [Registry.codec, hresolve]
      rw [hcodec, answer?_of_resolve_error hpacket hresolve]
      refine ⟨hsound, ?_, by simp⟩
      rwa [Option.toList_none, List.append_nil]
  | ok packet =>
      obtain ⟨name, opcode?, found⟩ := packet
      have hresolved := resolved_of_resolve hsound.packets hsound.whole hresolve
      have hcodec : scene.registry.codec scene.definitions identity version =
          scene.registry.resolved scene.definitions name opcode? found := by
        simp only [Registry.codec, hresolve]
      have hpackets := (keeps_resolved scene.definitions hresolved).packets
      rw [answer?_of_resolve hpacket hresolve, hcodec]
      refine ⟨⟨by rw [hpackets]; exact hsound.packets, hsound.whole⟩, ?_⟩
      cases houtcome : (scene.registry.resolved scene.definitions name opcode? found).outcome with
      | error e =>
          have hsame := recalls_of_resolved_error hrecalls hresolved houtcome
          refine ⟨?_, by simp [Except.toOption]⟩
          rwa [Except.toOption, Option.map_none, Option.toList_none, List.append_nil]
      | ok codec =>
          obtain ⟨hfollows, hsame⟩ := recalls_resolved hrecalls hresolved houtcome
          refine ⟨hsame, ?_⟩
          rintro _ ⟨⟩
          exact hfollows

-- What anything that happens does.
theorem step (hsound : scene.Sound) (hrecalls : scene.registry.Recalls answers) (event : Event) :
    (scene.after event).Sound ∧
      (scene.after event).registry.Recalls (answers ++ (scene.answer? event).toList) := by
  have hidle (hnone : scene.answer? event = none) (hafter : (scene.after event).Sound)
      (hbyName : (scene.after event).registry.byName = scene.registry.byName)
      (hbyId : (scene.after event).registry.byId = scene.registry.byId) :
      (scene.after event).Sound ∧
        (scene.after event).registry.Recalls (answers ++ (scene.answer? event).toList) := by
    rw [hnone, Option.toList_none, List.append_nil]
    exact ⟨hafter, hrecalls.of_indices hbyName hbyId⟩
  cases event with
  | request request =>
      cases hpacket : request.packet? with
      | some packet =>
          obtain ⟨hafter, hrecalls, -⟩ := step_request hsound hrecalls hpacket
          exact ⟨hafter, hrecalls⟩
      | none =>
          cases request with
          | compileText t => exact hidle rfl ⟨hsound.packets, hsound.whole⟩ rfl rfl
          | _ => contradiction
  | map name opcode => exact hidle rfl ⟨hsound.packets.add name opcode, hsound.whole⟩ rfl rfl
  | define name version fields =>
      exact hidle rfl ⟨hsound.packets, hsound.whole.add name version fields⟩ rfl rfl
  | defineText name version t =>
      exact hidle rfl ⟨hsound.packets, hsound.whole.addText name version t⟩ rfl rfl

theorem recalls_run (hsound : scene.Sound) (hrecalls : scene.registry.Recalls answers)
    (events : List Event) :
    (scene.run events).Sound ∧
      (scene.run events).registry.Recalls (answers ++ scene.answers events) := by
  induction events generalizing scene answers with
  | nil =>
      rw [Scene.answers, List.append_nil]
      exact ⟨hsound, hrecalls⟩
  | cons event rest ih =>
      obtain ⟨hsound, hrecalls⟩ := step hsound hrecalls event
      rw [Scene.answers, ← List.append_assoc]
      exact ih hsound hrecalls

end Scene

section Build

variable {tree : FileTree} {settings : Option Settings} {given : Given} {identifier : Text}

theorem recalls_of_build (hbuild : (build tree settings given identifier).1 = .ok r) :
    r.Recalls [] := by
  obtain ⟨-, -, hbyName, hbyId, -⟩ := of_build hbuild
  refine ⟨by simp, ⟨by simp [hbyName], by simp⟩, ?_⟩
  intro opcode n codec hopcode
  simp [hbyId]

-- Whatever was asked of a registry since it was built, and however its opcodes
-- and its definitions were changed in between, a codec that is served follows from
-- those that were served before.
theorem follows_run_of_build (hbuild : (build tree settings given identifier).1 = .ok r)
    (hgiven : ∀ map, given.packets = some map → map.OfTexts) (hdefs : definitions.Whole)
    (events : List Event) :
    let start : Scene := ⟨r, definitions⟩
    let scene := start.run events
    ∀ identity version name opcode? found codec,
      scene.registry.resolve scene.definitions identity version = .ok (name, opcode?, found) →
      (scene.registry.codec scene.definitions identity version).outcome = .ok codec →
      Answer.Follows ⟨name, opcode?, found, codec⟩ (start.answers events) scene := by
  intro start scene identity version name opcode? found codec hresolve hcodec
  have hpackets := isOpcodeMap_packetsOf hgiven (of_build hbuild).1
  have hstart : start.Sound := ⟨hpackets, hdefs⟩
  have hempty : start.registry.Recalls [] := recalls_of_build hbuild
  obtain ⟨hsound, hrecalls⟩ := Scene.recalls_run hstart hempty events
  have hpacket : (Request.codec identity version).packet? = some (identity, version) := rfl
  have hanswer := Scene.answer?_of_resolve hpacket hresolve
  rw [hcodec] at hanswer
  exact (Scene.step_request hsound hrecalls hpacket).2.2 _ hanswer

-- Two packets, of which only the first has an opcode at first.
def stopDefinitions : DefinitionTable :=
  ⟨[(.text "MOVE", [(.int 1, .leaf "x" "int16" .nil)]),
    (.text "STOP", [(.int 1, .leaf "y" "byte" .nil)])], false⟩

theorem whole_stop : stopDefinitions.Whole := by
  simp only [DefinitionTable.Whole, stopDefinitions, List.forall_mem_cons]
  simp [Value.integer?]

def stopScene : Scene :=
  Scene.run ⟨moveRegistry, stopDefinitions⟩
    [.request (.codec (.opcode 5) (.int 1)), .map "STOP" 5]

theorem follows_run_stop :
    ∃ codec, (stopScene.registry.codec stopScene.definitions (.opcode 5) (.int 1)).outcome =
        .ok codec ∧
      Answer.Follows ⟨.text "STOP", some 5, .int 1, codec⟩
        (Scene.answers ⟨moveRegistry, stopDefinitions⟩
          [.request (.codec (.opcode 5) (.int 1)), .map "STOP" 5]) stopScene :=
  ⟨_, rfl, follows_run_of_build build_move given_move whole_stop _ (.opcode 5) (.int 1) _ _ _ _
    rfl rfl⟩

-- The opcode was given to another packet, but it still leads to the codec of the
-- first one, and so does the name of the other.
theorem codec_of_moved_opcode :
    stopScene.registry.nameOf (.opcode 5) = .ok (.text "STOP") ∧
      (∃ codec, (stopScene.registry.codec stopScene.definitions (.opcode 5) (.int 1)).outcome =
        .ok codec ∧ codec.name = .text "MOVE") ∧
      ∃ codec, (stopScene.registry.codec stopScene.definitions (.name (.text "STOP"))
        (.int 1)).outcome = .ok codec ∧ codec.name = .text "MOVE" :=
  ⟨rfl, ⟨_, rfl, rfl⟩, _, rfl, rfl⟩

end Build

end Registry

end PacketCodec
