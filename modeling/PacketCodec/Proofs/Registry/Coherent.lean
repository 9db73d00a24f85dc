import PacketCodec.Proofs.Registry.Compiling
import PacketCodec.Registry.Packet

namespace PacketCodec

namespace Registry

variable {r s : Registry} {definitions : DefinitionTable} {set set' types : TypeSet}
  {name version : Value} {codec : Codec} {n : Int} {opcode : Nat} {opcode? : Option Nat}

section Key

-- With 16 bits the opcode lies below the version.
theorem idKey_of_le (h : opcode ≤ maxOpcode) (version : Int) :
    idKey opcode version = version * 0x10000 + opcode := by
  have hlt : opcode < 0x10000 := Nat.lt_succ_of_le h
  have hor : bitOr version 0 = version := by cases version <;> simp [bitOr]
  rw [idKey, Nat.div_eq_of_lt hlt, Nat.mod_eq_of_lt hlt, hor]

theorem idKey_inj {other : Nat} {version version' : Int} (h : opcode ≤ maxOpcode)
    (hother : other ≤ maxOpcode) :
    idKey opcode version = idKey other version' ↔ opcode = other ∧ version = version' := by
  rw [idKey_of_le h, idKey_of_le hother]
  unfold maxOpcode at h hother
  omega

end Key

-- The codec of a name and version, up to the working names of its counts.
structure IsCompiled (set : TypeSet) (definitions : DefinitionTable) (name version : Value)
    (codec : Codec) : Prop where
  shown : codec.name = name ∧ codec.version = version
  form : (compileAnew set definitions name version).map Codec.form = .ok codec.form

namespace IsCompiled

theorem of_types (h : IsCompiled set definitions name version codec)
    (htypes : set.types = set'.types) : IsCompiled set' definitions name version codec :=
  ⟨h.shown, (compileAnew_congr htypes name version) ▸ h.form⟩

theorem of_compileAnew (h : compileAnew set definitions name version = .ok codec) :
    IsCompiled set definitions name version codec :=
  ⟨shown_of_compileAnew h, by rw [h]; rfl⟩

end IsCompiled

-- A key of the second index is made from one opcode of 16 bits and one version
-- only. The opcode stands for a packet, and the first index holds the same codec
-- for that packet and version.
structure IsFiled (r : Registry) (key : Int) (codec : Codec) (opcode : Nat) (version : Int) :
    Prop where
  unique : ∀ (other : Nat) (version' : Int),
    other ≤ maxOpcode ∧ key = idKey other version' ↔ other = opcode ∧ version' = version
  kept : ∃ name, r.packets.nameOf opcode = some name ∧
    r.compiled? name (.int version) = some codec

theorem IsFiled.of_keeps {key : Int} (h : r.IsFiled key codec opcode n) (hkeeps : r.Keeps s) :
    s.IsFiled key codec opcode n := by
  obtain ⟨hunique, name, hname, hkept⟩ := h
  exact ⟨hunique, name, hkeeps.packets ▸ hname, hkeeps.compiled?_eq hkept⟩

-- Every codec is where it belongs in either index, and each was compiled once.
structure Coherent (r : Registry) (definitions : DefinitionTable) : Prop where
  byName : ∀ entry ∈ r.byName, IsCompiled r.types definitions entry.1.1 entry.1.2 entry.2
  names : r.byName.Pairwise fun entry other =>
    ¬ (entry.1.1.same other.1.1 = true ∧ entry.1.2.alike other.1.2 = true)
  byId : ∀ entry ∈ r.byId, ∃ opcode version, r.IsFiled entry.1 entry.2 opcode version
  keys : (r.byId.map (·.1)).Nodup
  compileCount : r.compileCount = r.byName.length

-- What two registries have in common if nothing was compiled in between.
structure SameCodecs (r s : Registry) : Prop where
  byName : s.byName = r.byName
  byId : s.byId = r.byId
  compileCount : s.compileCount = r.compileCount

namespace Coherent

theorem byId_of_keeps (h : r.Coherent definitions) (hkeeps : r.Keeps s) :
    ∀ entry ∈ r.byId, ∃ opcode version, s.IsFiled entry.1 entry.2 opcode version := by
  intro entry hentry
  obtain ⟨opcode, version, hfiled⟩ := h.byId entry hentry
  exact ⟨opcode, version, hfiled.of_keeps hkeeps⟩

theorem of_types (h : r.Coherent definitions) (htypes : types.types = r.types.types) :
    ({ r with types := types } : Registry).Coherent definitions :=
  ⟨fun entry hentry => (h.byName entry hentry).of_types htypes.symm, h.names,
    h.byId_of_keeps (.of_types r htypes), h.keys, h.compileCount⟩

theorem keep (h : r.Coherent definitions) (hnew : r.compiled? name version = none)
    (hcodec : IsCompiled r.types definitions name version codec) :
    (r.keep name version codec).Coherent definitions := by
  refine ⟨fun entry hentry => ?_, ?_, h.byId_of_keeps (.keep r name version codec), h.keys, ?_⟩
  · rcases List.mem_append.mp hentry with hentry | hentry
    · exact h.byName entry hentry
    · rw [List.mem_singleton.mp hentry]
      exact hcodec
  · refine List.pairwise_append.mpr ⟨h.names, List.pairwise_singleton _ _, ?_⟩
    intro entry hentry other hother
    rw [List.mem_singleton.mp hother]
    exact compiled?_eq_none.mp hnew entry hentry
  · simp only [Registry.keep, h.compileCount, List.length_append, List.length_singleton]

theorem file (h : r.Coherent definitions) (hopcode : opcode ≤ maxOpcode)
    (hname : r.packets.nameOf opcode = some name) (hversion : version.integer? = some n)
    (hkept : r.compiled? name version = some codec)
    (hfree : r.byId.lookup (idKey opcode n) = none) :
    (r.file (idKey opcode n) codec).Coherent definitions := by
  refine ⟨h.byName, h.names, fun entry hentry => ?_, ?_, h.compileCount⟩
  · rcases List.mem_append.mp hentry with hentry | hentry
    · exact h.byId_of_keeps (.file r _ codec) entry hentry
    · rw [List.mem_singleton.mp hentry]
      refine ⟨opcode, n, fun other version' => ⟨?_, ?_⟩, name, hname, ?_⟩
      · rintro ⟨hother, hkey⟩
        obtain ⟨rfl, rfl⟩ := (idKey_inj hopcode hother).mp hkey
        exact ⟨rfl, rfl⟩
      · rintro ⟨rfl, rfl⟩
        exact ⟨hopcode, rfl⟩
      · rw [← hkept]
        exact compiled?_congr (Value.alike_of_integer? rfl hversion)
  · simp only [Registry.file, List.map_append, List.map_cons, List.map_nil]
    refine List.nodup_append.mpr ⟨h.keys, List.nodup_singleton _, ?_⟩
    intro key hkey other hother
    obtain ⟨entry, hentry, rfl⟩ := List.mem_map.mp hkey
    rw [List.mem_singleton.mp hother]
    exact fun heq => by simpa [heq] using List.lookup_eq_none_iff.mp hfree entry hentry

theorem compiled?_of_lookup (h : r.Coherent definitions) (hopcode : opcode ≤ maxOpcode)
    (hname : r.packets.nameOf opcode = some name) (hversion : version.integer? = some n)
    (hfound : r.byId.lookup (idKey opcode n) = some codec) :
    r.compiled? name version = some codec := by
  have halike : version.alike (.int n) = true := Value.alike_of_integer? hversion rfl
  obtain ⟨front, back, hentries, -⟩ := List.lookup_eq_some_iff.mp hfound
  have hentry : (idKey opcode n, codec) ∈ r.byId := by
    rw [hentries]
    exact List.mem_append_right _ List.mem_cons_self
  -- only this opcode and this version have the key that the codec is filed under
  obtain ⟨code, version', hunique, name', hname', hkept⟩ := h.byId _ hentry
  obtain ⟨rfl, rfl⟩ := (hunique opcode n).mp ⟨hopcode, rfl⟩
  obtain rfl : name = name' := Option.some.inj (hname.symm.trans hname')
  rw [compiled?_congr halike, hkept]

theorem form_of_compiled? (h : r.Coherent definitions) (hname : name.key = .ok name)
    (hversion : version.integer? = some n) (hfound : r.compiled? name version = some codec) :
    (compileAnew r.types definitions name version).map Codec.form = .ok codec.form := by
  obtain ⟨entry, hentry, hsame, halike, rfl⟩ := compiled?_eq_some hfound
  exact form_of_alike (Value.alike_of_same hsame) halike hname (Value.key_of_integer? hversion)
    (h.byName entry hentry).form

end Coherent

-- A registry whose indices are coherent, whose opcode map pairs texts with
-- opcodes and which knows the types that are known from the start, with a table
-- of definitions whose versions are whole numbers.
structure WellFormed (r : Registry) (definitions : DefinitionTable) : Prop where
  coherent : r.Coherent definitions
  packets : IsOpcodeMap r.packets
  types : r.types.types = WireType.builtin
  whole : definitions.Whole

theorem WellFormed.of_keeps (h : r.WellFormed definitions) (hkeeps : r.Keeps s)
    (hcoherent : s.Coherent definitions) : s.WellFormed definitions :=
  ⟨hcoherent, hkeeps.packets ▸ h.packets, hkeeps.types.trans h.types, h.whole⟩

-- How a codec is served that would be compiled to the given result now.
structure Serves (r : Registry) (definitions : DefinitionTable) (anew : Except Failure Codec)
    (served : Served Codec) : Prop where
  coherent : served.registry.Coherent definitions
  keeps : r.Keeps served.registry
  failed : ∀ e, served.outcome = .error e → r.SameCodecs served.registry
  form : served.outcome.map Codec.form = anew.map Codec.form

theorem serves_error (h : r.Coherent definitions) (e : Failure) (log : List LogEntry) :
    r.Serves definitions (.error e) ⟨.error e, r, log⟩ :=
  ⟨h, .refl r, fun _ _ => ⟨rfl, rfl, rfl⟩, rfl⟩

theorem serves_compiled (h : r.Coherent definitions) (hname : name.key = .ok name)
    (hversion : version.integer? = some n) :
    r.Serves definitions (compileAnew r.types definitions name version)
      (r.compiled definitions name version) := by
  have hkeeps := (keeps_compiled r definitions hname hversion).1
  rcases compiled_cases r definitions hname hversion with ⟨codec, hfound, hcompiled⟩ |
    ⟨hnew, types, htypes, ⟨e, hanew, hcompiled⟩ | ⟨codec, hanew, hcompiled⟩⟩
  · rw [hcompiled] at hkeeps ⊢
    exact ⟨h, hkeeps, fun _ _ => ⟨rfl, rfl, rfl⟩, (h.form_of_compiled? hname hversion hfound).symm⟩
  · rw [hcompiled] at hkeeps
    rw [hcompiled, hanew]
    exact ⟨h.of_types htypes, hkeeps, fun _ _ => ⟨rfl, rfl, rfl⟩, rfl⟩
  · have hcodec := (IsCompiled.of_compileAnew hanew).of_types htypes.symm
    rw [hcompiled] at hkeeps
    rw [hcompiled, hanew]
    exact ⟨(h.of_types htypes).keep hnew hcodec, hkeeps, nofun, rfl⟩

-- In a coherent registry a codec that is found by its opcode is the one of the
-- packet's name.
theorem resolved_cases (h : r.Coherent definitions) (hresolved : r.Resolved name opcode? version) :
    (∃ codec, r.compiled? name version = some codec ∧
      r.resolved definitions name opcode? version = ⟨.ok codec, r, []⟩) ∨
    r.resolved definitions name opcode? version = r.compiled definitions name version ∨
    ∃ opcode n codec, (opcode ≤ maxOpcode ∧ r.packets.nameOf opcode = some name) ∧
      version.integer? = some n ∧ r.byId.lookup (idKey opcode n) = none ∧
      (r.compiled definitions name version).outcome = .ok codec ∧
      r.resolved definitions name opcode? version =
        ⟨.ok codec, (r.compiled definitions name version).registry.file (idKey opcode n) codec,
          (r.compiled definitions name version).log⟩ := by
  obtain ⟨n, hversion⟩ := hresolved.version
  rcases resolved_split r definitions name opcode? hversion with
    ⟨opcode, codec, rfl, hlookup, heq⟩ | ⟨hfree, ⟨-, heq⟩ | ⟨opcode, codec, rfl, houtcome, heq⟩⟩
  · obtain ⟨hopcode, hnamed⟩ := hresolved.opcode opcode rfl
    exact .inl ⟨codec, h.compiled?_of_lookup hopcode hnamed hversion hlookup, heq⟩
  · exact .inr (.inl heq)
  · exact .inr (.inr ⟨opcode, n, codec, hresolved.opcode opcode rfl, hversion, hfree opcode rfl,
      houtcome, heq⟩)

theorem serves_resolved (h : r.Coherent definitions) (hresolved : r.Resolved name opcode? version) :
    r.Serves definitions (compileAnew r.types definitions name version)
      (r.resolved definitions name opcode? version) := by
  have hname := hresolved.key
  obtain ⟨n, hversion⟩ := hresolved.version
  have hserves := serves_compiled h hname hversion
  rcases resolved_cases h hresolved with ⟨codec, hfound, heq⟩ | heq |
    ⟨opcode, n, codec, ⟨hopcode, hnamed⟩, hversion, hlookup, houtcome, heq⟩
  · rw [heq]
    exact ⟨h, .refl r, fun _ _ => ⟨rfl, rfl, rfl⟩, (h.form_of_compiled? hname hversion hfound).symm⟩
  · rw [heq]
    exact hserves
  · -- compiling files nothing, so that the key is still free
    have hkept := compiled?_of_compiled hname hversion houtcome
    have hbyId := (keeps_compiled r definitions hname hversion).2
    have hnamed : (r.compiled definitions name version).registry.packets.nameOf opcode = some name :=
      hserves.keeps.packets ▸ hnamed
    rw [heq]
    refine ⟨hserves.coherent.file hopcode hnamed hversion hkept (hbyId ▸ hlookup),
      hserves.keeps.trans (.file _ _ codec), nofun, ?_⟩
    rw [← hserves.form, houtcome]

theorem serves_codec (h : r.WellFormed definitions) (identity : Identity) (version : Value) :
    r.Serves definitions (r.codecAnew definitions identity version)
      (r.codec definitions identity version) := by
  unfold codecAnew codec
  cases hresolve : r.resolve definitions identity version with
  | error e => exact serves_error h.coherent e.failure []
  | ok packet =>
      exact serves_resolved h.coherent (resolved_of_resolve h.packets h.whole hresolve)

section Kept

theorem compiled?_of_codec (h : r.WellFormed definitions) {identity : Identity} {found : Value}
    (hresolve : r.resolve definitions identity version = .ok (name, opcode?, found))
    (hcodec : (r.codec definitions identity version).outcome = .ok codec) :
    (r.codec definitions identity version).registry.compiled? name found = some codec := by
  have hresolved := resolved_of_resolve h.packets h.whole hresolve
  obtain ⟨n, hversion⟩ := hresolved.version
  simp only [Registry.codec, hresolve] at hcodec ⊢
  rcases resolved_cases h.coherent hresolved with ⟨other, hfound, heq⟩ | heq |
    ⟨opcode, n, other, -, -, -, houtcome, heq⟩
  · rw [heq] at hcodec ⊢
    cases hcodec
    exact hfound
  · rw [heq] at hcodec ⊢
    exact compiled?_of_compiled hresolved.key hversion hcodec
  · rw [heq] at hcodec ⊢
    cases hcodec
    exact compiled?_of_compiled hresolved.key hversion houtcome

-- A codec is at hand if it is served and nothing is compiled, however its packet
-- and its version are addressed.
def AtHand (r : Registry) (definitions : DefinitionTable) (name found : Value) (codec : Codec) :
    Prop :=
  ∀ identity version opcode? found',
    r.resolve definitions identity version = .ok (name, opcode?, found') →
    found'.alike found = true →
    (r.codec definitions identity version).outcome = .ok codec ∧
      (r.codec definitions identity version).registry.byName = r.byName ∧
      (r.codec definitions identity version).registry.compileCount = r.compileCount

theorem atHand_of_compiled? (h : r.WellFormed definitions) {found : Value}
    (hkept : r.compiled? name found = some codec) : r.AtHand definitions name found codec := by
  intro identity version opcode? found' hresolve halike
  have hresolved := resolved_of_resolve h.packets h.whole hresolve
  rw [← compiled?_congr halike] at hkept
  have hcompiled := compiled_of_compiled? definitions hkept
  simp only [Registry.codec, hresolve]
  rcases resolved_cases h.coherent hresolved with ⟨other, hfound, heq⟩ | heq |
    ⟨opcode, n, other, -, -, -, houtcome, heq⟩
  · rw [heq, Option.some.inj (hkept.symm.trans hfound)]
    exact ⟨rfl, rfl, rfl⟩
  · rw [heq, hcompiled]
    exact ⟨rfl, rfl, rfl⟩
  · rw [heq, hcompiled, ← houtcome, hcompiled]
    exact ⟨rfl, rfl, rfl⟩

end Kept

section Run

-- What can be asked of a registry.
inductive Request where
  | codec (identity : Identity) (version : Value)
  | read (identity : Identity) (version : Value) (frame : Bytes)
  | write (identity : Identity) (version value : Value)
  | length (identity : Identity) (version value : Value)
  | compileText (t : Text)

-- The packet and the version that a request needs a codec of.
def Request.packet? : Request → Option (Identity × Value)
  | .codec identity version | .read identity version _ | .write identity version _
  | .length identity version _ => some (identity, version)
  | .compileText _ => none

-- A registry after a request, whether it failed or not.
def after (r : Registry) (definitions : DefinitionTable) : Request → Registry
  | .codec identity version => (r.codec definitions identity version).registry
  | .read identity version frame => (r.read definitions identity version frame).registry
  | .write identity version value => (r.write definitions identity version value).registry
  | .length identity version value => (r.length definitions identity version value).registry
  | .compileText t => (r.compileText t).registry

def run (r : Registry) (definitions : DefinitionTable) (requests : List Request) : Registry :=
  requests.foldl (fun r request => r.after definitions request) r

theorem after_of_packet? {request : Request} {identity : Identity}
    (h : request.packet? = some (identity, version)) :
    r.after definitions request = (r.codec definitions identity version).registry := by
  cases request <;> cases h <;> rfl

-- No request but the use of a packet's codec touches the codecs.
theorem wellFormed_after (h : r.WellFormed definitions) (request : Request) :
    (r.after definitions request).WellFormed definitions ∧
      r.Keeps (r.after definitions request) := by
  cases hpacket : request.packet? with
  | some packet =>
      rw [after_of_packet? hpacket]
      have hserves := serves_codec h packet.1 packet.2
      exact ⟨h.of_keeps hserves.keeps hserves.coherent, hserves.keeps⟩
  | none =>
      cases request with
      | compileText t =>
          have htypes := r.types.types_codecOfText t
          have hkeeps : r.Keeps (r.compileText t).registry := .of_types r htypes
          exact ⟨h.of_keeps hkeeps (h.coherent.of_types htypes), hkeeps⟩
      | _ => contradiction

theorem wellFormed_run (h : r.WellFormed definitions) (requests : List Request) :
    (r.run definitions requests).WellFormed definitions ∧
      r.Keeps (r.run definitions requests) := by
  induction requests generalizing r with
  | nil => exact ⟨h, .refl r⟩
  | cons request rest ih =>
      obtain ⟨hafter, hkeeps⟩ := wellFormed_after h request
      obtain ⟨hrun, hrest⟩ := ih hafter
      exact ⟨hrun, hkeeps.trans hrest⟩

theorem run_append (r : Registry) (definitions : DefinitionTable) (requests more : List Request) :
    r.run definitions (requests ++ more) = (r.run definitions requests).run definitions more :=
  List.foldl_append

end Run

section Build

variable {tree : FileTree} {settings : Option Settings} {given : Given} {identifier : Text}

theorem wellFormed_of_build (hbuild : (build tree settings given identifier).1 = .ok r)
    (hgiven : ∀ map, given.packets = some map → map.OfTexts) (hdefs : definitions.Whole) :
    r.WellFormed definitions := by
  obtain ⟨hpackets, htypes, hbyName, hbyId, hcount⟩ := of_build hbuild
  have hcoherent : r.Coherent definitions :=
    ⟨by simp [hbyName], by simp [hbyName], by simp [hbyId], by simp [hbyId],
      by simp [hbyName, hcount]⟩
  exact ⟨hcoherent, isOpcodeMap_packetsOf hgiven hpackets, htypes, hdefs⟩

-- Whatever was asked of a registry since it was built, both indices hold what
-- their keys stand for and each codec was compiled once. A packet that cannot be
-- found or compiled leaves them as they are, a codec that was served stays at
-- hand, and later requests only add to the indices.
theorem coherent_run_of_build (hbuild : (build tree settings given identifier).1 = .ok r)
    (hgiven : ∀ map, given.packets = some map → map.OfTexts) (hdefs : definitions.Whole)
    (requests : List Request) :
    let s := r.run definitions requests
    s.Coherent definitions ∧
    (∀ request identity version, request.packet? = some (identity, version) →
      (∀ e, (s.codec definitions identity version).outcome = .error e →
        s.SameCodecs (s.after definitions request)) ∧
      ∀ name opcode? found codec,
        s.resolve definitions identity version = .ok (name, opcode?, found) →
        (s.codec definitions identity version).outcome = .ok codec →
        ∀ more, ((s.after definitions request).run definitions more).AtHand definitions name found
          codec) ∧
    ∀ more, s.Keeps (r.run definitions (requests ++ more)) := by
  intro s
  have hrun : s.WellFormed definitions :=
    (wellFormed_run (wellFormed_of_build hbuild hgiven hdefs) requests).1
  refine ⟨hrun.coherent, fun request identity version hpacket => ⟨fun e herror => ?_, ?_⟩,
    fun more => ?_⟩
  · rw [after_of_packet? hpacket]
    exact (serves_codec hrun identity version).failed e herror
  · intro name opcode? found codec hresolve hcodec more
    have hkept := compiled?_of_codec hrun hresolve hcodec
    rw [← after_of_packet? hpacket] at hkept
    obtain ⟨hmore, hkeeps⟩ := wellFormed_run (wellFormed_after hrun request).1 more
    exact atHand_of_compiled? hmore (hkeeps.compiled?_eq hkept)
  · rw [run_append]
    exact (wellFormed_run hrun more).2

-- A packet with an opcode and two versions, the higher of which only the
-- wildcard leads to.
def movePackets : EnumMap :=
  ((EnumMap.empty .null).add (.text "MOVE") (.int 5)).2

def moveDefinitions : DefinitionTable :=
  ⟨[(.text "MOVE", [(.int 1, .leaf "x" "int16" .nil), (.int 0x10000, .leaf "x" "string" .nil)])],
    true⟩

def moveGiven : Given :=
  ⟨some [("7", .text "4.6/46")], some movePackets, some (.empty .null)⟩

def moveRevision : Revision :=
  ⟨none, 4, 6, some 46⟩

theorem isSome_gameVersion?_move : moveRevision.gameVersion?.isSome = true := by
  decide +kernel

def moveTypes : TypeSet :=
  .new (.double (moveRevision.gameVersion?.get isSome_gameVersion?_move))

theorem typesOf_move : typesOf moveRevision = .ok moveTypes := by
  unfold typesOf
  rw [← Option.some_get isSome_gameVersion?_move]
  rfl

def moveRegistry : Registry :=
  ⟨"7", moveRevision, movePackets, .empty .null, moveTypes, [], [], 0⟩

theorem build_move : (build ⟨[], []⟩ none moveGiven "7").1 = .ok moveRegistry :=
  build_eq_ok rfl rfl rfl rfl typesOf_move

theorem given_move : ∀ map, moveGiven.packets = some map → map.OfTexts := by
  rintro _ ⟨⟩
  exact .add (.empty .null) "MOVE" (.int 5)

theorem whole_move : moveDefinitions.Whole := by
  simp only [DefinitionTable.Whole, moveDefinitions, List.forall_mem_cons]
  simp [Value.integer?]

theorem coherent_run_move :
    let s := moveRegistry.run moveDefinitions [.codec (.opcode 5) (.int 1),
      .length (.name (.text "MOVE")) (.text "latest") (.record [("x", .text "a")]),
      .codec (.opcode 6) (.int 1)]
    s.compileCount = 2 ∧ s.Coherent moveDefinitions :=
  ⟨by decide +kernel, (coherent_run_of_build build_move given_move whole_move _).1⟩

end Build

end Registry

end PacketCodec
