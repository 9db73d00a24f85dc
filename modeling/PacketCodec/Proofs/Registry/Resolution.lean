import PacketCodec.Proofs.Definition.LookUp
import PacketCodec.Proofs.EnumMap.MapText
import PacketCodec.Registry.Build

namespace PacketCodec

namespace Registry

-- A map of opcodes: every name is a text, and no opcode has more than 16 bits.
structure IsOpcodeMap (map : EnumMap) : Prop where
  ofTexts : map.OfTexts
  code_le : ∀ entry ∈ map.entries, entry.code ≤ maxOpcode

variable {tree : FileTree} {settings : Option Settings} {given : Given} {identifier : Text}
  {r : Registry} {definitions : DefinitionTable}

section Build

theorem packetsOf_given {map : EnumMap} (h : given.packets = some map) {packets : EnumMap}
    (hpackets : packetsOf tree settings given identifier = .ok packets) :
    packets = map ∧ ∀ code ∈ map.codes, code ≤ maxOpcode := by
  simp only [packetsOf, h] at hpackets
  split at hpackets
  · contradiction
  next hcodes =>
    cases hpackets
    refine ⟨rfl, fun code hcode => ?_⟩
    by_contra hlarge
    exact hcodes (List.any_eq_true.mpr ⟨code, hcode, by simpa using hlarge⟩)

theorem packetsOf_loaded (h : given.packets = none) {packets : EnumMap}
    (hpackets : packetsOf tree settings given identifier = .ok packets) :
    packets.Parsed (.int maxOpcode) := by
  simp only [packetsOf, h] at hpackets
  obtain ⟨_, -, hload⟩ := bind_eq_ok_iff.mp hpackets
  exact .load hload

theorem isOpcodeMap_packetsOf (hgiven : ∀ map, given.packets = some map → map.OfTexts)
    {packets : EnumMap} (h : packetsOf tree settings given identifier = .ok packets) :
    IsOpcodeMap packets := by
  cases hmap : given.packets with
  | none =>
      have hparsed := packetsOf_loaded hmap h
      exact ⟨hparsed.ofTexts, hparsed.ofTexts.code_le hparsed.maxCode⟩
  | some map =>
      obtain ⟨rfl, hcodes⟩ := packetsOf_given hmap h
      have htexts := hgiven packets hmap
      rw [htexts.paired.codes_eq] at hcodes
      exact ⟨htexts, fun entry hentry => hcodes _ (List.mem_map_of_mem hentry)⟩

theorem types_typesOf {revision : Revision} {types : TypeSet} (h : typesOf revision = .ok types) :
    types.types = WireType.builtin := by
  unfold typesOf at h
  generalize revision.gameVersion? = version at h
  cases version with
  | none => contradiction
  | some x =>
      cases h
      rfl

-- Building stops at the first part that cannot be had.
theorem build_error {e : Failure} (h : (build tree settings given identifier).1 = .error e) :
    revisionsOf tree settings given = .error e ∨
      ∃ revisions, revisionsOf tree settings given = .ok revisions ∧
        (revisionOf revisions identifier = .error e ∨
          ∃ revision, revisionOf revisions identifier = .ok revision ∧
            (packetsOf tree settings given identifier = .error e ∨
              sysmsgsOf tree settings given revision = .error e ∨
              typesOf revision = .error e)) := by
  have hassemble : assemble tree settings given identifier = .error e := by
    unfold build at h
    split at h
    · contradiction
    next hassemble =>
      cases h
      exact hassemble
  unfold assemble at hassemble
  rcases bind_eq_error_iff.mp hassemble with hrevisions | ⟨revisions, hrevisions, hrest⟩
  · exact .inl hrevisions
  · refine .inr ⟨revisions, hrevisions, ?_⟩
    rcases bind_eq_error_iff.mp hrest with hrevision | ⟨revision, hrevision, hrest⟩
    · exact .inl hrevision
    · refine .inr ⟨revision, hrevision, ?_⟩
      rcases bind_eq_error_iff.mp hrest with hpackets | ⟨packets, -, hrest⟩
      · exact .inl hpackets
      · rcases bind_eq_error_iff.mp hrest with hsysmsgs | ⟨sysmsgs, -, hrest⟩
        · exact .inr (.inl hsysmsgs)
        · rcases bind_eq_error_iff.mp hrest with htypes | ⟨types, -, hrest⟩
          · exact .inr (.inr htypes)
          · contradiction

theorem build_eq_ok {revisions : List (Text × Value)} {revision : Revision}
    {packets sysmsgs : EnumMap} {types : TypeSet}
    (hrevisions : revisionsOf tree settings given = .ok revisions)
    (hrevision : revisionOf revisions identifier = .ok revision)
    (hpackets : packetsOf tree settings given identifier = .ok packets)
    (hsysmsgs : sysmsgsOf tree settings given revision = .ok sysmsgs)
    (htypes : typesOf revision = .ok types) :
    (build tree settings given identifier).1 =
      .ok ⟨identifier, revision, packets, sysmsgs, types, [], [], 0⟩ := by
  have hassemble : assemble tree settings given identifier =
      .ok ⟨identifier, revision, packets, sysmsgs, types, [], [], 0⟩ := by
    unfold assemble
    rw [hrevisions, ok_bind, hrevision, ok_bind, hpackets, ok_bind, hsysmsgs, ok_bind, htypes]
    rfl
  simp only [build, hassemble]

-- A new registry has compiled nothing and knows the types that are known from
-- the start.
theorem of_build (h : (build tree settings given identifier).1 = .ok r) :
    packetsOf tree settings given identifier = .ok r.packets ∧
      r.types.types = WireType.builtin ∧ r.byName = [] ∧ r.byId = [] ∧ r.compileCount = 0 := by
  have hassemble : assemble tree settings given identifier = .ok r := by
    unfold build at h
    split at h
    next hassemble =>
      cases h
      exact hassemble
    · contradiction
  unfold assemble at hassemble
  obtain ⟨_, -, hassemble⟩ := bind_eq_ok_iff.mp hassemble
  obtain ⟨_, -, hassemble⟩ := bind_eq_ok_iff.mp hassemble
  obtain ⟨packets, hpackets, hassemble⟩ := bind_eq_ok_iff.mp hassemble
  obtain ⟨_, -, hassemble⟩ := bind_eq_ok_iff.mp hassemble
  obtain ⟨types, htypes, hassemble⟩ := bind_eq_ok_iff.mp hassemble
  cases hassemble
  exact ⟨hpackets, types_typesOf htypes, rfl, rfl, rfl⟩

end Build

section Resolve

variable {identity : Identity} {name version found : Value} {opcode : Option Nat} {n : Nat}

theorem resolve_eq_ok_iff : r.resolve definitions identity version = .ok (name, opcode, found) ↔
    r.nameOf identity = .ok name ∧ r.opcodeOf identity = .ok opcode ∧
      resolveVersion definitions name version = .ok found := by
  simp only [resolve, bind_eq_ok_iff, mapError_eq_ok_iff]
  constructor
  · rintro ⟨_, hname, _, hopcode, _, hfound, ⟨⟩⟩
    exact ⟨hname, hopcode, hfound⟩
  · rintro ⟨hname, hopcode, hfound⟩
    exact ⟨_, hname, _, hopcode, _, hfound, rfl⟩

theorem nameOf_opcode_eq_ok_iff (hmap : r.packets.Paired) {n : Fin 0x10000} :
    r.nameOf (.opcode n) = .ok name ↔ r.packets.nameOf n.val = some name := by
  cases hname : r.packets.nameOf n.val with
  | none => simp only [nameOf, hname, reduceCtorEq]
  | some value =>
      obtain ⟨t, rfl⟩ := hmap.exists_text_of_nameOf hname
      simp only [nameOf, hname, Except.ok.injEq, Option.some.injEq]

-- A code that a name has stands for that name, and it has no more than 16 bits.
theorem IsOpcodeMap.nameOf_of_codeOf {map : EnumMap} (h : IsOpcodeMap map)
    (hcode : map.codeOf name = some n) : n ≤ maxOpcode ∧ map.nameOf n = some name := by
  obtain ⟨t, rfl⟩ := h.ofTexts.paired.exists_text_of_codeOf hcode
  have hentry := h.ofTexts.paired.codeOf_eq_some_iff.mp hcode
  exact ⟨h.code_le _ hentry, h.ofTexts.paired.nameOf_eq_some_iff.mpr hentry⟩

theorem resolveVersion_integer? (hdefs : definitions.Whole) (hname : name.key = .ok name)
    (h : resolveVersion definitions name version = .ok found) :
    ∃ n, found.integer? = some n := by
  unfold resolveVersion at h
  split at h
  next n =>
    split at h
    · cases h
      exact ⟨n, rfl⟩
    · contradiction
  · split at h
    · have hlatest := mapError_eq_ok_iff.mp h
      rcases definitions.latest_cases hdefs hname with hnone | ⟨version, -, hsome, hwhole⟩
      · rw [hnone] at hlatest
        contradiction
      · rw [hsome] at hlatest
        cases hlatest
        exact Option.isSome_iff_exists.mp hwhole
    · contradiction
  · contradiction

theorem IsOpcodeMap.add {map : EnumMap} (h : IsOpcodeMap map) (name : Text)
    (opcode : Fin 0x10000) : IsOpcodeMap (map.add (.text name) (.int opcode.val)).2 := by
  refine ⟨h.ofTexts.add name (.int opcode.val), ?_⟩
  rcases map.add_cases name (.int opcode.val) with hadd | ⟨n, hn, -, hadd⟩
  · rw [hadd]
    exact h.code_le
  · rw [hadd]
    intro entry hentry
    rcases h.ofTexts.paired.mem_insert hentry with hentry | rfl
    · exact h.code_le entry hentry
    · obtain rfl : opcode.val = n := by simpa using hn
      exact Nat.le_of_lt_succ opcode.isLt

-- What a packet is resolved to: a key as its name, a whole number as the
-- version, and the opcode that stands for the name if there is one.
structure Resolved (r : Registry) (name : Value) (opcode : Option Nat) (version : Value) :
    Prop where
  key : name.key = .ok name
  version : ∃ n, version.integer? = some n
  opcode : ∀ n, opcode = some n → n ≤ maxOpcode ∧ r.packets.nameOf n = some name

theorem resolved_of_resolve (hmap : IsOpcodeMap r.packets) (hdefs : definitions.Whole)
    (h : r.resolve definitions identity version = .ok (name, opcode, found)) :
    r.Resolved name opcode found := by
  have hpaired := hmap.ofTexts.paired
  obtain ⟨hname, hopcode, hfound⟩ := resolve_eq_ok_iff.mp h
  cases identity with
  | name value =>
      cases hname
      obtain ⟨key, hkey, rfl⟩ := map_eq_ok_iff.mp hopcode
      have hname : name.key = .ok name := by
        rcases name.key_cases with hok | ⟨_, herror⟩
        · exact hok
        · rw [herror] at hkey
          contradiction
      obtain rfl : key = name := by
        rw [hname] at hkey
        exact (Except.ok.inj hkey).symm
      exact ⟨hname, resolveVersion_integer? hdefs hname hfound, fun n hn =>
        hmap.nameOf_of_codeOf hn⟩
  | opcode n =>
      cases hopcode
      have hnamed := (nameOf_opcode_eq_ok_iff hpaired).mp hname
      obtain ⟨t, rfl⟩ := hpaired.exists_text_of_nameOf hnamed
      refine ⟨rfl, resolveVersion_integer? hdefs rfl hfound, fun m hm => ?_⟩
      cases hm
      exact ⟨Nat.le_of_lt_succ n.isLt, hnamed⟩

end Resolve

end Registry

end PacketCodec
