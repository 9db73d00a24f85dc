import PacketCodec.Proofs.Definition.Versions
import PacketCodec.Proofs.Registry.Frames

namespace PacketCodec

namespace Registry

variable {r : Registry} {definitions : DefinitionTable} {identity : Identity}
  {name version other : Value} {fields : FieldList} {n : Int} {wildcard : Text}

-- Two versions of a packet that nothing which is asked of a registry can tell
-- apart, not even by what is kept or reported.
structure SameVersion (r : Registry) (definitions : DefinitionTable) (identity : Identity)
    (version other : Value) : Prop where
  codec : r.codec definitions identity version = r.codec definitions identity other
  read : ∀ frame, r.read definitions identity version frame =
    r.read definitions identity other frame
  write : ∀ value, r.write definitions identity version value =
    r.write definitions identity other value
  length : ∀ value, r.length definitions identity version value =
    r.length definitions identity other value

-- All that is asked of a packet goes through its codec.
theorem SameVersion.of_codec
    (h : r.codec definitions identity version = r.codec definitions identity other) :
    r.SameVersion definitions identity version other := by
  refine ⟨h, fun frame => ?_, fun value => ?_, fun value => ?_⟩
  · rw [Registry.read, h, Registry.read]
  · rw [Registry.write, h, Registry.write]
  · rw [Registry.length, h, Registry.length]

theorem resolveVersion_wildcard (hwildcard : isLatest wildcard = true) :
    resolveVersion definitions name (.text wildcard) =
      (definitions.latest name).mapError .undefined :=
  if_pos hwildcard

theorem resolveVersion_int_of_range (h : 0 ≤ n ∧ n ≤ maxVersion) :
    resolveVersion definitions name (.int n) = .ok (.int n) :=
  if_pos h

theorem resolveVersion_int_of_not_range (h : ¬ (0 ≤ n ∧ n ≤ maxVersion)) :
    resolveVersion definitions name (.int n) = .error (.invalidVersion (.int n) name) :=
  if_neg h

-- A number that does not have 16 bits is refused, whatever versions there are.
theorem codec_of_not_range (hname : r.nameOf identity = .ok name) (hkey : name.key = .ok name)
    (h : ¬ (0 ≤ n ∧ n ≤ maxVersion)) : r.codec definitions identity (.int n) =
      ⟨.error (ResolveError.invalidVersion (.int n) name).failure, r, []⟩ := by
  obtain ⟨opcode?, hopcode⟩ := r.exists_opcodeOf (valid_of_nameOf hname hkey)
  have hresolve : r.resolve definitions identity (.int n) =
      .error (.invalidVersion (.int n) name) := by
    simp only [resolve, hname, hopcode, mapError_ok, ok_bind, resolveVersion_int_of_not_range h,
      error_bind]
  simp only [codec, hresolve]

theorem resolve_congr_version (hname : r.nameOf identity = .ok name)
    (h : resolveVersion definitions name version = resolveVersion definitions name other) :
    r.resolve definitions identity version = r.resolve definitions identity other := by
  simp only [resolve, hname, ok_bind, h]

-- A packet that has a definition has a highest version, and the wildcard is
-- resolved to it. If it has 16 bits, nothing tells it from the wildcard. Otherwise
-- it is refused where it is given as a number, as far as the number can be shown.
theorem wildcard_is_highest (hfilled : definitions.Filled) (r : Registry)
    (hname : r.nameOf identity = .ok name) (hget : definitions.get name version = .ok fields) :
    ∃ (versions : List Int) (n : Int), definitions.versions name = .ok (versions.map .int) ∧
      versions.max? = some n ∧
      ∀ wildcard, isLatest wildcard = true →
        resolveVersion definitions name (.text wildcard) = .ok (.int n) ∧
        (0 ≤ n ∧ n ≤ maxVersion → r.SameVersion definitions identity (.text wildcard) (.int n)) ∧
        (¬ (0 ≤ n ∧ n ≤ maxVersion) →
          ∃ e, r.codec definitions identity (.int n) = ⟨.error e, r, []⟩ ∧
            if (Value.int n).isShowable then e.fault = .unknownPacket else e = .unwritable) := by
  obtain ⟨versions, n, hversions, hmax, hlatest⟩ := hfilled.exists_latest hget
  refine ⟨versions, n, hversions, hmax, fun wildcard hwildcard => ?_⟩
  have hresolved : resolveVersion definitions name (.text wildcard) = .ok (.int n) := by
    rw [resolveVersion_wildcard hwildcard, hlatest, mapError_ok]
  refine ⟨hresolved, fun hrange => .of_codec ?_, fun hrange => ?_⟩
  · have hsame : resolveVersion definitions name (.text wildcard) =
        resolveVersion definitions name (.int n) := by
      rw [hresolved, resolveVersion_int_of_range hrange]
    rw [codec, resolve_congr_version hname hsame, codec]
  · have hkey := (DefinitionTable.get_eq_ok_iff.mp hget).1
    refine ⟨_, codec_of_not_range hname hkey hrange, ?_⟩
    cases hshowable : (Value.int n).isShowable <;>
      simp [ResolveError.failure, Failure.showing, Failure.saying, hshowable]

-- A packet with two versions, the higher of which was added first.
def turnDefinitions : DefinitionTable :=
  ((DefinitionTable.empty.add (.text "MOVE") (.int 10) (.leaf "x" "string" .nil)).2.add
    (.text "MOVE") (.int 9) (.leaf "x" "int16" .nil)).2

theorem wildcard_is_highest_turn :
    resolveVersion turnDefinitions (.text "MOVE") (.text "*") = .ok (.int 10) ∧
      moveRegistry.SameVersion turnDefinitions (.opcode 5) (.text "*") (.int 10) := by
  have hfilled : turnDefinitions.Filled := .add (.add .empty _ 10 _) _ 9 _
  have hget : turnDefinitions.get (.text "MOVE") (.int 9) = .ok (.leaf "x" "int16" .nil) := by rfl
  have hname : moveRegistry.nameOf (.opcode 5) = .ok (.text "MOVE") := by rfl
  obtain ⟨versions, n, -, -, hwildcard⟩ := wildcard_is_highest hfilled moveRegistry hname hget
  obtain ⟨hresolved, hsame, -⟩ := hwildcard "*" (by decide)
  have hkeys : (turnDefinitions.packet (.text "MOVE")).keys = [10, 9].map .int := by rfl
  obtain rfl : n = 10 := by
    rw [resolveVersion_wildcard (by decide), DefinitionTable.latest_of_keys Value.key_text hkeys]
      at hresolved
    cases hresolved
    rfl
  exact ⟨hresolved, hsame (by decide)⟩

-- A version of more than 16 bits, which the wildcard finds and the number does not.
def wideDefinitions : DefinitionTable :=
  (DefinitionTable.empty.add (.text "MOVE") (.int 0x10000) (.leaf "x" "string" .nil)).2

theorem length_wildcard_wide :
    wideDefinitions.Filled ∧
      resolveVersion wideDefinitions (.text "MOVE") (.text "latest") = .ok (.int 0x10000) ∧
      (moveRegistry.length wideDefinitions (.opcode 5) (.text "latest") .null).outcome = .ok 9 ∧
      ∃ e, (moveRegistry.length wideDefinitions (.opcode 5) (.int 0x10000) .null).outcome =
        .error e ∧ e.fault = .unknownPacket :=
  ⟨.add .empty _ 0x10000 _, by rfl, by rfl, _, by rfl, by rfl⟩

end Registry

end PacketCodec
