import PacketCodec.Proofs.Layout.Unbound
import PacketCodec.Proofs.Registry.Resolution

namespace PacketCodec

namespace Keyed

theorem same_self_of_get? {α : Type} {entries : Keyed α} {key : Value} {a : α}
    (h : entries.get? key = some a) : key.same key = true := by
  obtain ⟨entry, hfind, -⟩ := Option.map_eq_some_iff.mp h
  have hsame := List.find?_some hfind
  obtain ⟨halike, hnumber⟩ := Value.same_iff.mp hsame
  rw [Value.holdsNaN_eq_of_alike halike] at hnumber
  obtain ⟨parts, -, hparts⟩ := Value.alike_iff.mp halike
  exact Value.same_iff.mpr ⟨Value.alike_iff.mpr ⟨parts, hparts, hparts⟩, hnumber⟩

end Keyed

theorem LogEntry.reportedVersion_of_integer? {version : Value} {n : Int}
    (h : version.integer? = some n) : reportedVersion version = .ok n := by
  cases version with
  | bool b => cases h; rfl
  | int n => cases h; rfl
  | _ => contradiction

namespace Registry

-- The codec of a name and version, compiled anew from its definition.
def compileAnew (set : TypeSet) (definitions : DefinitionTable) (name version : Value) :
    Except Failure Codec := do
  let fields ← (definitions.get name version).mapError fun e => (ResolveError.undefined e).failure
  (set.codec fields name version).1.mapError CompileError.failure

-- The codec of a packet, compiled anew for the name and the version that the
-- packet is resolved to.
def codecAnew (r : Registry) (definitions : DefinitionTable) (identity : Identity)
    (version : Value) : Except Failure Codec :=
  match r.resolve definitions identity version with
  | .error e => .error e.failure
  | .ok (name, _, version) => compileAnew r.types definitions name version

variable {r s : Registry} {definitions : DefinitionTable} {set set' : TypeSet}
  {name version name' version' : Value} {codec : Codec} {n : Int} {code : Nat}

section Anew

theorem compileAnew_eq_ok_iff : compileAnew set definitions name version = .ok codec ↔
    ∃ fields, definitions.get name version = .ok fields ∧
      (set.codec fields name version).1 = .ok codec := by
  simp only [compileAnew, bind_eq_ok_iff, mapError_eq_ok_iff]

theorem compileAnew_congr (h : set.types = set'.types) (name version : Value) :
    (compileAnew set definitions name version).map Codec.form =
      (compileAnew set' definitions name version).map Codec.form := by
  unfold compileAnew
  cases definitions.get name version with
  | error e => rfl
  | ok fields =>
      have hcodec := TypeSet.codec_congr h fields name version name version
      rw [mapError_ok, ok_bind, ok_bind]
      cases hset : (set.codec fields name version).1 <;>
        cases hset' : (set'.codec fields name version).1 <;>
        simp_all [Except.map, mapError_ok, mapError_error]

theorem shown_of_compileAnew (h : compileAnew set definitions name version = .ok codec) :
    codec.name = name ∧ codec.version = version := by
  obtain ⟨fields, -, hcodec⟩ := compileAnew_eq_ok_iff.mp h
  obtain ⟨layout, -, rfl⟩ := map_eq_ok_iff.mp hcodec
  exact ⟨rfl, rfl⟩

theorem same_self_of_compileAnew (h : compileAnew set definitions name version = .ok codec) :
    name.same name = true := by
  obtain ⟨fields, hget, -⟩ := compileAnew_eq_ok_iff.mp h
  obtain ⟨-, -, versions, hpacket, -⟩ := DefinitionTable.get_eq_ok_iff.mp hget
  exact Keyed.same_self_of_get? hpacket

theorem codecAnew_eq_ok_iff {identity : Identity} :
    r.codecAnew definitions identity version = .ok codec ↔
      ∃ name opcode found, r.resolve definitions identity version = .ok (name, opcode, found) ∧
        compileAnew r.types definitions name found = .ok codec := by
  unfold codecAnew
  cases r.resolve definitions identity version with
  | error e => simp
  | ok packet => simp [Prod.ext_iff]

end Anew

-- A codec compiled for another spelling of the name and version does the same.
theorem form_of_alike (hname : name'.alike name = true) (hversion : version'.alike version = true)
    (hnamekey : name.key = .ok name) (hversionkey : version.key = .ok version) {form : Layout}
    (h : (compileAnew set definitions name' version').map Codec.form = .ok form) :
    (compileAnew set definitions name version).map Codec.form = .ok form := by
  obtain ⟨codec, hcodec, rfl⟩ := map_eq_ok_iff.mp h
  obtain ⟨fields, hget, hcompile⟩ := compileAnew_eq_ok_iff.mp hcodec
  have hget := DefinitionTable.get_congr hname hversion hnamekey hversionkey hget
  have hform := TypeSet.codec_congr (rfl : set.types = set.types) fields name version name' version'
  rw [hcompile] at hform
  obtain ⟨other, hother, hsame⟩ := map_eq_ok_iff.mp hform
  have hother := compileAnew_eq_ok_iff.mpr ⟨fields, hget, hother⟩
  rw [hother, hsame]
  rfl

section Kept

theorem compiled?_eq_some (h : r.compiled? name version = some codec) :
    ∃ entry ∈ r.byName, entry.1.1.same name = true ∧ entry.1.2.alike version = true ∧
      entry.2 = codec := by
  obtain ⟨entry, hfind, rfl⟩ := Option.map_eq_some_iff.mp h
  have hkeys := List.find?_some hfind
  rw [Bool.and_eq_true] at hkeys
  exact ⟨entry, List.mem_of_find?_eq_some hfind, hkeys.1, hkeys.2, rfl⟩

theorem compiled?_eq_none : r.compiled? name version = none ↔
    ∀ entry ∈ r.byName, ¬ (entry.1.1.same name = true ∧ entry.1.2.alike version = true) := by
  simp only [compiled?, Option.map_eq_none_iff, List.find?_eq_none, Bool.and_eq_true]

theorem compiled_of_compiled? (definitions : DefinitionTable)
    (h : r.compiled? name version = some codec) :
    r.compiled definitions name version = ⟨.ok codec, r, []⟩ := by
  simp only [compiled, h]

theorem compiled?_congr (h : version.alike version' = true) :
    r.compiled? name version = r.compiled? name version' := by
  have halike : (fun entry : (Value × Value) × Codec =>
        entry.1.1.same name && entry.1.2.alike version) =
      fun entry => entry.1.1.same name && entry.1.2.alike version' :=
    funext fun entry => by rw [(Value.alike_congr h entry.1.2).1]
  simp only [compiled?, halike]

theorem compiled?_congr_name (h : name.alike name' = true) :
    r.compiled? name version = r.compiled? name' version := by
  have hsame : (fun entry : (Value × Value) × Codec =>
        entry.1.1.same name && entry.1.2.alike version) =
      fun entry => entry.1.1.same name' && entry.1.2.alike version :=
    funext fun entry => by rw [(Value.alike_congr h entry.1.1).2]
  simp only [compiled?, hsame]

-- A name that has a definition is found under itself.
theorem compiled?_keep (hnew : r.compiled? name version = none)
    (hversion : version.integer? = some n)
    (hcodec : compileAnew set definitions name version = .ok codec) :
    (r.keep name version codec).compiled? name version = some codec := by
  have hname := same_self_of_compileAnew hcodec
  have hnone := Option.map_eq_none_iff.mp hnew
  simp only [compiled?, keep, List.find?_append, hnone, Option.or, List.find?_singleton, hname,
    Value.alike_of_integer? hversion hversion, Bool.and_self, if_true, Option.map]

-- What one registry keeps of another: all that was compiled and filed, at its
-- place, and all that it does not change.
structure Keeps (r s : Registry) : Prop where
  byName : r.byName <+: s.byName
  byId : r.byId <+: s.byId
  packets : s.packets = r.packets
  types : s.types.types = r.types.types

namespace Keeps

theorem refl (r : Registry) : r.Keeps r :=
  ⟨List.prefix_rfl, List.prefix_rfl, rfl, rfl⟩

theorem trans {t : Registry} (h : r.Keeps s) (h' : s.Keeps t) : r.Keeps t :=
  ⟨h.byName.trans h'.byName, h.byId.trans h'.byId, h'.packets.trans h.packets,
    h'.types.trans h.types⟩

theorem of_types (r : Registry) {types : TypeSet} (htypes : types.types = r.types.types) :
    r.Keeps { r with types := types } :=
  ⟨List.prefix_rfl, List.prefix_rfl, rfl, htypes⟩

theorem keep (r : Registry) (name version : Value) (codec : Codec) :
    r.Keeps (r.keep name version codec) :=
  ⟨List.prefix_append _ _, List.prefix_rfl, rfl, rfl⟩

theorem file (r : Registry) (key : Int) (codec : Codec) : r.Keeps (r.file key codec) :=
  ⟨List.prefix_rfl, List.prefix_append _ _, rfl, rfl⟩

theorem compiled?_eq (h : r.Keeps s) (hfound : r.compiled? name version = some codec) :
    s.compiled? name version = some codec := by
  obtain ⟨rest, hrest⟩ := h.byName
  obtain ⟨entry, hfind, rfl⟩ := Option.map_eq_some_iff.mp hfound
  simp only [compiled?, ← hrest, List.find?_append, hfind, Option.or, Option.map]

end Keeps

end Kept

-- What compiling on first use does: it finds a codec, or it fails and only hands
-- out names, or it keeps a new codec.
theorem compiled_cases (r : Registry) (definitions : DefinitionTable) (hname : name.key = .ok name)
    (hversion : version.integer? = some n) :
    (∃ codec, r.compiled? name version = some codec ∧
      r.compiled definitions name version = ⟨.ok codec, r, []⟩) ∨
    r.compiled? name version = none ∧ ∃ types, types.types = r.types.types ∧
      ((∃ e, compileAnew r.types definitions name version = .error e ∧
        r.compiled definitions name version = ⟨.error e, { r with types := types }, []⟩) ∨
      ∃ codec, compileAnew r.types definitions name version = .ok codec ∧
        r.compiled definitions name version =
          ⟨.ok codec, { r with types := types }.keep name version codec, [.compiled name n]⟩) := by
  have hown := definitions.getOwn_eq_get hname hversion
  have hreport := LogEntry.reportedVersion_of_integer? hversion
  cases hfound : r.compiled? name version with
  | some codec => exact .inl ⟨codec, rfl, compiled_of_compiled? definitions hfound⟩
  | none =>
      refine .inr ⟨rfl, ?_⟩
      cases hget : definitions.get name version with
      | error e =>
          refine ⟨r.types, rfl, .inl ⟨(ResolveError.undefined e).failure, ?_, ?_⟩⟩
          · simp only [compileAnew, hget]
            rfl
          · simp only [compiled, hfound, hown, hget]
      | ok fields =>
          have htypes := r.types.types_codec fields name version
          refine ⟨(r.types.codec fields name version).2, htypes, ?_⟩
          have hcodec : r.types.codec fields name version =
              ((r.types.codec fields name version).1, (r.types.codec fields name version).2) := rfl
          cases houtcome : (r.types.codec fields name version).1 with
          | error e =>
              rw [houtcome] at hcodec
              refine .inl ⟨e.failure, ?_, ?_⟩
              · simp only [compileAnew, hget, mapError_ok, ok_bind, houtcome]
                rfl
              · simp only [compiled, hfound, hown, hget]
                rw [hcodec]
          | ok codec =>
              rw [houtcome] at hcodec
              refine .inr ⟨codec, compileAnew_eq_ok_iff.mpr ⟨fields, hget, houtcome⟩, ?_⟩
              simp only [compiled, hfound, hown, hget]
              rw [hcodec]
              simp only [hreport]

theorem keeps_compiled (r : Registry) (definitions : DefinitionTable) (hname : name.key = .ok name)
    (hversion : version.integer? = some n) :
    r.Keeps (r.compiled definitions name version).registry ∧
      (r.compiled definitions name version).registry.byId = r.byId := by
  rcases compiled_cases r definitions hname hversion with ⟨codec, -, hcompiled⟩ |
    ⟨-, types, htypes, ⟨e, -, hcompiled⟩ | ⟨codec, -, hcompiled⟩⟩
  · rw [hcompiled]
    exact ⟨.refl r, rfl⟩
  · rw [hcompiled]
    exact ⟨.of_types r htypes, rfl⟩
  · rw [hcompiled]
    exact ⟨(Keeps.of_types r htypes).trans (.keep _ _ _ _), rfl⟩

theorem compiled?_of_compiled (hname : name.key = .ok name) (hversion : version.integer? = some n)
    (hcodec : (r.compiled definitions name version).outcome = .ok codec) :
    (r.compiled definitions name version).registry.compiled? name version = some codec := by
  rcases compiled_cases r definitions hname hversion with ⟨found, hfound, hcompiled⟩ |
    ⟨hnew, types, -, ⟨e, -, hcompiled⟩ | ⟨found, hanew, hcompiled⟩⟩
  · rw [hcompiled] at hcodec ⊢
    cases hcodec
    exact hfound
  · rw [hcompiled] at hcodec
    contradiction
  · rw [hcompiled] at hcodec ⊢
    cases hcodec
    exact compiled?_keep hnew hversion hanew

-- What serving a resolved packet does: it finds the codec that is filed under the
-- opcode and version, or it compiles on first use, and files what it compiled if
-- there is an opcode.
theorem resolved_split (r : Registry) (definitions : DefinitionTable) (name : Value)
    (opcode? : Option Nat) (hversion : version.integer? = some n) :
    (∃ opcode codec, opcode? = some opcode ∧ r.byId.lookup (idKey opcode n) = some codec ∧
      r.resolved definitions name opcode? version = ⟨.ok codec, r, []⟩) ∨
    (∀ opcode, opcode? = some opcode → r.byId.lookup (idKey opcode n) = none) ∧
      ((opcode? = none ∨ ∃ e, (r.compiled definitions name version).outcome = .error e) ∧
          r.resolved definitions name opcode? version = r.compiled definitions name version ∨
        ∃ opcode codec, opcode? = some opcode ∧
          (r.compiled definitions name version).outcome = .ok codec ∧
          r.resolved definitions name opcode? version =
            ⟨.ok codec, (r.compiled definitions name version).registry.file (idKey opcode n) codec,
              (r.compiled definitions name version).log⟩) := by
  cases opcode? with
  | none => exact .inr ⟨nofun, .inl ⟨.inl rfl, rfl⟩⟩
  | some opcode =>
      have hkey : idKeyOf opcode version = .ok (idKey opcode n) := by
        simp only [idKeyOf, hversion]
      simp only [resolved, hkey]
      cases hlookup : r.byId.lookup (idKey opcode n) with
      | some codec => exact .inl ⟨opcode, codec, rfl, hlookup, rfl⟩
      | none =>
          refine .inr ⟨?_, ?_⟩
          · rintro _ ⟨⟩
            exact hlookup
          · cases houtcome : (r.compiled definitions name version).outcome with
            | error e => exact .inl ⟨.inr ⟨e, rfl⟩, rfl⟩
            | ok codec => exact .inr ⟨opcode, codec, rfl, rfl, rfl⟩

theorem keeps_resolved {opcode? : Option Nat} (definitions : DefinitionTable)
    (hresolved : r.Resolved name opcode? version) :
    r.Keeps (r.resolved definitions name opcode? version).registry := by
  obtain ⟨n, hversion⟩ := hresolved.version
  have hkeeps := (keeps_compiled r definitions hresolved.key hversion).1
  rcases resolved_split r definitions name opcode? hversion with
    ⟨opcode, codec, -, -, heq⟩ | ⟨-, ⟨-, heq⟩ | ⟨opcode, codec, -, -, heq⟩⟩
  · rw [heq]
    exact .refl r
  · rw [heq]
    exact hkeeps
  · rw [heq]
    exact hkeeps.trans (.file _ _ codec)

end Registry

end PacketCodec
