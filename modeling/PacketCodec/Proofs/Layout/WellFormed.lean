import Mathlib.Data.List.Nodup
import PacketCodec.Codec
import PacketCodec.Proofs.Definition.Listing
import PacketCodec.Proofs.Inspection
import PacketCodec.Proofs.Layout.Resolves

namespace PacketCodec

namespace FieldList

-- The names of one level.
def names : FieldList → List Text
  | nil => []
  | leaf name _ rest | branch name _ _ rest => name :: rest.names

-- Siblings have names, and each its own.
def Distinct (fields : FieldList) : Prop :=
  (∀ name ∈ fields.names, name ≠ []) ∧ fields.names.Nodup

-- An array or an object has members, which are as they should be. All other
-- fields have none, and a type that is known.
def Typed (types : TypeSet) : FieldList → Prop
  | nil => True
  | leaf _ type rest =>
    (isComposite type = false ∧ types.contains type = true) ∧ rest.Typed types
  | branch _ type members rest =>
    (if isComposite type = true then members ≠ nil ∧ members.Distinct ∧ members.Typed types
      else members = nil ∧ types.contains type = true) ∧ rest.Typed types

def WellFormed (types : TypeSet) (fields : FieldList) : Prop :=
  fields.Distinct ∧ fields.Typed types

end FieldList

-- A field at its place in a definition. A field without a member list counts as
-- one with an empty list.
structure Occurrence where
  -- the path of what the field belongs to
  level : Text
  -- the names of the siblings before it
  before : List Text
  name : Text
  type : Text
  members : FieldList

namespace Occurrence

-- The path of a field. Without a name it is that of what the field belongs to.
def path (field : Occurrence) : Text :=
  if field.name = [] then field.level else Layout.member field.level field.name

def Named (field : Occurrence) : Prop :=
  field.name ≠ [] ∧ field.name ∉ field.before

def Sound (types : TypeSet) (field : Occurrence) : Prop :=
  field.Named ∧ if isComposite field.type = true then field.members ≠ .nil
    else field.members = .nil ∧ types.contains field.type = true

-- What is wrong with a field. Its name comes before its type.
inductive Fault (types : TypeSet) (field : Occurrence) : CompileCause → Prop
  | emptyName (hname : field.name = []) : Fault types field .emptyName
  | duplicate (hname : field.name ≠ []) (hbefore : field.name ∈ field.before) :
      Fault types field .duplicate
  | noMembers (hnamed : field.Named) (htype : isComposite field.type = true)
      (hnone : field.members = .nil) : Fault types field (.noMembers field.type)
  | superfluousMembers (hnamed : field.Named) (htype : isComposite field.type = false)
      (hsome : field.members ≠ .nil) : Fault types field (.superfluousMembers field.type)
  | unknownType (hnamed : field.Named) (htype : isComposite field.type = false)
      (hnone : field.members = .nil) (hunknown : types.contains field.type = false) :
      Fault types field (.unknownType field.type)

-- An error says what is wrong with a field, and where.
def Blames (types : TypeSet) (field : Occurrence) (e : CompileError) : Prop :=
  field.Fault types e.cause ∧ e.path = field.path

end Occurrence

namespace FieldList

-- The path that the members of a field belong to.
def inside (type path : Text) : Text :=
  if type = arrayType then Layout.elements path else path

-- The fields in pre-order, with the path of the first level and the names of
-- the siblings before the first of them.
def occurrences : FieldList → (level : Text) → (before : List Text) → List Occurrence
  | nil, _, _ => []
  | leaf name type rest, level, before =>
    ⟨level, before, name, type, nil⟩ :: rest.occurrences level (name :: before)
  | branch name type members rest, level, before =>
    ⟨level, before, name, type, members⟩ ::
      (members.occurrences (inside type (Layout.member level name)) [] ++
        rest.occurrences level (name :: before))

variable {types : TypeSet} {before : List Text} {level : Text}

-- A level whose first name is new, in front of names that are new and distinct.
theorem names_cons_iff {name : Text} {names : List Text} :
    ((∀ other ∈ name :: names, other ≠ [] ∧ other ∉ before) ∧ (name :: names).Nodup) ↔
      (name ≠ [] ∧ name ∉ before) ∧
        (∀ other ∈ names, other ≠ [] ∧ other ∉ name :: before) ∧ names.Nodup := by
  rw [List.forall_mem_cons, List.nodup_cons]
  constructor
  · rintro ⟨⟨hname, hothers⟩, hnew, hnodup⟩
    refine ⟨hname, fun other hother => ⟨(hothers other hother).1, ?_⟩, hnodup⟩
    apply List.not_mem_cons_of_ne_of_not_mem
    · rintro rfl
      exact hnew hother
    · exact (hothers other hother).2
  · rintro ⟨hname, hothers, hnodup⟩
    refine ⟨⟨hname, fun other hother => ⟨(hothers other hother).1, ?_⟩⟩, ?_, hnodup⟩
    · exact fun hbefore => (hothers other hother).2 (List.mem_cons_of_mem _ hbefore)
    · exact fun hmem => (hothers name hmem).2 List.mem_cons_self

theorem wellFormed_leaf {name type : Text} {rest : FieldList}
    (h : (leaf name type rest).WellFormed types) : name ≠ [] ∧ rest.WellFormed types := by
  obtain ⟨⟨hnames, hnodup⟩, -, hrest⟩ := h
  obtain ⟨hname, hothers⟩ := List.forall_mem_cons.mp hnames
  exact ⟨hname, ⟨hothers, (List.nodup_cons.mp hnodup).2⟩, hrest⟩

theorem wellFormed_branch {name type : Text} {members rest : FieldList}
    (h : (branch name type members rest).WellFormed types) :
    name ≠ [] ∧ rest.WellFormed types ∧
      (isComposite type = true → members.WellFormed types) := by
  obtain ⟨⟨hnames, hnodup⟩, htype, hrest⟩ := h
  obtain ⟨hname, hothers⟩ := List.forall_mem_cons.mp hnames
  refine ⟨hname, ⟨⟨hothers, (List.nodup_cons.mp hnodup).2⟩, hrest⟩, fun hcomposite => ?_⟩
  rw [if_pos hcomposite] at htype
  exact htype.2

-- The fields of some levels are all sound if and only if the levels are
-- well-formed, apart from the names before the first one.
theorem forall_occurrences_iff (fields : FieldList) :
    (∀ field ∈ fields.occurrences level before, field.Sound types) ↔
      ((∀ name ∈ fields.names, name ≠ [] ∧ name ∉ before) ∧ fields.names.Nodup) ∧
        fields.Typed types := by
  induction fields generalizing level before with
  | nil => simp [occurrences, names, Typed]
  | leaf name type rest ih =>
      rw [occurrences, List.forall_mem_cons, ih, names, names_cons_iff, Typed]
      simp only [Occurrence.Sound, Occurrence.Named]
      cases isComposite type with
      | true => simp
      | false => simp; tauto
  | branch name type members rest ihmembers ih =>
      rw [occurrences, List.forall_mem_cons, List.forall_mem_append, ihmembers, ih, names,
        names_cons_iff, Typed]
      simp only [Occurrence.Sound, Occurrence.Named, Distinct, List.not_mem_nil, not_false_eq_true,
        and_true]
      cases isComposite type with
      | true => simp only [if_true]; tauto
      | false =>
          simp only [Bool.false_eq_true, if_false]
          constructor
          · rintro ⟨⟨hnamed, htype⟩, -, hnames, hrest⟩
            exact ⟨⟨hnamed, hnames⟩, htype, hrest⟩
          · rintro ⟨⟨hnamed, hnames⟩, ⟨rfl, htype⟩, hrest⟩
            exact ⟨⟨hnamed, rfl, htype⟩, by simp [names, Typed], hnames, hrest⟩

theorem wellFormed_iff_forall_sound (fields : FieldList) :
    fields.WellFormed types ↔ ∀ field ∈ fields.occurrences [] [], field.Sound types := by
  rw [forall_occurrences_iff]
  simp [WellFormed, Distinct]

end FieldList

namespace Layout

variable {types : TypeSet} {level name type : Text} {before : List Text} {members : FieldList}

theorem blames_of_nameError? {e : CompileError} (h : nameError? level before name = some e) :
    ¬(⟨level, before, name, type, members⟩ : Occurrence).Sound types ∧
      (⟨level, before, name, type, members⟩ : Occurrence).Blames types e := by
  simp only [nameError?] at h
  split at h
  next hname =>
    cases h
    exact ⟨fun hsound => hsound.1.1 hname, .emptyName hname, (if_pos hname).symm⟩
  next hname =>
    split at h
    next hbefore =>
      cases h
      exact ⟨fun hsound => hsound.1.2 hbefore, .duplicate hname hbefore, (if_neg hname).symm⟩
    · contradiction

theorem named_of_nameError? (h : nameError? level before name = none) :
    name ≠ [] ∧ name ∉ before := by
  simp only [nameError?] at h
  split at h
  · contradiction
  next hname =>
    split at h
    · contradiction
    next hbefore => exact ⟨hname, hbefore⟩

-- The type of a field without members.
theorem blames_of_scalarType {e : CompileError} (hnamed : name ≠ [] ∧ name ∉ before)
    (h : scalarType types (member level name) type = .error e) :
    ¬(⟨level, before, name, type, .nil⟩ : Occurrence).Sound types ∧
      (⟨level, before, name, type, .nil⟩ : Occurrence).Blames types e := by
  have hpath := (if_neg hnamed.1 : (if name = [] then level else member level name) = _).symm
  simp only [scalarType] at h
  split at h
  next htype =>
    cases h
    refine ⟨fun hsound => ?_, .noMembers hnamed htype rfl, hpath⟩
    simp [Occurrence.Sound, htype] at hsound
  next htype =>
    obtain ⟨cause, hcause, rfl⟩ := mapError_eq_error_iff.mp h
    simp only [TypeSet.get] at hcause
    split at hcause
    · contradiction
    next hfind =>
      cases hcause
      have hunknown : types.contains type = false := by rw [TypeSet.contains, hfind]; rfl
      refine ⟨fun hsound => ?_, .unknownType hnamed (Bool.not_eq_true _ ▸ htype) rfl hunknown,
        hpath⟩
      simp [Occurrence.Sound, htype, hunknown] at hsound

theorem sound_of_scalarType {wire : WireType} (hnamed : name ≠ [] ∧ name ∉ before)
    (h : scalarType types (member level name) type = .ok wire) :
    (⟨level, before, name, type, .nil⟩ : Occurrence).Sound types := by
  obtain ⟨htype, hfind⟩ := find?_of_scalarType h
  simp [Occurrence.Sound, Occurrence.Named, hnamed, htype, TypeSet.contains, hfind]

theorem inspects_scalar {rest : FieldList} {issued : Nat}
    (hrest : Inspects (Occurrence.Sound types) (Occurrence.Blames types)
      (rest.occurrences level (name :: before))
      (compile types rest level (name :: before) issued).1) :
    Inspects (Occurrence.Sound types) (Occurrence.Blames types)
      (⟨level, before, name, type, .nil⟩ :: rest.occurrences level (name :: before))
      (compile types (.leaf name type rest) level before issued).1 := by
  simp only [compile]
  cases hname : nameError? level before name with
  | some e =>
      obtain ⟨hwrong, hblames⟩ := blames_of_nameError? hname
      exact .stop hwrong hblames _
  | none =>
      have hnamed := named_of_nameError? hname
      cases htype : scalarType types (member level name) type with
      | error e =>
          obtain ⟨hwrong, hblames⟩ := blames_of_scalarType hnamed htype
          exact .stop hwrong hblames _
      | ok wire => exact .cons (sound_of_scalarType hnamed htype) (hrest.map _)

-- An object or an array is compiled by its members first, then by the fields
-- behind it.
theorem compile_composite {rest : FieldList} {issued : Nat}
    (hname : nameError? level before name = none) (htype : isComposite type = true)
    (hsome : members.isEmpty = false) :
    ∃ (start : Nat) (build : Layout → Layout → Layout),
      (compile types (.branch name type members rest) level before issued).1 =
      (compile types members (FieldList.inside type (member level name)) [] start).1 >>=
        fun inner =>
          (compile types rest level (name :: before)
            (compile types members (FieldList.inside type (member level name)) [] start).2).1.map
            (build inner) := by
  simp only [compile, hname, hsome, Bool.false_eq_true, if_false]
  by_cases hobject : type = objectType
  · subst hobject
    refine ⟨issued, .object name, ?_⟩
    have hinside : FieldList.inside objectType (member level name) = member level name :=
      if_neg (by decide)
    rw [hinside, if_pos rfl]
    generalize compile types members (member level name) [] issued = inner
    obtain ⟨outcome, issued⟩ := inner
    cases outcome <;> rfl
  · have harray : type = arrayType := by simpa [isComposite, hobject] using htype
    subst harray
    refine ⟨issued + 1, .array name (TypeSet.bindingName "count" issued), ?_⟩
    have hinside : FieldList.inside arrayType (member level name) = elements (member level name) :=
      if_pos rfl
    rw [hinside, if_neg hobject, if_pos rfl]
    generalize compile types members (elements (member level name)) [] (issued + 1) = element
    obtain ⟨outcome, issued⟩ := element
    cases outcome <;> rfl

theorem compile_empty {rest : FieldList} {issued : Nat} :
    compile types (.branch name type .nil rest) level before issued =
      compile types (.leaf name type rest) level before issued := by
  simp only [compile, FieldList.isEmpty, if_true]
  cases nameError? level before name with
  | some e => rfl
  | none => cases scalarType types (member level name) type <;> rfl

theorem compile_superfluous {rest : FieldList} {issued : Nat}
    (hname : nameError? level before name = none) (htype : isComposite type = false)
    (hsome : members.isEmpty = false) :
    (compile types (.branch name type members rest) level before issued).1 =
      .error ⟨member level name, .superfluousMembers type⟩ := by
  simp only [isComposite, Bool.or_eq_false_iff, decide_eq_false_iff_not] at htype
  simp only [compile, hname, hsome, htype.1, htype.2, Bool.false_eq_true, if_false]

-- Compiling goes through the fields in pre-order.
theorem inspects_compile (fields : FieldList) (level : Text) (before : List Text) (issued : Nat) :
    Inspects (Occurrence.Sound types) (Occurrence.Blames types) (fields.occurrences level before)
      (compile types fields level before issued).1 := by
  induction fields generalizing level before issued with
  | nil => exact .passed fun _ h => absurd h List.not_mem_nil
  | leaf name type rest ih => exact inspects_scalar (ih _ _ _)
  | branch name type members rest ihmembers ih =>
      cases hname : nameError? level before name with
      | some e =>
          obtain ⟨hwrong, hblames⟩ := blames_of_nameError? hname
          simp only [compile, hname]
          exact .stop hwrong hblames _
      | none =>
          have hnamed := named_of_nameError? hname
          by_cases hsome : members = .nil
          · subst hsome
            rw [compile_empty]
            exact inspects_scalar (ih _ _ _)
          · have hsize := FieldList.isEmpty_eq_false_iff.mpr hsome
            cases htype : isComposite type with
            | true =>
                obtain ⟨start, build, hcompile⟩ := compile_composite hname htype hsize
                rw [hcompile]
                refine .cons ⟨hnamed, by simpa [htype] using hsome⟩ ?_
                exact (ihmembers _ _ _).bind fun _ _ => (ih _ _ _).map _
            | false =>
                rw [compile_superfluous hname htype hsize]
                refine .stop (fun hsound => ?_)
                  ⟨.superfluousMembers hnamed htype hsome, (if_neg hnamed.1).symm⟩ _
                simp [Occurrence.Sound, htype, hsome] at hsound

end Layout

namespace TypeSet

theorem inspects_codec (set : TypeSet) (fields : FieldList) (name version : Value) :
    Inspects (Occurrence.Sound set) (Occurrence.Blames set) (fields.occurrences [] [])
      (set.codec fields name version).1 := by
  have hlayout := @Layout.inspects_compile set fields [] [] set.issued
  exact hlayout.map fun layout => (⟨layout, name, version⟩ : Codec)

theorem wellFormed_of_codec {set : TypeSet} {fields : FieldList} {name version : Value}
    {codec : Codec} (h : (set.codec fields name version).1 = .ok codec) :
    fields.WellFormed set :=
  fields.wellFormed_iff_forall_sound.mpr
    ((inspects_codec set fields name version).exists_ok_iff.mp ⟨codec, h⟩)

-- A definition is compiled if and only if it is well-formed. Otherwise the error
-- is about the first field in pre-order with which something is wrong: it says
-- what, the name before the type, and under which path. A field without a name
-- adds no component to the path of its level.
theorem codec_iff_wellFormed (set : TypeSet) (fields : FieldList) (name version : Value) :
    ((∃ codec, (set.codec fields name version).1 = .ok codec) ↔ fields.WellFormed set) ∧
    ∀ e, (set.codec fields name version).1 = .error e →
      ∃ before field after, fields.occurrences [] [] = before ++ field :: after ∧
        (∀ earlier ∈ before, earlier.Sound set) ∧ ¬field.Sound set ∧
        field.Fault set e.cause ∧ e.path = field.path ∧
        e.failure = .saying .compilation
          (Text.join [if field.path = [] then "packet" else field.path, ": ",
            e.cause.message]) := by
  have hinspects := inspects_codec set fields name version
  constructor
  · rw [FieldList.wellFormed_iff_forall_sound]
    exact hinspects.exists_ok_iff
  · intro e he
    obtain ⟨before, field, after, hsplit, hbefore, hwrong, hfault, hpath⟩ :=
      hinspects.exists_first he
    refine ⟨before, field, after, hsplit, hbefore, hwrong, hfault, hpath, ?_⟩
    rw [CompileError.failure, CompileError.message, hpath]

-- Of two mistakes the one in the elements of the array comes first in pre-order,
-- although the repeated name stands on an outer level.
def brokenFields : FieldList :=
  .branch "crew" "array"
    (.leaf "id" "byte" (.branch "pos" "object" (.leaf "x" "vec3" .nil) .nil))
    (.leaf "crew" "int16" .nil)

theorem codec_brokenFields :
    ¬brokenFields.WellFormed (new .null) ∧
      ∃ before field after, brokenFields.occurrences [] [] = before ++ field :: after ∧
        (∀ earlier ∈ before, earlier.Sound (new .null)) ∧ field.path = ("crew[].pos.x" : Text) ∧
        field.Fault (new .null) (.unknownType "vec3") := by
  have he : ((new .null).codec brokenFields .null .null).1 =
      .error ⟨"crew[].pos.x", .unknownType "vec3"⟩ := rfl
  obtain ⟨hiff, hfirst⟩ := codec_iff_wellFormed (new .null) brokenFields .null .null
  constructor
  · intro h
    obtain ⟨codec, hcodec⟩ := hiff.mpr h
    rw [he] at hcodec
    contradiction
  · obtain ⟨before, field, after, hsplit, hbefore, -, hfault, hpath, -⟩ := hfirst _ he
    exact ⟨before, field, after, hsplit, hbefore, hpath.symm, hfault⟩

end TypeSet

end PacketCodec
