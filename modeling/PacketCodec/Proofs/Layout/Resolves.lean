import PacketCodec.Codec
import PacketCodec.Proofs.Except
import PacketCodec.Proofs.Wire.Format

namespace PacketCodec

namespace Layout

-- Said of the fields that follow siblings of the given names.
inductive Resolves (types : TypeSet) : List Text → FieldList → Layout → Prop
  | nil {before} : Resolves types before .nil .nil
  | leaf {before name type rest wire others} (hname : name ∉ before)
      (hscalar : isComposite type = false) (hwire : types.find? type = some wire)
      (hrest : Resolves types (name :: before) rest others) :
      Resolves types before (.leaf name type rest) (.scalar name type wire others)
  | empty {before name type rest wire others} (hname : name ∉ before)
      (hscalar : isComposite type = false) (hwire : types.find? type = some wire)
      (hrest : Resolves types (name :: before) rest others) :
      Resolves types before (.branch name type .nil rest) (.scalar name type wire others)
  | object {before name members rest inner others} (hname : name ∉ before)
      (hsome : members.isEmpty = false) (hmembers : Resolves types [] members inner)
      (hrest : Resolves types (name :: before) rest others) :
      Resolves types before (.branch name objectType members rest) (.object name inner others)
  | array {before name members rest count element others} (hname : name ∉ before)
      (hsome : members.isEmpty = false) (hmembers : Resolves types [] members element)
      (hrest : Resolves types (name :: before) rest others) :
      Resolves types before (.branch name arrayType members rest)
        (.array name count element others)

theorem not_mem_of_nameError? {path name : Text} {before : List Text}
    (h : nameError? path before name = none) : name ∉ before := by
  simp only [nameError?] at h
  split at h
  · contradiction
  · split at h
    · contradiction
    next hname => exact hname

theorem find?_of_scalarType {types : TypeSet} {path type : Text} {wire : WireType}
    (h : scalarType types path type = .ok wire) :
    isComposite type = false ∧ types.find? type = some wire := by
  simp only [scalarType] at h
  split at h
  · contradiction
  next hscalar =>
    refine ⟨Bool.not_eq_true _ ▸ hscalar, ?_⟩
    simp only [TypeSet.get] at h
    split at h
    next hfind =>
      cases h
      exact hfind
    · contradiction

theorem resolves_of_compile {types : TypeSet} {fields : FieldList} {path : Text}
    {before : List Text} {issued : Nat} {layout : Layout}
    (h : (compile types fields path before issued).1 = .ok layout) :
    Resolves types before fields layout := by
  induction fields generalizing path before issued layout with
  | nil =>
      cases h
      exact .nil
  | leaf name type rest ih =>
      simp only [compile] at h
      split at h
      · contradiction
      · contradiction
      next wire hname hwire =>
        obtain ⟨others, hrest, rfl⟩ := map_eq_ok_iff.mp h
        obtain ⟨hscalar, hfind⟩ := find?_of_scalarType hwire
        exact .leaf (not_mem_of_nameError? hname) hscalar hfind (ih hrest)
  | branch name type members rest ihmembers ih =>
      simp only [compile] at h
      split at h
      · contradiction
      next hname =>
        have hname := not_mem_of_nameError? hname
        split at h
        next hempty =>
          split at h
          · contradiction
          next wire hwire =>
            obtain ⟨others, hrest, rfl⟩ := map_eq_ok_iff.mp h
            obtain ⟨hscalar, hfind⟩ := find?_of_scalarType hwire
            obtain rfl : members = .nil := by
              cases members with
              | nil => rfl
              | _ => contradiction
            exact .empty hname hscalar hfind (ih hrest)
        next hsome =>
          have hsome := Bool.not_eq_true _ ▸ hsome
          split at h
          next htype =>
            subst htype
            split at h
            · contradiction
            next inner issued hmembers =>
              obtain ⟨others, hrest, rfl⟩ := map_eq_ok_iff.mp h
              exact .object hname hsome (ihmembers (congrArg Prod.fst hmembers)) (ih hrest)
          · split at h
            next htype =>
              subst htype
              split at h
              · contradiction
              next element issued hmembers =>
                obtain ⟨others, hrest, rfl⟩ := map_eq_ok_iff.mp h
                exact .array hname hsome (ihmembers (congrArg Prod.fst hmembers)) (ih hrest)
            · contradiction

end Layout

namespace TypeSet

variable {set : TypeSet}

-- A codec holds the layout that resolves its definition.
theorem resolves_of_codec {fields : FieldList} {name version : Value} {codec : Codec}
    (h : (set.codec fields name version).1 = .ok codec) :
    Layout.Resolves set [] fields codec.layout := by
  obtain ⟨layout, hlayout, rfl⟩ := map_eq_ok_iff.mp h
  exact Layout.resolves_of_compile hlayout

theorem types_new (gameVersion : Value) : (new gameVersion).types = WireType.builtin := rfl

-- A set of the types that are known from the start has standard ones only.
theorem standard_of_find? (hset : set.types = WireType.builtin) {type : Text} {wire : WireType}
    (h : set.find? type = some wire) : wire.Standard ∧ WireType.ofName type = wire := by
  rw [find?, hset] at h
  exact ⟨WireType.standard_of_lookup type wire h, by rw [WireType.ofName, h, Option.getD_some]⟩

theorem width_of_find? (hset : set.types = WireType.builtin) {type : Text} {wire : WireType}
    (h : set.find? type = some wire) : wire.width ≤ 8 := by
  rw [find?, hset] at h
  exact WireType.width_of_lookup type wire h

end TypeSet

end PacketCodec
