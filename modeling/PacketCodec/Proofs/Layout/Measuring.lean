import PacketCodec.Layout.Encode
import PacketCodec.Proofs.Except
import PacketCodec.Proofs.Value.Parts

namespace PacketCodec

namespace Layout

variable {entries : List (Text × Value)} {path : Text} {value : Value} {n : Nat}

theorem eq_entries_of_entriesOf {found : List (Text × Value)}
    (h : entriesOf value path = .ok found) : found = value.entries := by
  cases value with
  | null => cases h; rfl
  | record => cases h; rfl
  | _ => contradiction

theorem entriesOf_bind_eq_ok_iff {β : Type} {f : List (Text × Value) → Except Misfit β} {b : β} :
    (entriesOf value path >>= f) = .ok b ↔
      entriesOf value path = .ok value.entries ∧ f value.entries = .ok b := by
  rw [bind_eq_ok_iff]
  constructor
  · rintro ⟨found, hfound, hb⟩
    obtain rfl := eq_entries_of_entriesOf hfound
    exact ⟨hfound, hb⟩
  · rintro ⟨hfound, hb⟩
    exact ⟨_, hfound, hb⟩

theorem eq_items_of_itemsOf {items : List Value} (h : itemsOf value path = .ok items) :
    items = value.items ∧ items.length ≤ maxElements := by
  cases value with
  | null =>
      cases h
      exact ⟨rfl, Nat.zero_le _⟩
  | list _ | tuple _ =>
      simp only [itemsOf] at h
      split at h
      · contradiction
      next hshort =>
        cases h
        exact ⟨rfl, Nat.not_lt.mp hshort⟩
  | _ => contradiction

theorem itemsOf_list {items : List Value} (h : items.length ≤ maxElements) :
    itemsOf (.list items) path = .ok items := by
  simp only [itemsOf, if_neg (Nat.not_lt.mpr h)]

theorem measure_scalar_eq_ok_iff {name type : Text} {wire : WireType} {rest : Layout} :
    (scalar name type wire rest).measure entries path = .ok n ↔
      ∃ size others, wire.measure (lookUp entries name) (.text (member path name)) = .ok size ∧
        rest.measure entries path = .ok others ∧ n = size + others := by
  simp only [measure, bind_eq_ok_iff, pure, Except.pure, Except.ok.injEq, exists_and_left,
    @eq_comm _ _ n]

theorem measure_object_eq_ok_iff {name : Text} {members rest : Layout} :
    (object name members rest).measure entries path = .ok n ↔
      entriesOf (lookUp entries name) (member path name) = .ok (lookUp entries name).entries ∧
        ∃ size others, members.measure (lookUp entries name).entries (member path name) = .ok size ∧
          rest.measure entries path = .ok others ∧ n = size + others := by
  rw [measure, entriesOf_bind_eq_ok_iff]
  simp only [bind_eq_ok_iff, pure, Except.pure, Except.ok.injEq, exists_and_left, @eq_comm _ _ n]

-- The elements of an array are records like the members of an object.
def measureItem (element : Layout) (item : Value) (path : Text) : Except Misfit Nat := do
  element.measure (← entriesOf item path) path

theorem measureItem_eq_ok_iff {element : Layout} :
    measureItem element value path = .ok n ↔
      entriesOf value path = .ok value.entries ∧ element.measure value.entries path = .ok n :=
  entriesOf_bind_eq_ok_iff

theorem measure_array_eq_ok_iff {name count : Text} {element rest : Layout} :
    (array name count element rest).measure entries path = .ok n ↔
      ∃ items size others, itemsOf (lookUp entries name) (member path name) = .ok items ∧
        measureEach (measureItem element) (member path name) items 0 2 = .ok size ∧
        rest.measure entries path = .ok others ∧ n = size + others := by
  simp only [measure, bind_eq_ok_iff, pure, Except.pure, Except.ok.injEq, exists_and_left,
    @eq_comm _ _ n]
  rfl

theorem measureEach_cons_eq_ok_iff {measure : Value → Text → Except Misfit Nat} {item : Value}
    {rest : List Value} {i size : Nat} :
    measureEach measure path (item :: rest) i size = .ok n ↔
      ∃ first, measure item (element path i) = .ok first ∧
        measureEach measure path rest (i + 1) (size + first) = .ok n := by
  rw [measureEach]
  cases measure item (element path i) with
  | error => simp
  | ok first => simp

end Layout

end PacketCodec
