import PacketCodec.Definition.Grammar

namespace PacketCodec

namespace FieldList

-- The fields in pre-order. Members are one deeper than their field.
def listing : FieldList → (depth : Nat) → List Entry
  | nil, _ => []
  | leaf name type rest, depth => ⟨depth, type, name⟩ :: rest.listing depth
  | branch name type members rest, depth =>
    ⟨depth, type, name⟩ :: (members.listing (depth + 1) ++ rest.listing depth)

-- The arrays and objects have members, at least one each, and no other field has
-- a list of them.
def Shaped : FieldList → Prop
  | nil => True
  | leaf _ type rest => isComposite type = false ∧ rest.Shaped
  | branch _ type members rest =>
    isComposite type = true ∧ members ≠ nil ∧ members.Shaped ∧ rest.Shaped

variable {fields others : FieldList} {depth : Nat}

theorem isEmpty_eq_false_iff : fields.isEmpty = false ↔ fields ≠ nil := by
  cases fields <;> simp [isEmpty]

theorem reverseOnto_eq_nil_iff : fields.reverseOnto others = nil ↔ fields = nil ∧ others = nil := by
  induction fields generalizing others with
  | nil => simp [reverseOnto]
  | leaf name type rest ih => simp [reverseOnto, ih]
  | branch name type members rest _ ih => simp [reverseOnto, ih]

theorem reverse_eq_nil_iff : fields.reverse = nil ↔ fields = nil := by
  simp [reverse, reverseOnto_eq_nil_iff]

theorem reverse_reverseOnto (fields others : FieldList) :
    (fields.reverseOnto others).reverse = others.reverseOnto fields := by
  induction fields generalizing others with
  | nil => rfl
  | leaf name type rest ih => exact ih (leaf name type others)
  | branch name type members rest _ ih => exact ih (branch name type members others)

@[simp] theorem reverse_reverse (fields : FieldList) : fields.reverse.reverse = fields :=
  reverse_reverseOnto fields nil

theorem listing_reverseOnto (fields others : FieldList) (depth : Nat) :
    (fields.reverseOnto others).listing depth =
      fields.reverse.listing depth ++ others.listing depth := by
  induction fields generalizing others with
  | nil => rfl
  | leaf name type rest ih =>
      rw [reverse, reverseOnto, reverseOnto, ih, ih (leaf name type nil)]
      simp [listing]
  | branch name type members rest _ ih =>
      rw [reverse, reverseOnto, reverseOnto, ih, ih (branch name type members nil)]
      simp [listing]

theorem shaped_reverseOnto : (fields.reverseOnto others).Shaped ↔ fields.Shaped ∧ others.Shaped := by
  induction fields generalizing others with
  | nil => simp [reverseOnto, Shaped]
  | leaf name type rest ih =>
      rw [reverseOnto, ih, Shaped, Shaped]
      simp only [and_assoc, and_left_comm]
  | branch name type members rest _ ih =>
      rw [reverseOnto, ih, Shaped, Shaped]
      simp only [and_assoc, and_left_comm]

theorem shaped_reverse : fields.reverse.Shaped ↔ fields.Shaped := by
  simp [reverse, shaped_reverseOnto, Shaped]

end FieldList

end PacketCodec
