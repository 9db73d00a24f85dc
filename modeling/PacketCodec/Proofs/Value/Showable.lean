import PacketCodec.Proofs.Text.Decimal
import PacketCodec.Proofs.Value.Parts
import PacketCodec.Value.Shown

namespace PacketCodec

namespace Value

variable {value : Value} {entries : List (Text × Value)} {items : List Value}

theorem isShowable_int_iff {n : Int} :
    (int n).isShowable = true ↔ n.natAbs < 10 ^ Text.maxDigits := by
  rw [isShowable, Text.isWritable_iff]

theorem areShowable_iff : areShowable items = true ↔ ∀ item ∈ items, item.isShowable = true := by
  induction items with
  | nil => simp [areShowable]
  | cons item rest ih => rw [areShowable, Bool.and_eq_true, ih, List.forall_mem_cons]

theorem isShowable_lookUp (h : entriesAreShowable entries = true) (name : Text) :
    (lookUp entries name).isShowable = true := by
  induction entries with
  | nil => rfl
  | cons entry rest ih =>
      obtain ⟨key, value⟩ := entry
      rw [entriesAreShowable, Bool.and_eq_true] at h
      by_cases hkey : name = key
      · rw [hkey, lookUp_cons_self]
        exact h.1
      · rw [lookUp_cons_of_ne _ _ hkey]
        exact ih h.2

-- What is in a value can be shown if the value can.

theorem entriesAreShowable_entries (h : value.isShowable = true) :
    entriesAreShowable value.entries = true := by
  cases value with
  | record entries => exact h
  | _ => rfl

theorem isShowable_of_mem_items (h : value.isShowable = true) :
    ∀ item ∈ value.items, item.isShowable = true := by
  cases value with
  | list items | tuple items => exact areShowable_iff.mp h
  | _ => nofun

end Value

end PacketCodec
