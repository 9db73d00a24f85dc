import Mathlib.Data.List.Basic
import Mathlib.Order.Fin.Basic
import PacketCodec.Text.Basic

namespace PacketCodec

namespace Text

section Order

variable {a b : CodePoint} {s t u : Text}

theorem le_cons_iff : Text.le (a :: s) (b :: t) = true ↔ a < b ∨ a = b ∧ Text.le s t = true := by
  rw [Text.le, Bool.or_eq_true, Bool.and_eq_true, decide_eq_true_iff, beq_iff_eq]

theorem le_refl (t : Text) : Text.le t t = true := by
  induction t with
  | nil => rfl
  | cons c t ih => exact le_cons_iff.mpr (.inr ⟨rfl, ih⟩)

theorem le_total (s t : Text) : Text.le s t = true ∨ Text.le t s = true := by
  induction s generalizing t with
  | nil => exact .inl rfl
  | cons a s ih =>
      cases t with
      | nil => exact .inr rfl
      | cons b t =>
          rw [le_cons_iff, le_cons_iff]
          rcases lt_trichotomy a b with hlt | rfl | hlt
          · exact .inl (.inl hlt)
          · exact (ih t).imp (fun h => .inr ⟨rfl, h⟩) fun h => .inr ⟨rfl, h⟩
          · exact .inr (.inl hlt)

theorem le_antisymm (hst : Text.le s t = true) (hts : Text.le t s = true) : s = t := by
  induction s generalizing t with
  | nil =>
      cases t with
      | nil => rfl
      | cons b t => contradiction
  | cons a s ih =>
      cases t with
      | nil => contradiction
      | cons b t =>
          rcases le_cons_iff.mp hst with hab | ⟨rfl, hrest⟩
          · rcases le_cons_iff.mp hts with hba | ⟨rfl, -⟩
            · exact absurd hab hba.asymm
            · exact absurd hab (lt_irrefl _)
          · rcases le_cons_iff.mp hts with hba | ⟨-, hrest'⟩
            · exact absurd hba (lt_irrefl _)
            · rw [ih hrest hrest']

theorem le_trans (hst : Text.le s t = true) (htu : Text.le t u = true) : Text.le s u = true := by
  induction s generalizing t u with
  | nil => rfl
  | cons a s ih =>
      cases t with
      | nil => contradiction
      | cons b t =>
          cases u with
          | nil => contradiction
          | cons c u =>
              refine le_cons_iff.mpr ?_
              rcases le_cons_iff.mp hst with hab | ⟨rfl, hrest⟩
              · rcases le_cons_iff.mp htu with hbc | ⟨rfl, -⟩
                · exact .inl (hab.trans hbc)
                · exact .inl hab
              · rcases le_cons_iff.mp htu with hbc | ⟨rfl, hrest'⟩
                · exact .inl hbc
                · exact .inr ⟨rfl, ih hrest hrest'⟩

end Order

variable {names names' : List Text}

theorem pairwise_mergeSort (names : List Text) :
    (names.mergeSort Text.le).Pairwise fun s t => Text.le s t = true := by
  have htrans : ∀ s t u : Text, Text.le s t = true → Text.le t u = true → Text.le s u = true :=
    fun _ _ _ => le_trans
  have htotal : ∀ s t : Text, (Text.le s t || Text.le t s) = true := by
    intro s t
    rw [Bool.or_eq_true]
    exact le_total s t
  exact List.pairwise_mergeSort htrans htotal names

-- Leaving out names does not change the order of the others.
theorem mergeSort_filter (hnames : names.Nodup) (hnames' : names'.Nodup)
    (hsubset : names' ⊆ names) :
    names'.mergeSort Text.le = (names.mergeSort Text.le).filter (· ∈ names') := by
  have hperm : (names.mergeSort Text.le).Perm names := List.mergeSort_perm ..
  have hsame : (names'.mergeSort Text.le).Perm ((names.mergeSort Text.le).filter (· ∈ names')) := by
    refine (List.mergeSort_perm ..).trans ?_
    refine (List.perm_ext_iff_of_nodup hnames' ((hperm.nodup_iff.mpr hnames).filter _)).mpr ?_
    intro name
    rw [List.mem_filter, List.mem_mergeSort, decide_eq_true_iff]
    exact ⟨fun h => ⟨hsubset h, h⟩, fun h => h.2⟩
  exact List.Perm.eq_of_pairwise (fun _ _ _ _ hst hts => le_antisymm hst hts)
    (pairwise_mergeSort names') ((pairwise_mergeSort names).filter _) hsame

end Text

end PacketCodec
