import PacketCodec.Proofs.Definition.Listing
import PacketCodec.Proofs.Except

namespace PacketCodec

-- The depth that an entry has after another: one deeper than an array or object,
-- otherwise at most as deep. The first entry has depth zero.
def Entry.Follows (previous : Option Entry) (e : Entry) : Prop :=
  match previous with
  | none => e.depth = 0
  | some p => if p.isComposite = true then e.depth = p.depth + 1 else e.depth ≤ p.depth

namespace Draft

variable {draft base : Draft} {fields : FieldList} {parent : Parent} {parents : List Parent}
  {line : Option Nat} {number depth : Nat} {e : Entry} {previous : Option Entry}

section Closing

theorem close_nil (line : Option Nat) (parent : Parent) :
    close line .nil parent = .error ⟨line, .noMembers parent.type parent.name⟩ := rfl

theorem close_of_ne_nil (hne : fields ≠ .nil) (line : Option Nat) (parent : Parent) :
    close line fields parent =
      .ok (.branch parent.name parent.type fields.reverse parent.before) := by
  rw [close, FieldList.isEmpty_eq_false_iff.mpr hne]
  rfl

theorem closeTo_of_le (h : parents.length ≤ depth) (line : Option Nat) (fields : FieldList) :
    closeTo line depth fields parents = .ok ⟨fields, parents⟩ := by
  cases parents with
  | nil => rfl
  | cons parent parents => rw [closeTo, if_pos (Nat.lt_of_succ_le h)]

theorem closeTo_cons_of_le (h : depth ≤ parents.length) (line : Option Nat) (fields : FieldList)
    (parent : Parent) :
    closeTo line depth fields (parent :: parents) =
      close line fields parent >>= fun fields => closeTo line depth fields parents := by
  rw [closeTo, if_neg (by omega)]
  cases close line fields parent <;> rfl

-- Once the innermost structure has members, so has every structure around it.
theorem exists_closeTo_of_ne_nil (hne : fields ≠ .nil) (line : Option Nat) (depth : Nat)
    (parents : List Parent) : ∃ draft, closeTo line depth fields parents = .ok draft := by
  induction parents generalizing fields with
  | nil => exact ⟨_, rfl⟩
  | cons parent parents ih =>
      by_cases h : (parent :: parents).length ≤ depth
      · exact ⟨_, closeTo_of_le h line fields⟩
      · have hle : depth ≤ parents.length := by
          rw [List.length_cons] at h
          omega
        rw [closeTo_cons_of_le hle, close_of_ne_nil hne, ok_bind]
        exact ih nofun

theorem length_parents_of_closeTo (h : closeTo line depth fields parents = .ok draft) :
    draft.parents.length = min depth parents.length := by
  induction parents generalizing fields with
  | nil =>
      cases h
      simp
  | cons parent parents ih =>
      by_cases hle : (parent :: parents).length ≤ depth
      · rw [closeTo_of_le hle] at h
        cases h
        exact (Nat.min_eq_right hle).symm
      · rw [List.length_cons] at hle
        rw [closeTo_cons_of_le (by omega)] at h
        obtain ⟨outer, -, h⟩ := bind_eq_ok_iff.mp h
        rw [ih h, List.length_cons]
        omega

-- Closing goes through every depth in between.
theorem closeTo_eq_bind (line : Option Nat) (depth : Nat) (fields : FieldList)
    (parents : List Parent) :
    closeTo line depth fields parents =
      closeTo line (depth + 1) fields parents >>= fun draft =>
        closeTo line depth draft.fields draft.parents := by
  induction parents generalizing fields with
  | nil => rfl
  | cons parent parents ih =>
      by_cases hle : (parent :: parents).length ≤ depth + 1
      · rw [closeTo_of_le hle, ok_bind]
      · rw [List.length_cons] at hle
        rw [closeTo_cons_of_le (by omega), closeTo_cons_of_le (by omega)]
        cases close line fields parent with
        | error e => rfl
        | ok fields => exact ih fields

end Closing

section Placing

-- The entry that was placed last, at the depth where it stands.
def Ends (draft : Draft) : Option Entry → Prop
  | none => draft = empty
  | some e => ∃ before : Draft, before.parents.length = e.depth ∧ draft = before.push e

theorem place_eq_ok_iff : draft.place number e = .ok base ↔
    e.depth ≤ draft.parents.length ∧ ∃ before,
      closeTo (some number) e.depth draft.fields draft.parents = .ok before ∧
        base = before.push e := by
  unfold place
  by_cases h : draft.parents.length < e.depth
  · simp only [if_pos h, reduceCtorEq, false_iff]
    rintro ⟨hle, -⟩
    omega
  · simp only [if_neg h, map_eq_ok_iff, Nat.not_lt.mp h, true_and]

theorem ends_of_place (h : draft.place number e = .ok base) : base.Ends (some e) := by
  obtain ⟨hle, before, hclose, rfl⟩ := place_eq_ok_iff.mp h
  refine ⟨before, ?_, rfl⟩
  rw [length_parents_of_closeTo hclose, Nat.min_eq_left hle]

theorem push_of_composite (h : e.isComposite = true) (before : Draft) :
    before.push e = ⟨.nil, ⟨e.type, e.name, before.fields⟩ :: before.parents⟩ := by
  rw [push, if_pos h]

theorem push_of_scalar (h : e.isComposite = false) (before : Draft) :
    before.push e = ⟨.leaf e.name e.type before.fields, before.parents⟩ := by
  rw [push, if_neg (by simp [h])]

theorem exists_place_of_follows (h : draft.Ends previous) (hfollows : e.Follows previous)
    (number : Nat) : ∃ base, draft.place number e = .ok base := by
  have hplace {before : Draft} (hle : e.depth ≤ draft.parents.length)
      (hclose : closeTo (some number) e.depth draft.fields draft.parents = .ok before) :
      ∃ base, draft.place number e = .ok base :=
    ⟨_, place_eq_ok_iff.mpr ⟨hle, before, hclose, rfl⟩⟩
  cases previous with
  | none =>
      obtain rfl : draft = empty := h
      have hdepth : e.depth = 0 := hfollows
      exact hplace (by omega) (closeTo_of_le (Nat.zero_le _) _ _)
  | some p =>
      obtain ⟨before, hlen, rfl⟩ := h
      cases hp : p.isComposite with
      | true =>
          have hdepth : e.depth = p.depth + 1 := by simpa [Entry.Follows, hp] using hfollows
          have hcount : (before.push p).parents.length = e.depth := by
            rw [push_of_composite hp, List.length_cons, hlen, hdepth]
          exact hplace (Nat.le_of_eq hcount.symm) (closeTo_of_le (Nat.le_of_eq hcount) _ _)
      | false =>
          have hdepth : e.depth ≤ p.depth := by simpa [Entry.Follows, hp] using hfollows
          rw [push_of_scalar hp] at hplace ⊢
          have hne : FieldList.leaf p.name p.type before.fields ≠ .nil := nofun
          obtain ⟨closed, hclose⟩ :=
            exists_closeTo_of_ne_nil hne (some number) e.depth before.parents
          exact hplace (show e.depth ≤ before.parents.length by omega) hclose

theorem exists_error_of_not_follows (h : draft.Ends previous) (hnot : ¬ e.Follows previous)
    (number : Nat) : ∃ cause, draft.place number e = .error ⟨some number, cause⟩ := by
  have hdeep (hlt : draft.parents.length < e.depth) :
      ∃ cause, draft.place number e = .error ⟨some number, cause⟩ :=
    ⟨.tooDeep e.name, by rw [place, if_pos hlt]⟩
  cases previous with
  | none =>
      obtain rfl : draft = empty := h
      have hdepth : e.depth ≠ 0 := hnot
      exact hdeep (Nat.pos_of_ne_zero hdepth)
  | some p =>
      obtain ⟨before, hlen, rfl⟩ := h
      cases hp : p.isComposite with
      | true =>
          have hdepth : e.depth ≠ p.depth + 1 := by simpa [Entry.Follows, hp] using hnot
          rw [push_of_composite hp] at hdeep ⊢
          by_cases hlt : p.depth + 1 < e.depth
          · exact hdeep (by rw [List.length_cons, hlen]; exact hlt)
          · -- the array or object is closed at once, without members
            refine ⟨.noMembers p.type p.name, ?_⟩
            have hle : e.depth ≤ before.parents.length := by omega
            rw [place, if_neg (by rw [List.length_cons]; omega), closeTo_cons_of_le hle, close_nil]
            rfl
      | false =>
          have hdepth : p.depth < e.depth := by simpa [Entry.Follows, hp] using hnot
          rw [push_of_scalar hp] at hdeep ⊢
          exact hdeep (show before.parents.length < e.depth by omega)

theorem exists_finish (h : draft.Ends previous) (hclosed : ∀ p ∈ previous, p.isComposite = false) :
    ∃ fields, draft.finish = .ok fields := by
  have hfinish {closed : Draft} (h : closeTo none 0 draft.fields draft.parents = .ok closed) :
      ∃ fields, draft.finish = .ok fields :=
    ⟨_, by rw [finish, h]; rfl⟩
  cases previous with
  | none =>
      obtain rfl : draft = empty := h
      exact hfinish (closeTo_of_le (Nat.le_refl 0) none .nil)
  | some p =>
      obtain ⟨before, -, rfl⟩ := h
      rw [push_of_scalar (hclosed p rfl)] at hfinish ⊢
      have hne : FieldList.leaf p.name p.type before.fields ≠ .nil := nofun
      obtain ⟨closed, hclose⟩ := exists_closeTo_of_ne_nil hne none 0 before.parents
      exact hfinish hclose

theorem finish_of_composite {p : Entry} (h : draft.Ends (some p)) (hp : p.isComposite = true) :
    draft.finish = .error ⟨none, .noMembers p.type p.name⟩ := by
  obtain ⟨before, -, rfl⟩ := h
  rw [push_of_composite hp, finish, closeTo_cons_of_le (Nat.zero_le _), close_nil]
  rfl

end Placing

section Contents

-- The entries up to the innermost open structure.
def trail : List Parent → List Entry
  | [] => []
  | parent :: parents =>
    trail parents ++ parent.before.reverse.listing parents.length ++
      [⟨parents.length, parent.type, parent.name⟩]

-- All that a draft has taken in, in the order in which it came.
def listing (draft : Draft) : List Entry :=
  trail draft.parents ++ draft.fields.reverse.listing draft.parents.length

structure Shaped (draft : Draft) : Prop where
  fields : draft.fields.Shaped
  parents : ∀ parent ∈ draft.parents, isComposite parent.type = true ∧ parent.before.Shaped

theorem listing_reverse_cons (fields : FieldList) (depth : Nat) (name type : Text)
    (members : FieldList) :
    (FieldList.leaf name type fields).reverse.listing depth =
        fields.reverse.listing depth ++ [⟨depth, type, name⟩] ∧
      (FieldList.branch name type members fields).reverse.listing depth =
        fields.reverse.listing depth ++ ⟨depth, type, name⟩ :: members.listing (depth + 1) := by
  constructor
  · rw [FieldList.reverse, FieldList.reverseOnto, FieldList.listing_reverseOnto]
    rfl
  · rw [FieldList.reverse, FieldList.reverseOnto, FieldList.listing_reverseOnto]
    simp [FieldList.listing]

-- A structure that is closed stays where it was opened.
theorem keeps_of_close {outer : FieldList} (h : close line fields parent = .ok outer)
    (parents : List Parent) :
    (⟨outer, parents⟩ : Draft).listing = (⟨fields, parent :: parents⟩ : Draft).listing ∧
      ((⟨fields, parent :: parents⟩ : Draft).Shaped → (⟨outer, parents⟩ : Draft).Shaped) := by
  by_cases hne : fields = .nil
  · rw [hne, close_nil] at h
    contradiction
  rw [close_of_ne_nil hne] at h
  cases h
  constructor
  · rw [listing, listing, (listing_reverse_cons parent.before parents.length parent.name
      parent.type fields.reverse).2]
    simp [trail]
  · rintro ⟨hfields, hparents⟩
    obtain ⟨⟨hcomposite, hbefore⟩, hparents⟩ := List.forall_mem_cons.mp hparents
    exact ⟨⟨hcomposite, mt FieldList.reverse_eq_nil_iff.mp hne,
      FieldList.shaped_reverse.mpr hfields, hbefore⟩, hparents⟩

theorem keeps_of_closeTo (h : closeTo line depth fields parents = .ok draft) :
    draft.listing = (⟨fields, parents⟩ : Draft).listing ∧
      ((⟨fields, parents⟩ : Draft).Shaped → draft.Shaped) := by
  induction parents generalizing fields with
  | nil =>
      cases h
      exact ⟨rfl, id⟩
  | cons parent parents ih =>
      by_cases hle : (parent :: parents).length ≤ depth
      · rw [closeTo_of_le hle] at h
        cases h
        exact ⟨rfl, id⟩
      · rw [List.length_cons] at hle
        rw [closeTo_cons_of_le (by omega)] at h
        obtain ⟨outer, hclose, h⟩ := bind_eq_ok_iff.mp h
        obtain ⟨hlisting, hshaped⟩ := keeps_of_close hclose parents
        obtain ⟨hlisting', hshaped'⟩ := ih h
        exact ⟨hlisting'.trans hlisting, fun h => hshaped' (hshaped h)⟩

theorem listing_push (h : draft.parents.length = e.depth) :
    (draft.push e).listing = draft.listing ++ [e] := by
  cases he : e.isComposite with
  | true =>
      rw [push_of_composite he, listing, trail, h]
      simp [listing, h, FieldList.reverse, FieldList.reverseOnto, FieldList.listing]
  | false =>
      rw [push_of_scalar he, listing, (listing_reverse_cons draft.fields _ e.name e.type .nil).1, h,
        listing, h, List.append_assoc]

theorem Shaped.push (h : draft.Shaped) (e : Entry) : (draft.push e).Shaped := by
  cases he : e.isComposite with
  | true =>
      rw [push_of_composite he]
      exact ⟨trivial, List.forall_mem_cons.mpr ⟨⟨he, h.fields⟩, h.parents⟩⟩
  | false =>
      rw [push_of_scalar he]
      exact ⟨⟨he, h.fields⟩, h.parents⟩

theorem keeps_of_place (h : draft.place number e = .ok base) :
    base.listing = draft.listing ++ [e] ∧ (draft.Shaped → base.Shaped) := by
  obtain ⟨hle, before, hclose, rfl⟩ := place_eq_ok_iff.mp h
  obtain ⟨hlisting, hshaped⟩ := keeps_of_closeTo hclose
  have hlen : before.parents.length = e.depth := by
    rw [length_parents_of_closeTo hclose, Nat.min_eq_left hle]
  exact ⟨by rw [listing_push hlen, hlisting], fun h => (hshaped h).push e⟩

theorem keeps_of_finish (h : draft.finish = .ok fields) :
    fields.listing 0 = draft.listing ∧ (draft.Shaped → fields.Shaped) := by
  obtain ⟨whole, hclose, rfl⟩ := map_eq_ok_iff.mp h
  obtain ⟨hlisting, hshaped⟩ := keeps_of_closeTo hclose
  have hlen := length_parents_of_closeTo hclose
  rw [Nat.zero_min, List.length_eq_zero_iff] at hlen
  refine ⟨?_, fun h => FieldList.shaped_reverse.mpr (hshaped h).fields⟩
  rw [← hlisting, listing, hlen]
  rfl

end Contents

section Growing

-- Entries that can be placed one after the other, whatever the numbers of their
-- lines.
inductive Grows : Draft → List Entry → Draft → Prop
  | nil (draft : Draft) : Grows draft [] draft
  | cons {draft base grown : Draft} {e : Entry} {entries : List Entry}
      (hplace : ∀ number, draft.place number e = .ok base)
      (hrest : Grows base entries grown) : Grows draft (e :: entries) grown

theorem Grows.append {middle grown : Draft} {entries more : List Entry}
    (h : draft.Grows entries middle) (h' : middle.Grows more grown) :
    draft.Grows (entries ++ more) grown := by
  induction h with
  | nil => exact h'
  | cons hplace _ ih => exact .cons hplace (ih h')

-- Closing a draft down to a depth gives another one, in which just that many
-- structures are open.
structure Closes (depth : Nat) (draft base : Draft) : Prop where
  closeTo : ∀ line, closeTo line depth draft.fields draft.parents = .ok base
  length : base.parents.length = depth

theorem closes_self (h : draft.parents.length = depth) : Closes depth draft draft :=
  ⟨fun line => closeTo_of_le (Nat.le_of_eq h) line draft.fields, h⟩

theorem Closes.place (h : Closes depth draft base) (hdepth : e.depth = depth) (number : Nat) :
    draft.place number e = .ok (base.push e) := by
  have hlen := length_parents_of_closeTo (h.closeTo none)
  rw [h.length] at hlen
  subst hdepth
  exact place_eq_ok_iff.mpr ⟨by omega, base, h.closeTo _, rfl⟩

-- A structure that has members can be closed as well.
theorem Closes.close (h : Closes (depth + 1) draft ⟨fields, parent :: parents⟩)
    (hne : fields ≠ .nil) :
    Closes depth draft
      ⟨.branch parent.name parent.type fields.reverse parent.before, parents⟩ := by
  have hlen : parents.length = depth := Nat.succ.inj h.length
  refine ⟨fun line => ?_, hlen⟩
  rw [closeTo_eq_bind, h.closeTo, ok_bind, closeTo_cons_of_le (Nat.le_of_eq hlen.symm),
    close_of_ne_nil hne, ok_bind, closeTo_of_le (Nat.le_of_eq hlen)]

-- The listing of a definition can be placed where structures are open up to its
-- depth, deeper ones being closed by its first entry. Closing what it leaves
-- open then gives its fields behind those that were there.
theorem exists_grows_listing (hshaped : fields.Shaped) (h : Closes depth draft base) :
    ∃ grown, draft.Grows (fields.listing depth) grown ∧
      Closes depth grown ⟨fields.reverseOnto base.fields, base.parents⟩ := by
  induction fields generalizing depth draft base with
  | nil => exact ⟨draft, .nil draft, h⟩
  | leaf name type rest ih =>
      obtain ⟨hscalar, hrest⟩ := hshaped
      have hscalar : Entry.isComposite ⟨depth, type, name⟩ = false := hscalar
      have hplace : ∀ number, draft.place number ⟨depth, type, name⟩ =
          .ok ⟨.leaf name type base.fields, base.parents⟩ :=
        fun number => (h.place rfl number).trans (congrArg _ (push_of_scalar hscalar base))
      have hplaced : Closes depth ⟨.leaf name type base.fields, base.parents⟩ _ :=
        closes_self h.length
      obtain ⟨grown, hgrows, hcloses⟩ := ih hrest hplaced
      exact ⟨grown, .cons hplace hgrows, hcloses⟩
  | branch name type members rest ihmembers ih =>
      obtain ⟨hcomposite, hne, hmembers, hrest⟩ := hshaped
      have hcomposite : Entry.isComposite ⟨depth, type, name⟩ = true := hcomposite
      have hplace : ∀ number, draft.place number ⟨depth, type, name⟩ =
          .ok ⟨.nil, ⟨type, name, base.fields⟩ :: base.parents⟩ :=
        fun number => (h.place rfl number).trans (congrArg _ (push_of_composite hcomposite base))
      have hopened : Closes (depth + 1) ⟨.nil, ⟨type, name, base.fields⟩ :: base.parents⟩ _ :=
        closes_self (congrArg Nat.succ h.length)
      obtain ⟨inner, hgrows, hinner⟩ := ihmembers hmembers hopened
      have hclosed := hinner.close (mt FieldList.reverse_eq_nil_iff.mp hne)
      obtain ⟨grown, hgrows', hcloses⟩ := ih hrest hclosed
      refine ⟨grown, .cons hplace (hgrows.append hgrows'), ?_⟩
      have hmembers : (members.reverseOnto .nil).reverse = members := members.reverse_reverse
      rwa [hmembers] at hcloses

end Growing

end Draft

end PacketCodec
