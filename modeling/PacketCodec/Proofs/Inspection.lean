import PacketCodec.Proofs.Except

namespace PacketCodec

variable {α β γ ε : Type}

inductive Inspects (right : α → Prop) (blames : α → ε → Prop) : List α → Except ε β → Prop
  | passed {items b} (h : ∀ a ∈ items, right a) : Inspects right blames items (.ok b)
  | stopped {before a after e} (hbefore : ∀ b ∈ before, right b) (hwrong : ¬right a)
      (hblames : blames a e) : Inspects right blames (before ++ a :: after) (.error e)

namespace Inspects

variable {right : α → Prop} {blames : α → ε → Prop} {a : α} {items first second : List α}
  {e : Except ε β}

theorem stop {fault : ε} (hwrong : ¬right a) (hblames : blames a fault) (after : List α) :
    Inspects right blames (a :: after) (.error fault : Except ε β) := by
  have hnone : ∀ b ∈ ([] : List α), right b := fun _ h => absurd h List.not_mem_nil
  exact .stopped hnone hwrong hblames

theorem single (hright : (∃ b, e = .ok b) ↔ right a)
    (hblames : ∀ fault, e = .error fault → blames a fault) : Inspects right blames [a] e := by
  cases e with
  | ok b => exact .passed (List.forall_mem_singleton.mpr (hright.mp ⟨b, rfl⟩))
  | error fault =>
      apply Inspects.stop _ (hblames fault rfl)
      intro ha
      obtain ⟨b, hb⟩ := hright.mpr ha
      contradiction

-- An inspection that stops does not get to the items behind.
theorem append_of_error {fault : ε}
    (h : Inspects right blames first (.error fault : Except ε β)) (second : List α) :
    Inspects right blames (first ++ second) (.error fault : Except ε γ) := by
  cases h with
  | stopped hbefore hwrong hblames =>
      rw [List.append_assoc, List.cons_append]
      exact .stopped hbefore hwrong hblames

theorem append_of_ok {b : β} {e : Except ε γ}
    (h : Inspects right blames first (.ok b : Except ε β))
    (hsecond : Inspects right blames second e) :
    Inspects right blames (first ++ second) e := by
  cases h with
  | passed hfirst =>
      cases hsecond with
      | passed hsecond => exact .passed (List.forall_mem_append.mpr ⟨hfirst, hsecond⟩)
      | stopped hbefore hwrong hblames =>
          rw [← List.append_assoc]
          exact .stopped (List.forall_mem_append.mpr ⟨hfirst, hbefore⟩) hwrong hblames

-- One inspection after the other. The second may depend on the answer of the
-- first.
theorem bind {next : β → Except ε γ} (h : Inspects right blames first e)
    (hnext : ∀ b, e = .ok b → Inspects right blames second (next b)) :
    Inspects right blames (first ++ second) (e >>= next) := by
  cases e with
  | error fault => exact h.append_of_error second
  | ok b => exact h.append_of_ok (hnext b rfl)

theorem cons (ha : right a) (h : Inspects right blames items e) :
    Inspects right blames (a :: items) e := by
  have hsingle : Inspects right blames [a] (Except.ok ()) :=
    .passed (List.forall_mem_singleton.mpr ha)
  exact hsingle.append_of_ok h

theorem map (f : β → γ) (h : Inspects right blames items e) :
    Inspects right blames items (e.map f) := by
  cases h with
  | passed h => exact .passed h
  | stopped hbefore hwrong hblames => exact .stopped hbefore hwrong hblames

theorem bind_pure (f : β → γ) (h : Inspects right blames items e) :
    Inspects right blames items (e >>= fun b => pure (f b)) := by
  cases e <;> exact h.map f

theorem exists_ok_iff (h : Inspects right blames items e) :
    (∃ b, e = .ok b) ↔ ∀ a ∈ items, right a := by
  cases h with
  | @passed _ b h => exact ⟨fun _ => h, fun _ => ⟨b, rfl⟩⟩
  | @stopped before a after fault hbefore hwrong hblames =>
      constructor
      · rintro ⟨b, hb⟩
        contradiction
      · intro hall
        exact absurd (hall a (by simp)) hwrong

theorem exists_first (h : Inspects right blames items e) {fault : ε} (he : e = .error fault) :
    ∃ before a after, items = before ++ a :: after ∧ (∀ b ∈ before, right b) ∧ ¬right a ∧
      blames a fault := by
  cases h with
  | passed h => contradiction
  | stopped hbefore hwrong hblames =>
      cases he
      exact ⟨_, _, _, rfl, hbefore, hwrong, hblames⟩

end Inspects

end PacketCodec
