import Mathlib.Init

namespace PacketCodec

variable {α β ε ε' : Type}

theorem ok_bind (a : α) (f : α → Except ε β) : (Except.ok a >>= f) = f a := rfl

theorem error_bind (e : ε) (f : α → Except ε β) : (Except.error e >>= f) = .error e := rfl

theorem mapError_ok (f : ε → ε') (a : α) : (Except.ok a).mapError f = .ok a := rfl

theorem mapError_error (f : ε → ε') (e : ε) :
    (Except.error e : Except ε α).mapError f = .error (f e) := rfl

theorem mapError_bind (f : ε → ε') (e : Except ε α) (next : α → Except ε β) :
    (e >>= next).mapError f = e.mapError f >>= fun a => (next a).mapError f := by
  cases e <;> rfl

theorem mapError_map (f : ε → ε') (e : Except ε α) (g : α → β) :
    (e.map g).mapError f = (e.mapError f).map g := by
  cases e <;> rfl

theorem toOption_eq_some_iff {e : Except ε α} {a : α} : e.toOption = some a ↔ e = .ok a := by
  constructor
  · intro h
    cases e with
    | error => contradiction
    | ok =>
        cases h
        rfl
  · rintro rfl
    rfl

theorem bind_eq_ok_iff {e : Except ε α} {f : α → Except ε β} {b : β} :
    (e >>= f) = .ok b ↔ ∃ a, e = .ok a ∧ f a = .ok b := by
  constructor
  · intro h
    cases e with
    | error => contradiction
    | ok a => exact ⟨a, rfl, h⟩
  · rintro ⟨a, rfl, h⟩
    exact h

theorem bind_eq_error_iff {e : Except ε α} {f : α → Except ε β} {fault : ε} :
    (e >>= f) = .error fault ↔ e = .error fault ∨ ∃ a, e = .ok a ∧ f a = .error fault := by
  cases e with
  | error cause => simp [error_bind]
  | ok a => simp [ok_bind]

theorem map_eq_ok_iff {e : Except ε α} {f : α → β} {b : β} :
    e.map f = .ok b ↔ ∃ a, e = .ok a ∧ b = f a := by
  constructor
  · intro h
    cases e with
    | error => contradiction
    | ok a =>
        cases h
        exact ⟨a, rfl, rfl⟩
  · rintro ⟨a, rfl, rfl⟩
    rfl

theorem map_eq_error_iff {e : Except ε α} {f : α → β} {fault : ε} :
    e.map f = .error fault ↔ e = .error fault := by
  constructor
  · intro h
    cases e with
    | ok => contradiction
    | error cause =>
        cases h
        rfl
  · rintro rfl
    rfl

theorem mapError_eq_ok_iff {e : Except ε α} {f : ε → ε'} {a : α} :
    e.mapError f = .ok a ↔ e = .ok a := by
  cases e <;> simp [mapError_ok, mapError_error]

theorem mapError_eq_error_iff {e : Except ε α} {f : ε → ε'} {fault : ε'} :
    e.mapError f = .error fault ↔ ∃ cause, e = .error cause ∧ fault = f cause := by
  cases e <;> simp [mapError_ok, mapError_error, eq_comm]

end PacketCodec
