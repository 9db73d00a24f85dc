import Mathlib.Init

-- Programs that change a state and can fail. What was done to the state before
-- a failure stays done.

namespace PacketCodec

variable {σ ε α β : Type} {program : EStateM ε σ α} {next : α → EStateM ε σ β} {s after : σ}

-- The end of a program with an answer and a state.
def ended (answer : Except ε α) (after : σ) : EStateM.Result ε σ α :=
  match answer with
  | .ok a => .ok a after
  | .error e => .error e after

theorem run_ofExcept (answer : Except ε α) (s : σ) :
    (MonadExcept.ofExcept answer : EStateM ε σ α).run s = ended answer s := by
  cases answer <;> rfl

theorem run_get_bind {next : σ → EStateM ε σ α} :
    (get >>= next : EStateM ε σ α).run s = (next s).run s := rfl

theorem run_bind_of_ok {a : α} (h : program.run s = ended (.ok a) after) :
    (program >>= next).run s = (next a).run after := by
  rw [EStateM.run_bind, h]
  rfl

theorem run_bind_of_error {e : ε} (h : program.run s = ended (.error e) after) :
    (program >>= next).run s = ended (.error e) after := by
  rw [EStateM.run_bind, h]
  rfl

end PacketCodec
