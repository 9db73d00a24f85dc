namespace PacketCodec

namespace Sorting

-- The side from which lists are worked on. Those that are worked on from the
-- back are given in reverse.
inductive Side where
  | front
  | back

namespace Side

-- Turns a list so that it starts at a side, or back again.
def turned {α : Type} : Side → List α → List α
  | front, values => values
  | back, values => values.reverse

-- The middle of a number of places. Of two it is the one behind, seen from the
-- front.
def middle (side : Side) (size : Nat) : Nat :=
  match side with
  | front => size / 2
  | back => (size - 1) / 2

end Side

variable {ε α : Type}

-- Searches by halves.
def countByHalves (side : Side) (has : α → Except ε Bool) (values : List α) : Except ε Nat :=
  let middle := side.middle values.length
  match _ : values.drop middle with
  | [] => .ok 0
  | value :: rest => do
    if ← has value then return middle + 1 + (← countByHalves side has rest)
    else countByHalves side has (values.take middle)
  termination_by values.length
  decreasing_by
    all_goals
      have := congrArg List.length ‹values.drop _ = _›
      simp only [List.length_drop, List.length_cons, List.length_take] at this ⊢
      omega

-- Searches by leaps that double in length, as far as they hold, and then by
-- halves in what the last one left out. So many values are known to have the
-- property already.
def countByLeaps (side : Side) (has : α → Except ε Bool) (known : Nat) (values : List α) :
    Except ε Nat :=
  let leap := known - 1
  match _ : values.drop leap with
  | [] => return known + (← countByHalves side has values)
  | value :: rest => do
    if ← has value then countByLeaps side has (known + leap + 1) rest
    else return known + (← countByHalves side has (values.take leap))
  termination_by values.length
  decreasing_by
    have := congrArg List.length ‹values.drop _ = _›
    simp only [List.length_drop, List.length_cons] at this
    omega

end Sorting

end PacketCodec
