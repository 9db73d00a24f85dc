import PacketCodec.Sorting.Search

namespace PacketCodec

attribute [local instance (high)] instPowNat

namespace Sorting

variable {ε α : Type}

-- The longest start of a list in which each value is less than the one before
-- it, or in which none is, and the rest.
def runAfter (less : α → α → Except ε Bool) (falling : Bool) (last : α) :
    List α → Except ε (List α × List α)
  | [] => .ok ([], [])
  | value :: rest => do
    if (← less value last) = falling then
      let (run, rest) ← runAfter less falling value rest
      return (value :: run, rest)
    else return ([], value :: rest)

-- The first run of a list in rising order, and the rest.
def firstRun (less : α → α → Except ε Bool) : List α → Except ε (List α × List α)
  | value :: other :: rest => do
    let falling ← less other value
    let (run, rest) ← runAfter less falling other rest
    let run := value :: other :: run
    return (if falling then run.reverse else run, rest)
  | values => .ok (values, [])

-- Puts values into a run, one after the other, each behind those that it is not
-- less than.
def insertAll (less : α → α → Except ε Bool) (run : List α) : List α → Except ε (List α)
  | [] => .ok run
  | value :: rest => do
    let place ← countByHalves .front (fun other => return !(← less value other)) run
    insertAll less (run.take place ++ value :: run.drop place) rest

-- The least length of the runs of a list, except for the last one. There are
-- then as many runs as a power of two, or a few less.
def leastRun (size : Nat) : Nat :=
  let unit := 2 ^ (size.log2 - 5)
  (size + unit - 1) / unit

-- The first run of a list, brought to a least length if the list has so many
-- values, and the rest.
def takeRun (less : α → α → Except ε Bool) (least : Nat) (values : List α) :
    Except ε (List α × List α) := do
  let (run, rest) ← firstRun less values
  let missing := least - run.length
  return (← insertAll less run (rest.take missing), rest.drop missing)

end Sorting

end PacketCodec
