import PacketCodec.Sorting.Merge
import PacketCodec.Sorting.Run

-- Sorting by comparisons that can fail. Values that are less than none of each
-- other stay in their order. Runs are merged soon after they were found, so that
-- those that are merged are of similar length.

namespace PacketCodec

attribute [local instance (high)] instPowNat

namespace Sorting

variable {ε α : Type}

-- A run that waits to be merged.
structure Run (α : Type) where
  values : List α
  -- the place of its first value in the whole list
  start : Nat
  -- the depth of the boundary in front of it
  depth : Nat

-- The depth of the boundary between two runs: how often the whole list must be
-- halved for the middles of the two runs to fall into different parts.
def boundaryDepth (size start left right : Nat) : Nat :=
  let middle := 2 * start + left
  let other := middle + left + right
  let splits (depth : Nat) : Bool := middle * 2 ^ depth / size ≠ other * 2 ^ depth / size
  ((List.range (size.log2 + 2)).find? splits).getD size

-- Merges the last runs, as long as the boundary between them is deeper than the
-- next one. The last run comes first.
def mergeDeeper (less : α → α → Except ε Bool) (depth patience : Nat) (runs : List (Run α)) :
    Except ε (List (Run α) × Nat) := do
  match runs with
  | last :: other :: rest =>
    if depth < last.depth then
      let (values, patience) ← merged less patience other.values last.values
      mergeDeeper less depth patience ({ other with values := values } :: rest)
    else return (runs, patience)
  | _ => return (runs, patience)
  termination_by runs.length

-- Merges all runs. The last run comes first.
def mergeAll (less : α → α → Except ε Bool) (patience : Nat) (runs : List (Run α)) :
    Except ε (List α) := do
  match runs with
  | [] => return []
  | [run] => return run.values
  | [last, other] => return (← merged less patience other.values last.values).1
  | last :: other :: third :: rest =>
    if third.values.length < last.values.length then
      let (values, patience) ← merged less patience third.values other.values
      mergeAll less patience (last :: { third with values := values } :: rest)
    else
      let (values, patience) ← merged less patience other.values last.values
      mergeAll less patience ({ other with values := values } :: third :: rest)
  termination_by runs.length

-- Adds a run that follows on the others.
def addRun (less : α → α → Except ε Bool) (size patience : Nat) (runs : List (Run α))
    (values : List α) : Except ε (List (Run α) × Nat) := do
  match runs with
  | [] => return ([⟨values, 0, 0⟩], patience)
  | last :: _ =>
    let depth := boundaryDepth size last.start last.values.length values.length
    let (runs, patience) ← mergeDeeper less depth patience runs
    return (⟨values, last.start + last.values.length, depth⟩ :: runs, patience)

-- Finds and merges runs, at most so many times.
def sortRuns (less : α → α → Except ε Bool) (size patience : Nat) (runs : List (Run α))
    (values : List α) : Nat → Except ε (List α)
  | 0 => mergeAll less patience runs
  | times + 1 => do
    if values.isEmpty then mergeAll less patience runs
    else
      let (run, rest) ← takeRun less (leastRun size) values
      let (runs, patience) ← addRun less size patience runs run
      sortRuns less size patience runs rest times

def sorted (less : α → α → Except ε Bool) (values : List α) : Except ε (List α) :=
  sortRuns less values.length Merge.worthwhile [] values values.length

end Sorting

end PacketCodec
