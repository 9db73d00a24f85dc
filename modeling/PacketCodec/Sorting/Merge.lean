import PacketCodec.Sorting.Search

-- Merging two sorted lists. Values are taken one at a time until one list has
-- won so often in a row that leaps pay, and one at a time again when they do not
-- pay any more. How often a list must win is the patience of the merge. It
-- carries over to the next one.

namespace PacketCodec

namespace Sorting

variable {ε α : Type}

-- A merge that is under way: what was taken, the latest first, and what is left.
structure Merge (α : Type) where
  taken : List α
  left : List α
  right : List α

-- Values are taken one at a time, so often from the same list in a row, or by
-- leaps.
inductive Pace where
  | steps (lefts rights : Nat)
  | leaps

namespace Merge

def takeLeft (m : Merge α) (count : Nat) : Merge α :=
  ⟨(m.left.take count).reverse ++ m.taken, m.left.drop count, m.right⟩

def takeRight (m : Merge α) (count : Nat) : Merge α :=
  ⟨(m.right.take count).reverse ++ m.taken, m.left, m.right.drop count⟩

-- Whether the place of everything that is left is known. The last value of the
-- left list comes after the whole right list, and the first value of the right
-- list before the whole left list.
def isDone (side : Side) (m : Merge α) : Bool :=
  match side with
  | .front => (m.left.drop 1).isEmpty || m.right.isEmpty
  | .back => m.left.isEmpty || (m.right.drop 1).isEmpty

-- What was taken with what is left, in rising order.
def result (side : Side) (m : Merge α) : List α :=
  let rest :=
    match side with
    | .front => m.right ++ m.left
    | .back => m.left ++ m.right
  side.turned (m.taken.reverse ++ rest)

-- Whether a value of the left list is taken before one of the right list. From
-- the front the lesser value is taken and from the back the other one.
def leftWins (side : Side) (less : α → α → Except ε Bool) (x y : α) : Except ε Bool := do
  match side with
  | .front => return !(← less y x)
  | .back => less y x

-- Takes one value, and tells whether it was from the left list.
def step (side : Side) (less : α → α → Except ε Bool) (m : Merge α) :
    Except ε (Bool × Merge α) := do
  match m.left, m.right with
  | x :: _, y :: _ =>
    if ← leftWins side less x y then return (true, m.takeLeft 1)
    else return (false, m.takeRight 1)
  | _, _ => return (false, m)

-- Takes what wins in the left list over the first value of the right list, and
-- tells how much it was.
def leapLeft (side : Side) (less : α → α → Except ε Bool) (m : Merge α) :
    Except ε (Nat × Merge α) := do
  match m.right with
  | [] => return (0, m)
  | y :: _ =>
    let count ← countByLeaps side (leftWins side less · y) 0 m.left
    return (count, m.takeLeft count)

def leapRight (side : Side) (less : α → α → Except ε Bool) (m : Merge α) :
    Except ε (Nat × Merge α) := do
  match m.left with
  | [] => return (0, m)
  | x :: _ =>
    let count ← countByLeaps side (fun y => return !(← leftWins side less x y)) 0 m.right
    return (count, m.takeRight count)

-- A leap in either list, each with the value that ended it. The longer leap is
-- told.
def leap (side : Side) (less : α → α → Except ε Bool) (m : Merge α) :
    Except ε (Nat × Merge α) := do
  let (lefts, m) ← m.leapLeft side less
  if m.isDone side then return (lefts, m)
  let m := m.takeRight 1
  if m.isDone side then return (lefts, m)
  let (rights, m) ← m.leapRight side less
  if m.isDone side then return (lefts, m)
  return (max lefts rights, m.takeLeft 1)

-- How long a leap must be to pay. It is also the patience to begin with.
def worthwhile : Nat := 7

-- Goes on with a merge, at most so many times. The patience afterwards is told.
def proceed (side : Side) (less : α → α → Except ε Bool) (patience : Nat) (pace : Pace)
    (m : Merge α) : Nat → Except ε (List α × Nat)
  | 0 => .ok (m.result side, patience)
  | times + 1 => do
    match pace with
    | .steps lefts rights =>
      let (wasLeft, m) ← m.step side less
      let lefts := if wasLeft then lefts + 1 else 0
      let rights := if wasLeft then 0 else rights + 1
      if m.isDone side then return (m.result side, patience)
      else if patience ≤ lefts ∨ patience ≤ rights then proceed side less patience .leaps m times
      else proceed side less patience (.steps lefts rights) m times
    | .leaps =>
      let (longest, m) ← m.leap side less
      if m.isDone side then return (m.result side, patience)
      else if worthwhile ≤ longest then proceed side less (max 1 (patience - 1)) .leaps m times
      else proceed side less (patience + 1) (.steps 0 0) m times

end Merge

-- Merges two lists of which the right one starts with a value that is less than
-- all of the left one, and the left one ends with a value that is less than none
-- of the right one.
def mergeFrom (side : Side) (less : α → α → Except ε Bool) (patience : Nat)
    (left right : List α) : Except ε (List α × Nat) :=
  let m : Merge α := ⟨[], side.turned left, side.turned right⟩
  let m :=
    match side with
    | .front => m.takeRight 1
    | .back => m.takeLeft 1
  if m.isDone side then .ok (m.result side, patience)
  else m.proceed side less patience (.steps 0 0) (left.length + right.length)

-- Merges two sorted lists. What comes before the first value of the right list
-- or after the last value of the left list is in place already. The merge works
-- from the side of the shorter list.
def merged (less : α → α → Except ε Bool) (patience : Nat) (left right : List α) :
    Except ε (List α × Nat) := do
  match right with
  | [] => return (left, patience)
  | first :: _ =>
    let start ← countByLeaps .front (fun x => return !(← less first x)) 0 left
    match (left.drop start).getLast? with
    | none => return (left ++ right, patience)
    | some last =>
      let finish ← countByLeaps .back (fun y => return !(← less y last)) 0 right.reverse
      let before := left.take start
      let left := left.drop start
      let after := right.drop (right.length - finish)
      let right := right.take (right.length - finish)
      if right.isEmpty then return (before ++ left ++ after, patience)
      let side := if left.length ≤ right.length then Side.front else .back
      let (values, patience) ← mergeFrom side less patience left right
      return (before ++ values ++ after, patience)

end Sorting

end PacketCodec
