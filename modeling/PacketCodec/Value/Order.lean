import PacketCodec.Sorting
import PacketCodec.Value.Key

namespace PacketCodec

attribute [local instance (high)] instPowNat

inductive Comparison where
  | less
  | greater
  deriving DecidableEq

namespace Comparison

def symbol : Comparison → Text
  | less => "<"
  | greater => ">"

-- Whether a comparison holds, given which things come before which.
def holds {α : Type} (comparison : Comparison) (before : α → α → Bool) (a b : α) : Bool :=
  match comparison with
  | less => before a b
  | greater => before b a

end Comparison

-- A comparison of two values that have no order, by their kinds.
structure NotOrdered where
  comparison : Comparison
  kind : Text
  other : Text

namespace NotOrdered

def failure (e : NotOrdered) : Failure :=
  .saying .badType (Text.join ["'", e.comparison.symbol, "' not supported between instances of '",
    e.kind, "' and '", e.other, "'"])

end NotOrdered

-- Where a number stands among the others.
inductive Standing where
  | below
  -- so many times the smallest positive double
  | finite (n : Int)
  | above
  -- not a number, which stands nowhere
  | nowhere

namespace Standing

def before : Standing → Standing → Bool
  | nowhere, _ | _, nowhere => false
  | finite m, finite n => m < n
  | below, below | above, above => false
  | below, _ | _, above => true
  | _, below | above, _ => false

end Standing

namespace Value

def standing? : Value → Option Standing
  | double x =>
    let n : Int := x.multiple
    if x.isNaN then some .nowhere
    else if x.isFinite then some (.finite (if x.negative then -n else n))
    else some (if x.negative then .below else .above)
  | value => value.integer?.map fun n => .finite (n * 2 ^ FloatFormat.binary64.quantum)

mutual

-- Tuples are compared by the first items that differ.
def compared (comparison : Comparison) : Value → Value → Except NotOrdered Bool
  | text s, text t => .ok (comparison.holds (List.lex · ·) s t)
  | bytes b, bytes c => .ok (comparison.holds (List.lex · ·) b c)
  | tuple items, tuple others => comparedItems comparison items others
  | value, other =>
    match value.standing?, other.standing? with
    | some m, some n => .ok (comparison.holds Standing.before m n)
    | _, _ => .error ⟨comparison, value.kind, other.kind⟩

def comparedItems (comparison : Comparison) :
    List Value → List Value → Except NotOrdered Bool
  | [], [] => .ok false
  | [], _ :: _ => .ok (comparison = .less)
  | _ :: _, [] => .ok (comparison = .greater)
  | item :: items, other :: others =>
    if item.same other then comparedItems comparison items others
    else compared comparison item other

end

-- The last of the values that are each greater than all greatest ones before.
def greatest (value : Value) : List Value → Except NotOrdered Value
  | [] => .ok value
  | other :: rest => do
    if ← other.compared .greater value then greatest other rest else greatest value rest

-- Things in the rising order of their values. Whole numbers always have one, and
-- so have texts. Which comparisons are made among other values shows where one
-- of them has no answer.
def sortedBy {α : Type} (value : α → Value) (things : List α) : Except NotOrdered (List α) :=
  let whole (a : α) : Option Int := (value a).whole?
  let text (a : α) : Option Text :=
    match value a with
    | .text t => some t
    | _ => none
  if things.all (whole · |>.isSome) then
    .ok (things.mergeSort fun a b => (whole a).getD 0 ≤ (whole b).getD 0)
  else if things.all (text · |>.isSome) then
    .ok (things.mergeSort fun a b => Text.le ((text a).getD []) ((text b).getD []))
  else Sorting.sorted (fun a b => (value a).compared .less (value b)) things

def sorted (values : List Value) : Except NotOrdered (List Value) :=
  sortedBy id values

end Value

end PacketCodec
