import PacketCodec.Proofs.Effects
import PacketCodec.Proofs.Layout.Unbound

namespace PacketCodec

-- A call for a working name: the hint that was given, and the answer.
structure Handout where
  hint : Text
  name : Text
  deriving DecidableEq

-- A type set, with every call for a working name on record.
structure Ledger where
  types : TypeSet
  handouts : List Handout

namespace Ledger

open Layout

def bind (hint : Text) : EStateM CompileError Ledger Text := do
  let ledger ← get
  let (name, types) := ledger.types.bind hint
  set (Ledger.mk types (ledger.handouts ++ [⟨hint, name⟩]))
  return name

def checkName (path : Text) (before : List Text) (name : Text) :
    EStateM CompileError Ledger Unit :=
  match nameError? path before name with
  | some e => throw e
  | none => return

def scalar (path type : Text) : EStateM CompileError Ledger WireType := do
  let ledger ← get
  MonadExcept.ofExcept (scalarType ledger.types path type)

-- Compiling as a program in which each array calls for the name of its count. The
-- calls of a program that fails stay on record.
def compile : FieldList → (path : Text) → (before : List Text) →
    EStateM CompileError Ledger Layout
  | .nil, _, _ => return .nil
  | .leaf name type rest, path, before => do
    checkName path before name
    let wire ← scalar (member path name) type
    let others ← compile rest path (name :: before)
    return .scalar name type wire others
  | .branch name type members rest, path, before => do
    checkName path before name
    if members.isEmpty then
      let wire ← scalar (member path name) type
      let others ← compile rest path (name :: before)
      return .scalar name type wire others
    else if type = objectType then
      let inner ← compile members (member path name) []
      let others ← compile rest path (name :: before)
      return .object name inner others
    else if type = arrayType then
      let count ← bind "count"
      let element ← compile members (elements (member path name)) []
      let others ← compile rest path (name :: before)
      return .array name count element others
    else throw ⟨member path name, .superfluousMembers type⟩

-- The counts that carry the numbers from `first` up to `stop`.
def counts (first stop : Nat) : List Handout :=
  (List.range' first (stop - first)).map fun number =>
    ⟨"count", TypeSet.bindingName "count" number⟩

-- The ledger after counts up to a number.
def upTo (ledger : Ledger) (stop : Nat) : Ledger :=
  ⟨{ ledger.types with issued := stop }, ledger.handouts ++ counts ledger.types.issued stop⟩

variable {α β : Type} {ledger : Ledger} {types : TypeSet} {path name type : Text}
  {before : List Text} {first middle stop : Nat}

theorem counts_append (h : first ≤ middle) (h' : middle ≤ stop) :
    counts first middle ++ counts middle stop = counts first stop := by
  obtain ⟨m, rfl⟩ := Nat.exists_eq_add_of_le h
  obtain ⟨n, rfl⟩ := Nat.exists_eq_add_of_le h'
  rw [counts, counts, counts, ← List.map_append, Nat.add_assoc, Nat.add_sub_cancel_left,
    Nat.add_sub_cancel_left, ← Nat.add_assoc, Nat.add_sub_cancel_left, List.range'_append_1]

theorem upTo_issued (ledger : Ledger) : ledger.upTo ledger.types.issued = ledger := by
  simp [upTo, counts]

theorem upTo_upTo (h : ledger.types.issued ≤ middle) (h' : middle ≤ stop) :
    (ledger.upTo middle).upTo stop = ledger.upTo stop := by
  simp only [upTo, List.append_assoc, counts_append h h']

theorem run_bind (hint : Text) (ledger : Ledger) :
    (bind hint).run ledger = ended (.ok (TypeSet.bindingName hint ledger.types.issued))
      ⟨(ledger.types.bind hint).2,
        ledger.handouts ++ [⟨hint, TypeSet.bindingName hint ledger.types.issued⟩]⟩ := rfl

theorem run_checkName (path : Text) (before : List Text) (name : Text) (ledger : Ledger) :
    (checkName path before name).run ledger =
      ended ((nameError? path before name).elim (.ok ()) .error) ledger := by
  rw [checkName]
  cases nameError? path before name <;> rfl

theorem run_scalar (h : ledger.types.types = types.types) (path type : Text) :
    (scalar path type).run ledger = ended (scalarType types path type) ledger := by
  rw [← scalarType_congr h, ← run_ofExcept]
  rfl

-- A program that ends with an answer and with a number, and that has called for the
-- name of a count with each number before that one.
structure Counts (program : EStateM CompileError Ledger α) (ledger : Ledger)
    (result : Except CompileError α × Nat) : Prop where
  le : ledger.types.issued ≤ result.2
  run : program.run ledger = ended result.1 (ledger.upTo result.2)

namespace Counts

variable {program : EStateM CompileError Ledger α} {next : α → EStateM CompileError Ledger β}
  {result : Except CompileError β × Nat} {answer : Except CompileError α} {a : α} {e : CompileError}

theorem of_run (h : program.run ledger = ended answer ledger) :
    Counts program ledger (answer, ledger.types.issued) :=
  ⟨Nat.le_refl _, by rw [h, upTo_issued]⟩

theorem count (ledger : Ledger) :
    Counts (Ledger.bind "count") ledger
      (.ok (TypeSet.bindingName "count" ledger.types.issued), ledger.types.issued + 1) where
  le := Nat.le_succ _
  run := by
    rw [run_bind, upTo, counts, Nat.add_sub_cancel_left]
    rfl

theorem bind (h : Counts program ledger (.ok a, middle))
    (hnext : Counts (next a) (ledger.upTo middle) result) :
    Counts (program >>= next) ledger result where
  le := Nat.le_trans h.le hnext.le
  run := by rw [run_bind_of_ok h.run, hnext.run, upTo_upTo h.le hnext.le]

theorem bind_error (h : Counts program ledger (.error e, stop)) :
    Counts (program >>= next) ledger (.error e, stop) :=
  ⟨h.le, run_bind_of_error h.run⟩

theorem map {result : Except CompileError α × Nat} (h : Counts program ledger result) (f : α → β) :
    Counts (program >>= fun a => return f a) ledger (result.1.map f, result.2) := by
  obtain ⟨answer, stop⟩ := result
  cases answer with
  | error e => exact h.bind_error
  | ok a => exact h.bind ⟨Nat.le_refl _, by rw [upTo_upTo h.le (Nat.le_refl _)]; rfl⟩

-- Nothing is called for while a name is checked or a type is looked up.
theorem checkName_bind (path : Text) (before : List Text) (name : Text)
    {rest : EStateM CompileError Ledger β} (h : Counts rest ledger result) :
    Counts (checkName path before name >>= fun _ => rest) ledger
      (match nameError? path before name with
        | some e => (.error e, ledger.types.issued)
        | none => result) := by
  have hname := of_run (run_checkName path before name ledger)
  generalize nameError? path before name = check at *
  cases check with
  | some e => exact hname.bind_error
  | none => exact hname.bind (by rwa [upTo_issued])

theorem scalar_bind (path type : Text) {next : WireType → EStateM CompileError Ledger β}
    {result : WireType → Except CompileError β × Nat} (htypes : ledger.types.types = types.types)
    (h : ∀ wire, Counts (next wire) ledger (result wire)) :
    Counts (scalar path type >>= next) ledger
      (match scalarType types path type with
        | .error e => (.error e, ledger.types.issued)
        | .ok wire => result wire) := by
  have hscalar := of_run (run_scalar htypes path type)
  generalize scalarType types path type = answer at *
  cases answer with
  | error e => exact hscalar.bind_error
  | ok wire => exact hscalar.bind (by rw [upTo_issued]; exact h wire)

end Counts

-- The program has the answer of compiling, and calls for a name wherever
-- compiling counts one.
theorem counts_compile (fields : FieldList) (path : Text) (before : List Text) (ledger : Ledger)
    (h : ledger.types.types = types.types) :
    Counts (compile fields path before) ledger
      (Layout.compile types fields path before ledger.types.issued) := by
  induction fields generalizing path before ledger with
  | nil => exact .of_run rfl
  | leaf name type rest ih =>
      have hscalar := Counts.scalar_bind (member path name) type h fun wire =>
        (ih path (name :: before) ledger h).map (Layout.scalar name type wire)
      have hall := Counts.checkName_bind path before name hscalar
      rw [compile, Layout.compile]
      revert hall
      cases nameError? path before name <;> cases scalarType types (member path name) type <;>
        exact id
  | branch name type members rest ihmembers ih =>
      have hscalar := Counts.scalar_bind (member path name) type h fun wire =>
        (ih path (name :: before) ledger h).map (Layout.scalar name type wire)
      rw [compile, Layout.compile]
      refine Counts.checkName_bind path before name ?_
      split
      · exact hscalar
      · split
        · have hmembers := ihmembers (member path name) [] ledger h
          generalize Layout.compile types members (member path name) [] ledger.types.issued =
            result at *
          obtain ⟨answer, middle⟩ := result
          cases answer with
          | error e => exact hmembers.bind_error
          | ok inner =>
              exact hmembers.bind ((ih path (name :: before) (ledger.upTo middle) h).map _)
        · split
          · let counted := ledger.upTo (ledger.types.issued + 1)
            have helement : Counts (compile members (elements (member path name)) []) counted
                (Layout.compile types members (elements (member path name)) []
                  (ledger.types.issued + 1)) := ihmembers (elements (member path name)) [] counted h
            refine (Counts.count ledger).bind ?_
            generalize Layout.compile types members (elements (member path name)) []
              (ledger.types.issued + 1) = result at *
            obtain ⟨answer, middle⟩ := result
            cases answer with
            | error e => exact helement.bind_error
            | ok element =>
                have hrest := ih path (name :: before) (counted.upTo middle) h
                exact helement.bind (hrest.map _)
          · exact .of_run rfl

end Ledger

end PacketCodec
