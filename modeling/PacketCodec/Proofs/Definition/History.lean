import Mathlib.Data.List.Pairwise
import Mathlib.Data.List.Sort
import PacketCodec.Proofs.Definition.Insertion
import PacketCodec.Proofs.Definition.Versions
import PacketCodec.Proofs.Text.Order

namespace PacketCodec

-- Sums start from the zero of the core library.
attribute [local instance (high)] Zero.ofOfNat0

namespace DefinitionTable

variable {table : DefinitionTable} {additions : List Addition} {name : Text}
  {names : List Text} {versions : List Int}

section Lists

theorem exists_names (additions : List Addition) :
    ∃ names, (ofAdditions additions).packets.Lists .text names ∧
      ∀ name, name ∈ names ↔ ∃ addition ∈ additions, addition.name = name := by
  induction additions using List.reverseRecOn with
  | nil => exact ⟨[], ⟨rfl, List.nodup_nil⟩, by simp⟩
  | append_singleton additions addition ih =>
      obtain ⟨names, hlists, hmem⟩ := ih
      rw [ofAdditions_concat]
      obtain ⟨names', hlists', hmem'⟩ :=
        hlists.put (fun _ _ => Value.same_texts_iff) addition.name
          (((ofAdditions additions).packet (.text addition.name)).put (.int addition.version)
            addition.fields)
      refine ⟨names', hlists', fun name => ?_⟩
      rw [hmem', hmem]
      simp [or_and_right, exists_or, or_comm, eq_comm]

theorem exists_versions (additions : List Addition) (name : Text) :
    ∃ versions, ((ofAdditions additions).packet (.text name)).Lists .int versions := by
  induction additions using List.reverseRecOn with
  | nil => exact ⟨[], rfl, List.nodup_nil⟩
  | append_singleton additions addition ih =>
      obtain ⟨versions, hlists⟩ := ih
      rw [ofAdditions_concat, insertAddition, packet_insert (Value.same_text_iff.mpr rfl)]
      by_cases hname : addition.name = name
      · rw [if_pos (Value.alike_text_iff.mpr hname), hname]
        obtain ⟨versions', hlists', -⟩ :=
          hlists.put (fun _ _ => Value.same_int_iff) addition.version addition.fields
        exact ⟨versions', hlists'⟩
      · rw [if_neg (fun h => hname (Value.alike_text_iff.mp h))]
        exact ⟨versions, hlists⟩

theorem mem_versions_iff (h : ((ofAdditions additions).packet (.text name)).Lists .int versions)
    (version : Int) : version ∈ versions ↔ (name, version) ∈ additions.map Addition.key := by
  rw [← contains_ofAdditions, h.contains_iff fun _ _ => Value.same_int_iff]

theorem count_eq_sum (h : table.packets.Lists .text names) :
    table.count = (names.map fun name => (table.packet (.text name)).length).sum := by
  have hkept := congrArg (List.map fun kept : Option (Keyed FieldList) => kept.elim 0 List.length)
    (h.map_get? fun _ _ => Value.same_texts_iff)
  rw [List.map_map, List.map_map] at hkept
  simp only [length_packet]
  exact congrArg List.sum hkept.symm

theorem names_of_lists (h : table.packets.Lists .text names) :
    table.names = .ok ((names.mergeSort Text.le).map .text) := by
  rw [DefinitionTable.names, h.1, Value.sorted_text]

-- No name comes twice, so that each comes strictly after those before it.
theorem pairwise_names (h : names.Nodup) :
    (names.mergeSort Text.le).Pairwise fun name later => Text.le later name = false := by
  have hnodup : (names.mergeSort Text.le).Nodup := (List.mergeSort_perm ..).nodup_iff.mpr h
  refine ((Text.pairwise_mergeSort names).and hnodup).imp fun ⟨hle, hne⟩ => ?_
  exact Bool.eq_false_iff.mpr fun hge => hne (Text.le_antisymm hle hge)

theorem pairwise_versions (h : versions.Nodup) :
    (versions.mergeSort fun m n => m ≤ n).Pairwise (· < ·) := by
  have hnodup : (versions.mergeSort fun m n => m ≤ n).Nodup :=
    (List.mergeSort_perm ..).nodup_iff.mpr h
  exact ((List.pairwise_mergeSort' (· ≤ ·) versions).and hnodup).imp fun ⟨hle, hne⟩ =>
    lt_of_le_of_ne hle hne

theorem getLast?_mergeSort (n : Int) (rest : List Int) :
    ((n :: rest).mergeSort fun m n => m ≤ n).getLast? = some (rest.foldl max n) := by
  have hmax := max?_mergeSort n rest
  generalize hsort : ((n :: rest).mergeSort fun m n => m ≤ n) = sorted at hmax ⊢
  have hsorted : sorted.Pairwise (· ≤ ·) := hsort ▸ List.pairwise_mergeSort' (· ≤ ·) (n :: rest)
  have hne : sorted ≠ [] := by
    rintro rfl
    contradiction
  have hlast : sorted.max? = some (sorted.getLast hne) :=
    List.max?_eq_some_iff.mpr ⟨List.getLast_mem hne, fun _ hm => hsorted.rel_getLast hm⟩
  rw [List.getLast?_eq_some_getLast hne, ← hlast, hmax]

theorem latest_of_lists (h : (table.packet (.text name)).Lists .int versions) :
    table.latest (.text name) =
      (versions.mergeSort fun m n => m ≤ n).getLast?.elim (.error (.noPacket (.text name)))
        fun version => .ok (.int version) := by
  cases versions with
  | nil =>
      rw [latest, Value.key_text, mapError_ok, ok_bind, h.1, List.mergeSort_nil]
      rfl
  | cons n rest => rw [latest_of_keys Value.key_text h.1, getLast?_mergeSort, Option.elim_some]

end Lists

inductive Change where
  | add (name : Text) (version : Int) (fields : FieldList)
  | addText (name : Text) (version : Int) (t : Text)
  | freeze
  deriving DecidableEq

-- What a call has for the table. A text may be no definition.
def Change.addition? : Change → Option Addition
  | add name version fields => some ⟨name, version, fields⟩
  | addText name version t =>
    (Definition.ofText t).toOption.map fun fields => ⟨name, version, fields⟩
  | freeze => none

-- The answer to a call, and the table afterwards.
def change (table : DefinitionTable) : Change → Except AddError Unit × DefinitionTable
  | .add name version fields => table.add (.text name) (.int version) fields
  | .addText name version t => table.addText (.text name) (.int version) t
  | .freeze => (.ok (), table.freeze)

def changes (table : DefinitionTable) (history : List Change) : DefinitionTable :=
  history.foldl (fun table call => (table.change call).2) table

-- What calls add, one after the other, up to the first one that freezes.
def additionsOf (history : List Change) : List Addition :=
  (history.takeWhile (· ≠ .freeze)).filterMap Change.addition?

-- Why a call is refused: the table is frozen, or the text is no definition.
inductive Change.Refused (frozen : Prop) : Change → AddError → Prop
  | add {name version fields} (h : frozen) : Refused frozen (.add name version fields) .frozen
  | addText {name version t} (h : frozen) : Refused frozen (.addText name version t) .frozen
  | grammar {name version t e} (h : ¬frozen) (htext : Definition.ofText t = .error e) :
      Refused frozen (.addText name version t) (.grammar e)

section Changes

variable {call : Change} {history : List Change} {e : AddError}

theorem change_of_frozen (h : table.frozen = true) (call : Change) :
    (table.change call).2 = table := by
  cases call with
  | add => simp only [change, DefinitionTable.add, h, if_true]
  | addText => simp only [change, DefinitionTable.addText, h, if_true]
  | freeze =>
      obtain ⟨packets, frozen⟩ := table
      cases h
      rfl

-- One call on a table that is open.
theorem change_of_open (h : table.frozen = false) (call : Change) :
    (table.change call).2 =
      if call = .freeze then table.freeze else call.addition?.elim table table.insertAddition := by
  cases call with
  | add name version fields =>
      simp only [change, DefinitionTable.add, h]
      rfl
  | addText name version t =>
      simp only [change, DefinitionTable.addText, DefinitionTable.add, h, Change.addition?]
      cases Definition.ofText t <;> rfl
  | freeze => rfl

theorem additionsOf_cons (hcall : call ≠ .freeze) (later : List Change) :
    additionsOf (call :: later) = call.addition?.toList ++ additionsOf later := by
  rw [additionsOf, List.takeWhile_cons_of_pos (by simpa using hcall), List.filterMap_cons]
  cases call.addition? <;> rfl

theorem changes_of_frozen (h : table.frozen = true) (later : List Change) :
    table.changes later = table := by
  induction later with
  | nil => rfl
  | cons call later ih =>
      rw [changes, List.foldl_cons, change_of_frozen h]
      exact ih

-- A run of calls inserts what they add, and is frozen once one of them freezes.
theorem changes_of_open (h : table.frozen = false) (history : List Change) :
    table.changes history =
      { (additionsOf history).foldl insertAddition table with frozen := .freeze ∈ history } := by
  induction history generalizing table with
  | nil =>
      obtain ⟨packets, frozen⟩ := table
      cases h
      rfl
  | cons call later ih =>
      have hrun : table.changes (call :: later) = (table.change call).2.changes later := rfl
      rw [hrun, change_of_open h]
      by_cases hcall : call = .freeze
      · have hnone : additionsOf (call :: later) = [] := by
          rw [additionsOf, List.takeWhile_cons_of_neg (by simpa using hcall), List.filterMap_nil]
        rw [if_pos hcall, changes_of_frozen rfl, hnone, hcall]
        simp [freeze]
      · have hopen : (call.addition?.elim table table.insertAddition).frozen = false := by
          cases call.addition? <;> exact h
        have hadded : (additionsOf (call :: later)).foldl insertAddition table =
            (additionsOf later).foldl insertAddition
              (call.addition?.elim table table.insertAddition) := by
          rw [additionsOf_cons hcall, List.foldl_append]
          cases call.addition? <;> rfl
        rw [if_neg hcall, ih hopen, hadded]
        simp only [List.mem_cons, Ne.symm hcall, false_or]

theorem refused_of_error (h : (table.change call).1 = .error e) :
    call.Refused (table.frozen = true) e := by
  by_cases hfrozen : table.frozen = true
  · cases call with
    | add name version fields =>
        simp only [change, DefinitionTable.add, if_pos hfrozen] at h
        cases h
        exact .add hfrozen
    | addText name version t =>
        simp only [change, DefinitionTable.addText, if_pos hfrozen] at h
        cases h
        exact .addText hfrozen
    | freeze => contradiction
  · cases call with
    | add name version fields =>
        simp only [change, DefinitionTable.add, if_neg hfrozen] at h
        contradiction
    | addText name version t =>
        simp only [change, DefinitionTable.addText, DefinitionTable.add, if_neg hfrozen] at h
        split at h
        · contradiction
        next htext =>
          cases h
          exact .grammar hfrozen htext
    | freeze => contradiction

-- A call that is refused leaves the table as it is.
theorem change_of_refused (h : call.Refused (table.frozen = true) e) :
    table.change call = (.error e, table) := by
  cases h with
  | add hfrozen => simp only [change, DefinitionTable.add, if_pos hfrozen]
  | addText hfrozen => simp only [change, DefinitionTable.addText, if_pos hfrozen]
  | grammar hopen htext =>
      simp only [change, DefinitionTable.addText, if_neg hopen, htext]

end Changes

-- All that can be asked of a table.
structure View where
  get : Value → Value → Except LookUpError FieldList
  versions : Value → Except LookUpError (List Value)
  latest : Value → Except LookUpError Value
  contains : Value → Except NotKey Bool
  names : Except NotOrdered (List Value)
  count : Nat
  size : Nat

def view (table : DefinitionTable) : View :=
  ⟨table.get, table.versions, table.latest, table.contains, table.names, table.count, table.size⟩

-- Whether a table is frozen does not show.
theorem view_congr {other : DefinitionTable} (h : table.packets = other.packets) :
    table.view = other.view := by
  obtain ⟨packets, frozen⟩ := table
  obtain ⟨_, frozen'⟩ := other
  cases h
  rfl

-- What a finite map shows, given the definitions that were put into it one after
-- the other.
structure View.Shows (view : View) (added : List Addition) (names : List Text)
    (versions : Text → List Int) : Prop where
  get_ok : ∀ name version fields, view.get (.text name) (.int version) = .ok fields ↔
    ∃ before after, added = before ++ ⟨name, version, fields⟩ :: after ∧
      ∀ addition ∈ after, addition.key ≠ (name, version)
  get_error : ∀ name version, (∃ e, view.get (.text name) (.int version) = .error e) ↔
    (name, version) ∉ added.map Addition.key
  -- a version that is asked for in vain is shown
  get_failure : ∀ name version e, view.get (.text name) (.int version) = .error e →
    e.failure =
      if versions name = [] ∨ (Value.int version).isShowable = true then
        .saying .unknownPacket e.message
      else .unwritable
  versions_eq : ∀ name, view.versions (.text name) = .ok ((versions name).map .int)
  versions_rising : ∀ name, (versions name).Pairwise (· < ·)
  mem_versions : ∀ name version,
    version ∈ versions name ↔ (name, version) ∈ added.map Addition.key
  contains_eq : ∀ name, view.contains (.text name) = .ok (decide (versions name ≠ []))
  latest_eq : ∀ name, view.latest (.text name) = (versions name).getLast?.elim
    (.error (.noPacket (.text name))) fun version => .ok (.int version)
  names_eq : view.names = .ok (names.map .text)
  names_rising : names.Pairwise fun name later => Text.le later name = false
  mem_names : ∀ name, name ∈ names ↔ versions name ≠ []
  size_eq : view.size = names.length
  count_eq : view.count = (names.map fun name => (versions name).length).sum

theorem failure_of_get_error {version : Int} {e : LookUpError}
    (h : table.get (.text name) (.int version) = .error e) :
    e.failure =
      if ¬table.packets.contains (.text name) = true ∨ (Value.int version).isShowable = true then
        .saying .unknownPacket e.message
      else .unwritable := by
  rw [get, lookUp_of_keys rfl rfl] at h
  rw [← Keyed.isSome_get?]
  split at h
  next hpacket =>
    cases h
    rw [hpacket, if_pos (.inl Bool.false_ne_true)]
    rfl
  next versions hpacket =>
    split at h
    · cases h
      simp [hpacket, LookUpError.failure, Failure.showing]
    · contradiction

theorem exists_get_ofAdditions_iff {version : Int} :
    (∃ fields, (ofAdditions additions).get (.text name) (.int version) = .ok fields) ↔
      (name, version) ∈ additions.map Addition.key := by
  rw [← contains_ofAdditions, ← Keyed.isSome_get?, Option.isSome_iff_exists]
  exact exists_congr fun fields => get_eq_ok_iff_packet rfl rfl

theorem shows_ofAdditions (additions : List Addition) :
    ∃ names versions, (ofAdditions additions).view.Shows additions names versions := by
  obtain ⟨names, hnames, hmem⟩ := exists_names additions
  choose versions hversions using exists_versions additions
  have hsorted : ∀ name version, version ∈ (versions name).mergeSort (fun m n => m ≤ n) ↔
      (name, version) ∈ additions.map Addition.key := by
    intro name version
    rw [List.mem_mergeSort, mem_versions_iff (hversions name)]
  have hany : ∀ name, (versions name).mergeSort (fun m n => m ≤ n) ≠ [] ↔ name ∈ names := by
    intro name
    rw [ne_eq, List.eq_nil_iff_forall_not_mem, hmem]
    simp [hsorted, Addition.key]
  have hcontains : ∀ name, (ofAdditions additions).packets.contains (.text name) = true ↔
      (versions name).mergeSort (fun m n => m ≤ n) ≠ [] := by
    intro name
    rw [hnames.contains_iff fun _ _ => Value.same_texts_iff, hany]
  refine ⟨names.mergeSort Text.le, fun name => (versions name).mergeSort fun m n => m ≤ n, ?_⟩
  constructor
  case get_ok => exact fun name version fields => get_ofAdditions_iff
  case get_error =>
    intro name version
    rw [← exists_get_ofAdditions_iff]
    cases hget : (ofAdditions additions).get (.text name) (.int version) <;> simp [view, hget]
  case get_failure =>
    intro name version e hget
    rw [failure_of_get_error hget]
    exact if_congr (or_congr_left ((not_congr (hcontains name)).trans not_not)) rfl rfl
  case versions_eq => exact fun name => versions_of_keys Value.key_text (hversions name).1
  case versions_rising => exact fun name => pairwise_versions (hversions name).2
  case mem_versions => exact hsorted
  case contains_eq =>
    intro name
    refine congrArg Except.ok ?_
    rw [Bool.eq_iff_iff, hcontains, decide_eq_true_iff]
  case latest_eq => exact fun name => latest_of_lists (hversions name)
  case names_eq => exact names_of_lists hnames
  case names_rising => exact pairwise_names hnames.2
  case mem_names => exact fun name => by rw [List.mem_mergeSort, hany]
  case size_eq =>
    have hlength := congrArg List.length hnames.1
    rw [Keyed.keys, List.length_map, List.length_map] at hlength
    exact hlength.trans (List.length_mergeSort names).symm
  case count_eq =>
    have hlength : ∀ name, ((versions name).mergeSort fun m n => m ≤ n).length =
        ((ofAdditions additions).packet (.text name)).length := by
      intro name
      have hkeys := congrArg List.length (hversions name).1
      rw [Keyed.keys, List.length_map, List.length_map] at hkeys
      rw [List.length_mergeSort, hkeys]
    simp only [hlength]
    rw [((List.mergeSort_perm names Text.le).map _).sum_nat]
    exact count_eq_sum hnames

-- After any calls a table shows the finite map of what was added until it was
-- frozen: for each name and version the last definition, and all names and
-- versions in their order. Only a version that cannot be shown is refused with
-- another failure than the others. A call is refused if the table is frozen or its text
-- is no definition, and then changes nothing. Once the table is frozen, it shows
-- the same for ever.
theorem view_changes (history : List Change) :
    let table := empty.changes history
    (∃ names versions, table.view.Shows (additionsOf history) names versions) ∧
      (∀ call e, (table.change call).1 = .error e ↔ call.Refused (.freeze ∈ history) e) ∧
      (∀ call e, (table.change call).1 = .error e → (table.change call).2 = table) ∧
      ∀ later, (table.freeze.changes later).view = table.view := by
  intro table
  have htable : table = { ofAdditions (additionsOf history) with frozen := .freeze ∈ history } :=
    changes_of_open rfl history
  have hview : table.view = (ofAdditions (additionsOf history)).view :=
    view_congr (by rw [htable])
  have hfrozen : table.frozen = true ↔ .freeze ∈ history := by
    rw [htable]
    exact decide_eq_true_iff
  have hrefused : ∀ call e, (table.change call).1 = .error e →
      call.Refused (table.frozen = true) e := fun _ _ => refused_of_error
  refine ⟨?_, fun call e => ?_, fun call e h => ?_, fun later => ?_⟩
  · rw [hview]
    exact shows_ofAdditions _
  · rw [← propext hfrozen]
    exact ⟨refused_of_error, fun h => congrArg Prod.fst (change_of_refused h)⟩
  · exact congrArg Prod.snd (change_of_refused (refused_of_error h))
  · rw [changes_of_frozen rfl]
    exact view_congr rfl

-- A definition takes the place of an older one, a text that is none adds nothing,
-- and neither does what comes after the freeze.
def stopHistory : List Change :=
  [.add "MOVE" 2 .nil, .addText "STOP" 1 "byte", .add "MOVE" 1 .nil,
    .addText "MOVE" 2 "byte x", .freeze, .add "STOP" 1 .nil]

theorem additionsOf_stopHistory :
    additionsOf stopHistory =
      [⟨"MOVE", 2, .nil⟩, ⟨"MOVE", 1, .nil⟩, ⟨"MOVE", 2, .leaf "x" "byte" .nil⟩] := by
  rfl

theorem view_changes_stop :
    let table := empty.changes stopHistory
    table.get (.text "MOVE") (.int 2) = .ok (.leaf "x" "byte" .nil) ∧
      (∃ e, table.get (.text "STOP") (.int 1) = .error e ∧
        e.failure = .saying .unknownPacket e.message) ∧
      (table.change (.add "STOP" 1 .nil)).1 = .error .frozen := by
  intro table
  obtain ⟨⟨names, versions, hshows⟩, hrefused, -, -⟩ := view_changes stopHistory
  rw [additionsOf_stopHistory] at hshows
  refine ⟨(hshows.get_ok ..).mpr ⟨[_, _], [], rfl, by simp⟩, ?_, ?_⟩
  · obtain ⟨e, he⟩ := (hshows.get_error "STOP" 1).mpr (by decide)
    exact ⟨e, he, (hshows.get_failure _ _ e he).trans (if_pos (.inr (by decide)))⟩
  · exact (hrefused ..).mpr (.add (by decide))

end DefinitionTable

end PacketCodec
