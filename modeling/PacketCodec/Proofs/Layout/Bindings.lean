import PacketCodec.Proofs.Layout.Ledger
import PacketCodec.Proofs.Layout.Locations
import PacketCodec.Proofs.Text.Decimal

namespace PacketCodec

namespace Text

variable {t digits : Text}

-- What stands in front of digits does not make their value smaller.
theorem toNat_le_toNat_append (front digits : Text) : toNat digits ≤ toNat (front ++ digits) := by
  have hfrom (start start' : Nat) (h : start ≤ start') :
      digits.foldl (fun value c => value * 10 + (c.val - 0x30)) start ≤
        digits.foldl (fun value c => value * 10 + (c.val - 0x30)) start' := by
    induction digits generalizing start start' with
    | nil => exact h
    | cons c digits ih =>
        refine ih _ _ ?_
        show start * 10 + _ ≤ start' * 10 + _
        omega
  rw [toNat, toNat, List.foldl_append]
  exact hfrom 0 _ (Nat.zero_le _)

def endsInDigit (t : Text) : Bool :=
  t.getLast?.any CodePoint.isAsciiDigit

theorem endsInDigit_append (h : digits.IsNumeral) : endsInDigit (t ++ digits) = true := by
  obtain ⟨hne, hdigits⟩ := h
  rw [endsInDigit, List.getLast?_append_of_ne_nil t hne, List.getLast?_eq_getLast_of_ne_nil hne]
  exact hdigits _ (List.getLast_mem hne)

end Text

namespace TypeSet

theorem bindingName_eq (hint : Text) (number : Nat) :
    bindingName hint number = 0x5F :: (hint ++ Text.ofNat number) := by
  simp only [bindingName, Text.join, List.flatten_cons, List.flatten_nil, List.append_nil]
  rfl

-- Two numbers can only stand for the same name if the greater one begins with
-- digits that the other hint ends in.
theorem bindingName_eq_iff {hint hint' : Text} {number number' : Nat} (h : number < number') :
    bindingName hint number = bindingName hint' number' ↔
      ∃ digits, hint = hint' ++ digits ∧ Text.ofNat number' = digits ++ Text.ofNat number := by
  rw [bindingName_eq, bindingName_eq, List.cons_inj_right, List.append_eq_append_iff]
  constructor
  · rintro (⟨digits, -, hnumber⟩ | hdigits)
    · have hle := Text.toNat_le_toNat_append digits (Text.ofNat number')
      rw [← hnumber, Text.toNat_ofNat, Text.toNat_ofNat] at hle
      omega
    · exact hdigits
  · exact .inr

end TypeSet

-- The working names in a layout, in wire order.
def Layout.counts : Layout → List Text
  | nil => []
  | scalar _ _ _ rest => rest.counts
  | object _ members rest => members.counts ++ rest.counts
  | array _ count element rest => count :: (element.counts ++ rest.counts)

theorem Layout.Numbered.counts_eq {layout : Layout} {first stop : Nat}
    (h : layout.Numbered first stop) :
    first ≤ stop ∧ layout.counts.map (Handout.mk "count") = Ledger.counts first stop := by
  induction layout generalizing first stop with
  | nil =>
      obtain rfl : stop = first := h
      simp [counts, Ledger.counts]
  | scalar name type wire rest ih => exact ih h
  | object name members rest ihmembers ih =>
      obtain ⟨middle, hmembers, hrest⟩ := h
      obtain ⟨hle, hinner⟩ := ihmembers hmembers
      obtain ⟨hle', hothers⟩ := ih hrest
      refine ⟨Nat.le_trans hle hle', ?_⟩
      rw [counts, List.map_append, hinner, hothers, Ledger.counts_append hle hle']
  | array name count element rest ihelement ih =>
      obtain ⟨rfl, middle, helement, hrest⟩ := h
      obtain ⟨hle, hinner⟩ := ihelement helement
      obtain ⟨hle', hothers⟩ := ih hrest
      refine ⟨by omega, ?_⟩
      rw [counts, List.map_cons, List.map_append, hinner, hothers, Ledger.counts_append hle hle',
        ← Ledger.counts_append (Nat.le_succ first) (Nat.le_trans hle hle')]
      simp [Ledger.counts]

-- What is done with a type set.
inductive Use where
  | bind (hint : Text)
  | compile (fields : FieldList)
  | register (name : Text) (type : WireType)

namespace Ledger

def start (types : TypeSet) : Ledger :=
  ⟨types, []⟩

def leftBy (ledger : Ledger) {α : Type} (program : EStateM CompileError Ledger α) : Ledger :=
  match program.run ledger with
  | .ok _ after | .error _ after => after

def step (ledger : Ledger) : Use → Ledger
  | .bind hint => ledger.leftBy (bind hint)
  | .compile fields => ledger.leftBy (compile fields [] [])
  | .register name type => { ledger with types := ledger.types.register name type }

def run (types : TypeSet) (uses : List Use) : Ledger :=
  uses.foldl step (start types)

-- The names carry numbers in the order of the calls, from `first` on.
structure Numbered (ledger : Ledger) (first : Nat) : Prop where
  issued : ledger.types.issued = first + ledger.handouts.length
  name : ∀ i handout, ledger.handouts[i]? = some handout →
    handout.name = TypeSet.bindingName handout.hint (first + i)

variable {ledger : Ledger} {types : TypeSet} {first : Nat} {α : Type}

theorem leftBy_of_run {program : EStateM CompileError Ledger α} {answer : Except CompileError α}
    {after : Ledger} (h : program.run ledger = ended answer after) :
    ledger.leftBy program = after := by
  rw [leftBy, h]
  cases answer <;> rfl

theorem step_compile (ledger : Ledger) (fields : FieldList) :
    ledger.types.issued ≤ (ledger.types.compile fields).2.issued ∧
      ledger.step (.compile fields) = ledger.upTo (ledger.types.compile fields).2.issued := by
  have h : Counts (compile fields [] []) ledger _ := counts_compile _ _ _ _ rfl
  exact ⟨h.le, leftBy_of_run h.run⟩

namespace Numbered

theorem start (types : TypeSet) : (start types).Numbered types.issued :=
  ⟨rfl, nofun⟩

theorem append (h : ledger.Numbered first) (more : List Handout)
    (hmore : ∀ i handout, more[i]? = some handout →
      handout.name = TypeSet.bindingName handout.hint (ledger.types.issued + i))
    (hissued : types.issued = ledger.types.issued + more.length) :
    Numbered ⟨types, ledger.handouts ++ more⟩ first where
  issued := by
    have := h.issued
    simp only [List.length_append]
    omega
  name i handout hi := by
    by_cases hlt : i < ledger.handouts.length
    · exact h.name i handout (by rwa [← List.getElem?_append_left hlt])
    · have hle : ledger.handouts.length ≤ i := Nat.le_of_not_lt hlt
      rw [hmore (i - ledger.handouts.length) handout (by rwa [← List.getElem?_append_right hle]),
        h.issued]
      congr 1
      omega

theorem step (h : ledger.Numbered first) (use : Use) : (ledger.step use).Numbered first := by
  cases use with
  | bind hint =>
      refine h.append [⟨hint, TypeSet.bindingName hint ledger.types.issued⟩] ?_ rfl
      intro i handout hi
      obtain ⟨rfl, rfl⟩ : i = 0 ∧ _ := by simpa [List.getElem?_singleton] using hi
      rfl
  | compile fields =>
      obtain ⟨hle, hstep⟩ := ledger.step_compile fields
      rw [hstep]
      refine h.append _ ?_ ?_
      · intro i handout hi
        simp only [counts, List.getElem?_map, Option.map_eq_some_iff] at hi
        obtain ⟨number, hnumber, rfl⟩ := hi
        obtain ⟨hlt, rfl⟩ := List.getElem?_eq_some_iff.mp hnumber
        rw [List.getElem_range', Nat.one_mul]
      · simp only [counts, List.length_map, List.length_range']
        omega
  | register name type => exact ⟨h.issued, h.name⟩

theorem run (types : TypeSet) (uses : List Use) : (run types uses).Numbered types.issued := by
  have hall (ledger : Ledger) (h : ledger.Numbered types.issued) :
      (uses.foldl Ledger.step ledger).Numbered types.issued := by
    induction uses generalizing ledger with
    | nil => exact h
    | cons use rest ih => exact ih _ (h.step use)
  exact hall _ (start types)

variable {i j : Nat} {earlier later : Handout}

theorem name_eq_iff (h : ledger.Numbered first) (hij : i < j)
    (hi : ledger.handouts[i]? = some earlier) (hj : ledger.handouts[j]? = some later) :
    earlier.name = later.name ↔
      ∃ digits, earlier.hint = later.hint ++ digits ∧
        Text.ofNat (first + j) = digits ++ Text.ofNat (first + i) := by
  rw [h.name i earlier hi, h.name j later hj]
  exact TypeSet.bindingName_eq_iff (by omega)

-- A name is only handed out again if its first hint ended in a digit that the
-- second hint does not have.
theorem hint_of_name_eq (h : ledger.Numbered first) (hij : i < j)
    (hi : ledger.handouts[i]? = some earlier) (hj : ledger.handouts[j]? = some later)
    (hname : earlier.name = later.name) :
    earlier.hint.endsInDigit = true ∧ earlier.hint ≠ later.hint := by
  obtain ⟨digits, hhint, hnumber⟩ := (h.name_eq_iff hij hi hj).mp hname
  have hne : digits ≠ [] := by
    rintro rfl
    have hsame := congrArg Text.toNat hnumber
    rw [List.nil_append, Text.toNat_ofNat, Text.toNat_ofNat] at hsame
    omega
  have hdigits : digits.IsNumeral := by
    refine ⟨hne, fun c hc => ?_⟩
    apply (Text.isNumeral_ofNat (first + j)).2
    rw [hnumber]
    exact List.mem_append_left _ hc
  rw [hhint]
  exact ⟨Text.endsInDigit_append hdigits, by simpa using hne⟩

theorem pairwise (h : ledger.Numbered first) :
    ledger.handouts.Pairwise fun earlier later =>
      earlier.name = later.name → earlier.hint.endsInDigit = true ∧ earlier.hint ≠ later.hint := by
  rw [List.pairwise_iff_getElem]
  intro i j hi hj hij
  exact h.hint_of_name_eq hij (List.getElem?_eq_getElem hi) (List.getElem?_eq_getElem hj)

end Numbered

theorem handouts_prefix_step (ledger : Ledger) (use : Use) :
    ledger.handouts <+: (ledger.step use).handouts := by
  cases use with
  | bind hint => exact List.prefix_append _ _
  | compile fields =>
      rw [(ledger.step_compile fields).2]
      exact List.prefix_append _ _
  | register name type => exact List.prefix_rfl

theorem handouts_prefix_foldl (ledger : Ledger) (uses : List Use) :
    ledger.handouts <+: (uses.foldl step ledger).handouts := by
  induction uses generalizing ledger with
  | nil => exact List.prefix_rfl
  | cons use rest ih => exact (ledger.handouts_prefix_step use).trans (ih _)

-- The type set goes on as compiling leaves it, and the calls are for the counts of
-- the layout.
theorem step_compile_eq (ledger : Ledger) (fields : FieldList) :
    (ledger.step (.compile fields)).types = (ledger.types.compile fields).2 ∧
      ∀ layout, (ledger.types.compile fields).1 = .ok layout →
        (ledger.step (.compile fields)).handouts =
          ledger.handouts ++ layout.counts.map (Handout.mk "count") := by
  obtain ⟨-, hstep⟩ := ledger.step_compile fields
  rw [hstep]
  refine ⟨rfl, fun layout hlayout => ?_⟩
  have hnumbered : layout.Numbered ledger.types.issued (ledger.types.compile fields).2.issued :=
    Layout.numbered_of_compile (Prod.ext hlayout rfl)
  rw [hnumbered.counts_eq.2]
  rfl

-- Whatever is done with a type set, two of the names that it hands out are the
-- same only where the earlier hint is the later one with digits behind it that
-- the later number begins with and the earlier number completes. So names are
-- different as long as no hint ends in a digit, and names for one hint always
-- are, such as those of all counts in the layouts that it compiles.
theorem handouts_distinct (types : TypeSet) (uses : List Use) :
    let handouts := (run types uses).handouts
    (∀ i j earlier later, i < j → handouts[i]? = some earlier → handouts[j]? = some later →
      (earlier.name = later.name ↔
        ∃ digits, earlier.hint = later.hint ++ digits ∧
          Text.ofNat (types.issued + j) = digits ++ Text.ofNat (types.issued + i))) ∧
      ((∀ handout ∈ handouts, handout.hint.endsInDigit = false) →
        (handouts.map (·.name)).Nodup) ∧
      (∀ hint, ((handouts.filter (·.hint = hint)).map (·.name)).Nodup) ∧
      ∀ before fields after, uses = before ++ .compile fields :: after →
        (run types (before ++ [.compile fields])).types =
            ((run types before).types.compile fields).2 ∧
          ∀ layout, ((run types before).types.compile fields).1 = .ok layout →
            (run types before).handouts ++ layout.counts.map (Handout.mk "count") <+:
              handouts := by
  intro handouts
  have hnumbered := Numbered.run types uses
  refine ⟨fun i j earlier later => hnumbered.name_eq_iff, ?_, ?_, ?_⟩
  · intro hhints
    refine List.pairwise_map.mpr (hnumbered.pairwise.imp_of_mem ?_)
    intro earlier later hmem _ h hname
    rw [hhints earlier hmem] at h
    exact Bool.false_ne_true (h hname).1
  · intro hint
    refine List.pairwise_map.mpr (List.Pairwise.imp_of_mem ?_ (hnumbered.pairwise.filter _))
    intro earlier later hearlier hlater h hname
    have hsame : earlier.hint = hint ∧ later.hint = hint := by
      simpa using And.intro (List.of_mem_filter hearlier) (List.of_mem_filter hlater)
    exact (h hname).2 (hsame.1.trans hsame.2.symm)
  · rintro before fields after rfl
    obtain ⟨htypes, hhandouts⟩ := (run types before).step_compile_eq fields
    have hrun (more : List Use) : run types (before ++ .compile fields :: more) =
        more.foldl step ((run types before).step (.compile fields)) := List.foldl_append
    refine ⟨(congrArg Ledger.types (hrun [])).trans htypes, fun layout hlayout => ?_⟩
    rw [← hhandouts layout hlayout]
    simp only [handouts, hrun after]
    exact handouts_prefix_foldl _ _

-- A definition with an array, and one that fails after it has called for a name.
def pathFields : FieldList :=
  .branch "path" "array" (.leaf "x" "int16" .nil) .nil

def brokenFields : FieldList :=
  .branch "path" "array" (.leaf "x" "int" .nil) .nil

theorem handouts_distinct_path :
    let apart := (run (.new .null)
      [.bind "count", .compile brokenFields, .compile pathFields]).handouts
    let twice := (run (.new .null) (.bind "a1" :: .compile pathFields :: .compile brokenFields ::
      List.replicate 8 (.bind "a"))).handouts
    apart.map (·.name) = ["_count0", "_count1", "_count2"] ∧ (apart.map (·.name)).Nodup ∧
      [⟨"a1", "_a10"⟩, ⟨"count", "_count1"⟩] <+: twice ∧ twice[10]? = some ⟨"a", "_a10"⟩ ∧
      ∃ digits, ("a1" : Text) = "a" ++ digits ∧ Text.ofNat 10 = digits ++ Text.ofNat 0 := by
  intro apart twice
  have hlayout : ((run (.new .null) [.bind "a1"]).types.compile pathFields).1 =
      .ok (.array "path" "_count1" (.scalar "x" "int16" (.number (.integer true 2)) .nil) .nil) :=
    rfl
  have hapart := handouts_distinct (.new .null)
    [.bind "count", .compile brokenFields, .compile pathFields]
  have htwice := handouts_distinct (.new .null) (.bind "a1" :: .compile pathFields ::
    .compile brokenFields :: List.replicate 8 (.bind "a"))
  have hsame := htwice.1 0 10 ⟨"a1", "_a10"⟩ ⟨"a", "_a10"⟩ (by decide) (by decide) (by decide)
  have hcounts := (htwice.2.2.2 [.bind "a1"] pathFields _ rfl).2 _ hlayout
  exact ⟨by decide, hapart.2.1 (by decide), hcounts, by decide, hsame.mp rfl⟩

-- The name "_a10" stands for the hint "a1" with the number 0 and for the hint "a"
-- with the number 10.
theorem handouts_repeated :
    ¬ ((run (.new .null) (.bind "a1" :: List.replicate 10 (.bind "a"))).handouts.map
      (·.name)).Nodup := by
  decide

end Ledger

end PacketCodec
