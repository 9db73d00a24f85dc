import Mathlib.Data.List.Basic
import PacketCodec.Proofs.Definition.Draft

namespace PacketCodec

-- A line that has content: its number, its dashes and the words behind them.
structure SignificantLine where
  number : Nat
  depth : Nat
  words : List Text
  deriving DecidableEq

namespace SignificantLine

-- Whether the first word opens an array or object.
def isComposite (line : SignificantLine) : Bool :=
  line.words.head?.any PacketCodec.isComposite

def entry? (line : SignificantLine) : Option Entry :=
  match line.words with
  | [type, name] => some ⟨line.depth, type, name⟩
  | _ => none

-- Two words, and the depth that the line has after the one before it.
structure Fits (previous : Option SignificantLine) (line : SignificantLine) : Prop where
  words : line.words.length = 2
  first : previous = none → line.depth = 0
  deeper : ∀ p ∈ previous, p.isComposite = true → line.depth = p.depth + 1
  level : ∀ p ∈ previous, p.isComposite = false → line.depth ≤ p.depth

-- Every line fits the one before it, the first one what comes before them all.
def Orderly : Option SignificantLine → List SignificantLine → Prop
  | _, [] => True
  | previous, line :: rest => line.Fits previous ∧ Orderly (some line) rest

instance (previous : Option SignificantLine) (line : SignificantLine) :
    Decidable (line.Fits previous) :=
  decidable_of_iff
    (line.words.length = 2 ∧ (previous = none → line.depth = 0) ∧
      (∀ p ∈ previous, p.isComposite = true → line.depth = p.depth + 1) ∧
      ∀ p ∈ previous, p.isComposite = false → line.depth ≤ p.depth)
    ⟨fun ⟨words, first, deeper, level⟩ => ⟨words, first, deeper, level⟩,
      fun h => ⟨h.words, h.first, h.deeper, h.level⟩⟩

instance decidableOrderly : (previous : Option SignificantLine) →
    (lines : List SignificantLine) → Decidable (Orderly previous lines)
  | _, [] => isTrue trivial
  | previous, line :: rest =>
    have := decidableOrderly (some line) rest
    inferInstanceAs (Decidable (line.Fits previous ∧ Orderly (some line) rest))

variable {line : SignificantLine} {previous : Option SignificantLine} {e : Entry}

theorem entry?_eq_some_iff :
    line.entry? = some e ↔ line.depth = e.depth ∧ line.words = [e.type, e.name] := by
  obtain ⟨depth, type, name⟩ := e
  unfold entry?
  split
  next h =>
    simp only [h, Option.some.injEq, Entry.mk.injEq, List.cons.injEq, and_true]
  next h =>
    simp only [reduceCtorEq, false_iff, not_and]
    intro _ hwords
    exact h _ _ hwords

theorem exists_entry?_iff : (∃ e, line.entry? = some e) ↔ line.words.length = 2 := by
  constructor
  · rintro ⟨e, he⟩
    rw [(entry?_eq_some_iff.mp he).2]
    rfl
  · intro h
    obtain ⟨type, name, hwords⟩ : ∃ type name, line.words = [type, name] :=
      List.length_eq_two.mp h
    exact ⟨⟨line.depth, type, name⟩, entry?_eq_some_iff.mpr ⟨rfl, hwords⟩⟩

theorem isComposite_eq (h : line.entry? = some e) : line.isComposite = e.isComposite := by
  simp [isComposite, (entry?_eq_some_iff.mp h).2, Entry.isComposite]

theorem fits_iff (hprevious : ∀ p ∈ previous, p.words.length = 2) :
    line.Fits previous ↔ ∃ e, line.entry? = some e ∧ e.Follows (previous.bind entry?) := by
  cases previous with
  | none =>
      constructor
      · intro h
        obtain ⟨e, he⟩ := exists_entry?_iff.mpr h.words
        exact ⟨e, he, (entry?_eq_some_iff.mp he).1.symm.trans (h.first rfl)⟩
      · rintro ⟨e, he, hfollows⟩
        have hdepth : e.depth = 0 := hfollows
        exact ⟨exists_entry?_iff.mp ⟨e, he⟩, fun _ => (entry?_eq_some_iff.mp he).1.trans hdepth,
          by simp, by simp⟩
  | some p =>
      obtain ⟨last, hlast⟩ := exists_entry?_iff.mpr (hprevious p rfl)
      have hp := (entry?_eq_some_iff.mp hlast).1
      have hcomposite := isComposite_eq hlast
      rw [Option.bind_some, hlast]
      constructor
      · intro h
        obtain ⟨e, he⟩ := exists_entry?_iff.mpr h.words
        have hline := (entry?_eq_some_iff.mp he).1
        refine ⟨e, he, ?_⟩
        cases hopen : last.isComposite with
        | true =>
            have hdepth := h.deeper p rfl (hcomposite.trans hopen)
            simp only [Entry.Follows, if_pos hopen]
            omega
        | false =>
            have hdepth := h.level p rfl (hcomposite.trans hopen)
            simp only [Entry.Follows, hopen, Bool.false_eq_true, if_false]
            omega
      · rintro ⟨e, he, hfollows⟩
        have hline := (entry?_eq_some_iff.mp he).1
        refine ⟨exists_entry?_iff.mp ⟨e, he⟩, by simp, ?_, ?_⟩
        · rintro _ ⟨⟩ hopen
          simp only [Entry.Follows, ← hcomposite, hopen, if_true] at hfollows
          omega
        · rintro _ ⟨⟩ hopen
          simp only [Entry.Follows, ← hcomposite, hopen, Bool.false_eq_true, if_false] at hfollows
          omega

-- Lines that are not orderly have a first one that does not fit.
theorem exists_first_misfit {lines : List SignificantLine} (h : ¬ Orderly previous lines) :
    ∃ before line after, lines = before ++ line :: after ∧ Orderly previous before ∧
      ¬ line.Fits (before.getLast?.or previous) := by
  induction lines generalizing previous with
  | nil => exact absurd trivial h
  | cons first rest ih =>
      by_cases hfits : first.Fits previous
      · have hrest : ¬ Orderly (some first) rest := fun hrest => h ⟨hfits, hrest⟩
        obtain ⟨before, line, after, rfl, hbefore, hnot⟩ := ih hrest
        refine ⟨first :: before, line, after, rfl, ⟨hfits, hbefore⟩, ?_⟩
        rwa [List.getLast?_cons, Option.some_or, ← Option.or_some]
      · exact ⟨[], first, rest, rfl, trivial, hfits⟩

end SignificantLine

namespace Definition

def significant? (number : Nat) (line : Text) : Option SignificantLine :=
  if content line = [] then none
  else some ⟨number, dashes (content line),
    Text.words ((content line).drop (dashes (content line)))⟩

-- The lines with content, the first line of all having the given number.
def significantFrom : (number : Nat) → List Text → List SignificantLine
  | _, [] => []
  | number, line :: rest =>
    match significant? number line with
    | none => significantFrom (number + 1) rest
    | some line => line :: significantFrom (number + 1) rest

def significant (t : Text) : List SignificantLine :=
  significantFrom 1 t.lines

variable {number : Nat} {text : Text} {line : SignificantLine}

theorem number_of_significant? (h : significant? number text = some line) :
    line.number = number := by
  unfold significant? at h
  split at h
  · contradiction
  · cases h
    rfl

theorem significantFrom_cons_none (h : significant? number text = none) (rest : List Text) :
    significantFrom number (text :: rest) = significantFrom (number + 1) rest := by
  rw [significantFrom, h]

theorem significantFrom_cons_some (h : significant? number text = some line)
    (rest : List Text) :
    significantFrom number (text :: rest) = line :: significantFrom (number + 1) rest := by
  rw [significantFrom, h]

end Definition

namespace Draft

open SignificantLine Definition

variable {draft base : Draft} {previous : Option SignificantLine} {line : SignificantLine}
  {e : Entry} {number : Nat} {text : Text} {lines : List Text}

section Reading

theorem readLines_cons_none (h : significant? number text = none) (draft : Draft)
    (rest : List Text) :
    draft.readLines number (text :: rest) = draft.readLines (number + 1) rest := by
  unfold significant? at h
  split at h
  next hcontent =>
    have hread : readLine text = .ok none := if_pos hcontent
    rw [readLines, hread]
  · contradiction

theorem readLines_cons_some (h : significant? number text = some line) (he : line.entry? = some e)
    (draft : Draft) (rest : List Text) :
    draft.readLines number (text :: rest) =
      draft.place number e >>= fun base => base.readLines (number + 1) rest := by
  unfold significant? at h
  split at h
  · contradiction
  next hcontent =>
    cases h
    obtain ⟨hdepth, hwords⟩ := entry?_eq_some_iff.mp he
    simp only at hdepth hwords
    have hread : readLine text = .ok (some e) := by
      simp only [readLine, if_neg hcontent, hwords]
      rw [hdepth]
    rw [readLines, hread]
    cases hplace : draft.place number e <;> simp only [hplace, ok_bind, error_bind]

theorem exists_error_of_words (h : significant? number text = some line)
    (hwords : line.words.length ≠ 2) (draft : Draft) (rest : List Text) :
    ∃ cause, draft.readLines number (text :: rest) = .error ⟨some number, cause⟩ := by
  unfold significant? at h
  split at h
  · contradiction
  next hcontent =>
    cases h
    have hread : readLine text = .error (.notTypeAndName text.strip) := by
      simp only [readLine, if_neg hcontent]
      split
      next type name h => exact absurd (congrArg List.length h) hwords
      · rfl
    exact ⟨.notTypeAndName text.strip, by rw [readLines, hread]⟩

end Reading

-- A draft after a line that it has taken in.
structure EndsAt (draft : Draft) (previous : Option SignificantLine) : Prop where
  ends : draft.Ends (previous.bind entry?)
  words : ∀ p ∈ previous, p.words.length = 2

theorem endsAt_empty : empty.EndsAt none :=
  ⟨rfl, by simp⟩

theorem exists_place_of_fits (h : draft.EndsAt previous) (hfits : line.Fits previous)
    (number : Nat) : ∃ e base, line.entry? = some e ∧ draft.place number e = .ok base ∧
      base.EndsAt (some line) := by
  obtain ⟨e, he, hfollows⟩ := (fits_iff h.words).mp hfits
  obtain ⟨base, hplace⟩ := exists_place_of_follows h.ends hfollows number
  have hends : base.Ends ((some line).bind entry?) := by
    rw [Option.bind_some, he]
    exact ends_of_place hplace
  exact ⟨e, base, he, hplace, hends, by simpa using hfits.words⟩

theorem exists_error_of_not_fits (h : draft.EndsAt previous) (hnot : ¬ line.Fits previous)
    (he : line.entry? = some e) (number : Nat) :
    ∃ cause, draft.place number e = .error ⟨some number, cause⟩ := by
  have hfollows : ¬ e.Follows (previous.bind entry?) :=
    fun hfollows => hnot ((fits_iff h.words).mpr ⟨e, he, hfollows⟩)
  exact exists_error_of_not_follows h.ends hfollows number

theorem exists_readLines_of_orderly (h : draft.EndsAt previous)
    (horderly : Orderly previous (significantFrom number lines)) :
    ∃ base, draft.readLines number lines = .ok base ∧
      base.EndsAt ((significantFrom number lines).getLast?.or previous) := by
  induction lines generalizing draft previous number with
  | nil => exact ⟨draft, rfl, h⟩
  | cons text rest ih =>
      cases hline : significant? number text with
      | none =>
          rw [significantFrom_cons_none hline] at horderly ⊢
          rw [readLines_cons_none hline]
          exact ih h horderly
      | some line =>
          rw [significantFrom_cons_some hline] at horderly ⊢
          obtain ⟨hfits, horderly⟩ := horderly
          obtain ⟨e, base, he, hplace, hbase⟩ := exists_place_of_fits h hfits number
          rw [readLines_cons_some hline he, hplace, ok_bind, List.getLast?_cons, Option.some_or,
            ← Option.or_some]
          exact ih hbase horderly

-- The lines before the one at fault are taken in, those after it are not looked
-- at.
theorem exists_error_of_first_misfit (h : draft.EndsAt previous)
    {before after : List SignificantLine}
    (hlines : significantFrom number lines = before ++ line :: after)
    (horderly : Orderly previous before) (hnot : ¬ line.Fits (before.getLast?.or previous)) :
    ∃ cause, draft.readLines number lines = .error ⟨some line.number, cause⟩ := by
  induction lines generalizing draft previous number before with
  | nil =>
      rw [significantFrom] at hlines
      simp at hlines
  | cons text rest ih =>
      cases hline : significant? number text with
      | none =>
          rw [significantFrom_cons_none hline] at hlines
          rw [readLines_cons_none hline]
          exact ih h hlines horderly hnot
      | some first =>
          rw [significantFrom_cons_some hline] at hlines
          cases before with
          | nil =>
              obtain ⟨rfl, -⟩ := List.cons.inj hlines
              rw [number_of_significant? hline]
              by_cases hwords : first.words.length = 2
              · obtain ⟨e, he⟩ := exists_entry?_iff.mpr hwords
                obtain ⟨cause, hcause⟩ := exists_error_of_not_fits h hnot he number
                exact ⟨cause, by rw [readLines_cons_some hline he, hcause, error_bind]⟩
              · exact exists_error_of_words hline hwords draft rest
          | cons head before =>
              obtain ⟨rfl, hrest⟩ := List.cons.inj hlines
              obtain ⟨hfits, horderly⟩ := horderly
              obtain ⟨e, base, he, hplace, hbase⟩ := exists_place_of_fits h hfits number
              rw [List.getLast?_cons, Option.some_or, ← Option.or_some] at hnot
              rw [readLines_cons_some hline he, hplace, ok_bind]
              exact ih hbase hrest horderly hnot

theorem exists_finish_of_endsAt (h : draft.EndsAt previous)
    (hclosed : ∀ p ∈ previous, p.isComposite = false) : ∃ fields, draft.finish = .ok fields := by
  refine exists_finish h.ends ?_
  intro e hlast
  obtain ⟨p, hp, he⟩ := Option.bind_eq_some_iff.mp hlast
  exact (isComposite_eq he).symm.trans (hclosed p hp)

theorem exists_error_finish_of_endsAt {p : SignificantLine} (h : draft.EndsAt (some p))
    (hopen : p.isComposite = true) : ∃ cause, draft.finish = .error ⟨none, cause⟩ := by
  obtain ⟨e, he⟩ := exists_entry?_iff.mpr (h.words p rfl)
  have hends : draft.Ends (some e) := he ▸ h.ends
  exact ⟨_, finish_of_composite hends ((isComposite_eq he).symm.trans hopen)⟩

end Draft

namespace Definition

open SignificantLine

section Texts

variable {t : Text} {before after : List SignificantLine} {line : SignificantLine}

theorem exists_draft_of_orderly (h : Orderly none (significant t)) :
    ∃ draft : Draft, ofText t = draft.finish ∧ draft.EndsAt (significant t).getLast? := by
  obtain ⟨draft, hread, hends⟩ := Draft.exists_readLines_of_orderly Draft.endsAt_empty h
  rw [Option.or_none] at hends
  exact ⟨draft, by rw [ofText, hread, ok_bind], hends⟩

theorem exists_error_of_misfit (hlines : significant t = before ++ line :: after)
    (horderly : Orderly none before) (hnot : ¬ line.Fits before.getLast?) :
    ∃ cause, ofText t = .error ⟨some line.number, cause⟩ := by
  have hmisfit : ¬ line.Fits (before.getLast?.or none) := by rwa [Option.or_none]
  obtain ⟨cause, hcause⟩ :=
    Draft.exists_error_of_first_misfit Draft.endsAt_empty hlines horderly hmisfit
  exact ⟨cause, by rw [ofText, hcause, error_bind]⟩

theorem exists_error_of_open (hlast : line ∈ (significant t).getLast?)
    (horderly : Orderly none (significant t)) (hopen : line.isComposite = true) :
    ∃ cause, ofText t = .error ⟨none, cause⟩ := by
  obtain ⟨draft, hfinish, hends⟩ := exists_draft_of_orderly horderly
  rw [Option.mem_def.mp hlast] at hends
  rw [hfinish]
  exact Draft.exists_error_finish_of_endsAt hends hopen

end Texts

-- A text is a definition iff every line fits the one before it and the last one
-- is of no array or object. Otherwise the first line that does not fit is at
-- fault, or no line at all.
theorem ofText_grammar (t : Text) :
    ((∃ fields, ofText t = .ok fields) ↔
        Orderly none (significant t) ∧ ∀ line ∈ (significant t).getLast?, line.isComposite = false) ∧
      (∀ before line after, significant t = before ++ line :: after → Orderly none before →
        ¬ line.Fits before.getLast? →
          ∃ e, ofText t = .error e ∧ e.failure.fault = .definitionGrammar (.int line.number)) ∧
      (∀ line ∈ (significant t).getLast?, Orderly none (significant t) → line.isComposite = true →
        ∃ e, ofText t = .error e ∧ e.failure.fault = .definitionGrammar .null) := by
  refine ⟨⟨?_, ?_⟩, ?_, ?_⟩
  · rintro ⟨fields, hfields⟩
    have horderly : Orderly none (significant t) := by
      by_contra hnot
      obtain ⟨before, line, after, hlines, hbefore, hline⟩ := exists_first_misfit hnot
      rw [Option.or_none] at hline
      obtain ⟨cause, hcause⟩ := exists_error_of_misfit hlines hbefore hline
      rw [hcause] at hfields
      contradiction
    refine ⟨horderly, fun line hlast => Bool.eq_false_iff.mpr ?_⟩
    intro hopen
    obtain ⟨cause, hcause⟩ := exists_error_of_open hlast horderly hopen
    rw [hcause] at hfields
    contradiction
  · rintro ⟨horderly, hclosed⟩
    obtain ⟨draft, hfinish, hends⟩ := exists_draft_of_orderly horderly
    rw [hfinish]
    exact Draft.exists_finish_of_endsAt hends hclosed
  · intro before line after hlines hbefore hnot
    obtain ⟨cause, hcause⟩ := exists_error_of_misfit hlines hbefore hnot
    exact ⟨_, hcause, rfl⟩
  · intro line hlast horderly hopen
    obtain ⟨cause, hcause⟩ := exists_error_of_open hlast horderly hopen
    exact ⟨_, hcause, rfl⟩

theorem ofText_grammar_samples :
    (∃ fields, ofText "array a # of\n- int32 b\nbyte c" = .ok fields) ∧
      (∃ e, ofText "array a\n\n-- int32 b" = .error e ∧
        e.failure.fault = .definitionGrammar (.int 3)) ∧
      ∃ e, ofText "int32 a\nobject b" = .error e ∧
        e.failure.fault = .definitionGrammar .null :=
  ⟨(ofText_grammar _).1.mpr (by decide),
    (ofText_grammar _).2.1 [⟨1, 0, ["array", "a"]⟩] ⟨3, 2, ["int32", "b"]⟩ [] (by decide) (by decide)
      (by decide),
    (ofText_grammar _).2.2 ⟨2, 0, ["object", "b"]⟩ (by decide) (by decide) (by decide)⟩

end Definition

end PacketCodec
