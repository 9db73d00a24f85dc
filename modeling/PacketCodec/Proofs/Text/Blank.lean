import Mathlib.Data.List.Basic
import Mathlib.Data.List.TakeWhile
import PacketCodec.Text.Blank

namespace PacketCodec

theorem CodePoint.isBlank_of_isLineEnd {c : CodePoint} (h : c.isLineEnd = true) :
    c.isBlank = true := by
  simp only [CodePoint.isLineEnd, CodePoint.isBlank, CodePoint.within, CodePoint.lineEndRanges,
    CodePoint.blankRanges, List.any_cons, List.any_nil, Bool.or_false, Bool.or_eq_true,
    Bool.and_eq_true, decide_eq_true_eq] at h ⊢
  omega

namespace Text

-- A text within a line.
def InLine (t : Text) : Prop :=
  ∀ c ∈ t, c.isLineEnd = false

-- Nothing but blanks within a line.
def IsGap (t : Text) : Prop :=
  ∀ c ∈ t, c.isBlank = true ∧ c.isLineEnd = false

-- A text that can stand between blanks.
def IsWord (t : Text) : Prop :=
  t ≠ [] ∧ ∀ c ∈ t, c.isBlank = false

instance (t : Text) : Decidable t.IsWord :=
  decidable_of_iff (t ≠ [] ∧ t.all (!·.isBlank) = true) (by simp [IsWord])

-- What ends a line.
inductive IsEnding : Text → Prop
  | single {c : CodePoint} (h : c.isLineEnd = true) : IsEnding [c]
  | pair : IsEnding [0x0D, 0x0A]

-- A text as it is read from a file: every carriage return, with the line feed
-- behind it if there is one, is a line feed.
def withLineFeeds : Text → Text
  | [] => []
  | c :: rest =>
    if c = 0x0D then
      if rest.head? = some 0x0A then withLineFeeds rest else 0x0A :: withLineFeeds rest
    else c :: withLineFeeds rest

variable {t gap word first line ending rest front core back : Text} {others : List Text}

theorem IsGap.inLine (h : gap.IsGap) : gap.InLine :=
  fun c hc => (h c hc).2

theorem IsWord.inLine (h : word.IsWord) : word.InLine := by
  intro c hc
  have hblank := h.2 c hc
  by_contra hend
  rw [CodePoint.isBlank_of_isLineEnd (Bool.not_eq_false _ ▸ hend)] at hblank
  contradiction

theorem InLine.append (h : line.InLine) (h' : rest.InLine) : (line ++ rest).InLine := by
  intro c hc
  rcases List.mem_append.mp hc with hc | hc
  · exact h c hc
  · exact h' c hc

section Lines

-- The lines of a file are those that were written.
theorem lines_withLineFeeds (t : Text) : lines (withLineFeeds t) = lines t := by
  induction t with
  | nil => rfl
  | cons c rest ih =>
      by_cases hreturn : c = 0x0D
      · have hend : CodePoint.isLineEnd c = true := by rw [hreturn]; rfl
        have hfeed : CodePoint.isLineEnd 0x0A = true := rfl
        by_cases hpair : rest.head? = some 0x0A
        · rw [withLineFeeds, if_pos hreturn, if_pos hpair, lines, if_pos hend,
            if_pos ⟨hreturn, hpair⟩, ih]
        · have hnot : ¬((0x0A : CodePoint) = 0x0D ∧ (withLineFeeds rest).head? = some 0x0A) :=
            fun h => absurd h.1 (by decide)
          rw [withLineFeeds, if_pos hreturn, if_neg hpair, lines, lines, if_pos hfeed, if_pos hend,
            if_neg hnot, if_neg fun h => hpair h.2, ih]
      · have hnot : ∀ rest : Text, ¬(c = 0x0D ∧ rest.head? = some 0x0A) := fun _ h => hreturn h.1
        rw [withLineFeeds, if_neg hreturn, lines, lines, ih, if_neg (hnot _), if_neg (hnot _)]

theorem lines_cons_of_inLine {c : CodePoint} (h : c.isLineEnd = false) (t : Text) :
    lines (c :: t) =
      match lines t with
      | [] => [[c]]
      | line :: others => (c :: line) :: others := by
  cases hlines : lines t <;> simp only [lines, h, hlines, Bool.false_eq_true, if_false]

theorem lines_of_inLine (h : line.InLine) (hne : line ≠ []) : lines line = [line] := by
  induction line with
  | nil => contradiction
  | cons c rest ih =>
      obtain ⟨hc, hrest⟩ := List.forall_mem_cons.mp h
      rw [lines_cons_of_inLine hc]
      by_cases hempty : rest = []
      · rw [hempty]
        rfl
      · rw [ih hrest hempty]

-- What stands in front of a line belongs to it.
theorem lines_append_of_inLine (h : line.InLine) (ht : lines t = first :: others) :
    lines (line ++ t) = (line ++ first) :: others := by
  induction line with
  | nil => exact ht
  | cons c rest ih =>
      obtain ⟨hc, hrest⟩ := List.forall_mem_cons.mp h
      rw [List.cons_append, lines_cons_of_inLine hc, ih hrest]
      rfl

-- A carriage return can take up the line feed after it. An empty line is lost
-- then.
theorem lines_ending_append (h : IsEnding ending) (t : Text) :
    lines (ending ++ t) = [] :: lines t ∨
      ∃ rest, lines t = [] :: lines rest ∧ lines (ending ++ t) = [] :: lines rest := by
  have hfeed (rest : Text) : lines (0x0A :: rest) = [] :: lines rest := by
    have hend : CodePoint.isLineEnd 0x0A = true := by decide
    rw [lines, if_pos hend, if_neg (by rintro ⟨hc, -⟩; exact absurd hc (by decide))]
  have hreturn (rest : Text) : lines (0x0D :: 0x0A :: rest) = lines (0x0A :: rest) := by
    have hend : CodePoint.isLineEnd 0x0D = true := by decide
    rw [lines, if_pos hend, if_pos ⟨rfl, rfl⟩]
  cases h with
  | pair =>
      left
      exact (hreturn t).trans (hfeed t)
  | @single c hend =>
      by_cases hpair : c = 0x0D ∧ t.head? = some 0x0A
      · right
        obtain ⟨rfl, hhead⟩ := hpair
        obtain ⟨rest, rfl⟩ := List.head?_eq_some_iff.mp hhead
        exact ⟨rest, hfeed rest, (hreturn rest).trans (hfeed rest)⟩
      · left
        rw [List.singleton_append, lines, if_pos hend, if_neg hpair]

end Lines

section Words

theorem words_append_of_blank (h : ∀ c ∈ gap, c.isBlank = true) (t : Text) :
    words (gap ++ t) = words t := by
  induction gap with
  | nil => rfl
  | cons c rest ih =>
      obtain ⟨hc, hrest⟩ := List.forall_mem_cons.mp h
      rw [List.cons_append, words, if_pos hc, ih hrest]

theorem words_word_append (h : word.IsWord) (hrest : ∀ c ∈ rest.head?, c.isBlank = true) :
    words (word ++ rest) = word :: words rest := by
  obtain ⟨hne, hword⟩ := h
  induction word with
  | nil => contradiction
  | cons c word ih =>
      obtain ⟨hc, hword⟩ := List.forall_mem_cons.mp hword
      have hblank : ¬ c.isBlank = true := by simp [hc]
      rw [List.cons_append, words, if_neg hblank]
      cases word with
      | nil =>
          have hall : rest.head?.all CodePoint.isBlank = true := by
            cases rest with
            | nil => rfl
            | cons d rest => exact hrest d rfl
          rw [List.nil_append, if_pos hall]
      | cons d word =>
          have hd : d.isBlank = false := hword d List.mem_cons_self
          rw [ih (List.cons_ne_nil _ _) hword]
          simp [hd]

theorem words_append_blank (h : ∀ c ∈ gap, c.isBlank = true) (t : Text) :
    words (t ++ gap) = words t := by
  induction t with
  | nil =>
      have hnone := words_append_of_blank h []
      rwa [List.append_nil] at hnone
  | cons c t ih =>
      have hhead : (t ++ gap).head?.all CodePoint.isBlank = t.head?.all CodePoint.isBlank := by
        cases t with
        | cons d t => rfl
        | nil =>
            cases gap with
            | nil => rfl
            | cons d gap => exact h d List.mem_cons_self
      rw [List.cons_append, words.eq_def (c :: (t ++ gap)), words.eq_def (c :: t)]
      simp only [hhead, ih]

theorem words_of_isWord (h : word.IsWord) : words word = [word] := by
  have hwords : words (word ++ []) = word :: words [] := words_word_append h (by simp)
  rwa [List.append_nil] at hwords

theorem blank_of_words_eq_nil (h : words t = []) : ∀ c ∈ t, c.isBlank = true := by
  induction t with
  | nil => simp
  | cons c t ih =>
      rw [words] at h
      split at h
      next hc => exact List.forall_mem_cons.mpr ⟨hc, ih h⟩
      · split at h
        · contradiction
        · split at h <;> contradiction

-- The first word stands behind blanks, and blanks are behind it where the text goes
-- on.
theorem exists_of_words_eq_cons (h : words t = word :: others) :
    ∃ gap rest, t = gap ++ (word ++ rest) ∧ (∀ c ∈ gap, c.isBlank = true) ∧ word.IsWord ∧
      (∀ c ∈ rest.head?, c.isBlank = true) ∧ words rest = others := by
  induction t generalizing word others with
  | nil => contradiction
  | cons c t ih =>
      rw [words] at h
      split at h
      next hc =>
        obtain ⟨gap, rest, rfl, hgap, hword⟩ := ih h
        exact ⟨c :: gap, rest, rfl, List.forall_mem_cons.mpr ⟨hc, hgap⟩, hword⟩
      next hc =>
        have hblank : c.isBlank = false := Bool.not_eq_true _ ▸ hc
        split at h
        next hhead =>
          cases h
          refine ⟨[], t, rfl, by simp, ⟨by simp, by simpa using hblank⟩, ?_, rfl⟩
          intro d hd
          rw [Option.mem_def.mp hd] at hhead
          exact hhead
        next hhead =>
          split at h
          next hnone =>
            have hall := blank_of_words_eq_nil hnone
            cases t with
            | nil => exact absurd rfl hhead
            | cons d t => exact absurd (hall d List.mem_cons_self) hhead
          next first others hwords =>
            cases h
            obtain ⟨gap, rest, rfl, hgap, hfirst, hrest⟩ := ih hwords
            cases gap with
            | cons d gap => exact absurd (hgap d List.mem_cons_self) hhead
            | nil =>
                refine ⟨[], rest, rfl, by simp, ⟨List.cons_ne_nil _ _, ?_⟩, hrest⟩
                exact List.forall_mem_cons.mpr ⟨hblank, hfirst.2⟩

end Words

-- What stands in front of the first occurrence of a code point.
theorem takeWhile_ne_append {c : CodePoint} (h : c ∉ core) (hrest : ∀ d ∈ rest.head?, d = c) :
    (core ++ rest).takeWhile (· ≠ c) = core := by
  have hcore : ∀ d ∈ core, decide (d ≠ c) = true := by
    intro d hd
    rw [decide_eq_true_eq]
    rintro rfl
    exact h hd
  rw [List.takeWhile_append_of_pos hcore]
  cases rest with
  | nil => simp
  | cons d rest => simp [hrest d rfl]

section Strip

theorem strip_of_blank (h : ∀ c ∈ t, c.isBlank = true) : strip t = [] := by
  have hnone : (t ++ []).dropWhile CodePoint.isBlank = [] := List.dropWhile_append_of_pos h
  rw [List.append_nil] at hnone
  rw [strip, stripAll, hnone]
  rfl

-- What is stripped off are blanks.
theorem exists_strip (t : Text) :
    ∃ front back, t = front ++ (strip t ++ back) ∧ (∀ c ∈ front, c.isBlank = true) ∧
      ∀ c ∈ back, c.isBlank = true := by
  let rest := t.dropWhile CodePoint.isBlank
  have hback : strip t ++ (rest.reverse.takeWhile CodePoint.isBlank).reverse = rest := by
    rw [strip, stripAll, ← List.reverse_append, List.takeWhile_append_dropWhile,
      List.reverse_reverse]
  refine ⟨t.takeWhile CodePoint.isBlank, (rest.reverse.takeWhile CodePoint.isBlank).reverse, ?_,
    fun c hc => List.mem_takeWhile_imp hc, fun c hc => ?_⟩
  · rw [hback, List.takeWhile_append_dropWhile]
  · exact List.mem_takeWhile_imp (List.mem_reverse.mp hc)

theorem dropWhile_isBlank (h : ∀ c ∈ t.head?, c.isBlank = false) :
    t.dropWhile CodePoint.isBlank = t := by
  cases t with
  | nil => rfl
  | cons c rest =>
      have hc : ¬ c.isBlank = true := by simp [h c rfl]
      rw [List.dropWhile_cons_of_neg hc]

-- Stripping stops at the first and at the last code point that is no blank.
theorem strip_append (hfront : ∀ c ∈ front, c.isBlank = true)
    (hback : ∀ c ∈ back, c.isBlank = true) (hne : core ≠ [])
    (hhead : ∀ c ∈ core.head?, c.isBlank = false)
    (hlast : ∀ c ∈ core.getLast?, c.isBlank = false) : strip (front ++ (core ++ back)) = core := by
  have hreverse : ∀ c ∈ back.reverse, c.isBlank = true :=
    fun c hc => hback c (List.mem_reverse.mp hc)
  have hstart : ∀ c ∈ (core ++ back).head?, c.isBlank = false := by
    rwa [List.head?_append_of_ne_nil _ hne]
  have hend : ∀ c ∈ core.reverse.head?, c.isBlank = false := by
    rwa [List.head?_reverse]
  rw [strip, stripAll, List.dropWhile_append_of_pos hfront, dropWhile_isBlank hstart,
    List.reverse_append, List.dropWhile_append_of_pos hreverse, dropWhile_isBlank hend,
    List.reverse_reverse]

end Strip

end Text

end PacketCodec
