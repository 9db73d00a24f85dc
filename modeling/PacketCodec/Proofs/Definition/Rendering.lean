import PacketCodec.Proofs.Definition.Grammar
import PacketCodec.Proofs.Text.Blank

namespace PacketCodec

open Definition

namespace Entry

-- What a line says of an entry.
def spelling (e : Entry) : Nat × List Text :=
  (e.depth, [e.type, e.name])

-- An entry that can be written down as a line.
structure IsPlain (e : Entry) : Prop where
  type : e.type.IsWord
  name : e.name.IsWord
  typeSign : (0x23 : CodePoint) ∉ e.type
  nameSign : (0x23 : CodePoint) ∉ e.name
  undashed : e.depth = 0 → e.type.head? ≠ some 0x2D

instance (e : Entry) : Decidable e.IsPlain :=
  decidable_of_iff
    (e.type.IsWord ∧ e.name.IsWord ∧ (0x23 : CodePoint) ∉ e.type ∧ (0x23 : CodePoint) ∉ e.name ∧
      (e.depth = 0 → e.type.head? ≠ some 0x2D))
    ⟨fun ⟨type, name, typeSign, nameSign, undashed⟩ =>
      ⟨type, name, typeSign, nameSign, undashed⟩,
      fun h => ⟨h.type, h.name, h.typeSign, h.nameSign, h.undashed⟩⟩

end Entry

namespace SignificantLine

def spelling (line : SignificantLine) : Nat × List Text :=
  (line.depth, line.words)

theorem spelling_eq {line : SignificantLine} {e : Entry} (h : line.entry? = some e) :
    line.spelling = e.spelling := by
  obtain ⟨hdepth, hwords⟩ := entry?_eq_some_iff.mp h
  simp only [spelling, Entry.spelling, hdepth, hwords]

end SignificantLine

section Listing

variable {draft base : Draft} {number : Nat} {lines : List Text} {t : Text} {fields : FieldList}

theorem Draft.keeps_of_readLines (h : draft.readLines number lines = .ok base) :
    base.listing.map Entry.spelling =
        draft.listing.map Entry.spelling ++
          (significantFrom number lines).map SignificantLine.spelling ∧
      (draft.Shaped → base.Shaped) := by
  induction lines generalizing draft number with
  | nil =>
      cases h
      simp [significantFrom]
  | cons text rest ih =>
      cases hline : significant? number text with
      | none =>
          rw [readLines_cons_none hline] at h
          rw [significantFrom_cons_none hline]
          exact ih h
      | some line =>
          by_cases hwords : line.words.length = 2
          · obtain ⟨e, he⟩ := SignificantLine.exists_entry?_iff.mpr hwords
            rw [readLines_cons_some hline he] at h
            obtain ⟨middle, hplace, h⟩ := bind_eq_ok_iff.mp h
            obtain ⟨hlisting, hshaped⟩ := keeps_of_place hplace
            obtain ⟨hlisting', hshaped'⟩ := ih h
            refine ⟨?_, fun h => hshaped' (hshaped h)⟩
            rw [hlisting', hlisting, significantFrom_cons_some hline, List.map_append,
              List.map_cons, List.map_nil, List.map_cons, SignificantLine.spelling_eq he,
              List.append_assoc, List.singleton_append]
          · obtain ⟨cause, hcause⟩ := exists_error_of_words hline hwords draft rest
            rw [hcause] at h
            contradiction

theorem Draft.shaped_empty : empty.Shaped :=
  ⟨trivial, by simp [empty]⟩

theorem Definition.listing_of_ofText (h : ofText t = .ok fields) :
    (significant t).map SignificantLine.spelling = (fields.listing 0).map Entry.spelling ∧
      fields.Shaped := by
  obtain ⟨draft, hread, hfinish⟩ := bind_eq_ok_iff.mp h
  obtain ⟨hlines, hshaped⟩ := Draft.keeps_of_readLines hread
  obtain ⟨hlisting, hshaped'⟩ := Draft.keeps_of_finish hfinish
  refine ⟨?_, hshaped' (hshaped Draft.shaped_empty)⟩
  rw [hlisting, hlines]
  rfl

end Listing

-- A comment, or nothing.
inductive IsRemark : Text → Prop
  | none : IsRemark []
  | comment {t : Text} (h : t.InLine) : IsRemark (0x23 :: t)

-- A line on which one entry stands, or none. Its parts are set apart by gaps. A
-- type that starts with a dash needs one in front of it.
inductive IsLine : Option Entry → Text → Prop
  | void {gap remark : Text} (hgap : gap.IsGap) (hremark : IsRemark remark) :
      IsLine none (gap ++ remark)
  | entry (e : Entry) {front indent between back remark : Text} (hfront : front.IsGap)
      (hindent : indent.IsGap) (hbetween : between.IsGap) (hback : back.IsGap)
      (hremark : IsRemark remark) (hapart : between ≠ [])
      (hdash : e.type.head? = some 0x2D → indent ≠ []) :
      IsLine (some e) (front ++ (List.replicate e.depth 0x2D ++ (indent ++ (e.type ++
        (between ++ (e.name ++ (back ++ remark)))))))

-- Lines that show entries one after the other. The last one need not be ended.
inductive Renders : List Entry → Text → Prop
  | last {entry : Option Entry} {line : Text} (h : IsLine entry line) : Renders entry.toList line
  | cons {entry : Option Entry} {entries : List Entry} {line ending rest : Text}
      (h : IsLine entry line) (hending : ending.IsEnding) (hrest : Renders entries rest) :
      Renders (entry.toList ++ entries) (line ++ (ending ++ rest))

section Lines

variable {front core back gap remark line indent type between name : Text} {entry : Option Entry}
  {depth : Nat}

theorem IsRemark.inLine (h : IsRemark remark) : remark.InLine := by
  cases h with
  | none => exact fun _ hc => absurd hc List.not_mem_nil
  | comment h => exact List.forall_mem_cons.mpr ⟨by decide, h⟩

theorem IsLine.inLine (h : IsLine entry line) (hplain : ∀ e ∈ entry, e.IsPlain) :
    line.InLine := by
  cases h with
  | void hgap hremark => exact hgap.inLine.append hremark.inLine
  | entry e hfront hindent hbetween hback hremark =>
      have hdashes : Text.InLine (List.replicate e.depth 0x2D) := by
        intro c hc
        rw [List.eq_of_mem_replicate hc]
        decide
      have hname := (hplain e rfl).name.inLine.append (hback.inLine.append hremark.inLine)
      have htype := (hplain e rfl).type.inLine.append (hbetween.inLine.append hname)
      exact hfront.inLine.append (hdashes.append (hindent.inLine.append htype))

theorem sign_not_mem_of_isGap (h : gap.IsGap) : (0x23 : CodePoint) ∉ gap := by
  intro hmem
  exact absurd (h _ hmem).1 (by decide)

theorem takeWhile_append_remark (h : (0x23 : CodePoint) ∉ core) (hremark : IsRemark remark) :
    (core ++ remark).takeWhile (· ≠ (0x23 : CodePoint)) = core := by
  refine Text.takeWhile_ne_append h ?_
  cases hremark with
  | none => simp
  | comment => simp

theorem content_void (hgap : gap.IsGap) (hremark : IsRemark remark) :
    content (gap ++ remark) = [] := by
  rw [content, takeWhile_append_remark (sign_not_mem_of_isGap hgap) hremark]
  exact Text.strip_of_blank fun c hc => (hgap c hc).1

theorem content_append (hfront : front.IsGap) (hback : back.IsGap) (hremark : IsRemark remark)
    (hcore : (0x23 : CodePoint) ∉ core) (hne : core ≠ [])
    (hhead : ∀ c ∈ core.head?, c.isBlank = false)
    (hlast : ∀ c ∈ core.getLast?, c.isBlank = false) :
    content (front ++ (core ++ (back ++ remark))) = core := by
  have hbody : (0x23 : CodePoint) ∉ front ++ (core ++ back) := by
    simp [sign_not_mem_of_isGap hfront, hcore, sign_not_mem_of_isGap hback]
  have hassoc : front ++ (core ++ (back ++ remark)) = front ++ (core ++ back) ++ remark := by
    simp only [List.append_assoc]
  rw [content, hassoc, takeWhile_append_remark hbody hremark]
  exact Text.strip_append (fun c hc => (hfront c hc).1) (fun c hc => (hback c hc).1) hne hhead hlast

theorem dashes_append (h : core.head? ≠ some 0x2D) (depth : Nat) :
    dashes (List.replicate depth 0x2D ++ core) = depth := by
  have hdashes : ∀ c ∈ List.replicate depth (0x2D : CodePoint),
      decide (c = (0x2D : CodePoint)) = true := by
    intro c hc
    rw [List.eq_of_mem_replicate hc]
    rfl
  have hcore : core.takeWhile (· = (0x2D : CodePoint)) = [] := by
    cases core with
    | nil => rfl
    | cons c rest =>
        have hc : ¬ decide (c = (0x2D : CodePoint)) = true := by simpa using h
        exact List.takeWhile_cons_of_neg hc
  rw [dashes, List.takeWhile_append_of_pos hdashes, hcore, List.append_nil, List.length_replicate]

theorem words_pair (hindent : indent.IsGap) (htype : type.IsWord) (hbetween : between.IsGap)
    (hapart : between ≠ []) (hname : name.IsWord) :
    Text.words (indent ++ (type ++ (between ++ name))) = [type, name] := by
  have hhead : ∀ c ∈ (between ++ name).head?, c.isBlank = true := by
    rw [List.head?_append_of_ne_nil _ hapart]
    intro c hc
    exact (hbetween c (List.mem_of_mem_head? hc)).1
  rw [Text.words_append_of_blank (fun c hc => (hindent c hc).1), Text.words_word_append htype hhead,
    Text.words_append_of_blank (fun c hc => (hbetween c hc).1), Text.words_of_isWord hname]

-- The dashes of a line are counted behind all blanks in front of them, so an
-- entry of depth zero has no blanks of its own in front of its type.
theorem content_entry {e : Entry} (hplain : e.IsPlain) (hfront : front.IsGap)
    (hindent : indent.IsGap) (hbetween : between.IsGap) (hback : back.IsGap)
    (hremark : IsRemark remark) (hflush : e.depth = 0 → indent = []) :
    content (front ++ (List.replicate e.depth 0x2D ++ (indent ++ (e.type ++
        (between ++ (e.name ++ (back ++ remark))))))) =
      List.replicate e.depth 0x2D ++ (indent ++ (e.type ++ (between ++ e.name))) := by
  obtain ⟨depth, type, name⟩ := e
  obtain ⟨htype, hname, htypeSign, hnameSign, -⟩ := hplain
  simp only at htype hname htypeSign hnameSign hflush
  have hsign : (0x23 : CodePoint) ∉
      List.replicate depth 0x2D ++ (indent ++ (type ++ (between ++ name))) := by
    simp [sign_not_mem_of_isGap hindent, sign_not_mem_of_isGap hbetween, htypeSign, hnameSign]
  have hne : List.replicate depth 0x2D ++ (indent ++ (type ++ (between ++ name))) ≠ [] := by
    simp [htype.1]
  have hhead : ∀ c ∈ (List.replicate depth 0x2D ++
      (indent ++ (type ++ (between ++ name)))).head?, c.isBlank = false := by
    intro c hc
    cases depth with
    | zero =>
        rw [hflush rfl, List.replicate_zero, List.nil_append, List.nil_append,
          List.head?_append_of_ne_nil _ htype.1] at hc
        exact htype.2 c (List.mem_of_mem_head? hc)
    | succ depth =>
        cases hc
        decide
  have hlast : ∀ c ∈ (List.replicate depth 0x2D ++
      (indent ++ (type ++ (between ++ name)))).getLast?, c.isBlank = false := by
    intro c hc
    simp only [← List.append_assoc] at hc
    rw [List.getLast?_append_of_ne_nil _ hname.1] at hc
    exact hname.2 c (List.mem_of_mem_getLast? hc)
  have hcontent := content_append hfront hback hremark hsign hne hhead hlast
  simpa only [List.append_assoc] using hcontent

theorem readLine_entry {e : Entry} (hplain : e.IsPlain) (hfront : front.IsGap)
    (hindent : indent.IsGap) (hbetween : between.IsGap) (hback : back.IsGap)
    (hremark : IsRemark remark) (hapart : between ≠ [])
    (hdash : e.type.head? = some 0x2D → indent ≠ []) (hflush : e.depth = 0 → indent = []) :
    readLine (front ++ (List.replicate e.depth 0x2D ++ (indent ++ (e.type ++
      (between ++ (e.name ++ (back ++ remark))))))) = .ok (some e) := by
  have hcontent := content_entry hplain hfront hindent hbetween hback hremark hflush
  have hne : List.replicate e.depth 0x2D ++ (indent ++ (e.type ++ (between ++ e.name))) ≠ [] := by
    simp [hplain.type.1]
  have hhead : (indent ++ (e.type ++ (between ++ e.name))).head? ≠ some 0x2D := by
    intro hc
    by_cases hempty : indent = []
    · rw [hempty, List.nil_append, List.head?_append_of_ne_nil _ hplain.type.1] at hc
      exact hdash hc hempty
    · rw [List.head?_append_of_ne_nil _ hempty] at hc
      exact absurd (hindent _ (List.mem_of_mem_head? hc)).1 (by decide)
  have hpair := words_pair hindent hplain.type hbetween hapart hplain.name
  rw [readLine]
  simp only [hcontent, if_neg hne, dashes_append hhead]
  rw [List.drop_left' List.length_replicate, hpair]

theorem readLine_of_isLine (h : IsLine entry line) (hplain : ∀ e ∈ entry, e.IsPlain) :
    readLine line = .ok entry := by
  cases h with
  | void hgap hremark => rw [readLine, content_void hgap hremark, if_pos rfl]
  | @entry e front indent between back remark hfront hindent hbetween hback hremark hapart hdash =>
      have hplain := hplain e rfl
      by_cases hdepth : e.depth = 0
      · have hindented : (front ++ indent).IsGap := by
          intro c hc
          rcases List.mem_append.mp hc with hc | hc
          · exact hfront c hc
          · exact hindent c hc
        have hnone : Text.IsGap [] := fun _ hc => absurd hc List.not_mem_nil
        have hread := readLine_entry hplain hindented hnone hbetween hback hremark hapart
          (fun hc => absurd hc (hplain.undashed hdepth)) (fun _ => rfl)
        rw [hdepth, List.replicate_zero, List.nil_append, List.nil_append, List.append_assoc] at hread
        rw [hdepth, List.replicate_zero, List.nil_append]
        exact hread
      · exact readLine_entry hplain hfront hindent hbetween hback hremark hapart hdash
          (fun h => absurd h hdepth)

end Lines

section Reading

variable {draft grown : Draft} {lines : List Text} {entries : List Entry} {t : Text}
  {fields : FieldList}

-- Lines that are read as entries one after the other.
inductive Lists : List Text → List Entry → Prop
  | nil : Lists [] []
  | cons {line : Text} {lines : List Text} {entry : Option Entry} {entries : List Entry}
      (h : readLine line = .ok entry) (hrest : Lists lines entries) :
      Lists (line :: lines) (entry.toList ++ entries)

theorem Lists.of_empty_cons (h : Lists ([] :: lines) entries) : Lists lines entries := by
  cases h with
  | @cons _ _ entry _ h hrest =>
      have hempty : readLine [] = .ok none := rfl
      obtain rfl : none = entry := Except.ok.inj (hempty.symm.trans h)
      exact hrest

theorem lists_of_renders (h : Renders entries t) (hplain : ∀ e ∈ entries, e.IsPlain) :
    Lists t.lines entries := by
  induction h with
  | @last entry line h =>
      have hplain : ∀ e ∈ entry, e.IsPlain := fun e he => hplain e (Option.mem_toList.mpr he)
      have hread := readLine_of_isLine h hplain
      by_cases hempty : line = []
      · rw [hempty] at hread ⊢
        cases hread
        exact .nil
      · rw [Text.lines_of_inLine (h.inLine hplain) hempty, ← List.append_nil entry.toList]
        exact .cons hread .nil
  | @cons entry entries line ending rest h hending _ ih =>
      have hline : ∀ e ∈ entry, e.IsPlain :=
        fun e he => hplain e (List.mem_append_left _ (Option.mem_toList.mpr he))
      have hrest := ih fun e he => hplain e (List.mem_append_right _ he)
      have hread := readLine_of_isLine h hline
      have hlines {others : List Text} (hends : Text.lines (ending ++ rest) = [] :: others) :
          Text.lines (line ++ (ending ++ rest)) = line :: others := by
        rw [Text.lines_append_of_inLine (h.inLine hline) hends, List.append_nil]
      rcases Text.lines_ending_append hending rest with hends | ⟨rest', hempty, hends⟩
      · rw [hlines hends]
        exact .cons hread hrest
      · rw [hlines hends]
        rw [hempty] at hrest
        exact .cons hread hrest.of_empty_cons

theorem Draft.readLines_of_lists (h : Lists lines entries) (hgrows : draft.Grows entries grown)
    (number : Nat) : draft.readLines number lines = .ok grown := by
  induction h generalizing draft number with
  | nil =>
      cases hgrows
      rfl
  | @cons line lines entry entries hread _ ih =>
      rw [readLines, hread]
      cases entry with
      | none => exact ih hgrows (number + 1)
      | some e =>
          cases hgrows with
          | cons hplace hrest =>
              simp only [hplace]
              exact ih hrest (number + 1)

theorem Definition.ofText_of_renders (hshaped : fields.Shaped)
    (hplain : ∀ e ∈ fields.listing 0, e.IsPlain) (h : Renders (fields.listing 0) t) :
    ofText t = .ok fields := by
  have hstart : Draft.Closes 0 .empty .empty := Draft.closes_self rfl
  obtain ⟨grown, hgrows, hcloses⟩ := Draft.exists_grows_listing hshaped hstart
  have hread := Draft.readLines_of_lists (lists_of_renders h hplain) hgrows 1
  have hfields : (fields.reverseOnto .nil).reverse = fields := fields.reverse_reverse
  rw [ofText, hread, ok_bind, Draft.finish, hcloses.closeTo]
  exact congrArg Except.ok hfields

end Reading

section Writing

def Entry.line (e : Entry) : Text :=
  List.replicate e.depth 0x2D ++ 0x20 :: (e.type ++ 0x20 :: e.name)

-- The plainest text that shows entries.
def Entry.text (entries : List Entry) : Text :=
  entries.flatMap fun e => e.line ++ [0x0A]

theorem isGap_space : Text.IsGap [0x20] := by
  intro c hc
  rw [List.mem_singleton.mp hc]
  decide

theorem isLine_line (e : Entry) : IsLine (some e) e.line := by
  have hnone : Text.IsGap [] := fun _ hc => absurd hc List.not_mem_nil
  have hline := IsLine.entry e hnone isGap_space isGap_space hnone .none (List.cons_ne_nil _ _)
    (fun _ => List.cons_ne_nil _ _)
  simpa [Entry.line] using hline

theorem renders_text (entries : List Entry) : Renders entries (Entry.text entries) := by
  induction entries with
  | nil => exact .last (.void (fun _ hc => absurd hc List.not_mem_nil) .none)
  | cons e entries ih =>
      have hfeed : Text.IsEnding [0x0A] := .single (by decide)
      have hrest := Renders.cons (isLine_line e) hfeed ih
      simpa [Entry.text] using hrest

end Writing

namespace Definition

-- Reading a definition and showing it undo each other.
theorem ofText_renders :
    (∀ t fields, ofText t = .ok fields →
        (significant t).map SignificantLine.spelling = (fields.listing 0).map Entry.spelling ∧
          fields.Shaped) ∧
      ∀ t fields, fields.Shaped → (∀ e ∈ fields.listing 0, e.IsPlain) →
        Renders (fields.listing 0) t → ofText t = .ok fields := by
  constructor
  · intro t fields h
    exact listing_of_ofText h
  · intro t fields hshaped hplain h
    exact ofText_of_renders hshaped hplain h

def chatFields : FieldList :=
  .leaf "message" "string"
    (.branch "targets" "array" (.leaf "id" "int32" (.branch "at" "object" (.leaf "x" "float" .nil)
      .nil)) (.leaf "tail" "byte" .nil))

theorem ofText_renders_chat :
    ofText (Entry.text (chatFields.listing 0)) = .ok chatFields ∧
      (significant (Entry.text (chatFields.listing 0))).map SignificantLine.spelling =
        (chatFields.listing 0).map Entry.spelling :=
  have hshaped : chatFields.Shaped := by
    simp only [chatFields, FieldList.Shaped, ne_eq, reduceCtorEq, not_false_eq_true, and_true,
      true_and]
    decide
  have hread := ofText_renders.2 _ chatFields hshaped (by decide) (renders_text _)
  ⟨hread, (ofText_renders.1 _ _ hread).1⟩

example :
    ofText "string message # said\r\n\narray targets\n  - int32 id\n-object at\n-- float\t x\nbyte tail" =
      .ok chatFields := by
  rfl

end Definition

end PacketCodec
