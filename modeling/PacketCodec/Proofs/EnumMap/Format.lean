import PacketCodec.Proofs.EnumMap.MapText
import PacketCodec.Proofs.Text.Decimal
import PacketCodec.Proofs.Text.Literal

namespace PacketCodec

namespace EnumMap

def IsBlank (t : Text) : Prop :=
  ∀ c ∈ t, c.isBlank = true

-- Equals signs separate as blanks do.
def Separates (t : Text) : Prop :=
  ∀ c ∈ t, c.isBlank = true ∨ c = 0x3D

-- What can be a name.
def IsToken (t : Text) : Prop :=
  t ≠ [] ∧ ∀ c ∈ t, c.isBlank = false ∧ c ≠ 0x3D ∧ c ≠ 0x23

-- A comment or nothing.
def IsRemark (t : Text) : Prop :=
  ∀ c ∈ t.head?, c = 0x23

-- A line that says nothing, or one with a name and a code in range. What can stand
-- around the two and between them is left open, as is the spelling of the code.
inductive IsLine (margin gap : Text → Prop) (spells : Text → Int → Prop) (limit : Value) :
    Text → Prop
  | void {blanks remark : Text} (hblanks : IsBlank blanks) (hremark : IsRemark remark) :
      IsLine margin gap spells limit (blanks ++ remark)
  | entry {front name between word back remark : Text} {code : Int} (hfront : margin front)
      (hname : IsToken name) (hbetween : gap between) (hword : spells word code)
      (hback : margin back) (hremark : IsRemark remark) (hcode : InRange limit code) :
      IsLine margin gap spells limit
        (front ++ (name ++ (between ++ (word ++ (back ++ remark)))))

-- A code that can be read is spelled as a number and not too long.
def IsCode (word : Text) (code : Int) : Prop :=
  Text.Spells word code ∧ word.IsShort

-- The lines that are read.
def Accepted (limit : Value) (line : Text) : Prop :=
  IsLine Separates (fun t => t ≠ [] ∧ Separates t) IsCode limit line

variable {limit : Value} {line t name word front remark : Text} {code : Int} {c : CodePoint}

theorem IsBlank.separates (h : IsBlank t) : Separates t :=
  fun c hc => .inl (h c hc)

section Words

def spaced (c : CodePoint) : CodePoint :=
  if c = 0x3D then 0x20 else c

theorem isBlank_spaced : (spaced c).isBlank = true ↔ c.isBlank = true ∨ c = 0x3D := by
  by_cases hc : c = 0x3D
  · rw [spaced, if_pos hc]
    exact iff_of_true (by decide) (.inr hc)
  · rw [spaced, if_neg hc, or_iff_left hc]

theorem isBlank_map_spaced : IsBlank (t.map spaced) ↔ Separates t := by
  simp only [IsBlank, Separates, List.forall_mem_map, isBlank_spaced]

theorem isWord_map_spaced :
    Text.IsWord (t.map spaced) ↔ t ≠ [] ∧ ∀ c ∈ t, c.isBlank = false ∧ c ≠ 0x3D := by
  simp only [Text.IsWord, ne_eq, List.map_eq_nil_iff, List.forall_mem_map, ← Bool.not_eq_true,
    isBlank_spaced, not_or]

theorem IsToken.isWord (h : IsToken t) : Text.IsWord (t.map spaced) :=
  isWord_map_spaced.mpr ⟨h.1, fun c hc => ⟨(h.2 c hc).1, (h.2 c hc).2.1⟩⟩

theorem map_spaced_of_isWord (h : Text.IsWord (t.map spaced)) : t.map spaced = t := by
  refine (List.map_congr_left fun c hc => ?_).trans (List.map_id t)
  exact if_neg ((isWord_map_spaced.mp h).2 c hc).2

-- Two words and nothing else.
theorem words_eq_pair_iff :
    Text.words t = [name, word] ↔
      ∃ front between back, t = front ++ (name ++ (between ++ (word ++ back))) ∧
        IsBlank front ∧ (between ≠ [] ∧ IsBlank between) ∧ IsBlank back ∧
        name.IsWord ∧ word.IsWord := by
  constructor
  · intro h
    obtain ⟨front, rest, rfl, hfront, hname, hhead, h⟩ := Text.exists_of_words_eq_cons h
    obtain ⟨between, back, rfl, hbetween, hword, -, h⟩ := Text.exists_of_words_eq_cons h
    refine ⟨front, between, back, rfl, hfront, ⟨?_, hbetween⟩, Text.blank_of_words_eq_nil h, hname,
      hword⟩
    rintro rfl
    obtain ⟨c, tail, rfl⟩ := List.exists_cons_of_ne_nil hword.1
    have hblank : c.isBlank = true := hhead c rfl
    rw [hword.2 c List.mem_cons_self] at hblank
    exact Bool.false_ne_true hblank
  · rintro ⟨front, between, back, rfl, hfront, ⟨hne, hbetween⟩, hback, hname, hword⟩
    obtain ⟨c, tail, rfl⟩ := List.exists_cons_of_ne_nil hne
    have hlast : Text.words (word ++ back) = [word] := by
      rw [Text.words_append_blank hback, Text.words_of_isWord hword]
    rw [Text.words_append_of_blank hfront, Text.words_word_append hname (by
      intro d hd
      cases hd
      exact hbetween c List.mem_cons_self), Text.words_append_of_blank hbetween, hlast]

theorem words_spaced_eq_pair_iff :
    Text.words (t.map spaced) = [name, word] ↔
      ∃ front between back, t = front ++ (name ++ (between ++ (word ++ back))) ∧
        Separates front ∧ (between ≠ [] ∧ Separates between) ∧ Separates back ∧
        Text.IsWord (name.map spaced) ∧ Text.IsWord (word.map spaced) := by
  rw [words_eq_pair_iff]
  constructor
  · rintro ⟨front, between, back, h, hfront, ⟨hne, hbetween⟩, hback, hname, hword⟩
    obtain ⟨front, fromName, rfl, rfl, hsecond⟩ := List.map_eq_append_iff.mp h
    obtain ⟨name, fromGap, rfl, rfl, hthird⟩ := List.map_eq_append_iff.mp hsecond
    obtain ⟨between, fromWord, rfl, rfl, hfourth⟩ := List.map_eq_append_iff.mp hthird
    obtain ⟨word, back, rfl, rfl, rfl⟩ := List.map_eq_append_iff.mp hfourth
    refine ⟨front, between, back, ?_, isBlank_map_spaced.mp hfront,
      ⟨by simpa using hne, isBlank_map_spaced.mp hbetween⟩, isBlank_map_spaced.mp hback, ?_, ?_⟩
    · rw [map_spaced_of_isWord hname, map_spaced_of_isWord hword]
    · rwa [map_spaced_of_isWord hname]
    · rwa [map_spaced_of_isWord hword]
  · rintro ⟨front, between, back, rfl, hfront, ⟨hne, hbetween⟩, hback, hname, hword⟩
    refine ⟨front.map spaced, between.map spaced, back.map spaced, ?_,
      isBlank_map_spaced.mpr hfront, ⟨by simpa using hne, isBlank_map_spaced.mpr hbetween⟩,
      isBlank_map_spaced.mpr hback, ?_, ?_⟩
    · simp only [List.map_append, map_spaced_of_isWord hname, map_spaced_of_isWord hword]
    · rwa [← map_spaced_of_isWord hname]
    · rwa [← map_spaced_of_isWord hword]

end Words

section Line

theorem exists_remark (ht : line.takeWhile (· ≠ (0x23 : CodePoint)) = t) :
    ∃ remark, line = t ++ remark ∧ IsRemark remark ∧ (0x23 : CodePoint) ∉ t := by
  refine ⟨line.dropWhile (· ≠ (0x23 : CodePoint)), ?_, fun c hc => ?_, fun hc => ?_⟩
  · rw [← ht, List.takeWhile_append_dropWhile]
  · have hhead := List.head?_dropWhile_not (· ≠ (0x23 : CodePoint)) line
    rw [Option.mem_def.mp hc] at hhead
    simpa using hhead
  · rw [← ht] at hc
    have hin := List.mem_takeWhile_imp hc
    simp at hin

theorem strip_eq_nil_iff : Text.strip t = [] ↔ IsBlank t := by
  constructor
  · intro h
    obtain ⟨front, back, ht, hfront, hback⟩ := Text.exists_strip t
    rw [h, List.nil_append] at ht
    rw [ht]
    intro c hc
    exact (List.mem_append.mp hc).elim (hfront c) (hback c)
  · exact Text.strip_of_blank

theorem words_strip_spaced (t : Text) :
    Text.words ((Text.strip t).map spaced) = Text.words (t.map spaced) := by
  obtain ⟨front, back, ht, hfront, hback⟩ := Text.exists_strip t
  have hmargin {t : Text} (h : IsBlank t) : IsBlank (t.map spaced) :=
    isBlank_map_spaced.mpr h.separates
  conv_rhs => rw [ht]
  rw [List.map_append, List.map_append, Text.words_append_of_blank (hmargin hfront),
    Text.words_append_blank (hmargin hback)]

-- What a line adds depends on the words in front of its comment.
theorem addLine_eq_ok_iff (map : EnumMap) (ht : line.takeWhile (· ≠ (0x23 : CodePoint)) = t) :
    (∃ map', map.addLine line = .ok map') ↔
      IsBlank t ∨ ∃ name word code, Text.words (t.map spaced) = [name, word] ∧
        readCode word = .ok code ∧ (map.add (.text name) (.int code)).1 = .ok () := by
  have hwords : Text.words ((Text.strip t).map fun c => if c = 0x3D then 0x20 else c) =
      Text.words (t.map spaced) := words_strip_spaced t
  simp only [addLine, ht, hwords]
  by_cases hblank : IsBlank t
  · rw [if_pos (strip_eq_nil_iff.mpr hblank)]
    exact iff_of_true ⟨map, rfl⟩ (.inl hblank)
  · rw [if_neg (mt strip_eq_nil_iff.mp hblank), or_iff_right hblank]
    constructor
    · rintro ⟨map', h⟩
      split at h
      next name word hpair =>
        split at h
        · contradiction
        next code hcode =>
          split at h
          next hadd => exact ⟨name, word, code, hpair, hcode, congrArg Prod.fst hadd⟩
          · contradiction
      · contradiction
    · rintro ⟨name, word, code, hpair, hcode, hadd⟩
      obtain ⟨map', hmap⟩ : ∃ map', map.add (.text name) (.int code) = (.ok (), map') :=
        ⟨_, Prod.ext hadd rfl⟩
      simp only [hpair, hcode, hmap]
      exact ⟨map', rfl⟩

theorem isToken_of_spells (h : Text.Spells word code) : IsToken word := by
  refine ⟨?_, fun c hc => ?_⟩
  · rintro rfl
    cases h with
    | plain h => cases h
  · rcases h.of_mem hc with hsign | ⟨base, digit, hdigit⟩
    · simp only [List.mem_cons, List.not_mem_nil, or_false] at hsign
      rcases hsign with rfl | rfl | rfl | rfl | rfl <;> decide
    · refine ⟨?_, ?_, ?_⟩
      · rw [← Bool.not_eq_true]
        intro hblank
        rw [CodePoint.digitOf?_of_isBlank hblank] at hdigit
        contradiction
      · rintro rfl
        rw [CodePoint.digitOf?_equals] at hdigit
        contradiction
      · rintro rfl
        rw [CodePoint.digitOf?_hash] at hdigit
        contradiction

theorem readCode_eq_ok_iff : readCode word = .ok code ↔ IsCode word code := by
  rw [readCode]
  cases hmark : word.isHexMarked with
  | true =>
      have hshort : word.IsShort := fun h => by simp [hmark] at h
      rw [IsCode, ← Text.hexadecimal?_eq_some_iff hmark, and_iff_left hshort]
      cases word.hexadecimal? <;> simp
  | false =>
      constructor
      · intro h
        cases hlong : word.overlong? with
        | some e =>
            rw [hlong] at h
            contradiction
        | none =>
            cases hcode : word.integer? with
            | none =>
                rw [hlong, hcode] at h
                contradiction
            | some n =>
                rw [hlong, hcode] at h
                cases h
                have hspells := (Text.integer?_eq_some_iff hmark).mp hcode
                exact ⟨hspells, (hspells.overlong?_eq_none_iff hmark).mp hlong⟩
      · rintro ⟨hspells, hshort⟩
        rw [(hspells.overlong?_eq_none_iff hmark).mpr hshort,
          (Text.integer?_eq_some_iff hmark).mpr hspells]
        rfl

theorem Separates.sign_notMem (h : Separates t) : (0x23 : CodePoint) ∉ t :=
  fun hc => absurd (h _ hc) (by decide)

theorem IsToken.sign_notMem (h : IsToken t) : (0x23 : CodePoint) ∉ t :=
  fun hc => (h.2 _ hc).2.2 rfl

-- The words of a line whose parts are set apart by blanks and equals signs.
theorem IsLine.words {margin gap : Text → Prop} {spells : Text → Int → Prop}
    (hmargin : ∀ t, margin t → Separates t) (hgap : ∀ t, gap t → t ≠ [] ∧ Separates t)
    (hspells : ∀ word code, spells word code → IsToken word)
    (h : IsLine margin gap spells limit line)
    (ht : line.takeWhile (· ≠ (0x23 : CodePoint)) = t) :
    IsBlank t ∨ ∃ name word code, Text.words (t.map spaced) = [name, word] ∧
      spells word code ∧ InRange limit code := by
  cases h with
  | @void blanks remark hblanks hremark =>
      rw [Text.takeWhile_ne_append hblanks.separates.sign_notMem hremark] at ht
      exact .inl (ht ▸ hblanks)
  | @entry front name between word back remark code hfront hname hbetween hword hback hremark
      hcode =>
      have htoken := hspells word code hword
      have hsign : (0x23 : CodePoint) ∉ front ++ (name ++ (between ++ (word ++ back))) := by
        simp only [List.mem_append, not_or]
        exact ⟨(hmargin _ hfront).sign_notMem, hname.sign_notMem, (hgap _ hbetween).2.sign_notMem,
          htoken.sign_notMem, (hmargin _ hback).sign_notMem⟩
      have hline : front ++ (name ++ (between ++ (word ++ (back ++ remark)))) =
          (front ++ (name ++ (between ++ (word ++ back)))) ++ remark := by
        simp only [List.append_assoc]
      rw [hline, Text.takeWhile_ne_append hsign hremark] at ht
      refine .inr ⟨name, word, code, ?_, hword, hcode⟩
      exact words_spaced_eq_pair_iff.mpr ⟨front, between, back, ht.symm, hmargin _ hfront,
        hgap _ hbetween, hmargin _ hback, hname.isWord, htoken.isWord⟩

-- Whether a line is accepted can be told from its words.
theorem accepted_iff (ht : line.takeWhile (· ≠ (0x23 : CodePoint)) = t) :
    Accepted limit line ↔
      IsBlank t ∨ ∃ name word code, Text.words (t.map spaced) = [name, word] ∧
        IsCode word code ∧ InRange limit code := by
  constructor
  · intro h
    exact h.words (fun _ => id) (fun _ => id) (fun _ _ hcode => isToken_of_spells hcode.1) ht
  · obtain ⟨remark, rfl, hremark, hsign⟩ := exists_remark ht
    rintro (hblank | ⟨name, word, code, hwords, hword, hcode⟩)
    · exact .void hblank hremark
    · obtain ⟨front, between, back, rfl, hfront, hbetween, hback, hname, -⟩ :=
        words_spaced_eq_pair_iff.mp hwords
      obtain ⟨hnonempty, hpoints⟩ := isWord_map_spaced.mp hname
      have htoken : IsToken name := by
        refine ⟨hnonempty, fun c hc => ⟨(hpoints c hc).1, (hpoints c hc).2, ?_⟩⟩
        rintro rfl
        exact hsign (List.mem_append_right _ (List.mem_append_left _ hc))
      simp only [List.append_assoc]
      exact .entry hfront htoken hbetween hword hback hremark hcode

end Line

section Lines

variable {map : EnumMap}

theorem add_eq_ok_iff (h : map.Parsed limit) (hlimit : Limit limit) (name : Text) :
    (map.add (.text name) (.int code)).1 = .ok () ↔ InRange limit code := by
  obtain rfl := h.maxCode
  obtain ⟨accepted, haccepts⟩ := accepts_eq_ok hlimit code
  rw [← accepts_iff hlimit, EnumMap.add, haccepts, Value.key_text]
  cases accepted with
  | false => simp
  | true =>
      simp only [iff_true]
      rw [h.ofTexts.paired.insert_eq]

theorem addLine_ok_iff_accepted (h : map.Parsed limit) (hlimit : Limit limit) (line : Text) :
    (∃ map', map.addLine line = .ok map') ↔ Accepted limit line := by
  rw [addLine_eq_ok_iff map rfl, accepted_iff rfl]
  simp only [readCode_eq_ok_iff, add_eq_ok_iff h hlimit]

-- Either all lines are accepted, or the first that is not is reported.
theorem addLines_cases (h : map.Parsed limit) (hlimit : Limit limit) (number : Nat)
    (lines : List Text) :
    ((∃ map', map.addLines number lines = .ok map') ∧ ∀ line ∈ lines, Accepted limit line) ∨
      ∃ before line after cause, lines = before ++ line :: after ∧
        (∀ earlier ∈ before, Accepted limit earlier) ∧ ¬ Accepted limit line ∧
        map.addLines number lines = .error ⟨number + before.length, Text.strip line, cause⟩ := by
  induction lines generalizing map number with
  | nil => exact .inl ⟨⟨map, rfl⟩, by simp⟩
  | cons line rest ih =>
      have hline := addLine_ok_iff_accepted h hlimit line
      rw [addLines]
      cases hadd : map.addLine line with
      | error cause =>
          refine .inr ⟨[], line, rest, cause, rfl, by simp, ?_, rfl⟩
          rw [← hline, hadd]
          simp
      | ok map' =>
          have haccepted := hline.mp ⟨map', hadd⟩
          rcases ih (h.addLine hadd) (number + 1) with ⟨hok, hall⟩ | hfail
          · exact .inl ⟨hok, List.forall_mem_cons.mpr ⟨haccepted, hall⟩⟩
          · obtain ⟨before, bad, after, cause, rfl, hbefore, hbad, herror⟩ := hfail
            refine .inr ⟨line :: before, bad, after, cause, rfl,
              List.forall_mem_cons.mpr ⟨haccepted, hbefore⟩, hbad, ?_⟩
            rw [List.length_cons, Nat.add_comm before.length 1, ← Nat.add_assoc]
            exact herror

theorem exists_ofText_iff (hlimit : Limit limit) :
    (∃ map, ofText t limit = .ok map) ↔ ∀ line ∈ t.lines, Accepted limit line := by
  rcases addLines_cases (Parsed.empty limit) hlimit 1 t.lines with ⟨hok, hall⟩ | hfail
  · exact iff_of_true hok hall
  · obtain ⟨before, line, after, cause, hlines, -, hline, herror⟩ := hfail
    refine iff_of_false ?_ fun hall => hline (hall line (by rw [hlines]; simp))
    rintro ⟨map, hmap⟩
    rw [ofText, herror] at hmap
    contradiction

end Lines

section Documented

-- Blanks, or one equals sign with or without blanks around it.
def DocumentedGap (t : Text) : Prop :=
  t ≠ [] ∧ IsBlank t ∨ ∃ before after, t = before ++ 0x3D :: after ∧ IsBlank before ∧ IsBlank after

inductive DocumentedCode : Text → Int → Prop
  | decimal {t : Text} (h : t.IsNumeral) : DocumentedCode t t.toNat
  | hexadecimal {x : CodePoint} {t : Text} (hx : x = 0x78 ∨ x = 0x58) (hne : t ≠ [])
      (h : ∀ c ∈ t, c.isHexDigit = true) : DocumentedCode (0x30 :: x :: t) t.hexValue

-- The lines that are documented.
def Documented (limit : Value) (line : Text) : Prop :=
  IsLine IsBlank DocumentedGap DocumentedCode limit line

-- Those of them whose code is not too long.
def Legible (limit : Value) (line : Text) : Prop :=
  IsLine IsBlank DocumentedGap (fun word code => DocumentedCode word code ∧ word.IsShort) limit line

theorem DocumentedCode.spells (h : DocumentedCode word code) : Text.Spells word code := by
  cases h with
  | decimal h => exact Text.spells_of_isNumeral h
  | hexadecimal hx hne h => exact Text.spells_of_isHexDigit hx hne h

theorem DocumentedGap.separates (h : DocumentedGap t) : t ≠ [] ∧ Separates t := by
  rcases h with ⟨hne, hblank⟩ | ⟨before, after, rfl, hbefore, hafter⟩
  · exact ⟨hne, hblank.separates⟩
  · refine ⟨by simp, List.forall_mem_append.mpr ⟨hbefore.separates, ?_⟩⟩
    exact List.forall_mem_cons.mpr ⟨.inr rfl, hafter.separates⟩

theorem Legible.accepted (h : Legible limit line) : Accepted limit line := by
  cases h with
  | void hblanks hremark => exact .void hblanks hremark
  | entry hfront hname hbetween hword hback hremark hcode =>
      exact .entry hfront.separates hname hbetween.separates ⟨hword.1.spells, hword.2⟩
        hback.separates hremark hcode

theorem Documented.head_ne (h : Documented limit (c :: t)) : c ≠ 0x3D := by
  rintro rfl
  generalize hline : (0x3D :: t : Text) = line at h
  cases h with
  | @void blanks remark hblanks hremark =>
      cases blanks with
      | nil =>
          rw [List.nil_append] at hline
          exact absurd (hremark 0x3D (by rw [← hline]; rfl)) (by decide)
      | cons d blanks =>
          obtain ⟨rfl, -⟩ := List.cons.inj hline
          exact absurd (hblanks _ List.mem_cons_self) (by decide)
  | @entry front name _ _ _ _ _ hfront hname =>
      cases front with
      | nil =>
          obtain ⟨d, tail, rfl⟩ := List.exists_cons_of_ne_nil hname.1
          obtain ⟨rfl, -⟩ := List.cons.inj hline
          exact (hname.2 _ List.mem_cons_self).2.1 rfl
      | cons d front =>
          obtain ⟨rfl, -⟩ := List.cons.inj hline
          exact absurd (hfront _ List.mem_cons_self) (by decide)

theorem Documented.words (h : Documented limit line)
    (ht : line.takeWhile (· ≠ (0x23 : CodePoint)) = t) :
    IsBlank t ∨ ∃ name word code, Text.words (t.map spaced) = [name, word] ∧
      DocumentedCode word code ∧ InRange limit code :=
  IsLine.words (fun _ => IsBlank.separates) (fun _ => DocumentedGap.separates)
    (fun _ _ h => isToken_of_spells h.spells) h ht

-- A documented line with a code that is too long.
theorem documented_and_not_accepted (hword : word.IsNumeral)
    (hlong : Text.maxDigits < word.length) :
    Documented .null (0x41 :: 0x20 :: word) ∧ ¬ Accepted .null (0x41 :: 0x20 :: word) := by
  have hname : IsToken [0x41] := by
    refine ⟨List.cons_ne_nil _ _, fun c hc => ?_⟩
    rw [List.mem_singleton.mp hc]
    decide
  have hgap : IsBlank [0x20] := by
    intro c hc
    rw [List.mem_singleton.mp hc]
    decide
  have hnone : IsBlank [] := nofun
  have htoken : IsToken word := isToken_of_spells (Text.spells_of_isNumeral hword)
  constructor
  · have hline : Documented .null ([] ++ ([0x41] ++ ([0x20] ++ (word ++ ([] ++ []))))) :=
      .entry hnone hname (.inl ⟨List.cons_ne_nil _ _, hgap⟩) (.decimal hword) hnone nofun
        ⟨Int.natCast_nonneg _, nofun⟩
    rwa [List.append_nil, List.append_nil] at hline
  · have hsign : (0x23 : CodePoint) ∉ 0x41 :: 0x20 :: word :=
      List.not_mem_cons_of_ne_of_not_mem (by decide)
        (List.not_mem_cons_of_ne_of_not_mem (by decide) htoken.sign_notMem)
    have hcontent : (0x41 :: 0x20 :: word : Text).takeWhile (· ≠ (0x23 : CodePoint)) =
        0x41 :: 0x20 :: word :=
      List.takeWhile_eq_self_iff.mpr fun c hc => decide_eq_true fun h => hsign (h ▸ hc)
    rw [accepted_iff hcontent]
    have hwords : Text.words ((0x41 :: 0x20 :: word).map spaced) = [[0x41], word] :=
      words_spaced_eq_pair_iff.mpr ⟨[], [0x20], [], by simp, nofun,
        ⟨List.cons_ne_nil _ _, hgap.separates⟩, nofun, hname.isWord, htoken.isWord⟩
    rw [hwords]
    rintro (hblank | ⟨name, code, n, hpair, ⟨-, hshort⟩, -⟩)
    · exact absurd (hblank 0x41 List.mem_cons_self) (by decide)
    · obtain ⟨-, rfl⟩ : [0x41] = name ∧ word = code := by simpa using hpair
      exact absurd ((Text.isShort_iff_of_isNumeral hword).mp hshort) (Nat.not_le.mpr hlong)

end Documented

theorem EntryError.located (source : Text) (e : EntryError) :
    source ++ ((":" : Text) ++ (Text.ofNat e.line ++ (": malformed map entry " : Text))) <+:
      e.message source := by
  refine ⟨e.found.quoted ++ ((" (" : Text) ++ (e.cause.message ++ (")" : Text))), ?_⟩
  simp only [message, Text.join, List.flatten_cons, List.flatten_nil, List.append_nil,
    List.append_assoc]

-- A text is read if and only if each of its lines is accepted, as the documented lines
-- are unless their code is too long. Otherwise the first line that is not accepted is
-- reported with its number.
theorem ofText_format (t : Text) (limit : Value) (hlimit : Limit limit) :
    ((∃ map, ofText t limit = .ok map) ↔ ∀ line ∈ t.lines, Accepted limit line) ∧
      ((¬ ∀ line ∈ t.lines, Accepted limit line) →
        ∃ before line after cause, t.lines = before ++ line :: after ∧
          (∀ earlier ∈ before, Accepted limit earlier) ∧ ¬ Accepted limit line ∧
          let e : EntryError := ⟨before.length + 1, Text.strip line, cause⟩
          ofText t limit = .error e ∧ ∀ source : Text,
            e.failure source = .resourceNotFound (e.message source) ∧
              source ++ ((":" : Text) ++ (Text.ofNat (before.length + 1) ++
                (": malformed map entry " : Text))) <+: e.message source) ∧
      ∀ line, Legible limit line → Accepted limit line := by
  have hempty := Parsed.empty limit
  refine ⟨exists_ofText_iff hlimit, fun hnot => ?_, fun _ => Legible.accepted⟩
  rcases addLines_cases hempty hlimit 1 t.lines with ⟨-, hall⟩ | hfail
  · exact absurd hall hnot
  · obtain ⟨before, line, after, cause, hlines, hbefore, hline, herror⟩ := hfail
    rw [Nat.add_comm 1] at herror
    refine ⟨before, line, after, cause, hlines, hbefore, hline, herror, fun source => ⟨?_, ?_⟩⟩
    · exact hempty.addLines_error hlimit herror source
    · exact EntryError.located source ⟨before.length + 1, Text.strip line, cause⟩

theorem ofText_format_commented :
    (∃ map, ofText "C_SAY = 0x0102 # say\n==S_STATUS=+5_00" (.int 0xFFFF) = .ok map) ∧
    ∃ before line after cause, Text.lines "A 1\nB\nC" = before ++ line :: after ∧
      (∀ earlier ∈ before, Accepted .null earlier) ∧ ¬ Accepted .null line ∧
      ofText "A 1\nB\nC" .null = .error ⟨before.length + 1, Text.strip line, cause⟩ := by
  have hread := ofText_format "C_SAY = 0x0102 # say\n==S_STATUS=+5_00" (.int 0xFFFF) (.upTo 0xFFFF)
  have hrefused := ofText_format "A 1\nB\nC" .null .none
  have hrange (code : Int) (h : 0 ≤ code ∧ code ≤ 0xFFFF) : InRange (.int 0xFFFF) code :=
    ⟨h.1, by rintro n ⟨⟩; exact h.2⟩
  have hsay : IsCode "0x0102" 0x0102 :=
    ⟨(Text.hexadecimal?_eq_some_iff (by decide)).mp (by decide +kernel), by decide +kernel⟩
  have hstatus : IsCode "+5_00" 500 :=
    ⟨(Text.integer?_eq_some_iff (by decide)).mp (by decide +kernel), by decide +kernel⟩
  have hlines : Text.lines "C_SAY = 0x0102 # say\n==S_STATUS=+5_00" =
      [("C_SAY = 0x0102 # say" : Text), "==S_STATUS=+5_00"] := by decide +kernel
  refine ⟨hread.1.mpr ?_, ?_⟩
  · rw [hlines]
    simp only [List.forall_mem_cons, accepted_iff rfl]
    refine ⟨.inr ⟨"C_SAY", "0x0102", 0x0102, by decide +kernel, hsay, hrange _ (by decide)⟩,
      .inr ⟨"S_STATUS", "+5_00", 500, by decide +kernel, hstatus, hrange _ (by decide)⟩, by simp⟩
  · obtain ⟨before, line, after, cause, hlines, hbefore, hline, herror, -⟩ :=
      hrefused.2.1 fun hall => by
        obtain ⟨map, hmap⟩ := hrefused.1.mpr hall
        have hfails : ofText "A 1\nB\nC" .null = .error ⟨2, "B", .tooFewWords 1⟩ := by rfl
        rw [hfails] at hmap
        contradiction
    exact ⟨before, line, after, cause, hlines, hbefore, hline, herror⟩

-- Equals signs may stand anywhere, and codes may have signs, but not any number of
-- zeros in front.
theorem ofText_undocumented :
    ¬ ((∃ map, ofText "=A 5" .null = .ok map) ↔
        ∀ line ∈ Text.lines "=A 5", Documented .null line) ∧
      ¬ ((∃ map, ofText "A +5" .null = .ok map) ↔
        ∀ line ∈ Text.lines "A +5", Documented .null line) ∧
      ¬ ((∃ map, ofText (0x41 :: 0x20 :: List.replicate 4301 0x30) .null = .ok map) ↔
        ∀ line ∈ Text.lines (0x41 :: 0x20 :: List.replicate 4301 0x30),
          Documented .null line) := by
  refine ⟨fun h => ?_, fun h => ?_, ?_⟩
  · have hline : Documented .null "=A 5" := h.mp ⟨_, rfl⟩ _ (by decide)
    exact hline.head_ne rfl
  · have hline : Documented .null "A +5" := h.mp ⟨_, rfl⟩ _ (by decide)
    have hcontent : (("A +5" : Text).takeWhile (· ≠ (0x23 : CodePoint))) = "A +5" := by decide
    rcases hline.words hcontent with hblank | ⟨name, word, code, hwords, hcode, -⟩
    · exact absurd (hblank 0x41 (by decide)) (by decide)
    · have hpair : Text.words (("A +5" : Text).map spaced) = ["A", "+5"] := by decide
      rw [hpair] at hwords
      cases hwords
      cases hcode with
      | decimal h => exact absurd h (by decide)
  · have hlength : (List.replicate 4301 (0x30 : CodePoint)).length = 4301 := List.length_replicate
    have hzero : ∀ c ∈ List.replicate 4301 (0x30 : CodePoint), c = 0x30 :=
      fun _ => List.eq_of_mem_replicate
    generalize List.replicate 4301 (0x30 : CodePoint) = zeros at hlength hzero ⊢
    have hword : Text.IsNumeral zeros :=
      ⟨List.ne_nil_of_length_eq_add_one hlength, fun c hc => by rw [hzero c hc]; rfl⟩
    have hlines : Text.lines (0x41 :: 0x20 :: zeros) = [0x41 :: 0x20 :: zeros] := by
      refine Text.lines_of_inLine ?_ (List.cons_ne_nil _ _)
      simp only [Text.InLine, List.forall_mem_cons]
      exact ⟨by decide, by decide, fun c hc => by rw [hzero c hc]; decide⟩
    obtain ⟨hdocumented, hrefused⟩ :=
      documented_and_not_accepted hword (hlength ▸ Nat.lt_succ_self 4300)
    rw [exists_ofText_iff .none, hlines]
    intro h
    exact hrefused (h.mpr (List.forall_mem_singleton.mpr hdocumented) _ (List.mem_singleton_self _))

end EnumMap

end PacketCodec
