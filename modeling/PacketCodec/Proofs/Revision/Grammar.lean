import PacketCodec.Proofs.Except
import PacketCodec.Proofs.Text.Pattern
import PacketCodec.Revision.Basic

namespace PacketCodec

namespace Revision

-- The regular expression `((.+?)-)?([0-9]+)(\.([0-9]+))?(/([0-9]+))?`.
def pattern : Pattern :=
  .seq (.optional (.group 1 (.seq (.line 2) (.exactly [0x2D]))))
    (.seq (.digits 3)
      (.seq (.optional (.group 4 (.seq (.exactly [0x2E]) (.digits 5))))
        (.optional (.group 6 (.seq (.exactly [0x2F]) (.digits 7))))))

def ofGroups (groups : Pattern.Groups) : Spelling where
  region := groups.lookup 2
  major := (groups.lookup 3).getD []
  minor := groups.lookup 5
  sysmsg := groups.lookup 7

-- A number behind a mark, which may be left out.
def markedText (mark : CodePoint) (digits : Option Text) : Text :=
  digits.elim [] (mark :: ·)

namespace Spelling

-- The numbers, which stand behind the dash if there is a region.
def numbers (s : Spelling) : Text :=
  s.major ++ (markedText 0x2E s.minor ++ markedText 0x2F s.sysmsg)

def text (s : Spelling) : Text :=
  match s.region with
  | none => s.numbers
  | some region => region ++ 0x2D :: s.numbers

-- A region is not empty and stays on one line, and numbers are in ASCII digits.
structure Proper (s : Spelling) : Prop where
  region : ∀ region ∈ s.region, region.OneLine
  major : s.major.IsNumeral
  minor : ∀ minor ∈ s.minor, minor.IsNumeral
  sysmsg : ∀ sysmsg ∈ s.sysmsg, sysmsg.IsNumeral

-- The revision that is meant, however many digits the numbers have. A minor
-- version that is left out is zero.
def revision (s : Spelling) : Revision where
  region := s.region
  major := Text.toNat s.major
  minor := s.minor.elim 0 Text.toNat
  sysmsg := s.sysmsg.map Text.toNat

-- The digits of the numbers, in the order in which they are read.
def written (s : Spelling) : List Text :=
  s.major :: (s.minor.toList ++ s.sysmsg.toList)

-- What the pattern keeps of it.
def groups (s : Spelling) : Pattern.Groups :=
  s.region.elim [] (fun region => [(1, region ++ [0x2D]), (2, region)]) ++
    ((3, s.major) ::
      (s.minor.elim [] (fun minor => [(4, 0x2E :: minor), (5, minor)]) ++
        s.sysmsg.elim [] (fun sysmsg => [(6, 0x2F :: sysmsg), (7, sysmsg)])))

-- How a revision is printed.
def ofRevision (r : Revision) : Spelling where
  region := r.region
  major := Text.ofNat r.major
  minor := if r.minor = 0 then none else some (Text.ofNat r.minor)
  sysmsg := r.sysmsg.map Text.ofNat

end Spelling

variable {mark : CodePoint} {t rest : Text} {number : Option Text} {s : Spelling} {r : Revision}

section Limit

namespace Spelling

-- The numbers are read one after the other.
theorem read_eq (s : Spelling) :
    s.read = (Text.firstOverlong? s.written).elim (.ok s.revision)
      fun digits => .error ⟨digits.length⟩ := by
  obtain ⟨region, major, minor, sysmsg⟩ := s
  have hsysmsg (value : ℕ) :
      (do return (⟨region, major.toNat, value, ← sysmsg.mapM Text.readDigits⟩ : Revision)) =
        (Text.firstOverlong? sysmsg.toList).elim
          (.ok ⟨region, major.toNat, value, sysmsg.map Text.toNat⟩)
          fun digits => .error ⟨digits.length⟩ := by
    cases sysmsg with
    | none => rfl
    | some digits =>
        have hread : (do return (⟨region, major.toNat, value,
              ← (some digits).mapM Text.readDigits⟩ : Revision)) =
            Text.readDigits digits >>= fun n => .ok ⟨region, major.toNat, value, some n⟩ := by
          change (Except.map some (Text.readDigits digits) >>= _) = _
          cases Text.readDigits digits <;> rfl
        exact hread.trans (Text.readDigits_bind rfl)
  refine Text.readDigits_bind ?_
  cases minor with
  | none => exact hsysmsg 0
  | some digits => exact Text.readDigits_bind (hsysmsg digits.toNat)

theorem read_eq_ok_iff : s.read = .ok r ↔
    (∀ digits ∈ s.written, digits.length ≤ Text.maxDigits) ∧ s.revision = r := by
  rw [read_eq, ← Text.firstOverlong?_eq_none_iff]
  cases Text.firstOverlong? s.written <;> simp

theorem mapError_read_eq_error_iff {e : Failure} : s.read.mapError .overlong = .error e ↔
    ∃ digits ∈ Text.firstOverlong? s.written, e = .overlong ⟨digits.length⟩ := by
  rw [read_eq]
  cases Text.firstOverlong? s.written <;> simp [mapError_ok, mapError_error, eq_comm]

-- A number that can be read can be written.
theorem Proper.isWritable_revision (h : s.Proper)
    (hshort : ∀ digits ∈ s.written, digits.length ≤ Text.maxDigits) :
    s.revision.isWritable = true := by
  obtain ⟨region, major, minor, sysmsg⟩ := s
  simp only [written, List.forall_mem_cons, List.forall_mem_append, Option.mem_toList] at hshort
  obtain ⟨hmajor, hminor, hsysmsg⟩ := hshort
  rw [isWritable, Bool.and_eq_true, Bool.and_eq_true]
  refine ⟨⟨h.major.isWritable_toNat hmajor, ?_⟩, ?_⟩
  · cases minor with
    | none => exact (by decide : Text.isWritable 0 = true)
    | some digits => exact (h.minor digits rfl).isWritable_toNat (hminor digits rfl)
  · cases sysmsg with
    | none => rfl
    | some digits => exact (h.sysmsg digits rfl).isWritable_toNat (hsysmsg digits rfl)

end Spelling

end Limit

section Reading

theorem marked?_of_head (h : t.head? ≠ some mark) : marked? mark t = none := by
  cases t with
  | nil => rfl
  | cons c rest =>
      have hc : c ≠ mark := fun heq => h (by rw [heq]; rfl)
      rw [marked?, if_neg fun hboth => hc hboth.1]

theorem marked?_append (hnumber : ∀ digits ∈ number, digits.IsNumeral)
    (hrest : ∀ c ∈ rest.head?, c.isAsciiDigit = false ∧ c ≠ mark) :
    marked? mark (markedText mark number ++ rest) =
      number.map fun digits => (digits, rest) := by
  cases number with
  | none => exact marked?_of_head fun h => (hrest mark h).2 rfl
  | some digits =>
      have hdigits := hnumber digits rfl
      have hrun := hdigits.takeWhile fun c hc => (hrest c hc).1
      simp only [markedText, Option.elim_some, List.cons_append, marked?, hrun, Option.map_some,
        List.drop_left]
      rw [if_pos ⟨trivial, hdigits.1⟩]

-- What is read behind a mark stands there, and what is left stands behind it.
theorem exists_marked (mark : CodePoint) (t : Text) :
    ∃ number : Option Text, (∀ digits ∈ number, digits.IsNumeral) ∧
      markedText mark number ++ (marked? mark t).elim t (·.2) = t ∧
      (marked? mark t).map (·.1) = number := by
  cases t with
  | nil => exact ⟨none, nofun, rfl, rfl⟩
  | cons c rest =>
      by_cases h : c = mark ∧ rest.takeWhile CodePoint.isAsciiDigit ≠ []
      · refine ⟨some (rest.takeWhile CodePoint.isAsciiDigit), ?_, ?_, ?_⟩
        · rintro _ ⟨⟩
          exact Text.isNumeral_takeWhile h.2
        · rw [marked?, if_pos h, markedText, h.1]
          exact congrArg (mark :: ·) (List.prefix_iff_eq_append.mp (List.takeWhile_prefix _))
        · rw [marked?, if_pos h]
          rfl
      · refine ⟨none, nofun, ?_, ?_⟩ <;> rw [marked?, if_neg h] <;> rfl

theorem numbers?_of_proper (h : s.Proper) : numbers? s.region s.numbers = some s := by
  have hsysmsg : ∀ c ∈ (markedText 0x2F s.sysmsg).head?, c.isAsciiDigit = false ∧ c ≠ 0x2E := by
    cases s.sysmsg with
    | none => nofun
    | some _ =>
        rintro _ ⟨⟩
        decide
  have hminor : ∀ c ∈ (markedText 0x2E s.minor ++ markedText 0x2F s.sysmsg).head?,
      c.isAsciiDigit = false := by
    cases s.minor with
    | none => exact fun c hc => (hsysmsg c hc).1
    | some _ =>
        rintro _ ⟨⟩
        decide
  have hreadMinor := marked?_append h.minor hsysmsg
  have hreadSysmsg : marked? 0x2F (markedText 0x2F s.sysmsg ++ []) = _ :=
    marked?_append h.sysmsg nofun
  rw [List.append_nil] at hreadSysmsg
  have hafterMinor : (s.minor.map fun digits => (digits, markedText 0x2F s.sysmsg)).elim
      (markedText 0x2E s.minor ++ markedText 0x2F s.sysmsg) (·.2) = markedText 0x2F s.sysmsg := by
    cases s.minor <;> rfl
  have hafterSysmsg : (s.sysmsg.map fun digits => (digits, ([] : Text))).elim
      (markedText 0x2F s.sysmsg) (·.2) = [] := by
    cases s.sysmsg <;> rfl
  have hfst : ∀ (number : Option Text) (after : Text),
      (number.map fun digits => (digits, after)).map (·.1) = number := by
    rintro (_ | digits) after <;> rfl
  simp only [numbers?, Spelling.numbers, h.major.takeWhile hminor, List.drop_left, hreadMinor,
    hafterMinor, hreadSysmsg, hafterSysmsg, hfst]
  exact if_pos ⟨h.major.1, trivial⟩

theorem proper_of_numbers? {region : Option Text} (h : numbers? region t = some s)
    (hregion : ∀ text ∈ region, text.OneLine) :
    s.Proper ∧ s.numbers = t ∧ s.region = region := by
  have hmajor : t.takeWhile CodePoint.isAsciiDigit ++
      t.drop (t.takeWhile CodePoint.isAsciiDigit).length = t :=
    List.prefix_iff_eq_append.mp (List.takeWhile_prefix _)
  have hnumeral := Text.isNumeral_takeWhile (t := t)
  simp only [numbers?] at h
  generalize t.takeWhile CodePoint.isAsciiDigit = major at h hmajor hnumeral
  generalize t.drop major.length = afterMajor at h hmajor
  obtain ⟨minor, hminor, hsplit, hread⟩ := exists_marked 0x2E afterMajor
  obtain ⟨sysmsg, hsysmsg, hsplit', hread'⟩ :=
    exists_marked 0x2F ((marked? 0x2E afterMajor).elim afterMajor (·.2))
  split at h
  next hall =>
    obtain ⟨hdigits, hend⟩ := hall
    rw [hread, hread', Option.some.injEq] at h
    subst h
    rw [hend, List.append_nil] at hsplit'
    rw [← hsplit'] at hsplit
    exact ⟨⟨hregion, hnumeral hdigits, hminor, hsysmsg⟩, by rw [Spelling.numbers, hsplit, hmajor],
      rfl⟩
  next => contradiction

end Reading

theorem Spelling.Proper.notMem_numbers (h : s.Proper) : 0x2D ∉ s.numbers := by
  have hmarked : ∀ (mark : CodePoint) (number : Option Text), 0x2D ≠ mark →
      (∀ digits ∈ number, digits.IsNumeral) → 0x2D ∉ markedText mark number := by
    intro mark number hmark hnumber
    cases number with
    | none => nofun
    | some digits =>
        exact List.not_mem_cons_of_ne_of_not_mem hmark ((hnumber digits rfl).notMem (by decide))
  rw [numbers, List.mem_append, List.mem_append, not_or, not_or]
  exact ⟨h.major.notMem (by decide), hmarked _ _ (by decide) h.minor,
    hmarked _ _ (by decide) h.sysmsg⟩

-- The region ends at the last dash, since there is none in the numbers.
theorem parse?_of_proper (h : s.Proper) : parse? s.text = some s := by
  have hnumbers := numbers?_of_proper h
  cases hregion : s.region with
  | none =>
      have htext : s.text = s.numbers := by rw [Spelling.text, hregion]
      rw [htext, parse?, Text.splitLast_eq_none_iff.mpr h.notMem_numbers]
      simp only
      rw [← hregion, hnumbers]
  | some region =>
      have htext : s.text = region ++ 0x2D :: s.numbers := by rw [Spelling.text, hregion]
      obtain ⟨hne, hline⟩ := h.region region hregion
      rw [htext, parse?, Text.splitLast_append h.notMem_numbers]
      simp only [hne, hline, or_self, if_false]
      rw [← hregion, hnumbers]

theorem parse?_eq_some_iff : parse? t = some s ↔ s.Proper ∧ s.text = t := by
  refine ⟨fun h => ?_, fun ⟨hs, htext⟩ => htext ▸ parse?_of_proper hs⟩
  rw [parse?] at h
  split at h
  next =>
    obtain ⟨hs, hnumbers, hregion⟩ := proper_of_numbers? h nofun
    exact ⟨hs, by rw [Spelling.text, hregion, hnumbers]⟩
  next region numbers hsplit =>
    split at h
    · contradiction
    next hproper =>
      obtain ⟨hs, hnumbers, hregion⟩ := proper_of_numbers? h (by
        rintro _ ⟨⟩
        exact not_or.mp hproper)
      exact ⟨hs, by rw [Spelling.text, hregion, hnumbers, (Text.of_splitLast hsplit).1]⟩

theorem parse?_eq_none_iff : parse? t = none ↔ ¬∃ s : Spelling, s.Proper ∧ s.text = t := by
  rw [Option.eq_none_iff_forall_ne_some]
  simp only [ne_eq, parse?_eq_some_iff, not_exists]

section Matching

theorem takes_marked_iff {n n' : ℕ} {groups : Pattern.Groups} :
    (Pattern.optional (.group n (.seq (.exactly [mark]) (.digits n')))).Takes t groups ↔
      ∃ number : Option Text, (∀ digits ∈ number, digits.IsNumeral) ∧ markedText mark number = t ∧
        number.elim [] (fun digits => [(n, mark :: digits), (n', digits)]) = groups := by
  constructor
  · rintro (⟨_, ⟨_, digits, _, _, ⟨rfl, rfl⟩, hdigits, rfl, rfl⟩, rfl⟩ | ⟨rfl, rfl⟩)
    · obtain ⟨hnumeral, rfl⟩ := Pattern.takes_digits_iff.mp hdigits
      refine ⟨some digits, ?_, rfl, rfl⟩
      rintro _ ⟨⟩
      exact hnumeral
    · exact ⟨none, nofun, rfl, rfl⟩
  · rintro ⟨number, hnumber, rfl, rfl⟩
    cases number with
    | none => exact .inr ⟨rfl, rfl⟩
    | some digits =>
        have hdigits := Pattern.takes_digits_iff (n := n').mpr ⟨hnumber digits rfl, rfl⟩
        exact .inl ⟨_, ⟨[mark], digits, _, _, ⟨rfl, rfl⟩, hdigits, rfl, rfl⟩, rfl⟩

theorem takes_region_iff {groups : Pattern.Groups} :
    (Pattern.optional (.group 1 (.seq (.line 2) (.exactly [0x2D])))).Takes t groups ↔
      ∃ region : Option Text, (∀ text ∈ region, text.OneLine) ∧
        region.elim [] (· ++ [0x2D]) = t ∧
        region.elim [] (fun text => [(1, text ++ [0x2D]), (2, text)]) = groups := by
  constructor
  · rintro (⟨_, ⟨region, _, _, _, hline, ⟨rfl, rfl⟩, rfl, rfl⟩, rfl⟩ | ⟨rfl, rfl⟩)
    · obtain ⟨hregion, rfl⟩ := Pattern.takes_line_iff.mp hline
      refine ⟨some region, ?_, rfl, rfl⟩
      rintro _ ⟨⟩
      exact hregion
    · exact ⟨none, nofun, rfl, rfl⟩
  · rintro ⟨region, hregion, rfl, rfl⟩
    cases region with
    | none => exact .inr ⟨rfl, rfl⟩
    | some region =>
        have hline := Pattern.takes_line_iff (n := 2).mpr ⟨hregion region rfl, rfl⟩
        exact .inl ⟨_, ⟨region, _, _, _, hline, ⟨rfl, rfl⟩, rfl, rfl⟩, rfl⟩

-- The ways in which the pattern takes a text are its spellings.
theorem takes_pattern_iff {groups : Pattern.Groups} :
    pattern.Takes t groups ↔ ∃ s : Spelling, s.Proper ∧ s.text = t ∧ s.groups = groups := by
  have htext : ∀ s : Spelling, s.region.elim [] (· ++ [0x2D]) ++ s.numbers = s.text := by
    rintro ⟨_ | region, major, minor, sysmsg⟩
    · rfl
    · exact List.append_assoc ..
  simp only [pattern, Pattern.takes_seq_iff, takes_region_iff, takes_marked_iff,
    Pattern.takes_digits_iff]
  constructor
  · rintro ⟨_, _, _, _, ⟨region, hregion, rfl, rfl⟩, ⟨major, _, _, _, ⟨hmajor, rfl⟩,
      ⟨_, _, _, _, ⟨minor, hminor, rfl, rfl⟩, ⟨sysmsg, hsysmsg, rfl, rfl⟩, rfl, rfl⟩, rfl, rfl⟩,
      rfl, rfl⟩
    exact ⟨⟨region, major, minor, sysmsg⟩, ⟨hregion, hmajor, hminor, hsysmsg⟩, (htext _).symm, rfl⟩
  · rintro ⟨s, h, rfl, rfl⟩
    exact ⟨_, s.numbers, _, _, ⟨s.region, h.region, rfl, rfl⟩, ⟨s.major, _, _, _, ⟨h.major, rfl⟩,
      ⟨_, _, _, _, ⟨s.minor, h.minor, rfl, rfl⟩, ⟨s.sysmsg, h.sysmsg, rfl, rfl⟩, rfl, rfl⟩,
      rfl, rfl⟩, htext s, rfl⟩

theorem ofGroups_groups (s : Spelling) : ofGroups s.groups = s := by
  obtain ⟨region, major, minor, sysmsg⟩ := s
  cases region <;> cases minor <;> cases sysmsg <;> rfl

-- The lazy region and the backtracking come to the same as cutting at the last
-- dash.
theorem fullMatch?_pattern (t : Text) : (pattern.fullMatch? t).map ofGroups = parse? t := by
  refine Pattern.fullMatch?_map (fun groups htakes => ?_) fun hnone => ?_
  · obtain ⟨s, hs, rfl, rfl⟩ := takes_pattern_iff.mp htakes
    rw [parse?_of_proper hs, ofGroups_groups]
  · refine parse?_eq_none_iff.mpr ?_
    rintro ⟨s, hs, htext⟩
    exact hnone s.groups (takes_pattern_iff.mpr ⟨s, hs, htext, rfl⟩)

example : (pattern.fullMatch? "a-1-2.3").map ofGroups = some ⟨some "a-1", "2", some "3", none⟩ := by
  decide +kernel

end Matching

section Printing

theorem revision_ofRevision (r : Revision) : (Spelling.ofRevision r).revision = r := by
  obtain ⟨region, major, minor, sysmsg⟩ := r
  have hminor :
      (if minor = 0 then none else some (Text.ofNat minor)).elim 0 Text.toNat = minor := by
    split
    · rename_i h
      exact h.symm
    · exact Text.toNat_ofNat minor
  have hsysmsg : (sysmsg.map Text.ofNat).map Text.toNat = sysmsg := by
    cases sysmsg with
    | none => rfl
    | some version => exact congrArg some (Text.toNat_ofNat version)
  simp only [Spelling.revision, Spelling.ofRevision, Text.toNat_ofNat, hminor, hsysmsg]

theorem proper_ofRevision (h : ∀ region ∈ r.region, region.OneLine) :
    (Spelling.ofRevision r).Proper where
  region := h
  major := Text.isNumeral_ofNat r.major
  minor := by
    intro digits hdigits
    simp only [Spelling.ofRevision] at hdigits
    split at hdigits
    · contradiction
    · cases hdigits
      exact Text.isNumeral_ofNat r.minor
  sysmsg := by
    intro digits hdigits
    obtain ⟨version, -, rfl⟩ := Option.map_eq_some_iff.mp hdigits
    exact Text.isNumeral_ofNat version

theorem text_ofRevision (h : r.region ≠ some []) : (Spelling.ofRevision r).text = r.text := by
  obtain ⟨region, major, minor, sysmsg⟩ := r
  have hdash : Text.ofString "-" = [0x2D] := rfl
  have hdot : Text.ofString "." = [0x2E] := rfl
  have hslash : Text.ofString "/" = [0x2F] := rfl
  rcases region with _ | _ | ⟨c, region⟩
  · cases sysmsg <;> by_cases hminor : minor = 0 <;>
      simp [Spelling.text, Spelling.numbers, Spelling.ofRevision, markedText, Revision.text,
        Text.join, hminor, hdot, hslash]
  · exact absurd rfl h
  · cases sysmsg <;> by_cases hminor : minor = 0 <;>
      simp [Spelling.text, Spelling.numbers, Spelling.ofRevision, markedText, Revision.text,
        Text.join, hminor, hdash, hdot, hslash]

-- A revision whose numbers can be written is read back from what it is printed as.
theorem read_ofRevision (h : r.isWritable = true) : (Spelling.ofRevision r).read = .ok r := by
  have hlength {n : ℕ} (hn : Text.isWritable n = true) : (Text.ofNat n).length ≤ Text.maxDigits := by
    rw [Text.ofNat, List.length_map]
    exact of_decide_eq_true hn
  rw [isWritable, Bool.and_eq_true, Bool.and_eq_true] at h
  obtain ⟨⟨hmajor, hminor⟩, hsysmsg⟩ := h
  have hshort : Text.firstOverlong? (Spelling.ofRevision r).written = none := by
    rw [Text.firstOverlong?_eq_none_iff]
    simp only [Spelling.written, Spelling.ofRevision, List.forall_mem_cons, List.forall_mem_append,
      Option.mem_toList]
    refine ⟨hlength hmajor, ?_, ?_⟩
    · intro digits hdigits
      split at hdigits
      · contradiction
      · cases hdigits
        exact hlength hminor
    · intro digits hdigits
      obtain ⟨version, hversion, rfl⟩ := Option.map_eq_some_iff.mp hdigits
      rw [hversion] at hsysmsg
      exact hlength hsysmsg
  rw [Spelling.read_eq, hshort]
  exact congrArg Except.ok (revision_ofRevision r)

end Printing

theorem ofValue_eq_ok_iff : ofValue (.text t) = .ok r ↔
    ∃ s : Spelling, s.Proper ∧ s.text = t ∧
      (∀ digits ∈ s.written, digits.length ≤ Text.maxDigits) ∧ s.revision = r := by
  have hread : ofValue (.text t) = .ok r ↔ ∃ s, parse? t = some s ∧ s.read = .ok r := by
    rw [ofValue]
    cases parse? t <;> simp [mapError_eq_ok_iff]
  simp only [hread, parse?_eq_some_iff, Spelling.read_eq_ok_iff, and_assoc]

theorem ofValue_eq_error_iff {e : Failure} : ofValue (.text t) = .error e ↔
    ((¬∃ s : Spelling, s.Proper ∧ s.text = t) ∧ e = .invalidRevision (.text t)) ∨
      ∃ s : Spelling, s.Proper ∧ s.text = t ∧
        ∃ digits ∈ Text.firstOverlong? s.written, e = .overlong ⟨digits.length⟩ := by
  have hread : ofValue (.text t) = .error e ↔
      (parse? t = none ∧ e = .invalidRevision (.text t)) ∨
        ∃ s, parse? t = some s ∧ s.read.mapError .overlong = .error e := by
    rw [ofValue]
    cases parse? t <;> simp [eq_comm]
  rw [hread, parse?_eq_none_iff]
  simp only [parse?_eq_some_iff, Spelling.mapError_read_eq_error_iff, and_assoc]

-- A text is a revision if and only if the pattern matches it, which is if and
-- only if what stands behind its last dash, or all of it if there is none, are
-- the numbers of a revision, what stands before the last dash is a region, and no
-- number has too many digits to be read. The revision is what these parts say, and
-- what it is printed as says the same. A text that does not match is not a revision,
-- and of one that does the first number with too many digits is reported.
theorem ofValue_text (t : Text) :
    (ofValue (.text t) =
      match pattern.fullMatch? t with
      | some groups => (ofGroups groups).read.mapError .overlong
      | none => .error (.invalidRevision (.text t))) ∧
    (∀ r, ofValue (.text t) = .ok r ↔
      ∃ s : Spelling, s.Proper ∧ s.text = t ∧ 0x2D ∉ s.numbers ∧
        (∀ digits ∈ s.written, digits.length ≤ Text.maxDigits) ∧ s.revision = r) ∧
    (∀ e, ofValue (.text t) = .error e ↔
      ((¬∃ s : Spelling, s.Proper ∧ s.text = t) ∧ e = .invalidRevision (.text t)) ∨
      ∃ s : Spelling, s.Proper ∧ s.text = t ∧
        ∃ digits ∈ Text.firstOverlong? s.written, e = .overlong ⟨digits.length⟩) ∧
    ∀ r, ofValue (.text t) = .ok r → r.isWritable = true ∧ ofValue (.text r.text) = .ok r := by
  refine ⟨?_, fun r => ?_, fun e => ofValue_eq_error_iff, fun r h => ?_⟩
  · rw [ofValue, ← fullMatch?_pattern]
    cases pattern.fullMatch? t <;> rfl
  · rw [ofValue_eq_ok_iff]
    constructor
    · rintro ⟨s, hs, htext, hshort, hrevision⟩
      exact ⟨s, hs, htext, hs.notMem_numbers, hshort, hrevision⟩
    · rintro ⟨s, hs, htext, -, hshort, hrevision⟩
      exact ⟨s, hs, htext, hshort, hrevision⟩
  · obtain ⟨s, hs, -, hshort, rfl⟩ := ofValue_eq_ok_iff.mp h
    have hwritable := hs.isWritable_revision hshort
    have hregion : s.revision.region ≠ some [] := fun heq => (hs.region [] heq).1 rfl
    refine ⟨hwritable, ?_⟩
    rw [← text_ofRevision hregion, ofValue, parse?_of_proper (proper_ofRevision hs.region)]
    exact mapError_eq_ok_iff.mpr (read_ofRevision hwritable)

-- A region may look like a revision itself, and zeros in front are not printed.
theorem ofValue_text_dashes :
    ofValue (.text "EU-1.2-04.0/0") = .ok ⟨some "EU-1.2", 4, 0, some 0⟩ ∧
      ofValue (.text "EU-1.2-4/0") = .ok ⟨some "EU-1.2", 4, 0, some 0⟩ := by
  have hproper : (⟨some "EU-1.2", "04", some "0", some "0"⟩ : Spelling).Proper :=
    ⟨by decide +kernel, by decide +kernel, by decide +kernel, by decide +kernel⟩
  have h : ofValue (.text "EU-1.2-04.0/0") = .ok ⟨some "EU-1.2", 4, 0, some 0⟩ :=
    ((ofValue_text _).2.1 _).mpr ⟨_, hproper, rfl, by decide, by decide +kernel, rfl⟩
  exact ⟨h, ((ofValue_text _).2.2.2 _ h).2⟩

-- Zeros in front are digits as well, so that not every way of writing a revision
-- is read.
theorem ofValue_overlong :
    (∃ s : Spelling, s.Proper ∧ s.text = List.replicate 4301 0x30 ∧ 0x2D ∉ s.numbers) ∧
      ofValue (.text (List.replicate 4301 0x30)) = .error (.overlong ⟨4301⟩) := by
  have hdigit : ∀ c ∈ List.replicate 4301 (0x30 : CodePoint), c.isAsciiDigit = true := by
    intro c hc
    rw [List.eq_of_mem_replicate hc]
    rfl
  have hlength : (List.replicate 4301 (0x30 : CodePoint)).length = 4301 := List.length_replicate
  generalize List.replicate 4301 (0x30 : CodePoint) = zeros at hdigit hlength ⊢
  have hnumeral : Text.IsNumeral zeros := ⟨List.ne_nil_of_length_eq_add_one hlength, hdigit⟩
  have hproper : (⟨none, zeros, none, none⟩ : Spelling).Proper := ⟨nofun, hnumeral, nofun, nofun⟩
  have htext : (⟨none, zeros, none, none⟩ : Spelling).text = zeros := List.append_nil zeros
  have hlong : Text.maxDigits < zeros.length := hlength ▸ Nat.lt_succ_self 4300
  have hfirst : zeros ∈ Text.firstOverlong? [zeros] :=
    List.find?_cons_of_pos (decide_eq_true hlong)
  refine ⟨⟨_, hproper, htext, hproper.notMem_numbers⟩, ofValue_eq_error_iff.mpr (.inr ?_)⟩
  exact ⟨_, hproper, htext, zeros, hfirst, by rw [hlength]⟩

end Revision

end PacketCodec
