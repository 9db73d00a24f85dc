import PacketCodec.Proofs.Text.Blank
import PacketCodec.Proofs.Text.Decimal
import PacketCodec.Text.Literal

namespace PacketCodec

namespace CodePoint

variable {base digit : Nat} {c : CodePoint}

theorem digitOf?_eq_none_of_not_digit (hletter : ¬(0x41 ≤ c.val ∧ c.val ≤ 0x5A))
    (hsmall : ¬(0x61 ≤ c.val ∧ c.val ≤ 0x7A)) (h : c.digit? = none) : c.digitOf? base = none := by
  rw [digitOf?, if_neg hletter, if_neg hsmall, h]
  rfl

@[simp] theorem digitOf?_underscore : digitOf? base 0x5F = none :=
  digitOf?_eq_none_of_not_digit (by decide) (by decide) (by decide)

theorem digitOf?_equals : digitOf? base 0x3D = none :=
  digitOf?_eq_none_of_not_digit (by decide) (by decide) (by decide)

theorem digitOf?_hash : digitOf? base 0x23 = none :=
  digitOf?_eq_none_of_not_digit (by decide) (by decide) (by decide)

-- No script has its digits among the blanks.
theorem digit?_of_isBlank (h : c.isBlank = true) : c.digit? = none := by
  have hapart : ∀ start ∈ digitZeros, ∀ range ∈ blankRanges,
      start + 9 < range.1 ∨ range.2 < start := by decide
  obtain ⟨range, hrange, hin⟩ := List.any_eq_true.mp h
  rw [digit?, Option.map_eq_none_iff, List.find?_eq_none]
  intro start hstart hdigit
  have := hapart start hstart range hrange
  simp only [Bool.and_eq_true, decide_eq_true_eq] at hin hdigit
  omega

theorem digitOf?_of_isBlank (h : c.isBlank = true) : c.digitOf? base = none := by
  have hletters : ∀ range ∈ blankRanges, (range.2 < 0x41 ∨ 0x5A < range.1) ∧
      (range.2 < 0x61 ∨ 0x7A < range.1) := by decide
  obtain ⟨range, hrange, hin⟩ := List.any_eq_true.mp h
  have := hletters range hrange
  simp only [Bool.and_eq_true, decide_eq_true_eq] at hin
  exact digitOf?_eq_none_of_not_digit (by omega) (by omega) (digit?_of_isBlank h)

theorem digit?_of_isAsciiDigit (h : c.isAsciiDigit = true) : c.digit? = some (c.val - 0x30) := by
  have hzero : digitZeros.find? (fun start => start ≤ c.val && c.val ≤ start + 9) = some 0x30 :=
    List.find?_cons_of_pos h
  rw [digit?, hzero]
  rfl

theorem digitOf?_of_isAsciiDigit (h : c.isAsciiDigit = true) (hbase : 10 ≤ base) :
    c.digitOf? base = some (c.val - 0x30) := by
  have hrange : 0x30 ≤ c.val ∧ c.val ≤ 0x39 := by simpa [isAsciiDigit] using h
  rw [digitOf?, if_neg (by omega), if_neg (by omega), digit?_of_isAsciiDigit h]
  exact Option.filter_some_pos (decide_eq_true (by omega))

-- The ASCII digits of base 16, and their values.
def isHexDigit (c : CodePoint) : Bool :=
  c.isAsciiDigit || (0x41 ≤ c.val && c.val ≤ 0x46) || (0x61 ≤ c.val && c.val ≤ 0x66)

def hexValue (c : CodePoint) : Nat :=
  if c.val ≤ 0x39 then c.val - 0x30 else if c.val ≤ 0x46 then c.val - 0x37 else c.val - 0x57

theorem digitOf?_of_isHexDigit (h : c.isHexDigit = true) :
    c.digitOf? 16 = some c.hexValue := by
  simp only [isHexDigit, Bool.or_eq_true, Bool.and_eq_true, decide_eq_true_eq] at h
  rcases h with (hdigit | hupper) | hlower
  · have hrange : 0x30 ≤ c.val ∧ c.val ≤ 0x39 := by simpa [isAsciiDigit] using hdigit
    rw [digitOf?_of_isAsciiDigit hdigit (by decide), hexValue, if_pos hrange.2]
  · have hvalue : c.val - 0x41 + 10 = c.val - 0x37 := by omega
    rw [digitOf?, if_pos (by omega), hexValue, if_neg (by omega), if_pos hupper.2, ← hvalue]
    exact Option.filter_some_pos (decide_eq_true (by omega))
  · have hvalue : c.val - 0x61 + 10 = c.val - 0x57 := by omega
    rw [digitOf?, if_neg (by omega), if_pos (by omega), hexValue, if_neg (by omega),
      if_neg (by omega), ← hvalue]
    exact Option.filter_some_pos (decide_eq_true (by omega))

end CodePoint

namespace Text

def hexValue (digits : Text) : Nat :=
  digits.foldl (fun value c => value * 16 + c.hexValue) 0

-- A run of digits, each with at most one underscore in front of it.
inductive DigitRun (base : Nat) : Text → List Nat → Prop
  | nil : DigitRun base [] []
  | digit {c : CodePoint} {digit : Nat} {t : Text} {digits : List Nat}
      (h : c.digitOf? base = some digit) (ht : DigitRun base t digits) :
      DigitRun base (c :: t) (digit :: digits)
  | grouped {c : CodePoint} {digit : Nat} {t : Text} {digits : List Nat}
      (h : c.digitOf? base = some digit) (ht : DigitRun base t digits) :
      DigitRun base (0x5F :: c :: t) (digit :: digits)

-- A number with more digits behind it.
def extended (base value : Nat) (digits : List Nat) : Nat :=
  digits.foldl (fun value digit => value * base + digit) value

-- Decimal digits without an underscore in front of them, and their number.
inductive Decimal : Text → Nat → Prop
  | mk {c : CodePoint} {digit : Nat} {t : Text} {digits : List Nat}
      (h : c.digitOf? 10 = some digit) (ht : DigitRun 10 t digits) :
      Decimal (c :: t) (extended 10 digit digits)

-- The spellings of whole numbers: decimal digits with or without a sign, and
-- hexadecimal digits behind their mark, where an underscore may follow the mark.
inductive Spells : Text → Int → Prop
  | plain {t : Text} {n : Nat} (h : Decimal t n) : Spells t n
  | positive {t : Text} {n : Nat} (h : Decimal t n) : Spells (0x2B :: t) n
  | negative {t : Text} {n : Nat} (h : Decimal t n) : Spells (0x2D :: t) (-(n : Int))
  | hexadecimal {x : CodePoint} {t : Text} {digits : List Nat} (hx : x = 0x78 ∨ x = 0x58)
      (hne : t ≠ []) (ht : DigitRun 16 t digits) : Spells (0x30 :: x :: t) (extended 16 0 digits)

-- Few enough decimal digits to be read, underscores not counted. Of hexadecimal
-- digits there can be any number.
def IsShort (word : Text) : Prop :=
  word.isHexMarked = false → (word.unsigned.filter (· ≠ 0x5F)).length ≤ maxDigits

instance (word : Text) : Decidable word.IsShort :=
  inferInstanceAs (Decidable (_ → _))

variable {base value n : Nat} {code : Int} {t word : Text} {digits : List Nat} {c x : CodePoint}

theorem moreDigits?_digit {digit : Nat} (h : c.digitOf? base = some digit) (value : Nat)
    (t : Text) : moreDigits? base value (c :: t) = moreDigits? base (value * base + digit) t := by
  have hc : c ≠ 0x5F := by
    rintro rfl
    rw [CodePoint.digitOf?_underscore] at h
    contradiction
  rw [moreDigits?.eq_def]
  simp only [if_neg hc, h]

theorem moreDigits?_grouped {digit : Nat} (h : c.digitOf? base = some digit) (value : Nat)
    (t : Text) :
    moreDigits? base value (0x5F :: c :: t) = moreDigits? base (value * base + digit) t := by
  rw [moreDigits?.eq_def]
  simp only [if_true, h]

theorem moreDigits?_eq_some_iff :
    moreDigits? base value t = some n ↔
      ∃ digits, DigitRun base t digits ∧ n = extended base value digits := by
  constructor
  · intro h
    induction value, t using moreDigits?.induct base with
    | case1 value =>
        cases h
        exact ⟨[], .nil, rfl⟩
    | case2 value => simp [moreDigits?] at h
    | case3 value c t digit hdigit ih =>
        rw [moreDigits?_grouped hdigit] at h
        obtain ⟨digits, hrun, hn⟩ := ih h
        exact ⟨digit :: digits, .grouped hdigit hrun, hn⟩
    | case4 value c t hdigit => simp [moreDigits?, hdigit] at h
    | case5 value c t _ digit hdigit ih =>
        rw [moreDigits?_digit hdigit] at h
        obtain ⟨digits, hrun, hn⟩ := ih h
        exact ⟨digit :: digits, .digit hdigit hrun, hn⟩
    | case6 value c t hc hdigit =>
        rw [moreDigits?.eq_def] at h
        simp [hc, hdigit] at h
  · rintro ⟨digits, hrun, rfl⟩
    induction hrun generalizing value with
    | nil => rfl
    | digit h _ ih => exact (moreDigits?_digit h _ _).trans ih
    | grouped h _ ih => exact (moreDigits?_grouped h _ _).trans ih

theorem digits?_eq_some_iff : digits? 10 t = some n ↔ Decimal t n := by
  constructor
  · intro h
    cases t with
    | nil => contradiction
    | cons c t =>
        rw [digits?] at h
        split at h
        next digit hdigit =>
          obtain ⟨digits, hrun, rfl⟩ := moreDigits?_eq_some_iff.mp h
          exact .mk hdigit hrun
        · contradiction
  · rintro ⟨hdigit, hrun⟩
    rw [digits?, hdigit]
    exact moreDigits?_eq_some_iff.mpr ⟨_, hrun, rfl⟩

theorem isHexMarked_iff :
    word.isHexMarked = true ↔ ∃ x t, word = 0x30 :: x :: t ∧ (x = 0x78 ∨ x = 0x58) := by
  constructor
  · intro h
    unfold isHexMarked at h
    split at h
    next x t => exact ⟨x, t, rfl, by simpa using h⟩
    · contradiction
  · rintro ⟨x, t, rfl, rfl | rfl⟩ <;> rfl

-- Neither a sign nor the letter of a mark is a decimal digit.
theorem Decimal.head_ne (h : Decimal (c :: t) n) : c ≠ 0x2D ∧ c ≠ 0x2B := by
  cases h with
  | mk hdigit _ =>
      constructor
      · rintro rfl
        contradiction
      · rintro rfl
        contradiction

theorem not_decimal_of_isHexMarked (hmark : t.isHexMarked = true) : ¬ Decimal t n := by
  obtain ⟨x, t, rfl, hx⟩ := isHexMarked_iff.mp hmark
  intro h
  cases h with
  | mk _ hrun =>
      cases hrun with
      | digit hdigit _ => rcases hx with rfl | rfl <;> contradiction
      | grouped _ _ => exact absurd hx (by decide)

theorem integer?_eq_some_iff (hmark : word.isHexMarked = false) :
    word.integer? = some code ↔ Spells word code := by
  constructor
  · intro h
    cases word with
    | nil => contradiction
    | cons c t =>
        rw [integer?] at h
        split at h
        next hc =>
          cases hdigits : digits? 10 t with
          | none =>
              rw [hdigits] at h
              contradiction
          | some n =>
              rw [hdigits] at h
              cases h
              exact hc ▸ .negative (digits?_eq_some_iff.mp hdigits)
        · split at h
          next hc =>
            obtain ⟨n, hn, rfl⟩ := Option.map_eq_some_iff.mp h
            exact hc ▸ .positive (digits?_eq_some_iff.mp hn)
          · obtain ⟨n, hn, rfl⟩ := Option.map_eq_some_iff.mp h
            exact .plain (digits?_eq_some_iff.mp hn)
  · intro h
    cases h with
    | @plain _ n h =>
        obtain ⟨c, t, rfl⟩ : ∃ c t, word = c :: t := by
          cases h
          exact ⟨_, _, rfl⟩
        rw [integer?, if_neg h.head_ne.1, if_neg h.head_ne.2, digits?_eq_some_iff.mpr h]
        rfl
    | positive h =>
        rw [integer?, if_neg (by decide), if_pos rfl, digits?_eq_some_iff.mpr h]
        rfl
    | negative h =>
        rw [integer?, if_pos rfl, digits?_eq_some_iff.mpr h]
        rfl
    | hexadecimal hx hne hrun =>
        rw [isHexMarked_iff.mpr ⟨_, _, rfl, hx⟩] at hmark
        contradiction

theorem hexadecimal?_eq_some_iff (hmark : word.isHexMarked = true) :
    word.hexadecimal? = some code ↔ Spells word code := by
  obtain ⟨x, t, rfl, hx⟩ := isHexMarked_iff.mp hmark
  have hdrop : List.drop 2 (0x30 :: x :: t) = t := rfl
  rw [hexadecimal?, hdrop]
  constructor
  · intro h
    split at h
    · contradiction
    next hne =>
      obtain ⟨n, hn, rfl⟩ := Option.map_eq_some_iff.mp h
      obtain ⟨digits, hrun, rfl⟩ := moreDigits?_eq_some_iff.mp hn
      exact .hexadecimal hx hne hrun
  · intro h
    cases h with
    | plain h => exact absurd h (not_decimal_of_isHexMarked hmark)
    | hexadecimal _ hne hrun =>
        split
        · contradiction
        · rw [moreDigits?_eq_some_iff.mpr ⟨_, hrun, rfl⟩]
          rfl

theorem DigitRun.of_mem (h : DigitRun base t digits) (hc : c ∈ t) :
    c = 0x5F ∨ ∃ digit, c.digitOf? base = some digit := by
  induction h with
  | nil => contradiction
  | @digit d digit t digits hdigit _ ih =>
      rcases List.mem_cons.mp hc with rfl | hc
      · exact .inr ⟨digit, hdigit⟩
      · exact ih hc
  | @grouped d digit t digits hdigit _ ih =>
      rcases List.mem_cons.mp hc with rfl | hc
      · exact .inl rfl
      · rcases List.mem_cons.mp hc with rfl | hc
        · exact .inr ⟨digit, hdigit⟩
        · exact ih hc

theorem Decimal.of_mem (h : Decimal t n) (hc : c ∈ t) :
    c = 0x5F ∨ ∃ digit, c.digitOf? 10 = some digit := by
  cases h with
  | mk hdigit hrun => exact (DigitRun.digit hdigit hrun).of_mem hc

theorem Spells.exists_decimal (h : Spells word code) (hmark : word.isHexMarked = false) :
    ∃ n, Decimal word.unsigned n := by
  cases h with
  | @plain _ n h =>
      obtain ⟨c, t, rfl⟩ : ∃ c t, word = c :: t := by
        cases h
        exact ⟨_, _, rfl⟩
      rw [unsigned, if_neg (not_or.mpr h.head_ne)]
      exact ⟨n, h⟩
  | positive h | negative h => exact ⟨_, h⟩
  | hexadecimal hx hne hrun =>
      rw [isHexMarked_iff.mpr ⟨_, _, rfl, hx⟩] at hmark
      contradiction

-- Of a number that is spelled right all digits are counted.
theorem Spells.leadingDigits_eq (h : Spells word code) (hmark : word.isHexMarked = false) :
    word.leadingDigits = word.unsigned.filter (· ≠ 0x5F) := by
  obtain ⟨n, hdecimal⟩ := h.exists_decimal hmark
  have hrun : word.unsigned.takeWhile (fun c => c = 0x5F || (c.digitOf? 10).isSome) =
      word.unsigned := by
    refine List.takeWhile_eq_self_iff.mpr fun c hc => ?_
    rcases hdecimal.of_mem hc with rfl | ⟨digit, hdigit⟩
    · rfl
    · rw [hdigit, Option.isSome_some, Bool.or_true]
  have hsome : (digits? 10 word.unsigned).isSome := by
    rw [digits?_eq_some_iff.mpr hdecimal, Option.isSome_some]
  simp only [leadingDigits, hrun, if_pos hsome]

theorem Spells.overlong?_eq_none_iff (h : Spells word code) (hmark : word.isHexMarked = false) :
    word.overlong? = none ↔ word.IsShort := by
  rw [overlong?, h.leadingDigits_eq hmark, IsShort, hmark]
  simp

-- What numbers are spelled with.
theorem Spells.of_mem (h : Spells t code) (hc : c ∈ t) :
    c ∈ ([0x2B, 0x2D, 0x5F, 0x78, 0x58] : Text) ∨ ∃ base digit, c.digitOf? base = some digit := by
  have hrun {base : Nat} (h : c = 0x5F ∨ ∃ digit, c.digitOf? base = some digit) :
      c ∈ ([0x2B, 0x2D, 0x5F, 0x78, 0x58] : Text) ∨
        ∃ base digit, c.digitOf? base = some digit := by
    rcases h with rfl | ⟨digit, hdigit⟩
    · exact .inl (by decide)
    · exact .inr ⟨base, digit, hdigit⟩
  cases h with
  | plain h => exact hrun (h.of_mem hc)
  | positive h =>
      rcases List.mem_cons.mp hc with rfl | hc
      · exact .inl (by decide)
      · exact hrun (h.of_mem hc)
  | negative h =>
      rcases List.mem_cons.mp hc with rfl | hc
      · exact .inl (by decide)
      · exact hrun (h.of_mem hc)
  | hexadecimal hx _ h =>
      rcases List.mem_cons.mp hc with rfl | hc
      · exact .inr ⟨16, 0, by decide⟩
      · rcases List.mem_cons.mp hc with rfl | hc
        · rcases hx with rfl | rfl <;> exact .inl (by decide)
        · exact hrun (h.of_mem hc)

theorem digitRun_map {value : CodePoint → Nat}
    (h : ∀ c ∈ t, c.digitOf? base = some (value c)) : DigitRun base t (t.map value) := by
  induction t with
  | nil => exact .nil
  | cons c t ih =>
      obtain ⟨hc, ht⟩ := List.forall_mem_cons.mp h
      exact .digit hc (ih ht)

theorem spells_of_isNumeral (h : t.IsNumeral) : Spells t t.toNat := by
  obtain ⟨hne, hdigits⟩ := h
  cases t with
  | nil => contradiction
  | cons c t =>
      obtain ⟨hc, ht⟩ := List.forall_mem_cons.mp hdigits
      have hvalue : toNat (c :: t) = extended 10 (c.val - 0x30) (t.map (·.val - 0x30)) := by
        rw [extended, List.foldl_map, toNat, List.foldl_cons, Nat.zero_mul, Nat.zero_add]
      rw [hvalue]
      exact .plain (.mk (CodePoint.digitOf?_of_isAsciiDigit hc (by decide))
        (digitRun_map fun d hd => CodePoint.digitOf?_of_isAsciiDigit (ht d hd) (by decide)))

-- In a run of ASCII digits each one counts.
theorem isShort_iff_of_isNumeral (h : word.IsNumeral) :
    word.IsShort ↔ word.length ≤ maxDigits := by
  have hne (d : CodePoint) (hd : d.isAsciiDigit = false) : ∀ c ∈ word, c ≠ d := by
    rintro c hc rfl
    exact h.notMem hd hc
  have hmark : word.isHexMarked = false := by
    rw [← Bool.not_eq_true, isHexMarked_iff]
    rintro ⟨x, t, rfl, hx | hx⟩
    · exact hne 0x78 (by decide) x (by simp) hx
    · exact hne 0x58 (by decide) x (by simp) hx
  have hunsigned : word.unsigned = word := by
    cases word with
    | nil => rfl
    | cons c t =>
        exact if_neg (not_or.mpr ⟨hne 0x2D (by decide) c List.mem_cons_self,
          hne 0x2B (by decide) c List.mem_cons_self⟩)
  have hfilter : word.filter (· ≠ 0x5F) = word :=
    List.filter_eq_self.mpr fun c hc => decide_eq_true (hne 0x5F (by decide) c hc)
  rw [IsShort, hmark, hunsigned, hfilter]
  simp

theorem spells_of_isHexDigit (hx : x = 0x78 ∨ x = 0x58) (hne : t ≠ [])
    (h : ∀ c ∈ t, c.isHexDigit = true) : Spells (0x30 :: x :: t) t.hexValue := by
  have hvalue : hexValue t = extended 16 0 (t.map CodePoint.hexValue) := by
    rw [extended, List.foldl_map, hexValue]
  rw [hvalue]
  exact .hexadecimal hx hne (digitRun_map fun c hc => CodePoint.digitOf?_of_isHexDigit (h c hc))

end Text

end PacketCodec
