import PacketCodec.EnumMap.MapText
import PacketCodec.Files.Load
import PacketCodec.Proofs.EnumMap.Paired
import PacketCodec.Proofs.Except
import PacketCodec.Proofs.Value.Order

namespace PacketCodec

theorem Text.ne_nil_of_mem_words {t word : Text} (h : word ∈ t.words) : word ≠ [] := by
  induction t generalizing word with
  | nil => contradiction
  | cons c rest ih =>
      rw [Text.words] at h
      split at h
      · exact ih h
      · split at h
        · rcases List.mem_cons.mp h with rfl | h
          · exact List.cons_ne_nil _ _
          · exact ih h
        · split at h
          · rw [List.mem_singleton.mp h]
            exact List.cons_ne_nil _ _
          next first others hwords =>
            rcases List.mem_cons.mp h with rfl | h
            · exact List.cons_ne_nil _ _
            · exact ih (hwords ▸ List.mem_cons_of_mem _ h)

namespace EnumMap

structure Parsed (limit : Value) (map : EnumMap) : Prop where
  ofTexts : map.OfTexts
  maxCode : map.maxCode = limit
  nonempty : ∀ entry ∈ map.entries, entry.name ≠ .text []

-- The limits that a map can be read with: none, or a whole number.
inductive Limit : Value → Prop
  | none : Limit .null
  | upTo (n : Int) : Limit (.int n)

-- Every code can be compared with a limit that is a whole number.
theorem accepts_eq_ok {map : EnumMap} (hlimit : Limit map.maxCode) (code : Int) :
    ∃ accepted, map.accepts code = .ok accepted := by
  rw [accepts]
  generalize map.maxCode = limit at hlimit
  split
  · exact ⟨_, rfl⟩
  · cases hlimit with
    | none => exact ⟨_, rfl⟩
    | upTo n =>
        have hgreater : (Value.int code).compared .greater (.int n) = .ok (decide (n < code)) :=
          Value.compared_greater rfl rfl
        rw [hgreater]
        exact ⟨_, rfl⟩

-- The codes that are accepted.
def InRange (limit : Value) (code : Int) : Prop :=
  0 ≤ code ∧ ∀ n, limit = .int n → code ≤ n

theorem accepts_iff {map : EnumMap} (hlimit : Limit map.maxCode) {code : Int} :
    map.accepts code = .ok true ↔ InRange map.maxCode code := by
  rw [accepts, InRange]
  generalize map.maxCode = limit at hlimit
  by_cases hsign : code < 0
  · rw [if_pos hsign]
    refine iff_of_false (by simp) fun h => ?_
    omega
  · rw [if_neg hsign, and_iff_right (Int.not_lt.mp hsign)]
    cases hlimit with
    | none => exact iff_of_true rfl fun n hn => by cases hn
    | upTo n =>
        have hgreater : (Value.int code).compared .greater (.int n) = .ok (decide (n < code)) :=
          Value.compared_greater rfl rfl
        have hnull : (Value.int n).isNull = false := rfl
        rw [hgreater, hnull, if_neg Bool.false_ne_true]
        simp [Except.map]

theorem OfTexts.eq_outOfRange_of_add {map : EnumMap} (h : map.OfTexts)
    (hlimit : Limit map.maxCode) {name : Text} {code : Int} {e : AddError}
    (hadd : (map.add (.text name) (.int code)).1 = .error e) :
    e = .outOfRange (.text name) code := by
  obtain ⟨accepted, haccepts⟩ := accepts_eq_ok hlimit code
  rw [EnumMap.add, haccepts, Value.key_text] at hadd
  cases accepted with
  | false =>
      cases hadd
      rfl
  | true =>
      have hinsert : (map.insert (.text name) code.toNat).1 = .error e := hadd
      rw [h.paired.insert_eq] at hinsert
      contradiction

namespace Parsed

variable {limit : Value} {map map' : EnumMap} {line t : Text} {lines : List Text} {number : Nat}

theorem empty (limit : Value) : (empty limit).Parsed limit :=
  ⟨.empty limit, rfl, by simp [EnumMap.empty]⟩

theorem add (h : map.Parsed limit) {name : Text} (hname : name ≠ []) (code : Value) :
    (map.add (.text name) code).2.Parsed limit := by
  refine ⟨h.ofTexts.add name code, ?_, ?_⟩
  · rcases map.add_cases name code with hadd | ⟨n, -, -, hadd⟩
    · rw [hadd]
      exact h.maxCode
    · rw [hadd, h.ofTexts.paired.maxCode_insert, h.maxCode]
  · rcases map.add_cases name code with hadd | ⟨n, -, -, hadd⟩
    · rw [hadd]
      exact h.nonempty
    · rw [hadd]
      intro entry hentry
      rcases h.ofTexts.paired.mem_insert hentry with hentry | rfl
      · exact h.nonempty entry hentry
      · simpa using hname

theorem addLine (h : map.Parsed limit) (hadd : map.addLine line = .ok map') :
    map'.Parsed limit := by
  simp only [EnumMap.addLine] at hadd
  split at hadd
  · cases hadd
    exact h
  · split at hadd
    next name word hwords =>
      have hname : name ≠ [] := Text.ne_nil_of_mem_words (hwords ▸ List.mem_cons_self)
      split at hadd
      · contradiction
      next code _ =>
        have hparsed := h.add hname (.int code)
        split at hadd
        next hsum =>
          rw [hsum] at hparsed
          cases hadd
          exact hparsed
        · contradiction
    · contradiction

theorem addLines (h : map.Parsed limit) (hadd : map.addLines number lines = .ok map') :
    map'.Parsed limit := by
  induction lines generalizing map number with
  | nil =>
      cases hadd
      exact h
  | cons line rest ih =>
      rw [EnumMap.addLines] at hadd
      split at hadd
      next hline => exact ih (h.addLine hline) hadd
      · contradiction

theorem ofText (h : EnumMap.ofText t limit = .ok map) : map.Parsed limit :=
  (empty limit).addLines h

theorem load {tree : FileTree} {path : Path} (h : EnumMap.load tree path limit = .ok map) :
    map.Parsed limit := by
  unfold EnumMap.load at h
  split at h
  · exact ofText (mapError_eq_ok_iff.mp h)
  · contradiction
  · contradiction

-- A code that is out of range is refused, and no other.
theorem add_error (h : map.Parsed limit) (hlimit : Limit limit) {name : Text} {code : Int}
    {e : AddError} (hadd : (map.add (.text name) (.int code)).1 = .error e) :
    e = .outOfRange (.text name) code :=
  h.ofTexts.eq_outOfRange_of_add (h.maxCode ▸ hlimit) hadd

theorem addLine_error (h : map.Parsed limit) (hlimit : Limit limit) {e : AddError}
    (hadd : map.addLine line = .error (.refused e)) :
    ∃ name code, e = .outOfRange name code := by
  simp only [EnumMap.addLine] at hadd
  split at hadd
  · contradiction
  · split at hadd
    next name word _ =>
      split at hadd
      next hcode =>
        cases hadd
        unfold readCode at hcode
        split at hcode <;> split at hcode <;> cases hcode
      next code _ =>
        split at hadd
        · contradiction
        next hrefused =>
          cases hadd
          exact ⟨_, _, h.add_error hlimit (congrArg Prod.fst hrefused)⟩
    · split at hadd <;> cases hadd

-- So every entry that is not accepted is reported as one that is malformed.
theorem addLines_error (h : map.Parsed limit) (hlimit : Limit limit) {e : EntryError}
    (hadd : map.addLines number lines = .error e) (source : Text) :
    e.failure source = .resourceNotFound (e.message source) := by
  induction lines generalizing map number with
  | nil => contradiction
  | cons line rest ih =>
      rw [EnumMap.addLines] at hadd
      split at hadd
      next hline => exact ih (h.addLine hline) hadd
      next cause hline =>
        cases hadd
        cases cause with
        | refused e =>
            obtain ⟨name, code, rfl⟩ := h.addLine_error hlimit hline
            rfl
        | _ => rfl

end Parsed

theorem le_of_accepts {map : EnumMap} {code : Nat} {limit : Int} (hlimit : map.maxCode = .int limit)
    (haccepts : map.accepts code = .ok true) : (code : Int) ≤ limit :=
  ((accepts_iff (hlimit ▸ .upTo limit)).mp haccepts).2 limit hlimit

-- In a map that takes whole numbers up to a limit no code is above it.
theorem OfTexts.code_le {map : EnumMap} (h : map.OfTexts) {limit : Nat}
    (hlimit : map.maxCode = .int limit) : ∀ entry ∈ map.entries, entry.code ≤ limit := by
  intro entry hentry
  exact Int.ofNat_le.mp (le_of_accepts hlimit (h.accepts_code entry hentry))

end EnumMap

end PacketCodec
