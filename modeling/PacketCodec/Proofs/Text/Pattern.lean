import PacketCodec.Proofs.Text.Decimal

namespace PacketCodec

-- A text that is not empty and stays on one line.
def Text.OneLine (t : Text) : Prop :=
  t ≠ [] ∧ 0x0A ∉ t

instance (t : Text) : Decidable t.OneLine :=
  inferInstanceAs (Decidable (_ ∧ _))

inductive Pattern where
  | exactly (t : Text)
  -- one or more characters of a class, as few or as many as possible
  | few (accepts : CodePoint → Bool)
  | many (accepts : CodePoint → Bool)
  | seq (first second : Pattern)
  -- tried first, and then without
  | optional (p : Pattern)
  -- a part whose text is kept under a number
  | group (n : Nat) (p : Pattern)

namespace Pattern

-- What a dot stands for.
def dot (c : CodePoint) : Bool :=
  c ≠ 0x0A

-- `(.+?)` and `([0-9]+)`, kept under a number.

def line (n : Nat) : Pattern :=
  .group n (.few dot)

def digits (n : Nat) : Pattern :=
  .group n (.many CodePoint.isAsciiDigit)

abbrev Groups := List (Nat × Text)

-- What a pattern takes of a text, the groups in it and what is left.
structure Way where
  taken : Text
  groups : Groups
  rest : Text

def Way.andThen (first second : Way) : Way :=
  ⟨first.taken ++ second.taken, first.groups ++ second.groups, second.rest⟩

def Way.under (n : Nat) (way : Way) : Way :=
  { way with groups := (n, way.taken) :: way.groups }

-- The beginnings of a text that are within a class, the shortest one first.
def beginnings (accepts : CodePoint → Bool) : Text → List Way
  | [] => []
  | c :: rest =>
    if accepts c then
      ⟨[c], [], rest⟩ ::
        (beginnings accepts rest).map fun way => { way with taken := c :: way.taken }
    else []

-- All ways of a pattern at the start of a text, in the order in which they are
-- tried.
def ways : Pattern → Text → List Way
  | exactly t, s => if t.isPrefixOf s then [⟨t, [], s.drop t.length⟩] else []
  | few accepts, s => beginnings accepts s
  | many accepts, s => (beginnings accepts s).reverse
  | seq p q, s => (p.ways s).flatMap fun first => (q.ways first.rest).map first.andThen
  | optional p, s => p.ways s ++ [⟨[], [], s⟩]
  | group n p, s => (p.ways s).map (·.under n)

-- The groups of the first way that takes the whole text.
def fullMatch? (p : Pattern) (t : Text) : Option Groups :=
  ((p.ways t).find? (·.rest.isEmpty)).map (·.groups)

-- Whether a pattern can take a text with these groups in it.
def Takes : Pattern → Text → Groups → Prop
  | exactly s, t, g => t = s ∧ g = []
  | few accepts, t, g => t ≠ [] ∧ (∀ c ∈ t, accepts c = true) ∧ g = []
  | many accepts, t, g => t ≠ [] ∧ (∀ c ∈ t, accepts c = true) ∧ g = []
  | seq p q, t, g => ∃ s s' g₁ g₂, p.Takes s g₁ ∧ q.Takes s' g₂ ∧ s ++ s' = t ∧ g₁ ++ g₂ = g
  | optional p, t, g => p.Takes t g ∨ t = [] ∧ g = []
  | group n p, t, g => ∃ inner, p.Takes t inner ∧ (n, t) :: inner = g

variable {p : Pattern} {t : Text} {g : Groups} {way : Way}

theorem mem_beginnings {accepts : CodePoint → Bool} :
    way ∈ beginnings accepts t ↔
      way.taken ++ way.rest = t ∧ way.taken ≠ [] ∧ (∀ c ∈ way.taken, accepts c = true) ∧
        way.groups = [] := by
  obtain ⟨taken, groups, rest⟩ := way
  induction t generalizing taken with
  | nil => simp +contextual [beginnings]
  | cons c t ih =>
      cases taken with
      | nil =>
          by_cases hc : accepts c = true <;> simp [beginnings, hc]
      | cons d taken =>
          by_cases hc : accepts c = true
          · have hlonger : (⟨d :: taken, groups, rest⟩ : Way) ∈
                (beginnings accepts t).map (fun way => { way with taken := c :: way.taken }) ↔
                d = c ∧ ⟨taken, groups, rest⟩ ∈ beginnings accepts t := by
              simp only [List.mem_map, Way.mk.injEq, List.cons.injEq]
              constructor
              · rintro ⟨⟨_, _, _⟩, hmem, ⟨rfl, rfl⟩, rfl, rfl⟩
                exact ⟨rfl, hmem⟩
              · rintro ⟨rfl, hmem⟩
                exact ⟨_, hmem, ⟨rfl, rfl⟩, rfl, rfl⟩
            rw [beginnings, if_pos hc, List.mem_cons, hlonger, ih]
            cases taken <;> simp <;> grind
          · simp only [beginnings, if_neg hc, List.not_mem_nil, false_iff]
            rintro ⟨heq, -, haccepts, -⟩
            obtain ⟨rfl, -⟩ := List.cons.inj heq
            exact hc (haccepts d List.mem_cons_self)

-- The ways that are tried are all there are.
theorem mem_ways : way ∈ p.ways t ↔ way.taken ++ way.rest = t ∧ p.Takes way.taken way.groups := by
  induction p generalizing t way with
  | exactly s =>
      obtain ⟨taken, groups, rest⟩ := way
      rw [ways]
      constructor
      · intro h
        split at h
        · rename_i hprefix
          obtain ⟨rest', rfl⟩ := List.isPrefixOf_iff_prefix.mp hprefix
          simp only [List.drop_left, List.mem_singleton, Way.mk.injEq] at h
          obtain ⟨rfl, rfl, rfl⟩ := h
          exact ⟨rfl, rfl, rfl⟩
        · contradiction
      · rintro ⟨rfl, rfl, rfl⟩
        simp
  | few accepts => exact mem_beginnings
  | many accepts => exact List.mem_reverse.trans mem_beginnings
  | seq p q ihp ihq =>
      simp only [ways, List.mem_flatMap, List.mem_map, ihp, ihq]
      constructor
      · rintro ⟨first, ⟨rfl, hp⟩, second, ⟨hrest, hq⟩, rfl⟩
        refine ⟨?_, _, _, _, _, hp, hq, rfl, rfl⟩
        rw [← hrest, ← List.append_assoc]
        rfl
      · obtain ⟨taken, groups, rest⟩ := way
        rintro ⟨rfl, s, s', g, g', hp, hq, rfl, rfl⟩
        exact ⟨⟨s, g, s' ++ rest⟩, ⟨(List.append_assoc ..).symm, hp⟩, ⟨s', g', rest⟩,
          ⟨rfl, hq⟩, rfl⟩
  | optional p ih =>
      obtain ⟨taken, groups, rest⟩ := way
      rw [ways, List.mem_append, ih, List.mem_singleton]
      constructor
      · rintro (⟨heq, h⟩ | h)
        · exact ⟨heq, .inl h⟩
        · cases h
          exact ⟨rfl, .inr ⟨rfl, rfl⟩⟩
      · rintro ⟨rfl, h | ⟨rfl, rfl⟩⟩
        · exact .inl ⟨rfl, h⟩
        · exact .inr rfl
  | group n p ih =>
      simp only [ways, List.mem_map, ih]
      constructor
      · rintro ⟨inner, ⟨heq, h⟩, rfl⟩
        exact ⟨heq, _, h, rfl⟩
      · obtain ⟨taken, groups, rest⟩ := way
        rintro ⟨heq, inner, h, hgroups⟩
        exact ⟨⟨taken, inner, rest⟩, ⟨heq, h⟩, congrArg (Way.mk taken · rest) hgroups⟩

section Takes

variable {n : Nat}

theorem takes_seq_iff {q : Pattern} : (seq p q).Takes t g ↔
    ∃ s s' g₁ g₂, p.Takes s g₁ ∧ q.Takes s' g₂ ∧ s ++ s' = t ∧ g₁ ++ g₂ = g :=
  Iff.rfl

theorem takes_exactly_iff {s : Text} : (exactly s).Takes t g ↔ t = s ∧ g = [] :=
  Iff.rfl

theorem takes_line_iff : (line n).Takes t g ↔ t.OneLine ∧ g = [(n, t)] := by
  have hdot : (∀ c ∈ t, dot c = true) ↔ 0x0A ∉ t := by
    simp only [dot, decide_eq_true_eq]
    exact ⟨fun h hmem => h _ hmem rfl, fun h c hc heq => h (heq ▸ hc)⟩
  constructor
  · rintro ⟨_, ⟨hne, hline, rfl⟩, rfl⟩
    exact ⟨⟨hne, hdot.mp hline⟩, rfl⟩
  · rintro ⟨⟨hne, hline⟩, rfl⟩
    exact ⟨[], ⟨hne, hdot.mpr hline, rfl⟩, rfl⟩

theorem takes_digits_iff : (digits n).Takes t g ↔ t.IsNumeral ∧ g = [(n, t)] := by
  constructor
  · rintro ⟨_, ⟨hne, hdigits, rfl⟩, rfl⟩
    exact ⟨⟨hne, hdigits⟩, rfl⟩
  · rintro ⟨⟨hne, hdigits⟩, rfl⟩
    exact ⟨[], ⟨hne, hdigits, rfl⟩, rfl⟩

end Takes

theorem takes_of_fullMatch? (h : p.fullMatch? t = some g) : p.Takes t g := by
  obtain ⟨way, hfind, rfl⟩ := Option.map_eq_some_iff.mp h
  obtain ⟨heq, htakes⟩ := mem_ways.mp (List.mem_of_find?_eq_some hfind)
  have hrest := List.find?_some (p := fun way : Way => way.rest.isEmpty) hfind
  rw [List.isEmpty_iff.mp hrest, List.append_nil] at heq
  exact heq ▸ htakes

theorem fullMatch?_eq_none (h : p.fullMatch? t = none) : ¬p.Takes t g := by
  intro htakes
  have hmem : (⟨t, g, []⟩ : Way) ∈ p.ways t := mem_ways.mpr ⟨List.append_nil t, htakes⟩
  have hnone := List.find?_eq_none.mp (Option.map_eq_none_iff.mp h) _ hmem
  exact hnone rfl

-- Where every way of taking a text leads to the same answer, the order in
-- which they are tried does not matter.
theorem fullMatch?_map {α : Type} {answer : Option α} {read : Groups → α}
    (hall : ∀ g, p.Takes t g → answer = some (read g))
    (hnone : (∀ g, ¬p.Takes t g) → answer = none) :
    (p.fullMatch? t).map read = answer := by
  cases hmatch : p.fullMatch? t with
  | none => exact (hnone fun _ => fullMatch?_eq_none hmatch).symm
  | some g => exact (hall g (takes_of_fullMatch? hmatch)).symm

end Pattern

end PacketCodec
