import PacketCodec.Files.Load
import PacketCodec.Proofs.Text.Pattern

namespace PacketCodec

namespace DefinitionTable

-- The regular expression `(.+?)\.([0-9]+)\.def`.
def filePattern : Pattern :=
  .seq (.line 1) (.seq (.exactly [0x2E]) (.seq (.digits 2) (.exactly ".def")))

def keyOfGroups (groups : Pattern.Groups) : Text × Nat :=
  ((groups.lookup 1).getD [], Text.toNat ((groups.lookup 2).getD []))

-- What a definition file is called: a name that is not empty and has no line
-- feed, a dot, the version in ASCII digits and the ending.
def IsFileOf (name : Text) (version : Nat) (fileName : Text) : Prop :=
  ∃ digits : Text, name.OneLine ∧ digits.IsNumeral ∧ digits.toNat = version ∧
    fileName = name ++ 0x2E :: (digits ++ Text.ofString ".def")

variable {fileName name : Text} {version : Nat}

theorem fileKey?_append (stem : Text) :
    fileKey? (stem ++ Text.ofString ".def") =
      (Text.splitLast 0x2E stem).bind fun (name, digits) =>
        if name ≠ [] ∧ 0x0A ∉ name ∧ digits ≠ [] ∧ digits.all CodePoint.isAsciiDigit then
          some (name, Text.toNat digits)
        else none := by
  have hending : List.isSuffixOf (Text.ofString ".def") (stem ++ Text.ofString ".def") = true :=
    List.isSuffixOf_iff_suffix.mpr (List.suffix_append ..)
  have hstem : (stem ++ Text.ofString ".def").take
      ((stem ++ Text.ofString ".def").length - (Text.ofString ".def").length) = stem := by
    rw [List.length_append, Nat.add_sub_cancel, List.take_left]
  rw [fileKey?, if_pos hending, hstem]
  cases Text.splitLast 0x2E stem <;> rfl

-- The version stands behind the last dot before the ending, since there is none
-- in its digits.
theorem fileKey?_eq_some_iff :
    fileKey? fileName = some (name, version) ↔ IsFileOf name version fileName := by
  constructor
  · intro h
    by_cases hending : List.isSuffixOf (Text.ofString ".def") fileName = true
    · obtain ⟨stem, rfl⟩ := List.isSuffixOf_iff_suffix.mp hending
      rw [fileKey?_append] at h
      obtain ⟨⟨before, digits⟩, hsplit, h⟩ := Option.bind_eq_some_iff.mp h
      obtain ⟨⟨hname, hline, hdigits, hall⟩, hkey⟩ := Option.ite_none_right_eq_some.mp h
      cases hkey
      refine ⟨digits, ⟨hname, hline⟩, ⟨hdigits, List.all_eq_true.mp hall⟩, rfl, ?_⟩
      rw [(Text.of_splitLast hsplit).1, List.append_assoc, List.cons_append]
    · rw [fileKey?, if_neg hending] at h
      contradiction
  · rintro ⟨digits, ⟨hname, hline⟩, hdigits, rfl, rfl⟩
    have hsplit : Text.splitLast 0x2E (name ++ 0x2E :: digits) = some (name, digits) :=
      Text.splitLast_append (hdigits.notMem (by decide))
    rw [← List.cons_append, ← List.append_assoc, fileKey?_append, hsplit]
    exact if_pos ⟨hname, hline, hdigits.1, List.all_eq_true.mpr hdigits.2⟩

def IsDefinitionFile (fileName : Text) : Prop :=
  ∃ name version, IsFileOf name version fileName

theorem isSome_fileKey?_iff : (fileKey? fileName).isSome = true ↔ IsDefinitionFile fileName := by
  simp only [Option.isSome_iff_exists, Prod.exists, fileKey?_eq_some_iff, IsDefinitionFile]

instance (fileName : Text) : Decidable (IsDefinitionFile fileName) :=
  decidable_of_iff _ isSome_fileKey?_iff

theorem takes_filePattern_iff {groups : Pattern.Groups} :
    filePattern.Takes fileName groups ↔
      ∃ name digits : Text, name.OneLine ∧ digits.IsNumeral ∧
        fileName = name ++ 0x2E :: (digits ++ Text.ofString ".def") ∧
        groups = [(1, name), (2, digits)] := by
  simp only [filePattern, Pattern.takes_seq_iff, Pattern.takes_exactly_iff, Pattern.takes_line_iff,
    Pattern.takes_digits_iff]
  constructor
  · rintro ⟨name, _, _, _, ⟨hname, rfl⟩, ⟨_, _, _, _, ⟨rfl, rfl⟩, ⟨digits, _, _, _,
      ⟨hdigits, rfl⟩, ⟨rfl, rfl⟩, rfl, rfl⟩, rfl, rfl⟩, rfl, rfl⟩
    exact ⟨name, digits, hname, hdigits, rfl, rfl⟩
  · rintro ⟨name, digits, hname, hdigits, rfl, rfl⟩
    exact ⟨name, _, _, _, ⟨hname, rfl⟩, ⟨_, _, _, _, ⟨rfl, rfl⟩, ⟨digits, _, _, _,
      ⟨hdigits, rfl⟩, ⟨rfl, rfl⟩, rfl, rfl⟩, rfl, rfl⟩, rfl, rfl⟩

-- The lazy name comes to the same as cutting at the last dot before the ending.
theorem fullMatch?_filePattern (fileName : Text) :
    (filePattern.fullMatch? fileName).map keyOfGroups = fileKey? fileName := by
  refine Pattern.fullMatch?_map (fun groups htakes => ?_) fun hnone => ?_
  · obtain ⟨name, digits, hname, hdigits, rfl, rfl⟩ := takes_filePattern_iff.mp htakes
    exact fileKey?_eq_some_iff.mpr ⟨digits, hname, hdigits, rfl, rfl⟩
  · cases hkey : fileKey? fileName with
    | none => rfl
    | some key =>
        obtain ⟨digits, hname, hdigits, -, heq⟩ := fileKey?_eq_some_iff.mp hkey
        exact absurd (takes_filePattern_iff.mpr ⟨_, digits, hname, hdigits, heq, rfl⟩) (hnone _)

theorem fullMatch?_filePattern_eq_some_iff :
    (filePattern.fullMatch? fileName).map keyOfGroups = some (name, version) ↔
      IsFileOf name version fileName := by
  rw [fullMatch?_filePattern, fileKey?_eq_some_iff]

theorem isSome_fullMatch?_filePattern_iff :
    (filePattern.fullMatch? fileName).isSome = true ↔ IsDefinitionFile fileName := by
  rw [← isSome_fileKey?_iff, ← fullMatch?_filePattern, Option.isSome_map]

end DefinitionTable

end PacketCodec
