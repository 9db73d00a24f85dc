import PacketCodec.Revision.Basic
import PacketCodec.Text.Numeral
import PacketCodec.Text.Utf16
import PacketCodec.Text.Utf8

namespace PacketCodec

attribute [local instance (high)] instPowNat

namespace Revision

def readNumeral (t : Text) : Except Complaint Int :=
  match t.readNumeral with
  | .ok n => .ok n
  | .error .malformed => .error .notNumeral
  | .error .overlong => .error .tooWide

-- A double that is a whole number of 64 bits.
def wholeDouble (x : Double) : Except Complaint Int :=
  if !x.isFinite then .error .notFinite
  else
    match x.toInt? with
    | none => .error .fractional
    | some n => if n.natAbs < 2 ^ (63 : Nat) then .ok n else .error .tooWide

-- The whole number that a value stands for. Flags count as zero and one, texts
-- and bytes are read.
def wholeNumber (value : Value) : Except Complaint Int :=
  match value with
  | .int n => .ok n
  | .bool b => .ok b.toNat
  | .double x => wholeDouble x
  | .text t => if t.any CodePoint.isSurrogate then .error .notUnicode else readNumeral t
  | .bytes b => ((Utf8.decode? b).map readNumeral).getD (.error .notNumeral)
  | _ => .error .notInteger

-- A version number.
def versionOf (key : Text) (value : Value) : Except (List Issue) Nat :=
  let complain (complaint : Complaint) : Except (List Issue) Nat := .error [⟨[.key key], complaint⟩]
  match wholeNumber value with
  | .ok n => if 0 ≤ n then .ok n.toNat else complain .negative
  | .error complaint => complain complaint

-- A region. Bytes are read as UTF-8.
def regionOf (value : Value) : Except (List Issue) (Option Text) :=
  match value with
  | .null => .ok none
  | .text t => .ok (some t)
  | .bytes b =>
    match Utf8.decode? b with
    | some t => .ok (some t)
    | none => .error [⟨[.key "region"], .notUnicode⟩]
  | _ => .error [⟨[.key "region"], .notText⟩]

-- All complaints are collected, in the order of the parts.
def ofFields (entries : List (Text × Value)) : Except (List Issue) Revision :=
  let part (key : Text) : Option Value := entries.lookup key
  let region := regionOf (lookUp entries "region")
  let major : Except (List Issue) Nat :=
    match part "major_patch_version" with
    | none => .error [⟨[.key "major_patch_version"], .missing⟩]
    | some value => versionOf "major_patch_version" value
  let minor : Except (List Issue) Nat :=
    match part "minor_patch_version" with
    | none => .ok 0
    | some value => versionOf "minor_patch_version" value
  let sysmsg : Except (List Issue) (Option Nat) :=
    match lookUp entries "sysmsg_version" with
    | .null => .ok none
    | value => (versionOf "sysmsg_version" value).map some
  match region, major, minor, sysmsg with
  | .ok region, .ok major, .ok minor, .ok sysmsg => .ok ⟨region, major, minor, sysmsg⟩
  | _, _, _, _ =>
    .error (Issue.found region ++ Issue.found major ++ Issue.found minor ++ Issue.found sysmsg)

end Revision

end PacketCodec
