import PacketCodec.Failure
import PacketCodec.Number.Double

namespace PacketCodec

structure Revision where
  region : Option Text
  major : Nat
  minor : Nat
  sysmsg : Option Nat
  deriving DecidableEq

namespace Revision

-- The minor version counts hundredths. Versions beyond all doubles have none.
def gameVersion? (r : Revision) : Option Double := do
  let minor ← Double.ofRatio? r.minor 100
  let major ← Double.ofInt? r.major
  return Double.plus major minor

-- Without a version of their own the system messages follow the major version.
def sysmsgMapVersion (r : Revision) : Nat :=
  r.sysmsg.getD r.major

-- The parts that are absent, empty or zero are left out, except that the
-- version of the system messages is kept also if it is zero.
def text (r : Revision) : Text :=
  let region : Text :=
    match r.region with
    | none | some [] => []
    | some region => Text.join [region, "-"]
  let minor : Text := if r.minor = 0 then [] else Text.join [".", Text.ofNat r.minor]
  let sysmsg : Text :=
    match r.sysmsg with
    | none => []
    | some version => Text.join ["/", Text.ofNat version]
  Text.join [region, Text.ofNat r.major, minor, sysmsg]

-- Whether the numbers can be written.
def isWritable (r : Revision) : Bool :=
  Text.isWritable r.major && Text.isWritable r.minor && r.sysmsg.all fun n => Text.isWritable n

-- The parts of a revision as they are written.
structure Spelling where
  region : Option Text
  major : Text
  minor : Option Text
  sysmsg : Option Text
  deriving DecidableEq

-- The revision that is meant. A minor version that is left out is zero.
def Spelling.read (s : Spelling) : Except Text.Overlong Revision := do
  let major ← Text.readDigits s.major
  let minor ← Text.readDigits (s.minor.getD [])
  let sysmsg ← s.sysmsg.mapM Text.readDigits
  return ⟨s.region, major, minor, sysmsg⟩

-- A mark and a run of digits at the start of a text, and the rest after them.
def marked? (mark : CodePoint) (t : Text) : Option (Text × Text) :=
  match t with
  | [] => none
  | c :: rest =>
    let digits := rest.takeWhile CodePoint.isAsciiDigit
    if c = mark ∧ digits ≠ [] then some (digits, rest.drop digits.length) else none

-- The three numbers of a revision behind its region, the last two of them
-- optional.
def numbers? (region : Option Text) (t : Text) : Option Spelling :=
  let digits := t.takeWhile CodePoint.isAsciiDigit
  let afterMajor := t.drop digits.length
  let minor := marked? 0x2E afterMajor
  let afterMinor := minor.elim afterMajor (·.2)
  let sysmsg := marked? 0x2F afterMinor
  let afterSysmsg := sysmsg.elim afterMinor (·.2)
  if digits ≠ [] ∧ afterSysmsg = [] then
    some ⟨region, digits, minor.map (·.1), sysmsg.map (·.1)⟩
  else none

-- The region is what stands before the last dash. It is not empty and stays on
-- one line.
def parse? (t : Text) : Option Spelling :=
  match t.splitLast 0x2D with
  | none => numbers? none t
  | some (region, rest) =>
    if region = [] ∨ 0x0A ∈ region then none else numbers? (some region) rest

-- Reads a revision from a value, which must be a text.
def ofValue (value : Value) : Except Failure Revision :=
  match value with
  | .text t =>
    match parse? t with
    | some s => s.read.mapError .overlong
    | none => .error (.invalidRevision value)
  | _ => .error (.showing [value] (.invalidRevision (.text value.shown)))

end Revision

end PacketCodec
