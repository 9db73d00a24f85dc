import PacketCodec.Files.Path
import PacketCodec.Revision.Basic

namespace PacketCodec

attribute [local instance (high)] instPowNat

inductive LogLevel where
  | debug
  | info
  | error

inductive LogEntry where
  | compiled (name : Value) (version : Int)
  | revisionInUse (identifier : Text) (revision : Revision)
  | definitionsLoaded (count : Nat) (directory : Path) (skipped : Nat)
  | definitionSkipped (name : Text) (version : Nat) (reason : Failure)

-- Why a version has no whole number to be reported by.
inductive VersionFault where
  | notNumber (found : Text)
  | notANumber
  | infinite

namespace VersionFault

def failure : VersionFault → Failure
  | notNumber found =>
    .saying .badType (Text.join ["%d format: a real number is required, not ", found])
  | notANumber => .saying .badValue "cannot convert float NaN to integer"
  | infinite => .silent .numberTooLarge

end VersionFault

namespace LogEntry

-- The whole number by which a version is reported. Fractions are cut off.
def reportedVersion (version : Value) : Except VersionFault Int :=
  match version with
  | .double x =>
    if x.isNaN then .error .notANumber
    else if x.isInfinite then .error .infinite
    else
      let n : Int := (x.multiple / 2 ^ FloatFormat.binary64.quantum : Nat)
      .ok (if x.negative then -n else n)
  | _ =>
    match version.integer? with
    | some n => .ok n
    | none => .error (.notNumber version.kind)

def level : LogEntry → LogLevel
  | compiled _ _ => .debug
  | revisionInUse _ _ | definitionsLoaded _ _ _ => .info
  | definitionSkipped _ _ _ => .error

-- The text of an entry, given how failures are shown.
def text (shown : Failure → Text) : LogEntry → Text
  | compiled name version => Text.join ["Compiled ", name.shown, ".", Text.ofInt version]
  | revisionInUse identifier revision =>
    Text.join ["Protocol ", identifier, " uses revision ", revision.text]
  | definitionsLoaded count directory skipped =>
    Text.join ["Loaded ", Text.ofNat count, " packet definitions from ", directory.text, " (",
      Text.ofNat skipped, " skipped)"]
  | definitionSkipped name version reason =>
    Text.join ["Error loading ", name, ".", Text.ofNat version, ": ", shown reason]

end LogEntry

end PacketCodec
