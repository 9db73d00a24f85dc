import PacketCodec.Value.Shown

namespace PacketCodec

-- A step on the way to a part of a structured value.
inductive Step where
  | key (name : Text)
  | index (i : Nat)

inductive Complaint where
  | missing
  | notText
  | notUnicode
  | notInteger
  | notNumeral
  | notFinite
  | fractional
  | tooWide
  | negative
  | notMembers
  | notDefinition
  | notPath

-- One complaint about the part of a structured value that a path leads to.
structure Issue where
  path : List Step
  complaint : Complaint

namespace Issue

def under (step : Step) (issue : Issue) : Issue :=
  { issue with path := step :: issue.path }

-- The complaints about a part, none if it is right.
def found {α : Type} : Except (List Issue) α → List Issue
  | .error issues => issues
  | .ok _ => []

end Issue

-- Why a file could not be opened. The last two concern its name alone and are
-- found before any file is looked for.
inductive FileFault where
  | missing
  | isDirectory
  | notDirectory
  | nameTooLong
  | holdsZero
  | unencodable

namespace FileFault

-- Whether it is the file system that reports the fault.
def isReported : FileFault → Bool
  | holdsZero | unencodable => false
  | _ => true

end FileFault

-- What the file system says about a resource: a number, a reason and the names
-- of up to two files, null where there is none.
structure FileReport where
  number : Value
  reason : Value
  file : Value
  other : Value

namespace FileReport

def message (report : FileReport) : Text :=
  let start := Text.join ["[Errno ", report.number.shown, "] ", report.reason.shown]
  if report.file.isNull then start
  else if report.other.isNull then Text.join [start, ": ", report.file.quoted]
  else Text.join [start, ": ", report.file.quoted, " -> ", report.other.quoted]

end FileReport

-- What a fault is about is kept as it was given, whatever its kind.
inductive Fault where
  -- the library's own faults
  | protocol
  | revisionNotFound (identifier : Value)
  | invalidRevision (revision : Value)
  | resourceNotFound (report : Option FileReport)
  | unknownPacket
  | compilation
  | malformedDefinition (issues : List Issue)
  | definitionGrammar (line : Value)
  | typeValidation (field : Value)
  | truncatedInput (offset needed available : Value)
  | frameTooLarge (size limit : Value)
  -- misuse of an operation, and what the layers below it report
  | badKey
  | badValue
  | badType
  | readOnly
  | unpackable
  | outOfBounds
  | numberTooLarge
  | undecodable
  | fileSystem (fault : FileFault)
  | invalid (issues : List Issue)

namespace Fault

def isOwn : Fault → Bool
  | protocol | revisionNotFound _ | invalidRevision _ | resourceNotFound _ | unknownPacket
  | compilation | malformedDefinition _ | definitionGrammar _ | typeValidation _
  | truncatedInput _ _ _ | frameTooLarge _ _ => true
  | _ => false

end Fault

structure Failure where
  fault : Fault
  args : List Value
  packet : Value := .null

namespace Failure

def saying (fault : Fault) (message : Text) : Failure :=
  { fault := fault, args := [.text message] }

def silent (fault : Fault) : Failure :=
  { fault := fault, args := [] }

def unwritable : Failure :=
  saying .badValue Text.unwritable

def overlong (e : Text.Overlong) : Failure :=
  saying .badValue e.message

-- A failure whose message shows values. Where one of them cannot be shown it
-- is this that fails. Names and other texts are taken to be texts.
def showing (values : List Value) (failure : Failure) : Failure :=
  if values.all Value.isShowable then failure else unwritable

def revisionNotFound (identifier : Value) : Failure :=
  saying (.revisionNotFound identifier)
    (Text.join ["Entry for protocol ", identifier.shown, " not found in revision table"])

def invalidRevision (revision : Value) : Failure :=
  saying (.invalidRevision revision) (Text.join ["Invalid revision \"", revision.shown, "\""])

def resourceNotFound (message : Text) : Failure :=
  saying (.resourceNotFound none) message

-- A missing resource by its arguments. Two to five of them are a report of the
-- file system: number, reason, file, an argument without effect, and another
-- file. If a file is named, only number and reason stay arguments.
def resourceReported (args : List Value) : Failure :=
  match args with
  | [] | [_] | _ :: _ :: _ :: _ :: _ :: _ :: _ => { fault := .resourceNotFound none, args := args }
  | number :: reason :: rest =>
    let file := rest.getD 0 .null
    { fault := .resourceNotFound (some ⟨number, reason, file, rest.getD 2 .null⟩)
      args := if file.isNull then args else [number, reason] }

-- The line comes first in the message, if there is one. It is a line of a text in
-- memory, whose number is never too long to be shown, as positions and sizes in
-- memory are not.
def misspelling (message line : Value) : Failure :=
  { fault := .definitionGrammar line
    args := [if line.isNull then message
      else .text (Text.join ["line ", line.shown, ": ", message.shown])] }

def definitionGrammar (message line : Value) : Failure :=
  showing [line] (misspelling message line)

-- The field comes first in the message, if it has a name.
def typeValidation (message field : Value) : Failure :=
  { fault := .typeValidation field
    args := [if field.truth then .text (Text.join [field.shown, ": ", message.shown])
      else message] }

def truncation (offset needed available : Value) : Failure :=
  saying (.truncatedInput offset needed available)
    (Text.join ["truncated input at offset ", offset.shown, ": needed ", needed.shown,
      " byte(s), ", available.shown, " available"])

def truncatedInput (offset needed available : Value) : Failure :=
  showing [offset, needed, available] (truncation offset needed available)

def oversize (size limit : Value) : Failure :=
  saying (.frameTooLarge size limit)
    (Text.join ["frame of ", size.shown, " bytes exceeds the ", limit.shown, " byte limit"])

def frameTooLarge (size limit : Value) : Failure :=
  showing [size, limit] (oversize size limit)

-- A report of the file system is the message. Otherwise one argument is its own
-- message, except that a missing key is quoted, and several arguments are shown
-- together.
def message (failure : Failure) : Text :=
  match failure.fault, failure.args with
  | .resourceNotFound (some report), _ => report.message
  | _, [] => []
  | .badKey, [arg] => arg.quoted
  | _, [arg] => arg.shown
  | _, args => (Value.tuple args).quoted

-- The values that the message shows.
def shownValues (failure : Failure) : List Value :=
  match failure.fault with
  | .resourceNotFound (some report) => [report.number, report.reason, report.file, report.other]
  | _ => failure.args

-- Puts a label in front of the message. A message that is not a text by itself
-- becomes one. Only the library's own failures name a packet.
def annotate (failure : Failure) (label packet : Value) : Failure :=
  let labelled (message : Text) : Value := .text (Text.join [label.shown, ": ", message])
  let withArgs (args : List Value) : Failure :=
    { failure with args := args, packet := if failure.fault.isOwn then packet else failure.packet }
  match failure.args with
  | .text message :: rest => withArgs (labelled message :: rest)
  | _ =>
    showing failure.shownValues
      (withArgs [if failure.message = [] then label else labelled failure.message])

end Failure

end PacketCodec
