import PacketCodec.Definition.Table
import PacketCodec.EnumMap.MapText
import PacketCodec.Files.Tree
import PacketCodec.LogEntry

namespace PacketCodec

namespace EnumMap

-- The map in a file. Whatever the file system reports counts as a missing file.
def load (tree : FileTree) (path : Path) (maxCode : Value) : Except Failure EnumMap :=
  match tree.readText path with
  | .ok t => (ofText t maxCode).mapError (EntryError.failure path.name)
  | .error (.file fault) =>
    .error (if fault.isReported then
        .resourceNotFound (Text.join [path.name, " not found"])
      else (FileTree.ReadError.file fault).failure)
  | .error .undecodable => .error (FileTree.ReadError.undecodable).failure

end EnumMap

namespace DefinitionTable

-- The packet name and version that a definition file is named for: a name on
-- one line, a version in digits and the ending.
def fileKey? (fileName : Text) : Option (Text × Nat) :=
  let ending : Text := ".def"
  if ending.isSuffixOf fileName then
    match Text.splitLast 0x2E (fileName.take (fileName.length - ending.length)) with
    | some (name, digits) =>
      if name ≠ [] ∧ 0x0A ∉ name ∧ digits ≠ [] ∧ digits.all CodePoint.isAsciiDigit then
        some (name, Text.toNat digits)
      else none
    | none => none
  else none

-- The answer to adding the definition in a file, and the table afterwards.
def addFile (table : DefinitionTable) (tree : FileTree) (path : Path) (name : Text)
    (version : Nat) : Except Failure Unit × DefinitionTable :=
  match tree.readText path with
  | .ok t =>
    let (outcome, table) := table.addText (.text name) (.int version) t
    (outcome.mapError AddError.failure, table)
  | .error e => (.error e.failure, table)

-- Adds the definition files among the names of a directory. A file that cannot
-- be read or parsed is reported and skipped.
def addFiles (table : DefinitionTable) (tree : FileTree) (directory : Path) :
    List Text → DefinitionTable × List LogEntry
  | [] => (table, [])
  | fileName :: rest =>
    match fileKey? fileName with
    | none => table.addFiles tree directory rest
    | some (name, version) =>
      let path : Path := ⟨directory.slashes, directory.parts ++ [fileName]⟩
      match table.addFile tree path name version with
      | (.ok _, table) => table.addFiles tree directory rest
      | (.error reason, table) =>
        let (table, log) := table.addFiles tree directory rest
        (table, .definitionSkipped name version reason :: log)

-- The table of all definition files in a directory, taken in the order of their
-- names. The table is frozen.
def load (tree : FileTree) (directory : Path) :
    Except Failure DefinitionTable × List LogEntry :=
  let missing : Failure :=
    .resourceNotFound (Text.join ["definition directory ", directory.text, " not found"])
  match tree.find directory with
  | .ok (.directory names) =>
    let (table, skipped) := empty.addFiles tree directory (names.mergeSort Text.le)
    (.ok table.freeze,
      skipped ++ [.definitionsLoaded table.count directory skipped.length])
  | .error .nameTooLong => (.error (.silent (.fileSystem .nameTooLong)), [])
  | _ => (.error missing, [])

-- The directory that a value names, which must be a text.
def directoryOf : Value → Except Failure Path
  | .text t => .ok (.ofText t)
  | .bytes _ =>
    .error (.saying .badType (Text.join ["argument should be a str object or an os.PathLike ",
      "object returning str, not <class 'bytes'>"]))
  | value =>
    .error (.saying .badType
      (Text.join ["expected str, bytes or os.PathLike object, not ", value.kind]))

-- The table of all definition files in a directory that a value names.
def loadFrom (tree : FileTree) (place : Value) :
    Except Failure DefinitionTable × List LogEntry :=
  match directoryOf place with
  | .ok directory => load tree directory
  | .error e => (.error e, [])

end DefinitionTable

end PacketCodec
