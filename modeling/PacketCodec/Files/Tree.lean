import PacketCodec.Failure
import PacketCodec.Files.Path
import PacketCodec.Text.Utf16
import PacketCodec.Text.Utf8

-- The files that a program can see: a tree below the working directory, given
-- by the files and directories in it. Every directory above one of them exists.

namespace PacketCodec

-- Sums start from the zero of the core library.
attribute [local instance (high)] Zero.ofOfNat0

structure FileTree where
  files : List (List Text × List UInt8)
  directories : List (List Text)

inductive FileNode where
  | file (content : List UInt8)
  | directory (names : List Text)

-- Where a path has led to so far: to a place in the tree, or to somewhere
-- outside of it, of which nothing is known but that it is a directory.
inductive Place where
  | inside (parts : List Text)
  | outside

namespace FileTree

-- The names directly below a directory.
def namesBelow (tree : FileTree) (parts : List Text) : List Text :=
  let below (known : List Text) : Option Text :=
    if parts.isPrefixOf known then (known.drop parts.length).head? else none
  ((tree.files.map (·.1) ++ tree.directories).filterMap below).eraseDups

-- Whether a place is a directory: the working directory, one that is given, or
-- one above something that is given.
def isDirectory (tree : FileTree) (parts : List Text) : Bool :=
  let isAbove (known : List Text) : Bool := parts.isPrefixOf known && parts.length < known.length
  parts.isEmpty || tree.directories.contains parts || tree.directories.any isAbove ||
    tree.files.any fun file => isAbove file.1

-- What stands at a place in the tree.
def nodeAt? (tree : FileTree) (parts : List Text) : Option FileNode :=
  match tree.files.lookup parts with
  | some content => some (.file content)
  | none => if tree.isDirectory parts then some (.directory (tree.namesBelow parts)) else none

-- Whether a surrogate stands for a byte that is no character.
def isLooseByte (c : CodePoint) : Bool :=
  0xDC80 ≤ c.val && c.val ≤ 0xDCFF

-- The number of bytes of a name in UTF-8.
def nameSize (name : Text) : Nat :=
  (name.map fun c =>
    if c.val < 0x80 || isLooseByte c then 1
    else if c.val < 0x800 then 2
    else if c.val < 0x10000 then 3
    else 4).sum

-- The largest sizes of a name in a directory and of a whole path.
def maxNameSize : Nat := 255

def maxPathSize : Nat := 4095

-- Follows the parts of a path one by one.
def follow (tree : FileTree) : Place → List Text → Except FileFault FileNode
  | .outside, [] => .ok (.directory [])
  | .inside parts, [] =>
    match tree.nodeAt? parts with
    | some node => .ok node
    | none => .error .missing
  | .outside, part :: rest =>
    if part = ".." then follow tree .outside rest
    else .error (if maxNameSize < nameSize part then .nameTooLong else .missing)
  | .inside parts, part :: rest =>
    if (tree.files.lookup parts).isSome then .error .notDirectory
    else if !tree.isDirectory parts then .error .missing
    else if part = ".." then
      follow tree (if parts = [] then .outside else .inside parts.dropLast) rest
    else if maxNameSize < nameSize part then .error .nameTooLong
    else follow tree (.inside (parts ++ [part])) rest

-- Names cannot hold a zero, nor a surrogate that does not stand for a byte.
def unnameable? (path : Path) : Option FileFault :=
  let letters := path.parts.flatten
  if letters.any fun c => c.isSurrogate && !isLooseByte c then
    some .unencodable
  else if (0 : CodePoint) ∈ letters then some .holdsZero
  else none

def find (tree : FileTree) (path : Path) : Except FileFault FileNode :=
  match unnameable? path with
  | some fault => .error fault
  | none =>
    if maxPathSize < nameSize path.text then .error .nameTooLong
    else tree.follow (if path.slashes = 0 then .inside [] else .outside) path.parts

-- Why the text of a file could not be read.
inductive ReadError where
  | file (fault : FileFault)
  | undecodable

namespace ReadError

def failure : ReadError → Failure
  | file .holdsZero => .saying .badValue "embedded null byte"
  | file fault => .silent (.fileSystem fault)
  | undecodable => .silent .undecodable

end ReadError

-- The text of a file in strict UTF-8.
def readText (tree : FileTree) (path : Path) : Except ReadError Text :=
  match tree.find path with
  | .error fault => .error (.file fault)
  | .ok (.directory _) => .error (.file .isDirectory)
  | .ok (.file content) =>
    match Utf8.decode? content with
    | some t => .ok t
    | none => .error .undecodable

end FileTree

end PacketCodec
