import PacketCodec.EnumMap.Basic
import PacketCodec.Text.Blank
import PacketCodec.Text.Literal

namespace PacketCodec

namespace EnumMap

inductive EntryCause where
  | tooFewWords (count : Nat)
  | tooManyWords
  | notNumber (base : Nat) (word : Text)
  | overlong (e : Text.Overlong)
  | refused (e : AddError)

namespace EntryCause

-- A word that is no number is shown up to a length.
def shownWord (word : Text) : Text :=
  word.quoted.take 200

def message : EntryCause → Text
  | tooFewWords count =>
    Text.join ["not enough values to unpack (expected 2, got ", Text.ofNat count, ")"]
  | tooManyWords => "too many values to unpack (expected 2)"
  | notNumber base word =>
    Text.join ["invalid literal for int() with base ", Text.ofNat base, ": ", shownWord word]
  | overlong e => e.message
  | refused e => e.message

end EntryCause

structure EntryError where
  line : Nat
  found : Text
  cause : EntryCause

namespace EntryError

def message (source : Text) (e : EntryError) : Text :=
  Text.join [source, ":", Text.ofNat e.line, ": malformed map entry ", e.found.quoted, " (",
    e.cause.message, ")"]

-- A limit that no code can be compared with is no fault of the entry.
def failure (source : Text) (e : EntryError) : Failure :=
  match e.cause with
  | .refused (.notOrdered e) => e.failure
  | _ => .resourceNotFound (e.message source)

end EntryError

-- A code is hexadecimal if it is marked so, decimal otherwise. Only decimal numbers
-- can be too long.
def readCode (word : Text) : Except EntryCause Int :=
  if word.isHexMarked then
    match word.hexadecimal? with
    | some code => .ok code
    | none => .error (.notNumber 16 word)
  else
    match word.overlong?, word.integer? with
    | some e, _ => .error (.overlong e)
    | none, some code => .ok code
    | none, none => .error (.notNumber 10 word)

-- Adds what a line says, nothing if it has no content.
def addLine (map : EnumMap) (line : Text) : Except EntryCause EnumMap :=
  let content := Text.strip (line.takeWhile (· ≠ (0x23 : CodePoint)))
  if content = [] then .ok map
  else
    match Text.words (content.map fun c => if c = 0x3D then 0x20 else c) with
    | [name, word] =>
      match readCode word with
      | .error cause => .error cause
      | .ok code =>
        match map.add (.text name) (.int code) with
        | (.ok _, map) => .ok map
        | (.error e, _) => .error (.refused e)
    | words => .error (if words.length < 2 then .tooFewWords words.length else .tooManyWords)

-- Adds what the numbered lines of a text say.
def addLines (map : EnumMap) : (number : Nat) → List Text → Except EntryError EnumMap
  | _, [] => .ok map
  | number, line :: rest =>
    match map.addLine line with
    | .ok map => map.addLines (number + 1) rest
    | .error cause => .error ⟨number, Text.strip line, cause⟩

def ofText (t : Text) (maxCode : Value) : Except EntryError EnumMap :=
  (empty maxCode).addLines 1 t.lines

end EnumMap

end PacketCodec
