import PacketCodec.Text.Decimal
import PacketCodec.Text.Utf16
import PacketCodec.Value.Basic

-- Reading JSON texts. Whole numbers and decimals are told apart, NaN, Infinity
-- and -Infinity are numbers, a surrogate may stand alone, and of two members
-- with one name the later one counts, at the place of the earlier.

namespace PacketCodec

namespace Json

-- Why a text could not be read: it is no JSON, or before that shows there is a
-- whole number with too many digits.
inductive Fault where
  | malformed
  | overlong (e : Text.Overlong)

def expect {α : Type} : Option α → Except Fault α
  | some a => .ok a
  | none => .error .malformed

def isSpace (c : CodePoint) : Bool :=
  c = 0x20 || c = 0x09 || c = 0x0A || c = 0x0D

def skipSpace (t : Text) : Text :=
  t.dropWhile isSpace

-- The rest of a text after a given beginning.
def after? (start t : Text) : Option Text :=
  if start.isPrefixOf t then some (t.drop start.length) else none

def hexValue? (c : CodePoint) : Option Nat :=
  if c.val < 0x30 then none
  else if c.val ≤ 0x39 then some (c.val - 0x30)
  else if 0x41 ≤ c.val ∧ c.val ≤ 0x46 then some (c.val - 0x41 + 10)
  else if 0x61 ≤ c.val ∧ c.val ≤ 0x66 then some (c.val - 0x61 + 10)
  else none

-- What a letter after a backslash stands for.
def escaped? (c : CodePoint) : Option CodePoint :=
  if c = 0x22 ∨ c = 0x5C ∨ c = 0x2F then some c
  else if c = 'b' then some 0x08
  else if c = 'f' then some 0x0C
  else if c = 'n' then some 0x0A
  else if c = 'r' then some 0x0D
  else if c = 't' then some 0x09
  else none

def codeUnit? (a b c d : CodePoint) : Option CodePoint := do
  let value := ((← hexValue? a) * 16 + (← hexValue? b)) * 256 + (← hexValue? c) * 16 + (← hexValue? d)
  if h : value < 0x110000 then some ⟨value, h⟩ else none

-- The contents of a string up to its closing quote, in reverse, and the rest
-- after the quote.
def stringBody (before : Text) : Text → Option (Text × Text)
  | [] => none
  | c :: rest =>
    if c = 0x22 then some (before, rest)
    else if c.val < 0x20 then none
    else if c = 0x5C then
      match rest with
      | [] => none
      | e :: rest =>
        if e = 'u' then
          match rest with
          | x :: y :: z :: w :: rest =>
            match codeUnit? x y z w with
            | some unit => stringBody (unit :: before) rest
            | none => none
          | _ => none
        else
          match escaped? e with
          | some plain => stringBody (plain :: before) rest
          | none => none
    else stringBody (c :: before) rest

-- Surrogates that are written next to each other are joined to pairs.
def string? (t : Text) : Option (Text × Text) :=
  (stringBody [] t).map fun (reversed, rest) =>
    (reversed.foldl (fun joined c => Text.consUnit c joined) [], rest)

-- A point and the digits after it, if there are any.
def fraction? : Text → Option (Text × Text)
  | c :: rest =>
    let digits := rest.takeWhile CodePoint.isAsciiDigit
    if c = '.' ∧ digits ≠ [] then some (digits, rest.drop digits.length) else none
  | [] => none

-- The exponent mark, a sign and digits.
def exponent? : Text → Option (Int × Text)
  | c :: rest =>
    let negative := rest.head? == some 0x2D
    let unsigned := if negative || rest.head? == some 0x2B then rest.drop 1 else rest
    let digits := unsigned.takeWhile CodePoint.isAsciiDigit
    if (c = 'e' ∨ c = 'E') ∧ digits ≠ [] then
      some (if negative then -(Text.toNat digits : Int) else Text.toNat digits, unsigned.drop digits.length)
    else none
  | [] => none

-- A number takes as much of the text as it can. With a fraction or an exponent
-- it is a double, of which no number of digits is too many.
def number (t : Text) : Except Fault (Value × Text) :=
  let negative := t.head? == some 0x2D
  let unsigned := if negative then t.drop 1 else t
  let run := unsigned.takeWhile CodePoint.isAsciiDigit
  let whole := if run.head? == some 0x30 then run.take 1 else run
  let rest := unsigned.drop whole.length
  let value (fraction : Text) (exponent : Int) : Value :=
    .double (.ofDecimal negative (Text.toNat (whole ++ fraction)) (exponent - fraction.length))
  if whole = [] then .error .malformed
  else
    match fraction? rest with
    | some (fraction, rest) =>
      match exponent? rest with
      | some (exponent, rest) => .ok (value fraction exponent, rest)
      | none => .ok (value fraction 0, rest)
    | none =>
      match exponent? rest with
      | some (exponent, rest) => .ok (value [] exponent, rest)
      | none => do
        let n ← (Text.readDigits whole).mapError .overlong
        return (.int (if negative then -(n : Int) else n), rest)

def words : List (Text × Value) :=
  [("null", .null), ("true", .bool true), ("false", .bool false), ("NaN", .double Double.nan),
   ("Infinity", .double (Double.infinity false)), ("-Infinity", .double (Double.infinity true))]

def word? (t : Text) : Option (Value × Text) :=
  words.findSome? fun (word, value) => (after? word t).map (value, ·)

mutual

-- A value at the start of a text and the rest after it. The fuel bounds how
-- many values and members are opened one inside or after the other.
def value : Nat → Text → Except Fault (Value × Text)
  | 0, _ => .error .malformed
  | fuel + 1, t =>
    match t with
    | [] => .error .malformed
    | c :: rest =>
      if c = 0x22 then (expect (string? rest)).map fun (s, rest) => (.text s, rest)
      else if c = 0x7B then
        let rest := skipSpace rest
        match after? [0x7D] rest with
        | some rest => .ok (.record [], rest)
        | none => (members fuel [] rest).map fun (entries, rest) => (.record entries, rest)
      else if c = 0x5B then
        let rest := skipSpace rest
        match after? [0x5D] rest with
        | some rest => .ok (.list [], rest)
        | none => (items fuel rest).map fun (items, rest) => (.list items, rest)
      else
        match word? (c :: rest) with
        | some found => .ok found
        | none => number (c :: rest)

-- The items of a list up to its closing bracket.
def items : Nat → Text → Except Fault (List Value × Text)
  | 0, _ => .error .malformed
  | fuel + 1, t => do
    let (item, rest) ← value fuel t
    match skipSpace rest with
    | [] => .error .malformed
    | c :: rest =>
      if c = 0x5D then .ok ([item], rest)
      else if c = ',' then
        let (others, rest) ← items fuel (skipSpace rest)
        .ok (item :: others, rest)
      else .error .malformed

-- The members of an object up to its closing brace, added to those before.
def members : Nat → List (Text × Value) → Text → Except Fault (List (Text × Value) × Text)
  | 0, _, _ => .error .malformed
  | fuel + 1, entries, t => do
    let (name, rest) ← expect (string? (← expect (after? [0x22] t)))
    let (found, rest) ← value fuel (skipSpace (← expect (after? ":" (skipSpace rest))))
    let entries := putEntry entries name found
    match skipSpace rest with
    | [] => .error .malformed
    | c :: rest =>
      if c = 0x7D then .ok (entries, rest)
      else if c = ',' then members fuel entries (skipSpace rest)
      else .error .malformed

end

-- The value of a whole text. Every value and every member takes up a code
-- point at least.
def read (t : Text) : Except Fault Value :=
  match value (t.length + 1) (skipSpace t) with
  | .ok (found, rest) => if skipSpace rest = [] then .ok found else .error .malformed
  | .error e => .error e

def read? (t : Text) : Option Value :=
  (read t).toOption

end Json

end PacketCodec
