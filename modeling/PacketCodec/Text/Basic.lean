-- Texts are sequences of code points. Surrogates are code points like any
-- other, so a text can hold every sequence of 16-bit code units.

namespace PacketCodec

attribute [local instance (high)] Zero.ofOfNat0

abbrev CodePoint := Fin 0x110000

-- What numerals for code points and searches for them rest on.
instance CodePoint.neZero : NeZero 0x110000 := ⟨by decide⟩

instance CodePoint.lawfulBEq : LawfulBEq CodePoint := inferInstance

abbrev Text := List CodePoint

namespace CodePoint

def ofChar (c : Char) : CodePoint :=
  ⟨c.toNat, by
    cases c.valid with
    | inl h => exact Nat.lt_trans h (by decide)
    | inr h => exact h.2⟩

instance : Coe Char CodePoint := ⟨ofChar⟩

-- Membership in a table of closed ranges.
def within (ranges : List (Nat × Nat)) (c : CodePoint) : Bool :=
  ranges.any fun range => range.1 ≤ c.val && c.val ≤ range.2

end CodePoint

namespace Text

def ofString (s : String) : Text :=
  s.toList.map CodePoint.ofChar

instance : Coe String Text := ⟨ofString⟩

def join (parts : List Text) : Text :=
  parts.flatten

-- The parts with the separator between each two neighbours.
def joinWith (separator : Text) : List Text → Text
  | [] => []
  | [part] => part
  | part :: next :: rest => part ++ separator ++ joinWith separator (next :: rest)

-- Texts are ordered by their first differing code point, a shorter text before
-- each of its continuations.
def le : Text → Text → Bool
  | [], _ => true
  | _ :: _, [] => false
  | a :: s, b :: t => a < b || (a == b && le s t)

-- The part before the last occurrence of a code point and the part after it,
-- or nothing if it does not occur.
def splitLast (separator : CodePoint) : Text → Option (Text × Text)
  | [] => none
  | c :: rest =>
    match splitLast separator rest with
    | some (before, after) => some (c :: before, after)
    | none => if c = separator then some ([], rest) else none

end Text

end PacketCodec
