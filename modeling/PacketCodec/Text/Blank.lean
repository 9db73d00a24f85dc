import PacketCodec.Text.Basic

namespace PacketCodec

namespace CodePoint

-- The code points that separate words: the bidirectional classes WS, B and S
-- together with the space separators.
def blankRanges : List (Nat × Nat) :=
  [(0x09, 0x0D), (0x1C, 0x20), (0x85, 0x85), (0xA0, 0xA0), (0x1680, 0x1680), (0x2000, 0x200A),
   (0x2028, 0x2029), (0x202F, 0x202F), (0x205F, 0x205F), (0x3000, 0x3000)]

def isBlank (c : CodePoint) : Bool :=
  c.within blankRanges

-- The white space: the blanks without the four information separators.
def isWhite (c : CodePoint) : Bool :=
  c.isBlank && !(0x1C ≤ c.val && c.val ≤ 0x1F)

-- The code points that end a line.
def lineEndRanges : List (Nat × Nat) :=
  [(0x0A, 0x0D), (0x1C, 0x1E), (0x85, 0x85), (0x2028, 0x2029)]

def isLineEnd (c : CodePoint) : Bool :=
  c.within lineEndRanges

end CodePoint

namespace Text

-- The text without the code points of a class at its two ends.
def stripAll (inClass : CodePoint → Bool) (t : Text) : Text :=
  ((t.dropWhile inClass).reverse.dropWhile inClass).reverse

-- The text without the blanks at its two ends.
def strip (t : Text) : Text :=
  t.stripAll CodePoint.isBlank

-- The maximal runs of code points that are not blank.
def words : Text → List Text
  | [] => []
  | c :: rest =>
    if c.isBlank then words rest
    else if rest.head?.all CodePoint.isBlank then [c] :: words rest
    else
      match words rest with
      | [] => [[c]]
      | word :: others => (c :: word) :: others

-- The lines of a text without their ends. A carriage return and a line feed
-- that follow each other end one line, and a text that ends with a line end
-- has no empty line after it.
def lines : Text → List Text
  | [] => []
  | c :: rest =>
    if c.isLineEnd then
      if c = 0x0D ∧ rest.head? = some 0x0A then lines rest else [] :: lines rest
    else
      match lines rest with
      | [] => [[c]]
      | line :: others => (c :: line) :: others

end Text

end PacketCodec
