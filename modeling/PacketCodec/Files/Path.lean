import PacketCodec.Text.Basic

namespace PacketCodec

structure Path where
  -- the slashes at the start: none, one or exactly two
  slashes : Nat
  parts : List Text
  deriving DecidableEq

namespace Path

-- The runs of code points between slashes.
def pieces : Text → List Text
  | [] => [[]]
  | c :: rest =>
    match pieces rest with
    | [] => [[c]]
    | piece :: others => if c = 0x2F then [] :: piece :: others else (c :: piece) :: others

def ofText (t : Text) : Path :=
  let leading := (t.takeWhile (· = (0x2F : CodePoint))).length
  ⟨if leading = 2 then 2 else min leading 1,
    (pieces t).filter fun piece => piece ≠ [] && piece ≠ [0x2E]⟩

def text (p : Path) : Text :=
  if p.slashes = 0 ∧ p.parts = [] then "."
  else Text.join [List.replicate p.slashes 0x2F, Text.joinWith "/" p.parts]

-- A path seen from another. An absolute path stays as it is.
def join (p q : Path) : Path :=
  if q.slashes = 0 then ⟨p.slashes, p.parts ++ q.parts⟩ else q

-- The last part.
def name (p : Path) : Text :=
  p.parts.getLastD []

end Path

end PacketCodec
