import PacketCodec.Definition.Basic
import PacketCodec.Wire.WireType

namespace PacketCodec

inductive Layout where
  | nil
  | scalar (name type : Text) (wire : WireType) (rest : Layout)
  | object (name : Text) (members rest : Layout)
  | array (name count : Text) (element rest : Layout)

namespace Layout

-- The number in front of an array.
def countType : NumberType :=
  ⟨.whole false 2, true⟩

def maxElements : Nat :=
  0xFFFF

-- The path of a member.
def member (path name : Text) : Text :=
  if path = [] then name else Text.join [path, ".", name]

-- The path of an array's elements in general, and of one of them.
def elements (path : Text) : Text :=
  Text.join [path, "[]"]

def element (path : Text) (i : Nat) : Text :=
  Text.join [path, "[", Text.ofNat i, "]"]

-- The path and the wire type of everything on the wire, in wire order. The
-- count of an array stands under its working name.
def rows : Layout → (path : Text) → List (Text × Text)
  | nil, _ => []
  | scalar name type _ rest, path => (member path name, type) :: rest.rows path
  | object name members rest, path => members.rows (member path name) ++ rest.rows path
  | array name count element rest, path =>
    (member (member path name) count, "uint16") ::
      (element.rows (elements (member path name)) ++ rest.rows path)

end Layout

end PacketCodec
