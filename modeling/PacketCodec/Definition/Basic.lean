import PacketCodec.Text.Basic

namespace PacketCodec

-- A list of fields. A leaf has no member list, a branch has one, which may be
-- empty.
inductive FieldList where
  | nil
  | leaf (name type : Text) (rest : FieldList)
  | branch (name type : Text) (members rest : FieldList)
  deriving DecidableEq

namespace FieldList

def isEmpty : FieldList → Bool
  | nil => true
  | _ => false

-- The fields in the opposite order, in front of others. Their members keep
-- their order.
def reverseOnto : FieldList → FieldList → FieldList
  | nil, after => after
  | leaf name type rest, after => rest.reverseOnto (leaf name type after)
  | branch name type members rest, after => rest.reverseOnto (branch name type members after)

def reverse (fields : FieldList) : FieldList :=
  fields.reverseOnto nil

end FieldList

def arrayType : Text := "array"

def objectType : Text := "object"

-- The two types whose fields have members.
def isComposite (type : Text) : Bool :=
  type = arrayType || type = objectType

end PacketCodec
