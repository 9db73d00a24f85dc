import PacketCodec.Wire.WireType

namespace PacketCodec

structure TypeSet where
  gameVersion : Value
  types : List (Text × WireType)
  -- how many working names have been handed out
  issued : Nat

namespace NumberType

def integer (signed : Bool) (width : Nat) : NumberType :=
  ⟨.whole signed width, true⟩

end NumberType

namespace WireType

-- The types that every type set starts with.
def builtin : List (Text × WireType) :=
  [("bool", flag),
   ("byte", number (.integer false 1)),
   ("int16", number (.integer true 2)),
   ("uint16", number (.integer false 2)),
   ("int32", number (.integer true 4)),
   ("uint32", number (.integer false 4)),
   ("int64", number (.integer true 8)),
   ("uint64", number (.integer false 8)),
   ("float", number ⟨.single, false⟩),
   ("double", number ⟨.double, false⟩),
   ("string", text)]

end WireType

namespace TypeSet

def new (gameVersion : Value) : TypeSet :=
  ⟨gameVersion, WireType.builtin, 0⟩

def find? (set : TypeSet) (name : Text) : Option WireType :=
  set.types.lookup name

def contains (set : TypeSet) (name : Text) : Bool :=
  (set.find? name).isSome

def names (set : TypeSet) : List Text :=
  set.types.map (·.1)

-- A known name keeps its place and gets the new type, a new one goes to the end.
def register (set : TypeSet) (name : Text) (type : WireType) : TypeSet :=
  let types :=
    if set.contains name then
      set.types.map fun entry => if entry.1 = name then (name, type) else entry
    else set.types ++ [(name, type)]
  { set with types := types }

-- The working name with a given number.
def bindingName (hint : Text) (number : Nat) : Text :=
  Text.join ["_", hint, Text.ofNat number]

-- A working name that carries a number of its own.
def bind (set : TypeSet) (hint : Text) : Text × TypeSet :=
  (bindingName hint set.issued, { set with issued := set.issued + 1 })

end TypeSet

end PacketCodec
