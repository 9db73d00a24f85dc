import PacketCodec.Failure

-- Values as keys. Numbers of equal value are the same key, whatever their kinds.
-- A value that holds a list or a record is no key.

namespace PacketCodec

-- The kind of the part that keeps a value from being a key.
structure NotKey where
  kind : Text

namespace NotKey

def failure (e : NotKey) : Failure :=
  .saying .badType (Text.join ["unhashable type: '", e.kind, "'"])

end NotKey

-- What keys are compared by: a key that is no tuple is one part, and a tuple is
-- its parts between an opening and a closing one.
inductive KeyPart where
  | null
  | whole (n : Int)
  -- a number that is not whole
  | double (x : Double)
  | notANumber
  | text (t : Text)
  | bytes (b : List UInt8)
  | opening
  | closing
  deriving DecidableEq

namespace Value

-- The whole number that a value is equal to.
def whole? : Value → Option Int
  | double x => x.toInt?
  | value => value.integer?

mutual

-- The parts of a key. What is no key has none.
def keyParts? : Value → Option (List KeyPart)
  | null => some [.null]
  | bool b => some [.whole b.toNat]
  | int n => some [.whole n]
  | double x => some [if x.isNaN then .notANumber else (x.toInt?.map .whole).getD (.double x)]
  | text t => some [.text t]
  | bytes b => some [.bytes b]
  | tuple items => (keyPartsOf? items).map fun parts => .opening :: parts ++ [.closing]
  | list _ | record _ => none

def keyPartsOf? : List Value → Option (List KeyPart)
  | [] => some []
  | item :: rest => do return (← keyParts? item) ++ (← keyPartsOf? rest)

end

-- Whether two keys are alike, part by part.
def alike (value other : Value) : Bool :=
  match value.keyParts?, other.keyParts? with
  | some parts, some others => parts = others
  | _, _ => false

-- Whether a value is not a number, or holds something that is not.
def holdsNaN (value : Value) : Bool :=
  (value.keyParts?.getD []).contains .notANumber

-- Whether two values are the same key. What is not a number is the same as
-- nothing, not even as itself.
def same (value other : Value) : Bool :=
  value.alike other && !value.holdsNaN

mutual

-- What keeps a value from being a key.
def keyFault? : Value → Option NotKey
  | list items => some ⟨kind (list items)⟩
  | record entries => some ⟨kind (record entries)⟩
  | tuple items => keyFaultIn? items
  | _ => none

def keyFaultIn? : List Value → Option NotKey
  | [] => none
  | item :: rest => (keyFault? item).or (keyFaultIn? rest)

end

-- A value as a key.
def key (value : Value) : Except NotKey Value :=
  match value.keyFault? with
  | some e => .error e
  | none => .ok value

end Value

-- What is kept under keys, in the order in which the keys were first put.
abbrev Keyed (α : Type) := List (Value × α)

namespace Keyed

variable {α : Type}

def get? (entries : Keyed α) (key : Value) : Option α :=
  (entries.find? fun entry => entry.1.same key).map (·.2)

-- What is kept under a key that was taken from the keys themselves. Unlike a key
-- from elsewhere it is found also if it is not a number.
def getOwn? (entries : Keyed α) (key : Value) : Option α :=
  (entries.find? fun entry => entry.1.alike key).map (·.2)

def contains (entries : Keyed α) (key : Value) : Bool :=
  entries.any fun entry => entry.1.same key

def keys (entries : Keyed α) : List Value :=
  entries.map (·.1)

-- A key that is there already stays as it was first put.
def put (entries : Keyed α) (key : Value) (a : α) : Keyed α :=
  if entries.contains key then
    entries.map fun entry => if entry.1.same key then (entry.1, a) else entry
  else entries ++ [(key, a)]

-- What is kept after pairs were put one after the other.
def ofPairs (pairs : List (Value × α)) : Except NotKey (Keyed α) :=
  pairs.foldlM (fun entries pair => pair.1.key.map fun key => put entries key pair.2) []

end Keyed

end PacketCodec
