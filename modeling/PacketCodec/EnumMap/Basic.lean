import PacketCodec.Value.Order

namespace PacketCodec

namespace EnumMap

structure Entry where
  name : Value
  code : Nat
  -- whether the code stands for the name as well
  isMutual : Bool

namespace Entry

-- Whether a code stands for the name of an entry.
def isNamedBy (entry : Entry) (code : Int) : Bool :=
  entry.isMutual && (entry.code : Int) = code

end Entry

end EnumMap

-- The entries are kept in the order in which they were added. A name stands for
-- one code and a code for one name.
structure EnumMap where
  entries : List EnumMap.Entry
  -- the largest code that is accepted, null if there is none
  maxCode : Value

namespace EnumMap

inductive AddError where
  | notInteger (name : Value) (found : Text)
  | outOfRange (name : Value) (code : Int)
  | notKey (e : NotKey)
  | notOrdered (e : NotOrdered)
  -- a name stands for a code that stands for no name
  | noSuchCode (code : Nat)

namespace AddError

def message : AddError → Text
  | notInteger name found => Text.join ["code for ", name.shown, " must be an int, got ", found]
  | outOfRange name code =>
    if Text.isWritable code then
      Text.join ["code ", Text.ofInt code, " for ", name.shown, " out of range"]
    else Text.unwritable
  | notKey e => e.failure.message
  | notOrdered e => e.failure.message
  | noSuchCode code => Text.ofNat code

def failure : AddError → Failure
  | notKey e => e.failure
  | notOrdered e => e.failure
  | noSuchCode code => { fault := .badKey, args := [.int code] }
  | e => .saying .badValue e.message

end AddError

def empty (maxCode : Value) : EnumMap :=
  ⟨[], maxCode⟩

-- Whether a code is in the range of the map. A negative code is out of every
-- range.
def accepts (map : EnumMap) (code : Int) : Except NotOrdered Bool :=
  if code < 0 then .ok false
  else if map.maxCode.isNull then .ok true
  else ((Value.int code).compared .greater map.maxCode).map (!·)

def codeOf (map : EnumMap) (name : Value) : Option Nat :=
  (map.entries.find? (·.name.same name)).map (·.code)

def nameOf (map : EnumMap) (code : Int) : Option Value :=
  (map.entries.find? (·.isNamedBy code)).map (·.name)

def names (map : EnumMap) : List Value :=
  map.entries.map (·.name)

def codes (map : EnumMap) : List Nat :=
  (map.entries.filter (·.isMutual)).map (·.code)

def contains (map : EnumMap) (name : Value) : Bool :=
  (map.codeOf name).isSome

def size (map : EnumMap) : Nat :=
  map.entries.length

def withoutName (map : EnumMap) (name : Value) : EnumMap :=
  { map with entries := map.entries.filter fun entry => !entry.name.same name }

-- The map with a code that stands for no name.
def withoutCode (map : EnumMap) (code : Nat) : EnumMap :=
  { map with
    entries := map.entries.map fun entry =>
      if entry.isNamedBy code then { entry with isMutual := false } else entry }

-- Forgets a name and the code it stands for, which must stand for a name.
def dropName (map : EnumMap) (name : Value) : Except AddError Unit × EnumMap :=
  match map.codeOf name with
  | none => (.ok (), map)
  | some code =>
    if code ∈ map.codes then (.ok (), (map.withoutCode code).withoutName name)
    else (.error (.noSuchCode code), map.withoutName name)

-- Forgets a code and the name it stands for. A name that is null stays.
def dropCode (map : EnumMap) (code : Nat) : EnumMap :=
  { map with
    entries := map.entries.filter fun entry => !entry.isNamedBy code || entry.name.isNull }
    |>.withoutCode code

-- Makes a name and a code stand for each other in place of what either stood
-- for before.
def insert (map : EnumMap) (name : Value) (code : Nat) : Except AddError Unit × EnumMap :=
  match map.dropName name with
  | (.error e, map) => (.error e, map)
  | (.ok _, map) =>
    let map := map.dropCode code
    (.ok (), { map with entries := map.entries ++ [⟨name, code, true⟩] })

-- The answer to adding a pair, and the map afterwards.
def add (map : EnumMap) (name code : Value) : Except AddError Unit × EnumMap :=
  match code with
  | .int code =>
    match map.accepts code, name.key with
    | .ok true, .ok name => map.insert name code.toNat
    | .ok true, .error e => (.error (.notKey e), map)
    | .ok false, _ => (.error (.outOfRange name code), map)
    | .error e, _ => (.error (.notOrdered e), map)
  | _ => (.error (.notInteger name code.kind), map)

-- Adds pairs one after the other, up to the first that is not accepted.
def addAll (map : EnumMap) : List (Value × Value) → Except AddError EnumMap
  | [] => .ok map
  | (name, code) :: rest =>
    match map.add name code with
    | (.ok _, map) => map.addAll rest
    | (.error e, _) => .error e

end EnumMap

end PacketCodec
