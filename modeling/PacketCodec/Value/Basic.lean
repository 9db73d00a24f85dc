import PacketCodec.Number.Double
import PacketCodec.Text.Basic

namespace PacketCodec

inductive Value where
  | null
  | bool (b : Bool)
  | int (n : Int)
  | double (x : Double)
  | text (t : Text)
  | bytes (b : List UInt8)
  | list (items : List Value)
  | tuple (items : List Value)
  | record (entries : List (Text × Value))

namespace Value

instance : Inhabited Value := ⟨null⟩

def isNull : Value → Bool
  | null => true
  | _ => false

-- A value unless it is null, then the default.
def orElse (value default : Value) : Value :=
  if value.isNull then default else value

-- Null, false, zero and everything empty count as false.
def truth : Value → Bool
  | null => false
  | bool b => b
  | int n => n != 0
  | double x => !x.isZero
  | text t => !t.isEmpty
  | bytes b => !b.isEmpty
  | list items => !items.isEmpty
  | tuple items => !items.isEmpty
  | record entries => !entries.isEmpty

-- The whole number that a value is given as. Flags count as zero and one.
def integer? : Value → Option Int
  | bool b => some b.toNat
  | int n => some n
  | _ => none

def kind : Value → Text
  | null => "NoneType"
  | bool _ => "bool"
  | int _ => "int"
  | double _ => "float"
  | text _ => "str"
  | bytes _ => "bytes"
  | list _ => "list"
  | tuple _ => "tuple"
  | record _ => "dict"

end Value

-- The value under a key, null if the key is missing.
def lookUp (entries : List (Text × Value)) (key : Text) : Value :=
  (entries.lookup key).getD .null

-- The value under a key, at the place of the key's first entry.
def putEntry (entries : List (Text × Value)) (key : Text) (value : Value) : List (Text × Value) :=
  match entries with
  | [] => [(key, value)]
  | entry :: rest =>
    if entry.1 = key then (key, value) :: rest else entry :: putEntry rest key value

end PacketCodec
