import PacketCodec.Failure

namespace PacketCodec

inductive MisfitCause where
  | notNumber (found : Text)
  | notInteger (found : Text)
  | outOfRange (n low high : Int)
  | tooLargeForDouble (n : Int)
  | tooLargeForSingle (value : Value)
  | notText
  | notRecord (found : Text)
  | notSequence (found : Text)
  | tooManyElements (count : Nat)

namespace MisfitCause

def message : MisfitCause → Text
  | notNumber found => Text.join ["expected a number, got ", found]
  | notInteger found => Text.join ["expected an integer, got ", found]
  | outOfRange n low high =>
    Text.join [Text.ofInt n, " out of range [", Text.ofInt low, ", ", Text.ofInt high, "]"]
  | tooLargeForDouble n => Text.join [Text.ofInt n, " does not fit a float"]
  | tooLargeForSingle value => Text.join [value.shown, " does not fit a 32-bit float"]
  | notText => "must be a string or None"
  | notRecord found => Text.join ["expected a mapping, got ", found]
  | notSequence found => Text.join ["expected a sequence, got ", found]
  | tooManyElements count => Text.join [Text.ofNat count, " elements exceed the array limit"]

-- The values that the message shows.
def shownValues : MisfitCause → List Value
  | outOfRange n _ _ | tooLargeForDouble n => [.int n]
  | tooLargeForSingle value => [value]
  | _ => []

end MisfitCause

structure Misfit where
  cause : MisfitCause
  -- the path of the field, null for a whole packet
  field : Value

namespace Misfit

def failure (m : Misfit) : Failure :=
  .showing m.cause.shownValues (.typeValidation (.text m.cause.message) m.field)

end Misfit

end PacketCodec
