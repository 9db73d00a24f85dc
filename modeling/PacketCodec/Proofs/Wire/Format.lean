import PacketCodec.Wire.TypeSet

namespace PacketCodec

namespace Packing

-- The bytes of a number that fits.
def encoding : Packing → Value → List UInt8
  | whole _ width, .int n => LittleEndian.encodeInt width n
  | whole _ _, _ => []
  | single, value =>
    match value.toDouble? with
    | some x => LittleEndian.encode 4 (x.convert : Single).toBits
    | none => []
  | double, value =>
    match value.toDouble? with
    | some x => LittleEndian.encode 8 x.toBits
    | none => []

-- A number as it comes back: whole numbers unchanged, all others as doubles,
-- rounded to singles where they are kept as such.
def normal : Packing → Value → Value
  | whole _ _, value => value
  | single, value =>
    match value.toDouble? with
    | some x => .double (x.convert : Single).convert
    | none => value
  | double, value =>
    match value.toDouble? with
    | some x => .double x
    | none => value

end Packing

-- Bytes of the same number in a format. The payload of what is not a number is
-- free.
def SameNumber (f : FloatFormat) (read written : List UInt8) : Prop :=
  let x : Binary f := Binary.ofBits (LittleEndian.decode read)
  let y : Binary f := Binary.ofBits (LittleEndian.decode written)
  written.length = read.length ∧
    (written = read ∨ x.isNaN = true ∧ y.isNaN = true ∧ y.negative = x.negative)

namespace WireType

-- The wire type of a name. Names of no wire type do not compile.
def ofName (name : Text) : WireType :=
  (builtin.lookup name).getD text

-- The bytes of a value that fits.
def encoding : WireType → Value → List UInt8
  | flag, value => [if value.truth then 1 else 0]
  | number type, value => type.packing.encoding value
  | text, .text t => t.units.flatMap CodeUnit.bytes ++ [0, 0]
  | text, _ => [0, 0]

-- A value as it comes back.
def normal : WireType → Value → Value
  | flag, value => .bool value.truth
  | number type, value => type.packing.normal value
  | text, .null => .text []
  | text, value => value

-- Whether bytes spell a value. A text runs up to its first zero unit.
def Spells : WireType → List UInt8 → Value → Prop
  | flag, bytes, value => ∃ b : UInt8, bytes = [b] ∧ value = .bool (b != 0)
  | number type, bytes, value =>
    bytes.length = type.packing.width ∧ value = type.packing.unpack bytes
  | text, bytes, value =>
    ∃ units : List CodeUnit, 0 ∉ units ∧ bytes = units.flatMap CodeUnit.bytes ++ [0, 0] ∧
      value = .text (Text.ofUnits units)

-- What the bytes of a field become when they are read and written again: a flag
-- becomes zero or one, what is not a number may change its payload, and all
-- else stays.
def Rewritten : WireType → (read written : List UInt8) → Prop
  | flag, read, written => ∃ b : UInt8, read = [b] ∧ written = [if b = 0 then 0 else 1]
  | number ⟨.whole _ width, _⟩, read, written => read.length = width ∧ written = read
  | number ⟨.single, _⟩, read, written => read.length = 4 ∧ SameNumber .binary32 read written
  | number ⟨.double, _⟩, read, written => read.length = 8 ∧ SameNumber .binary64 read written
  | text, read, written =>
    ∃ units : List CodeUnit, 0 ∉ units ∧ read = units.flatMap CodeUnit.bytes ++ [0, 0] ∧
      written = read

-- The wire types that names stand for at the start: the whole ones are checked
-- as such, the others as real numbers.
inductive Standard : WireType → Prop
  | flag : Standard flag
  | whole (signed : Bool) (width : Nat) (hw : 0 < width) :
      Standard (number (.integer signed width))
  | single : Standard (number ⟨.single, false⟩)
  | double : Standard (number ⟨.double, false⟩)
  | text : Standard text

theorem standard_builtin : ∀ entry ∈ builtin, entry.2.Standard := by
  simp only [builtin, List.forall_mem_cons]
  exact ⟨.flag, .whole _ _ (by decide), .whole _ _ (by decide), .whole _ _ (by decide),
    .whole _ _ (by decide), .whole _ _ (by decide), .whole _ _ (by decide),
    .whole _ _ (by decide), .single, .double, .text, fun _ h => absurd h List.not_mem_nil⟩

-- The bytes of a number, none for the others.
def width : WireType → Nat
  | number type => type.packing.width
  | _ => 0

theorem width_builtin : ∀ entry ∈ builtin, entry.2.width ≤ 8 := by
  decide

theorem standard_of_lookup (name : Text) (wire : WireType) (h : builtin.lookup name = some wire) :
    wire.Standard := by
  obtain ⟨before, after, hsplit, -⟩ := List.lookup_eq_some_iff.mp h
  exact standard_builtin (name, wire) (by rw [hsplit]; simp)

theorem width_of_lookup (name : Text) (wire : WireType) (h : builtin.lookup name = some wire) :
    wire.width ≤ 8 := by
  obtain ⟨before, after, hsplit, -⟩ := List.lookup_eq_some_iff.mp h
  exact width_builtin (name, wire) (by rw [hsplit]; simp)

end WireType

end PacketCodec
