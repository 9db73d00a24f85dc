import PacketCodec.Failure

namespace PacketCodec

inductive Identity where
  -- a name is a text, but any value may stand in its place
  | name (value : Value)
  | opcode (n : Fin 0x10000)

namespace Identity

inductive Refusal where
  | notIdentity (found : Text)
  | opcodeNotInteger (found : Text)
  | opcodeOutOfRange (n : Int)

namespace Refusal

def message : Refusal → Text
  | notIdentity found => Text.join ["packet identity must be a name or an opcode, got ", found]
  | opcodeNotInteger found => Text.join ["opcode must be an int, got ", found]
  | opcodeOutOfRange n => Text.join ["opcode ", Text.ofInt n, " out of range"]

def failure (e : Refusal) : Failure :=
  match e with
  | opcodeOutOfRange n => .showing [.int n] (.saying .badValue e.message)
  | _ => .saying .badType e.message

end Refusal

-- The packet of an opcode, which is a whole number of 16 bits.
def ofOpcode (value : Value) : Except Refusal Identity :=
  match value with
  | .int n =>
    if h : 0 ≤ n ∧ n.toNat < 0x10000 then .ok (.opcode ⟨n.toNat, h.2⟩)
    else .error (.opcodeOutOfRange n)
  | _ => .error (.opcodeNotInteger value.kind)

-- A bare text is a name, a bare whole number is an opcode.
def ofValue (value : Value) : Except Refusal Identity :=
  match value with
  | .text _ => .ok (.name value)
  | .int _ => ofOpcode value
  | _ => .error (.notIdentity value.kind)

end Identity

end PacketCodec
