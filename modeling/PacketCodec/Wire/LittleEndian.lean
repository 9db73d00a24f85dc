namespace PacketCodec

-- Powers are those of the core library.
attribute [local instance (high)] instPowNat

namespace LittleEndian

def encode : Nat → Nat → List UInt8
  | 0, _ => []
  | width + 1, n => UInt8.ofNat (n % 256) :: encode width (n / 256)

def decode : List UInt8 → Nat
  | [] => 0
  | b :: rest => b.toNat + 256 * decode rest

-- Two's complement.
def encodeInt (width : Nat) (n : Int) : List UInt8 :=
  encode width (n % 256 ^ width).toNat

def decodeInt (bytes : List UInt8) : Int :=
  let n := decode bytes
  if 2 * n < 256 ^ bytes.length then n else n - 256 ^ bytes.length

end LittleEndian

end PacketCodec
