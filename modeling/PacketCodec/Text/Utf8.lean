import PacketCodec.Text.Basic

-- UTF-8, read strictly: no overlong form, no surrogate, nothing above 0x10FFFF.

namespace PacketCodec

namespace Utf8

-- What a character still needs: how many bytes, the bounds of the next one,
-- and the value of the bits read so far.
structure Pending where
  missing : Nat
  low : Nat
  high : Nat
  value : Nat

-- The characters of more than one byte, by their first byte. The bounds of the
-- second byte leave out the overlong forms, the surrogates and what lies above
-- the last code point.
def lead (b : Nat) : Option Pending :=
  if 0xC2 ≤ b ∧ b ≤ 0xDF then some ⟨1, 0x80, 0xBF, b - 0xC0⟩
  else if b = 0xE0 then some ⟨2, 0xA0, 0xBF, 0⟩
  else if b = 0xED then some ⟨2, 0x80, 0x9F, 0xD⟩
  else if 0xE1 ≤ b ∧ b ≤ 0xEF then some ⟨2, 0x80, 0xBF, b - 0xE0⟩
  else if b = 0xF0 then some ⟨3, 0x90, 0xBF, 0⟩
  else if 0xF1 ≤ b ∧ b ≤ 0xF3 then some ⟨3, 0x80, 0xBF, b - 0xF0⟩
  else if b = 0xF4 then some ⟨3, 0x80, 0x8F, 4⟩
  else none

-- Reads on from a state between characters (`none`) or inside one, with the
-- text before it in reverse.
def decodeFrom : Option Pending → Text → List UInt8 → Option Text
  | none, before, [] => some before.reverse
  | some _, _, [] => none
  | none, before, b :: rest =>
    if h : b.toNat < 0x80 then
      decodeFrom none (⟨b.toNat, Nat.lt_trans h (by decide)⟩ :: before) rest
    else
      match lead b.toNat with
      | none => none
      | some pending => decodeFrom (some pending) before rest
  | some pending, before, b :: rest =>
    if pending.low ≤ b.toNat ∧ b.toNat ≤ pending.high then
      let value := pending.value * 0x40 + b.toNat % 0x40
      if pending.missing = 1 then
        if h : value < 0x110000 then decodeFrom none (⟨value, h⟩ :: before) rest else none
      else decodeFrom (some ⟨pending.missing - 1, 0x80, 0xBF, value⟩) before rest
    else none

def decode? (bytes : List UInt8) : Option Text :=
  decodeFrom none [] bytes

end Utf8

end PacketCodec
