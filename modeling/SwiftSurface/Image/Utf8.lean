/-!
# Reading bytes as UTF-8

`Utf8.decode` gives the characters of well-formed UTF-8, or says where the bytes stop being so: how
many bytes before are fine, and how long the sequence is that no continuation can mend.
-/

namespace SwiftSurface.Utf8

/-- Why bytes are no UTF-8. -/
structure Error where
  /-- The number of bytes that are fine. -/
  index : Nat
  /-- The length of the broken sequence there. There is none if the bytes end inside it. -/
  length : Option Nat
deriving DecidableEq

/-- The reason in words. -/
def Error.message (e : Error) : String :=
  match e.length with
  | some length =>
    "invalid utf-8 sequence of " ++ toString length ++ " bytes from index " ++ toString e.index
  | none => "incomplete utf-8 byte sequence from index " ++ toString e.index

/-- A sequence that has begun: where, how many bytes of it there are and are still to come, which
bytes may come next, and the code point so far. -/
structure Pending where
  start : Nat
  read : Nat
  missing : Nat
  low : UInt8
  high : UInt8
  codePoint : Nat

/-- The sequence that a byte from `0x80` on begins at `start`, if it begins one. The bytes that may
follow exclude overlong forms, surrogates and what lies beyond the last code point. -/
def begin? (start : Nat) (b : UInt8) : Option Pending :=
  if 0xC2 ≤ b && b ≤ 0xDF then some ⟨start, 1, 1, 0x80, 0xBF, b.toNat - 0xC0⟩
  else if b == 0xE0 then some ⟨start, 1, 2, 0xA0, 0xBF, 0⟩
  else if b == 0xED then some ⟨start, 1, 2, 0x80, 0x9F, 0xD⟩
  else if 0xE1 ≤ b && b ≤ 0xEF then some ⟨start, 1, 2, 0x80, 0xBF, b.toNat - 0xE0⟩
  else if b == 0xF0 then some ⟨start, 1, 3, 0x90, 0xBF, 0⟩
  else if 0xF1 ≤ b && b ≤ 0xF3 then some ⟨start, 1, 3, 0x80, 0xBF, b.toNat - 0xF0⟩
  else if b == 0xF4 then some ⟨start, 1, 3, 0x80, 0x8F, 4⟩
  else none

/-- Reads bytes from `index` on, inside a sequence or between two. -/
def decodeFrom (index : Nat) : Option Pending → List UInt8 → Except Error (List Char)
  | none, [] => .ok []
  | some p, [] => .error { index := p.start, length := none }
  | none, b :: rest =>
    if b < 0x80 then (Char.ofNat b.toNat :: ·) <$> decodeFrom (index + 1) none rest
    else
      match begin? index b with
      | some p => decodeFrom (index + 1) (some p) rest
      | none => .error { index, length := some 1 }
  | some p, b :: rest =>
    if p.low ≤ b && b ≤ p.high then
      let codePoint := p.codePoint * 64 + (b.toNat - 0x80)
      if p.missing ≤ 1 then (Char.ofNat codePoint :: ·) <$> decodeFrom (index + 1) none rest
      else
        decodeFrom (index + 1) (some ⟨p.start, p.read + 1, p.missing - 1, 0x80, 0xBF, codePoint⟩)
          rest
    else .error { index := p.start, length := some p.read }

/-- The characters that these bytes spell. -/
def decode (bytes : List UInt8) : Except Error (List Char) :=
  decodeFrom 0 none bytes

end SwiftSurface.Utf8
