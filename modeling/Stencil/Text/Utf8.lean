/-
Decoding of bytes as UTF-8. Each longest beginning of a well formed sequence that breaks off becomes
one U+FFFD, and so does every byte that cannot begin a sequence; a byte order mark is kept.
-/
import Stencil.Text.Unit

namespace Stencil.Text

/-- Between two bytes: nothing owed, or so many continuation bytes, with the bounds of the next one
and the bits read so far. -/
inductive Utf8State
  | idle
  | owed (count : Nat) (low high : UInt8) (bits : Nat)
deriving DecidableEq, Repr

namespace Utf8State

/-- The output and the state after a byte that begins a sequence. -/
def first (b : UInt8) : Text × Utf8State :=
  if b < 0x80 then ([b.toUInt16], idle)
  else if b < 0xC2 then ([replacement], idle)
  else if b < 0xE0 then ([], owed 1 0x80 0xBF (b.toNat - 0xC0))
  else if b = 0xE0 then ([], owed 2 0xA0 0xBF 0)
  else if b = 0xED then ([], owed 2 0x80 0x9F 0xD)
  else if b < 0xF0 then ([], owed 2 0x80 0xBF (b.toNat - 0xE0))
  else if b = 0xF0 then ([], owed 3 0x90 0xBF 0)
  else if b < 0xF4 then ([], owed 3 0x80 0xBF (b.toNat - 0xF0))
  else if b = 0xF4 then ([], owed 3 0x80 0x8F 4)
  else ([replacement], idle)

/-- The output and the state after one more byte. A byte out of bounds breaks the sequence off and
is read again as the first of the next one. -/
def step : Utf8State → UInt8 → Text × Utf8State
  | idle, b => first b
  | owed count low high bits, b =>
    if low ≤ b ∧ b ≤ high then
      let bits := bits * 64 + (b.toNat - 0x80)
      if count ≤ 1 then (ofCodePoint bits, idle) else ([], owed (count - 1) 0x80 0xBF bits)
    else
      let (out, state) := first b
      (replacement :: out, state)

/-- What remains to be written at the end of the bytes. -/
def close : Utf8State → Text
  | idle => []
  | owed .. => [replacement]

end Utf8State

def decodeFrom (s : Utf8State) : List UInt8 → Text
  | [] => s.close
  | b :: bs => (s.step b).1 ++ decodeFrom (s.step b).2 bs

/-- The text that bytes encode. -/
def ofUtf8 (bytes : List UInt8) : Text := decodeFrom .idle bytes

end Stencil.Text
