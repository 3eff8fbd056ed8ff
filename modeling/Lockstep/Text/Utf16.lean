import Lockstep.Symbol

/-!
# Text in 16-bit units

Units are read as UTF-16. A high surrogate with a low one behind it is one symbol; a surrogate
without its partner is a symbol of its own.

- `Utf16.decode`: the symbol at the front of some units, with the number of units it takes.
- `Utf16.decodeLast`: the symbol at the end of some units.
- `Utf16.encode`: the units of some characters.
-/

namespace Lockstep

namespace Utf16

/-- The first half of a pair. -/
def isHigh (u : UInt16) : Bool := 0xD800 ≤ u && u < 0xDC00

/-- The second half of a pair. -/
def isLow (u : UInt16) : Bool := 0xDC00 ≤ u && u < 0xE000

/-- The symbol that a high and a low surrogate stand for together. -/
def combine (high low : UInt16) : Symbol :=
  UInt32.ofNat (0x10000 + (high.toNat - 0xD800) * 0x400 + (low.toNat - 0xDC00))

/-- The symbol at the front of some units, with the number of units it takes. -/
def decode : List UInt16 → Option (Symbol × Nat)
  | [] => none
  | [u] => some (u.toUInt32, 1)
  | u :: v :: _ => if isHigh u && isLow v then some (combine u v, 2) else some (u.toUInt32, 1)

/-- A decoded symbol takes at least one unit, and no more than there are. -/
theorem width_of_decode {units : List UInt16} {r : Symbol} {width : Nat}
    (h : decode units = some (r, width)) : 0 < width ∧ width ≤ units.length := by
  unfold decode at h
  split at h
  · cases h
  · simp only [Option.some.injEq, Prod.mk.injEq] at h
    obtain ⟨-, rfl⟩ := h
    simp
  · split at h <;>
      (simp only [Option.some.injEq, Prod.mk.injEq] at h
       obtain ⟨-, rfl⟩ := h
       simp only [List.length_cons]
       omega)

/-- Nothing can be decoded only where there is nothing. -/
@[simp] theorem decode_eq_none_iff {units : List UInt16} : decode units = none ↔ units = [] := by
  unfold decode
  split <;> simp
  split <;> simp

/-- The most units that a symbol takes. -/
def maxWidth : Nat := 2

/-- The symbol at the end of some units, given last one first. -/
def decodeLast : List UInt16 → Option Symbol
  | [] => none
  | [u] => some u.toUInt32
  | u :: v :: _ => if isLow u && isHigh v then some (combine v u) else some u.toUInt32

/-- The units of a character. -/
def encodeChar (c : Char) : List UInt16 :=
  let n := c.toNat
  if n < 0x10000 then
    [UInt16.ofNat n]
  else
    [UInt16.ofNat (0xD800 + (n - 0x10000) / 0x400), UInt16.ofNat (0xDC00 + (n - 0x10000) % 0x400)]

/-- The units of some characters, in order. -/
def encode (cs : List Char) : List UInt16 := cs.flatMap encodeChar

end Utf16

end Lockstep
