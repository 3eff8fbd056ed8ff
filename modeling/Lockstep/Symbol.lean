/-!
# Symbols

A text is read one symbol at a time. A symbol is usually a Unicode scalar value, but a text in
16-bit units may hold a surrogate that has no partner, and a class written by hand may name any
32-bit number; so a symbol is a 32-bit word.

- `Symbol.toChar?`: the character that a symbol stands for, if it is a scalar value.
- `Symbol.isWord`: the ASCII word characters, which decide where words begin and end.
- `Symbol.replacement`: what a byte that is no part of a well-formed sequence is read as.
-/

namespace Lockstep

/-- One unit of a decoded text. -/
abbrev Symbol := UInt32

namespace Symbol

/-- The end of a line. -/
def newline : Symbol := 0x0A

/-- The symbol read in place of a byte that belongs to no well-formed sequence. -/
def replacement : Symbol := 0xFFFD

/-- The greatest code point. -/
def greatest : Symbol := 0x10FFFF

/-- The character with this code point; surrogates and numbers that are too great have none. -/
def toChar? (r : Symbol) : Option Char :=
  if h : r.isValidChar then some ⟨r, h⟩ else none

@[simp] theorem toChar?_val (c : Char) : toChar? c.val = some c := by
  simp [toChar?, c.valid]

theorem toChar?_eq_some_iff {r : Symbol} {c : Char} : toChar? r = some c ↔ r = c.val := by
  constructor
  · intro h
    unfold toChar? at h
    split at h
    · simp only [Option.some.injEq] at h
      rw [← h]
    · cases h
  · rintro rfl
    exact toChar?_val c

/-- A word character: an ASCII letter, an ASCII digit or the low line. -/
def isWord (r : Symbol) : Bool :=
  (0x30 ≤ r && r ≤ 0x39) || (0x41 ≤ r && r ≤ 0x5A) || (0x61 ≤ r && r ≤ 0x7A) || r == 0x5F

end Symbol

end Lockstep
