import Lockstep.Symbol

/-!
# Text in bytes

Bytes are read as UTF-8. A sequence is well formed if it is the shortest one for a scalar value; a
byte that does not start a well-formed sequence is read alone, as the replacement symbol.

- `Utf8.wellFormed?`: the well-formed sequence at the front of some bytes.
- `Utf8.decode`: the symbol at the front of some bytes, with the number of bytes it takes.
- `Utf8.decodeLast`: the symbol at the end of some bytes.
-/

namespace Lockstep

namespace Utf8

/-- A byte that continues a sequence. -/
def isTail (b : UInt8) : Bool := 0x80 ≤ b && b ≤ 0xBF

/-- The six bits that a byte contributes when it continues a sequence. -/
def tailBits (b : UInt8) : Nat := b.toNat % 0x40

/-- How many bytes a sequence has that starts with `b`, the bits that `b` contributes, and the
least number that needs so many bytes. -/
def lead? (b : UInt8) : Option (Nat × Nat × Nat) :=
  if b < 0x80 then some (1, b.toNat, 0)
  else if b < 0xC2 then none
  else if b < 0xE0 then some (2, b.toNat - 0xC0, 0x80)
  else if b < 0xF0 then some (3, b.toNat - 0xE0, 0x800)
  else if b < 0xF5 then some (4, b.toNat - 0xF0, 0x10000)
  else none

/-- The number spelled by the bits of a lead byte and the bytes that continue it. -/
def value (leadBits : Nat) (tail : List UInt8) : Nat :=
  tail.foldl (fun n b => n * 0x40 + tailBits b) leadBits

/-- The well-formed sequence at the front of some bytes: its scalar value, and how many bytes it
has. -/
def wellFormed? : List UInt8 → Option (Nat × Nat)
  | [] => none
  | b :: rest =>
    match lead? b with
    | none => none
    | some (width, leadBits, least) =>
      let tail := rest.take (width - 1)
      let n := value leadBits tail
      if tail.length = width - 1 ∧ tail.all isTail ∧ least ≤ n ∧ n.isValidChar then
        some (n, width)
      else
        none

/-- The symbol at the front of some bytes, with the number of bytes it takes; nothing if there are
no bytes. -/
def decode (bytes : List UInt8) : Option (Symbol × Nat) :=
  if bytes.isEmpty then none
  else
    match wellFormed? bytes with
    | some (n, width) => some (UInt32.ofNat n, width)
    | none => some (Symbol.replacement, 1)

/-- The most bytes that a sequence has. -/
def maxWidth : Nat := 4

/-- A well-formed sequence is not empty and no longer than the bytes it is read from. -/
theorem width_of_wellFormed? {bytes : List UInt8} {n width : Nat}
    (h : wellFormed? bytes = some (n, width)) : 0 < width ∧ width ≤ bytes.length := by
  cases bytes with
  | nil => simp [wellFormed?] at h
  | cons b rest =>
    have hlead : ∀ {w bits least : Nat}, lead? b = some (w, bits, least) → 0 < w := by
      intro w bits least hb
      unfold lead? at hb
      grind
    cases hb : lead? b with
    | none => simp [wellFormed?, hb] at h
    | some lead =>
      obtain ⟨w, bits, least⟩ := lead
      have hw := hlead hb
      simp only [wellFormed?, hb] at h
      split at h
      · next hall =>
        have hlen := hall.1
        simp only [Option.some.injEq, Prod.mk.injEq] at h
        obtain ⟨-, rfl⟩ := h
        rw [List.length_take] at hlen
        rw [List.length_cons]
        omega
      · cases h

/-- A decoded symbol takes at least one byte, and no more than there are. -/
theorem width_of_decode {bytes : List UInt8} {r : Symbol} {width : Nat}
    (h : decode bytes = some (r, width)) : 0 < width ∧ width ≤ bytes.length := by
  unfold decode at h
  split at h
  · cases h
  · next hne =>
    have hpos : 0 < bytes.length := by
      cases bytes with
      | nil => simp at hne
      | cons => simp
    split at h
    · next n w hw =>
      simp only [Option.some.injEq, Prod.mk.injEq] at h
      obtain ⟨-, rfl⟩ := h
      exact width_of_wellFormed? hw
    · simp only [Option.some.injEq, Prod.mk.injEq] at h
      obtain ⟨-, rfl⟩ := h
      omega

/-- Nothing can be decoded only where there is nothing. -/
@[simp] theorem decode_eq_none_iff {bytes : List UInt8} : decode bytes = none ↔ bytes = [] := by
  cases bytes with
  | nil => simp [decode]
  | cons b rest =>
    simp only [decode, List.isEmpty_cons, Bool.false_eq_true, if_false, reduceCtorEq, iff_false]
    split <;> simp

/-- How many bytes from the end may make up one sequence: those that continue one, and the one
byte before them. The bytes are given last one first. -/
def backUp : List UInt8 → Nat
  | [] => 0
  | [_] => 1
  | b :: rest => if isTail b then backUp rest + 1 else 1

/-- The symbol at the end of a few bytes, given last one first: the sequence found by backing up,
if it reaches up to the end, and otherwise the replacement symbol. -/
def decodeLast (reversed : List UInt8) : Option Symbol :=
  let width := backUp reversed
  match decode (reversed.take width).reverse with
  | none => none
  | some (r, w) => if w = width then some r else some Symbol.replacement

end Utf8

end Lockstep
