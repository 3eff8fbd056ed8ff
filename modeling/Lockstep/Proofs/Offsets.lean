import Lockstep.Text
import Mathlib.Data.Fin.Basic

/-!
# Offsets within a text

An offset of a text that is not past its end, and the step from one such offset to the next.

- `Text.Offset`, `Text.read?`: an offset, and the symbol read there with the offset behind it.
- `Text.offset_induction`: induction from the end of a text to its start.
- `Text.not_beginText_subset_context`: only the offset 0 is the start of the text.
-/

namespace Lockstep

/-! ## Conditions of the start of the text -/

namespace Conditions

/-- The start of the text is a single condition. -/
theorem beginText_subset_union {a b : Conditions} (h : beginText ⊆ a ∪ b) :
    beginText ⊆ a ∨ beginText ⊆ b := by
  have hbit : ∀ c : Conditions, beginText ⊆ c ↔ c.bits.toBitVec.getLsbD 2 = true := by
    intro c
    rw [subset_iff_getLsbD]
    constructor
    · exact fun h => h 2 (by decide)
    · intro hc i hi
      have hi2 : i = 2 := by
        by_contra hne
        have : ∀ j < 32, j ≠ 2 → beginText.bits.toBitVec.getLsbD j = false := by decide
        rcases Nat.lt_or_ge i 32 with hlt | hge
        · rw [this i hlt hne] at hi
          cases hi
        · rw [BitVec.getLsbD_of_ge _ _ hge] at hi
          cases hi
      rw [hi2]
      exact hc
  rw [hbit] at h
  rw [hbit, hbit]
  simpa using h

/-- Behind a symbol it is not the start of the text. -/
theorem not_beginText_subset_between (r : Symbol) (right : Option Symbol) :
    ¬ beginText ⊆ between (some r) right := by
  intro h
  rcases beginText_subset_union h with h | h
  · rcases beginText_subset_union h with h | h
    · rw [after] at h
      split at h <;> exact absurd h (by decide)
    · cases right with
      | none => exact absurd h (by decide)
      | some r' =>
        rw [before] at h
        split at h <;> exact absurd h (by decide)
  · split at h <;> exact absurd h (by decide)

end Conditions

namespace Text

variable {text : Text}

/-! ## Looking back -/

/-- Something was read before every offset within the text but the first. -/
theorem before_ne_none {pos : Nat} (hpos : 0 < pos) (hend : pos ≤ text.endPos) :
    text.before pos ≠ none := by
  unfold before
  rw [if_neg (by omega)]
  cases text with
  | utf8 bytes =>
    simp only [Utf8.decodeLast]
    have hlen : 0 < (bytes.extract (pos - Utf8.maxWidth) pos).toList.reverse.length := by
      simp only [endPos] at hend
      simp only [List.length_reverse, Array.length_toList, Array.size_extract, Utf8.maxWidth]
      omega
    generalize (bytes.extract (pos - Utf8.maxWidth) pos).toList.reverse = reversed at hlen
    -- backing up takes at least one byte
    have hne : (reversed.take (Utf8.backUp reversed)).reverse ≠ [] := by
      cases reversed with
      | nil => simp at hlen
      | cons b rest =>
        have hback : 0 < Utf8.backUp (b :: rest) := by
          cases rest with
          | nil => simp [Utf8.backUp]
          | cons b' rest =>
            show 0 < if Utf8.isTail b then Utf8.backUp (b' :: rest) + 1 else 1
            split <;> simp
        obtain ⟨k, hk⟩ := Nat.exists_eq_add_one_of_ne_zero (Nat.ne_of_gt hback)
        simp [hk]
    split
    · next hnone => exact absurd (Utf8.decode_eq_none_iff.mp hnone) hne
    · split <;> simp
  | utf16 units =>
    have hlen : 0 < (units.extract (pos - Utf16.maxWidth) pos).toList.reverse.length := by
      simp only [endPos] at hend
      simp only [List.length_reverse, Array.length_toList, Array.size_extract, Utf16.maxWidth]
      omega
    simp only
    generalize (units.extract (pos - Utf16.maxWidth) pos).toList.reverse = reversed at hlen
    unfold Utf16.decodeLast
    split
    · simp at hlen
    · simp
    · split <;> simp

/-- **Only the offset 0 is the start of the text.** -/
theorem not_beginText_subset_context {pos : Nat} (hpos : 0 < pos) (hend : pos ≤ text.endPos) :
    ¬ Conditions.beginText ⊆ text.context pos := by
  obtain ⟨r, hr⟩ := Option.ne_none_iff_exists'.mp (before_ne_none hpos hend)
  rw [context, hr]
  exact Conditions.not_beginText_subset_between r _

/-! ## Offsets -/

/-- An offset within a text, its end included. -/
abbrev Offset (text : Text) := Fin (text.endPos + 1)

/-- The symbol at an offset and the offset behind it; nothing at the end of the text. -/
def read? (text : Text) (i : text.Offset) : Option (Symbol × text.Offset) :=
  match h : text.step i with
  | none => none
  | some (r, width) => some (r, ⟨i + width, Nat.lt_succ_of_le (step_bounds h).2⟩)

variable {i j : text.Offset} {r : Symbol}

theorem step_of_read? (h : text.read? i = some (r, j)) : text.step i = some (r, (j : Nat) - i) := by
  unfold read? at h
  split at h
  · cases h
  · next r' width hstep =>
    cases h
    simpa using hstep

/-- What a step goes over is read. -/
theorem exists_read_of_step {width : Nat} (h : text.step i = some (r, width)) :
    ∃ j, text.read? i = some (r, j) ∧ (j : Nat) = i + width := by
  have hend := (step_bounds h).2
  refine ⟨⟨i + width, Nat.lt_succ_of_le hend⟩, ?_, rfl⟩
  unfold read?
  split
  · next hnone =>
    rw [hnone] at h
    cases h
  · next hstep =>
    rw [hstep] at h
    cases h
    rfl

theorem step_of_read?_eq_none (h : text.read? i = none) : text.step i = none := by
  unfold read? at h
  split at h
  · assumption
  · cases h

/-- What is read ends behind where it starts. -/
theorem lt_of_read? (h : text.read? i = some (r, j)) : i < j := by
  have := (step_bounds (step_of_read? h)).1
  exact Fin.lt_def.mpr (by omega)

theorem symbolAt_of_read? (h : text.read? i = some (r, j)) : text.symbolAt i = some r := by
  rw [symbolAt, step_of_read? h]
  rfl

theorem add_widthAt_of_read? (h : text.read? i = some (r, j)) : i + text.widthAt i = (j : Nat) := by
  have hlt : (i : Nat) < j := lt_of_read? h
  have hwidth : text.widthAt i = (j : Nat) - i := by
    rw [widthAt, step_of_read? h]
    rfl
  omega

theorem widthAt_ne_zero_of_read? (h : text.read? i = some (r, j)) : text.widthAt i ≠ 0 := by
  have hlt : (i : Nat) < j := lt_of_read? h
  have := add_widthAt_of_read? h
  omega

theorem symbolAt_of_read?_eq_none (h : text.read? i = none) : text.symbolAt i = none := by
  rw [symbolAt, step_of_read?_eq_none h]
  rfl

theorem widthAt_of_read?_eq_none (h : text.read? i = none) : text.widthAt i = 0 := by
  rw [widthAt, step_of_read?_eq_none h]
  rfl

/-- Nothing is read exactly at the end. -/
theorem read?_eq_none_iff : text.read? i = none ↔ (i : Nat) = text.endPos := by
  constructor
  · intro h
    have := step_eq_none_iff.mp (step_of_read?_eq_none h)
    omega
  · intro h
    cases hread : text.read? i with
    | none => rfl
    | some found =>
      have hnone : text.step i = none := step_eq_none_iff.mpr (by omega)
      rw [step_of_read? (r := found.1) (j := found.2) hread] at hnone
      cases hnone

/-- Induction from the end of a text to its start. -/
theorem offset_induction {motive : text.Offset → Prop}
    (step : ∀ i, (∀ j, i < j → motive j) → motive i) (i : text.Offset) : motive i :=
  step i fun j _ => offset_induction step j
termination_by text.endPos - i
decreasing_by
  have hlt : (i : Nat) < j := by assumption
  omega

end Text

end Lockstep
