import Lockstep.Conditions
import Lockstep.Text.Occurrence
import Lockstep.Text.Utf8
import Lockstep.Text.Utf16

/-!
# Texts

A text is a sequence of bytes or of 16-bit units, well formed or not. Offsets count bytes or
units.

- `Text.step`: the symbol that starts at an offset, with its width.
- `Text.before`: the symbol that ends at an offset.
- `Text.context`: the conditions that hold at an offset.
- `Text.find?`: the next place where some characters occur.
- `Input`: a text together with whether it may be searched for characters.
-/

namespace Lockstep

/-- A text that can be searched. -/
inductive Text where
  /-- Bytes, read as UTF-8. -/
  | utf8 (bytes : Array UInt8)
  /-- Units, read as UTF-16. -/
  | utf16 (units : Array UInt16)
  deriving DecidableEq, Repr

namespace Text

/-- The bytes of a string. -/
def ofString (s : String) : Text := utf8 s.toUTF8.data

/-- The offset behind the last symbol. -/
def endPos : Text → Nat
  | utf8 bytes => bytes.size
  | utf16 units => units.size

/-- The symbol that starts at an offset, with its width; nothing at the end of the text or past
it. -/
def step (text : Text) (pos : Nat) : Option (Symbol × Nat) :=
  match text with
  | utf8 bytes => Utf8.decode (bytes.extract pos (pos + Utf8.maxWidth)).toList
  | utf16 units => Utf16.decode (units.extract pos (pos + Utf16.maxWidth)).toList

/-- The symbol that ends at an offset; nothing at the start of the text or past its end. -/
def before (text : Text) (pos : Nat) : Option Symbol :=
  if text.endPos < pos then none
  else
    match text with
    | utf8 bytes => Utf8.decodeLast (bytes.extract (pos - Utf8.maxWidth) pos).toList.reverse
    | utf16 units => Utf16.decodeLast (units.extract (pos - Utf16.maxWidth) pos).toList.reverse

/-- The symbol that starts at an offset. -/
def symbolAt (text : Text) (pos : Nat) : Option Symbol := (text.step pos).map (·.1)

/-- The width of the symbol that starts at an offset; zero if there is none. -/
def widthAt (text : Text) (pos : Nat) : Nat := ((text.step pos).map (·.2)).getD 0

/-- The conditions that hold at an offset. -/
def context (text : Text) (pos : Nat) : Conditions :=
  Conditions.between (text.before pos) (text.symbolAt pos)

/-- The least offset from `pos` on where the units of some characters stand. -/
def find? (text : Text) (chars : List Char) (pos : Nat) : Option Nat :=
  match text with
  | utf8 bytes => Occurrence.next? bytes (chars.flatMap String.utf8EncodeChar) pos
  | utf16 units => Occurrence.next? units (Utf16.encode chars) pos

/-! ## A step stays within the text -/

/-- A step ends behind where it began, and within the text. -/
theorem step_bounds {text : Text} {pos width : Nat} {r : Symbol}
    (h : text.step pos = some (r, width)) : 0 < width ∧ pos + width ≤ text.endPos := by
  cases text with
  | utf8 bytes =>
    have := Utf8.width_of_decode h
    simp only [Array.length_toList, Array.size_extract] at this
    simp only [endPos]
    omega
  | utf16 units =>
    have := Utf16.width_of_decode h
    simp only [Array.length_toList, Array.size_extract] at this
    simp only [endPos]
    omega

/-- There is no step exactly at the end of the text and past it. -/
theorem step_eq_none_iff {text : Text} {pos : Nat} : text.step pos = none ↔ text.endPos ≤ pos := by
  cases text with
  | utf8 bytes =>
    simp only [step, Utf8.decode_eq_none_iff, endPos, Utf8.maxWidth]
    rw [← List.length_eq_zero_iff, Array.length_toList, Array.size_extract]
    omega
  | utf16 units =>
    simp only [step, Utf16.decode_eq_none_iff, endPos, Utf16.maxWidth]
    rw [← List.length_eq_zero_iff, Array.length_toList, Array.size_extract]
    omega

/-- A symbol of some width ends within the text. -/
theorem widthAt_bounds {text : Text} {pos : Nat} (h : text.widthAt pos ≠ 0) :
    pos + text.widthAt pos ≤ text.endPos := by
  unfold widthAt at *
  cases hs : text.step pos with
  | none => simp [hs] at h
  | some found =>
    obtain ⟨r, width⟩ := found
    exact (step_bounds hs).2

end Text

/-- A text as it is handed to a search. -/
structure Input where
  /-- The text. -/
  text : Text
  /-- Whether the search may look for the characters that every match starts with, and skip what
  lies before them. -/
  searchable : Bool := true
  deriving DecidableEq, Repr

namespace Input

/-- The least distance from `pos` to a place where a match may start, given the characters that
every match starts with; nothing if there is no such place.

The replacement symbol stands also for bytes that are part of no sequence, which a search for its
own bytes would pass over; so characters among which it occurs are not searched for in bytes. -/
def distance? (input : Input) (chars : List Char) (pos : Nat) : Option Nat :=
  if input.searchable then
    match input.text with
    | .utf8 _ =>
      if chars.any (·.val == Symbol.replacement) then some 0
      else (input.text.find? chars pos).map (· - pos)
    | .utf16 _ => (input.text.find? chars pos).map (· - pos)
  else
    none

end Input

end Lockstep
