import Lockstep.Slots
import Lockstep.Text.Quoted

/-!
# Matches

- `Match`: a match in a string, by the offsets of its two ends.
- `Captures`: a match with its groups.
- `Captures.get?`, `Captures.groups`: one group, and all of them.
- `Captures.summary`: the texts of all groups, quoted.
-/

namespace Lockstep

/-- A match in a string. -/
structure Match where
  /-- The string that was searched. -/
  text : String
  /-- The offset of the first byte. -/
  start : Nat
  /-- The offset behind the last byte. -/
  stop : Nat
  deriving DecidableEq, Repr

namespace Match

/-- How many bytes the match has. -/
def size (m : Match) : Nat := m.stop - m.start

/-- Whether the match is empty. -/
def isEmpty (m : Match) : Bool := m.start == m.stop

/-- The text of the match. There is none if an offset is inside a character or past the end, or if
the ends are the wrong way round. -/
def slice? (m : Match) : Option String :=
  if m.start ≤ m.stop ∧ String.Pos.Raw.isValid m.text ⟨m.start⟩ ∧
      String.Pos.Raw.isValid m.text ⟨m.stop⟩ then
    some (String.Pos.Raw.extract m.text ⟨m.start⟩ ⟨m.stop⟩)
  else
    none

end Match

/-- A match with its groups; group 0 is the whole match. -/
structure Captures where
  /-- The string that was searched. -/
  text : String
  /-- Two slots for each group. -/
  slots : Slots
  deriving DecidableEq, Repr

namespace Captures

/-- How many groups there are, with the whole match. -/
def size (c : Captures) : Nat := c.slots.size / 2

/-- Whether there are no groups at all. -/
def isEmpty (c : Captures) : Bool := c.slots.isEmpty

/-- A group, if it took part in the match. -/
def get? (c : Captures) (i : Nat) : Option Match := do
  let start ← c.slots[2 * i]?.join
  let stop ← c.slots[2 * i + 1]?.join
  return { text := c.text, start, stop }

/-- All groups, in order. -/
def groups (c : Captures) : List (Option Match) := (List.range c.size).map c.get?

/-- The texts of all groups, quoted; there is none if a group has no text. -/
def summary (c : Captures) : Option String := do
  let entries ← c.groups.mapM fun group => match group with
    | none => some "None"
    | some m => m.slice?.map fun text => "Some(" ++ Quoted.quote text ++ ")"
  return "[" ++ String.intercalate ", " entries ++ "]"

end Captures

end Lockstep
