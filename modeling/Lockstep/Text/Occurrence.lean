/-!
# Where one sequence occurs in another

- `Occurrence.test`: whether a sequence occurs at an index.
- `Occurrence.next?`: the least index from a given one on where a sequence occurs.
-/

namespace Lockstep

namespace Occurrence

variable {α : Type} [DecidableEq α]

/-- Whether `needle` stands in `hay` at the index `i`. -/
def test (hay : Array α) : (needle : List α) → (i : Nat) → Bool
  | [], _ => true
  | x :: rest, i => hay[i]? == some x && test hay rest (i + 1)

/-- The least index from `i` on at which `needle` stands in `hay`. -/
def next? (hay : Array α) (needle : List α) (i : Nat) : Option Nat :=
  if i ≤ hay.size then
    if test hay needle i then some i else next? hay needle (i + 1)
  else
    none
termination_by hay.size + 1 - i

end Occurrence

end Lockstep
