import Lockstep.Program

/-!
# Flattening forks

A choice among many is built from forks with two arms, one inside the other. An inner fork that
nothing else leads to can hand its arms over to the outer one, in its own place, so that a thread
meets one fork instead of a chain.

- `Program.spliceFirst?`, `Program.splice`: arms with the arms of private inner forks in their
  place, for one such fork and for all of them.
- `Program.flatten`: the program with every fork so widened. An inner fork stays where it was, and
  nothing leads to it any more.
-/

namespace Lockstep

namespace Program

/-- Replaces the first arm that is a private fork by the arms of that fork; `none` if there is no
such arm. A fork is private if a single edge leads to it; the fork at `pc` itself is never
replaced. -/
def spliceFirst? {n : Nat} (indegrees : Vector Nat n) (code : Vector (Instr (Fin n)) n)
    (pc : Fin n) : List (Fin n) → Option (List (Fin n))
  | [] => none
  | arm :: rest =>
    match code.get arm with
    | .fork inner =>
      if arm ≠ pc ∧ indegrees.get arm = 1 then some (inner ++ rest)
      else (spliceFirst? indegrees code pc rest).map (arm :: ·)
    | _ => (spliceFirst? indegrees code pc rest).map (arm :: ·)

/-- Replaces private forks among the arms, and among the arms that this brings in, as long as
there are any; but no more than `budget` times, since forks may lead back to each other. -/
def splice {n : Nat} (indegrees : Vector Nat n) (code : Vector (Instr (Fin n)) n) (pc : Fin n) :
    (budget : Nat) → (arms : List (Fin n)) → List (Fin n)
  | 0, arms => arms
  | budget + 1, arms =>
    match spliceFirst? indegrees code pc arms with
    | some wider => splice indegrees code pc budget wider
    | none => arms

/-- Widens the fork at `pc`, if there is one and the number of its arms changes. -/
def widen {n : Nat} (indegrees : Vector Nat n) (code : Vector (Instr (Fin n)) n) (pc : Fin n) :
    Vector (Instr (Fin n)) n :=
  match code.get pc with
  | .fork arms =>
    let wide := splice indegrees code pc n arms
    if wide.length = arms.length then code else code.set pc (.fork wide) pc.isLt
  | _ => code

/-- The program with the forks widened, from the first address to the last. Which forks are
private is decided before any of them is widened. -/
def flatten (P : Program) : Program :=
  { P with code := (List.finRange P.size).foldl (widen P.indegrees) P.code }

@[simp] theorem flatten_size (P : Program) : P.flatten.size = P.size := rfl

@[simp] theorem flatten_start (P : Program) : P.flatten.start = P.start := rfl

end Program

end Lockstep
