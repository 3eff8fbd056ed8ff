import Lockstep.Program

/-!
# How a match has to begin

Before a program is run, a look at its first instructions tells something about every match it can
find. The look follows single edges only, and no more of them than there are instructions.

- `Program.literal`: the characters that every match starts with, and whether they are all of it.
- `Program.entry?`: the conditions that hold wherever a match starts, or `none` if there is no
  match.
-/

namespace Lockstep

/-- The characters that every match of a program starts with. -/
structure Literal where
  /-- The characters, in order. -/
  chars : List Char
  /-- Whether every match consists of them and nothing else. -/
  complete : Bool
  deriving DecidableEq, Repr

namespace Literal

/-- The characters as a string. -/
def text (lit : Literal) : String := String.ofList lit.chars

/-- The symbol that every match starts with, if there is one that is known. -/
def firstSymbol? (lit : Literal) : Option Symbol := lit.chars.head?.map Char.val

end Literal

namespace Program

/-- Follows jumps and capture writes from `pc`, at most `steps` of them. -/
def settle (P : Program) : (steps : Nat) → (pc : Fin P.size) → Fin P.size
  | 0, pc => pc
  | steps + 1, pc =>
    match P.instr pc with
    | .jump next | .save _ next => settle P steps next
    | _ => pc

/-- Reads off the characters that the program asks for one after the other from `pc` on, at most
`steps` of them, and where it stands after the last of them. -/
def spell (P : Program) : (steps : Nat) → (pc : Fin P.size) → List Char × Fin P.size
  | 0, pc => ([], pc)
  | steps + 1, pc =>
    match P.instr pc with
    | .consume (.single r) next =>
      match r.toChar? with
      | some c =>
        let (rest, stop) := spell P steps (P.settle P.size next)
        (c :: rest, stop)
      | none => ([], pc)
    | _ => ([], pc)

/-- The characters that every match starts with; they are all of it if a match ends right after
them. -/
def literal (P : Program) : Literal :=
  let (chars, stop) := P.spell P.size (P.settle P.size P.start)
  { chars, complete := P.instr stop = .accept }

/-- Gathers the conditions that are asked for one after the other from `pc` on, in at most `steps`
steps; `none` if nothing can be reached but a failure. -/
def gather (P : Program) :
    (steps : Nat) → (pc : Fin P.size) → (found : Conditions) → Option Conditions
  | 0, _, found => some found
  | steps + 1, pc, found =>
    match P.instr pc with
    | .assert cond next => gather P steps next (found ∪ cond)
    | .jump next | .save _ next => gather P steps next found
    | .fail => none
    | _ => some found

/-- The conditions that hold wherever a match starts; `none` if there is no match anywhere. -/
def entry? (P : Program) : Option Conditions := P.gather P.size P.start ∅

end Program

end Lockstep
