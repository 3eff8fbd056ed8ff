/-!
# What can go wrong

- `Flaw`: what is wrong with a program that does not hang together.
- `Error`: why a program could not be built, or a search not be finished.
- `Error.message`: the one place where errors are put into words.
-/

namespace Lockstep

/-- What is wrong with a program. Addresses are counted from zero. -/
inductive Flaw where
  /-- There is no instruction. -/
  | empty
  /-- The program starts at an address without an instruction. -/
  | startOutOfRange (start size : Nat)
  /-- A link is to leave from an address without an instruction. -/
  | missingInstr (pc : Nat)
  /-- A link is to leave along an arm that the instruction does not have. -/
  | missingArm (pc arm : Nat)
  /-- A link is to leave along an arm that leads somewhere already. -/
  | linkedTwice (pc arm : Nat)
  /-- An arm of the instruction leads nowhere yet. -/
  | unlinked (pc : Nat)
  /-- An arm of the instruction leads to an address without an instruction. -/
  | targetOutOfRange (pc target size : Nat)
  /-- A thread waits at an instruction that threads pass through. -/
  | strayThread (pc : Nat)
  /-- Any other flaw, in the words of whoever found it. -/
  | other (description : String)
  deriving DecidableEq, Repr

namespace Flaw

/-- A flaw in words. -/
def message : Flaw → String
  | empty => "empty program"
  | startOutOfRange start size => s!"start {start} out of range ({size} instructions)"
  | missingInstr pc => s!"patch of missing instruction {pc}"
  | missingArm pc arm => s!"pc {pc} has no arm {arm}"
  | linkedTwice pc arm => s!"pc {pc} arm {arm} patched twice"
  | unlinked pc => s!"unresolved patch list at pc {pc}"
  | targetOutOfRange pc target size => s!"pc {pc} points to {target} ({size} instructions)"
  | strayThread pc => s!"bad instruction in run queue at pc {pc}"
  | other description => description

end Flaw

/-- Why a program could not be built or a search not be finished. -/
inductive Error where
  /-- The program does not hang together; whoever put it together is at fault. -/
  | malformed (flaw : Flaw)
  /-- A repetition asks for more copies than it allows. -/
  | invalidRepeat (min max : Nat)
  /-- A repetition asks for too many copies. -/
  | repeatTooLarge (count : Nat)
  /-- The program needs more instructions than are allowed. -/
  | programTooLarge (size limit : Nat)
  /-- The search took longer than is allowed. -/
  | timeLimitOver
  /-- An argument makes no sense. -/
  | invalidArgument
  deriving DecidableEq, Repr

namespace Error

/-- An error in words. -/
def message : Error → String
  | malformed flaw => "internal error: " ++ flaw.message
  | invalidRepeat min max => s!"invalid repeat range \x7b{min},{max}\x7d"
  | repeatTooLarge count => s!"repeat count too large: {count}"
  | programTooLarge size limit => s!"program too large: {size} instructions (limit {limit})"
  | timeLimitOver => "time limit over"
  | invalidArgument => "invalid argument"

/-- Whether the fault lies with the program itself, and not with a limit or an argument. -/
def isInternal : Error → Bool
  | malformed _ => true
  | _ => false

end Error

end Lockstep
