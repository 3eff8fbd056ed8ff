import Lockstep.Error
import Lockstep.Program

/-!
# Building a program

While a program is built, edges may still lead nowhere. Links for them are noted down in any
order, even before the instruction they leave from exists, and are put in all at once when the
program is finished.

- `Hole`: an edge that leads nowhere yet, by the address of its instruction and the index of its
  arm.
- `Builder`: the instructions so far, the start, and the links that have been noted down.
- `Builder.finish`: the finished program, or the first flaw that keeps it from being one.
-/

namespace Lockstep

/-- The edge of the instruction at `pc` that has the index `arm`. -/
structure Hole where
  /-- The address of the instruction. -/
  pc : Nat
  /-- The index of the edge among the edges of the instruction. -/
  arm : Nat
  deriving DecidableEq, Repr

/-- An edge of an unfinished program: an address, or nowhere yet. -/
abbrev Edge := Option Nat

/-- A program that is being built. -/
structure Builder where
  /-- The instructions so far. -/
  code : Array (Instr Edge) := #[]
  /-- Where the program is to start. -/
  start : Nat := 0
  /-- The links to put in, oldest first. -/
  links : Array (Hole × Nat) := #[]

namespace Builder

/-- Adds an instruction at the end. -/
def push (b : Builder) (i : Instr Edge) : Builder := { b with code := b.code.push i }

/-- Notes down that all these holes are to lead to `target`. -/
def link (b : Builder) (holes : List Hole) (target : Nat) : Builder :=
  { b with links := b.links ++ (holes.map fun hole => (hole, target)).toArray }

/-- Lets the program start at `pc`. -/
def startAt (b : Builder) (pc : Nat) : Builder := { b with start := pc }

/-- The number of capture slots that the instructions so far need. -/
def slotCount (b : Builder) : Nat := Instr.slotCount b.code

/-! ## Finishing -/

/-- Puts one link in; the hole has to be there and still be open. -/
def applyLink {n : Nat} (code : Vector (Instr Edge) n) (link : Hole × Nat) :
    Except Flaw (Vector (Instr Edge) n) :=
  let (hole, target) := link
  if h : hole.pc < n then
    match code[hole.pc].successors[hole.arm]? with
    | none => .error (.missingArm hole.pc hole.arm)
    | some (some _) => .error (.linkedTwice hole.pc hole.arm)
    | some none => .ok (code.set hole.pc (code[hole.pc].setArm hole.arm (some target)))
  else
    .error (.missingInstr hole.pc)

/-- The instructions with all links put in, oldest first. -/
def linked (b : Builder) : Except Flaw (Vector (Instr Edge) b.code.size) :=
  b.links.foldlM applyLink (Vector.mk b.code rfl)

/-- An edge of the instruction at `pc` as an address of a program with `n` instructions. -/
def resolve (n pc : Nat) : Edge → Except Flaw (Fin n)
  | none => .error (.unlinked pc)
  | some target =>
    if h : target < n then .ok ⟨target, h⟩ else .error (.targetOutOfRange pc target n)

/-- The instructions with every edge an address of the program. -/
def resolved {n : Nat} (code : Vector (Instr Edge) n) : Except Flaw (Vector (Instr (Fin n)) n) :=
  code.zipIdx.mapM fun (i, pc) => i.mapM (resolve n pc)

/-- The finished program as it was built, or the first flaw: there is nothing to run, it starts
where nothing is, a link does not fit, or an edge leads nowhere. -/
def finish (b : Builder) : Except Flaw Program := do
  if b.code.isEmpty then
    throw .empty
  if h : b.start < b.code.size then
    let code ← b.linked
    return { size := b.code.size, code := ← resolved code, start := ⟨b.start, h⟩ }
  else
    throw (.startOutOfRange b.start b.code.size)

end Builder

end Lockstep
