import Lockstep.Conditions
import Lockstep.Slots
import Lockstep.SymbolClass

/-!
# Instructions

A program is a graph whose nodes are instructions. The edges of an instruction are of any type:
addresses that may still be missing while a program is built, and addresses that are in range once
it is finished.

- `Instr`: the seven instructions.
- `Instr.successors`: the edges of an instruction, the preferred one first.
- `Instr.map`, `Instr.mapM`: the same instruction with other edges.
- `Instr.setArm`: the same instruction with one edge replaced.
- `Instr.render`: an instruction as one line of a listing.
-/

namespace Lockstep

/-- An instruction with edges of type `ε`. -/
inductive Instr (ε : Type) where
  /-- Goes on along every arm; an earlier arm is preferred to a later one. -/
  | fork (arms : List ε)
  /-- Writes the current offset into a capture slot. -/
  | save (slot : Nat) (next : ε)
  /-- Goes on only where the conditions hold. -/
  | assert (cond : Conditions) (next : ε)
  /-- Goes on. -/
  | jump (next : ε)
  /-- Never goes on. -/
  | fail
  /-- A match ends here. -/
  | accept
  /-- Reads one symbol of a class. -/
  | consume (cls : SymbolClass) (next : ε)
  deriving DecidableEq, Repr, Inhabited

namespace Instr

variable {ε δ : Type}

/-- The edges of an instruction, in order of preference. -/
def successors : Instr ε → List ε
  | fork arms => arms
  | save _ next | assert _ next | jump next | consume _ next => [next]
  | fail | accept => []

/-- The one edge of an instruction that by its kind has exactly one. -/
def next? : Instr ε → Option ε
  | save _ next | assert _ next | jump next | consume _ next => some next
  | fork _ | fail | accept => none

/-- The instructions at which a thread waits between two symbols; the others are passed through on
the way to them. -/
def isStop : Instr ε → Bool
  | accept | consume _ _ => true
  | fork _ | save _ _ | assert _ _ | jump _ | fail => false

/-- How many capture slots there have to be for this instruction. Slots come in pairs, the start
and the end of a group. -/
def slotsNeeded : Instr ε → Nat
  | save slot _ => Slots.paired (slot + 1)
  | _ => 0

/-- Slots are needed in pairs. -/
@[simp] theorem paired_slotsNeeded (i : Instr ε) :
    Slots.paired i.slotsNeeded = i.slotsNeeded := by
  cases i with
  | save slot next => exact Slots.paired_paired (slot + 1)
  | fork | assert | jump | fail | accept | consume => exact (rfl : Slots.paired 0 = 0)

/-! ## Other edges -/

/-- Replaces each edge. -/
def map (f : ε → δ) : Instr ε → Instr δ
  | fork arms => fork (arms.map f)
  | save slot next => save slot (f next)
  | assert cond next => assert cond (f next)
  | jump next => jump (f next)
  | fail => fail
  | accept => accept
  | consume cls next => consume cls (f next)

/-- Replaces each edge, in order, by an action that may fail. -/
def mapM {m : Type → Type} [Monad m] (f : ε → m δ) : Instr ε → m (Instr δ)
  | fork arms => do return fork (← arms.mapM f)
  | save slot next => do return save slot (← f next)
  | assert cond next => do return assert cond (← f next)
  | jump next => do return jump (← f next)
  | fail => return fail
  | accept => return accept
  | consume cls next => do return consume cls (← f next)

/-- Replaces the edge with index `arm`, if there is one. -/
def setArm (arm : Nat) (target : ε) : Instr ε → Instr ε
  | fork arms => fork (arms.set arm target)
  | save slot next => save slot (if arm = 0 then target else next)
  | assert cond next => assert cond (if arm = 0 then target else next)
  | jump next => jump (if arm = 0 then target else next)
  | fail => fail
  | accept => accept
  | consume cls next => consume cls (if arm = 0 then target else next)

@[simp] theorem successors_map (f : ε → δ) (i : Instr ε) :
    (i.map f).successors = i.successors.map f := by
  cases i <;> rfl

@[simp] theorem successors_setArm (arm : Nat) (target : ε) (i : Instr ε) :
    (i.setArm arm target).successors = i.successors.set arm target := by
  cases i <;> cases arm <;> rfl

end Instr

/-! ## Listings -/

namespace Symbol

/-- Lower-case hexadecimal digits, without leading zeros. -/
def hexDigits (r : Symbol) : String := String.ofList (Nat.toDigits 16 r.toNat)

/-- The characters that control devices instead of being printed. -/
def isControl (r : Symbol) : Bool := r < 0x20 || (0x7F ≤ r && r ≤ 0x9F)

/-- A symbol between double quotes: as it is if it can be printed, otherwise by a short escape or
by its number. -/
def escape (r : Symbol) : String :=
  match r.toChar? with
  | some '"' => "\\\""
  | some '\\' => "\\\\"
  | some '\n' => "\\n"
  | some '\t' => "\\t"
  | some '\r' => "\\r"
  | some c => if isControl r then numbered else c.toString
  | none => numbered
where
  /-- The escape that gives the number of the symbol. -/
  numbered : String := "\\x\x7b" ++ hexDigits r ++ "\x7d"

/-- Symbols in a row between double quotes. -/
def quote (rs : List Symbol) : String := "\"" ++ String.join (rs.map escape) ++ "\""

end Symbol

/-- What a listing says of a class. The ends of all ranges of a table stand in one row. -/
def SymbolClass.render : SymbolClass → String
  | single r => "rune1 " ++ Symbol.quote [r]
  | variants rs => "rune " ++ Symbol.quote rs ++ "/i"
  | ranges table => "rune " ++ Symbol.quote (table.toList.flatMap fun range => [range.lo, range.hi])
  | any => "any"
  | anyButNewline => "anynotnl"

/-- An instruction as one line of a listing, where `edge` writes an edge. -/
def Instr.render {ε : Type} (edge : ε → String) : Instr ε → String
  | fork arms => "alt -> " ++ String.intercalate ", " (arms.map edge)
  | save slot next => "cap " ++ toString slot ++ " -> " ++ edge next
  | assert cond next => "empty " ++ toString cond.bits.toNat ++ " -> " ++ edge next
  | jump next => "nop -> " ++ edge next
  | fail => "fail"
  | accept => "match"
  | consume cls next => cls.render ++ " -> " ++ edge next

end Lockstep
