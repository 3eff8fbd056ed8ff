import Lockstep.Instr

/-!
# Programs

A program is an array of instructions with a place to start. Its edges are addresses of its own
instructions, by their type; so nothing that runs a program can leave it.

- `Program`: a finished program.
- `Program.instr`: the instruction at an address.
- `Program.slotCount`: the number of capture slots that a program writes to, the two of the whole
  match included.
- `Program.listing`: the program as text, one instruction a line.
-/

namespace Lockstep

/-- A finished program. -/
structure Program where
  /-- The number of instructions. -/
  size : Nat
  /-- The instructions. -/
  code : Vector (Instr (Fin size)) size
  /-- The address of the first instruction to run. -/
  start : Fin size

/-- The capture slots that instructions need, in pairs, with the pair of the whole match. -/
def Instr.slotCount {ε : Type} (code : Array (Instr ε)) : Nat :=
  code.foldl (fun count i => max count i.slotsNeeded) 2

namespace Program

/-- The instruction at an address. -/
def instr (P : Program) (pc : Fin P.size) : Instr (Fin P.size) := P.code[pc]

/-- The number of capture slots of the program. -/
def slotCount (P : Program) : Nat := Instr.slotCount P.code.toArray

/-- The greatest of some numbers is not less than any of them. -/
theorem foldl_max_le {α : Type} (f : α → Nat) (l : List α) (m : Nat) :
    m ≤ l.foldl (fun most x => max most (f x)) m ∧
      ∀ x ∈ l, f x ≤ l.foldl (fun most x => max most (f x)) m := by
  induction l generalizing m with
  | nil => simp
  | cons y l ih =>
    obtain ⟨hm, hl⟩ := ih (max m (f y))
    refine ⟨by rw [List.foldl_cons]; omega, ?_⟩
    intro x hx
    rw [List.foldl_cons]
    rcases List.mem_cons.1 hx with rfl | hx
    · omega
    · exact hl x hx

theorem slotCount_eq_foldl (P : Program) :
    P.slotCount = P.code.toList.foldl (fun count i => max count i.slotsNeeded) 2 := by
  rw [Vector.foldl_toList]
  rfl

/-- A program always has the slots of the whole match. -/
theorem two_le_slotCount (P : Program) : 2 ≤ P.slotCount := by
  rw [slotCount_eq_foldl]
  exact (foldl_max_le Instr.slotsNeeded P.code.toList 2).1

/-- A program has as many slots as each of its instructions needs. -/
theorem slotsNeeded_le_slotCount (P : Program) (pc : Fin P.size) :
    (P.instr pc).slotsNeeded ≤ P.slotCount := by
  rw [slotCount_eq_foldl]
  exact (foldl_max_le Instr.slotsNeeded P.code.toList 2).2 _
    (Vector.mem_toList_iff.2 (Vector.getElem_mem pc.isLt))

/-- There are slots for what an instruction writes, unless there are too many before it to be
counted. -/
theorem lt_slotCount {P : Program} {pc : Fin P.size} {slot : Nat} {next : Fin P.size}
    (h : P.instr pc = .save slot next) (hslot : slot + 2 < UInt64.size) : slot < P.slotCount := by
  have hneeded := P.slotsNeeded_le_slotCount pc
  rw [h] at hneeded
  exact Nat.lt_of_lt_of_le (Slots.lt_paired hslot) hneeded

/-- Slots are counted in pairs. -/
theorem paired_slotCount (P : Program) : Slots.paired P.slotCount = P.slotCount := by
  refine Array.foldl_induction (fun _ count => Slots.paired count = count) rfl
    fun pc count hcount => ?_
  rcases Nat.le_total count (P.code.toArray[pc]).slotsNeeded with hle | hle
  · rw [Nat.max_eq_right hle]
    exact Instr.paired_slotsNeeded _
  · rw [Nat.max_eq_left hle]
    exact hcount

/-- The edges that lead to each address, counted; the start counts as one edge. -/
def indegrees (P : Program) : Vector Nat P.size :=
  P.code.foldl
    (fun counts i =>
      i.successors.foldl (fun counts (pc : Fin P.size) => counts.set pc (counts[pc] + 1)) counts)
    ((Vector.replicate P.size 0).set P.start 1)

/-- One line of a listing: the address, with a mark if the program starts here, in a column of
eight characters, and then the instruction. -/
def line (P : Program) (pc : Fin P.size) : String :=
  let head := toString pc.val ++ if pc = P.start then "*" else ""
  let instr := (P.instr pc).render fun target => toString target.val
  head.pushn ' ' (8 - head.length) ++ instr ++ "\n"

/-- The program as text, one instruction a line. -/
def listing (P : Program) : String := String.join ((List.finRange P.size).map P.line)

end Program

end Lockstep
