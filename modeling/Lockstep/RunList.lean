import Lockstep.Slots

/-!
# Run lists

The threads that are alive at one offset of the text, in order of preference. A run list also
marks every address that has been visited while it was put together, those included at which no
thread waits, so that no address is visited twice at one offset.

- `Thread`: an address and the capture slots with which it was reached.
- `RunList`: threads and marks.
- `RunList.unmarked`: how many addresses are left to be visited.
-/

namespace Lockstep

/-- A way through a program of `n` instructions that is still open: the instruction that is up
next, and the slots written so far. -/
structure Thread (n : Nat) where
  /-- The address of the next instruction. -/
  pc : Fin n
  /-- The slots written so far. -/
  buffer : Buffer
  deriving DecidableEq, Repr

/-- The threads at one offset, and the addresses visited there. -/
structure RunList (n : Nat) where
  /-- Whether an address has been visited. -/
  marks : Vector Bool n
  /-- The threads, the preferred one first. -/
  threads : Array (Thread n)
  deriving DecidableEq, Repr

namespace RunList

variable {n : Nat}

/-- No threads and no marks. -/
def empty (n : Nat) : RunList n := ⟨Vector.replicate n false, #[]⟩

/-- Whether there is no thread; marks do not count. -/
def isEmpty (list : RunList n) : Bool := list.threads.isEmpty

/-- How many threads there are. -/
def size (list : RunList n) : Nat := list.threads.size

/-- Whether an address has been visited. -/
def isMarked (list : RunList n) (pc : Fin n) : Bool := list.marks[pc]

/-- Marks an address as visited. -/
def mark (list : RunList n) (pc : Fin n) : RunList n :=
  { list with marks := list.marks.set pc true }

/-- Adds a thread that is less preferred than all others. -/
def push (list : RunList n) (t : Thread n) : RunList n :=
  { list with threads := list.threads.push t }

/-- Removes the threads and the marks. -/
def clear (_list : RunList n) : RunList n := empty n

/-- How many addresses have not been visited. -/
def unmarked (list : RunList n) : Nat := list.marks.count false

@[simp] theorem threads_mark (list : RunList n) (pc : Fin n) :
    (list.mark pc).threads = list.threads := rfl

@[simp] theorem marks_push (list : RunList n) (t : Thread n) :
    (list.push t).marks = list.marks := rfl

@[simp] theorem threads_push (list : RunList n) (t : Thread n) :
    (list.push t).threads = list.threads.push t := rfl

@[simp] theorem isMarked_push (list : RunList n) (t : Thread n) (pc : Fin n) :
    (list.push t).isMarked pc = list.isMarked pc := rfl

@[simp] theorem isMarked_mark (list : RunList n) (pc pc' : Fin n) :
    (list.mark pc).isMarked pc' = (decide (pc = pc') || list.isMarked pc') := by
  simp only [isMarked, mark, Fin.getElem_fin, Vector.getElem_set, Fin.ext_iff]
  split <;> simp_all

@[simp] theorem isMarked_empty (pc : Fin n) : (empty n).isMarked pc = false := by
  simp [isMarked, empty]

@[simp] theorem unmarked_push (list : RunList n) (t : Thread n) :
    (list.push t).unmarked = list.unmarked := rfl

/-- A visit leaves one address fewer to be visited. -/
theorem unmarked_mark {list : RunList n} {pc : Fin n} (h : list.isMarked pc = false) :
    (list.mark pc).unmarked + 1 = list.unmarked := by
  have hpc : list.marks[pc.val] = false := h
  have hpos : 0 < list.marks.count false :=
    Vector.count_pos_iff.2 (hpc ▸ Vector.getElem_mem pc.isLt)
  simp only [unmarked, mark, Vector.count_set, hpc]
  simp
  omega

end RunList

end Lockstep
