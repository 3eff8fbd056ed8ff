import Lockstep.Program
import Lockstep.RunList

/-!
# Following edges without reading

From an address a thread runs on, without reading anything, until it comes to instructions at
which it has to wait: forks send it several ways, jumps one way, assertions let it pass or not,
and capture writes change the slots that it carries. All the ends that it comes to are added to a
run list, in order of preference, and no address is visited twice at one offset.

- `Front`: the run list that grows, with the pool that its buffers come from and a count of
  visits.
- `Frame`: something that is still to be done, either an address to visit or a slot to set back.
- `Closure`: a front, the slots carried at the moment, and what is still to be done.
- `Closure.step`, `Closure.run`: one thing done, and everything done.
- `Front.explore`: what a run list becomes when all ends behind an address are added to it.

A slot is set back once everything behind the capture write has been visited, so that a way that
is less preferred does not see it. When there is nothing left to be done the buffer that was
carried goes to the last thread, without a copy.
-/

namespace Lockstep

/-- A run list that grows. -/
structure Front (n : Nat) where
  /-- The run list. -/
  list : RunList n
  /-- Where buffers come from and go to. -/
  pool : Pool
  /-- How many visits and threads have been counted so far. -/
  work : Nat
  deriving DecidableEq, Repr

/-- Something that is still to be done. -/
inductive Frame (n : Nat) where
  /-- Visit this address. -/
  | explore (pc : Fin n)
  /-- Set this slot back to what it was. -/
  | restore (slot : Nat) (old : Option Nat)
  deriving DecidableEq, Repr

/-- A closure under way. -/
structure Closure (n : Nat) where
  /-- What threads are added to. -/
  front : Front n
  /-- The buffer that is carried, with the slots written on the way to here. -/
  snapshot : Buffer
  /-- What is still to be done, the next thing first. -/
  todo : List (Frame n)
  deriving DecidableEq, Repr

namespace Front

variable {n : Nat}

/-- Marks an address and counts the visit. -/
def visit (front : Front n) (pc : Fin n) : Front n :=
  { front with list := front.list.mark pc, work := front.work + 1 }

/-- Adds a thread that takes over a buffer. -/
def push (front : Front n) (pc : Fin n) (b : Buffer) : Front n :=
  { front with list := front.list.push ⟨pc, b⟩ }

/-- Adds a thread with a copy of some slots. -/
def pushCopy (front : Front n) (pc : Fin n) (slots : Slots) : Front n :=
  let (b, pool) := front.pool.take
  { front with list := front.list.push ⟨pc, b.fill slots⟩, pool }

/-- Gives a buffer back. -/
def release (front : Front n) (b : Buffer) : Front n := { front with pool := front.pool.release b }

@[simp] theorem unmarked_pushCopy (front : Front n) (pc : Fin n) (slots : Slots) :
    (front.pushCopy pc slots).list.unmarked = front.list.unmarked := rfl

/-- A visit to a new address leaves one address fewer to be visited. -/
theorem unmarked_visit {front : Front n} {pc : Fin n} (h : front.list.isMarked pc = false) :
    (front.visit pc).list.unmarked + 1 = front.list.unmarked :=
  RunList.unmarked_mark h

end Front

namespace Program

/-- An upper bound, and at least two, on the number of edges that an instruction of the program
has. -/
def fanout (P : Program) : Nat := P.code.toList.foldl (fun most i => max most i.successors.length) 2

theorem two_le_fanout (P : Program) : 2 ≤ P.fanout :=
  (foldl_max_le (fun i : Instr (Fin P.size) => i.successors.length) P.code.toList 2).1

theorem length_successors_le (P : Program) (pc : Fin P.size) :
    (P.instr pc).successors.length ≤ P.fanout :=
  (foldl_max_le (fun i : Instr (Fin P.size) => i.successors.length) P.code.toList 2).2 _
    (Vector.mem_toList_iff.2 (Vector.getElem_mem pc.isLt))

end Program

namespace Closure

variable {P : Program}

/-- Does the next thing, at the offset `pos` where the conditions `cond` hold. The closure goes
on, or it is finished and only the front is left. -/
def step (pos : Nat) (cond : Conditions) (c : Closure P.size) : Closure P.size ⊕ Front P.size :=
  match c.todo with
  | [] => .inr (c.front.release c.snapshot)
  | .restore slot old :: todo => .inl { c with snapshot := c.snapshot.set slot old, todo }
  | .explore pc :: todo =>
    if c.front.list.isMarked pc then
      .inl { c with todo }
    else
      let front := c.front.visit pc
      match P.instr pc with
      | .fail => .inl { c with front, todo }
      | .fork arms => .inl { c with front, todo := arms.map .explore ++ todo }
      | .jump next => .inl { c with front, todo := .explore next :: todo }
      | .assert need next =>
        .inl { c with front, todo := if need ⊆ cond then .explore next :: todo else todo }
      | .save slot next =>
        match c.snapshot.slots[slot]? with
        | some old =>
          .inl
            { front
              snapshot := c.snapshot.set slot (some pos)
              todo := .explore next :: .restore slot old :: todo }
        | none => .inl { c with front, todo := .explore next :: todo }
      | .accept | .consume _ _ =>
        if todo.isEmpty then .inr (front.push pc c.snapshot)
        else .inl { c with front := front.pushCopy pc c.snapshot.slots, todo }

/-- How much may still have to be done: what is on the list, and for each address not yet visited,
what a visit may add to the list. -/
def measure (c : Closure P.size) : Nat := P.fanout * c.front.list.unmarked + c.todo.length

/-- Each thing done leaves less to be done. -/
theorem measure_step {pos : Nat} {cond : Conditions} {c c' : Closure P.size}
    (h : c.step pos cond = .inl c') : c'.measure < c.measure := by
  obtain ⟨front, snapshot, todo⟩ := c
  cases todo with
  | nil => simp [step] at h
  | cons frame todo =>
    cases frame with
    | restore slot old =>
      simp only [step, Sum.inl.injEq] at h
      subst h
      simp [measure]
    | explore pc =>
      simp only [step] at h
      split at h
      · -- already visited: only the list gets shorter
        simp only [Sum.inl.injEq] at h
        subst h
        simp [measure]
      · -- a visit: it pays for up to `fanout` new things to do
        next hmark =>
        have hvisit : (front.visit pc).list.unmarked + 1 = front.list.unmarked :=
          Front.unmarked_visit (by simpa using hmark)
        have htwo := P.two_le_fanout
        have hfan := P.length_successors_le pc
        have hpay : P.fanout * front.list.unmarked =
            P.fanout * (front.visit pc).list.unmarked + P.fanout := by
          rw [← hvisit, Nat.mul_succ]
        generalize P.instr pc = i at h hfan
        cases i <;> simp only [Instr.successors] at h hfan
        case fail => grind [measure]
        case fork arms => grind [measure]
        case jump next => grind [measure]
        case assert need next => grind [measure]
        case save slot next => grind [measure]
        case accept => grind [measure, Front.unmarked_pushCopy]
        case consume cls next => grind [measure, Front.unmarked_pushCopy]

/-- Does everything that is to be done. -/
def run (pos : Nat) (cond : Conditions) (c : Closure P.size) : Front P.size :=
  match _h : c.step pos cond with
  | .inl c' => run pos cond c'
  | .inr front => front
termination_by c.measure
decreasing_by exact measure_step ‹_›

theorem run_of_step_inl {pos : Nat} {cond : Conditions} {c c' : Closure P.size}
    (h : c.step pos cond = .inl c') : run pos cond c = run pos cond c' := by
  rw [run]
  split
  · next heq => rw [h] at heq; cases heq; rfl
  · next heq => rw [h] at heq; cases heq

theorem run_of_step_inr {pos : Nat} {cond : Conditions} {c : Closure P.size} {front : Front P.size}
    (h : c.step pos cond = .inr front) : run pos cond c = front := by
  rw [run]
  split
  · next heq => rw [h] at heq; cases heq
  · next heq => rw [h] at heq; cases heq; rfl

end Closure

/-- Adds all ends behind the address `pc` to a run list, for a thread that reaches `pc` at the
offset `pos` with the slots in `b`; the buffer is used up. -/
def Front.explore {P : Program} (front : Front P.size) (pos : Nat) (cond : Conditions)
    (pc : Fin P.size) (b : Buffer) : Front P.size :=
  Closure.run pos cond { front, snapshot := b, todo := [.explore pc] }

end Lockstep
