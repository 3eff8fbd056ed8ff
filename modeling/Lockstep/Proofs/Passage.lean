import Lockstep.Closure
import Lockstep.Proofs.DepthFirst
import Mathlib.Data.Fintype.Basic
import Mathlib.Data.Vector.Basic

/-!
# Following edges is a depth-first search

At one offset the instructions that read nothing form a graph, and a thread that follows them
carries its slots along. Following edges into a run list enters the nodes of that graph in
depth-first order: the frames that set slots back are the way in which a single buffer stands for
the slots of all entries on the stack.

- `Program.passing`: the graph, with the offset and the conditions that hold there.
- `RunList.view`, `RunList.seen`: the threads of a run list without their buffers, and its marks.
- `Closure.Steps`: what doing one thing comes to.
- `Closure.entries`: the stack of a search, read off the frames that are left.
- `view_explore`, `seen_explore`, `work_explore`: what a run list is after a closure, and how much
  work that was.
-/

namespace Lockstep

/-! ## The graph at one offset -/

namespace Program

/-- The edges that are followed at the offset `pos`, where the conditions `cond` hold. -/
def passing (P : Program) (pos : Nat) (cond : Conditions) : Graph (Fin P.size) Slots where
  next pc := match P.instr pc with
    | .fork arms => arms
    | .save _ next | .jump next => [next]
    | .assert need next => if need ⊆ cond then [next] else []
    | .fail | .accept | .consume _ _ => []
  carry pc slots := match P.instr pc with
    | .save slot _ => slots.setIfInBounds slot (some pos)
    | _ => slots

/-- The arrivals at which a thread waits. -/
def stops (P : Program) (es : List (Fin P.size × Slots)) : List (Fin P.size × Slots) :=
  es.filter fun e => (P.instr e.1).isStop

variable {P : Program} {pos : Nat} {cond : Conditions} {pc : Fin P.size}

@[simp] theorem stops_nil : P.stops [] = [] := rfl

@[simp] theorem stops_append (es es' : List (Fin P.size × Slots)) :
    P.stops (es ++ es') = P.stops es ++ P.stops es' :=
  List.filter_append ..

theorem stops_cons_of_isStop {e : Fin P.size × Slots} (h : (P.instr e.1).isStop = true)
    (es : List (Fin P.size × Slots)) : P.stops (e :: es) = e :: P.stops es :=
  List.filter_cons_of_pos h

theorem stops_cons_of_not_isStop {e : Fin P.size × Slots} (h : (P.instr e.1).isStop = false)
    (es : List (Fin P.size × Slots)) : P.stops (e :: es) = P.stops es :=
  List.filter_cons_of_neg (by simp [h])

theorem push_save {slot : Nat} {next : Fin P.size} (h : P.instr pc = .save slot next)
    (slots : Slots) :
    (P.passing pos cond).push pc slots = [(next, slots.setIfInBounds slot (some pos))] := by
  simp [Graph.push, passing, h]

theorem push_of_isStop (h : (P.instr pc).isStop = true) (slots : Slots) :
    (P.passing pos cond).push pc slots = [] := by
  cases hi : P.instr pc <;> simp [Instr.isStop, hi] at h <;> simp [Graph.push, passing, hi]

end Program

/-! ## Run lists without their buffers -/

namespace RunList

variable {n : Nat}

/-- The threads of a run list, without their buffers. -/
def view (list : RunList n) : List (Fin n × Slots) :=
  list.threads.toList.map fun t => (t.pc, t.buffer.slots)

/-- The addresses that a run list has marked. -/
def seen (list : RunList n) : Finset (Fin n) := Finset.univ.filter fun pc => list.isMarked pc

theorem mem_seen {list : RunList n} {pc : Fin n} : pc ∈ list.seen ↔ list.isMarked pc = true := by
  simp [seen]

theorem notMem_seen {list : RunList n} {pc : Fin n} :
    pc ∉ list.seen ↔ list.isMarked pc = false := by
  rw [mem_seen, Bool.not_eq_true]

@[simp] theorem view_empty : (empty n).view = [] := rfl

@[simp] theorem seen_empty : (empty n).seen = ∅ := by
  ext pc
  simp [mem_seen]

@[simp] theorem view_push (list : RunList n) (t : Thread n) :
    (list.push t).view = list.view ++ [(t.pc, t.buffer.slots)] := by
  simp [view]

@[simp] theorem seen_push (list : RunList n) (t : Thread n) : (list.push t).seen = list.seen := by
  ext pc
  simp [mem_seen]

@[simp] theorem view_mark (list : RunList n) (pc : Fin n) : (list.mark pc).view = list.view := rfl

@[simp] theorem seen_mark (list : RunList n) (pc : Fin n) :
    (list.mark pc).seen = insert pc list.seen := by
  ext pc'
  rw [mem_seen, Finset.mem_insert, mem_seen, isMarked_mark, Bool.or_eq_true, decide_eq_true_iff]
  exact or_congr_left eq_comm

theorem view_eq_nil_iff {list : RunList n} : list.view = [] ↔ list.isEmpty = true := by
  simp [view, isEmpty]

end RunList

namespace Front

variable {n : Nat}

@[simp] theorem view_visit (front : Front n) (pc : Fin n) :
    (front.visit pc).list.view = front.list.view := rfl

@[simp] theorem seen_visit (front : Front n) (pc : Fin n) :
    (front.visit pc).list.seen = insert pc front.list.seen :=
  RunList.seen_mark ..

@[simp] theorem list_release (front : Front n) (b : Buffer) :
    (front.release b).list = front.list := rfl

@[simp] theorem work_release (front : Front n) (b : Buffer) :
    (front.release b).work = front.work := rfl

@[simp] theorem view_pushCopy (front : Front n) (pc : Fin n) (slots : Slots) :
    (front.pushCopy pc slots).list.view = front.list.view ++ [(pc, slots)] := by
  simp [pushCopy]

@[simp] theorem seen_pushCopy (front : Front n) (pc : Fin n) (slots : Slots) :
    (front.pushCopy pc slots).list.seen = front.list.seen := by
  simp [pushCopy]

end Front

/-! ## Closures -/

namespace Closure

variable {P : Program} {pos : Nat} {cond : Conditions}

/-- The stack that is left of a closure. Each entry has the slots that the buffer will hold when
its turn comes: those of now, as far as no frame above it sets a slot back. -/
def entries {n : Nat} (slots : Slots) : List (Frame n) → List (Fin n × Slots)
  | [] => []
  | .explore pc :: todo => (pc, slots) :: entries slots todo
  | .restore slot old :: todo => entries (slots.setIfInBounds slot old) todo

theorem entries_map_explore {n : Nat} (slots : Slots) (arms : List (Fin n))
    (todo : List (Frame n)) :
    entries slots (arms.map .explore ++ todo) =
      (arms.map fun arm => (arm, slots)) ++ entries slots todo := by
  induction arms with
  | nil => rfl
  | cons arm arms ih => simp [entries, ih]

/-- A slot that is written and set back later is as it was. -/
theorem setIfInBounds_setIfInBounds {slots : Slots} {slot : Nat} {old value : Option Nat}
    (h : slots[slot]? = some old) :
    (slots.setIfInBounds slot value).setIfInBounds slot old = slots := by
  obtain ⟨hlt, rfl⟩ := Array.getElem?_eq_some_iff.mp h
  rw [Array.setIfInBounds_setIfInBounds]
  apply Array.ext
  · simp
  · intro i hi hi'
    by_cases hslot : slot = i
    · subst hslot
      simp
    · rw [Array.getElem_setIfInBounds_ne hi' hslot]

/-- What doing the next thing comes to, by what it is and by the instruction that is visited. -/
inductive Steps (pos : Nat) (cond : Conditions) :
    Closure P.size → Closure P.size ⊕ Front P.size → Prop where
  /-- Nothing is left to be done. -/
  | done {front : Front P.size} {b : Buffer} :
    Steps pos cond ⟨front, b, []⟩ (.inr (front.release b))
  /-- A slot is set back. -/
  | restore {front : Front P.size} {b : Buffer} {slot : Nat} {old : Option Nat}
      {todo : List (Frame P.size)} :
    Steps pos cond ⟨front, b, .restore slot old :: todo⟩ (.inl ⟨front, b.set slot old, todo⟩)
  /-- The address was visited before. -/
  | skip {front : Front P.size} {b : Buffer} {pc : Fin P.size} {todo : List (Frame P.size)}
      (hmark : front.list.isMarked pc = true) :
    Steps pos cond ⟨front, b, .explore pc :: todo⟩ (.inl ⟨front, b, todo⟩)
  /-- An instruction that is passed through and leaves the slots as they are. -/
  | pass {front : Front P.size} {b : Buffer} {pc : Fin P.size} {todo : List (Frame P.size)}
      (hmark : front.list.isMarked pc = false) (hstop : (P.instr pc).isStop = false)
      (hcarry : (P.passing pos cond).carry pc b.slots = b.slots) :
    Steps pos cond ⟨front, b, .explore pc :: todo⟩
      (.inl ⟨front.visit pc, b, ((P.passing pos cond).next pc).map .explore ++ todo⟩)
  /-- A slot is written, and is to be set back later. -/
  | save {front : Front P.size} {b : Buffer} {pc next : Fin P.size} {slot : Nat} {old : Option Nat}
      {todo : List (Frame P.size)} (hmark : front.list.isMarked pc = false)
      (hinstr : P.instr pc = .save slot next) (hold : b.slots[slot]? = some old) :
    Steps pos cond ⟨front, b, .explore pc :: todo⟩
      (.inl ⟨front.visit pc, b.set slot (some pos), .explore next :: .restore slot old :: todo⟩)
  /-- A thread waits here, with a copy of the slots. -/
  | wait {front : Front P.size} {b : Buffer} {pc : Fin P.size} {todo : List (Frame P.size)}
      (hmark : front.list.isMarked pc = false) (hstop : (P.instr pc).isStop = true)
      (hne : todo ≠ []) :
    Steps pos cond ⟨front, b, .explore pc :: todo⟩
      (.inl ⟨(front.visit pc).pushCopy pc b.slots, b, todo⟩)
  /-- The last thread takes the buffer over. -/
  | last {front : Front P.size} {b : Buffer} {pc : Fin P.size}
      (hmark : front.list.isMarked pc = false) (hstop : (P.instr pc).isStop = true) :
    Steps pos cond ⟨front, b, [.explore pc]⟩ (.inr ((front.visit pc).push pc b))

/-- A visit to a new address. -/
theorem steps_visit {front : Front P.size} {b : Buffer} {pc : Fin P.size}
    {todo : List (Frame P.size)} (hmark : front.list.isMarked pc = false) :
    Steps pos cond ⟨front, b, .explore pc :: todo⟩
      (step pos cond ⟨front, b, .explore pc :: todo⟩) := by
  simp only [step, hmark, Bool.false_eq_true, if_false]
  -- what is passed through without a change goes on along the edges that are followed
  have hpass : (P.instr pc).isStop = false → (P.passing pos cond).carry pc b.slots = b.slots →
      Steps pos cond ⟨front, b, .explore pc :: todo⟩
        (.inl ⟨front.visit pc, b, ((P.passing pos cond).next pc).map .explore ++ todo⟩) :=
    fun hstop hcarry => .pass hmark hstop hcarry
  cases hi : P.instr pc with
  | fail | fork | jump =>
    simpa [Program.passing, hi] using hpass (by rw [hi]; rfl) (by simp only [Program.passing, hi])
  | assert need next =>
    have hgo := hpass (by rw [hi]; rfl) (by simp only [Program.passing, hi])
    by_cases hneed : need ⊆ cond
    · simpa [Program.passing, hi, hneed] using hgo
    · simpa [Program.passing, hi, hneed] using hgo
  | save slot next =>
    cases hold : b.slots[slot]? with
    | some old =>
      simp only [hold]
      exact .save hmark hi hold
    | none =>
      have hcarry : (P.passing pos cond).carry pc b.slots = b.slots := by
        simp only [Program.passing, hi]
        exact Array.setIfInBounds_eq_of_size_le (Array.getElem?_eq_none_iff.mp hold)
      simpa [Program.passing, hi, hold] using hpass (by rw [hi]; rfl) hcarry
  | accept | consume =>
    have hstop : (P.instr pc).isStop = true := by rw [hi]; rfl
    cases todo with
    | nil => exact .last hmark hstop
    | cons frame todo => exact .wait hmark hstop (List.cons_ne_nil frame todo)

/-- **What a step does** is one of these things. -/
theorem steps_step (c : Closure P.size) : Steps pos cond c (c.step pos cond) := by
  obtain ⟨front, b, todo⟩ := c
  match todo with
  | [] => exact .done
  | .restore slot old :: todo => exact .restore
  | .explore pc :: todo =>
    cases hmark : front.list.isMarked pc with
    | true =>
      have hstep : step pos cond ⟨front, b, .explore pc :: todo⟩ = .inl ⟨front, b, todo⟩ :=
        if_pos hmark
      rw [hstep]
      exact .skip hmark
    | false => exact steps_visit hmark

/-- What a closure adds to its front is what the search of its stack enters, and each node that is
entered counts once. -/
structure Adds (pos : Nat) (cond : Conditions) (c : Closure P.size) (front : Front P.size) :
    Prop where
  view : front.list.view = c.front.list.view ++
    P.stops ((P.passing pos cond).arrivals c.front.list.seen (entries c.snapshot.slots c.todo))
  seen : front.list.seen = c.front.list.seen ∪
    Graph.nodes ((P.passing pos cond).arrivals c.front.list.seen
      (entries c.snapshot.slots c.todo))
  work : front.work = c.front.work +
    ((P.passing pos cond).arrivals c.front.list.seen (entries c.snapshot.slots c.todo)).length

/-- A visit to a new address: it is marked, a thread may be added, and the entries behind it come
to lie on the stack. -/
theorem Adds.of_visit {front₀ front₁ front : Front P.size} {pc : Fin P.size}
    {b b' : Buffer} {todo todo' : List (Frame P.size)} (hseen : pc ∉ front₀.list.seen)
    (hview : front₁.list.view = front₀.list.view ++ P.stops [(pc, b.slots)])
    (hmarks : front₁.list.seen = insert pc front₀.list.seen)
    (hwork : front₁.work = front₀.work + 1)
    (hentries : entries b'.slots todo' =
      (P.passing pos cond).push pc b.slots ++ entries b.slots todo)
    (h : Adds pos cond ⟨front₁, b', todo'⟩ front) :
    Adds pos cond ⟨front₀, b, .explore pc :: todo⟩ front := by
  refine ⟨?_, ?_, ?_⟩
  · have hcons : ∀ es, P.stops ((pc, b.slots) :: es) = P.stops [(pc, b.slots)] ++ P.stops es :=
      fun es => Program.stops_append [(pc, b.slots)] es
    rw [h.view]
    simp only [entries]
    rw [Graph.arrivals_cons_of_notMem hseen, hcons, hview, hmarks, hentries, List.append_assoc]
  · rw [h.seen]
    simp only [entries]
    rw [Graph.arrivals_cons_of_notMem hseen, hmarks, hentries, Graph.nodes_cons,
      Finset.insert_union, Finset.union_insert]
  · rw [h.work]
    simp only [entries]
    rw [Graph.arrivals_cons_of_notMem hseen, hmarks, hwork, hentries, List.length_cons,
      Nat.add_right_comm]
    rfl

/-- An instruction that reads nothing adds no thread. -/
theorem Adds.of_pass {front₀ front : Front P.size} {pc : Fin P.size} {b b' : Buffer}
    {todo todo' : List (Frame P.size)} (hseen : pc ∉ front₀.list.seen)
    (hstop : (P.instr pc).isStop = false) (hentries : entries b'.slots todo' =
      (P.passing pos cond).push pc b.slots ++ entries b.slots todo)
    (h : Adds pos cond ⟨front₀.visit pc, b', todo'⟩ front) :
    Adds pos cond ⟨front₀, b, .explore pc :: todo⟩ front := by
  refine Adds.of_visit hseen ?_ (Front.seen_visit ..) rfl hentries h
  rw [Program.stops_cons_of_not_isStop hstop, Program.stops_nil, List.append_nil]
  rfl

/-- An instruction that ends the way adds a thread, which takes a copy of the slots with it or the
buffer itself. -/
theorem Adds.of_stop {front₀ front₁ front : Front P.size} {pc : Fin P.size} {b : Buffer}
    {todo : List (Frame P.size)} (hseen : pc ∉ front₀.list.seen)
    (hstop : (P.instr pc).isStop = true)
    (hview : front₁.list.view = front₀.list.view ++ [(pc, b.slots)])
    (hmarks : front₁.list.seen = insert pc front₀.list.seen)
    (hwork : front₁.work = front₀.work + 1)
    (h : Adds pos cond ⟨front₁, b, todo⟩ front) :
    Adds pos cond ⟨front₀, b, .explore pc :: todo⟩ front := by
  refine Adds.of_visit hseen ?_ hmarks hwork ?_ h
  · rw [Program.stops_cons_of_isStop hstop, Program.stops_nil, hview]
  · rw [Program.push_of_isStop hstop, List.nil_append]

/-- One thing done: the rest of the search adds the rest. -/
theorem Adds.of_step {c c' : Closure P.size} {front : Front P.size}
    (hstep : c.step pos cond = .inl c') (h : Adds pos cond c' front) : Adds pos cond c front := by
  have hsteps : Steps pos cond c (.inl c') := hstep ▸ steps_step c
  cases hsteps with
  | restore => exact ⟨h.view, h.seen, h.work⟩
  | skip hmark =>
    have hseen := RunList.mem_seen.mpr hmark
    refine ⟨?_, ?_, ?_⟩
    · simpa [entries, Graph.arrivals_cons_of_mem hseen] using h.view
    · simpa [entries, Graph.arrivals_cons_of_mem hseen] using h.seen
    · simpa [entries, Graph.arrivals_cons_of_mem hseen] using h.work
  | pass hmark hstop hcarry =>
    refine Adds.of_pass (RunList.notMem_seen.mpr hmark) hstop ?_ h
    rw [entries_map_explore, Graph.push, hcarry]
  | save hmark hinstr hold =>
    refine Adds.of_pass (RunList.notMem_seen.mpr hmark) (by rw [hinstr]; rfl) ?_ h
    rw [Program.push_save hinstr]
    simp [entries, Buffer.set, setIfInBounds_setIfInBounds hold]
  | wait hmark hstop =>
    exact Adds.of_stop (RunList.notMem_seen.mpr hmark) hstop (by simp) (by simp) rfl h

/-- The last thing done: nothing is left, or one thread takes the buffer over. -/
theorem Adds.of_end {c : Closure P.size} {front : Front P.size}
    (hstep : c.step pos cond = .inr front) : Adds pos cond c front := by
  have hsteps : Steps pos cond c (.inr front) := hstep ▸ steps_step c
  cases hsteps with
  | done => constructor <;> simp [entries]
  | @last front₀ b pc hmark hstop =>
    have hrest : Adds pos cond ⟨(front₀.visit pc).push pc b, b, []⟩
        ((front₀.visit pc).push pc b) := by
      constructor <;> simp [entries]
    exact Adds.of_stop (RunList.notMem_seen.mpr hmark) hstop (by simp [Front.push])
      (by simp [Front.push]) rfl hrest

/-- **A closure is a depth-first search**: of all it does, step after step, what remains is that
the nodes behind its stack are entered. -/
theorem adds_run (pos : Nat) (cond : Conditions) (c : Closure P.size) :
    Adds pos cond c (c.run pos cond) := by
  induction c using run.induct pos cond with
  | case1 c c' hstep ih =>
    rw [run_of_step_inl hstep]
    exact ih.of_step hstep
  | case2 c front hstep =>
    rw [run_of_step_inr hstep]
    exact .of_end hstep

end Closure

namespace Front

variable {P : Program} (front : Front P.size) (pos : Nat) (cond : Conditions) (pc : Fin P.size)
  (b : Buffer)

/-- The threads that a closure adds, in order. -/
theorem view_explore : (front.explore pos cond pc b).list.view = front.list.view ++
    P.stops ((P.passing pos cond).arrivals front.list.seen [(pc, b.slots)]) :=
  (Closure.adds_run pos cond ⟨front, b, [.explore pc]⟩).view

/-- The marks that a closure adds. -/
theorem seen_explore : (front.explore pos cond pc b).list.seen = front.list.seen ∪
    Graph.nodes ((P.passing pos cond).arrivals front.list.seen [(pc, b.slots)]) :=
  (Closure.adds_run pos cond ⟨front, b, [.explore pc]⟩).seen

/-- The visits that a closure counts. -/
theorem work_explore : (front.explore pos cond pc b).work = front.work +
    ((P.passing pos cond).arrivals front.list.seen [(pc, b.slots)]).length :=
  (Closure.adds_run pos cond ⟨front, b, [.explore pc]⟩).work

end Front

end Lockstep
