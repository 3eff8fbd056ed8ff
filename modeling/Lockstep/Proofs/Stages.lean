import Lockstep.Machine

/-!
# The stages of a search

A search that is looked at from close by does not only go from offset to offset: at each of them it
follows edges from where the program starts, takes up one thread after the other, and follows edges
again for each of them that reads the symbol. Each of these steps takes for granted that slots are
where it reaches for them, that buffers are as wide as each other, and that threads wait; nothing of
that is checked while a search runs.

- `Search.seeding`, `Search.sweeping`: the closure and the sweep with which an offset begins.
- `Closure.InRange`, `Sweep.InRange`, `Search.InRange`, `Ending.InRange`: what the next step takes
  for granted.
- `Stage`: where a search can be, with its threads and with what it takes for granted.
- `Search.Steps`: what going through one offset comes to.
- `Search.Passes`: the stages that a search passes through, its end among them.
-/

namespace Lockstep

variable {P : Program}

/-! ## What is taken for granted -/

/-- What the next thing to be done takes for granted: a slot that is set back is one of the buffer,
a buffer that takes a copy is as wide as the copied one, and a buffer that is given back is as wide
as the pool's. -/
def Closure.InRange {n : Nat} (c : Closure n) : Prop :=
  match c.todo with
  | [] => c.snapshot.slots.size = c.front.pool.width
  | .restore slot _ :: _ => slot < c.snapshot.slots.size
  | .explore _ :: _ => c.front.pool.take.1.slots.size = c.snapshot.slots.size

/-- What a sweep takes for granted: threads wait, their buffers can be given back and copied into
the verdict, and if slots are kept, there are those for the start and the end of a match. -/
structure Sweep.InRange (m : Moment) (s : Sweep P.size) : Prop where
  waits : ∀ t ∈ s.pending, (P.instr t.pc).isStop = true
  release : ∀ t ∈ s.pending, t.buffer.slots.size = s.front.pool.width
  copy : ∀ t ∈ s.pending, t.buffer.slots.size = s.verdict.slots.size
  ends : 0 < m.width → 1 < s.verdict.slots.size

/-- What an offset takes for granted: if slots are kept, a new thread has one for the start of its
match. -/
def Search.InRange {n : Nat} (width : Nat) (s : Search n) : Prop :=
  0 < width → 0 < s.space.pool.take.1.slots.size

/-- What the end of a search takes for granted: it could sweep its run lists, and all buffers can be
given back. -/
def Ending.InRange {n : Nat} : Ending n → Prop
  | .settled w | .overrun w =>
    ∀ t ∈ w.current.threads.toList ++ w.next.threads.toList, t.buffer.slots.size = w.pool.width
  | .flawed _ => False

/-! ## Where a search can be -/

namespace Search

/-- The closure that starts a new thread. -/
def seeding (s : Search P.size) : Closure P.size where
  front := { list := s.space.current, pool := s.space.pool.take.2, work := s.space.work }
  snapshot := s.space.pool.take.1.startAt s.pos
  todo := [.explore P.start]

/-- The sweep of the threads of the offset. -/
def sweeping {n : Nat} (s : Search n) : Sweep n where
  pending := s.space.current.threads.toList
  front := { list := s.space.next, pool := s.space.pool, work := s.space.work }
  verdict := s.space.verdict

theorem seed_of_may {q : Query} {s : Search P.size}
    (h : s.space.verdict.found = false ∧ q.mayStart s.pos = true) :
    let front := s.seeding.run s.pos (q.input.text.context s.pos)
    s.seed q = { s with
      space :=
        { s.space with current := front.list, pool := front.pool, work := front.work } } := by
  unfold seed
  rw [if_pos h]
  rfl

theorem seed_of_not_may {q : Query} {s : Search P.size}
    (h : ¬ (s.space.verdict.found = false ∧ q.mayStart s.pos = true)) : s.seed q = s :=
  if_neg h

theorem sweep_eq (q : Query) (s : Search P.size) :
    s.sweep q = (Sweep.run (s.moment q) s.sweeping).map fun swept =>
      { current := s.space.current.clear, next := swept.front.list, pool := swept.front.pool
        work := swept.front.work, verdict := swept.verdict } := by
  show (Sweep.run (s.moment q) s.sweeping >>= _) = _
  cases Sweep.run (s.moment q) s.sweeping <;> rfl

theorem sweep_of_run {q : Query} {s : Search P.size} {swept : Sweep P.size}
    (h : Sweep.run (s.moment q) s.sweeping = .ok swept) :
    s.sweep q = .ok { current := s.space.current.clear, next := swept.front.list
                      pool := swept.front.pool, work := swept.front.work
                      verdict := swept.verdict } := by
  rw [sweep_eq, h]
  rfl

/-- A sweep leaves its front for the next offset. -/
theorem exists_run_of_sweep {q : Query} {s : Search P.size} {space : Workspace P.size}
    (h : s.sweep q = .ok space) : ∃ swept, Sweep.run (s.moment q) s.sweeping = .ok swept ∧
      space = { current := s.space.current.clear, next := swept.front.list
                pool := swept.front.pool, work := swept.front.work, verdict := swept.verdict } := by
  rw [sweep_eq] at h
  cases hrun : Sweep.run (s.moment q) s.sweeping with
  | error flaw =>
    rw [hrun] at h
    cases h
  | ok swept =>
    rw [hrun] at h
    cases h
    exact ⟨swept, rfl, rfl⟩

/-- What going through one offset comes to. -/
inductive Steps (q : Query) (s : Search P.size) : Search P.size ⊕ Ending P.size → Prop where
  /-- There is nothing left to do. -/
  | rest (haim : s.aim q = none) : Steps q s (.inr (.settled s.space))
  /-- A thread that is taken up does not wait. -/
  | flaw {aimed : Search P.size} {flaw : Flaw} (haim : s.aim q = some aimed)
      (hsweep : (aimed.seed q).sweep q = .error flaw) : Steps q s (.inr (.flawed flaw))
  /-- The text has ended, or a match is all that is wanted. -/
  | settle {aimed : Search P.size} {space : Workspace P.size} (haim : s.aim q = some aimed)
      (hsweep : (aimed.seed q).sweep q = .ok space)
      (hend : q.input.text.widthAt aimed.pos = 0 ∨ (q.width = 0 ∧ space.verdict.found = true)) :
    Steps q s (.inr (.settled space))
  /-- The time is up. -/
  | overrun {aimed : Search P.size} {space : Workspace P.size} (haim : s.aim q = some aimed)
      (hsweep : (aimed.seed q).sweep q = .ok space)
      (hgo : ¬ (q.input.text.widthAt aimed.pos = 0 ∨
        (q.width = 0 ∧ space.verdict.found = true)))
      (hdue : q.isOverdue (aimed.steps + 1) = true) : Steps q s (.inr (.overrun space))
  /-- The search goes on behind the symbol, and the run lists change places. -/
  | go {aimed : Search P.size} {space : Workspace P.size} (haim : s.aim q = some aimed)
      (hsweep : (aimed.seed q).sweep q = .ok space)
      (hgo : ¬ (q.input.text.widthAt aimed.pos = 0 ∨
        (q.width = 0 ∧ space.verdict.found = true)))
      (hdue : ¬ q.isOverdue (aimed.steps + 1) = true) :
    Steps q s (.inl
      { pos := aimed.pos + q.input.text.widthAt aimed.pos
        steps := aimed.steps + 1
        space := { space with current := space.next, next := space.current } })

theorem steps_step (q : Query) (s : Search P.size) : Steps q s (s.step q) := by
  cases haim : s.aim q with
  | none =>
    rw [step_of_aim_eq_none haim]
    exact .rest haim
  | some aimed =>
    cases hsweep : (aimed.seed q).sweep q with
    | error flaw =>
      simp only [step, haim, hsweep]
      exact .flaw haim hsweep
    | ok space =>
      rw [step_of_sweep haim hsweep]
      split
      · next hend => exact .settle haim hsweep hend
      · next hgo =>
        split
        · next hdue => exact .overrun haim hsweep hgo hdue
        · next hdue => exact .go haim hsweep hgo hdue

end Search

/-- Where a search is while it runs. -/
inductive Stage (n : Nat) where
  /-- It comes to an offset. -/
  | searching (s : Search n)
  /-- It follows edges, while the threads `others` are not touched. -/
  | closing (others : List (Thread n)) (pos : Nat) (cond : Conditions) (c : Closure n)
  /-- It sweeps the threads of an offset. -/
  | sweeping (m : Moment) (s : Sweep n)
  /-- It has ended. -/
  | ended (e : Ending n)

namespace Stage

/-- The threads in the run lists. -/
def threads {n : Nat} : Stage n → List (Thread n)
  | searching s => s.space.current.threads.toList ++ s.space.next.threads.toList
  | closing others _ _ c => others ++ c.front.list.threads.toList
  | sweeping _ s => s.pending ++ s.front.list.threads.toList
  | ended (.settled w) | ended (.overrun w) =>
    w.current.threads.toList ++ w.next.threads.toList
  | ended (.flawed _) => []

/-- What the next step takes for granted, if `width` slots are kept. -/
def InRange (width : Nat) : Stage P.size → Prop
  | searching s => s.InRange width
  | closing _ _ _ c => c.InRange
  | sweeping m s => s.InRange m
  | ended e => e.InRange

end Stage

/-- The stages that a search passes through when it begins as `s₀`. -/
inductive Search.Passes (q : Query) (s₀ : Search P.size) : Stage P.size → Prop where
  | start : Passes q s₀ (.searching s₀)
  /-- On to the next offset. -/
  | next {s s' : Search P.size} (h : Passes q s₀ (.searching s)) (hstep : s.step q = .inl s') :
      Passes q s₀ (.searching s')
  /-- No further offset. -/
  | ended {s : Search P.size} {e : Ending P.size} (h : Passes q s₀ (.searching s))
      (hstep : s.step q = .inr e) : Passes q s₀ (.ended e)
  /-- A new thread is started. -/
  | seed {s aimed : Search P.size} (h : Passes q s₀ (.searching s)) (haim : s.aim q = some aimed)
      (hmay : aimed.space.verdict.found = false ∧ q.mayStart aimed.pos = true) :
      Passes q s₀ (.closing aimed.space.next.threads.toList aimed.pos
        (q.input.text.context aimed.pos) aimed.seeding)
  /-- Then the threads are swept. -/
  | sweep {s aimed : Search P.size} (h : Passes q s₀ (.searching s))
      (haim : s.aim q = some aimed) :
      Passes q s₀ (.sweeping ((aimed.seed q).moment q) (aimed.seed q).sweeping)
  /-- One of them is taken up. -/
  | take {m : Moment} {s s' : Sweep P.size} (h : Passes q s₀ (.sweeping m s))
      (hstep : s.step m = .ok s') : Passes q s₀ (.sweeping m s')
  /-- The one that is taken up reads the symbol. -/
  | read {m : Moment} {t : Thread P.size} {rest : List (Thread P.size)} {front : Front P.size}
      {v : Verdict} {cls : SymbolClass} {pc : Fin P.size}
      (h : Passes q s₀ (.sweeping m ⟨t :: rest, front, v⟩))
      (hkept : m.abandons v t.buffer.slots = false) (hinstr : P.instr t.pc = .consume cls pc)
      (hread : m.symbol.any cls.contains = true) :
      Passes q s₀ (.closing rest m.nextPos m.nextCond
        ⟨{ front with work := front.work + 1 }, t.buffer, [.explore pc]⟩)
  /-- One thing is done. -/
  | follow {others : List (Thread P.size)} {pos : Nat} {cond : Conditions} {c c' : Closure P.size}
      (h : Passes q s₀ (.closing others pos cond c)) (hstep : c.step pos cond = .inl c') :
      Passes q s₀ (.closing others pos cond c')

/-- A search passes through its end. -/
theorem Search.Passes.run {q : Query} {s₀ s : Search P.size}
    (h : Search.Passes q s₀ (.searching s)) : Search.Passes q s₀ (.ended (s.run q)) := by
  induction s using Search.run.induct q with
  | case1 s s' hstep ih =>
    rw [run_of_step_inl hstep]
    exact ih (h.next hstep)
  | case2 s e hstep =>
    rw [run_of_step_inr hstep]
    exact h.ended hstep

namespace Machine

/-- The stages that a run of the machine passes through. -/
def Passes (m : Machine P) (env : Environment) (input : Input) (pos : Nat) (anchor : Anchor)
    (stage : Stage P.size) : Prop :=
  ∃ entry, P.entry? = some entry ∧
    Search.Passes (m.query env input anchor entry)
      { pos, steps := 0, space := m.space.reset m.width } stage

end Machine

end Lockstep
