import Lockstep.Program.Lead
import Lockstep.Sweep
import Lockstep.Text

/-!
# Searching a text

A search goes through a text once, from left to right. At each offset it starts a new thread,
unless there is a match already or matches may not start here; then it sweeps the threads of the
offset, and those that read the symbol wait for the next one.

- `Anchor`, `Query`: where a match may lie, and everything else a search is asked.
- `Workspace`: the run lists, buffers and verdict that a search works with.
- `Search`: a search under way, at some offset.
- `Search.aim`, `Search.seed`, `Search.sweep`: the three things done at an offset.
- `Search.step`, `Search.run`: one offset, and all of them.
- `Ending`: how a search ends.
-/

namespace Lockstep

/-- Where a match may lie. -/
inductive Anchor where
  /-- Anywhere from the offset on at which the search begins. -/
  | unanchored
  /-- It starts at the start of the text. -/
  | start
  /-- It is the whole text. -/
  | both
  deriving DecidableEq, Repr, Inhabited

/-- What a search is asked. -/
structure Query where
  /-- The text. -/
  input : Input
  /-- Where a match may lie. -/
  anchor : Anchor
  /-- Which match is wanted. -/
  kind : MatchKind
  /-- How many slots are kept. -/
  width : Nat
  /-- The conditions that hold wherever a match starts. -/
  entry : Conditions
  /-- The characters that every match starts with. -/
  lead : List Char
  /-- The time that the search may take, in milliseconds. -/
  limit : Option Nat
  /-- The time that has passed after so many symbols, in milliseconds. -/
  clock : Nat → Nat

namespace Query

/-- Whether a match may start at an offset, as far as the anchor goes. -/
def mayStart (q : Query) (pos : Nat) : Bool := decide (pos = 0) || q.anchor = .unanchored

/-- Whether a match may end at an offset, as far as the anchor goes. -/
def mayEnd (q : Query) (pos : Nat) : Bool := q.anchor ≠ .both || pos = q.input.text.endPos

/-- After how many symbols each time the clock is looked at. -/
def interval : Nat := 512

/-- Whether the clock is looked at after so many symbols, and the time is up. -/
def isOverdue (q : Query) (steps : Nat) : Bool :=
  decide (steps % interval = 0) && q.limit.any fun limit => decide (limit ≤ q.clock steps)

end Query

/-- What a search works with; it is kept from one search to the next. -/
structure Workspace (n : Nat) where
  /-- The run list of the current offset. -/
  current : RunList n
  /-- The run list of the next offset. -/
  next : RunList n
  /-- Where buffers come from and go to. -/
  pool : Pool
  /-- How many visits and threads have been counted. -/
  work : Nat
  /-- The best match so far. -/
  verdict : Verdict
  deriving DecidableEq, Repr

namespace Workspace

variable {n : Nat}

/-- A workspace that has not been used, for buffers with `width` slots. -/
def fresh (n width : Nat) : Workspace n where
  current := RunList.empty n
  next := RunList.empty n
  pool := Pool.empty width
  work := 0
  verdict := Verdict.pending width

/-- The workspace at the start of a search: nothing has been found or counted. -/
def reset (w : Workspace n) (width : Nat) : Workspace n :=
  { w with work := 0, verdict := Verdict.pending width }

/-- The workspace after a search: the buffers of all threads are back in the pool. -/
def drain (w : Workspace n) : Workspace n where
  current := w.current.clear
  next := w.next.clear
  pool :=
    (w.current.threads.toList ++ w.next.threads.toList).foldl
      (fun pool t => pool.release t.buffer) w.pool
  work := w.work
  verdict := w.verdict

end Workspace

/-- How a search ends. -/
inductive Ending (n : Nat) where
  /-- The verdict stands. -/
  | settled (w : Workspace n)
  /-- The time is up, and the search is broken off. -/
  | overrun (w : Workspace n)
  /-- The run list cannot be swept. -/
  | flawed (flaw : Flaw)

/-- A search under way. -/
structure Search (n : Nat) where
  /-- The offset. -/
  pos : Nat
  /-- How many symbols have been read. -/
  steps : Nat
  /-- What the search works with. -/
  space : Workspace n
  deriving DecidableEq, Repr

namespace Search

variable {P : Program}

/-- Where the search goes on. With a thread left, that is here. Without one, the search is over if
no new thread will be started, and otherwise it may pass over what lies before the next place
where a match can start. -/
def aim (q : Query) (s : Search P.size) : Option (Search P.size) :=
  if ¬ s.space.current.isEmpty then some s
  else if s.space.verdict.found ∨ ¬ q.mayStart s.pos ∨
      (Conditions.beginText ⊆ q.entry ∧ s.pos ≠ 0) then none
  else if ¬ q.lead.isEmpty ∧ q.input.searchable ∧
      q.input.text.symbolAt s.pos ≠ q.lead.head?.map Char.val then
    (q.input.distance? q.lead s.pos).map fun distance => { s with pos := s.pos + distance }
  else some s

/-- Starts a new thread, if a match may start here and none has been found. -/
def seed (q : Query) (s : Search P.size) : Search P.size :=
  if s.space.verdict.found = false ∧ q.mayStart s.pos then
    let (b, pool) := s.space.pool.take
    let front : Front P.size := { list := s.space.current, pool, work := s.space.work }
    let front := front.explore s.pos (q.input.text.context s.pos) P.start (b.startAt s.pos)
    { s with
      space := { s.space with current := front.list, pool := front.pool, work := front.work } }
  else
    s

/-- What is the same for all threads of the offset. -/
def moment (q : Query) (s : Search P.size) : Moment :=
  let nextPos := s.pos + q.input.text.widthAt s.pos
  { kind := q.kind
    width := q.width
    pos := s.pos
    symbol := q.input.text.symbolAt s.pos
    nextPos
    nextCond := q.input.text.context nextPos
    mayEnd := q.mayEnd s.pos }

/-- Sweeps the threads of the offset. -/
def sweep (q : Query) (s : Search P.size) : Except Flaw (Workspace P.size) := do
  let space := s.space
  let swept ← Sweep.run (s.moment q)
    { pending := space.current.threads.toList
      front := { list := space.next, pool := space.pool, work := space.work }
      verdict := space.verdict }
  return {
    current := space.current.clear
    next := swept.front.list
    pool := swept.front.pool
    work := swept.front.work
    verdict := swept.verdict }

/-- Goes through one offset. The search goes on behind the symbol, or it ends: at the end of the
text, at the first match if no slots are kept, when the time is up, or because there is nothing
left to do. -/
def step (q : Query) (s : Search P.size) : Search P.size ⊕ Ending P.size :=
  match s.aim q with
  | none => .inr (.settled s.space)
  | some s =>
    match (s.seed q).sweep q with
    | .error flaw => .inr (.flawed flaw)
    | .ok space =>
      let width := q.input.text.widthAt s.pos
      if width = 0 ∨ (q.width = 0 ∧ space.verdict.found) then .inr (.settled space)
      else if q.isOverdue (s.steps + 1) then .inr (.overrun space)
      else
        .inl
          { pos := s.pos + width
            steps := s.steps + 1
            space := { space with current := space.next, next := space.current } }

theorem step_of_aim_eq_none {q : Query} {s : Search P.size} (h : s.aim q = none) :
    s.step q = .inr (.settled s.space) := by
  simp only [step, h]

theorem step_of_sweep {q : Query} {s aimed : Search P.size} {space : Workspace P.size}
    (haim : s.aim q = some aimed) (hsweep : (aimed.seed q).sweep q = .ok space) :
    s.step q =
      if q.input.text.widthAt aimed.pos = 0 ∨ (q.width = 0 ∧ space.verdict.found) then
        .inr (.settled space)
      else if q.isOverdue (aimed.steps + 1) then .inr (.overrun space)
      else
        .inl
          { pos := aimed.pos + q.input.text.widthAt aimed.pos
            steps := aimed.steps + 1
            space := { space with current := space.next, next := space.current } } := by
  simp only [step, haim, hsweep]

/-- The search never goes back. -/
theorem pos_le_of_aim {q : Query} {s s' : Search P.size} (h : s.aim q = some s') :
    s.pos ≤ s'.pos := by
  unfold aim at h
  grind [Option.map_eq_some_iff]

/-- When the search goes on, it is behind the symbol and still in the text. -/
theorem pos_lt_of_step {q : Query} {s s' : Search P.size} (h : s.step q = .inl s') :
    s.pos < s'.pos ∧ s'.pos ≤ q.input.text.endPos := by
  unfold step at h
  split at h
  · cases h
  · next aimed haim =>
    have hle := pos_le_of_aim haim
    split at h
    · cases h
    · next space hsweep =>
      simp only at h
      split at h
      · cases h
      · next hwidth =>
        have hin : aimed.pos + q.input.text.widthAt aimed.pos ≤ q.input.text.endPos :=
          Text.widthAt_bounds (by omega)
        split at h
        · cases h
        · simp only [Sum.inl.injEq] at h
          subst h
          simp only
          omega

/-- Goes through the text until the search ends. -/
def run (q : Query) (s : Search P.size) : Ending P.size :=
  match _h : s.step q with
  | .inl s' => run q s'
  | .inr ending => ending
termination_by q.input.text.endPos - s.pos
decreasing_by
  have := pos_lt_of_step ‹_›
  omega

theorem run_of_step_inl {q : Query} {s s' : Search P.size} (h : s.step q = .inl s') :
    run q s = run q s' := by
  rw [run]
  split
  · next heq => rw [h] at heq; cases heq; rfl
  · next heq => rw [h] at heq; cases heq

theorem run_of_step_inr {q : Query} {s : Search P.size} {ending : Ending P.size}
    (h : s.step q = .inr ending) : run q s = ending := by
  rw [run]
  split
  · next heq => rw [h] at heq; cases heq
  · next heq => rw [h] at heq; cases heq; rfl

end Search

end Lockstep
