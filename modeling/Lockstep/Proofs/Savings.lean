import Lockstep.Machine
import Lockstep.Program.Freeze
import Lockstep.Proofs.Buffers
import Lockstep.Proofs.Flattening
import Lockstep.Proofs.Outcome
import Mathlib.Data.Fin.Tuple.Take

/-!
# Flat forks save work

Two machines run over the same text, one for a program and one for what is left of it when some
forks are left out. Step by step they hold the same threads, and have marked the same addresses
apart from the forks that are left out; so they come to the same verdict, and the second machine
has not done more.

- `Resembles.literal_eq`, `Resembles.entry?_eq`, `Resembles.slotCount_eq`: what a look at the first
  instructions tells does not depend on forks.
- `Front.Mirrors`, `Search.Mirrors`: the run lists of both machines, and both searches.
- `Search.saves_run`: both searches end in the same way, and the second one with no more work.
- `Builder.freeze_saves`: flattening changes nothing but that.
-/

namespace Lockstep

namespace Program

variable {P : Program} {code : Vector (Instr (Fin P.size)) P.size}

/-! ## What does not depend on forks -/

namespace Resembles

variable (h : P.Resembles code)
include h

theorem isStop_eq (pc : Fin P.size) :
    ((P.withCode code).instr pc).isStop = (P.instr pc).isStop := by
  rcases h pc with hsame | ⟨arms, arms', hfork, hfork'⟩
  · rw [hsame]
  · rw [hfork, hfork']
    rfl

theorem stops_eq (es : List (Fin P.size × Slots)) : (P.withCode code).stops es = P.stops es := by
  unfold stops
  exact List.filter_congr fun e _ => h.isStop_eq e.1

theorem settle_eq (steps : Nat) (pc : Fin P.size) :
    (P.withCode code).settle steps pc = P.settle steps pc := by
  induction steps generalizing pc with
  | zero => rfl
  | succ steps ih =>
    rw [Program.settle, Program.settle]
    rcases h pc with hsame | ⟨arms, arms', hfork, hfork'⟩
    · rw [hsame]
      simp only [ih]
      cases P.instr pc <;> rfl
    · rw [hfork, hfork']

theorem spell_eq (steps : Nat) (pc : Fin P.size) :
    (P.withCode code).spell steps pc = P.spell steps pc := by
  induction steps generalizing pc with
  | zero => rfl
  | succ steps ih =>
    rw [Program.spell, Program.spell]
    rcases h pc with hsame | ⟨arms, arms', hfork, hfork'⟩
    · rw [hsame]
      simp only [ih, h.settle_eq]
      cases P.instr pc with
      | consume cls next => cases cls <;> rfl
      | fork | save | assert | jump | fail | accept => rfl
    · rw [hfork, hfork']

/-- The characters that every match starts with are the same. -/
theorem literal_eq : (P.withCode code).literal = P.literal := by
  have haccept : ∀ pc : Fin P.size,
      ((P.withCode code).instr pc = .accept) = (P.instr pc = .accept) := by
    intro pc
    rcases h pc with hsame | ⟨arms, arms', hfork, hfork'⟩
    · rw [hsame]
    · rw [hfork, hfork']
      simp
  unfold Program.literal
  simp only [h.settle_eq, h.spell_eq, haccept]

theorem gather_eq (steps : Nat) (pc : Fin P.size) (found : Conditions) :
    (P.withCode code).gather steps pc found = P.gather steps pc found := by
  induction steps generalizing pc found with
  | zero => rfl
  | succ steps ih =>
    rw [Program.gather, Program.gather]
    rcases h pc with hsame | ⟨arms, arms', hfork, hfork'⟩
    · rw [hsame]
      simp only [ih]
      cases P.instr pc <;> rfl
    · rw [hfork, hfork']

/-- The conditions that hold wherever a match starts are the same. -/
theorem entry?_eq : Program.entry? (P.withCode code) = P.entry? := h.gather_eq P.size P.start ∅

/-- A fork needs no slots. -/
theorem slotCount_eq : (P.withCode code).slotCount = P.slotCount := by
  have hneeded : code.map Instr.slotsNeeded = P.code.map Instr.slotsNeeded := by
    ext pc hpc
    rw [Vector.getElem_map, Vector.getElem_map]
    show ((P.withCode code).instr ⟨pc, hpc⟩).slotsNeeded = (P.instr ⟨pc, hpc⟩).slotsNeeded
    rcases h ⟨pc, hpc⟩ with hsame | ⟨arms, arms', hfork, hfork'⟩
    · rw [hsame]
    · rw [hfork, hfork']
      rfl
  have hcount : ∀ code : Vector (Instr (Fin P.size)) P.size,
      Instr.slotCount code.toArray = (code.map Instr.slotsNeeded).toArray.foldl max 2 := by
    intro code
    rw [Vector.toArray_map, Array.foldl_map]
    rfl
  show Instr.slotCount code.toArray = Instr.slotCount P.code.toArray
  rw [hcount, hcount, hneeded]

end Resembles

end Program

/-! ## What a sweep settles -/

namespace Moment

variable {P : Program} {code : Vector (Instr (Fin P.size)) P.size} (h : P.Resembles code)
  (m : Moment)
include h

theorem settle_of_resembles (es : List (Fin P.size × Slots)) (v : Verdict) :
    m.settle (P.withCode code) es v = m.settle P es v := by
  induction es generalizing v with
  | nil => rfl
  | cons e es ih =>
    obtain ⟨pc, slots⟩ := e
    rcases h pc with hsame | ⟨arms, arms', hfork, hfork'⟩
    · simp only [settle, hsame, ih]
      cases P.instr pc <;> rfl
    · rw [settle_of_not_isStop (by rw [hfork]; rfl), settle_of_not_isStop (by rw [hfork']; rfl), ih]

theorem takenUp_of_resembles (es : List (Fin P.size × Slots)) (v : Verdict) :
    m.takenUp (P.withCode code) es v = m.takenUp P es v := by
  induction es generalizing v with
  | nil => rfl
  | cons e es ih =>
    obtain ⟨pc, slots⟩ := e
    rcases h pc with hsame | ⟨arms, arms', hfork, hfork'⟩
    · simp only [takenUp, hsame, ih]
      cases P.instr pc <;> rfl
    · rw [takenUp_of_ne_accept (by simp [hfork]), takenUp_of_ne_accept (by simp [hfork']), ih]

end Moment

/-- What is handed over stands behind an instruction that reads. -/
theorem Moment.exists_consume_of_mem_settle {P : Program} {m : Moment}
    {es : List (Fin P.size × Slots)} {v : Verdict} {e : Fin P.size × Slots}
    (he : e ∈ (m.settle P es v).1) :
    ∃ e' ∈ es, ∃ cls, P.instr e'.1 = .consume cls e.1 := by
  induction es generalizing v with
  | nil => cases he
  | cons e₁ es ih =>
    obtain ⟨pc, slots⟩ := e₁
    have hlater : ∀ {v}, e ∈ (m.settle P es v).1 →
        ∃ e' ∈ (pc, slots) :: es, ∃ cls, P.instr e'.1 = .consume cls e.1 := by
      intro v he
      obtain ⟨e', he', hread⟩ := ih he
      exact ⟨e', List.mem_cons_of_mem _ he', hread⟩
    by_cases hacc : P.instr pc = .accept
    · cases hab : m.abandons v slots with
      | true =>
        rw [settle_of_abandons hab] at he
        exact hlater he
      | false =>
        rw [settle_accept hab hacc] at he
        split at he
        · split at he
          · cases he
          · exact hlater he
        · exact hlater he
    · obtain ⟨handed, hsettle, hhanded⟩ := settle_of_ne_accept hacc m slots es v
      rw [hsettle] at he
      rcases List.mem_append.mp he with he | he
      · obtain ⟨-, cls, hread, -⟩ := hhanded e he
        exact ⟨(pc, slots), List.mem_cons_self, cls, hread⟩
      · exact hlater he

/-! ## Run lists that mirror each other -/

/-- A front has grown by the search of some entries, and `count` has been counted besides. -/
structure Front.Gains (P : Program) (pos : Nat) (cond : Conditions) (es : List (Fin P.size × Slots))
    (count : Nat) (front grown : Front P.size) : Prop where
  view : grown.list.view = front.list.view ++
    P.stops ((P.passing pos cond).arrivals front.list.seen es)
  seen : grown.list.seen = front.list.seen ∪
    Graph.nodes ((P.passing pos cond).arrivals front.list.seen es)
  work : grown.work = front.work + count + ((P.passing pos cond).arrivals front.list.seen es).length

theorem Front.gains_explore {P : Program} (front : Front P.size) (pos : Nat) (cond : Conditions)
    (pc : Fin P.size) (b : Buffer) :
    Front.Gains P pos cond [(pc, b.slots)] 0 front (front.explore pos cond pc b) :=
  ⟨front.view_explore pos cond pc b, front.seen_explore pos cond pc b,
    front.work_explore pos cond pc b⟩

theorem Sweep.Comes.gains {P : Program} {m : Moment} {s s' : Sweep P.size} {taken : Nat}
    {settled : List (Fin P.size × Slots) × Verdict} (h : Sweep.Comes m s s' taken settled) :
    Front.Gains P m.nextPos m.nextCond settled.1 taken s.front s'.front :=
  ⟨h.view, h.seen, h.work⟩

/-- The run list `list'` holds the threads of the run list `list`, and has the same marks apart from
the forks that are left out. A fork that is left out has been marked only after its parent, at
whatever offset that was. -/
structure RunList.Mirrors (P : Program) (left : Fin P.size → Bool) (list list' : RunList P.size) :
    Prop where
  view : list'.view = list.view
  waits : ∀ e ∈ list.view, (P.instr e.1).isStop = true ∧ P.Met e.1
  seen : ∀ pc, left pc = false → (pc ∈ list'.seen ↔ pc ∈ list.seen)
  parent : ∀ g, left g = true → g ∈ list.seen → ∀ pc, P.Met pc →
    g ∈ (P.instr pc).successors → pc ∈ list.seen

theorem RunList.mirrors_empty (P : Program) (left : Fin P.size → Bool) :
    RunList.Mirrors P left (RunList.empty P.size) (RunList.empty P.size) := by
  refine ⟨rfl, ?_, fun _ _ => Iff.rfl, ?_⟩
  · intro e he
    rw [RunList.view_empty] at he
    cases he
  · intro g _ hg
    rw [RunList.seen_empty] at hg
    exact absurd hg (Finset.notMem_empty g)

namespace RunList.Mirrors

variable {P : Program} {code : Vector (Instr (Fin P.size)) P.size} {left : Fin P.size → Bool}
  {list list' : RunList P.size} {pos : Nat} {cond : Conditions} {es : List (Fin P.size × Slots)}

/-- At each offset a fork that is left out comes only behind its parent. -/
theorem tidy (h : Mirrors P left list list') (hes : ∀ e ∈ es, P.Met e.1 ∧ left e.1 = false) :
    (P.passing pos cond).Tidy P.Met left list.seen es := by
  have hnot : ∀ g, left g = true → g ∉ es.map Prod.fst := by
    intro g hg hmem
    obtain ⟨e, he, rfl⟩ := List.mem_map.mp hmem
    rw [(hes e he).2] at hg
    cases hg
  refine ⟨fun e he => (hes e he).1, ?_, ?_, ?_⟩
  · intro e he hinner
    rw [(hes e he).2] at hinner
    cases hinner
  · intro g hg
    rw [List.count_eq_zero.mpr (hnot g hg)]
    exact Nat.zero_le 1
  · intro g hg hmem pc hpc hedge
    exact h.parent g hg (hmem.resolve_right (hnot g hg)) pc hpc
      (Program.mem_successors_of_mem_passing hedge)

/-- The same addresses are searched, apart from the forks that are left out. -/
theorem arrivals_eq (hleft : P.LeavesOut code left) (h : Mirrors P left list list')
    (hes : ∀ e ∈ es, P.Met e.1 ∧ left e.1 = false) :
    ((P.withCode code).passing pos cond).arrivals list'.seen es =
      ((P.passing pos cond).arrivals list.seen es).filter fun e => !left e.1 := by
  have hsame := Graph.arrivals_splice (hleft.splice pos cond) (h.tidy hes) h.seen
  rwa [Graph.spreadEntries_of_forall fun e he => (hes e he).2] at hsame

/-- What is searched stops at the same instructions. -/
theorem stops_arrivals_eq (hleft : P.LeavesOut code left) (h : Mirrors P left list list')
    (hes : ∀ e ∈ es, P.Met e.1 ∧ left e.1 = false) :
    (P.withCode code).stops (((P.withCode code).passing pos cond).arrivals list'.seen es) =
      P.stops ((P.passing pos cond).arrivals list.seen es) := by
  rw [h.arrivals_eq hleft hes, hleft.resembles.stops_eq]
  unfold Program.stops
  rw [List.filter_filter]
  refine List.filter_congr fun e _ => ?_
  cases hinner : left e.1 with
  | true =>
    obtain ⟨arms, hfork⟩ := hleft.isFork e.1 hinner
    rw [hfork]
    rfl
  | false => simp

/-- What the threads hand over stands at addresses that are not left out. -/
theorem met_of_mem_settle (hleft : P.LeavesOut code left) (h : Mirrors P left list list')
    {m : Moment} {v : Verdict} {e : Fin P.size × Slots} (he : e ∈ (m.settle P list.view v).1) :
    P.Met e.1 ∧ left e.1 = false := by
  obtain ⟨e', he', cls, hread⟩ := Moment.exists_consume_of_mem_settle he
  have hmet : P.Met e'.1 := (h.waits e' he').2
  have hedge : e.1 ∈ (P.instr e'.1).successors := by
    rw [hread]
    exact List.mem_singleton_self _
  refine ⟨hmet.tail hedge, ?_⟩
  by_contra hinner
  obtain ⟨arms, hfork⟩ := hleft.parent e'.1 e.1 hmet (by simpa using hinner) hedge
  rw [hfork] at hread
  cases hread

end RunList.Mirrors

namespace Front

variable {P : Program} {code : Vector (Instr (Fin P.size)) P.size} {left : Fin P.size → Bool}

/-- And no more has been counted. -/
structure Mirrors (P : Program) (left : Fin P.size → Bool) (front front' : Front P.size) : Prop
    where
  list : RunList.Mirrors P left front.list front'.list
  work : front'.work ≤ front.work

variable {front front' grown grown' : Front P.size} {pos : Nat} {cond : Conditions}
  {es : List (Fin P.size × Slots)} {count : Nat}

/-- **What mirrors each other keeps doing so** when the same entries are searched. -/
theorem Mirrors.gain (hleft : P.LeavesOut code left) (h : Mirrors P left front front')
    (hes : ∀ e ∈ es, P.Met e.1 ∧ left e.1 = false)
    (hgrown : Gains P pos cond es count front grown)
    (hgrown' : Gains (P.withCode code) pos cond es count front' grown') :
    Mirrors P left grown grown' := by
  have hsplice := hleft.splice pos cond
  have harrivals : ((P.withCode code).passing pos cond).arrivals front'.list.seen es = _ :=
    h.list.arrivals_eq hleft hes
  refine ⟨⟨?_, ?_, ?_, ?_⟩, ?_⟩
  · rw [hgrown.view, hgrown'.view, h.list.stops_arrivals_eq hleft hes, h.list.view]
  · intro e he
    rw [hgrown.view] at he
    rcases List.mem_append.mp he with he | he
    · exact h.list.waits e he
    · obtain ⟨harrival, hstop⟩ := List.mem_filter.mp he
      have hmet : P.Met e.1 := Graph.forall_arrivals (p := fun pc _ => P.Met pc)
        (fun pc _ hpc pc' hedge => hsplice.closed pc hpc pc' hedge) (fun e he => (hes e he).1)
        e harrival
      exact ⟨hstop, hmet⟩
  · intro pc hpc
    have hnodes : pc ∈ Graph.nodes
        (((P.passing pos cond).arrivals front.list.seen es).filter fun e => !left e.1) ↔
        pc ∈ Graph.nodes ((P.passing pos cond).arrivals front.list.seen es) := by
      simp only [Graph.mem_nodes, List.mem_filter, hpc, Bool.not_false, and_true]
    rw [hgrown.seen, hgrown'.seen, harrivals, Finset.mem_union, Finset.mem_union,
      h.list.seen pc hpc, hnodes]
  · intro g hg hmem pc hpc hedge
    rw [hgrown.seen] at hmem ⊢
    obtain ⟨arms, hfork⟩ := hleft.parent pc g hpc hg hedge
    rw [hfork] at hedge
    refine ((h.list.tidy hes).finish hsplice).parent g hg (.inl hmem) pc hpc ?_
    rw [Program.next_passing_of_fork hfork]
    exact hedge
  · rw [hgrown.work, hgrown'.work, harrivals]
    have hle := List.length_filter_le (fun e : Fin P.size × Slots => !left e.1)
      ((P.passing pos cond).arrivals front.list.seen es)
    have hwork := h.work
    omega

theorem Mirrors.explore (hleft : P.LeavesOut code left) (h : Mirrors P left front front')
    (pos : Nat) (cond : Conditions) {pc : Fin P.size} (hpc : P.Met pc ∧ left pc = false)
    {b b' : Buffer} (hb : b'.slots = b.slots) :
    Mirrors P left (front.explore pos cond pc b)
      (explore (P := P.withCode code) front' pos cond pc b') := by
  have hgains' := gains_explore (P := P.withCode code) front' pos cond pc b'
  rw [hb] at hgains'
  exact h.gain hleft (List.forall_mem_singleton.mpr hpc) (gains_explore front pos cond pc b) hgains'

end Front

/-! ## Searches that mirror each other -/

/-- The second search ends as the first one does, and has counted no more. -/
inductive Ending.Saves {n : Nat} : Ending n → Ending n → Prop where
  | settled {w w' : Workspace n} (hverdict : w'.verdict = w.verdict) (hwork : w'.work ≤ w.work) :
    Saves (.settled w) (.settled w')
  | overrun {w w' : Workspace n} (hverdict : w'.verdict = w.verdict) (hwork : w'.work ≤ w.work) :
    Saves (.overrun w) (.overrun w')

namespace Search

variable {P : Program} {code : Vector (Instr (Fin P.size)) P.size} {left : Fin P.size → Bool}
  {q : Query} {s s' : Search P.size}

/-- Two searches stand at the same offset with run lists that mirror each other, and the second one
has counted no more. -/
structure Mirrors (P : Program) (left : Fin P.size → Bool) (width : Nat) (s s' : Search P.size) :
    Prop where
  pos : s'.pos = s.pos
  steps : s'.steps = s.steps
  current : RunList.Mirrors P left s.space.current s'.space.current
  next : RunList.Mirrors P left s.space.next s'.space.next
  work : s'.space.work ≤ s.space.work
  verdict : s'.space.verdict = s.space.verdict
  uniform : s.space.Uniform width
  uniform' : s'.space.Uniform width

variable {width : Nat}

/-- Both searches go on at the same offset, or neither does. -/
theorem Mirrors.aim (h : Mirrors P left width s s') (q : Query) :
    (s.aim q = none ∧ aim (P := P.withCode code) q s' = none) ∨
      ∃ pos, s.aim q = some { s with pos } ∧
        aim (P := P.withCode code) q s' = some { s' with pos } := by
  have hempty : s'.space.current.isEmpty = s.space.current.isEmpty := by
    rw [Bool.eq_iff_iff, ← RunList.view_eq_nil_iff, ← RunList.view_eq_nil_iff, h.current.view]
  unfold Search.aim
  simp only [hempty, h.verdict, h.pos]
  split
  · exact .inr ⟨s.pos, rfl, by rw [← h.pos]⟩
  · split
    · exact .inl ⟨rfl, rfl⟩
    · split
      · cases q.input.distance? q.lead s.pos with
        | none => exact .inl ⟨rfl, rfl⟩
        | some distance => exact .inr ⟨s.pos + distance, rfl, rfl⟩
      · exact .inr ⟨s.pos, rfl, by rw [← h.pos]⟩

/-- Marks do not depend on the offset. -/
theorem Mirrors.moveTo (h : Mirrors P left width s s') (pos : Nat) :
    Mirrors P left width { s with pos } { s' with pos } :=
  ⟨rfl, h.steps, h.current, h.next, h.work, h.verdict, h.uniform, h.uniform'⟩

theorem Mirrors.seed (hleft : P.LeavesOut code left) (h : Mirrors P left width s s') :
    Mirrors P left width (s.seed q) (seed (P := P.withCode code) q s') := by
  obtain ⟨pos, steps, space⟩ := s
  obtain ⟨pos', steps', space'⟩ := s'
  obtain rfl : pos' = pos := h.pos
  have huniform := uniform_seed (q := q) h.uniform
  have huniform' := uniform_seed (P := P.withCode code) (q := q) h.uniform'
  by_cases hseed : space.verdict.found = false ∧ q.mayStart pos' = true
  · have hseed' : space'.verdict.found = false ∧ q.mayStart pos' = true :=
      ⟨(congrArg Verdict.found h.verdict).trans hseed.1, hseed.2⟩
    rw [Search.seed, if_pos hseed] at huniform ⊢
    rw [Search.seed, if_pos hseed'] at huniform' ⊢
    -- both buffers are equally wide, whatever was in them
    have hsize : space'.pool.take.1.slots.size = space.pool.take.1.slots.size :=
      h.uniform'.pool.take.1.trans h.uniform.pool.take.1.symm
    have hbuffer : (space'.pool.take.1.startAt pos').slots =
        (space.pool.take.1.startAt pos').slots := by
      show (Slots.unset space'.pool.take.1.slots.size).setIfInBounds 0 (some pos') = _
      rw [hsize]
      rfl
    have hfront : Front.Mirrors P left ⟨space.current, space.pool.take.2, space.work⟩
        ⟨space'.current, space'.pool.take.2, space'.work⟩ := ⟨h.current, h.work⟩
    have hgrown := hfront.explore hleft pos' (q.input.text.context pos')
      ⟨Program.met_start P, hleft.start⟩ hbuffer
    exact ⟨rfl, h.steps, hgrown.list, h.next, hgrown.work, h.verdict, huniform, huniform'⟩
  · have hseed' : ¬ (space'.verdict.found = false ∧ q.mayStart pos' = true) := by
      rw [show space'.verdict = space.verdict from h.verdict]
      exact hseed
    rw [seed_of_not_may hseed, seed_of_not_may (P := P.withCode code) hseed']
    exact h

/-- **One sweep** of both searches succeeds, and what comes of it mirrors each other. -/
theorem Mirrors.sweep (hleft : P.LeavesOut code left) (h : Mirrors P left width s s') :
    ∃ space space', s.sweep q = .ok space ∧ sweep (P := P.withCode code) q s' = .ok space' ∧
      ∀ pos steps, Mirrors P left width
        ⟨pos, steps, { space with current := space.next, next := space.current }⟩
        ⟨pos, steps, { space' with current := space'.next, next := space'.current }⟩ := by
  have hmoment : moment (P := P.withCode code) q s' = s.moment q := by
    unfold Search.moment
    rw [h.pos]
  have hview : Sweep.viewed (P := P.withCode code) s'.space.current.threads.toList =
      Sweep.viewed s.space.current.threads.toList := h.current.view
  have hstop : ∀ t ∈ s.space.current.threads.toList, (P.instr t.pc).isStop = true := fun t ht =>
    (h.current.waits (t.pc, t.buffer.slots) (List.mem_map.mpr ⟨t, ht, rfl⟩)).1
  have hstop' : ∀ t ∈ s'.space.current.threads.toList,
      ((P.withCode code).instr t.pc).isStop = true := by
    intro t ht
    rw [hleft.resembles.isStop_eq]
    refine (h.current.waits (t.pc, t.buffer.slots) ?_).1
    rw [← h.current.view]
    exact List.mem_map.mpr ⟨t, ht, rfl⟩
  obtain ⟨swept, hrun, hcomes⟩ := Sweep.run_eq (s.moment q) s.space.current.threads.toList
    ⟨s.space.next, s.space.pool, s.space.work⟩ s.space.verdict hstop
  obtain ⟨swept', hrun', hcomes'⟩ := Sweep.run_eq (P := P.withCode code) (s.moment q)
    s'.space.current.threads.toList ⟨s'.space.next, s'.space.pool, s'.space.work⟩ s'.space.verdict
    hstop'
  -- both settle the same
  rw [hview, h.verdict, Moment.settle_of_resembles hleft.resembles,
    Moment.takenUp_of_resembles hleft.resembles] at hcomes'
  have hfront : Front.Mirrors P left ⟨s.space.next, s.space.pool, s.space.work⟩
      ⟨s'.space.next, s'.space.pool, s'.space.work⟩ := ⟨h.next, h.work⟩
  have hgrown := hfront.gain hleft (fun e he => h.current.met_of_mem_settle hleft he) hcomes.gains
    hcomes'.gains
  have hsweep : s.sweep q = .ok ⟨s.space.current.clear, swept.front.list, swept.front.pool,
      swept.front.work, swept.verdict⟩ := sweep_of_run hrun
  have hsweep' : Search.sweep (P := P.withCode code) q s' = .ok ⟨s'.space.current.clear,
      swept'.front.list, swept'.front.pool, swept'.front.work, swept'.verdict⟩ :=
    sweep_of_run (P := P.withCode code) (by rw [hmoment]; exact hrun')
  have huniform := uniform_sweep h.uniform hsweep
  have huniform' := uniform_sweep (P := P.withCode code) h.uniform' hsweep'
  refine ⟨_, _, hsweep, hsweep', fun pos steps => ?_⟩
  exact ⟨rfl, rfl, hgrown.list, RunList.mirrors_empty P left, hgrown.work,
    hcomes'.verdict.trans hcomes.verdict.symm,
    ⟨huniform.pool, huniform.next, huniform.current⟩,
    ⟨huniform'.pool, huniform'.next, huniform'.current⟩⟩

/-- **One offset**: both searches go on, or both end. -/
theorem Mirrors.step (hleft : P.LeavesOut code left) (h : Mirrors P left q.width s s') :
    (∃ t t', s.step q = .inl t ∧ step (P := P.withCode code) q s' = .inl t' ∧
      Mirrors P left q.width t t') ∨
      ∃ ending ending', s.step q = .inr ending ∧
        step (P := P.withCode code) q s' = .inr ending' ∧ ending.Saves ending' := by
  rcases h.aim q with ⟨haim, haim'⟩ | ⟨pos, haim, haim'⟩
  · exact .inr ⟨_, _, step_of_aim_eq_none haim, step_of_aim_eq_none (P := P.withCode code) haim',
      .settled h.verdict h.work⟩
  · obtain ⟨space, space', hsweep, hsweep', hnext⟩ :=
      ((h.moveTo pos).seed (q := q) hleft).sweep (q := q) hleft
    have hswept := hnext pos s.steps
    have hstep := step_of_sweep haim hsweep
    have hstep' := step_of_sweep (P := P.withCode code) haim' hsweep'
    have hverdict : space'.verdict = space.verdict := hswept.verdict
    have hfound : space'.verdict.found = space.verdict.found := congrArg Verdict.found hverdict
    rw [hfound, h.steps] at hstep'
    by_cases hend : q.input.text.widthAt pos = 0 ∨ (q.width = 0 ∧ space.verdict.found = true)
    · rw [if_pos hend] at hstep hstep'
      exact .inr ⟨_, _, hstep, hstep', .settled hverdict hswept.work⟩
    · rw [if_neg hend] at hstep hstep'
      by_cases hdue : q.isOverdue (s.steps + 1) = true
      · rw [if_pos hdue] at hstep hstep'
        exact .inr ⟨_, _, hstep, hstep', .overrun hverdict hswept.work⟩
      · rw [if_neg hdue] at hstep hstep'
        exact .inl ⟨_, _, hstep, hstep', hnext _ _⟩

/-- **The whole search**: both end in the same way, and the second one has counted no more. -/
theorem saves_run (hleft : P.LeavesOut code left) (h : Mirrors P left q.width s s') :
    (s.run q).Saves (run (P := P.withCode code) q s') := by
  induction s using Search.run.induct q generalizing s' with
  | case1 s t hstep ih =>
    rcases h.step hleft with ⟨t₁, t', hstep₁, hstep', ht⟩ | ⟨ending, ending', hend, -, -⟩
    · rw [hstep] at hstep₁
      cases hstep₁
      rw [run_of_step_inl hstep, run_of_step_inl (P := P.withCode code) hstep']
      exact ih ht
    · rw [hstep] at hend
      cases hend
  | case2 s ending hstep =>
    rcases h.step hleft with ⟨t₁, t', hstep₁, -, -⟩ | ⟨ending₁, ending', hend, hend', hsaves⟩
    · rw [hstep] at hstep₁
      cases hstep₁
    · rw [hstep] at hend
      cases hend
      rw [run_of_step_inr hstep, run_of_step_inr (P := P.withCode code) hend']
      exact hsaves

end Search

/-! ## Machines that mirror each other -/

/-- Searches that end in the same way give the same answer. -/
theorem Ending.Saves.conclude {P : Program} {code : Vector (Instr (Fin P.size)) P.size}
    {m : Machine P} {m' : Machine (P.withCode code)} (hwidth : m'.width = m.width)
    {ending ending' : Ending P.size} (h : ending.Saves ending') :
    (m'.conclude ending').1 = (m.conclude ending).1 ∧
      (m'.conclude ending').2.submatches = (m.conclude ending).2.submatches ∧
      (m'.conclude ending').2.work ≤ (m.conclude ending).2.work := by
  cases h with
  | @settled w w' hverdict hwork =>
    refine ⟨congrArg (fun v : Verdict => Except.ok v.found) hverdict, ?_, hwork⟩
    show w'.verdict.submatches m'.width = w.verdict.submatches m.width
    rw [hverdict, hwidth]
  | @overrun w w' hverdict hwork =>
    refine ⟨rfl, ?_, hwork⟩
    show w'.verdict.submatches m'.width = w.verdict.submatches m.width
    rw [hverdict, hwidth]

/-- A machine for `Q` answers as a machine for `P` does if it is asked the same, and has counted no
more in the end. -/
def Program.Saves (P Q : Program) : Prop :=
  ∀ (m : Machine P) (m' : Machine Q), m.Idle → m'.Idle → m'.kind = m.kind → m'.width = m.width →
    ∀ env, m'.timeLimit env = m.timeLimit env → ∀ (input : Input) (pos : Nat) (anchor : Anchor),
      (m'.tryMatch env input pos anchor).1 = (m.tryMatch env input pos anchor).1 ∧
        (m'.tryMatch env input pos anchor).2.submatches =
          (m.tryMatch env input pos anchor).2.submatches ∧
        (m'.tryMatch env input pos anchor).2.work ≤ (m.tryMatch env input pos anchor).2.work

namespace Program

variable {P Q R : Program}

/-- What two programs are to a third one, they are to each other: one machine stands between. -/
theorem Saves.trans (h : P.Saves Q) (h' : Q.Saves R) : P.Saves R := by
  intro m m'' hidle hidle'' hkind hwidth env hlimit input pos anchor
  let m' : Machine Q :=
    { kind := m.kind, width := m.width, limit := m.limit, space := Workspace.fresh Q.size m.width }
  have hidle' : m'.Idle := ⟨rfl, rfl, Pool.uniform_empty m.width⟩
  obtain ⟨hfound, hslots, hwork⟩ :=
    h m m' hidle hidle' rfl rfl env rfl input pos anchor
  obtain ⟨hfound', hslots', hwork'⟩ :=
    h' m' m'' hidle' hidle'' hkind hwidth env hlimit input pos anchor
  exact ⟨hfound'.trans hfound, hslots'.trans hslots, hwork'.trans hwork⟩

/-- **Leaving forks out** changes no answer. -/
theorem LeavesOut.saves {code : Vector (Instr (Fin P.size)) P.size} {left : Fin P.size → Bool}
    (h : P.LeavesOut code left) : P.Saves (P.withCode code) := by
  intro m m' hidle hidle' hkind hwidth env hlimit input pos anchor
  have hentry := h.resembles.entry?_eq
  by_cases hanchor : anchor ≠ .unanchored ∧ pos ≠ 0
  · rw [Machine.tryMatch_of_anchored hanchor, Machine.tryMatch_of_anchored hanchor]
    exact ⟨rfl, congrArg Slots.unset hwidth, le_refl 0⟩
  · cases hP : P.entry? with
    | none =>
      rw [Machine.tryMatch_of_no_entry hP, Machine.tryMatch_of_no_entry (hentry.trans hP)]
      exact ⟨rfl, congrArg Slots.unset hwidth, le_refl 0⟩
    | some entry =>
      rw [Machine.tryMatch_of_entry hP hanchor, Machine.tryMatch_of_entry (hentry.trans hP) hanchor]
      have hquery : m'.query env input anchor entry = m.query env input anchor entry := by
        simp only [Machine.query, hkind, hwidth, hlimit, h.resembles.literal_eq]
      have hmirrors : Search.Mirrors P left m.width ⟨pos, 0, m.space.reset m.width⟩
          ⟨pos, 0, m'.space.reset m'.width⟩ := by
        have huniform' := hidle'.uniform_reset
        rw [hwidth] at huniform' ⊢
        refine ⟨rfl, rfl, ?_, ?_, le_refl 0, rfl, hidle.uniform_reset, huniform'⟩
        · show RunList.Mirrors P left m.space.current m'.space.current
          rw [hidle.current, hidle'.current]
          exact RunList.mirrors_empty P left
        · show RunList.Mirrors P left m.space.next m'.space.next
          rw [hidle.next, hidle'.next]
          exact RunList.mirrors_empty P left
      have hsaves := Search.saves_run (q := m.query env input anchor entry) h hmirrors
      rw [hquery]
      exact hsaves.conclude hwidth

/-- So does handing arms over, as often as one likes. -/
theorem Rewired.saves {code : Vector (Instr (Fin P.size)) P.size} (h : P.Rewired code) :
    P.Saves (P.withCode code) := by
  induction h with
  | refl => exact (leavesOut_of_same (fun _ => .inl rfl) fun _ _ => rfl).saves
  | handOver _ hover ih =>
    obtain ⟨left, hleft⟩ := hover.exists_leavesOut
    exact ih.trans hleft.saves

/-- **Flattening saves work** and changes nothing else. -/
theorem saves_flatten (P : Program) : P.Saves P.flatten := (rewired_flatten P).saves

end Program

/-! ## Builders -/

/-- **Flattening preserves meaning.** Whatever has been built, both ways to finish it fail alike or
both succeed; and then the two programs look the same from outside, answer the same, and the
flattened one takes no more work. -/
theorem Builder.freeze_saves (b : Builder) :
    (∃ error, b.freezeBinary = .error error ∧ b.freeze = .error error) ∨
      ∃ P Q, b.freezeBinary = .ok P ∧ b.freeze = .ok Q ∧
        Q.size = P.size ∧ (Q.start : Nat) = P.start ∧ Q.slotCount = P.slotCount ∧
        Q.literal = P.literal ∧ Q.literal.firstSymbol? = P.literal.firstSymbol? ∧
        Q.entry? = P.entry? ∧
        ∀ (m : Machine P) (m' : Machine Q), m.Reachable → m'.Reachable →
          m'.kind = m.kind → m'.width = m.width →
          ∀ env, m.timeLimit env = none → m'.timeLimit env = none →
          ∀ (input : Input) (pos : Nat) (anchor : Anchor),
            (m'.tryMatch env input pos anchor).1 = (m.tryMatch env input pos anchor).1 ∧
              (m'.tryMatch env input pos anchor).2.submatches =
                (m.tryMatch env input pos anchor).2.submatches ∧
              (m'.tryMatch env input pos anchor).2.work ≤
                (m.tryMatch env input pos anchor).2.work := by
  unfold freeze
  cases hb : b.freezeBinary with
  | error error => exact .inl ⟨error, rfl, rfl⟩
  | ok P =>
    have hresembles := (P.rewired_flatten).resembles
    refine .inr ⟨P, P.flatten, rfl, rfl, rfl, rfl, hresembles.slotCount_eq, hresembles.literal_eq,
      congrArg Literal.firstSymbol? hresembles.literal_eq, hresembles.entry?_eq, ?_⟩
    intro m m' hm hm' hkind hwidth env hlimit hlimit' input pos anchor
    exact P.saves_flatten m m' hm.idle hm'.idle hkind hwidth env (hlimit'.trans hlimit.symm) input
      pos anchor

/-- A choice of two letters, any number of times: the inner fork hands its arms over. -/
theorem Builder.freeze_saves_letters :
    let b : Builder :=
      { code := #[.fork [some 1, some 4], .fork [some 2, some 3], .consume (.single 0x61) (some 0),
          .consume (.single 0x62) (some 0), .accept] }
    let P : Program :=
      ⟨5, #v[.fork [1, 4], .fork [2, 3], .consume (.single 0x61) 0, .consume (.single 0x62) 0,
        .accept], 0⟩
    let Q : Program :=
      ⟨5, #v[.fork [2, 3, 4], .fork [2, 3], .consume (.single 0x61) 0, .consume (.single 0x62) 0,
        .accept], 0⟩
    let m := Machine.new P .leftmostLongest
    let m' := Machine.new Q .leftmostLongest
    let input : Input := { text := .utf8 #[0xFF, 0x62, 0x61], searchable := false }
    b.freezeBinary = .ok P ∧ b.freeze = .ok Q ∧ m.Reachable ∧ m'.Reachable ∧
      m'.kind = m.kind ∧ m'.width = m.width ∧ m.timeLimit {} = none ∧ m'.timeLimit {} = none ∧
      (m'.tryMatch {} input 1 .unanchored).1 = (m.tryMatch {} input 1 .unanchored).1 ∧
      (m'.tryMatch {} input 1 .unanchored).2.submatches =
        (m.tryMatch {} input 1 .unanchored).2.submatches ∧
      (m'.tryMatch {} input 1 .unanchored).2.work ≤ (m.tryMatch {} input 1 .unanchored).2.work := by
  intro b P Q m m' input
  have hbinary : b.freezeBinary = .ok P := by cbv
  have hcode : (List.finRange 5).foldl (Program.widen P.indegrees) P.code = Q.code := by
    decide +kernel
  have hflat : b.freeze = .ok Q := by
    have hmap : b.freeze = .ok P.flatten := congrArg (Except.map Program.flatten) hbinary
    rw [hmap]
    show Except.ok
      (⟨5, (List.finRange 5).foldl (Program.widen P.indegrees) P.code, 0⟩ : Program) = _
    rw [hcode]
  have hreach : m.Reachable := .new .leftmostLongest
  have hreach' : m'.Reachable := .new .leftmostLongest
  rcases b.freeze_saves with ⟨error, herror, -⟩ | ⟨P', Q', hP, hQ, -, -, -, -, -, -, hsaves⟩
  · rw [hbinary] at herror
    cases herror
  · obtain rfl : P = P' := Except.ok.inj (hbinary.symm.trans hP)
    obtain rfl : Q = Q' := Except.ok.inj (hflat.symm.trans hQ)
    exact ⟨hbinary, hflat, hreach, hreach', rfl, by decide, rfl, rfl,
      hsaves m m' hreach hreach' rfl (by decide) {} rfl rfl input 1 .unanchored⟩

end Lockstep
