import Lockstep.Proofs.Buffers
import Lockstep.Proofs.Stages
import Lockstep.Proofs.Sweeping
import Mathlib.Algebra.Group.Nat.Even

/-!
# Nothing is touched that is not there

Whatever the program and whatever came before, threads wait at instructions that let them, and all
buffers have as many slots as the machine fills. So no stage of a search takes anything for granted
that fails.

- `Closure.Fits`, `Sweep.Fits`, `Workspace.Fits`: the invariant of each part, with what one step
  leaves of it.
- `Search.Passes.fits`: it holds at every stage.
- `Stage.Fits.inRange`: what a stage takes for granted follows from it.
- `Machine.tryMatch_inRange`: so no run of a machine touches anything that is not there.
-/

namespace Lockstep

variable {P : Program} {width : Nat}

/-! ## Closures -/

namespace Front

/-- All buffers have `width` slots, and all threads wait. -/
structure Fits (front : Front P.size) (width : Nat) : Prop extends front.Uniform width where
  waits : ∀ t ∈ front.list.threads, (P.instr t.pc).isStop = true

variable {front : Front P.size}

theorem Fits.release (h : front.Fits width) {b : Buffer} (hb : b.slots.size = width) :
    (front.release b).Fits width :=
  ⟨h.toUniform.release hb, h.waits⟩

theorem Fits.foldl_release (h : front.Fits width) {threads : List (Thread P.size)}
    (hthreads : ∀ t ∈ threads, t.buffer.slots.size = width) :
    (threads.foldl (fun front t => front.release t.buffer) front).Fits width := by
  refine ⟨h.toUniform.foldl_release hthreads, ?_⟩
  rw [Sweep.list_foldl_release]
  exact h.waits

/-- The threads that a closure adds wait. -/
theorem Fits.explore (h : front.Fits width) (pos : Nat) (cond : Conditions) (pc : Fin P.size)
    {b : Buffer} (hb : b.slots.size = width) : (front.explore pos cond pc b).Fits width := by
  refine ⟨h.toUniform.explore pos cond pc hb, fun t ht => ?_⟩
  have hview : (t.pc, t.buffer.slots) ∈ (front.explore pos cond pc b).list.view :=
    List.mem_map_of_mem (Array.mem_toList_iff.mpr ht)
  rw [view_explore] at hview
  rcases List.mem_append.mp hview with hold | hnew
  · obtain ⟨t', ht', heq⟩ := List.mem_map.mp hold
    have hpc : t'.pc = t.pc := congrArg Prod.fst heq
    rw [← hpc]
    exact h.waits t' (Array.mem_toList_iff.mp ht')
  · exact (List.mem_filter.mp hnew).2

end Front

namespace Closure

/-- All buffers have `width` slots, all threads wait, and the slots that are to be set back are
among those of the buffer. -/
structure Fits (c : Closure P.size) (width : Nat) : Prop extends c.Uniform width where
  waits : ∀ t ∈ c.front.list.threads, (P.instr t.pc).isStop = true
  restores : ∀ slot old, Frame.restore slot old ∈ c.todo → slot < width

/-- A closure of an address, with nothing to be set back yet. -/
theorem fits_explore {front : Front P.size} (h : front.Fits width) (pc : Fin P.size) {b : Buffer}
    (hb : b.slots.size = width) : Fits ⟨front, b, [.explore pc]⟩ width where
  front := h.toUniform
  snapshot := hb
  waits := h.waits
  restores slot old hmem := by simp at hmem

/-- One thing done: a thread that is added waits, and a slot that is written is one of the buffer,
so it can be set back. -/
theorem Fits.step {c c' : Closure P.size} {pos : Nat} {cond : Conditions} (h : c.Fits width)
    (hstep : c.step pos cond = .inl c') : c'.Fits width := by
  have hsteps : Steps pos cond c (.inl c') := hstep ▸ steps_step c
  suffices hboth : (∀ t ∈ c'.front.list.threads, (P.instr t.pc).isStop = true) ∧
      ∀ slot old, Frame.restore slot old ∈ c'.todo → slot < width from
    ⟨h.toUniform.step.1 c' hstep, hboth.1, hboth.2⟩
  have hsnapshot := h.snapshot
  have hwaits := h.waits
  have hrestores := h.restores
  cases hsteps with
  | restore | skip => exact ⟨hwaits, fun slot old hmem => hrestores slot old (.tail _ hmem)⟩
  | pass => exact ⟨hwaits, by simpa using hrestores⟩
  | @save front b pc next slot old todo _ _ hold =>
    have hslot : slot < width := hsnapshot ▸ (Array.getElem?_eq_some_iff.mp hold).1
    refine ⟨hwaits, fun slot' old' hmem => ?_⟩
    rcases List.mem_cons.mp hmem with hexplore | hmem
    · cases hexplore
    · rcases List.mem_cons.mp hmem with hrestore | hmem
      · cases hrestore
        exact hslot
      · exact hrestores slot' old' (.tail _ hmem)
  | wait _ hstop =>
    refine ⟨fun t ht => ?_, fun slot old hmem => hrestores slot old (.tail _ hmem)⟩
    rcases Array.mem_push.mp ht with ht | rfl
    · exact hwaits t ht
    · exact hstop

theorem Fits.inRange {c : Closure P.size} (h : c.Fits width) : c.InRange := by
  have hb := h.snapshot
  have hrestores := h.restores
  unfold InRange
  match htodo : c.todo with
  | [] => rw [hb, h.front.pool.width_eq]
  | .restore slot old :: todo =>
    simp only
    rw [hb]
    exact hrestores slot old (by rw [htodo]; exact List.mem_cons_self ..)
  | .explore pc :: todo => rw [hb, h.front.pool.take.1]

end Closure

/-! ## Sweeps -/

theorem Moment.size_judge {m : Moment} {v : Verdict} {slots : Slots} (hv : v.slots.size = width)
    (hslots : slots.size = width) : (m.judge v slots).slots.size = width := by
  unfold Moment.judge
  split
  · simpa using hslots
  · exact hv

namespace Sweep

/-- All buffers have `width` slots, and so has the verdict; all threads wait. -/
structure Fits (s : Sweep P.size) (width : Nat) : Prop where
  front : s.front.Fits width
  pending : ∀ t ∈ s.pending, (P.instr t.pc).isStop = true ∧ t.buffer.slots.size = width
  verdict : s.verdict.slots.size = width

variable {m : Moment}

/-- A thread that waits can be taken up. -/
theorem Fits.take {s : Sweep P.size} {t : Thread P.size} (h : s.Fits width)
    (hstop : (P.instr t.pc).isStop = true) (hsize : t.buffer.slots.size = width) :
    ∃ s', s.take m t = .ok s' ∧ s'.Fits width := by
  obtain ⟨pending, front, v⟩ := s
  have hfront : Front.Fits (P := P) { front with work := front.work + 1 } width :=
    ⟨⟨h.front.pool, h.front.threads⟩, h.front.waits⟩
  have hdrop : Fits (P := P) ⟨pending, Front.release { front with work := front.work + 1 } t.buffer,
      v⟩ width :=
    ⟨hfront.release hsize, h.pending, h.verdict⟩
  have hjudge : (m.judge v t.buffer.slots).slots.size = width := Moment.size_judge h.verdict hsize
  obtain ⟨s', htake, htakes⟩ := exists_takes (t := t) m ⟨pending, front, v⟩ hstop
  refine ⟨s', htake, ?_⟩
  cases htakes with
  | abandon | early | miss => exact hdrop
  | first =>
    refine ⟨?_, fun _ hmem => absurd hmem List.not_mem_nil, hjudge⟩
    exact hdrop.front.foldl_release fun t' ht' => (h.pending t' ht').2
  | longest => exact ⟨hdrop.front, h.pending, hjudge⟩
  | read => exact ⟨hfront.explore m.nextPos m.nextCond _ hsize, h.pending, h.verdict⟩

theorem Fits.step {s : Sweep P.size} (h : s.Fits width) :
    ∃ s', s.step m = .ok s' ∧ s'.Fits width := by
  obtain ⟨pending, front, v⟩ := s
  cases pending with
  | nil => exact ⟨_, rfl, h⟩
  | cons t rest =>
    obtain ⟨hstop, hsize⟩ := h.pending t (List.mem_cons_self ..)
    refine Fits.take (s := ⟨rest, front, v⟩) ⟨h.front, fun t' ht' => ?_, h.verdict⟩ hstop hsize
    exact h.pending t' (List.mem_cons_of_mem _ ht')

theorem Fits.run {s : Sweep P.size} (h : s.Fits width) :
    ∃ s', Sweep.run m s = .ok s' ∧ s'.Fits width := by
  induction s using Sweep.run.induct m with
  | case1 s hnil => exact ⟨s, run_of_pending_eq_nil hnil, h⟩
  | case2 s hne s₁ hstep ih =>
    obtain ⟨s₂, hstep₂, hfits⟩ := h.step (m := m)
    rw [hstep] at hstep₂
    cases hstep₂
    rw [run_of_step hne, hstep]
    exact ih hfits
  | case3 s hne flaw hstep =>
    obtain ⟨s₂, hstep₂, -⟩ := h.step (m := m)
    rw [hstep] at hstep₂
    cases hstep₂

theorem Fits.inRange {s : Sweep P.size} (h : s.Fits width) (hwidth : 0 < m.width → 1 < width) :
    s.InRange m where
  waits t ht := (h.pending t ht).1
  release t ht := by rw [(h.pending t ht).2, h.front.pool.width_eq]
  copy t ht := by rw [(h.pending t ht).2, h.verdict]
  ends hkept := h.verdict ▸ hwidth hkept

end Sweep

/-! ## Searches -/

namespace Workspace

/-- All buffers have `width` slots, and so has the verdict; all threads wait. -/
structure Fits (w : Workspace P.size) (width : Nat) : Prop where
  pool : w.pool.Uniform width
  current : ∀ t ∈ w.current.threads, (P.instr t.pc).isStop = true ∧ t.buffer.slots.size = width
  next : ∀ t ∈ w.next.threads, (P.instr t.pc).isStop = true ∧ t.buffer.slots.size = width
  verdict : w.verdict.slots.size = width

variable {w : Workspace P.size}

theorem Fits.mem (h : w.Fits width) {t : Thread P.size}
    (ht : t ∈ w.current.threads.toList ++ w.next.threads.toList) :
    (P.instr t.pc).isStop = true ∧ t.buffer.slots.size = width := by
  rcases List.mem_append.mp ht with ht | ht
  · exact h.current t (Array.mem_toList_iff.mp ht)
  · exact h.next t (Array.mem_toList_iff.mp ht)

end Workspace

/-- The invariant at the end of a search, which is not reached because of a thread that does not
wait. -/
def Ending.Fits (e : Ending P.size) (width : Nat) : Prop :=
  match e with
  | .settled w | .overrun w => w.Fits width
  | .flawed _ => False

namespace Search

variable {q : Query} {s : Search P.size}

theorem fits_front_seeding (h : s.space.Fits width) : s.seeding.front.Fits width :=
  ⟨⟨h.pool.take.2, fun t ht => (h.current t ht).2⟩, fun t ht => (h.current t ht).1⟩

theorem size_snapshot_seeding (h : s.space.Fits width) :
    s.seeding.snapshot.slots.size = width := by
  rw [seeding, Buffer.size_startAt]
  exact h.pool.take.1

theorem fits_aim (h : s.space.Fits width) {aimed : Search P.size} (haim : s.aim q = some aimed) :
    aimed.space.Fits width := by
  rw [space_of_aim haim]
  exact h

theorem fits_seed (h : s.space.Fits width) : (s.seed q).space.Fits width := by
  by_cases hmay : s.space.verdict.found = false ∧ q.mayStart s.pos = true
  · have hfront : (s.seeding.run s.pos (q.input.text.context s.pos)).Fits width :=
      (fits_front_seeding h).explore s.pos _ P.start (size_snapshot_seeding h)
    rw [seed_of_may hmay]
    exact ⟨hfront.pool, fun t ht => ⟨hfront.waits t ht, hfront.threads t ht⟩, h.next, h.verdict⟩
  · rw [seed_of_not_may hmay]
    exact h

theorem fits_sweeping (h : s.space.Fits width) : s.sweeping.Fits width where
  front := ⟨⟨h.pool, fun t ht => (h.next t ht).2⟩, fun t ht => (h.next t ht).1⟩
  pending t ht := h.current t (Array.mem_toList_iff.mp ht)
  verdict := h.verdict

theorem fits_sweep (h : s.space.Fits width) :
    ∃ space, s.sweep q = .ok space ∧ space.Fits width := by
  obtain ⟨swept, hrun, hswept⟩ := (fits_sweeping h).run (m := s.moment q)
  refine ⟨_, sweep_of_run hrun, hswept.front.pool, ?_, fun t ht => ?_, hswept.verdict⟩
  · simp [RunList.clear, RunList.empty]
  · exact ⟨hswept.front.waits t ht, hswept.front.threads t ht⟩

/-- Going through one offset: the search goes on as it was, or it ends, and not because of a thread
that does not wait. -/
theorem fits_step (h : s.space.Fits width) :
    (∀ s', s.step q = .inl s' → s'.space.Fits width) ∧
      ∀ e, s.step q = .inr e → e.Fits width := by
  have hswept : ∀ {aimed : Search P.size} {space : Workspace P.size}, s.aim q = some aimed →
      (aimed.seed q).sweep q = .ok space → space.Fits width := by
    intro aimed space haim hsweep
    obtain ⟨space', hsweep', hspace⟩ := fits_sweep (q := q) (fits_seed (q := q) (fits_aim h haim))
    rw [hsweep] at hsweep'
    cases hsweep'
    exact hspace
  have hsteps := steps_step q s
  constructor
  · intro s' hstep
    rw [hstep] at hsteps
    cases hsteps with
    | go haim hsweep =>
      have hspace := hswept haim hsweep
      exact ⟨hspace.pool, hspace.next, hspace.current, hspace.verdict⟩
  · intro e hstep
    rw [hstep] at hsteps
    cases hsteps with
    | rest => exact h
    | settle haim hsweep | overrun haim hsweep => exact hswept haim hsweep
    | flaw haim hsweep =>
      obtain ⟨space, hsweep', -⟩ := fits_sweep (q := q) (fits_seed (q := q) (fits_aim h haim))
      rw [hsweep] at hsweep'
      cases hsweep'

end Search

/-! ## All stages -/

namespace Stage

/-- The invariant of a search, wherever it is. -/
def Fits (width : Nat) : Stage P.size → Prop
  | searching s => s.space.Fits width
  | closing others _ _ c =>
    c.Fits width ∧ ∀ t ∈ others, (P.instr t.pc).isStop = true ∧ t.buffer.slots.size = width
  | sweeping m s => m.width = width ∧ s.Fits width
  | ended e => e.Fits width

end Stage

/-- **Every stage** that a search passes through keeps the invariant. -/
theorem Search.Passes.fits {q : Query} {s₀ : Search P.size} (h₀ : s₀.space.Fits q.width)
    {stage : Stage P.size} (h : Search.Passes q s₀ stage) : stage.Fits q.width := by
  induction h with
  | start => exact h₀
  | next _ hstep ih => exact (fits_step ih).1 _ hstep
  | ended _ hstep ih => exact (fits_step ih).2 _ hstep
  | @seed s aimed _ haim _ ih =>
    have haimed : aimed.space.Fits q.width := fits_aim ih haim
    refine ⟨Closure.fits_explore (fits_front_seeding haimed) P.start
      (size_snapshot_seeding haimed), ?_⟩
    exact fun t ht => haimed.next t (Array.mem_toList_iff.mp ht)
  | @sweep s aimed _ haim ih =>
    have haimed : aimed.space.Fits q.width := fits_aim ih haim
    exact ⟨rfl, fits_sweeping (fits_seed haimed)⟩
  | @take m s s' _ hstep ih =>
    obtain ⟨hwidth, hfits⟩ := ih
    obtain ⟨s'', hstep', hfits'⟩ := hfits.step (m := m)
    rw [hstep] at hstep'
    cases hstep'
    exact ⟨hwidth, hfits'⟩
  | @read m t rest front v cls pc _ _ _ _ ih =>
    obtain ⟨-, hfits⟩ := ih
    have hfront : Front.Fits (P := P) { front with work := front.work + 1 } q.width :=
      ⟨⟨hfits.front.pool, hfits.front.threads⟩, hfits.front.waits⟩
    refine ⟨Closure.fits_explore hfront pc (hfits.pending t (List.mem_cons_self ..)).2, ?_⟩
    exact fun t' ht' => hfits.pending t' (List.mem_cons_of_mem _ ht')
  | follow _ hstep ih => exact ⟨ih.1.step hstep, ih.2⟩

namespace Stage

variable {stage : Stage P.size}

theorem Fits.mem_threads (h : stage.Fits width) {t : Thread P.size} (ht : t ∈ stage.threads) :
    (P.instr t.pc).isStop = true ∧ t.buffer.slots.size = width := by
  match stage with
  | searching s => exact Workspace.Fits.mem h ht
  | closing others _ _ c =>
    rcases List.mem_append.mp ht with ht | ht
    · exact h.2 t ht
    · have hmem : t ∈ c.front.list.threads := Array.mem_toList_iff.mp ht
      exact ⟨h.1.waits t hmem, h.1.front.threads t hmem⟩
  | sweeping _ s =>
    rcases List.mem_append.mp ht with ht | ht
    · exact h.2.pending t ht
    · have hmem : t ∈ s.front.list.threads := Array.mem_toList_iff.mp ht
      exact ⟨h.2.front.waits t hmem, h.2.front.threads t hmem⟩
  | ended (.settled w) | ended (.overrun w) => exact Workspace.Fits.mem h ht
  | ended (.flawed _) => exact absurd ht List.not_mem_nil

/-- Nothing that the next step takes for granted fails. Slots come in pairs; so where there is one
for the start of a match, there is one for its end. -/
theorem Fits.inRange (h : stage.Fits width) (hwidth : 0 < width → 1 < width) :
    stage.InRange width := by
  match stage with
  | searching s =>
    intro hkept
    rw [h.pool.take.1]
    exact hkept
  | closing _ _ _ c => exact h.1.inRange
  | sweeping m s =>
    obtain ⟨hm, hfits⟩ := h
    exact hfits.inRange (hm ▸ hwidth)
  | ended (.settled w) | ended (.overrun w) =>
    intro t ht
    rw [(Workspace.Fits.mem h ht).2, h.pool.width_eq]
  | ended (.flawed _) => exact h

end Stage

/-! ## Machines -/

theorem Slots.even_paired (count : Nat) : Even (paired count) :=
  ⟨(count + 1) % UInt64.size / 2, Nat.two_mul _⟩

namespace Program

/-- The number of slots of a program is even. -/
theorem slotCount_even (P : Program) : Even P.slotCount := by
  rw [← P.paired_slotCount]
  exact Slots.even_paired P.slotCount

end Program

namespace Machine

/-- A run does not change how many slots are filled. -/
theorem width_tryMatch (m : Machine P) (env : Environment) (input : Input) (pos : Nat)
    (anchor : Anchor) : (m.tryMatch env input pos anchor).2.width = m.width := by
  rcases m.tryMatch_cases env input pos anchor with hno | ⟨entry, hrun⟩
  · rw [hno]
  · rw [hrun]
    unfold conclude
    split <;> rfl

theorem Reachable.even_width {m : Machine P} (h : m.Reachable) : Even m.width := by
  induction h with
  | new kind => exact P.slotCount_even
  | track _ count _ =>
    rw [width_track]
    exact Slots.even_paired count
  | setLimit _ limit ih => exact ih
  | tryMatch _ env input pos anchor ih =>
    rw [width_tryMatch]
    exact ih

/-- The workspace with which a run begins. -/
theorem Idle.fits_reset {m : Machine P} (h : m.Idle) : (m.space.reset m.width).Fits m.width where
  pool := h.pool
  current t ht := by
    have hmem : t ∈ m.space.current.threads := ht
    rw [h.current] at hmem
    simp [RunList.empty] at hmem
  next t ht := by
    have hmem : t ∈ m.space.next.threads := ht
    rw [h.next] at hmem
    simp [RunList.empty] at hmem
  verdict := Slots.size_unset _

/-- A run that fails has run out of time, and the verdict that it leaves has all slots. -/
theorem Idle.tryMatch_sound {m : Machine P} (h : m.Idle) (env : Environment) (input : Input)
    (pos : Nat) (anchor : Anchor) :
    (∀ e, (m.tryMatch env input pos anchor).1 = .error e → e = .timeLimitOver) ∧
      (m.tryMatch env input pos anchor).2.space.verdict.slots.size = m.width := by
  rcases m.tryMatch_cases env input pos anchor with hno | ⟨entry, hrun⟩
  · rw [hno]
    exact ⟨nofun, h.fits_reset.verdict⟩
  · rw [hrun]
    have hended : (Search.run (m.query env input anchor entry)
        ⟨pos, 0, m.space.reset m.width⟩).Fits m.width :=
      (Search.Passes.start.run).fits (q := m.query env input anchor entry) h.fits_reset
    unfold conclude
    split
    · next space hrun =>
      rw [hrun] at hended
      have hverdict : space.verdict.slots.size = m.width := Workspace.Fits.verdict hended
      exact ⟨nofun, hverdict⟩
    · next space hrun =>
      rw [hrun] at hended
      have hverdict : space.verdict.slots.size = m.width := Workspace.Fits.verdict hended
      refine ⟨?_, hverdict⟩
      rintro _ ⟨⟩
      rfl
    · next hrun =>
      rw [hrun] at hended
      exact hended.elim

/-- The verdict that is kept between two calls has as many slots as matches are to fill. -/
theorem Reachable.size_verdict {m : Machine P} (h : m.Reachable) :
    m.space.verdict.slots.size = m.width := by
  induction h with
  | new kind => exact Slots.size_unset _
  | track _ count ih =>
    unfold Machine.track
    simp only
    split
    · exact ih
    · exact Slots.size_resize _ _
  | setLimit _ limit ih => exact ih
  | tryMatch h env input pos anchor _ =>
    rw [width_tryMatch]
    exact (h.idle.tryMatch_sound env input pos anchor).2

/-- After any calls a machine reports as many slots as it was last told to fill. -/
theorem Reachable.size_submatches {m : Machine P} (h : m.Reachable) :
    m.submatches.size = m.width := by
  unfold submatches Verdict.submatches
  split
  · exact h.size_verdict
  · exact Slots.size_unset _

/-- **No run touches anything that is not there.** Whatever the program, and whatever calls came
before: at every stage of a run, the threads in the run lists wait at instructions that let them
and have as many slots as the machine fills, and nothing that the next step takes for granted
fails. So a run answers, unless its time is up, and the machine reports as many slots as it
fills. The addresses of a program are in range by their type. -/
theorem tryMatch_inRange {m : Machine P} (h : m.Reachable) (env : Environment) (input : Input)
    (pos : Nat) (anchor : Anchor) :
    (∀ stage, m.Passes env input pos anchor stage →
      (∀ t ∈ stage.threads, (P.instr t.pc).isStop = true ∧ t.buffer.slots.size = m.width) ∧
        stage.InRange m.width) ∧
      (∀ e, (m.tryMatch env input pos anchor).1 = .error e → e = .timeLimitOver) ∧
      (m.tryMatch env input pos anchor).2.submatches.size = m.width := by
  refine ⟨?_, (h.idle.tryMatch_sound env input pos anchor).1, ?_⟩
  · rintro stage ⟨entry, -, hpasses⟩
    have hfits : stage.Fits m.width :=
      hpasses.fits (q := m.query env input anchor entry) h.idle.fits_reset
    obtain ⟨pairs, hpairs⟩ := h.even_width
    exact ⟨fun t ht => hfits.mem_threads ht, hfits.inRange (by omega)⟩
  · have hafter := (h.tryMatch env input pos anchor).size_submatches
    rw [width_tryMatch] at hafter
    exact hafter

/-- A program that goes round without reading, writes a slot that is not kept, and has an
instruction to which nothing leads; run by a machine that kept no slots before. -/
theorem tryMatch_inRange_letter :
    let P : Program := ⟨6, #v[.fork [1, 2, 4], .save 41 0, .consume (.single 0x61) 3, .save 1 4,
      .accept, .jump 5], 0⟩
    let unused := (Machine.new P .leftmostLongest).track 0
    let input : Input := { text := .utf16 #[0xD800, 0x61, 0x61] }
    let m := (unused.tryMatch {} input 2 .both).2.track 5
    m.Reachable ∧
      (∀ stage, m.Passes {} input 1 .unanchored stage →
        (∀ t ∈ stage.threads, (P.instr t.pc).isStop = true ∧ t.buffer.slots.size = m.width) ∧
          stage.InRange m.width) ∧
      (∀ e, (m.tryMatch {} input 1 .unanchored).1 = .error e → e = .timeLimitOver) ∧
      (m.tryMatch {} input 1 .unanchored).2.submatches.size = m.width := by
  intro P unused input m
  have h : m.Reachable := .track (.tryMatch (.track (.new _) 0) {} input 2 .both) 5
  exact ⟨h, tryMatch_inRange h {} input 1 .unanchored⟩

end Machine

end Lockstep
