import Lockstep.Proofs.Stages
import Lockstep.Proofs.Sweeping

/-!
# All buffers have the same width

A machine fills a certain number of slots, and every buffer that it owns has just that many:
those in the pool, those of threads, and the one that a closure carries. Nothing that is done
between two calls changes that, and between two calls the run lists are empty. So what a buffer
was used for before can never be told from the outside.

- `Pool.Uniform`, `Front.Uniform`, `Closure.Uniform`, `Sweep.Uniform`, `Workspace.Uniform`: the
  invariant of each part.
- `Machine.Reachable`: the machines that calls lead to, starting from a new one.
- `Machine.Reachable.idle`: between two calls, lists are empty and buffers are uniform.
-/

namespace Lockstep

/-! ## Pools -/

namespace Pool

/-- The pool makes buffers with `width` slots, and has no others. -/
structure Uniform (pool : Pool) (width : Nat) : Prop where
  width_eq : pool.width = width
  size_eq : ∀ b ∈ pool.free, b.slots.size = width

variable {pool : Pool} {width : Nat}

theorem uniform_empty (width : Nat) : (empty width).Uniform width :=
  ⟨rfl, fun _ hb => absurd hb List.not_mem_nil⟩

theorem Uniform.release (h : pool.Uniform width) {b : Buffer} (hb : b.slots.size = width) :
    (pool.release b).Uniform width := by
  refine ⟨h.width_eq, fun b' hb' => ?_⟩
  rcases List.mem_cons.mp hb' with rfl | hb'
  · exact hb
  · exact h.size_eq b' hb'

theorem Uniform.take (h : pool.Uniform width) :
    pool.take.1.slots.size = width ∧ pool.take.2.Uniform width := by
  cases hfree : pool.free with
  | nil =>
    simp only [Pool.take, hfree]
    exact ⟨by simp [h.width_eq], h.width_eq, by simp⟩
  | cons b free =>
    have hsize := h.size_eq
    rw [hfree] at hsize
    simp only [Pool.take, hfree]
    exact ⟨hsize b (List.mem_cons_self ..), h.width_eq,
      fun b' hb' => hsize b' (List.mem_cons_of_mem _ hb')⟩

theorem Uniform.resize (h : pool.Uniform width) (width' : Nat) :
    (pool.resize width').Uniform width' := by
  unfold Pool.resize
  split
  · next heq =>
    rw [heq, h.width_eq]
    exact h
  · refine ⟨rfl, fun b hb => ?_⟩
    obtain ⟨b', -, rfl⟩ := List.mem_map.mp hb
    simp

/-- Taking back the buffers of several threads. -/
theorem Uniform.foldl_release {n : Nat} (h : pool.Uniform width) {threads : List (Thread n)}
    (hthreads : ∀ t ∈ threads, t.buffer.slots.size = width) :
    (threads.foldl (fun pool t => pool.release t.buffer) pool).Uniform width := by
  induction threads generalizing pool with
  | nil => exact h
  | cons t threads ih =>
    rw [List.foldl_cons]
    exact ih (h.release (hthreads t (List.mem_cons_self ..)))
      fun t' ht' => hthreads t' (List.mem_cons_of_mem _ ht')

end Pool

/-! ## Run lists that grow -/

namespace Front

variable {n : Nat} {front : Front n} {width : Nat}

/-- All buffers of the threads and of the pool have `width` slots. -/
structure Uniform (front : Front n) (width : Nat) : Prop where
  pool : front.pool.Uniform width
  threads : ∀ t ∈ front.list.threads, t.buffer.slots.size = width

theorem Uniform.visit (h : front.Uniform width) (pc : Fin n) : (front.visit pc).Uniform width :=
  ⟨h.pool, h.threads⟩

theorem Uniform.release (h : front.Uniform width) {b : Buffer} (hb : b.slots.size = width) :
    (front.release b).Uniform width :=
  ⟨h.pool.release hb, h.threads⟩

theorem Uniform.push (h : front.Uniform width) (pc : Fin n) {b : Buffer}
    (hb : b.slots.size = width) : (front.push pc b).Uniform width := by
  refine ⟨h.pool, fun t ht => ?_⟩
  rcases Array.mem_push.mp ht with ht | rfl
  · exact h.threads t ht
  · exact hb

theorem Uniform.pushCopy (h : front.Uniform width) (pc : Fin n) {slots : Slots}
    (hslots : slots.size = width) : (front.pushCopy pc slots).Uniform width := by
  refine ⟨h.pool.take.2, fun t ht => ?_⟩
  rcases Array.mem_push.mp ht with ht | rfl
  · exact h.threads t ht
  · exact hslots

theorem Uniform.foldl_release (h : front.Uniform width) {threads : List (Thread n)}
    (hthreads : ∀ t ∈ threads, t.buffer.slots.size = width) :
    (threads.foldl (fun front t => front.release t.buffer) front).Uniform width := by
  induction threads generalizing front with
  | nil => exact h
  | cons t threads ih =>
    rw [List.foldl_cons]
    exact ih (h.release (hthreads t (List.mem_cons_self ..)))
      fun t' ht' => hthreads t' (List.mem_cons_of_mem _ ht')

end Front

/-! ## Closures -/

namespace Closure

variable {P : Program} {pos : Nat} {cond : Conditions} {width : Nat}

/-- All buffers have `width` slots, the one that is carried included. -/
structure Uniform {n : Nat} (c : Closure n) (width : Nat) : Prop where
  front : c.front.Uniform width
  snapshot : c.snapshot.slots.size = width

/-- One thing done leaves all buffers as wide as they were, whether it is the last one or not. -/
theorem Uniform.step {c : Closure P.size} (h : c.Uniform width) :
    (∀ c', c.step pos cond = .inl c' → c'.Uniform width) ∧
      ∀ front, c.step pos cond = .inr front → front.Uniform width := by
  obtain ⟨hfront, hb⟩ := h
  constructor
  · intro c' hstep
    have hsteps : Steps pos cond c (.inl c') := hstep ▸ steps_step c
    cases hsteps with
    | restore => exact ⟨hfront, by simpa using hb⟩
    | skip => exact ⟨hfront, hb⟩
    | pass => exact ⟨hfront.visit _, hb⟩
    | save => exact ⟨hfront.visit _, by simpa using hb⟩
    | wait => exact ⟨(hfront.visit _).pushCopy _ hb, hb⟩
  · intro front hstep
    have hsteps : Steps pos cond c (.inr front) := hstep ▸ steps_step c
    cases hsteps with
    | done => exact hfront.release hb
    | last => exact (hfront.visit _).push _ hb

theorem Uniform.run {c : Closure P.size} (h : c.Uniform width) :
    (c.run pos cond).Uniform width := by
  induction c using Closure.run.induct pos cond with
  | case1 c c' hstep ih =>
    rw [run_of_step_inl hstep]
    exact ih (h.step.1 c' hstep)
  | case2 c front hstep =>
    rw [run_of_step_inr hstep]
    exact h.step.2 front hstep

end Closure

theorem Front.Uniform.explore {P : Program} {front : Front P.size} {width : Nat}
    (h : front.Uniform width) (pos : Nat) (cond : Conditions) (pc : Fin P.size) {b : Buffer}
    (hb : b.slots.size = width) : (front.explore pos cond pc b).Uniform width :=
  Closure.Uniform.run (c := ⟨front, b, [.explore pc]⟩) ⟨h, hb⟩

/-! ## Sweeps -/

namespace Sweep

variable {P : Program} {m : Moment} {width : Nat}

/-- All buffers have `width` slots, those of the threads to be taken up included. -/
structure Uniform {n : Nat} (s : Sweep n) (width : Nat) : Prop where
  front : s.front.Uniform width
  pending : ∀ t ∈ s.pending, t.buffer.slots.size = width

theorem Uniform.take {s s' : Sweep P.size} {t : Thread P.size} (h : s.Uniform width)
    (ht : t.buffer.slots.size = width) (htake : s.take m t = .ok s') : s'.Uniform width := by
  obtain ⟨pending, front, verdict⟩ := s
  -- counting the thread changes no buffer
  have hfront : ({ front with work := front.work + 1 } : Front P.size).Uniform width :=
    ⟨h.front.pool, h.front.threads⟩
  have hdrop : ({ front with work := front.work + 1 } : Front P.size).release t.buffer
      |>.Uniform width := hfront.release ht
  cases takes_of_take htake with
  | abandon | early | miss | longest => exact ⟨hdrop, h.pending⟩
  | first => exact ⟨hdrop.foldl_release h.pending, fun _ hmem => absurd hmem List.not_mem_nil⟩
  | read => exact ⟨hfront.explore m.nextPos m.nextCond _ ht, h.pending⟩

theorem Uniform.step {s s' : Sweep P.size} (h : s.Uniform width) (hstep : s.step m = .ok s') :
    s'.Uniform width := by
  obtain ⟨pending, front, verdict⟩ := s
  cases pending with
  | nil =>
    cases hstep
    exact h
  | cons t rest =>
    refine Uniform.take (s := ⟨rest, front, verdict⟩) ⟨h.front, fun t' ht' => ?_⟩ ?_ hstep
    · exact h.pending t' (List.mem_cons_of_mem _ ht')
    · exact h.pending t (List.mem_cons_self ..)

theorem Uniform.run {s s' : Sweep P.size} (h : s.Uniform width) (hrun : Sweep.run m s = .ok s') :
    s'.Uniform width := by
  induction s using Sweep.run.induct m with
  | case1 s hnil =>
    rw [run_of_pending_eq_nil hnil] at hrun
    cases hrun
    exact h
  | case2 s hne s₁ hstep ih =>
    rw [run_of_step hne, hstep] at hrun
    exact ih (h.step hstep) hrun
  | case3 s hne flaw hstep =>
    rw [run_of_step hne, hstep] at hrun
    cases hrun

end Sweep

/-! ## Searches -/

namespace Workspace

variable {n : Nat} {w : Workspace n} {width : Nat}

/-- All buffers have `width` slots. -/
structure Uniform (w : Workspace n) (width : Nat) : Prop where
  pool : w.pool.Uniform width
  current : ∀ t ∈ w.current.threads, t.buffer.slots.size = width
  next : ∀ t ∈ w.next.threads, t.buffer.slots.size = width

theorem Uniform.drain (h : w.Uniform width) : w.drain.Uniform width := by
  refine ⟨h.pool.foldl_release fun t ht => ?_, ?_, ?_⟩
  · rcases List.mem_append.mp ht with ht | ht
    · exact h.current t (Array.mem_toList_iff.mp ht)
    · exact h.next t (Array.mem_toList_iff.mp ht)
  · simp [Workspace.drain, RunList.clear, RunList.empty]
  · simp [Workspace.drain, RunList.clear, RunList.empty]

end Workspace

namespace Search

variable {P : Program} {q : Query} {s : Search P.size} {width : Nat}

theorem space_of_aim {s' : Search P.size} (h : s.aim q = some s') : s'.space = s.space := by
  unfold aim at h
  split at h
  · cases h
    rfl
  · split at h
    · cases h
    · split at h
      · obtain ⟨distance, -, rfl⟩ := Option.map_eq_some_iff.mp h
        rfl
      · cases h
        rfl

theorem uniform_seed (h : s.space.Uniform width) : (s.seed q).space.Uniform width := by
  by_cases hmay : s.space.verdict.found = false ∧ q.mayStart s.pos = true
  · have hseeding : s.seeding.Uniform width :=
      ⟨⟨h.pool.take.2, h.current⟩, by simpa [seeding] using h.pool.take.1⟩
    have hfront : (s.seeding.run s.pos (q.input.text.context s.pos)).Uniform width := hseeding.run
    rw [seed_of_may hmay]
    exact ⟨hfront.pool, hfront.threads, h.next⟩
  · rw [seed_of_not_may hmay]
    exact h

theorem uniform_sweep {space : Workspace P.size} (h : s.space.Uniform width)
    (hsweep : s.sweep q = .ok space) : space.Uniform width := by
  obtain ⟨swept, hrun, rfl⟩ := exists_run_of_sweep hsweep
  have hswept : swept.Uniform width := by
    refine Sweep.Uniform.run ⟨⟨h.pool, h.next⟩, fun t ht => ?_⟩ hrun
    exact h.current t (Array.mem_toList_iff.mp ht)
  exact ⟨hswept.front.pool, by simp [RunList.clear, RunList.empty], hswept.front.threads⟩

/-- Going through one offset leaves all buffers as wide as they were, however it ends. -/
theorem uniform_step (h : s.space.Uniform width) :
    (∀ s', s.step q = .inl s' → s'.space.Uniform width) ∧
      ∀ space, s.step q = .inr (.settled space) ∨ s.step q = .inr (.overrun space) →
        space.Uniform width := by
  have hswept : ∀ {aimed : Search P.size} {space : Workspace P.size}, s.aim q = some aimed →
      (aimed.seed q).sweep q = .ok space → space.Uniform width := by
    intro aimed space haim hsweep
    have haimed : aimed.space.Uniform width := by
      rw [space_of_aim haim]
      exact h
    exact uniform_sweep (uniform_seed haimed) hsweep
  have hsteps := steps_step q s
  constructor
  · intro s' hstep
    rw [hstep] at hsteps
    cases hsteps with
    | go haim hsweep =>
      have hspace := hswept haim hsweep
      exact ⟨hspace.pool, hspace.next, hspace.current⟩
  · rintro space (hstep | hstep) <;> rw [hstep] at hsteps
    · cases hsteps with
      | rest => exact h
      | settle haim hsweep => exact hswept haim hsweep
    · cases hsteps with
      | overrun haim hsweep => exact hswept haim hsweep

theorem uniform_run (h : s.space.Uniform width) {space : Workspace P.size}
    (hrun : s.run q = .settled space ∨ s.run q = .overrun space) : space.Uniform width := by
  induction s using Search.run.induct q with
  | case1 s s' hstep ih =>
    rw [run_of_step_inl hstep] at hrun
    exact ih ((uniform_step h).1 s' hstep) hrun
  | case2 s ending hstep =>
    rw [run_of_step_inr hstep] at hrun
    refine (uniform_step (q := q) h).2 space ?_
    rw [hstep]
    exact hrun.imp (congrArg Sum.inr) (congrArg Sum.inr)

end Search

/-! ## Machines -/

namespace Machine

variable {P : Program}

/-- What a machine looks like between two calls: the run lists are empty, and all buffers have as
many slots as matches are to fill. -/
structure Idle (m : Machine P) : Prop where
  current : m.space.current = RunList.empty P.size
  next : m.space.next = RunList.empty P.size
  pool : m.space.pool.Uniform m.width

theorem idle_new (P : Program) (kind : MatchKind) : (new P kind).Idle :=
  ⟨rfl, rfl, Pool.uniform_empty _⟩

theorem Idle.setLimit {m : Machine P} (h : m.Idle) (limit : Option Nat) : (m.setLimit limit).Idle :=
  ⟨h.current, h.next, h.pool⟩

theorem Idle.track {m : Machine P} (h : m.Idle) (count : Nat) : (m.track count).Idle := by
  unfold Machine.track
  simp only
  split
  · exact h
  · exact ⟨h.current, h.next, h.pool.resize _⟩

theorem Idle.uniform_reset {m : Machine P} (h : m.Idle) :
    (m.space.reset m.width).Uniform m.width := by
  refine ⟨h.pool, ?_, ?_⟩
  · show ∀ t ∈ m.space.current.threads, _
    rw [h.current]
    simp [RunList.empty]
  · show ∀ t ∈ m.space.next.threads, _
    rw [h.next]
    simp [RunList.empty]

theorem Idle.tryMatch {m : Machine P} (h : m.Idle) (env : Environment) (input : Input) (pos : Nat)
    (anchor : Anchor) : (m.tryMatch env input pos anchor).2.Idle := by
  have hreset : (m.space.reset m.width).Uniform m.width := h.uniform_reset
  rcases m.tryMatch_cases env input pos anchor with hno | ⟨entry, hanswer⟩
  · rw [hno]
    exact ⟨h.current, h.next, h.pool⟩
  · rw [hanswer]
    unfold conclude
    split
    · next hrun => exact ⟨rfl, rfl, (Search.uniform_run hreset (.inl hrun)).drain.pool⟩
    · next hrun => exact ⟨rfl, rfl, (Search.uniform_run hreset (.inr hrun)).drain.pool⟩
    · exact ⟨rfl, rfl, Pool.uniform_empty _⟩

/-- The machines that calls lead to, starting from a new one. -/
inductive Reachable : Machine P → Prop where
  | new (kind : MatchKind) : Reachable (new P kind)
  | track {m : Machine P} (h : Reachable m) (count : Nat) : Reachable (m.track count)
  | setLimit {m : Machine P} (h : Reachable m) (limit : Option Nat) : Reachable (m.setLimit limit)
  | tryMatch {m : Machine P} (h : Reachable m) (env : Environment) (input : Input) (pos : Nat)
      (anchor : Anchor) : Reachable (m.tryMatch env input pos anchor).2

/-- **Between two calls** the run lists are empty and all buffers are equally wide. -/
theorem Reachable.idle {m : Machine P} (h : m.Reachable) : m.Idle := by
  induction h with
  | new kind => exact idle_new P kind
  | track _ count ih => exact ih.track count
  | setLimit _ limit ih => exact ih.setLimit limit
  | tryMatch _ env input pos anchor ih => exact ih.tryMatch env input pos anchor

end Machine

end Lockstep
