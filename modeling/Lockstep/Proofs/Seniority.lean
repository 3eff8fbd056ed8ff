import Lockstep.Proofs.Budget
import Lockstep.Proofs.Presence
import Lockstep.Proofs.Starts
import Mathlib

/-!
# Threads that start further left are taken up first

Threads are only ever added behind others: a closure behind those of the threads that were taken up
before, a new thread behind all that are there. So in both run lists, at every moment, the threads
stand in the order in which their matches start, although no search looks at that order. Both ways
to cut threads off rest on it: a match that is the first one leaves no thread that starts further
right, and a match that may still grow has such threads given up.

- `RunList.InOrder`: threads at different addresses that are marked, in the order of their starts.
- `Juncture`, `Juncture.Next`: where a search is between two threads, and where it goes from there.
- `Sweep.Expands`: the next thread is followed to the next offset.
- `Ranked`: slots in the order of their starts, beside the best match so far.
- `Sweep.Takes.ranked`: what taking up a thread leaves of that.
- `Juncture.Ranks`, `Juncture.Heeds`: the invariant of a juncture, and what a later one keeps of a
  match; `Juncture.Ranks.step`: the next juncture keeps both.
- `Machine.starts_inOrder`: the order of all threads of a run, and what a match cuts off.
-/

namespace Lockstep

/-- A match with these slots starts at `pos`, or further left. -/
def Slots.StartsBy (slots : Slots) (pos : Nat) : Prop :=
  ∃ start, slots.start? = some start ∧ start ≤ pos

/-- What has been found stays found, and nothing takes its place that starts further right. -/
def Verdict.Stays (v v' : Verdict) : Prop :=
  v.found = true → v'.found = true ∧
    ∀ best, v.slots.start? = some best → v'.slots.StartsBy best

namespace Verdict.Stays

variable {v v' v'' : Verdict}

theorem refl (v : Verdict) : v.Stays v :=
  fun hfound => ⟨hfound, fun best hbest => ⟨best, hbest, le_rfl⟩⟩

theorem trans (h : v.Stays v') (h' : v'.Stays v'') : v.Stays v'' := by
  intro hfound
  obtain ⟨hfound', hstart'⟩ := h hfound
  obtain ⟨hfound'', hstart''⟩ := h' hfound'
  refine ⟨hfound'', fun best hbest => ?_⟩
  obtain ⟨best', hbest', hle⟩ := hstart' best hbest
  obtain ⟨best'', hbest'', hle'⟩ := hstart'' best' hbest'
  exact ⟨best'', hbest'', hle'.trans hle⟩

end Verdict.Stays

/-! ## Run lists in order -/

/-- The slots of some threads. -/
def labels {n : Nat} (threads : List (Thread n)) : List Slots := threads.map fun t => t.buffer.slots

@[simp] theorem labels_nil {n : Nat} : labels ([] : List (Thread n)) = [] := rfl

/-- The threads of the offset `pos` wait at different addresses, all of them marked; those that
start further left come first, and none starts behind `pos`. -/
structure RunList.InOrder {n : Nat} (list : RunList n) (pos : Nat) : Prop where
  nodup : (list.threads.toList.map Thread.pc).Nodup
  marked : ∀ t ∈ list.threads, list.isMarked t.pc = true
  starts : ∃ starts : List Nat,
    list.threads.toList.map (fun t => t.buffer.slots.start?) = starts.map some ∧
      starts.Pairwise (· ≤ ·) ∧ ∀ start ∈ starts, start ≤ pos

variable {P : Program}

theorem RunList.Distinct.inOrder {list : RunList P.size} (h : list.Distinct) {width pos : Nat}
    (horder : Orderly width (pos + 1) (labels list.threads.toList)) : list.InOrder pos where
  nodup := by
    have hnodup := h.nodup
    rwa [view, List.map_map] at hnodup
  marked t ht :=
    mem_seen.mp (h.marked (t.pc, t.buffer.slots)
      (List.mem_map_of_mem (Array.mem_toList_iff.mpr ht)))
  starts := by
    obtain ⟨starts, hstarts, hsorted, hbound⟩ := horder.exists_starts
    rw [labels, List.map_map] at hstarts
    exact ⟨starts, hstarts, hsorted, fun start hmem => Nat.le_of_lt_succ (hbound start hmem)⟩

/-- Some of the threads wait at different addresses, too. -/
theorem RunList.Distinct.sublist {list : RunList P.size} (h : list.Distinct)
    {threads : List (Thread P.size)} (hsub : threads.Sublist list.threads.toList) :
    RunList.Distinct (P := P) { list with threads := threads.toArray } := by
  have hview : (RunList.view { list with threads := threads.toArray }).Sublist list.view := by
    rw [view, view]
    exact hsub.map _
  exact ⟨h.nodup.sublist (hview.map Prod.fst), fun e he => h.marked e (hview.subset he),
    fun e he => h.waits e (hview.subset he)⟩

/-! ## Junctures -/

/-- Where a search is between two threads: how it came to the offset, where it went on from there,
and how far the sweep of the threads has come. -/
structure Juncture (n : Nat) where
  /-- The search as it comes to the offset. -/
  arrived : Search n
  /-- The search where it goes on, before a new thread is started. -/
  aimed : Search n
  /-- The threads that have not been taken up, the run list of the next offset and the verdict. -/
  sweep : Sweep n

namespace Juncture

/-- The threads of the offset with a new one, none of which has been taken up. -/
def opening (q : Query) (s aimed : Search P.size) : Juncture P.size :=
  ⟨s, aimed, (aimed.seed q).sweeping⟩

/-- What is the same for all threads of the offset. -/
def moment (q : Query) (J : Juncture P.size) : Moment := (J.aimed.seed q).moment q

/-- The run list of the offset, with the threads that have not been taken up. -/
def current (q : Query) (J : Juncture P.size) : RunList P.size :=
  { (J.aimed.seed q).space.current with threads := J.sweep.pending.toArray }

/-- The run list of the next offset. -/
def next {n : Nat} (J : Juncture n) : RunList n := J.sweep.front.list

/-- Where a search goes from a juncture. -/
inductive Next (q : Query) : Juncture P.size → Juncture P.size → Prop where
  /-- The next thread is taken up. -/
  | take {J : Juncture P.size} {w : Sweep P.size} (hstep : J.sweep.step (J.moment q) = .ok w) :
    Next q J { J with sweep := w }
  /-- No thread is left, and the search goes on at another offset. -/
  | go {J : Juncture P.size} {s aimed : Search P.size} (hdone : J.sweep.pending = [])
      (hstep : J.arrived.step q = .inl s) (haim : s.aim q = some aimed) :
    Next q J (opening q s aimed)

end Juncture

/-- A search that begins as `s₀` comes to a juncture. -/
def Search.Meets (q : Query) (s₀ : Search P.size) (J : Juncture P.size) : Prop :=
  ∃ aimed, s₀.aim q = some aimed ∧
    Relation.ReflTransGen (Juncture.Next q) (Juncture.opening q s₀ aimed) J

/-- The next thread is `t`; it is not given up, and reads the symbol, so what lies behind it is
followed. -/
structure Sweep.Expands (m : Moment) (s : Sweep P.size) (t : Thread P.size) : Prop where
  next : s.pending.head? = some t
  kept : m.abandons s.verdict t.buffer.slots = false
  reads : ∃ cls pc, P.instr t.pc = .consume cls pc ∧ m.symbol.any cls.contains = true

/-! ## Slots beside a verdict -/

/-- Slots of a certain width that start before `bound`, those further left first, beside the best
match so far. If there is one it starts somewhere, and if it is to be the first one, no slots start
further right. -/
structure Ranked (kind : MatchKind) (width bound : Nat) (labels : List Slots) (v : Verdict) : Prop
    extends Orderly width bound labels where
  found : v.found = true → ∃ best, v.slots.start? = some best ∧
    (kind = .leftmostFirst → ∀ a ∈ labels, a.StartsBy best)

namespace Ranked

variable {kind : MatchKind} {width bound : Nat} {labels labels' as bs cs : List Slots}
  {slots : Slots} {v : Verdict}

theorem sublist (h : Ranked kind width bound labels v) (hsub : labels'.Sublist labels) :
    Ranked kind width bound labels' v := by
  refine ⟨h.toOrderly.sublist hsub, fun hfound => ?_⟩
  obtain ⟨best, hbest, hfirst⟩ := h.found hfound
  exact ⟨best, hbest, fun hkind a ha => hfirst hkind a (hsub.subset ha)⟩

theorem mono (h : Ranked kind width bound labels v) {bound' : Nat} (hle : bound ≤ bound') :
    Ranked kind width bound' labels v :=
  ⟨h.toOrderly.mono hle, h.found⟩

theorem replace (h : Ranked kind width bound (as ++ slots :: bs) v)
    (hcs : ∀ c ∈ cs, c.start? = slots.start? ∧ c.size = slots.size) :
    Ranked kind width bound (as ++ (cs ++ bs)) v := by
  refine ⟨h.toOrderly.replace hcs, fun hfound => ?_⟩
  obtain ⟨best, hbest, hfirst⟩ := h.found hfound
  refine ⟨best, hbest, fun hkind a ha => ?_⟩
  have hall := hfirst hkind
  rcases List.mem_append.mp ha with ha | ha
  · exact hall a (List.mem_append_left _ ha)
  · rcases List.mem_append.mp ha with ha | ha
    · obtain ⟨start, hstart, hle⟩ := hall slots (by simp)
      exact ⟨start, (hcs a ha).1.trans hstart, hle⟩
    · exact hall a (List.mem_append_right _ (List.mem_cons_of_mem _ ha))

/-- What stands in front of slots starts no further right. -/
theorem startsBy_of_before (h : Ranked kind width bound (as ++ slots :: bs) v) {start : Nat}
    (hstart : slots.start? = some start) : ∀ a ∈ as, a.StartsBy start := by
  intro a ha
  obtain ⟨start', hstart', -⟩ := h.exists_start (List.mem_append_left _ ha)
  have hsorted := (List.pairwise_append.mp h.sorted).2.2 a ha slots (List.mem_cons_self ..)
  rw [hstart, hstart'] at hsorted
  exact ⟨start', hstart', by simpa [Verdict.offsetLt] using hsorted⟩

variable {m : Moment}

/-- A thread that has come to the end of a match replaces no match that starts further left. -/
theorem stays_judge (h : Ranked m.kind width bound labels v) (hmem : slots ∈ labels) :
    v.Stays (m.judge v slots) := by
  intro hfound
  obtain ⟨best, hbest, hfirst⟩ := h.found hfound
  obtain ⟨start, hstart, -⟩ := h.exists_start hmem
  refine ⟨m.found_judge v slots, fun best' hbest' => ?_⟩
  obtain rfl : best = best' := Option.some.inj (hbest.symm.trans hbest')
  unfold Moment.judge
  split
  · next hnew =>
    have hle : start ≤ best := by
      rcases hnew.2 with hkind | hnone | hbeaten
      · obtain ⟨start', hstart', hle⟩ := hfirst hkind slots hmem
        rw [hstart] at hstart'
        exact Option.some.inj hstart' ▸ hle
      · rw [hfound] at hnone
        cases hnone
      · rw [Verdict.isBeatenBy_iff, hstart, hbest] at hbeaten
        rcases hbeaten with hlt | ⟨heq, -⟩
        · exact Nat.le_of_lt (by simpa [Verdict.offsetLt] using hlt)
        · exact (Option.some.inj heq).le
    exact ⟨start, (Slots.start?_setIfInBounds (by decide) _).trans hstart, hle⟩
  · exact ⟨best, hbest, le_rfl⟩

/-- The first match: the threads in front of it start no further right, and those behind it lose. -/
theorem judge_first (h : Ranked m.kind width bound (as ++ slots :: bs) v) (hwidth : 0 < m.width)
    (hkind : m.kind = .leftmostFirst) : Ranked m.kind width bound as (m.judge v slots) := by
  have hmem : slots ∈ as ++ slots :: bs := by simp
  refine ⟨h.toOrderly.sublist (List.sublist_append_left ..), fun _ => ?_⟩
  obtain ⟨start, hstart, -⟩ := h.exists_start hmem
  refine ⟨start, ?_, fun _ => h.startsBy_of_before hstart⟩
  rw [Moment.judge, if_pos ⟨hwidth, .inl hkind⟩, Slots.start?_setIfInBounds (by decide), hstart]

/-- A match that may still grow. -/
theorem judge_longest (h : Ranked m.kind width bound (as ++ slots :: bs) v) (hwidth : 0 < m.width)
    (hkind : m.kind = .leftmostLongest) :
    Ranked m.kind width bound (as ++ bs) (m.judge v slots) := by
  have hsub : (as ++ bs).Sublist (as ++ slots :: bs) :=
    (List.sublist_cons_self slots bs).append_left as
  have hmem : slots ∈ as ++ slots :: bs := by simp
  refine ⟨h.toOrderly.sublist hsub, fun _ => ?_⟩
  suffices hstart : ∃ best, (m.judge v slots).slots.start? = some best by
    obtain ⟨best, hbest⟩ := hstart
    refine ⟨best, hbest, fun hfirst => ?_⟩
    rw [hkind] at hfirst
    cases hfirst
  cases hfound : v.found with
  | true =>
    obtain ⟨best, hbest, -⟩ := h.found hfound
    obtain ⟨start, hstart, -⟩ := (h.stays_judge hmem hfound).2 best hbest
    exact ⟨start, hstart⟩
  | false =>
    obtain ⟨start, hstart, -⟩ := h.exists_start hmem
    refine ⟨start, ?_⟩
    rw [Moment.judge, if_pos ⟨hwidth, .inr (.inl hfound)⟩, Slots.start?_setIfInBounds (by decide),
      hstart]

end Ranked

/-! ## Closures and sweeps -/

/-- The threads that a closure adds start where the thread does that it comes from. -/
theorem Front.labels_explore (hspare : P.SparesMatch) (front : Front P.size) (pos : Nat)
    (cond : Conditions) (pc : Fin P.size) (b : Buffer) : ∃ added,
    labels (front.explore pos cond pc b).list.threads.toList =
        labels front.list.threads.toList ++ added ∧
      ∀ a ∈ added, a.start? = b.slots.start? ∧ a.size = b.slots.size := by
  have hlabels : ∀ list : RunList P.size, labels list.threads.toList = list.view.map Prod.snd := by
    intro list
    rw [RunList.view, List.map_map]
    rfl
  rw [hlabels, hlabels, view_explore, List.map_append]
  refine ⟨_, rfl, fun a ha => ?_⟩
  obtain ⟨e, he, rfl⟩ := List.mem_map.mp ha
  refine Program.forall_slots_arrivals hspare
    (p := fun start size => start = b.slots.start? ∧ size = b.slots.size) (fun e' he' => ?_) pos
    cond e (List.mem_filter.mp he).1
  rw [List.mem_singleton.mp he']
  exact ⟨rfl, rfl⟩

namespace Sweep

variable {m : Moment} {t : Thread P.size} {s s' : Sweep P.size} {bound : Nat}

/-- The threads of the next offset wait at different addresses, also after another one has been
taken up. -/
theorem Takes.distinct (htakes : Takes m t s s') (h : s.front.list.Distinct) :
    s'.front.list.Distinct := by
  cases htakes with
  | abandon | early | longest | miss => exact h
  | first =>
    dsimp only
    rw [list_foldl_release]
    exact h
  | read => exact (Front.gains_explore ..).distinct h

/-- **Taking up a thread** leaves the threads of both offsets in the order of their starts: what the
thread leads to comes behind the threads of the next offset, and in front of those that have not
been taken up. -/
theorem Takes.ranked (hspare : P.SparesMatch) (hwidth : 0 < m.width) (htakes : Takes m t s s')
    (h : Ranked m.kind m.width bound
      (labels s.front.list.threads.toList ++ t.buffer.slots :: labels s.pending) s.verdict) :
    Ranked m.kind m.width bound
        (labels s'.front.list.threads.toList ++ labels s'.pending) s'.verdict ∧
      s.verdict.Stays s'.verdict := by
  -- in most cases the thread is gone, and nothing comes in its place
  have hdrop := h.sublist ((List.sublist_cons_self t.buffer.slots (labels s.pending)).append_left _)
  cases htakes with
  | abandon | early | miss => exact ⟨hdrop, .refl _⟩
  | first _ _ _ hkind =>
    refine ⟨?_, h.stays_judge (by simp)⟩
    dsimp only
    rw [list_foldl_release, labels_nil, List.append_nil]
    exact h.judge_first hwidth hkind
  | longest _ _ _ hkind => exact ⟨h.judge_longest hwidth hkind, h.stays_judge (by simp)⟩
  | @read pending front v cls pc =>
    obtain ⟨added, hadded, hstart⟩ := Front.labels_explore hspare
      { front with work := front.work + 1 } m.nextPos m.nextCond pc t.buffer
    refine ⟨?_, .refl _⟩
    dsimp only at hadded ⊢
    rw [hadded, List.append_assoc]
    exact h.replace hstart

end Sweep

/-! ## Searches -/

namespace Search

variable {q : Query} {s aimed : Search P.size}

theorem pos_seed (q : Query) (s : Search P.size) : (s.seed q).pos = s.pos := by
  unfold seed
  split <;> rfl

theorem verdict_seed (q : Query) (s : Search P.size) :
    (s.seed q).space.verdict = s.space.verdict := by
  unfold seed
  split <;> rfl

/-- The threads of the offset stand in order, and none waits for the next one. -/
structure Ranks (q : Query) (bound : Nat) (s : Search P.size) : Prop where
  next : s.space.next = RunList.empty P.size
  current : s.space.current.Distinct
  ranked : Ranked q.kind q.width bound (labels s.space.current.threads.toList) s.space.verdict

theorem Ranks.aim (h : s.Ranks q s.pos) (haim : s.aim q = some aimed) :
    aimed.Ranks q aimed.pos := by
  have hspace := space_of_aim haim
  exact ⟨hspace ▸ h.next, hspace ▸ h.current, hspace ▸ h.ranked.mono (pos_le_of_aim haim)⟩

/-- **A new thread** comes behind the others, and starts further right than they do. -/
theorem Ranks.seed (h : s.Ranks q s.pos) (hspare : P.SparesMatch) (hwidth : 0 < q.width)
    (hfits : s.space.Fits q.width) : (s.seed q).Ranks q (s.pos + 1) := by
  by_cases hmay : s.space.verdict.found = false ∧ q.mayStart s.pos = true
  · have hsize : (s.space.pool.take.1.startAt s.pos).slots.size = q.width :=
      size_snapshot_seeding hfits
    have hstart : (s.space.pool.take.1.startAt s.pos).slots.start? = some s.pos := by
      rw [Buffer.size_startAt] at hsize
      exact Slots.start?_startAt (hsize ▸ hwidth) s.pos
    obtain ⟨added, hadded, hfrom⟩ := Front.labels_explore hspare s.seeding.front s.pos
      (q.input.text.context s.pos) P.start (s.space.pool.take.1.startAt s.pos)
    have horder : Orderly q.width (s.pos + 1)
        (labels s.seeding.front.list.threads.toList ++ (added ++ [])) :=
      (h.ranked.concat hstart hsize).replace hfrom
    rw [List.append_nil, ← hadded] at horder
    rw [seed_of_may hmay]
    refine ⟨h.next, (Front.gains_explore s.seeding.front ..).distinct h.current, horder,
      fun hfound => ?_⟩
    have hnone : s.space.verdict.found = true := hfound
    rw [hmay.1] at hnone
    cases hnone
  · rw [seed_of_not_may hmay]
    exact ⟨h.next, h.current, h.ranked.mono (Nat.le_succ _)⟩

end Search

/-! ## All junctures -/

namespace Juncture

variable {q : Query} {J J' : Juncture P.size}

/-- The invariant of a juncture: it lies on the way of its search, and the threads of the next
offset and then those that have not been taken up stand in the order of their starts. -/
structure Ranks (q : Query) (J : Juncture P.size) : Prop where
  aims : J.arrived.aim q = some J.aimed
  fits : J.arrived.space.Fits q.width
  sweeps : Sweep.run (J.moment q) (J.aimed.seed q).sweeping = Sweep.run (J.moment q) J.sweep
  pending : J.sweep.pending.Sublist (J.aimed.seed q).space.current.threads.toList
  current : (J.aimed.seed q).space.current.Distinct
  next : J.next.Distinct
  ranked : Ranked q.kind q.width (J.aimed.pos + 1)
    (labels J.next.threads.toList ++ labels J.sweep.pending) J.sweep.verdict

/-- At an offset, when no thread has been taken up. -/
theorem ranks_opening (hspare : P.SparesMatch) (hwidth : 0 < q.width) {s aimed : Search P.size}
    (hfits : s.space.Fits q.width) (h : s.Ranks q s.pos) (haim : s.aim q = some aimed) :
    (opening q s aimed).Ranks q := by
  have hseed : (aimed.seed q).Ranks q (aimed.pos + 1) :=
    (h.aim haim).seed hspare hwidth (Search.fits_aim hfits haim)
  have hnext : (opening q s aimed).next = RunList.empty P.size := hseed.next
  refine ⟨haim, hfits, rfl, List.Sublist.refl _, hseed.current, ?_, ?_⟩
  · rw [hnext]
    exact RunList.distinct_empty P
  · rw [hnext]
    exact hseed.ranked

/-- The threads of the next offset are left for it, once all others have been taken up. -/
theorem Ranks.arrive (h : J.Ranks q) (hdone : J.sweep.pending = []) {s : Search P.size}
    (hstep : J.arrived.step q = .inl s) :
    s.Ranks q s.pos ∧ s.space.Fits q.width ∧ s.space.verdict = J.sweep.verdict := by
  have hfits : s.space.Fits q.width := (Search.fits_step h.fits).1 s hstep
  have hsteps := Search.steps_step q J.arrived
  rw [hstep] at hsteps
  cases hsteps with
  | @go aimed space haim hsweep hgo =>
    obtain rfl : J.aimed = aimed := Option.some.inj (h.aims.symm.trans haim)
    obtain ⟨swept, hrun, rfl⟩ := Search.exists_run_of_sweep hsweep
    -- the sweep has come to its end
    obtain rfl : J.sweep = swept := by
      have hend := h.sweeps
      rw [Sweep.run_of_pending_eq_nil hdone] at hend
      exact Except.ok.inj (hend.symm.trans hrun)
    have hranked := h.ranked
    rw [hdone, labels_nil, List.append_nil] at hranked
    refine ⟨⟨rfl, h.next, hranked.mono ?_⟩, hfits, rfl⟩
    show J.aimed.pos + 1 ≤ J.aimed.pos + q.input.text.widthAt J.aimed.pos
    omega

/-- A match at the juncture `J` is still there at `J'`, where no thread has been started since. -/
structure Heeds (q : Query) (J J' : Juncture P.size) : Prop where
  stays : J.sweep.verdict.Stays J'.sweep.verdict
  unseeded : J.sweep.verdict.found = true → J'.aimed = J.aimed ∨ J'.aimed.seed q = J'.aimed

theorem Heeds.refl (J : Juncture P.size) : J.Heeds q J := ⟨.refl _, fun _ => .inl rfl⟩

theorem Heeds.trans {J'' : Juncture P.size} (h : J.Heeds q J') (h' : J'.Heeds q J'') :
    J.Heeds q J'' := by
  refine ⟨h.stays.trans h'.stays, fun hfound => ?_⟩
  rcases h'.unseeded (h.stays hfound).1 with hsame | hnone
  · rw [hsame]
    exact h.unseeded hfound
  · exact .inr hnone

/-- With the next thread taken up. -/
theorem Ranks.take (hspare : P.SparesMatch) (hwidth : 0 < q.width) (h : J.Ranks q)
    {w : Sweep P.size} (hstep : J.sweep.step (J.moment q) = .ok w) :
    Ranks q { J with sweep := w } ∧ J.Heeds q { J with sweep := w } := by
  obtain ⟨arrived, aimed, pending, front, v⟩ := J
  cases pending with
  | nil =>
    cases hstep
    exact ⟨h, .refl _⟩
  | cons t rest =>
    have htakes : Sweep.Takes (moment q ⟨arrived, aimed, ⟨t :: rest, front, v⟩⟩) t
        ⟨rest, front, v⟩ w := Sweep.takes_of_take hstep
    obtain ⟨hranked, hstays⟩ := htakes.ranked hspare hwidth h.ranked
    refine ⟨⟨h.aims, h.fits, ?_, ?_, h.current, htakes.distinct h.next, hranked⟩,
      hstays, fun _ => .inl rfl⟩
    · refine h.sweeps.trans ?_
      rw [Sweep.run_of_step (s := ⟨t :: rest, front, v⟩) (List.cons_ne_nil t rest), hstep]
      rfl
    · have hrest : rest.Sublist (aimed.seed q).space.current.threads.toList :=
        (List.sublist_cons_self t rest).trans h.pending
      cases htakes with
      | first => exact List.nil_sublist _
      | abandon | early | longest | read | miss => exact hrest

/-- **From one juncture to the next** the threads stay in order, what has been found stays, and no
thread is started at another offset once there is a match. -/
theorem Ranks.step (hspare : P.SparesMatch) (hwidth : 0 < q.width) (h : J.Ranks q)
    (hnext : Next q J J') : J'.Ranks q ∧ J.Heeds q J' := by
  cases hnext with
  | take hstep => exact h.take hspare hwidth hstep
  | @go s aimed hdone hstep haim =>
    obtain ⟨hranks, hfits, hverdict⟩ := h.arrive hdone hstep
    have hkept : aimed.space.verdict = J.sweep.verdict := by
      rw [Search.space_of_aim haim, hverdict]
    have hseeded : (opening q s aimed).sweep.verdict = J.sweep.verdict :=
      (Search.verdict_seed q aimed).trans hkept
    refine ⟨ranks_opening hspare hwidth hfits hranks haim, hseeded ▸ .refl _,
      fun hfound => .inr ?_⟩
    -- a new thread is started only if there is no match, and the match is still there
    refine Search.seed_of_not_may fun hmay => ?_
    have hnone : aimed.space.verdict.found = false := hmay.1
    rw [hkept, hfound] at hnone
    cases hnone

/-- Whatever follows a juncture keeps the invariant, and heeds a match that the juncture has. -/
theorem Ranks.steps (hspare : P.SparesMatch) (hwidth : 0 < q.width) (h : J.Ranks q)
    (hlater : Relation.ReflTransGen (Next q) J J') : J'.Ranks q ∧ J.Heeds q J' := by
  induction hlater with
  | refl => exact ⟨h, .refl J⟩
  | tail _ hnext ih =>
    obtain ⟨hranks, hheeds⟩ := ih
    obtain ⟨hranks', hheeds'⟩ := hranks.step hspare hwidth hnext
    exact ⟨hranks', hheeds.trans hheeds'⟩

theorem Ranks.inOrder (h : J.Ranks q) :
    (J.current q).InOrder J.aimed.pos ∧ J.next.InOrder (J.moment q).nextPos := by
  have hpos : J.aimed.pos ≤ (J.moment q).nextPos := by
    show J.aimed.pos ≤ (J.aimed.seed q).pos + _
    rw [Search.pos_seed]
    exact Nat.le_add_right _ _
  have hnext := (h.ranked.sublist (List.sublist_append_left ..)).mono (Nat.succ_le_succ hpos)
  have hcurrent := h.ranked.sublist (List.sublist_append_right ..)
  exact ⟨(h.current.sublist h.pending).inOrder hcurrent.toOrderly, h.next.inOrder hnext.toOrderly⟩

/-- Beside a match no thread is followed that starts further right. -/
theorem Ranks.startsBy_of_expands (h : J.Ranks q) (hwidth : 0 < q.width)
    (hfound : J.sweep.verdict.found = true) {best : Nat}
    (hbest : J.sweep.verdict.slots.start? = some best) {t : Thread P.size}
    (ht : J.sweep.Expands (J.moment q) t) : t.buffer.slots.StartsBy best := by
  have hmem : t.buffer.slots ∈ labels J.next.threads.toList ++ labels J.sweep.pending :=
    List.mem_append_right _ (List.mem_map_of_mem (List.mem_of_mem_head? ht.next))
  cases hkind : q.kind with
  | leftmostFirst =>
    obtain ⟨best', hbest', hfirst⟩ := h.ranked.found hfound
    obtain rfl : best = best' := Option.some.inj (hbest.symm.trans hbest')
    exact hfirst hkind _ hmem
  | leftmostLongest =>
    obtain ⟨start, hstart, -⟩ := h.ranked.exists_start hmem
    have hkept := ht.kept
    have hmoment : (J.moment q).kind = .leftmostLongest := hkind
    have hwide : 0 < (J.moment q).width := hwidth
    -- had it started further right, it would have been given up
    simp only [Moment.abandons, Verdict.startsBefore, hmoment, hfound, hwide, hbest, hstart,
      decide_true, Bool.true_and] at hkept
    exact ⟨start, hstart, by simpa [Verdict.offsetLt] using hkept⟩

end Juncture

/-! ## Runs of a machine -/

namespace Machine

/-- At the start of a run there is no thread and no match. -/
theorem Idle.ranks {m : Machine P} (h : m.Idle) {q : Query} (pos : Nat) :
    Search.Ranks q pos { pos, steps := 0, space := m.space.reset m.width } where
  next := h.next
  current := by
    show m.space.current.Distinct
    rw [h.current]
    exact RunList.distinct_empty P
  ranked := by
    show Ranked q.kind q.width pos (labels m.space.current.threads.toList) (.pending m.width)
    rw [h.current]
    exact ⟨Orderly.nil q.width pos, nofun⟩

/-- **Threads stand in the order of their starts.** Whatever calls came before, at every juncture of
a run that keeps slots for the whole match, which no instruction writes to: the threads of the
offset that have not been taken up, and those of the next offset, wait at different addresses, all
of them marked in their run list; they stand in the order of their starts, and none starts behind
its offset. Once there is a match, no new thread is started at any later juncture, and no thread is
followed that starts further right than the match does; another match may take its place, but only
one that starts no further right. -/
theorem starts_inOrder {m : Machine P} (h : m.Reachable) (hspare : P.SparesMatch)
    (hwidth : 2 ≤ m.width) (env : Environment) (input : Input) (pos : Nat) (anchor : Anchor) :
    ∀ entry ∈ P.entry?, let q := m.query env input anchor entry
      ∀ J, Search.Meets q { pos, steps := 0, space := m.space.reset m.width } J →
        (J.current q).InOrder J.aimed.pos ∧ J.next.InOrder (J.moment q).nextPos ∧
        (J.sweep.verdict.found = true →
          ∃ first, J.sweep.verdict.slots.start? = some first ∧
            ∀ J', Relation.ReflTransGen (Juncture.Next q) J J' →
              (J'.aimed = J.aimed ∨ J'.aimed.seed q = J'.aimed) ∧
              J'.sweep.verdict.found = true ∧
              ∃ best ≤ first, J'.sweep.verdict.slots.start? = some best ∧
                ∀ t, J'.sweep.Expands (J'.moment q) t → t.buffer.slots.StartsBy best) := by
  intro entry _ q J ⟨aimed, haim, hmeets⟩
  have hwide : 0 < q.width := Nat.lt_of_lt_of_le Nat.zero_lt_two hwidth
  have hopening : (Juncture.opening q _ aimed).Ranks q :=
    Juncture.ranks_opening hspare hwide h.idle.fits_reset (h.idle.ranks pos) haim
  obtain ⟨hJ, -⟩ := hopening.steps hspare hwide hmeets
  refine ⟨hJ.inOrder.1, hJ.inOrder.2, fun hfound => ?_⟩
  obtain ⟨first, hfirst, -⟩ := hJ.ranked.found hfound
  refine ⟨first, hfirst, fun J' hlater => ?_⟩
  obtain ⟨hJ', hheeds⟩ := hJ.steps hspare hwide hlater
  obtain ⟨hfound', hstart⟩ := hheeds.stays hfound
  obtain ⟨best, hbest, hle⟩ := hstart first hfirst
  exact ⟨hheeds.unseeded hfound, hfound', best, hle, hbest,
    fun t ht => hJ'.startsBy_of_expands hwide hfound' hbest ht⟩

/-- One letter, in a text that has it twice: a match has been found, and the thread that started
behind the first letter, and would read the second one, has not been taken up. -/
theorem starts_inOrder_letter :
    let P : Program := ⟨2, #v[.consume (.single 0x61) (1 : Fin 2), .accept], (0 : Fin 2)⟩
    let m := Machine.new P .leftmostLongest
    let q := m.query {} { text := .utf8 #[0x61, 0x61] } .unanchored ∅
    let s₀ : Search P.size := { pos := 0, steps := 0, space := m.space.reset m.width }
    let s : Search P.size := ⟨1, 1, ⟨⟨#v[false, true], #[⟨(1 : Fin 2), ⟨0, #[some 0, none]⟩⟩]⟩,
      RunList.empty 2, ⟨[], 2, 1⟩, 3, .pending 2⟩⟩
    let J : Juncture P.size := ⟨s, s, ⟨[⟨(0 : Fin 2), ⟨1, #[some 1, none]⟩⟩],
      ⟨RunList.empty 2, ⟨[⟨0, #[some 0, none]⟩], 2, 2⟩, 5⟩, ⟨true, #[some 0, some 1]⟩⟩⟩
    (m.Reachable ∧ P.SparesMatch ∧ 2 ≤ m.width) ∧ Search.Meets q s₀ J ∧
      (J.current q).InOrder 1 ∧ J.next.InOrder 2 ∧
      ∀ J', Relation.ReflTransGen (Juncture.Next q) J J' →
        (J'.aimed = J.aimed ∨ J'.aimed.seed q = J'.aimed) ∧
        J'.sweep.verdict.slots.start? = some 0 ∧
        ∀ t, J'.sweep.Expands (J'.moment q) t → t.buffer.slots.start? = some 0 := by
  intro P m q s₀ s J
  have hreach : m.Reachable := .new .leftmostLongest
  have hspare : P.SparesMatch := by decide
  have hwidth : 2 ≤ m.width := by decide
  have hentry : P.entry? = some ∅ := by cbv
  let w₀ : Sweep P.size := ⟨[], ⟨⟨#v[false, true], #[⟨(1 : Fin 2), ⟨0, #[some 0, none]⟩⟩]⟩,
    ⟨[], 2, 1⟩, 3⟩, .pending 2⟩
  have hmeets : Search.Meets q s₀ J := by
    have hread : (Juncture.opening q s₀ s₀).sweep.step ((Juncture.opening q s₀ s₀).moment q) =
        .ok w₀ := by cbv
    have hgo : s₀.step q = .inl s := by cbv
    have haccept : (Juncture.opening q s s).sweep.step ((Juncture.opening q s s).moment q) =
        .ok J.sweep := by cbv
    refine ⟨s₀, by cbv, ?_⟩
    exact ((Relation.ReflTransGen.single (.take hread)).tail (.go rfl hgo (by cbv))).tail
      (.take haccept)
  obtain ⟨hcurrent, hnext, hcuts⟩ :=
    starts_inOrder hreach hspare hwidth {} _ 0 .unanchored ∅ hentry J hmeets
  obtain ⟨first, hfirst, hlater⟩ := hcuts rfl
  obtain rfl : 0 = first := Option.some.inj hfirst
  refine ⟨⟨hreach, hspare, hwidth⟩, hmeets, hcurrent, hnext, fun J' hJ' => ?_⟩
  obtain ⟨hseed, -, best, hle, hbest, hexpands⟩ := hlater J' hJ'
  obtain rfl : best = 0 := Nat.le_zero.mp hle
  refine ⟨hseed, hbest, fun t ht => ?_⟩
  obtain ⟨start, hstart, hle⟩ := hexpands t ht
  rw [hstart, Nat.le_zero.mp hle]

end Machine

end Lockstep
