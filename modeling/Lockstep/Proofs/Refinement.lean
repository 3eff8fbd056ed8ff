import Lockstep.Proofs.Buffers
import Lockstep.Proofs.Leading
import Lockstep.Proofs.Outcome

/-!
# A search comes to its outcome

A search keeps run lists with marks, hands buffers around, stops when nothing is left to be done,
and may pass over a part of the text. All the same it comes to the outcome of its task.

- `Search.Stands`, `Search.Shows`: at an offset, the run list shows what the entries lead to.
- `Search.sweep_of_stands`: from there, one sweep shows what the next offset starts with.
- `Program.Skips`: what it may pass over, the outcome does not see.
- `Search.run_eq_outcome`: the whole search.
- `Machine.tryMatch_eq_outcome`: the answer of a machine.
-/

namespace Lockstep

namespace Search

variable {P : Program} {q : Query} {s : Search P.size} {i : Nat} {es : List (Fin P.size × Slots)}

/-- The search stands at the offset `i`, and its threads are those that the entries `es` lead
to. -/
structure Stands (q : Query) (s : Search P.size) (i : Nat) (es : List (Fin P.size × Slots)) :
    Prop where
  pos : s.pos = i
  view : s.space.current.view = P.stops ((P.passingAt q.task.text i).arrivals ∅ es)
  next : s.space.next = RunList.empty P.size
  uniform : s.space.Uniform q.width

/-- And the addresses that the entries lead to are marked. -/
structure Shows (q : Query) (s : Search P.size) (i : Nat) (es : List (Fin P.size × Slots)) :
    Prop extends Stands q s i es where
  seen : s.space.current.seen = Graph.nodes ((P.passingAt q.task.text i).arrivals ∅ es)

/-! ## Starting a thread -/

/-- A new thread comes behind those that are there, if the marks hold it back no more than the
entries would. -/
theorem Stands.seed (h : Stands q s i es)
    (hmarks : ∀ slots, P.stops ((P.passingAt q.task.text i).arrivals s.space.current.seen
        [(P.start, slots)]) =
      P.stops ((P.passingAt q.task.text i).arrivals
        (Graph.nodes ((P.passingAt q.task.text i).arrivals ∅ es)) [(P.start, slots)])) :
    Stands q (s.seed q) i (es ++ q.task.seeds P i s.space.verdict) ∧
      (s.seed q).space.verdict = s.space.verdict := by
  have huniform : (s.seed q).space.Uniform q.width := uniform_seed h.uniform
  have hstart : q.mayStart s.pos = q.task.mayStart i := by
    rw [h.pos]
    rfl
  by_cases hseed : s.space.verdict.found = false ∧ q.mayStart s.pos = true
  · have hseeds : q.task.seeds P i s.space.verdict = [(P.start, Slots.startAt q.width i)] := by
      rw [Task.seeds, if_pos ⟨hseed.1, by rw [← hstart]; exact hseed.2⟩]
      rfl
    -- the new thread takes a buffer of the width that is wanted, whatever was in it
    have hbuffer : (s.space.pool.take.1.startAt s.pos).slots = Slots.startAt q.width i := by
      have hsize : s.space.pool.take.1.slots.size = q.width := h.uniform.pool.take.1
      rw [h.pos, Slots.startAt, ← hsize]
      rfl
    have hspace : (s.seed q).space.current = (Front.explore
        ⟨s.space.current, s.space.pool.take.2, s.space.work⟩ s.pos
        (q.input.text.context s.pos) P.start (s.space.pool.take.1.startAt s.pos)).list := by
      rw [Search.seed, if_pos hseed]
    have hnext : (s.seed q).space.next = s.space.next := by
      rw [Search.seed, if_pos hseed]
    have hpos : (s.seed q).pos = s.pos := by
      rw [Search.seed, if_pos hseed]
    refine ⟨⟨hpos.trans h.pos, ?_, hnext.trans h.next, huniform⟩, ?_⟩
    -- marks of the old threads count as the nodes behind their entries do
    · rw [hspace, Front.view_explore, hbuffer, hseeds, h.view, h.pos, Graph.arrivals_append,
        Program.stops_append, Finset.empty_union, ← hmarks]
      rfl
    · rw [Search.seed, if_pos hseed]
  · have hseeds : q.task.seeds P i s.space.verdict = [] := by
      rw [Task.seeds, if_neg (by rw [← hstart]; exact hseed)]
    rw [seed_of_not_may hseed, hseeds, List.append_nil]
    exact ⟨h, rfl⟩

theorem Shows.seed (h : Shows q s i es) :
    Stands q (s.seed q) i (es ++ q.task.seeds P i s.space.verdict) ∧
      (s.seed q).space.verdict = s.space.verdict :=
  h.toStands.seed fun slots => by rw [h.seen]

/-! ## Sweeping the threads -/

/-- **One sweep** settles the threads, and leaves a run list that shows what comes to the next
offset. -/
theorem sweep_of_stands (h : Stands q s i es) :
    let settled := (q.task.moment i).settle P ((P.passingAt q.task.text i).arrivals ∅ es)
      s.space.verdict
    let after := (P.passingAt q.task.text (q.task.moment i).nextPos).arrivals ∅ settled.1
    ∃ space, s.sweep q = .ok space ∧ space.verdict = settled.2 ∧
      space.current = RunList.empty P.size ∧ space.Uniform q.width ∧
      space.next.view = P.stops after ∧ space.next.seen = Graph.nodes after := by
  intro settled after
  have hmoment : s.moment q = q.task.moment i := by
    unfold Search.moment Task.moment
    rw [h.pos]
    rfl
  -- a sweep takes up waiting threads only, and nothing else is in the run list
  have hstop : ∀ t ∈ s.space.current.threads.toList, (P.instr t.pc).isStop = true := by
    intro t ht
    have hmem : (t.pc, t.buffer.slots) ∈ s.space.current.view := List.mem_map.mpr ⟨t, ht, rfl⟩
    rw [h.view] at hmem
    exact (List.mem_filter.mp hmem).2
  obtain ⟨swept, hrun, hcomes⟩ := Sweep.run_eq (q.task.moment i) s.space.current.threads.toList
    ⟨s.space.next, s.space.pool, s.space.work⟩ s.space.verdict hstop
  have hviewed : Sweep.viewed s.space.current.threads.toList =
      P.stops ((P.passingAt q.task.text i).arrivals ∅ es) := h.view
  rw [hviewed, Moment.settle_stops] at hcomes
  have hsweep : s.sweep q = .ok
      { current := s.space.current.clear
        next := swept.front.list
        pool := swept.front.pool
        work := swept.front.work
        verdict := swept.verdict } := sweep_of_run (by rw [hmoment]; exact hrun)
  -- the other list was empty, so that it shows what the sweep has handed over
  have hview := hcomes.view
  have hseen := hcomes.seen
  simp only [h.next, RunList.view_empty, RunList.seen_empty, List.nil_append,
    Finset.empty_union] at hview hseen
  exact ⟨_, hsweep, hcomes.verdict, rfl, uniform_sweep h.uniform hsweep, hview, hseen⟩

end Search

/-! ## Where a search goes on -/

/-- What a search may pass over when no thread is left, the outcome does not see. -/
def Program.Skips (P : Program) (task : Task) (searchable : Bool) : Prop :=
  ∀ (i : task.text.Offset) (v : Verdict), v.found = false → P.literal.chars ≠ [] →
    searchable = true → task.text.symbolAt i ≠ P.literal.chars.head?.map Char.val →
    match Input.distance? ⟨task.text, searchable⟩ P.literal.chars i with
    | none => P.outcome task i [] v = v
    | some distance => ∃ k : task.text.Offset, (k : Nat) = i + distance ∧ i ≤ k ∧
        P.outcome task i [] v = P.outcome task k [] v

/-- What a query takes from a program, and that there is no limit on its time. -/
structure Query.Suits (q : Query) (P : Program) : Prop where
  limit : q.limit = none
  entry : P.entry? = some q.entry
  lead : q.lead = P.literal.chars
  skips : P.Skips q.task q.input.searchable

namespace Program

variable {P : Program} {task : Task} {i : task.text.Offset} {es : List (Fin P.size × Slots)}
  {v : Verdict}

/-- Where no thread waits, the entries do not matter. -/
theorem outcome_of_stops_nil
    (h : P.stops ((P.passingAt task.text i).arrivals ∅ es) = []) :
    P.outcome task i es v = P.outcome task i [] v := by
  have hstop : ∀ pc ∈ Graph.nodes ((P.passingAt task.text i).arrivals ∅ es),
      (P.instr pc).isStop = false := by
    intro pc hpc
    obtain ⟨slots, hmem⟩ := Graph.mem_nodes.mp hpc
    by_contra hne
    have hmem' : (pc, slots) ∈ P.stops ((P.passingAt task.text i).arrivals ∅ es) :=
      List.mem_filter.mpr ⟨hmem, by simpa using hne⟩
    rw [h] at hmem'
    exact absurd hmem' List.not_mem_nil
  -- the addresses behind the entries are doomed, at this offset
  have hD : P.Doomed task.text fun j =>
      if j = i then Graph.nodes ((P.passingAt task.text i).arrivals ∅ es) else ∅ := by
    refine ⟨?_, ?_, ?_⟩
    · intro j pc hpc pc' hnext
      by_cases hj : j = i
      · subst hj
        rw [if_pos rfl] at hpc ⊢
        exact Graph.closed_nodes_arrivals _ es pc hpc pc' hnext
      · rw [if_neg hj] at hpc
        exact absurd hpc (Finset.notMem_empty pc)
    · intro j pc hpc cls next hcls
      by_cases hj : j = i
      · rw [if_pos hj] at hpc
        have hno := hstop pc hpc
        rw [hcls] at hno
        cases hno
      · rw [if_neg hj] at hpc
        exact absurd hpc (Finset.notMem_empty pc)
    · intro j pc hpc hacc
      by_cases hj : j = i
      · rw [if_pos hj] at hpc
        have hno := hstop pc hpc
        rw [hacc] at hno
        cases hno
      · rw [if_neg hj] at hpc
        exact absurd hpc (Finset.notMem_empty pc)
  refine outcome_filter hD i v ?_
  rw [List.filter_nil, List.filter_eq_nil_iff]
  intro e he
  have hmem : e.1 ∈ Graph.nodes ((P.passingAt task.text i).arrivals ∅ es) :=
    Graph.mem_nodes_arrivals_iff.mpr ⟨e, he, .refl e.1⟩
  simpa using hmem

/-- Where no thread will be started any more, the verdict stands. -/
theorem outcome_of_no_seeds (h : v.found = true ∨ task.mayStart i = false) :
    P.outcome task i [] v = v := by
  have hD : P.Doomed task.text fun _ => ∅ :=
    ⟨fun _ _ h => absurd h (Finset.notMem_empty _), fun _ _ h => absurd h (Finset.notMem_empty _),
      fun _ _ h => absurd h (Finset.notMem_empty _)⟩
  refine outcome_of_doomed hD i (by simp) fun j hij e he => ?_
  have hnone : task.seeds P j v = [] := by
    rw [Task.seeds, if_neg]
    rintro ⟨hfound, hstart⟩
    rcases h with h | h
    · rw [h] at hfound
      cases hfound
    · rw [Task.mayStart_mono h hij] at hstart
      cases hstart
  rw [hnone] at he
  exact absurd he List.not_mem_nil

open Classical in
/-- Where no new thread would ever come to wait, the verdict stands. -/
theorem outcome_of_no_stops (h : ∀ j : task.text.Offset, i ≤ j → ∀ pc,
    (P.passingAt task.text j).Reaches P.start pc → (P.instr pc).isStop = false) :
    P.outcome task i [] v = v := by
  have hD : P.Doomed task.text fun j => Finset.univ.filter fun pc =>
      i ≤ j ∧ (P.passingAt task.text j).Reaches P.start pc := by
    refine ⟨?_, ?_, ?_⟩
    · intro j pc hpc pc' hnext
      rw [Finset.mem_filter] at hpc ⊢
      exact ⟨Finset.mem_univ pc', hpc.2.1, hpc.2.2.trans (.head hnext (.refl pc'))⟩
    · intro j pc hpc cls next hcls
      rw [Finset.mem_filter] at hpc
      have hno := h j hpc.2.1 pc hpc.2.2
      rw [hcls] at hno
      cases hno
    · intro j pc hpc hacc
      rw [Finset.mem_filter] at hpc
      have hno := h j hpc.2.1 pc hpc.2.2
      rw [hacc] at hno
      cases hno
  refine outcome_of_doomed hD i (by simp) fun j hij e he => ?_
  rw [Task.eq_start_of_mem_seeds he, Finset.mem_filter]
  exact ⟨Finset.mem_univ _, hij, .refl _⟩

/-- Where every match has to be at the start of the text, the verdict stands behind it. -/
theorem outcome_of_beginText {entry : Conditions} (hentry : P.entry? = some entry)
    (hbegin : Conditions.beginText ⊆ entry) (hi : (i : Nat) ≠ 0) :
    P.outcome task i [] v = v := by
  refine outcome_of_no_stops fun j hij pc hreach => ?_
  by_contra hne
  obtain ⟨entry', hentry', hsub⟩ := entry_subset hreach (by simpa using hne)
  rw [hentry] at hentry'
  cases hentry'
  have hle : (i : Nat) ≤ j := hij
  exact Text.not_beginText_subset_context (by omega) (by omega)
    (Conditions.subset_trans hbegin hsub)

/-- Where a program has no entry, it has no match. -/
theorem outcome_of_no_entry (hentry : P.entry? = none) : P.outcome task i [] v = v := by
  refine outcome_of_no_stops fun j hij pc hreach => ?_
  by_contra hne
  obtain ⟨entry, hsome, -⟩ := entry_subset hreach (by simpa using hne)
  rw [hentry] at hsome
  cases hsome

end Program

namespace Search

variable {P : Program} {q : Query} {s : Search P.size} {i : q.task.text.Offset}
  {es : List (Fin P.size × Slots)}

/-- Where the search ends for want of threads, the verdict is the outcome. -/
theorem outcome_of_aim_eq_none (hq : q.Suits P) (h : Shows q s i es) (haim : s.aim q = none) :
    P.outcome q.task i es s.space.verdict = s.space.verdict := by
  unfold aim at haim
  split at haim
  · cases haim
  · next hempty =>
    have hview : s.space.current.view = [] := RunList.view_eq_nil_iff.mpr (by simpa using hempty)
    rw [Program.outcome_of_stops_nil (by rw [← h.view, hview])]
    have hpos : s.pos = i := h.pos
    split at haim
    · next hover =>
      -- one of three reasons not to start another thread
      rcases hover with hfound | hstart | ⟨hbegin, hne⟩
      · exact Program.outcome_of_no_seeds (.inl hfound)
      · refine Program.outcome_of_no_seeds (.inr ?_)
        rw [← hpos]
        show q.mayStart s.pos = false
        simpa using hstart
      · rw [hpos] at hne
        exact Program.outcome_of_beginText hq.entry hbegin hne
    · next hover =>
      split at haim
      · next hskip =>
        rw [Option.map_eq_none_iff] at haim
        have hfound : s.space.verdict.found = false := by
          by_contra hne
          exact hover (.inl (by simpa using hne))
        have hskips := hq.skips i s.space.verdict hfound (by rw [← hq.lead]; simpa using hskip.1)
          hskip.2.1 (by rw [← hpos, ← hq.lead]; exact hskip.2.2)
        have hnone :
            Input.distance? ⟨q.task.text, q.input.searchable⟩ P.literal.chars i = none := by
          rw [← hq.lead, ← hpos]
          exact haim
        rw [hnone] at hskips
        exact hskips
      · cases haim

/-- Where no thread waits, old marks do not hold back a new thread that comes to a character at
once: all addresses on its way lead there, and no thread waits behind the marks. -/
theorem arrivals_of_stale_marks (hlead : P.literal.chars ≠ []) (h : Shows q s i es)
    (hview : s.space.current.view = []) (k : q.task.text.Offset) (slots : Slots) :
    (P.passingAt q.task.text k).arrivals s.space.current.seen [(P.start, slots)] =
      (P.passingAt q.task.text k).arrivals ∅ [(P.start, slots)] := by
  obtain ⟨c, cs, hchars⟩ := List.exists_cons_of_ne_nil hlead
  obtain ⟨next, hsettle⟩ := Program.exists_consume_of_lead hchars
  have hstop : (P.instr (P.settle P.size P.start)).isStop = true := by
    rw [hsettle]
    rfl
  -- a marked address on the way would have let the search come to the character before
  have hclosed := (P.passingAt q.task.text i).closed_nodes_arrivals es
  have hfresh : ∀ pc, (P.passingAt q.task.text k).Reaches P.start pc →
      pc ∉ s.space.current.seen := by
    intro pc hreach hmem
    rw [h.seen] at hmem
    have hon := Program.reaches_settle_of_reaches P.size hstop hreach i (q.task.text.context i)
    obtain ⟨slots', hmem'⟩ := Graph.mem_nodes.mp (hclosed.mem_of_reaches hon hmem)
    have hthread : (P.settle P.size P.start, slots') ∈ s.space.current.view := by
      rw [h.view]
      exact List.mem_filter.mpr ⟨hmem', hstop⟩
    rw [hview] at hthread
    exact absurd hthread List.not_mem_nil
  refine Graph.arrivals_congr (C := fun pc => (P.passingAt q.task.text k).Reaches P.start pc)
    (fun pc hpc pc' hnext => hpc.trans (.head hnext (.refl pc'))) (fun pc hpc => ?_) ?_
  · exact iff_of_false (hfresh pc hpc) (Finset.notMem_empty pc)
  · intro e he
    rw [List.mem_singleton.mp he]
    exact .refl P.start

/-- Where the search goes on, it may have passed over a part of the text; with a new thread it
stands as if it had come there from offset to offset. -/
theorem stands_of_aim (hq : q.Suits P) (h : Shows q s i es) {s' : Search P.size}
    (haim : s.aim q = some s') :
    ∃ (k : q.task.text.Offset) (es' : List (Fin P.size × Slots)), i ≤ k ∧
      P.outcome q.task i es s.space.verdict = P.outcome q.task k es' s.space.verdict ∧
      Stands q (s'.seed q) k (es' ++ q.task.seeds P k s.space.verdict) ∧
      (s'.seed q).space.verdict = s.space.verdict ∧ s'.pos = k := by
  have hstay : s' = s → ∃ (k : q.task.text.Offset) (es' : List (Fin P.size × Slots)), i ≤ k ∧
      P.outcome q.task i es s.space.verdict = P.outcome q.task k es' s.space.verdict ∧
      Stands q (s'.seed q) k (es' ++ q.task.seeds P k s.space.verdict) ∧
      (s'.seed q).space.verdict = s.space.verdict ∧ s'.pos = k := by
    rintro rfl
    exact ⟨i, es, le_refl i, rfl, h.seed.1, h.seed.2, h.pos⟩
  unfold aim at haim
  split at haim
  · cases haim
    exact hstay rfl
  · next hempty =>
    split at haim
    · cases haim
    · next hover =>
      split at haim
      · next hskip =>
        obtain ⟨distance, hdistance, rfl⟩ := Option.map_eq_some_iff.mp haim
        have hview : s.space.current.view = [] :=
          RunList.view_eq_nil_iff.mpr (by simpa using hempty)
        have hfound : s.space.verdict.found = false := by
          by_contra hne
          exact hover (.inl (by simpa using hne))
        have hpos : s.pos = i := h.pos
        have hlead : P.literal.chars ≠ [] := by
          rw [← hq.lead]
          simpa using hskip.1
        -- nothing that is passed over could have started a match
        have hskips := hq.skips i s.space.verdict hfound hlead hskip.2.1
          (by rw [← hpos, ← hq.lead]; exact hskip.2.2)
        have hsome : Input.distance? ⟨q.task.text, q.input.searchable⟩ P.literal.chars i =
            some distance := by
          rw [← hq.lead, ← hpos]
          exact hdistance
        rw [hsome] at hskips
        obtain ⟨k, hk, hik, houtcome⟩ := hskips
        have hstands : Stands q ({ s with pos := s.pos + distance } : Search P.size) k [] := by
          refine ⟨by rw [hk, ← hpos], ?_, h.next, h.uniform⟩
          rw [Graph.arrivals_nil, Program.stops_nil]
          exact hview
        -- the marks of the offset where the search stood are still there
        have hseed := hstands.seed fun slots => by
          rw [Graph.arrivals_nil, Graph.nodes_nil]
          exact congrArg P.stops (arrivals_of_stale_marks hlead h hview k slots)
        refine ⟨k, [], hik, ?_, hseed.1, hseed.2, by rw [hk, ← hpos]⟩
        rw [Program.outcome_of_stops_nil (by rw [← h.view, hview]), houtcome]
      · cases haim
        exact hstay rfl

/-- A search ends where it does not go on. -/
theorem run_of_aim_eq_none (haim : s.aim q = none) : s.run q = .settled s.space :=
  run_of_step_inr (step_of_aim_eq_none haim)

/-- A search ends behind a sweep at the end of the text, or if no more than a yes is wanted. -/
theorem run_of_sweep {s' : Search P.size} {space : Workspace P.size} (haim : s.aim q = some s')
    (hsweep : (s'.seed q).sweep q = .ok space)
    (hend : q.input.text.widthAt s'.pos = 0 ∨ (q.width = 0 ∧ space.verdict.found = true)) :
    s.run q = .settled space := by
  refine run_of_step_inr ?_
  rw [step_of_sweep haim hsweep, if_pos hend]

/-- **A search without a limit** on its time ends, and its verdict is the outcome. -/
theorem run_eq_outcome (hq : q.Suits P) (h : Shows q s i es) :
    ∃ space, s.run q = .settled space ∧
      space.verdict = P.outcome q.task i es s.space.verdict := by
  -- the search may skip, so the induction is on the offset and not on the steps
  induction i using Text.offset_induction generalizing s es with
  | step i ih =>
    cases haim : s.aim q with
    | none =>
      exact ⟨s.space, run_of_aim_eq_none haim, (outcome_of_aim_eq_none hq h haim).symm⟩
    | some s' =>
      obtain ⟨k, es', hik, houtcome, hstands, hverdict, hpos⟩ := stands_of_aim hq h haim
      obtain ⟨space, hsweep, hsettled, hcurrent, huniform, hview, hseen⟩ :=
        sweep_of_stands hstands
      rw [hverdict] at hsettled hview hseen
      have hsettled' : space.verdict = (P.settledAt q.task k es' s.space.verdict).2 := hsettled
      rw [houtcome]
      cases hread : q.task.text.read? k with
      | none =>
        have hwidth : q.input.text.widthAt s'.pos = 0 := by
          rw [hpos]
          exact Text.widthAt_of_read?_eq_none hread
        refine ⟨space, run_of_sweep haim hsweep (.inl hwidth), ?_⟩
        rw [Program.outcome_of_end hread, hsettled']
      | some found =>
        obtain ⟨r, j⟩ := found
        have hwidth : q.input.text.widthAt s'.pos ≠ 0 := by
          rw [hpos]
          exact Text.widthAt_ne_zero_of_read? hread
        rw [Program.outcome_of_read hread]
        by_cases hdone : q.width = 0 ∧ space.verdict.found = true
        · refine ⟨space, run_of_sweep haim hsweep (.inr hdone), ?_⟩
          rw [if_pos (by rw [← hsettled']; exact hdone), hsettled']
        · have hdue : q.isOverdue (s'.steps + 1) = false := by
            simp [Query.isOverdue, hq.limit]
          have hstep : s.step q = .inl
              { pos := s'.pos + q.input.text.widthAt s'.pos
                steps := s'.steps + 1
                space := { space with current := space.next, next := space.current } } := by
            rw [step_of_sweep haim hsweep, if_neg (not_or.mpr ⟨hwidth, hdone⟩),
              if_neg (by simp [hdue])]
          rw [run_of_step_inl hstep, if_neg (by rw [← hsettled']; exact hdone), ← hsettled']
          -- the two run lists have changed places
          have hnextPos : (q.task.moment k).nextPos = j := Text.add_widthAt_of_read? hread
          rw [hnextPos] at hview hseen
          refine ih j (lt_of_le_of_lt hik (Text.lt_of_read? hread))
            ⟨⟨?_, hview, hcurrent, ?_⟩, hseen⟩
          · show s'.pos + q.input.text.widthAt s'.pos = j
            rw [hpos]
            exact Text.add_widthAt_of_read? hread
          · exact ⟨huniform.pool, huniform.next, huniform.current⟩

end Search

/-! ## What a machine answers -/

namespace Machine

variable {P : Program}

/-- What a machine is asked. -/
def task (m : Machine P) (text : Text) (anchor : Anchor) : Task :=
  { text, anchor, kind := m.kind, width := m.width }

/-- What a run from the offset `i` is to come to. -/
def outcome (m : Machine P) (text : Text) (anchor : Anchor) (i : text.Offset) : Verdict :=
  P.outcome (m.task text anchor) i [] (Verdict.pending m.width)

/-- At the start of a run there is nothing to be seen yet. -/
theorem Idle.shows {m : Machine P} (h : m.Idle) {q : Query} (hwidth : q.width = m.width)
    (pos : Nat) :
    Search.Shows q { pos, steps := 0, space := m.space.reset m.width } pos
      ([] : List (Fin P.size × Slots)) := by
  refine ⟨⟨rfl, ?_, h.next, ?_⟩, ?_⟩
  · show m.space.current.view = _
    rw [h.current, Graph.arrivals_nil]
    rfl
  · rw [hwidth]
    exact h.uniform_reset
  · show m.space.current.seen = _
    rw [h.current, Graph.arrivals_nil]
    exact RunList.seen_empty

/-- **A run without a limit** on its time answers as the outcome says. -/
theorem tryMatch_eq_outcome {m : Machine P} (h : m.Reachable) {env : Environment}
    (hlimit : m.timeLimit env = none) (input : Input) (anchor : Anchor) (i : input.text.Offset)
    (hskips : P.Skips (m.task input.text anchor) input.searchable) :
    (m.tryMatch env input i anchor).1 = .ok (m.outcome input.text anchor i).found ∧
      (m.tryMatch env input i anchor).2.submatches =
        (m.outcome input.text anchor i).submatches m.width := by
  cases hentry : P.entry? with
  | none =>
    -- no conditions let a match begin
    have houtcome : m.outcome input.text anchor i = Verdict.pending m.width :=
      Program.outcome_of_no_entry hentry
    rw [tryMatch_of_no_entry hentry, houtcome]
    exact ⟨rfl, rfl⟩
  | some entry =>
    by_cases hanchor : anchor ≠ .unanchored ∧ (i : Nat) ≠ 0
    -- behind the start of the text nothing is tried
    · have hstart : (m.task input.text anchor).mayStart i = false :=
        Task.mayStart_eq_false hanchor.1 (Nat.pos_of_ne_zero hanchor.2)
      have houtcome : m.outcome input.text anchor i = Verdict.pending m.width :=
        Program.outcome_of_no_seeds (.inr hstart)
      rw [tryMatch_of_anchored hanchor, houtcome]
      exact ⟨rfl, rfl⟩
    · have hsuits : (m.query env input anchor entry).Suits P := ⟨hlimit, hentry, rfl, hskips⟩
      obtain ⟨space, hrun, hverdict⟩ := Search.run_eq_outcome hsuits (h.idle.shows rfl i)
      rw [tryMatch_of_entry hentry hanchor, hrun]
      constructor
      · show Except.ok space.verdict.found = _
        rw [hverdict]
        rfl
      · show space.verdict.submatches m.width = _
        rw [hverdict]
        rfl

end Machine

end Lockstep
