import Lockstep.Proofs.Bounds
import Lockstep.Proofs.Counterparts
import Lockstep.Proofs.Presence
import Lockstep.Proofs.Skipping

/-!
# How many slots are kept decides no match

Two searches go through the same text and keep a different number of slots. As long as both keep
those of the whole match, they hold the same threads at every offset, and the slots that both keep
are the same; so they come to the same match. A search that keeps no slots may end earlier, and may
hold threads longer, but it finds a match whenever the others do.

- `Program.Aligned`: rows of entries at the same addresses, whose first slots are the same.
- `Verdict.Agrees`: verdicts with the same answer, whose first slots are the same.
- `Moment.settle_aligned`: what threads settle stays so.
- `Program.outcome_agrees`: and so does the outcome.
- `Machine.tryMatch_track`: a machine finds the same match, however many slots it keeps.
-/

namespace Lockstep

variable {P : Program} {count : Nat}

/-! ## Slots that are the same -/

namespace Slots.Correspond

variable {slots slots' : Slots}

theorem eq_join (h : Correspond count Eq slots slots') {slot : Nat} (hslot : slot < count) :
    slots[slot]?.join = slots'[slot]?.join := by
  have hrel := h.join hslot
  generalize slots[slot]?.join = value, slots'[slot]?.join = value' at hrel
  cases hrel with
  | none => rfl
  | some heq => rw [heq]

/-- If no more slots are there than those that are the same, they are the first of the others. -/
theorem eq_take (h : Correspond count Eq slots slots') (hsize : slots.size = count)
    (hsize' : count ≤ slots'.size) : slots = slots'.take count := by
  apply Array.ext
  · rw [Array.size_extract, hsize]
    omega
  · intro k hk hk'
    have hrel := h k (hsize ▸ hk)
    rw [Array.getElem?_eq_getElem hk, Array.getElem?_eq_getElem (by omega)] at hrel
    rw [Array.getElem_extract]
    simp only [Nat.zero_add]
    generalize slots[k] = value, slots'[k] = value' at hrel
    cases hrel with
    | some hvalue =>
      cases hvalue with
      | none => rfl
      | some heq => rw [heq]

end Slots.Correspond

/-! ## Threads and verdicts that are the same -/

/-- Entries at the same addresses, in the same order, whose first `count` slots are the same. -/
def Program.Aligned (P : Program) (count : Nat) (es es' : List (Fin P.size × Slots)) : Prop :=
  List.Forall₂ (fun e e' => e.1 = e'.1 ∧ Slots.Correspond count Eq e.2 e'.2) es es'

/-- Verdicts with the same answer, whose first `count` slots are the same. -/
structure Verdict.Agrees (count : Nat) (v v' : Verdict) : Prop where
  found : v.found = v'.found
  slots : Slots.Correspond count Eq v.slots v'.slots

namespace Verdict.Agrees

variable {v v' : Verdict} {width width' : Nat}

theorem pending (h : count ≤ width) (h' : count ≤ width') :
    Agrees count (Verdict.pending width) (Verdict.pending width') :=
  ⟨rfl, .unset h h'⟩

theorem start?_eq (h : Agrees count v v') (hcount : 2 ≤ count) :
    v.slots.start? = v'.slots.start? :=
  h.slots.eq_join (by omega)

theorem stop?_eq (h : Agrees count v v') (hcount : 2 ≤ count) : v.slots.stop? = v'.slots.stop? :=
  h.slots.eq_join (by omega)

theorem submatches (h : Agrees count v v') (hwidth : count ≤ width) (hwidth' : count ≤ width') :
    Slots.Correspond count Eq (v.submatches width) (v'.submatches width') := by
  unfold Verdict.submatches
  rw [← h.found]
  split
  · exact h.slots
  · exact .unset hwidth hwidth'

end Verdict.Agrees

/-! ## One offset -/

namespace Program

theorem aligned_seeds (task : Task) {width : Nat} (pos : Nat) {v v' : Verdict}
    (hfound : v.found = v'.found) (h : count ≤ task.width) (h' : count ≤ width) :
    P.Aligned count (task.seeds P pos v) (Task.seeds { task with width } P pos v') := by
  unfold Task.seeds
  rw [hfound]
  show P.Aligned count _ (if v'.found = false ∧ task.mayStart pos then _ else _)
  split
  · exact .cons ⟨rfl, .startAt h h' rfl⟩ .nil
  · exact .nil

/-- Entries that are aligned lead to arrivals that are. -/
theorem Aligned.arrivals {es es' : List (Fin P.size × Slots)} (h : P.Aligned count es es')
    (text : Text) (pos : Nat) :
    P.Aligned count ((P.passingAt text pos).arrivals ∅ es)
      ((P.passingAt text pos).arrivals ∅ es') := by
  refine Graph.forall₂_arrivals (R := Eq) ?_ ?_ ?_ (by simp) h
  · rintro pc _ pc' _ rfl rfl
    exact Iff.rfl
  · rintro pc _ rfl
    exact List.forall₂_refl _
  · rintro pc _ slots slots' rfl hslots
    cases hpc : P.instr pc with
    | save slot next =>
      simp only [passingAt, passing, hpc]
      exact hslots.set slot (.some rfl)
    | fork | assert | jump | fail | accept | consume =>
      simp only [passingAt, passing, hpc]
      exact hslots

end Program

namespace Moment

variable {m : Moment} {width : Nat} {v v' : Verdict} {slots slots' : Slots}
  {es es' : List (Fin P.size × Slots)}

/-- The same threads are given up. -/
theorem abandons_eq (hcount : 2 ≤ count) (hwidth : count ≤ m.width) (hwidth' : count ≤ width)
    (hv : v.Agrees count v') (hslots : Slots.Correspond count Eq slots slots') :
    m.abandons v slots = { m with width }.abandons v' slots' := by
  have hstart : slots.start? = slots'.start? := hslots.eq_join (by omega)
  have hkept : 0 < m.width := by omega
  have hkept' : 0 < width := by omega
  unfold abandons Verdict.startsBefore
  rw [hv.found, hv.start?_eq hcount, hstart, decide_eq_true hkept, decide_eq_true hkept']

/-- The same match is the better one. -/
theorem agrees_judge (hcount : 2 ≤ count) (hwidth : count ≤ m.width) (hwidth' : count ≤ width)
    (hv : v.Agrees count v') (hslots : Slots.Correspond count Eq slots slots') :
    (m.judge v slots).Agrees count ({ m with width }.judge v' slots') := by
  have hstart : slots.start? = slots'.start? := hslots.eq_join (by omega)
  have hbeaten : v.isBeatenBy slots m.pos = v'.isBeatenBy slots' m.pos := by
    unfold Verdict.isBeatenBy
    rw [hstart, hv.start?_eq hcount, hv.stop?_eq hcount]
  have hkept : 0 < m.width := by omega
  have hkept' : 0 < width := by omega
  unfold judge
  simp only [hkept, hkept', true_and, hv.found, hbeaten]
  split
  · exact ⟨rfl, hslots.set 1 (.some rfl)⟩
  · exact ⟨rfl, hv.slots⟩

/-- **What threads settle** is aligned if they are, as long as the slots of the whole match are
kept. -/
theorem settle_aligned (hcount : 2 ≤ count) (hwidth : count ≤ m.width) (hwidth' : count ≤ width)
    (hes : P.Aligned count es es') (hv : v.Agrees count v') :
    P.Aligned count (m.settle P es v).1 ({ m with width }.settle P es' v').1 ∧
      (m.settle P es v).2.Agrees count ({ m with width }.settle P es' v').2 := by
  induction hes generalizing v v' with
  | nil => exact ⟨.nil, hv⟩
  | @cons e e' rest rest' he _ ih =>
    obtain ⟨pc, slots⟩ := e
    obtain ⟨_, slots'⟩ := e'
    obtain ⟨rfl, hslots⟩ := he
    have habandons := abandons_eq hcount hwidth hwidth' hv hslots
    cases hab : m.abandons v slots with
    | true =>
      rw [settle_of_abandons hab, settle_of_abandons (habandons ▸ hab)]
      exact ih hv
    | false =>
      have hab' : { m with width }.abandons v' slots' = false := habandons ▸ hab
      cases hpc : P.instr pc with
      | accept =>
        rw [settle_accept hab hpc, settle_accept hab' hpc]
        have hjudge := agrees_judge hcount hwidth hwidth' hv hslots
        dsimp only
        split
        · split
          · exact ⟨.nil, hjudge⟩
          · exact ih hjudge
        · exact ih hv
      | consume cls next =>
        rw [settle_consume hab hpc, settle_consume hab' hpc]
        dsimp only
        split
        · exact ⟨.cons ⟨rfl, hslots⟩ (ih hv).1, (ih hv).2⟩
        · exact ih hv
      | fork | save | assert | jump | fail =>
        have hstop : (P.instr pc).isStop = false := by
          rw [hpc]
          rfl
        rw [settle_of_not_isStop hstop, settle_of_not_isStop hstop]
        exact ih hv

/-- Where nothing has been found yet, a match is found exactly if one ends here. -/
theorem found_settle_iff (hv : v.found = false) : (m.settle P es v).2.found = true ↔
    m.mayEnd = true ∧ ∃ e ∈ es, P.instr e.1 = .accept := by
  constructor
  · intro hfound
    by_contra hno
    have hsettle : m.settle P es v = (m.handed P es, v) := by
      refine settle_eq_handed hv fun e he hacc => ?_
      by_contra hend
      exact hno ⟨by simpa using hend, e, he, hacc⟩
    rw [hsettle, hv] at hfound
    cases hfound
  · rintro ⟨hend, e, he, hacc⟩
    exact found_settle_of_mem hend hacc he

end Moment

/-- Entries that are aligned are at the same addresses. -/
theorem Program.Aligned.map_fst {es es' : List (Fin P.size × Slots)} (h : P.Aligned count es es') :
    es.map Prod.fst = es'.map Prod.fst := by
  rw [← List.forall₂_eq_eq_eq, List.forall₂_map_left_iff, List.forall₂_map_right_iff]
  exact h.imp fun _ _ he => he.1

/-- What threads settle gives the same answer, also if one search keeps no slots at all. -/
theorem Moment.agrees_settle {m : Moment} {width : Nat} {v v' : Verdict}
    {es es' : List (Fin P.size × Slots)} (hcount : count = 0 ∨ 2 ≤ count)
    (hwidth : count ≤ m.width) (hwidth' : count ≤ width) (hes : P.Aligned count es es')
    (hv : v.Agrees count v') (hnone : v.found = false) :
    (m.settle P es v).2.Agrees count ({ m with width }.settle P es' v').2 := by
  rcases hcount with rfl | hcount
  · refine ⟨?_, fun slot hslot => absurd hslot (Nat.not_lt_zero slot)⟩
    have hnone' : v'.found = false := hv.found ▸ hnone
    have haccept : ∀ es : List (Fin P.size × Slots),
        (∃ e ∈ es, P.instr e.1 = .accept) ↔ ∃ pc ∈ es.map Prod.fst, P.instr pc = .accept := by
      intro es
      simp
    rw [Bool.eq_iff_iff, found_settle_iff hnone, found_settle_iff hnone', haccept, haccept,
      hes.map_fst]
  · exact (settle_aligned hcount hwidth hwidth' hes hv).2

/-! ## All offsets -/

namespace Program

variable {task : Task} {width : Nat}

/-- **The outcome is the same**, as long as the slots of the whole match are kept. -/
theorem outcome_aligned (hcount : 2 ≤ count) (hwidth : count ≤ task.width)
    (hwidth' : count ≤ width) {i : task.text.Offset} {es es' : List (Fin P.size × Slots)}
    {v v' : Verdict} (hes : P.Aligned count es es') (hv : v.Agrees count v') :
    (P.outcome task i es v).Agrees count (P.outcome { task with width } i es' v') := by
  induction i using Text.offset_induction generalizing es es' v v' with
  | step i ih =>
    have hseeded : P.Aligned count (es ++ task.seeds P i v)
        (es' ++ Task.seeds { task with width } P i v') :=
      List.rel_append hes (aligned_seeds task i hv.found hwidth hwidth')
    obtain ⟨hhanded, hagrees⟩ : P.Aligned count (P.settledAt task i es v).1
          (P.settledAt { task with width } i es' v').1 ∧
        (P.settledAt task i es v).2.Agrees count (P.settledAt { task with width } i es' v').2 :=
      Moment.settle_aligned (m := task.moment i) hcount hwidth hwidth'
        (hseeded.arrivals task.text i) hv
    cases hread : task.text.read? i with
    | none =>
      have hread' : ({ task with width } : Task).text.read? i = none := hread
      rw [outcome_of_end hread, outcome_of_end hread']
      exact hagrees
    | some found =>
      obtain ⟨r, j⟩ := found
      -- neither search is content with a mere yes
      have hkept : task.width ≠ 0 := by omega
      have hkept' : width ≠ 0 := by omega
      have hread' : ({ task with width } : Task).text.read? i = some (r, j) := hread
      rw [outcome_of_read hread, outcome_of_read hread', if_neg fun h => hkept h.1,
        if_neg fun h => hkept' h.1]
      exact ih j (Text.lt_of_read? hread) hhanded hagrees

/-- **The outcome gives the same answer** however many slots are kept, and those that are kept are
the same. -/
theorem outcome_agrees (hcount : count = 0 ∨ 2 ≤ count) (hwidth : count ≤ task.width)
    (hwidth' : count ≤ width) (i : task.text.Offset) :
    (P.outcome task i [] (.pending task.width)).Agrees count
      (P.outcome { task with width } i [] (.pending width)) := by
  rcases hcount with rfl | hcount
  · refine ⟨?_, fun slot hslot => absurd hslot (Nat.not_lt_zero slot)⟩
    rw [found_outcome_eq task width rfl]
    exact found_outcome_eq task task.width rfl
  · exact outcome_aligned hcount hwidth hwidth' .nil (.pending hwidth hwidth')

end Program

/-! ## Past the end of the text -/

namespace Search

variable {q : Query} {s s' : Search P.size} {width : Nat}

/-- Where the search goes on does not depend on how many slots are kept. -/
theorem map_pos_aim_eq (q : Query) (width : Nat) (hpos : s.pos = s'.pos)
    (hempty : s.space.current.isEmpty = s'.space.current.isEmpty)
    (hfound : s.space.verdict.found = s'.space.verdict.found) :
    (s.aim q).map (·.pos) = (s'.aim { q with width }).map (·.pos) := by
  have hmay : Query.mayStart { q with width } = q.mayStart := rfl
  unfold aim
  rw [hempty, hfound, hpos, hmay]
  split
  · simp [hpos]
  · split
    · rfl
    · split
      · simp [Option.map_map, Function.comp_def]
      · simp [hpos]

/-- Nothing is shown at one offset if nothing is shown at another. -/
theorem Shows.of_aim {pos : Nat} (h : Shows q s pos ([] : List (Fin P.size × Slots)))
    {aimed : Search P.size} (haim : s.aim q = some aimed) :
    Shows q aimed aimed.pos ([] : List (Fin P.size × Slots)) := by
  have hspace := space_of_aim haim
  have hnone : ∀ i, (P.passingAt q.task.text i).arrivals ∅ ([] : List (Fin P.size × Slots)) = [] :=
    fun i => Graph.arrivals_nil _ _
  refine ⟨⟨rfl, ?_, ?_, ?_⟩, ?_⟩
  · rw [hspace, h.view, hnone, hnone]
  · rw [hspace, h.next]
  · rw [hspace]
    exact h.uniform
  · rw [hspace, h.seen, hnone, hnone]

/-- **Past the end of the text** the answer is the same, too, however many slots are kept. -/
theorem run_past_end_agrees (hcount : count = 0 ∨ 2 ≤ count) (hwidth : count ≤ q.width)
    (hwidth' : count ≤ width) {pos : Nat} (hend : q.input.text.endPos < pos)
    (h : Shows q s pos []) (h' : Shows { q with width } s' pos [])
    (hv : s.space.verdict.Agrees count s'.space.verdict) (hnone : s.space.verdict.found = false) :
    ∃ space space', s.run q = .settled space ∧ s'.run { q with width } = .settled space' ∧
      space.verdict.Agrees count space'.verdict := by
  have hview : s.space.current.isEmpty = true := by
    rw [← RunList.view_eq_nil_iff, h.view, Graph.arrivals_nil]
    rfl
  have hview' : s'.space.current.isEmpty = true := by
    rw [← RunList.view_eq_nil_iff, h'.view, Graph.arrivals_nil]
    rfl
  have hsame := map_pos_aim_eq q width (h.pos.trans h'.pos.symm)
    (hview.trans hview'.symm) hv.found
  cases haim : s.aim q with
  | none =>
    have haim' : s'.aim { q with width } = none := by
      rw [haim] at hsame
      exact Option.map_eq_none_iff.mp hsame.symm
    exact ⟨s.space, s'.space, run_of_aim_eq_none haim, run_of_aim_eq_none haim', hv⟩
  | some aimed =>
    rw [haim] at hsame
    obtain ⟨aimed', haim', hpos⟩ := Option.map_eq_some_iff.mp hsame.symm
    have hpast : q.input.text.endPos < aimed.pos := by
      have hle := pos_le_of_aim haim
      rw [h.pos] at hle
      omega
    have hstop : q.input.text.widthAt aimed.pos = 0 := by
      have hstep : q.input.text.step aimed.pos = none := Text.step_eq_none_iff.mpr hpast.le
      rw [Text.widthAt, hstep]
      rfl
    -- one sweep is all there is to do
    obtain ⟨hstands, hverdict⟩ := (h.of_aim haim).seed
    obtain ⟨hstands', hverdict'⟩ := (h'.of_aim haim').seed
    obtain ⟨space, hsweep, hsettled, -⟩ := sweep_of_stands hstands
    obtain ⟨space', hsweep', hsettled', -⟩ := sweep_of_stands hstands'
    refine ⟨space, space', run_of_sweep haim hsweep (.inl hstop),
      run_of_sweep haim' hsweep' (.inl (hpos ▸ hstop)), ?_⟩
    rw [hsettled, hsettled', hverdict, hverdict', space_of_aim haim, space_of_aim haim', hpos]
    refine Moment.agrees_settle (m := q.task.moment aimed.pos) hcount hwidth hwidth' ?_ hv hnone
    exact (P.aligned_seeds q.task aimed.pos hv.found hwidth hwidth').arrivals q.task.text aimed.pos

end Search

/-! ## What a machine answers -/

namespace Machine

/-- A run of two machines that keep a different number of slots gives the same answer, and the
slots that both keep are the same. -/
theorem tryMatch_agrees {m m' : Machine P} (h : m.Reachable) (h' : m'.Reachable)
    (hkind : m.kind = m'.kind) (hwidth : m.width ≤ m'.width) {env : Environment}
    (hlimit : m.timeLimit env = none) (hlimit' : m'.timeLimit env = none) (input : Input)
    (pos : Nat) (anchor : Anchor) :
    ∃ v v' : Verdict, v.Agrees m.width v' ∧
      (m.tryMatch env input pos anchor).1 = .ok v.found ∧
      (m.tryMatch env input pos anchor).2.submatches = v.submatches m.width ∧
      (m'.tryMatch env input pos anchor).1 = .ok v'.found ∧
      (m'.tryMatch env input pos anchor).2.submatches = v'.submatches m'.width := by
  have hcount : m.width = 0 ∨ 2 ≤ m.width := by
    obtain ⟨pairs, hpairs⟩ := h.even_width
    omega
  rcases Nat.lt_or_ge input.text.endPos pos with hpos | hpos
  · have hpending : (Verdict.pending m.width).Agrees m.width (Verdict.pending m'.width) :=
      .pending le_rfl hwidth
    by_cases hanchor : anchor ≠ .unanchored ∧ pos ≠ 0
    · rw [tryMatch_of_anchored hanchor, tryMatch_of_anchored hanchor]
      exact ⟨_, _, hpending, rfl, rfl, rfl, rfl⟩
    · cases hentry : P.entry? with
      | none =>
        rw [tryMatch_of_no_entry hentry, tryMatch_of_no_entry hentry]
        exact ⟨_, _, hpending, rfl, rfl, rfl, rfl⟩
      | some entry =>
        rw [tryMatch_of_entry hentry hanchor, tryMatch_of_entry hentry hanchor]
        have hquery : m'.query env input anchor entry =
            { m.query env input anchor entry with width := m'.width } := by
          rw [query, query, hkind, hlimit, hlimit']
        obtain ⟨space, space', hrun, hrun', hagrees⟩ :=
          Search.run_past_end_agrees (q := m.query env input anchor entry) hcount le_rfl hwidth hpos
            (h.idle.shows rfl pos) (h'.idle.shows rfl pos) hpending rfl
        rw [hrun, hquery, hrun']
        exact ⟨_, _, hagrees, rfl, rfl, rfl, rfl⟩
  · let i : input.text.Offset := ⟨pos, Nat.lt_succ_of_le hpos⟩
    obtain ⟨hanswer, hslots⟩ := tryMatch_eq_outcome h hlimit input anchor i (P.skips _ _)
    obtain ⟨hanswer', hslots'⟩ := tryMatch_eq_outcome h' hlimit' input anchor i (P.skips _ _)
    have houtcome : m'.outcome input.text anchor i = P.outcome
        { m.task input.text anchor with width := m'.width } i [] (.pending m'.width) := by
      unfold outcome task
      rw [hkind]
    refine ⟨_, _, ?_, hanswer, hslots, hanswer', hslots'⟩
    rw [houtcome]
    exact Program.outcome_agrees hcount (le_refl (m.task input.text anchor).width) hwidth i

end Machine

end Lockstep
