import Lockstep.Proofs.Bounds
import Lockstep.Proofs.Invariants
import Lockstep.Proofs.Starts

/-!
# What a run without success leaves behind

While a search goes on its verdict holds the best match so far, and when the time is up the verdict
is left as it is. So after a run that answers no all slots are unset, but after one that was broken
off they may be those of a match: one that is there, though not always the one that is wanted.

- `Program.Candidate`: a match in the text.
- `Program.Stems`: an entry with the offset where its way has started.
- `Program.Backs`: a verdict holds no match, or one that is there.
- `Search.keeps_backed`: it does so at every offset, and in the end.
- `Machine.submatches_of_unsuccessful`: what a machine reports after a run without success.
-/

namespace Lockstep

namespace Program

variable {P : Program} {task : Task} {low : Nat}

/-- There is a match from the offset `k` to the offset `j`, which starts at `low` or behind it, and
where a match may start and end. -/
structure Candidate (P : Program) (task : Task) (low : Nat) (k j : task.text.Offset) : Prop where
  low_le : low ≤ k
  mayStart : task.mayStart k = true
  way : ∃ pc, (P.walk task.text).Reaches (P.start, k) (pc, j) ∧ P.ends task (pc, j) = true

/-- A way leads from the start of the program at the offset `k` to the entry `e` at the offset `j`,
and the entry knows where it has started. -/
structure Stems (P : Program) (task : Task) (low : Nat) (k j : task.text.Offset)
    (e : Fin P.size × Slots) : Prop where
  low_le : low ≤ k
  mayStart : task.mayStart k = true
  way : (P.walk task.text).Reaches (P.start, k) (e.1, j)
  size : e.2.size = task.width
  start : P.SparesMatch → 0 < task.width → e.2.start? = some (k : Nat)

/-- If the verdict holds a match, it is one that is there. -/
def Backs (P : Program) (task : Task) (low : Nat) (v : Verdict) : Prop :=
  v.found = true → ∃ k j, P.Candidate task low k j ∧
    (P.SparesMatch → 2 ≤ task.width →
      v.slots.start? = some (k : Nat) ∧ v.slots.stop? = some (j : Nat))

theorem backs_pending (P : Program) (task : Task) (low width : Nat) :
    P.Backs task low (.pending width) :=
  nofun

/-! ## Entries -/

/-- A new thread starts where it is. -/
theorem stems_seed {k : task.text.Offset} (hlow : low ≤ k) (hstart : task.mayStart k = true) :
    P.Stems task low k k (P.start, Slots.startAt task.width k) where
  low_le := hlow
  mayStart := hstart
  way := .refl _
  size := Slots.size_startAt _ _
  start _ hwidth := Slots.start?_startAt hwidth _

variable {i : task.text.Offset}

/-- What is behind an entry stems from where the entry does. -/
theorem stems_of_mem_arrivals {seen : Finset (Fin P.size)} {es : List (Fin P.size × Slots)}
    (hes : ∀ e ∈ es, ∃ k, P.Stems task low k i e) :
    ∀ e ∈ (P.passingAt task.text i).arrivals seen es, ∃ k, P.Stems task low k i e := by
  refine Graph.forall_arrivals (p := fun pc slots => ∃ k, P.Stems task low k i (pc, slots)) ?_ hes
  rintro pc slots ⟨k, h⟩ next hnext
  refine ⟨k, h.low_le, h.mayStart, ?_, ?_, fun hspare hwidth => ?_⟩
  · exact h.way.trans (.head (mem_next_walk.mpr (.inl ⟨rfl, hnext⟩)) (.refl _))
  · exact (size_carry i (task.text.context i) pc slots).trans h.size
  · exact (start?_carry hspare i (task.text.context i) pc slots).trans (h.start hspare hwidth)

/-! ## Sweeps -/

/-- A thread that has come to the end of a match leaves a verdict that holds one. -/
theorem Backs.judge {v : Verdict} (hv : P.Backs task low v) {k : task.text.Offset} {pc : Fin P.size}
    {slots : Slots} (h : P.Stems task low k i (pc, slots)) (hends : P.ends task (pc, i) = true) :
    P.Backs task low ((task.moment i).judge v slots) := by
  have hcandidate : P.Candidate task low k i := ⟨h.low_le, h.mayStart, pc, h.way, hends⟩
  unfold Moment.judge
  split
  · refine fun _ => ⟨k, i, hcandidate, fun hspare hwidth => ⟨?_, ?_⟩⟩
    · rw [Slots.start?_setIfInBounds (by decide)]
      exact h.start hspare (by omega)
    · have hsize : slots.size = task.width := h.size
      exact Slots.stop?_setIfInBounds_one (by omega) _
  · next hkeep =>
    intro _
    cases hfound : v.found with
    | true => exact hv hfound
    | false =>
      -- only a search that keeps no slots leaves them as they are
      refine ⟨k, i, hcandidate, fun _ hwidth => absurd ?_ hkeep⟩
      have hkept : 0 < (task.moment i).width := Nat.lt_of_lt_of_le Nat.zero_lt_two hwidth
      exact ⟨hkept, .inr (.inl hfound)⟩

/-- **One sweep**: the verdict holds a match that is there, and what is handed over stems from where
the threads do. -/
theorem settle_backs {es : List (Fin P.size × Slots)} {v : Verdict}
    (hes : ∀ e ∈ es, ∃ k, P.Stems task low k i e) (hv : P.Backs task low v) :
    P.Backs task low ((task.moment i).settle P es v).2 ∧
      ∀ r j, task.text.read? i = some (r, j) →
        ∀ e ∈ ((task.moment i).settle P es v).1, ∃ k, P.Stems task low k j e := by
  induction es generalizing v with
  | nil => exact ⟨hv, fun _ _ _ => by simp⟩
  | cons e es ih =>
    obtain ⟨pc, slots⟩ := e
    obtain ⟨k, hk⟩ := hes (pc, slots) List.mem_cons_self
    have ih := fun {v} => @ih v fun e he => hes e (List.mem_cons_of_mem _ he)
    by_cases hacc : P.instr pc = .accept
    · cases hab : (task.moment i).abandons v slots with
      | true =>
        rw [Moment.settle_of_abandons hab]
        exact ih hv
      | false =>
        rw [Moment.settle_accept hab hacc]
        split
        · next hend =>
          have hjudge := hv.judge hk (by rw [ends_eq_mayEnd_of_accept hacc]; exact hend)
          split
          · exact ⟨hjudge, fun _ _ _ => by simp⟩
          · exact ih hjudge
        · exact ih hv
    · obtain ⟨handed, hsettle, hhanded⟩ :=
        Moment.settle_of_ne_accept hacc (task.moment i) slots es v
      rw [hsettle]
      refine ⟨(ih hv).1, fun r j hread e he => ?_⟩
      rcases List.mem_append.mp he with he | he
      · obtain ⟨hslots, cls, hcls, hany⟩ := hhanded e he
        have hsymbol : (task.moment i).symbol = some r := Text.symbolAt_of_read? hread
        rw [hsymbol] at hany
        have hedge := mem_next_walk.mpr (.inr ⟨cls, r, hcls, hread, hany⟩)
        refine ⟨k, hk.low_le, hk.mayStart, hk.way.trans (.head hedge (.refl _)), ?_, ?_⟩
        · rw [hslots]
          exact hk.size
        · rw [hslots]
          exact hk.start
      · exact (ih hv).2 r j hread e he

end Program

/-! ## Searches -/

namespace Search

variable {P : Program} {q : Query} {s : Search P.size} {i : q.task.text.Offset} {low : Nat}

/-- The threads of a search stem from offsets where a match may start, and its verdict holds a match
that is there. -/
structure Backed (q : Query) (low : Nat) (s : Search P.size) (i : q.task.text.Offset) : Prop where
  pos : s.pos = i
  low_le : low ≤ i
  next : s.space.next = RunList.empty P.size
  fits : s.space.Fits q.width
  threads : ∀ e ∈ s.space.current.view, ∃ k, P.Stems q.task low k i e
  verdict : P.Backs q.task low s.space.verdict

theorem Backed.aim (h : Backed q low s i) {aimed : Search P.size} (haim : s.aim q = some aimed)
    {k : q.task.text.Offset} (hpos : aimed.pos = k) (hto : q.task.text.ReadsTo i k) :
    Backed q low aimed k := by
  have hspace := space_of_aim haim
  have hle : (i : Nat) ≤ k := hto.le
  refine ⟨hpos, h.low_le.trans hle, by rw [hspace, h.next], hspace ▸ h.fits, ?_,
    hspace ▸ h.verdict⟩
  rw [hspace]
  by_cases hsame : aimed.pos = s.pos
  · have hik : i = k := Fin.ext (by rw [← h.pos, ← hpos, hsame])
    rw [← hik]
    exact h.threads
  · rw [view_of_pos_ne_of_aim haim hsame]
    exact nofun

theorem Backed.seed (h : Backed q low s i) : Backed q low (s.seed q) i := by
  have hfits : (s.seed q).space.Fits q.width := fits_seed h.fits
  by_cases hmay : s.space.verdict.found = false ∧ q.mayStart s.pos = true
  · have hbuffer : (s.space.pool.take.1.startAt s.pos).slots = Slots.startAt q.width i := by
      have hsize : s.space.pool.take.1.slots.size = q.width := h.fits.pool.take.1
      rw [h.pos, Slots.startAt, ← hsize]
      rfl
    have hstart : q.task.mayStart i = true := by
      rw [← h.pos]
      exact hmay.2
    rw [Search.seed, if_pos hmay] at hfits ⊢
    refine ⟨h.pos, h.low_le, h.next, hfits, fun e he => ?_, h.verdict⟩
    dsimp only at he
    rw [Front.view_explore, hbuffer, h.pos] at he
    rcases List.mem_append.mp he with he | he
    · exact h.threads e he
    · refine Program.stems_of_mem_arrivals (fun e he => ?_) e (List.mem_filter.mp he).1
      rw [List.mem_singleton.mp he]
      exact ⟨i, Program.stems_seed h.low_le hstart⟩
  · rw [seed_of_not_may hmay]
    exact h

theorem Backed.sweep (h : Backed q low s i) :
    ∃ space, s.sweep q = .ok space ∧ P.Backs q.task low space.verdict ∧
      ∀ r j, q.task.text.read? i = some (r, j) → ∀ steps,
        Backed q low ⟨j, steps, { space with current := space.next, next := space.current }⟩ j := by
  have hmoment : s.moment q = q.task.moment i := by
    unfold Search.moment Task.moment
    rw [h.pos]
    rfl
  have hstop : ∀ t ∈ s.space.current.threads.toList, (P.instr t.pc).isStop = true :=
    fun t ht => (h.fits.current t (Array.mem_toList_iff.mp ht)).1
  obtain ⟨swept, hrun, hcomes⟩ := Sweep.run_eq (q.task.moment i) s.space.current.threads.toList
    ⟨s.space.next, s.space.pool, s.space.work⟩ s.space.verdict hstop
  obtain ⟨space, hsweep, hfits⟩ := fits_sweep (q := q) h.fits
  have hspace : space = ⟨s.space.current.clear, swept.front.list, swept.front.pool,
      swept.front.work, swept.verdict⟩ := by
    rw [sweep_of_run (by rw [hmoment]; exact hrun)] at hsweep
    exact (Except.ok.inj hsweep).symm
  obtain ⟨hverdict, hhanded⟩ := Program.settle_backs h.threads h.verdict
  have hbacks : P.Backs q.task low space.verdict := by
    rw [hspace]
    show P.Backs q.task low swept.verdict
    rw [hcomes.verdict]
    exact hverdict
  refine ⟨space, hsweep, hbacks, fun r j hread steps => ?_⟩
  have hlt : (i : Nat) < j := Text.lt_of_read? hread
  refine ⟨rfl, h.low_le.trans hlt.le, by rw [hspace]; rfl,
    ⟨hfits.pool, hfits.next, hfits.current, hfits.verdict⟩, fun e he => ?_, hbacks⟩
  have hview := hcomes.view
  have hnextPos : (q.task.moment i).nextPos = j := Text.add_widthAt_of_read? hread
  rw [h.next, RunList.view_empty, List.nil_append, hnextPos] at hview
  rw [hspace] at he
  have hmem : e ∈ swept.front.list.view := he
  rw [hview] at hmem
  have hnextCond : (q.task.moment i).nextCond = q.task.text.context j := by
    show q.task.text.context (q.task.moment i).nextPos = _
    rw [hnextPos]
  rw [hnextCond] at hmem
  exact Program.stems_of_mem_arrivals (hhanded r j hread) e (List.mem_filter.mp hmem).1

/-- **The verdict of a search holds a match that is there**, if it holds one, at every offset and in
the end. -/
theorem keeps_backed (q : Query) (low : Nat) :
    Keeps q (fun (s : Search P.size) i => Backed q low s i)
      fun space => P.Backs q.task low space.verdict where
  pos _ _ h := h.pos
  rest _ _ h := h.verdict
  aim _ _ _ h haim _ hpos hto := h.aim haim hpos hto
  seed _ _ h := h.seed
  sweep _ _ h := h.sweep

/-- Past the end of the text a search is over after one offset, and not because of the time. -/
theorem run_of_past_end (h : s.space.Fits q.width) (hend : q.input.text.endPos < s.pos) :
    ∃ space, s.run q = .settled space := by
  cases haim : s.aim q with
  | none => exact ⟨s.space, run_of_aim_eq_none haim⟩
  | some aimed =>
    obtain ⟨space, hsweep, -⟩ := fits_sweep (q := q) (fits_seed (q := q) (fits_aim h haim))
    have hpast : q.input.text.endPos ≤ aimed.pos := hend.le.trans (pos_le_of_aim haim)
    have hwidth : q.input.text.widthAt aimed.pos = 0 := by
      rw [Text.widthAt, Text.step_eq_none_iff.mpr hpast]
      rfl
    exact ⟨space, run_of_sweep haim hsweep (.inl hwidth)⟩

end Search

/-! ## What a machine reports -/

namespace Machine

variable {P : Program} {m : Machine P}

/-- At the start of a run there is no thread and no match. -/
theorem Idle.backed (h : m.Idle) (q : Query) (hwidth : q.width = m.width) (i : q.task.text.Offset) :
    Search.Backed q i { pos := i, steps := 0, space := m.space.reset m.width } i where
  pos := rfl
  low_le := le_rfl
  next := h.next
  fits := hwidth ▸ h.fits_reset
  threads := by
    show ∀ e ∈ m.space.current.view, _
    rw [h.current]
    exact nofun
  verdict := P.backs_pending q.task i m.width

/-- A run that is asked for a yes or no is the same run, and says yes exactly if it has found a
match in time. -/
theorem isMatch_eq (m : Machine P) (env : Environment) (input : Input) (pos : Nat)
    (anchor : Anchor) :
    (m.isMatch env input pos anchor).2 = (m.tryMatch env input pos anchor).2 ∧
      ((m.isMatch env input pos anchor).1 = true ↔
        (m.tryMatch env input pos anchor).1 = .ok true) := by
  unfold isMatch
  split
  · next heq => simp [heq]
  · next heq => simp [heq]

/-- A run that answers no leaves all slots unset. -/
theorem submatches_conclude {ending : Ending P.size} (hno : (m.conclude ending).1 = .ok false) :
    (m.conclude ending).2.submatches = Slots.unset m.width := by
  cases ending with
  | settled space =>
    have hfound : space.verdict.found = false := Except.ok.inj hno
    show space.verdict.submatches m.width = _
    rw [Verdict.submatches, hfound]
    rfl
  | overrun | flawed => cases hno

/-- A run that fails was broken off, with a verdict that holds a match that is there, if any. -/
theorem exists_of_error (h : m.Idle) {env : Environment} {input : Input} {pos : Nat}
    {anchor : Anchor} {entry : Conditions} {e : Error}
    (herror : (m.conclude (Search.run (m.query env input anchor entry)
      { pos, steps := 0, space := m.space.reset m.width })).1 = .error e) :
    ∃ space, Search.run (m.query env input anchor entry)
        { pos, steps := 0, space := m.space.reset m.width } = .overrun space ∧
      P.Backs (m.task input.text anchor) pos space.verdict := by
  rcases Nat.lt_or_ge input.text.endPos pos with hpos | hpos
  · obtain ⟨space, hrun⟩ := Search.run_of_past_end (q := m.query env input anchor entry)
      (s := { pos, steps := 0, space := m.space.reset m.width }) h.fits_reset hpos
    rw [hrun] at herror
    cases herror
  · obtain ⟨space, hrun, hbacks⟩ := (Search.keeps_backed _ _).run
      (h.backed (m.query env input anchor entry) rfl ⟨pos, Nat.lt_succ_of_le hpos⟩)
    rcases hrun with hrun | hrun
    · dsimp only at hrun
      rw [hrun] at herror
      cases herror
    · exact ⟨space, hrun, hbacks⟩

/-- **What is reported after a run without success.** Whatever the program and whichever calls came
before: after a run that answers no, all slots are unset. After a run that was broken off they are
unset, too, or else the run has come upon a match, and those of the whole match are its start and its
end, if no instruction writes to them. A run that is only asked for a yes or no is the same run. -/
theorem submatches_of_unsuccessful (h : m.Reachable) (env : Environment) (input : Input) (pos : Nat)
    (anchor : Anchor) :
    let run := m.tryMatch env input pos anchor
    let asked := m.isMatch env input pos anchor
    (asked.2 = run.2 ∧ (asked.1 = true ↔ run.1 = .ok true)) ∧
      (run.1 = .ok false → run.2.submatches = Slots.unset m.width) ∧
      ∀ e, run.1 = .error e → e = .timeLimitOver ∧
        (run.2.submatches = Slots.unset m.width ∨
          ∃ k j, P.Candidate (m.task input.text anchor) pos k j ∧
            (P.SparesMatch → run.2.submatches.start? = some (k : Nat) ∧
              run.2.submatches.stop? = some (j : Nat))) := by
  intro run asked
  refine ⟨m.isMatch_eq env input pos anchor, ?_⟩
  have hsound := (h.idle.tryMatch_sound env input pos anchor).1
  have hsize := (h.tryMatch env input pos anchor).size_submatches
  rw [width_tryMatch] at hsize
  obtain ⟨pairs, hpairs⟩ := h.even_width
  rcases m.tryMatch_cases env input pos anchor with hno | ⟨entry, hrun⟩
  · have hno : run = _ := hno
    rw [hno]
    exact ⟨fun _ => rfl, nofun⟩
  · have hrun : run = _ := hrun
    refine ⟨fun hno => ?_, fun e he => ⟨hsound e he, ?_⟩⟩
    · rw [hrun] at hno ⊢
      exact submatches_conclude hno
    · obtain ⟨space, hover, hbacks⟩ := exists_of_error h.idle (hrun ▸ he)
      have hslots : run.2.submatches = space.verdict.submatches m.width := by
        rw [hrun, hover]
        rfl
      cases hfound : space.verdict.found with
      | false =>
        left
        rw [hslots, Verdict.submatches, hfound]
        rfl
      | true =>
        obtain ⟨k, j, hcandidate, hspan⟩ := hbacks hfound
        rcases Nat.eq_zero_or_pos m.width with hzero | hkept
        · -- a machine that keeps no slots has none to report
          left
          rw [hzero] at hsize ⊢
          exact Array.eq_empty_of_size_eq_zero hsize
        · refine .inr ⟨k, j, hcandidate, fun hspare => ?_⟩
          rw [hslots, Verdict.submatches, hfound]
          exact hspan hspare (show 2 ≤ m.width by omega)

/-- A machine without any time, for a program that reads as many letters as it can. -/
theorem submatches_of_unsuccessful_letters :
    let P : Program := ⟨3, #v[.fork [1, 2], .consume (.single 0x61) 0, .accept], 0⟩
    let input : Input := { text := .utf8 (Array.replicate 600 0x61) }
    let m := (new P .leftmostFirst).setLimit (some 0)
    m.Reachable ∧
      let run := m.tryMatch {} input 0 .unanchored
      let asked := m.isMatch {} input 0 .unanchored
      (asked.2 = run.2 ∧ (asked.1 = true ↔ run.1 = .ok true)) ∧
        (run.1 = .ok false → run.2.submatches = Slots.unset m.width) ∧
        ∀ e, run.1 = .error e → e = .timeLimitOver ∧
          (run.2.submatches = Slots.unset m.width ∨
            ∃ k j, P.Candidate (m.task input.text .unanchored) 0 k j ∧
              (P.SparesMatch → run.2.submatches.start? = some (k : Nat) ∧
                run.2.submatches.stop? = some (j : Nat))) := by
  intro P input m
  have h : m.Reachable := .setLimit (.new .leftmostFirst) (some 0)
  exact ⟨h, submatches_of_unsuccessful h {} input 0 .unanchored⟩

end Machine

end Lockstep
