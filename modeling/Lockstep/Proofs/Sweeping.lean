import Lockstep.Proofs.Passage
import Lockstep.Sweep

/-!
# What a sweep comes to

A sweep hands threads over to the next offset and may change the verdict. Without the buffers it
is a function of the threads that wait: which entries there are for the next offset, and what the
verdict is then.

- `Sweep.Takes`: what taking up a thread comes to.
- `Moment.settle`: that function.
- `Sweep.run_eq`: a sweep of waiting threads does not fail, and comes to what `settle` says; its
  front has grown by the search of the entries.
-/

namespace Lockstep

namespace Sweep

variable {P : Program} {m : Moment} {t : Thread P.size} {s s' : Sweep P.size}

/-- What taking up a thread comes to, by what becomes of the thread. -/
inductive Takes (m : Moment) (t : Thread P.size) : Sweep P.size → Sweep P.size → Prop where
  /-- It is given up, since a match that starts further left was found. -/
  | abandon {pending : List (Thread P.size)} {front : Front P.size} {v : Verdict}
      (hab : m.abandons v t.buffer.slots = true) :
    Takes m t ⟨pending, front, v⟩
      ⟨pending, Front.release { front with work := front.work + 1 } t.buffer, v⟩
  /-- It has come to the end of a match, but no match may end here. -/
  | early {pending : List (Thread P.size)} {front : Front P.size} {v : Verdict}
      (hab : m.abandons v t.buffer.slots = false) (hpc : P.instr t.pc = .accept)
      (hend : m.mayEnd = false) :
    Takes m t ⟨pending, front, v⟩
      ⟨pending, Front.release { front with work := front.work + 1 } t.buffer, v⟩
  /-- It has come to the end of a match, and the threads behind it lose. -/
  | first {pending : List (Thread P.size)} {front : Front P.size} {v : Verdict}
      (hab : m.abandons v t.buffer.slots = false) (hpc : P.instr t.pc = .accept)
      (hend : m.mayEnd = true) (hkind : m.kind = .leftmostFirst) :
    Takes m t ⟨pending, front, v⟩
      ⟨[], pending.foldl (fun front t => front.release t.buffer)
        (Front.release { front with work := front.work + 1 } t.buffer), m.judge v t.buffer.slots⟩
  /-- It has come to the end of a match, and the threads behind it may come to a longer one. -/
  | longest {pending : List (Thread P.size)} {front : Front P.size} {v : Verdict}
      (hab : m.abandons v t.buffer.slots = false) (hpc : P.instr t.pc = .accept)
      (hend : m.mayEnd = true) (hkind : m.kind = .leftmostLongest) :
    Takes m t ⟨pending, front, v⟩
      ⟨pending, Front.release { front with work := front.work + 1 } t.buffer,
        m.judge v t.buffer.slots⟩
  /-- It reads the symbol. -/
  | read {pending : List (Thread P.size)} {front : Front P.size} {v : Verdict} {cls : SymbolClass}
      {pc : Fin P.size} (hab : m.abandons v t.buffer.slots = false)
      (hpc : P.instr t.pc = .consume cls pc) (hread : m.symbol.any cls.contains = true) :
    Takes m t ⟨pending, front, v⟩
      ⟨pending, Front.explore { front with work := front.work + 1 } m.nextPos m.nextCond pc
        t.buffer, v⟩
  /-- It does not read the symbol. -/
  | miss {pending : List (Thread P.size)} {front : Front P.size} {v : Verdict} {cls : SymbolClass}
      {pc : Fin P.size} (hab : m.abandons v t.buffer.slots = false)
      (hpc : P.instr t.pc = .consume cls pc) (hread : m.symbol.any cls.contains = false) :
    Takes m t ⟨pending, front, v⟩
      ⟨pending, Front.release { front with work := front.work + 1 } t.buffer, v⟩

theorem takes_of_take (h : s.take m t = .ok s') : Takes m t s s' := by
  obtain ⟨pending, front, v⟩ := s
  unfold take at h
  cases hab : m.abandons v t.buffer.slots with
  | true =>
    rw [if_pos hab] at h
    cases h
    exact .abandon hab
  | false =>
    simp only [hab, Bool.false_eq_true, if_false] at h
    cases hpc : P.instr t.pc with
    | accept =>
      simp only [hpc] at h
      cases hend : m.mayEnd with
      | true =>
        cases hkind : m.kind <;> simp only [hend, hkind, if_true] at h <;> cases h
        · exact .first hab hpc hend hkind
        · exact .longest hab hpc hend hkind
      | false =>
        simp only [hend, Bool.false_eq_true, if_false] at h
        cases h
        exact .early hab hpc hend
    | consume cls pc =>
      simp only [hpc] at h
      cases hread : m.symbol.any cls.contains with
      | true =>
        rw [if_pos hread] at h
        cases h
        exact .read hab hpc hread
      | false =>
        simp only [hread, Bool.false_eq_true, if_false] at h
        cases h
        exact .miss hab hpc hread
    | fork | save | assert | jump | fail =>
      simp only [hpc] at h
      cases h

/-- A thread that waits can be taken up. -/
theorem exists_takes (m : Moment) (s : Sweep P.size) (hstop : (P.instr t.pc).isStop = true) :
    ∃ s', s.take m t = .ok s' ∧ Takes m t s s' := by
  suffices hok : ∃ s', s.take m t = .ok s' from hok.imp fun s' h => ⟨h, takes_of_take h⟩
  unfold take
  split
  · exact ⟨_, rfl⟩
  · cases hpc : P.instr t.pc with
    | accept =>
      simp only
      split
      · cases m.kind <;> exact ⟨_, rfl⟩
      · exact ⟨_, rfl⟩
    | consume cls pc =>
      simp only
      split <;> exact ⟨_, rfl⟩
    | fork | save | assert | jump | fail =>
      rw [hpc] at hstop
      cases hstop

end Sweep

namespace Moment

variable {P : Program}

/-- The entries for the next offset, and the verdict, once all threads have been taken up. -/
def settle (P : Program) (m : Moment) :
    List (Fin P.size × Slots) → Verdict → List (Fin P.size × Slots) × Verdict
  | [], v => ([], v)
  | (pc, slots) :: rest, v =>
    if m.abandons v slots then settle P m rest v
    else
      match P.instr pc with
      | .accept =>
        if m.mayEnd then
          match m.kind with
          | .leftmostFirst => ([], m.judge v slots)
          | .leftmostLongest => settle P m rest (m.judge v slots)
        else settle P m rest v
      | .consume cls next =>
        if m.symbol.any cls.contains then
          ((next, slots) :: (settle P m rest v).1, (settle P m rest v).2)
        else settle P m rest v
      | .fork _ | .save _ _ | .assert _ _ | .jump _ | .fail => settle P m rest v

variable {m : Moment} {pc : Fin P.size} {slots : Slots} {v : Verdict}
  {rest : List (Fin P.size × Slots)}

@[simp] theorem settle_nil (m : Moment) (v : Verdict) : m.settle P [] v = ([], v) := rfl

theorem settle_of_abandons (h : m.abandons v slots = true) :
    m.settle P ((pc, slots) :: rest) v = m.settle P rest v := by
  rw [settle, if_pos h]

/-- If all threads are given up, nothing happens. -/
theorem settle_of_forall_abandons {es : List (Fin P.size × Slots)}
    (h : ∀ e ∈ es, m.abandons v e.2 = true) : m.settle P es v = ([], v) := by
  induction es with
  | nil => rfl
  | cons e es ih =>
    obtain ⟨pc, slots⟩ := e
    rw [settle_of_abandons (h (pc, slots) (List.mem_cons_self ..))]
    exact ih fun e' he' => h e' (List.mem_cons_of_mem _ he')

theorem settle_accept (h : m.abandons v slots = false) (hpc : P.instr pc = .accept) :
    m.settle P ((pc, slots) :: rest) v =
      if m.mayEnd then
        match m.kind with
        | .leftmostFirst => ([], m.judge v slots)
        | .leftmostLongest => m.settle P rest (m.judge v slots)
      else m.settle P rest v := by
  rw [settle, if_neg (by simp [h]), hpc]

theorem settle_consume (h : m.abandons v slots = false) {cls : SymbolClass} {next : Fin P.size}
    (hpc : P.instr pc = .consume cls next) :
    m.settle P ((pc, slots) :: rest) v =
      if m.symbol.any cls.contains then
        ((next, slots) :: (m.settle P rest v).1, (m.settle P rest v).2)
      else m.settle P rest v := by
  rw [settle, if_neg (by simp [h]), hpc]

theorem settle_of_not_isStop (h : (P.instr pc).isStop = false) :
    m.settle P ((pc, slots) :: rest) v = m.settle P rest v := by
  cases hab : m.abandons v slots with
  | true => rw [settle_of_abandons hab]
  | false =>
    rw [settle, if_neg (by simp [hab])]
    cases hpc : P.instr pc with
    | accept | consume => rw [hpc] at h; cases h
    | fork | save | assert | jump | fail => rfl

/-- A thread that is no match hands over at most one entry, and leaves the verdict to the threads
behind it. -/
theorem settle_of_ne_accept (h : P.instr pc ≠ .accept) (m : Moment) (slots : Slots)
    (rest : List (Fin P.size × Slots)) (v : Verdict) :
    ∃ handed, m.settle P ((pc, slots) :: rest) v =
        (handed ++ (m.settle P rest v).1, (m.settle P rest v).2) ∧
      ∀ e ∈ handed, e.2 = slots ∧
        ∃ cls, P.instr pc = .consume cls e.1 ∧ m.symbol.any cls.contains = true := by
  cases hab : m.abandons v slots with
  | true => exact ⟨[], settle_of_abandons hab, by simp⟩
  | false =>
    cases hpc : P.instr pc with
    | accept => exact absurd hpc h
    | consume cls next =>
      rw [settle_consume hab hpc]
      by_cases hread : m.symbol.any cls.contains = true
      · rw [if_pos hread]
        refine ⟨[(next, slots)], rfl, fun e he => ?_⟩
        rw [List.mem_singleton] at he
        subst he
        exact ⟨rfl, cls, rfl, hread⟩
      · rw [if_neg hread]
        exact ⟨[], rfl, by simp⟩
    | fork | save | assert | jump | fail =>
      exact ⟨[], settle_of_not_isStop (by rw [hpc]; rfl), by simp⟩

/-- What relates the results for the threads behind a thread relates those with the thread in
front, if it does not see the entry that the thread hands over. -/
theorem settle_cons_rel {R : (List (Fin P.size × Slots) × Verdict) →
      (List (Fin P.size × Slots) × Verdict) → Prop}
    (hdone : ∀ v, R ([], v) ([], v)) (hcons : ∀ e a b, R a b → R (e :: a.1, a.2) (e :: b.1, b.2))
    (m : Moment) (e : Fin P.size × Slots) {rest rest' : List (Fin P.size × Slots)}
    (h : ∀ v, R (m.settle P rest v) (m.settle P rest' v)) (v : Verdict) :
    R (m.settle P (e :: rest) v) (m.settle P (e :: rest') v) := by
  obtain ⟨pc, slots⟩ := e
  cases hab : m.abandons v slots with
  | true =>
    rw [settle_of_abandons hab, settle_of_abandons hab]
    exact h v
  | false =>
    cases hpc : P.instr pc with
    | accept =>
      rw [settle_accept hab hpc, settle_accept hab hpc]
      split
      · split
        · exact hdone _
        · exact h _
      · exact h v
    | consume cls next =>
      rw [settle_consume hab hpc, settle_consume hab hpc]
      split
      · exact hcons _ _ _ (h v)
      · exact h v
    | fork | save | assert | jump | fail =>
      rw [settle_of_not_isStop (by rw [hpc]; rfl), settle_of_not_isStop (by rw [hpc]; rfl)]
      exact h v

/-- What is handed over keeps its slots and its order. -/
theorem labels_settle_sublist (m : Moment) (es : List (Fin P.size × Slots)) (v : Verdict) :
    ((m.settle P es v).1.map (·.2)).Sublist (es.map (·.2)) := by
  induction es generalizing v with
  | nil => exact List.Sublist.refl _
  | cons e es ih =>
    obtain ⟨pc, slots⟩ := e
    rw [List.map_cons]
    cases hab : m.abandons v slots with
    | true =>
      rw [settle_of_abandons hab]
      exact (ih v).cons slots
    | false =>
      cases hpc : P.instr pc with
      | accept =>
        rw [settle_accept hab hpc]
        split
        · split
          · exact List.nil_sublist _
          · exact (ih _).cons slots
        · exact (ih v).cons slots
      | consume cls next =>
        rw [settle_consume hab hpc]
        split
        · exact (ih v).cons_cons slots
        · exact (ih v).cons slots
      | fork | save | assert | jump | fail =>
        rw [settle_of_not_isStop (by rw [hpc]; rfl)]
        exact (ih v).cons slots

/-- How many threads are taken up: all of them, unless the match of one of them decides. -/
def takenUp (P : Program) (m : Moment) : List (Fin P.size × Slots) → Verdict → Nat
  | [], _ => 0
  | (pc, slots) :: rest, v =>
    if m.abandons v slots then takenUp P m rest v + 1
    else
      match P.instr pc with
      | .accept =>
        if m.mayEnd then
          match m.kind with
          | .leftmostFirst => 1
          | .leftmostLongest => takenUp P m rest (m.judge v slots) + 1
        else takenUp P m rest v + 1
      | .consume _ _ | .fork _ | .save _ _ | .assert _ _ | .jump _ | .fail => takenUp P m rest v + 1

theorem takenUp_of_abandons (h : m.abandons v slots = true) :
    m.takenUp P ((pc, slots) :: rest) v = m.takenUp P rest v + 1 := by
  rw [takenUp, if_pos h]

theorem takenUp_accept (h : m.abandons v slots = false) (hpc : P.instr pc = .accept) :
    m.takenUp P ((pc, slots) :: rest) v =
      if m.mayEnd then
        match m.kind with
        | .leftmostFirst => 1
        | .leftmostLongest => m.takenUp P rest (m.judge v slots) + 1
      else m.takenUp P rest v + 1 := by
  rw [takenUp, if_neg (by simp [h]), hpc]

theorem takenUp_of_ne_accept (h : P.instr pc ≠ .accept) :
    m.takenUp P ((pc, slots) :: rest) v = m.takenUp P rest v + 1 := by
  rw [takenUp, ite_eq_left_iff]
  intro
  cases hpc : P.instr pc with
  | accept => exact absurd hpc h
  | consume | fork | save | assert | jump | fail => rfl

/-- Only the threads that wait matter. -/
theorem settle_stops (m : Moment) (es : List (Fin P.size × Slots)) (v : Verdict) :
    m.settle P (P.stops es) v = m.settle P es v := by
  induction es generalizing v with
  | nil => rfl
  | cons e es ih =>
    obtain ⟨pc, slots⟩ := e
    cases hstop : (P.instr pc).isStop with
    | true =>
      rw [Program.stops_cons_of_isStop hstop]
      exact settle_cons_rel (fun v => rfl) (fun e a b h => by rw [h]) m (pc, slots) ih v
    | false => rw [Program.stops_cons_of_not_isStop hstop, ih, settle_of_not_isStop hstop]

end Moment

namespace Sweep

variable {P : Program}

/-- A thread without its buffer. -/
def viewed (threads : List (Thread P.size)) : List (Fin P.size × Slots) :=
  threads.map fun t => (t.pc, t.buffer.slots)

/-- What a sweep is to come to, given how many threads are taken up and what they settle. -/
structure Comes (m : Moment) (s s' : Sweep P.size) (taken : Nat)
    (settled : List (Fin P.size × Slots) × Verdict) : Prop where
  verdict : s'.verdict = settled.2
  view : s'.front.list.view = s.front.list.view ++
    P.stops ((P.passing m.nextPos m.nextCond).arrivals s.front.list.seen settled.1)
  seen : s'.front.list.seen = s.front.list.seen ∪
    Graph.nodes ((P.passing m.nextPos m.nextCond).arrivals s.front.list.seen settled.1)
  work : s'.front.work = s.front.work + taken +
    ((P.passing m.nextPos m.nextCond).arrivals s.front.list.seen settled.1).length

/-- A thread that reads the symbol has its entry searched before those of the threads behind
it. -/
theorem Comes.of_explore {m : Moment} {pending rest : List (Thread P.size)} {front : Front P.size}
    {v : Verdict} {s' : Sweep P.size} {pc : Fin P.size} {b : Buffer}
    {settled : List (Fin P.size × Slots) × Verdict} {taken : Nat}
    (h : Comes m
      ⟨rest, ({ front with work := front.work + 1 } : Front P.size).explore m.nextPos m.nextCond
        pc b, v⟩ s' taken settled) :
    Comes m ⟨pending, front, v⟩ s' (taken + 1) ((pc, b.slots) :: settled.1, settled.2) := by
  refine ⟨h.verdict, ?_, ?_, ?_⟩
  · rw [h.view]
    simp only [Front.view_explore, Front.seen_explore]
    rw [Graph.arrivals_cons _ _ (pc, b.slots) settled.1, Program.stops_append, List.append_assoc]
  · rw [h.seen]
    simp only [Front.seen_explore]
    rw [Graph.arrivals_cons _ _ (pc, b.slots) settled.1, Graph.nodes_append, Finset.union_assoc]
  · rw [h.work]
    simp only [Front.work_explore, Front.seen_explore]
    rw [Graph.arrivals_cons _ _ (pc, b.slots) settled.1, List.length_append]
    omega

theorem list_foldl_release (threads : List (Thread P.size)) (front : Front P.size) :
    (threads.foldl (fun front t => front.release t.buffer) front).list = front.list := by
  induction threads generalizing front with
  | nil => rfl
  | cons t threads ih => rw [List.foldl_cons, ih, Front.list_release]

theorem work_foldl_release (threads : List (Thread P.size)) (front : Front P.size) :
    (threads.foldl (fun front t => front.release t.buffer) front).work = front.work := by
  induction threads generalizing front with
  | nil => rfl
  | cons t threads ih => rw [List.foldl_cons, ih, Front.work_release]

/-- **A sweep of waiting threads** does not fail, and comes to what they settle. -/
theorem run_eq (m : Moment) (pending : List (Thread P.size)) (front : Front P.size) (v : Verdict)
    (hstop : ∀ t ∈ pending, (P.instr t.pc).isStop = true) :
    ∃ s', Sweep.run m ⟨pending, front, v⟩ = .ok s' ∧
      Comes m ⟨pending, front, v⟩ s' (m.takenUp P (viewed pending) v)
        (m.settle P (viewed pending) v) := by
  induction pending generalizing front v with
  | nil =>
    refine ⟨⟨[], front, v⟩, run_of_pending_eq_nil rfl, rfl, ?_, ?_, ?_⟩ <;>
      simp [viewed, Moment.takenUp]
  | cons t rest ih =>
    have hrest : ∀ t' ∈ rest, (P.instr t'.pc).isStop = true :=
      fun t' ht' => hstop t' (List.mem_cons_of_mem _ ht')
    obtain ⟨s₁, htake, htakes⟩ := exists_takes (t := t) m ⟨rest, front, v⟩
      (hstop t (List.mem_cons_self ..))
    have hstep : Sweep.step (P := P) m ⟨t :: rest, front, v⟩ = .ok s₁ := htake
    rw [run_of_step (s := ⟨t :: rest, front, v⟩) (by simp), hstep]
    show ∃ s', Sweep.run m s₁ = .ok s' ∧ _
    -- once the thread has been taken up, the rest is swept
    have next : ∀ (front₁ : Front P.size) (v₁ : Verdict), front₁.list = front.list →
        front₁.work = front.work + 1 →
        ∃ s', Sweep.run (P := P) m ⟨rest, front₁, v₁⟩ = .ok s' ∧
          Comes m ⟨t :: rest, front, v⟩ s' (m.takenUp P (viewed rest) v₁ + 1)
            (m.settle P (viewed rest) v₁) := by
      intro front₁ v₁ hlist hwork
      obtain ⟨s', hrun, hcomes⟩ := ih front₁ v₁ hrest
      refine ⟨s', hrun, hcomes.verdict, by rw [hcomes.view, hlist], by rw [hcomes.seen, hlist], ?_⟩
      rw [hcomes.work, hwork, hlist, Nat.add_right_comm front.work 1, Nat.add_assoc front.work]
    have hview : viewed (t :: rest) = (t.pc, t.buffer.slots) :: viewed rest := rfl
    rw [hview]
    cases htakes with
    | abandon hab =>
      rw [Moment.settle_of_abandons hab, Moment.takenUp_of_abandons hab]
      exact next _ _ rfl rfl
    | early hab hpc hend =>
      rw [Moment.settle_accept hab hpc, Moment.takenUp_accept hab hpc, hend]
      exact next _ _ rfl rfl
    | first hab hpc hend hkind =>
      rw [Moment.settle_accept hab hpc, Moment.takenUp_accept hab hpc, hend, hkind]
      refine ⟨_, run_of_pending_eq_nil rfl, rfl, ?_, ?_, ?_⟩
      · simp [list_foldl_release]
      · simp [list_foldl_release]
      · simp [work_foldl_release]
    | longest hab hpc hend hkind =>
      rw [Moment.settle_accept hab hpc, Moment.takenUp_accept hab hpc, hend, hkind]
      exact next _ _ rfl rfl
    | read hab hpc hread =>
      rw [Moment.settle_consume hab hpc, Moment.takenUp_of_ne_accept (by simp [hpc]), hread]
      obtain ⟨s', hrun, hcomes⟩ := ih _ v hrest
      exact ⟨s', hrun, hcomes.of_explore⟩
    | miss hab hpc hread =>
      rw [Moment.settle_consume hab hpc, Moment.takenUp_of_ne_accept (by simp [hpc]), hread]
      exact next _ _ rfl rfl

end Sweep

end Lockstep
