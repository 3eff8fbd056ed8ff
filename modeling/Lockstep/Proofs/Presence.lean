import Lockstep.Proofs.Reference

/-!
# Whether there is a match

As long as no match has been found no thread is given up, and a thread has started from every offset
where a match may start. So whether there is a match in the end does not depend on which one is
wanted and on how many slots are kept, also where none are kept and the first match ends the search.

- `Moment.settle_eq_handed`: what a sweep comes to that finds no match.
- `Program.Succeeds`: a way leads to where a match may end.
- `Program.found_outcome_iff`: whether there is a match.
- `Program.found_outcome_eq`: a depth-first search that keeps slots finds one then.
-/

namespace Lockstep

/-! ## A sweep that finds no match -/

namespace Moment

variable {P : Program} {m : Moment} {v : Verdict} {slots : Slots}
  {es : List (Fin P.size × Slots)}

theorem abandons_of_not_found (hv : v.found = false) (slots : Slots) :
    m.abandons v slots = false := by
  simp [abandons, hv]

@[simp] theorem found_judge (m : Moment) (v : Verdict) (slots : Slots) :
    (m.judge v slots).found = true := by
  unfold judge
  split <;> rfl

/-- A match that has been found is not lost. -/
theorem found_settle_of_found (hv : v.found = true) : (m.settle P es v).2.found = true := by
  induction es generalizing v with
  | nil => exact hv
  | cons e es ih =>
    obtain ⟨pc, slots⟩ := e
    by_cases hacc : P.instr pc = .accept
    · cases hab : m.abandons v slots with
      | true =>
        rw [settle_of_abandons hab]
        exact ih hv
      | false =>
        rw [settle_accept hab hacc]
        split
        · cases m.kind with
          | leftmostFirst => exact found_judge m v slots
          | leftmostLongest => exact ih (found_judge m v slots)
        · exact ih hv
    · obtain ⟨handed, hsettle, -⟩ := settle_of_ne_accept hacc m slots es v
      rw [hsettle]
      exact ih hv

/-- A thread that may end a match is found. -/
theorem found_settle_of_mem {pc : Fin P.size} (hend : m.mayEnd = true)
    (hacc : P.instr pc = .accept) (hmem : (pc, slots) ∈ es) :
    (m.settle P es v).2.found = true := by
  cases hv : v.found with
  | true => exact found_settle_of_found hv
  | false =>
    induction es with
    | nil => cases hmem
    | cons e es ih =>
      obtain ⟨pc', slots'⟩ := e
      by_cases hacc' : P.instr pc' = .accept
      · rw [settle_accept (abandons_of_not_found hv slots') hacc', if_pos hend]
        cases m.kind with
        | leftmostFirst => exact found_judge m v slots'
        | leftmostLongest => exact found_settle_of_found (found_judge m v slots')
      · have hmem : (pc, slots) ∈ es := by
          refine (List.mem_cons.mp hmem).resolve_left fun heq => hacc' ?_
          rw [← (Prod.mk.inj heq).1]
          exact hacc
        obtain ⟨handed, hsettle, -⟩ := settle_of_ne_accept hacc' m slots' es v
        rw [hsettle]
        exact ih hmem

/-- What threads hand over of which none is given up. -/
def handed (P : Program) (m : Moment) (es : List (Fin P.size × Slots)) :
    List (Fin P.size × Slots) :=
  es.filterMap fun e => match P.instr e.1 with
    | .consume cls next => if m.symbol.any cls.contains then some (next, e.2) else none
    | _ => none

theorem mem_handed {pc : Fin P.size} : (pc, slots) ∈ m.handed P es ↔
    ∃ e ∈ es, e.2 = slots ∧ ∃ cls, P.instr e.1 = .consume cls pc ∧
      m.symbol.any cls.contains = true := by
  simp only [handed, List.mem_filterMap]
  refine exists_congr fun e => and_congr_right fun _ => ?_
  cases hpc : P.instr e.1 with
  | consume cls next =>
    by_cases hread : m.symbol.any cls.contains = true
    · simp [hread, and_comm]
    · simp [hread]
  | fork | save | assert | jump | fail | accept => simp

/-- **Where no match may end** all threads go on that read the symbol. -/
theorem settle_eq_handed (hv : v.found = false)
    (hno : ∀ e ∈ es, P.instr e.1 = .accept → m.mayEnd = false) :
    m.settle P es v = (m.handed P es, v) := by
  induction es with
  | nil => rfl
  | cons e es ih =>
    obtain ⟨pc, slots⟩ := e
    have hab := abandons_of_not_found (m := m) hv slots
    have ih := ih fun e' he' => hno e' (List.mem_cons_of_mem _ he')
    unfold handed at ih ⊢
    rw [List.filterMap_cons]
    cases hpc : P.instr pc with
    | accept =>
      have hend : m.mayEnd = false := hno (pc, slots) List.mem_cons_self hpc
      rw [settle_accept hab hpc, if_neg (by simp [hend]), ih]
    | consume cls next =>
      rw [settle_consume hab hpc, ih]
      dsimp only
      split <;> rfl
    | fork | save | assert | jump | fail =>
      rw [settle_of_not_isStop (by rw [hpc]; rfl), ih]

end Moment

/-! ## Ways to where a match may end -/

namespace Program

variable {P : Program} {task : Task} {i j : task.text.Offset} {pc : Fin P.size}

/-- A way leads to where a match may end. -/
def Succeeds (P : Program) (task : Task) (v : Fin P.size × task.text.Offset) : Prop :=
  ∃ w, (P.walk task.text).Reaches v w ∧ P.ends task w = true

/-- A way that succeeds comes to an end at its offset, or it reads a symbol. -/
theorem succeeds_iff : P.Succeeds task (pc, i) ↔
    ∃ pc', (P.passingAt task.text i).Reaches pc pc' ∧ (P.ends task (pc', i) = true ∨
      ∃ cls next r j, P.instr pc' = .consume cls next ∧ task.text.read? i = some (r, j) ∧
        r ∈ cls ∧ P.Succeeds task (next, j)) := by
  constructor
  · rintro ⟨w, hreach, hends⟩
    generalize hv : (pc, i) = v at hreach
    induction hreach using Relation.ReflTransGen.head_induction_on generalizing pc with
    | refl =>
      subst hv
      exact ⟨pc, .refl pc, .inl hends⟩
    | @head _ v' hedge hrest ih =>
      subst hv
      obtain ⟨pc', j⟩ := v'
      rcases mem_next_walk.mp hedge with ⟨rfl, hnext⟩ | ⟨cls, r, hpc, hread, hr⟩
      · obtain ⟨stop, hstop, hend⟩ := ih rfl
        exact ⟨stop, .head hnext hstop, hend⟩
      · exact ⟨pc, .refl pc, .inr ⟨cls, pc', r, j, hpc, hread, hr, w, hrest, hends⟩⟩
  · rintro ⟨pc', hpass, hend⟩
    have hwalk : (P.walk task.text).Reaches (pc, i) (pc', i) :=
      Relation.ReflTransGen.lift (fun pc => (pc, i))
        (fun _ _ hnext => mem_next_walk.mpr (.inl ⟨rfl, hnext⟩)) _ _ hpass
    rcases hend with hend | ⟨cls, next, r, j, hpc, hread, hr, w, hrest, hends⟩
    · exact ⟨(pc', i), hwalk, hend⟩
    · have hnext := mem_next_walk.mpr (.inr ⟨cls, r, hpc, hread, hr⟩)
      exact ⟨w, hwalk.trans (.head hnext hrest), hends⟩

/-- A match is to be explored where a way succeeds. -/
theorem explored_ne_nil_iff : P.explored task i ≠ [] ↔ P.Succeeds task (P.start, i) := by
  rw [explored, Ne, matchesOf_eq_nil_iff]
  push Not
  constructor
  · rintro ⟨⟨w, a⟩, hmem, hends⟩
    exact ⟨w, Graph.exists_mem_arrivals_iff.mp ⟨a, hmem⟩, by simpa using hends⟩
  · rintro ⟨w, hreach, hends⟩
    obtain ⟨a, hmem⟩ := Graph.exists_mem_arrivals_iff.mpr hreach
    exact ⟨(w, a), hmem, by simpa using hends⟩

/-! ## The verdict in the end -/

section Outcome

variable {es : List (Fin P.size × Slots)} {v : Verdict}

/-- A match that has been found at an offset is not lost behind it. -/
theorem found_outcome_of_settled (h : (P.settledAt task i es v).2.found = true) :
    (P.outcome task i es v).found = true := by
  induction i using Text.offset_induction generalizing es v with
  | step i ih =>
    cases hread : task.text.read? i with
    | none =>
      rw [outcome_of_end hread]
      exact h
    | some found =>
      obtain ⟨r, j⟩ := found
      rw [outcome_of_read hread]
      split
      · exact h
      · exact ih j (Text.lt_of_read? hread) (Moment.found_settle_of_found h)

/-- Offsets where a match may start: this one, if it is one, and those behind it. -/
theorem mem_starts_of_read {r : Symbol} (h : task.text.read? i = some (r, j))
    {k : task.text.Offset} :
    k ∈ task.starts i ↔ (k = i ∧ task.mayStart i = true) ∨ k ∈ task.starts j := by
  rw [Task.starts, Text.offsetsFrom_of_read h, List.mem_filter, List.mem_cons, Task.starts,
    List.mem_filter]
  constructor
  · rintro ⟨rfl | hk, hstart⟩
    · exact .inl ⟨rfl, hstart⟩
    · exact .inr ⟨hk, hstart⟩
  · rintro (⟨rfl, hstart⟩ | ⟨hk, hstart⟩)
    · exact ⟨.inl rfl, hstart⟩
    · exact ⟨.inr hk, hstart⟩

/-- A way succeeds from an entry or from a new thread. -/
theorem succeeds_seeds_iff (es : List (Fin P.size × Slots)) (hv : v.found = false) :
    (∃ e ∈ es ++ task.seeds P i v, P.Succeeds task (e.1, i)) ↔
      (∃ e ∈ es, P.Succeeds task (e.1, i)) ∨
        (task.mayStart i = true ∧ P.Succeeds task (P.start, i)) := by
  have hseeds : ∀ e, e ∈ task.seeds P i v ↔
      task.mayStart i = true ∧ e = (P.start, Slots.startAt task.width i) := by
    intro e
    unfold Task.seeds
    split
    · next h => simp [h.2]
    · next h => simp [show ¬ task.mayStart i = true from fun hstart => h ⟨hv, hstart⟩]
  constructor
  · rintro ⟨e, he, hsucceeds⟩
    rcases List.mem_append.mp he with he | he
    · exact .inl ⟨e, he, hsucceeds⟩
    · obtain ⟨hstart, rfl⟩ := (hseeds e).mp he
      exact .inr ⟨hstart, hsucceeds⟩
  · rintro (⟨e, he, hsucceeds⟩ | ⟨hstart, hsucceeds⟩)
    · exact ⟨e, List.mem_append_left _ he, hsucceeds⟩
    · exact ⟨_, List.mem_append_right _ ((hseeds _).mpr ⟨hstart, rfl⟩), hsucceeds⟩

/-- One offset: a match ends there, or ways go on from what is handed over. -/
theorem succeeds_entries_iff {entries arrived : List (Fin P.size × Slots)}
    (h : (P.passingAt task.text i).arrivals ∅ entries = arrived) :
    (∃ e ∈ entries, P.Succeeds task (e.1, i)) ↔ (∃ e ∈ arrived, P.ends task (e.1, i) = true) ∨
      ∃ r j, task.text.read? i = some (r, j) ∧
        ∃ e ∈ (task.moment i).handed P arrived, P.Succeeds task (e.1, j) := by
  have harrived : ∀ pc, (∃ slots, (pc, slots) ∈ arrived) ↔
      ∃ e ∈ entries, (P.passingAt task.text i).Reaches e.1 pc := by
    intro pc
    rw [← h, ← Graph.mem_nodes, Graph.mem_nodes_arrivals_iff]
  constructor
  · rintro ⟨e, he, hsucceeds⟩
    obtain ⟨pc, hreach, hgoes⟩ := succeeds_iff.mp hsucceeds
    obtain ⟨slots, hmem⟩ := (harrived pc).mpr ⟨e, he, hreach⟩
    rcases hgoes with hends | ⟨cls, next, r, j, hpc, hread, hr, hrest⟩
    · exact .inl ⟨_, hmem, hends⟩
    · have hsymbol : (task.moment i).symbol = some r := Text.symbolAt_of_read? hread
      refine .inr ⟨r, j, hread, (next, slots), Moment.mem_handed.mpr ?_, hrest⟩
      exact ⟨(pc, slots), hmem, rfl, cls, hpc, by rw [hsymbol]; exact hr⟩
  · rintro (⟨e, hmem, hends⟩ | ⟨r, j, hread, ⟨next, slots⟩, hmem, hrest⟩)
    · obtain ⟨e', he', hreach⟩ := (harrived e.1).mp ⟨e.2, hmem⟩
      exact ⟨e', he', succeeds_iff.mpr ⟨e.1, hreach, .inl hends⟩⟩
    · obtain ⟨e, harrive, -, cls, hpc, hany⟩ := Moment.mem_handed.mp hmem
      have hsymbol : (task.moment i).symbol = some r := Text.symbolAt_of_read? hread
      rw [hsymbol] at hany
      have hr : r ∈ cls := hany
      obtain ⟨e', he', hreach⟩ := (harrived e.1).mp ⟨e.2, harrive⟩
      exact ⟨e', he', succeeds_iff.mpr
        ⟨e.1, hreach, .inr ⟨cls, next, r, j, hpc, hread, hr, hrest⟩⟩⟩

/-- **There is a match in the end** exactly if a way succeeds from one of the entries, or from the
start of the program at an offset where a match may start. -/
theorem found_outcome_iff (hv : v.found = false) :
    (P.outcome task i es v).found = true ↔ (∃ e ∈ es, P.Succeeds task (e.1, i)) ∨
      ∃ k ∈ task.starts i, P.Succeeds task (P.start, k) := by
  induction i using Text.offset_induction generalizing es with
  | step i ih =>
    have hentries := succeeds_seeds_iff (i := i) es hv
    obtain ⟨arrived, harrived⟩ : ∃ arrived,
        (P.passingAt task.text i).arrivals ∅ (es ++ task.seeds P i v) = arrived := ⟨_, rfl⟩
    rw [succeeds_entries_iff harrived] at hentries
    by_cases hend : ∃ e ∈ arrived, P.ends task (e.1, i) = true
    -- a match ends at the offset
    · have hsettled : (P.settledAt task i es v).2.found = true := by
        obtain ⟨⟨pc, slots⟩, hmem, hends⟩ := hend
        rw [ends, Bool.and_eq_true, decide_eq_true_eq] at hends
        rw [settledAt, harrived]
        exact Moment.found_settle_of_mem hends.2 hends.1 hmem
      refine iff_of_true (found_outcome_of_settled hsettled) ?_
      refine (hentries.mp (.inl hend)).imp_right ?_
      rintro ⟨hstart, hsucceeds⟩
      refine ⟨i, ?_, hsucceeds⟩
      rw [Task.starts, List.mem_filter, Text.mem_offsetsFrom]
      exact ⟨.refl i, hstart⟩
    · have hsettled : P.settledAt task i es v = ((task.moment i).handed P arrived, v) := by
        rw [settledAt, harrived]
        refine Moment.settle_eq_handed hv fun e he hacc => ?_
        by_contra hmay
        refine hend ⟨e, he, ?_⟩
        rw [ends_eq_mayEnd_of_accept hacc]
        simpa using hmay
      rw [or_iff_right hend] at hentries
      cases hread : task.text.read? i with
      | none =>
        rw [outcome_of_end hread, hsettled, hv]
        refine iff_of_false (by simp) fun hfound => ?_
        rw [Task.starts, Text.offsetsFrom_of_end hread] at hfound
        obtain ⟨r, j, hread', -⟩ : ∃ r j, task.text.read? i = some (r, j) ∧ _ := by
          refine hentries.mpr (hfound.imp_right ?_)
          rintro ⟨k, hk, hsucceeds⟩
          obtain ⟨hk, hstart⟩ := List.mem_filter.mp hk
          rw [List.mem_singleton.mp hk] at hstart hsucceeds
          exact ⟨hstart, hsucceeds⟩
        rw [hread] at hread'
        cases hread'
      | some found =>
        obtain ⟨r, j⟩ := found
        have hstarts : (∃ k ∈ task.starts i, P.Succeeds task (P.start, k)) ↔
            (task.mayStart i = true ∧ P.Succeeds task (P.start, i)) ∨
              ∃ k ∈ task.starts j, P.Succeeds task (P.start, k) := by
          simp only [mem_starts_of_read hread, or_and_right, exists_or, and_assoc, exists_eq_left]
        rw [outcome_of_read hread, hsettled, if_neg (by simp [hv]), ih j (Text.lt_of_read? hread),
          hstarts, ← or_assoc, ← hentries]
        simp only [hread, Option.some.injEq, Prod.mk.injEq, and_assoc, exists_and_left,
          exists_eq_left']

/-- A depth-first search finds a match exactly if a way succeeds. -/
theorem isSome_reference_iff : (P.reference task i).isSome = true ↔
    ∃ k ∈ task.starts i, P.Succeeds task (P.start, k) := by
  rw [Option.isSome_iff_ne_none, Ne, reference_eq_none_iff]
  push Not
  exact exists_congr fun k => and_congr_right fun _ => explored_ne_nil_iff

/-- **How many slots are kept** makes no difference to whether there is a match. -/
theorem found_outcome_eq (task : Task) {i : task.text.Offset} (width : Nat) (hv : v.found = false) :
    (P.outcome { task with width } i [] v).found = (P.reference task i).isSome := by
  have hfound : (P.outcome { task with width } i [] v).found = true ↔ _ := found_outcome_iff hv
  rw [Bool.eq_iff_iff, hfound, isSome_reference_iff]
  exact or_iff_right (by simp)

end Outcome

end Program

end Lockstep
