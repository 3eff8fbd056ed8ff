import Lockstep.Proofs.Passage

/-!
# Following edges, written as a recursion

Edges can be followed by a recursion: to visit an address that is new is to mark it and then to
visit what its edges lead to, with a slot written before and set back behind it. A closure does not
recur. It keeps a list of what is still to be done, and hands its buffer over as soon as nothing is
left; all the same it comes to what the recursion comes to.

- `Tour`: what a recursion changes.
- `Program.Visits`, `Program.VisitsAll`: the recursion, from one address and from several.
- `Visits.eq_after`, `exists_visits`: it comes to an end, at what a depth-first search enters.
- `Closure.Proceeds`: one thing done after the other.
- `Front.Spares`: a buffer that nobody else has.
- `Front.explore_visits`: what a closure comes to, and what becomes of its buffers on the way.
-/

namespace Lockstep

/-! ## The recursion -/

/-- What a recursion over the edges changes. -/
structure Tour (n : Nat) where
  /-- The addresses that are marked. -/
  seen : Finset (Fin n)
  /-- The threads that were added, each with a copy of the slots, the preferred one first. -/
  threads : List (Fin n × Slots)
  /-- The slots that are carried. -/
  slots : Slots

namespace Tour

variable {n : Nat}

/-- Marks an address. -/
def mark (t : Tour n) (pc : Fin n) : Tour n := { t with seen := insert pc t.seen }

/-- Writes a slot. -/
def write (t : Tour n) (slot : Nat) (value : Option Nat) : Tour n :=
  { t with slots := t.slots.setIfInBounds slot value }

/-- Adds a thread with a copy of the slots. -/
def push (t : Tour n) (pc : Fin n) : Tour n := { t with threads := t.threads ++ [(pc, t.slots)] }

end Tour

namespace Program

mutual

/-- The recursion from one address. -/
inductive Visits (P : Program) (pos : Nat) (cond : Conditions) :
    Fin P.size → Tour P.size → Tour P.size → Prop where
  /-- A marked address is passed over. -/
  | again {pc : Fin P.size} {t : Tour P.size} (hseen : pc ∈ t.seen) : Visits P pos cond pc t t
  /-- Nothing is behind a failure. -/
  | fail {pc : Fin P.size} {t : Tour P.size} (hnew : pc ∉ t.seen) (hinstr : P.instr pc = .fail) :
      Visits P pos cond pc t (t.mark pc)
  /-- The arms of a fork are visited in order. -/
  | fork {pc : Fin P.size} {arms : List (Fin P.size)} {t t' : Tour P.size} (hnew : pc ∉ t.seen)
      (hinstr : P.instr pc = .fork arms) (harms : VisitsAll P pos cond arms (t.mark pc) t') :
      Visits P pos cond pc t t'
  /-- A jump leads on. -/
  | jump {pc next : Fin P.size} {t t' : Tour P.size} (hnew : pc ∉ t.seen)
      (hinstr : P.instr pc = .jump next) (hnext : Visits P pos cond next (t.mark pc) t') :
      Visits P pos cond pc t t'
  /-- An assertion leads on where its conditions hold. -/
  | assert {pc next : Fin P.size} {need : Conditions} {t t' : Tour P.size} (hnew : pc ∉ t.seen)
      (hinstr : P.instr pc = .assert need next) (hneed : need ⊆ cond)
      (hnext : Visits P pos cond next (t.mark pc) t') : Visits P pos cond pc t t'
  /-- Elsewhere it does not. -/
  | refuse {pc next : Fin P.size} {need : Conditions} {t : Tour P.size} (hnew : pc ∉ t.seen)
      (hinstr : P.instr pc = .assert need next) (hneed : ¬ need ⊆ cond) :
      Visits P pos cond pc t (t.mark pc)
  /-- The offset is written into a slot, which is set back behind the visit. -/
  | save {pc next : Fin P.size} {slot : Nat} {old : Option Nat} {t t' : Tour P.size}
      (hnew : pc ∉ t.seen) (hinstr : P.instr pc = .save slot next)
      (hold : t.slots[slot]? = some old)
      (hnext : Visits P pos cond next ((t.mark pc).write slot (some pos)) t') :
      Visits P pos cond pc t (t'.write slot old)
  /-- A slot that is not kept is not written. -/
  | skip {pc next : Fin P.size} {slot : Nat} {t t' : Tour P.size} (hnew : pc ∉ t.seen)
      (hinstr : P.instr pc = .save slot next) (hslot : t.slots.size ≤ slot)
      (hnext : Visits P pos cond next (t.mark pc) t') : Visits P pos cond pc t t'
  /-- A thread waits at the end of a match, and where a symbol is to be read. -/
  | wait {pc : Fin P.size} {t : Tour P.size} (hnew : pc ∉ t.seen)
      (hstop : (P.instr pc).isStop = true) : Visits P pos cond pc t ((t.mark pc).push pc)

/-- The recursion from several addresses, one after the other. -/
inductive VisitsAll (P : Program) (pos : Nat) (cond : Conditions) :
    List (Fin P.size) → Tour P.size → Tour P.size → Prop where
  | nil {t : Tour P.size} : VisitsAll P pos cond [] t t
  | cons {pc : Fin P.size} {pcs : List (Fin P.size)} {t t' t'' : Tour P.size}
      (hfirst : Visits P pos cond pc t t') (hrest : VisitsAll P pos cond pcs t' t'') :
      VisitsAll P pos cond (pc :: pcs) t t''

end

end Program

/-! ## It is a depth-first search -/

/-- The tour after some nodes have been entered. -/
def Tour.after {P : Program} (t : Tour P.size) (es : List (Fin P.size × Slots)) : Tour P.size where
  seen := t.seen ∪ Graph.nodes es
  threads := t.threads ++ P.stops es
  slots := t.slots

namespace Tour

variable {P : Program} (t : Tour P.size) {pc : Fin P.size} (es es' : List (Fin P.size × Slots))

@[simp] theorem after_nil : t.after ([] : List (Fin P.size × Slots)) = t := by
  simp [after]

theorem after_after : (t.after es).after es' = t.after (es ++ es') := by
  simp [after]

/-- An address that is passed through is entered first. -/
theorem after_mark (hstop : (P.instr pc).isStop = false) (slots : Slots) :
    (t.mark pc).after es = t.after ((pc, slots) :: es) := by
  unfold after
  rw [Program.stops_cons_of_not_isStop hstop, Graph.nodes_cons, Finset.union_insert,
    ← Finset.insert_union]
  rfl

theorem push_mark (hstop : (P.instr pc).isStop = true) :
    (t.mark pc).push pc = t.after [(pc, t.slots)] := by
  unfold after
  rw [Program.stops_cons_of_isStop hstop, Program.stops_nil, Graph.nodes_cons, Graph.nodes_nil,
    Finset.union_insert, Finset.union_empty]
  rfl

end Tour

namespace Program

variable {P : Program} {pos : Nat} {cond : Conditions}

/-- The nodes that a search enters from some addresses, with the slots of a tour. -/
def entered (P : Program) (pos : Nat) (cond : Conditions) (pcs : List (Fin P.size))
    (t : Tour P.size) : List (Fin P.size × Slots) :=
  (P.passing pos cond).arrivals t.seen (pcs.map fun pc => (pc, t.slots))

section Entered

variable {pc : Fin P.size} {pcs : List (Fin P.size)} {t : Tour P.size}

@[simp] theorem entered_nil : P.entered pos cond [] t = [] :=
  Graph.arrivals_nil _ _

theorem entered_of_seen (hseen : pc ∈ t.seen) : P.entered pos cond [pc] t = [] := by
  unfold entered
  rw [List.map_singleton, Graph.arrivals_cons_of_mem hseen, Graph.arrivals_nil]

/-- A new address is entered before what it leads to. -/
theorem entered_of_new {slots : Slots} (hnew : pc ∉ t.seen)
    (hpush : (P.passing pos cond).push pc t.slots = pcs.map fun pc => (pc, slots)) :
    P.entered pos cond [pc] t =
      (pc, t.slots) :: P.entered pos cond pcs { t.mark pc with slots := slots } := by
  unfold entered
  rw [List.map_singleton, Graph.arrivals_cons_of_notMem hnew, hpush, List.append_nil]
  rfl

theorem entered_cons : P.entered pos cond (pc :: pcs) t = P.entered pos cond [pc] t ++
    P.entered pos cond pcs (t.after (P.entered pos cond [pc] t)) :=
  Graph.arrivals_append _ t.seen [(pc, t.slots)] _

/-- What comes of an address that is passed through without a change to the slots. -/
theorem after_entered_of_pass (pcs : List (Fin P.size)) (hnew : pc ∉ t.seen)
    (hstop : (P.instr pc).isStop = false) (hnext : (P.passing pos cond).next pc = pcs)
    (hcarry : (P.passing pos cond).carry pc t.slots = t.slots) :
    t.after (P.entered pos cond [pc] t) =
      (t.mark pc).after (P.entered pos cond pcs (t.mark pc)) := by
  have hpush : (P.passing pos cond).push pc t.slots = pcs.map fun pc => (pc, t.slots) := by
    rw [Graph.push, hnext, hcarry]
  rw [entered_of_new hnew hpush, ← Tour.after_mark t _ hstop]
  rfl

end Entered

mutual

/-- **The recursion is a depth-first search**: it comes to what such a search enters, and leaves the
slots as they were. -/
theorem Visits.eq_after {pc : Fin P.size} {t t' : Tour P.size} :
    P.Visits pos cond pc t t' → t' = t.after (P.entered pos cond [pc] t)
  | .again hseen => by
    rw [entered_of_seen hseen, Tour.after_nil]
  | .fail hnew hinstr => by
    rw [after_entered_of_pass [] hnew (by rw [hinstr]; rfl) (by dsimp only [passing]; rw [hinstr])
      (by dsimp only [passing]; rw [hinstr]), entered_nil, Tour.after_nil]
  | @Visits.fork _ _ _ _ arms _ _ hnew hinstr harms => by
    rw [harms.eq_after, after_entered_of_pass arms hnew (by rw [hinstr]; rfl)
      (by dsimp only [passing]; rw [hinstr]) (by dsimp only [passing]; rw [hinstr])]
  | @Visits.jump _ _ _ _ next _ _ hnew hinstr hnext => by
    rw [hnext.eq_after, after_entered_of_pass [next] hnew (by rw [hinstr]; rfl)
      (by dsimp only [passing]; rw [hinstr]) (by dsimp only [passing]; rw [hinstr])]
  | @Visits.assert _ _ _ _ next _ _ _ hnew hinstr hneed hnext => by
    rw [hnext.eq_after, after_entered_of_pass [next] hnew (by rw [hinstr]; rfl)
      (by dsimp only [passing]; rw [hinstr]; exact if_pos hneed)
      (by dsimp only [passing]; rw [hinstr])]
  | .refuse hnew hinstr hneed => by
    rw [after_entered_of_pass [] hnew (by rw [hinstr]; rfl)
      (by dsimp only [passing]; rw [hinstr]; exact if_neg hneed)
      (by dsimp only [passing]; rw [hinstr]), entered_nil, Tour.after_nil]
  | @Visits.save _ _ _ _ next slot old _ _ hnew hinstr hold hnext => by
    -- the slot is set back to what it was
    have hback : (t.slots.setIfInBounds slot (some pos)).setIfInBounds slot old = t.slots :=
      Closure.setIfInBounds_setIfInBounds hold
    have hpush : (P.passing pos cond).push pc t.slots =
        [next].map fun pc => (pc, t.slots.setIfInBounds slot (some pos)) :=
      push_save hinstr t.slots
    rw [hnext.eq_after, entered_of_new hnew hpush, ← Tour.after_mark t _ (by rw [hinstr]; rfl)]
    simp only [Tour.after, Tour.write, Tour.mark, hback]
  | @Visits.skip _ _ _ _ next _ _ _ hnew hinstr hslot hnext => by
    rw [hnext.eq_after, after_entered_of_pass [next] hnew (by rw [hinstr]; rfl)
      (by dsimp only [passing]; rw [hinstr])
      (by dsimp only [passing]; rw [hinstr]; exact Array.setIfInBounds_eq_of_size_le hslot)]
  | .wait hnew hstop => by
    have hpush : (P.passing pos cond).push pc t.slots =
        ([] : List (Fin P.size)).map fun pc => (pc, t.slots) :=
      push_of_isStop hstop t.slots
    rw [Tour.push_mark t hstop, entered_of_new hnew hpush, entered_nil]

/-- From several addresses it is one, too. -/
theorem VisitsAll.eq_after {pcs : List (Fin P.size)} {t t' : Tour P.size} :
    P.VisitsAll pos cond pcs t t' → t' = t.after (P.entered pos cond pcs t)
  | .nil => by
    rw [entered_nil, Tour.after_nil]
  | .cons hfirst hrest => by
    rw [hrest.eq_after, hfirst.eq_after, Tour.after_after, ← entered_cons]

end

/-! ## It comes to an end -/

theorem Visits.subset {pc : Fin P.size} {t t' : Tour P.size} (h : P.Visits pos cond pc t t') :
    t.seen ⊆ t'.seen := by
  rw [h.eq_after]
  exact Finset.subset_union_left

/-- If there is a visit wherever as much has been seen as in `t`, several can be made one after the
other. -/
theorem exists_visitsAll {t : Tour P.size}
    (h : ∀ t' : Tour P.size, t.seen ⊆ t'.seen → ∀ pc, ∃ t'', P.Visits pos cond pc t' t'')
    (pcs : List (Fin P.size)) : ∃ t', P.VisitsAll pos cond pcs t t' := by
  induction pcs generalizing t with
  | nil => exact ⟨t, .nil⟩
  | cons pc pcs ih =>
    obtain ⟨t', hfirst⟩ := h t (Finset.Subset.refl _) pc
    obtain ⟨t'', hrest⟩ := ih fun u hu => h u (hfirst.subset.trans hu)
    exact ⟨t'', .cons hfirst hrest⟩

/-- **The recursion comes to an end**, since each visit to a new address leaves fewer of them. -/
theorem exists_visits (pos : Nat) (cond : Conditions) (t : Tour P.size) (pc : Fin P.size) :
    ∃ t', P.Visits pos cond pc t t' := by
  by_cases hseen : pc ∈ t.seen
  · exact ⟨t, .again hseen⟩
  · have hless : ∀ t' : Tour P.size, (t.mark pc).seen ⊆ t'.seen → ∀ pc',
        ∃ t'', P.Visits pos cond pc' t' t'' := fun t' hsub pc' => by
      have hcard : t.seen.card < t'.seen.card :=
        Nat.lt_of_lt_of_le (Finset.card_lt_card (Finset.ssubset_insert hseen))
          (Finset.card_le_card hsub)
      have hle : t'.seen.card ≤ P.size := by
        simpa using Finset.card_le_univ t'.seen
      exact exists_visits pos cond t' pc'
    have hall : ∀ next, ∃ t', P.Visits pos cond next (t.mark pc) t' :=
      hless (t.mark pc) (Finset.Subset.refl _)
    cases hinstr : P.instr pc with
    | fail => exact ⟨_, .fail hseen hinstr⟩
    | fork arms =>
      obtain ⟨t', harms⟩ := exists_visitsAll hless arms
      exact ⟨t', .fork hseen hinstr harms⟩
    | jump next =>
      obtain ⟨t', hnext⟩ := hall next
      exact ⟨t', .jump hseen hinstr hnext⟩
    | assert need next =>
      by_cases hneed : need ⊆ cond
      · obtain ⟨t', hnext⟩ := hall next
        exact ⟨t', .assert hseen hinstr hneed hnext⟩
      · exact ⟨_, .refuse hseen hinstr hneed⟩
    | save slot next =>
      cases hold : t.slots[slot]? with
      | some old =>
        obtain ⟨t', hnext⟩ := hless ((t.mark pc).write slot (some pos)) (Finset.Subset.refl _) next
        exact ⟨_, .save hseen hinstr hold hnext⟩
      | none =>
        obtain ⟨t', hnext⟩ := hall next
        exact ⟨t', .skip hseen hinstr (Array.getElem?_eq_none_iff.mp hold) hnext⟩
    | accept => exact ⟨_, .wait hseen (by rw [hinstr]; rfl)⟩
    | consume cls next => exact ⟨_, .wait hseen (by rw [hinstr]; rfl)⟩
termination_by P.size - t.seen.card

end Program

/-! ## A closure, one step after the other -/

/-- Nobody has the buffer with this number: no thread does, and the pool will not hand it out. -/
structure Front.Spares {n : Nat} (front : Front n) (serial : Nat) : Prop where
  made : serial < front.pool.created
  free : ∀ b ∈ front.pool.free, b.serial ≠ serial
  threads : ∀ t ∈ front.list.threads.toList, t.buffer.serial ≠ serial

namespace Front

variable {n : Nat} {front : Front n} {serial : Nat}

theorem Spares.visit (h : front.Spares serial) (pc : Fin n) : (front.visit pc).Spares serial :=
  ⟨h.made, h.free, h.threads⟩

/-- A copy goes into another buffer. -/
theorem Spares.pushCopy (h : front.Spares serial) (pc : Fin n) (slots : Slots) :
    (front.pushCopy pc slots).Spares serial := by
  have htaken : front.pool.take.1.serial ≠ serial ∧ serial < front.pool.take.2.created ∧
      ∀ b ∈ front.pool.take.2.free, b.serial ≠ serial := by
    obtain ⟨hmade, hfree, -⟩ := h
    unfold Pool.take
    split
    · next b rest hpool =>
      rw [hpool] at hfree
      exact ⟨hfree b List.mem_cons_self, hmade, fun b' hb' => hfree b' (List.mem_cons_of_mem _ hb')⟩
    · next hpool =>
      exact ⟨Nat.ne_of_gt hmade, Nat.lt_succ_of_lt hmade, hfree⟩
  refine ⟨htaken.2.1, htaken.2.2, fun t ht => ?_⟩
  have ht' : t ∈ front.list.threads.toList ∨ t = ⟨pc, front.pool.take.1.fill slots⟩ := by
    simpa [Front.pushCopy] using ht
  rcases ht' with ht' | rfl
  · exact h.threads t ht'
  · exact htaken.1

end Front

namespace Closure

variable {P : Program} {pos : Nat} {cond : Conditions} {c c' : Closure P.size}

/-- One thing is done after the other, and something may be left. -/
def Proceeds (pos : Nat) (cond : Conditions) : Closure P.size → Closure P.size → Prop :=
  Relation.ReflTransGen fun c c' => c.step pos cond = .inl c'

/-- **In the end nothing is left to be done.** -/
theorem exists_proceeds_run (pos : Nat) (cond : Conditions) (c : Closure P.size) :
    ∃ c', Proceeds pos cond c c' ∧ c'.todo.tail = [] ∧
      c'.step pos cond = .inr (c.run pos cond) := by
  induction c using run.induct pos cond with
  | case1 c c' hstep ih =>
    obtain ⟨last, hproceeds, hend⟩ := ih
    rw [run_of_step_inl hstep]
    exact ⟨last, .head hstep hproceeds, hend⟩
  | case2 c front hstep =>
    rw [run_of_step_inr hstep]
    have hsteps : Steps pos cond c (.inr front) := hstep ▸ steps_step c
    refine ⟨c, .refl, ?_, hstep⟩
    cases hsteps <;> rfl

/-- What one step leaves as it was: the buffer that is carried stays the same and its own, and
threads are only added. -/
theorem step_keeps (h : c.step pos cond = .inl c') :
    c'.snapshot.serial = c.snapshot.serial ∧
      c.front.list.threads.toList <+: c'.front.list.threads.toList ∧
      (c.front.Spares c.snapshot.serial → c'.front.Spares c.snapshot.serial) := by
  have hsteps : Steps pos cond c (.inl c') := h ▸ steps_step c
  cases hsteps with
  | restore => exact ⟨rfl, List.prefix_rfl, id⟩
  | skip => exact ⟨rfl, List.prefix_rfl, id⟩
  | pass => exact ⟨rfl, List.prefix_rfl, fun hspares => hspares.visit _⟩
  | save => exact ⟨rfl, List.prefix_rfl, fun hspares => hspares.visit _⟩
  | wait =>
    refine ⟨rfl, ?_, fun hspares => (hspares.visit _).pushCopy _ _⟩
    simp [Front.pushCopy, Front.visit]

theorem Proceeds.keeps (h : Proceeds pos cond c c') :
    c'.snapshot.serial = c.snapshot.serial ∧
      c.front.list.threads.toList <+: c'.front.list.threads.toList ∧
      (c.front.Spares c.snapshot.serial → c'.front.Spares c.snapshot.serial) := by
  induction h with
  | refl => exact ⟨rfl, List.prefix_rfl, id⟩
  | tail _ hstep ih =>
    obtain ⟨hserial, hthreads, hspares⟩ := ih
    obtain ⟨hserial', hthreads', hspares'⟩ := step_keeps hstep
    rw [hserial] at hserial' hspares'
    exact ⟨hserial', hthreads.trans hthreads', hspares' ∘ hspares⟩

theorem Proceeds.run_eq (h : Proceeds pos cond c c') : c'.run pos cond = c.run pos cond := by
  induction h with
  | refl => rfl
  | tail _ hstep ih => rw [← run_of_step_inl hstep, ih]

/-- Threads are only ever added. -/
theorem threads_isPrefix_run (pos : Nat) (cond : Conditions) (c : Closure P.size) :
    c.front.list.threads.toList <+: (c.run pos cond).list.threads.toList := by
  obtain ⟨last, hproceeds, -, hstep⟩ := exists_proceeds_run pos cond c
  refine hproceeds.keeps.2.1.trans ?_
  generalize c.run pos cond = front at hstep
  have hsteps : Steps pos cond last (.inr front) := hstep ▸ steps_step last
  cases hsteps with
  | done => exact List.prefix_rfl
  | last => simp [Front.push, Front.visit]

end Closure

/-! ## What a closure comes to -/

namespace Front

/-- What a tour of new addresses adds to a front. Its threads stand behind those that were there,
none of them twice nor at an address that was marked, and each new mark counts once. -/
structure Records {n : Nat} (front : Front n) (t : Tour n) (final : Front n) : Prop where
  seen : final.list.seen = t.seen
  threads : ∃ added, final.list.threads.toList = front.list.threads.toList ++ added ∧
    added.map (fun u => (u.pc, u.buffer.slots)) = t.threads
  nodup : (t.threads.map Prod.fst).Nodup
  new : ∀ e ∈ t.threads, e.1 ∉ front.list.seen
  work : final.work = front.work + (t.seen \ front.list.seen).card

variable {P : Program} (front : Front P.size) (pos : Nat) (cond : Conditions) (pc : Fin P.size)
  (b : Buffer)

/-- A closure adds what the search enters that the recursion is. -/
theorem records_explore : front.Records
    (Tour.after ⟨front.list.seen, [], b.slots⟩
      (P.entered pos cond [pc] ⟨front.list.seen, [], b.slots⟩))
    (front.explore pos cond pc b) := by
  refine ⟨front.seen_explore pos cond pc b, ?_, ?_, ?_, ?_⟩
  · obtain ⟨added, hadded⟩ := Closure.threads_isPrefix_run pos cond ⟨front, b, [.explore pc]⟩
    have hadded : (front.explore pos cond pc b).list.threads.toList =
        front.list.threads.toList ++ added := hadded.symm
    refine ⟨added, hadded, ?_⟩
    have hview := front.view_explore pos cond pc b
    rw [RunList.view, RunList.view, hadded, List.map_append] at hview
    exact List.append_cancel_left hview
  · exact (Graph.nodup_arrivals _ _ _).sublist (List.filter_sublist.map _)
  · exact fun e he => Graph.notMem_seen_of_arrival e (List.mem_of_mem_filter he)
  · have hcard : (front.list.seen ∪ Graph.nodes _).card = front.list.seen.card + _ :=
      Graph.card_seen_arrivals (P.passing pos cond) front.list.seen [(pc, b.slots)]
    rw [front.work_explore pos cond pc b, Tour.after,
      Finset.card_sdiff_of_subset Finset.subset_union_left]
    exact congrArg (front.work + ·) (Nat.eq_sub_of_add_eq' hcard.symm)

/-- **A closure comes to what the recursion comes to**, whatever run list, marks and slots there are
before: the recursion has one outcome, with the slots as they were, and that is what is added.

In the end of the closure nothing is left to be done. Until then only the buffer `b` is written, and
threads stay what they are once they have been added; no thread has `b` as long as it may be
written, if nobody else had it at first. -/
theorem explore_visits :
    (∃ t : Tour P.size,
      (∀ t', P.Visits pos cond pc ⟨front.list.seen, [], b.slots⟩ t' ↔ t' = t) ∧
        t.slots = b.slots ∧ front.Records t (front.explore pos cond pc b)) ∧
    (∃ c, Closure.Proceeds pos cond ⟨front, b, [.explore pc]⟩ c ∧ c.todo.tail = [] ∧
      c.step pos cond = .inr (front.explore pos cond pc b)) ∧
    ∀ c, Closure.Proceeds pos cond ⟨front, b, [.explore pc]⟩ c →
      c.snapshot.serial = b.serial ∧
        c.front.list.threads.toList <+: (front.explore pos cond pc b).list.threads.toList ∧
        (front.Spares b.serial → c.front.Spares b.serial) := by
  refine ⟨⟨_, fun t' => ?_, rfl, front.records_explore pos cond pc b⟩,
    Closure.exists_proceeds_run pos cond ⟨front, b, [.explore pc]⟩, fun c hproceeds => ?_⟩
  · obtain ⟨t, ht⟩ := P.exists_visits pos cond ⟨front.list.seen, [], b.slots⟩ pc
    constructor
    · exact fun ht' => ht'.eq_after
    · rintro rfl
      exact ht.eq_after ▸ ht
  · obtain ⟨hserial, -, hspares⟩ := hproceeds.keeps
    have hrun : c.run pos cond = front.explore pos cond pc b := hproceeds.run_eq
    exact ⟨hserial, hrun ▸ c.threads_isPrefix_run pos cond, hspares⟩

/-- A fork with an arm that has been visited before and one that leads back to it, and a closure
that has only just gone through the fork. -/
theorem explore_visits_group :
    let P : Program :=
      ⟨5, #v[.fork [4, 1, 3], .save 2 2, .consume (.single 0x61) 0, .save 3 0, .accept], 0⟩
    let b : Buffer := ⟨0, #[some 7, none, none, none]⟩
    let front : Front P.size := ⟨(RunList.empty P.size).mark 4, ⟨[], 4, 1⟩, 1⟩
    let c : Closure P.size := ⟨front.visit 0, b, [.explore 4, .explore 1, .explore 3]⟩
    (Closure.Proceeds 7 ∅ ⟨front, b, [.explore 0]⟩ c ∧ front.Spares b.serial) ∧
      c.snapshot.serial = b.serial ∧
      c.front.list.threads.toList <+: (front.explore 7 ∅ 0 b).list.threads.toList ∧
      c.front.Spares b.serial := by
  intro P b front c
  have hproceeds : Closure.Proceeds 7 ∅ ⟨front, b, [.explore 0]⟩ c := .single rfl
  have hspares : front.Spares b.serial := ⟨by decide, nofun, nofun⟩
  obtain ⟨hserial, hthreads, hkept⟩ := (front.explore_visits 7 ∅ 0 b).2.2 c hproceeds
  exact ⟨⟨hproceeds, hspares⟩, hserial, hthreads, hkept hspares⟩

end Front

end Lockstep
