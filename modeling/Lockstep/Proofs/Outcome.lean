import Lockstep.Proofs.Sweeping
import Lockstep.Proofs.Walk
import Lockstep.Search

/-!
# The outcome of a search

What a search finds is a function of what it is asked, of the offset where it stands, of the
entries that have come there and of the verdict so far. This function goes from offset to offset
without skipping any, and knows neither buffers nor clocks; so it says what every search has to
come to, whichever way it takes.

- `Task`: what a search is asked.
- `Program.outcome`: what it is to come to.
- `Program.Doomed`: addresses from which no match can end, offset by offset.
- `outcome_filter`: entries at such addresses do not matter.
- `outcome_skip`: offsets do not matter at which only such entries are left and a new thread would
  start at such an address.
-/

namespace Lockstep

/-- What a search is asked, whatever it may skip and however long it may take. -/
structure Task where
  /-- The text. -/
  text : Text
  /-- Where a match may lie. -/
  anchor : Anchor
  /-- Which match is wanted. -/
  kind : MatchKind
  /-- How many slots are kept. -/
  width : Nat

/-- What a query asks. -/
def Query.task (q : Query) : Task :=
  { text := q.input.text, anchor := q.anchor, kind := q.kind, width := q.width }

/-- The slots of a match that starts at `pos` and has no groups yet. -/
def Slots.startAt (width pos : Nat) : Slots := (Slots.unset width).setIfInBounds 0 (some pos)

@[simp] theorem Slots.size_startAt (width pos : Nat) : (Slots.startAt width pos).size = width := by
  simp [Slots.startAt]

namespace Task

/-- Whether a match may start at an offset, as far as the anchor goes. -/
def mayStart (task : Task) (pos : Nat) : Bool := decide (pos = 0) || task.anchor = .unanchored

/-- Whether a match may end at an offset, as far as the anchor goes. -/
def mayEnd (task : Task) (pos : Nat) : Bool := task.anchor ≠ .both || pos = task.text.endPos

/-- What is the same for all threads of an offset. -/
def moment (task : Task) (pos : Nat) : Moment :=
  let nextPos := pos + task.text.widthAt pos
  { kind := task.kind
    width := task.width
    pos
    symbol := task.text.symbolAt pos
    nextPos
    nextCond := task.text.context nextPos
    mayEnd := task.mayEnd pos }

/-- The entry for a new match at an offset, if one may start there and none has been found. -/
def seeds (task : Task) (P : Program) (pos : Nat) (v : Verdict) : List (Fin P.size × Slots) :=
  if v.found = false ∧ task.mayStart pos then [(P.start, Slots.startAt task.width pos)] else []

/-- A new match starts where the program does. -/
theorem eq_start_of_mem_seeds {task : Task} {P : Program} {pos : Nat} {v : Verdict}
    {e : Fin P.size × Slots} (h : e ∈ task.seeds P pos v) : e.1 = P.start := by
  unfold seeds at h
  split at h
  · rw [List.mem_singleton.mp h]
  · exact absurd h List.not_mem_nil

theorem mayStart_eq_false {task : Task} (h : task.anchor ≠ .unanchored) {pos : Nat}
    (hpos : 0 < pos) : task.mayStart pos = false := by
  simp [mayStart, h, Nat.ne_of_gt hpos]

/-- Where a match may start behind the start of the text, it may start everywhere. -/
theorem mayStart_mono {task : Task} {pos pos' : Nat} (h : task.mayStart pos = false)
    (hle : pos ≤ pos') : task.mayStart pos' = false := by
  simp only [mayStart, Bool.or_eq_false_iff, decide_eq_false_iff_not] at h ⊢
  exact ⟨by omega, h.2⟩

end Task

namespace Program

/-- The verdict of a search that stands at the offset `i`, where `es` are the entries that have
come to it from further left. -/
def outcome (P : Program) (task : Task) (i : task.text.Offset) (es : List (Fin P.size × Slots))
    (v : Verdict) : Verdict :=
  let arrived := (P.passingAt task.text i).arrivals ∅ (es ++ task.seeds P i v)
  let settled := (task.moment i).settle P arrived v
  match _h : task.text.read? i with
  | none => settled.2
  | some (_, j) =>
    if task.width = 0 ∧ settled.2.found then settled.2
    else P.outcome task j settled.1 settled.2
termination_by task.text.endPos - i
decreasing_by
  have hlt : (i : Nat) < j := Text.lt_of_read? ‹_›
  omega

variable {P : Program} {task : Task}

/-- What all threads of an offset settle, those that start there included. -/
def settledAt (P : Program) (task : Task) (i : task.text.Offset) (es : List (Fin P.size × Slots))
    (v : Verdict) : List (Fin P.size × Slots) × Verdict :=
  (task.moment i).settle P ((P.passingAt task.text i).arrivals ∅ (es ++ task.seeds P i v)) v

theorem outcome_of_end {i : task.text.Offset} (h : task.text.read? i = none)
    (es : List (Fin P.size × Slots)) (v : Verdict) :
    P.outcome task i es v = (P.settledAt task i es v).2 := by
  rw [outcome]
  split
  · rfl
  · next heq => rw [h] at heq; cases heq

theorem outcome_of_read {i j : task.text.Offset} {r : Symbol}
    (h : task.text.read? i = some (r, j)) (es : List (Fin P.size × Slots)) (v : Verdict) :
    P.outcome task i es v =
      if task.width = 0 ∧ (P.settledAt task i es v).2.found then (P.settledAt task i es v).2
      else P.outcome task j (P.settledAt task i es v).1 (P.settledAt task i es v).2 := by
  rw [outcome]
  split
  · next heq => rw [h] at heq; cases heq
  · next heq =>
    rw [h] at heq
    cases heq
    rfl

/-! ## Addresses from which no match can end -/

/-- A set of addresses for each offset that no thread leaves, and in which no match ends. -/
structure Doomed (P : Program) (text : Text) (D : text.Offset → Finset (Fin P.size)) : Prop where
  stay : ∀ i : text.Offset, (P.passingAt text i).Closed (· ∈ D i)
  read : ∀ i, ∀ pc ∈ D i, ∀ cls next, P.instr pc = .consume cls next →
    ∀ r j, text.read? i = some (r, j) → r ∈ cls → next ∈ D j
  reject : ∀ i, ∀ pc ∈ D i, P.instr pc ≠ .accept

open Classical in
/-- No match can end on the way from addresses from where none can. -/
theorem doomed_of_not_live (P : Program) (text : Text) :
    P.Doomed text fun i => Finset.univ.filter fun pc => ¬ P.Live text i pc := by
  refine ⟨?_, ?_, ?_⟩
  · intro i pc hpc pc' hnext
    rw [Finset.mem_filter] at hpc ⊢
    refine ⟨Finset.mem_univ pc', fun hlive => hpc.2 ?_⟩
    exact hlive.head (mem_next_walk.mpr (.inl ⟨rfl, hnext⟩))
  · intro i pc hpc cls next hcls r j hread hr
    rw [Finset.mem_filter] at hpc ⊢
    refine ⟨Finset.mem_univ next, fun hlive => hpc.2 ?_⟩
    exact hlive.head (mem_next_walk.mpr (.inr ⟨cls, r, hcls, hread, hr⟩))
  · intro i pc hpc hacc
    rw [Finset.mem_filter] at hpc
    exact hpc.2 (live_of_accept hacc i)

section Doomed

variable {D : task.text.Offset → Finset (Fin P.size)}

/-- Threads at doomed addresses change no verdict, and hand over to doomed addresses only. -/
theorem settle_filter (hD : P.Doomed task.text D) (i : task.text.Offset)
    (es : List (Fin P.size × Slots)) (v : Verdict) :
    let outside := (task.moment i).settle P (es.filter (·.1 ∉ D i)) v
    let all := (task.moment i).settle P es v
    outside.2 = all.2 ∧ ∀ r j, task.text.read? i = some (r, j) →
      outside.1.filter (·.1 ∉ D j) = all.1.filter (·.1 ∉ D j) := by
  induction es generalizing v with
  | nil => exact ⟨rfl, fun _ _ _ => rfl⟩
  | cons e es ih =>
    obtain ⟨pc, slots⟩ := e
    by_cases hpc : pc ∈ D i
    · obtain ⟨handed, hsettle, hhanded⟩ :=
        Moment.settle_of_ne_accept (hD.reject i pc hpc) (task.moment i) slots es v
      rw [List.filter_cons_of_neg (by simpa using hpc), hsettle]
      refine ⟨(ih v).1, fun r j hread => ?_⟩
      -- what a doomed thread hands over is doomed
      have hgone : handed.filter (·.1 ∉ D j) = [] := by
        refine List.filter_eq_nil_iff.mpr fun e he => ?_
        obtain ⟨-, cls, hcls, hany⟩ := hhanded e he
        have hsymbol : (task.moment i).symbol = some r := Text.symbolAt_of_read? hread
        rw [hsymbol] at hany
        simpa using hD.read i pc hpc cls e.1 hcls r j hread hany
      rw [List.filter_append, hgone, List.nil_append]
      exact (ih v).2 r j hread
    · rw [List.filter_cons_of_pos (by simpa using hpc)]
      refine Moment.settle_cons_rel
        (R := fun a b => a.2 = b.2 ∧ ∀ r j, task.text.read? i = some (r, j) →
          a.1.filter (·.1 ∉ D j) = b.1.filter (·.1 ∉ D j))
        (fun v => ⟨rfl, fun _ _ _ => rfl⟩) (fun e a b h => ⟨h.1, fun r j hread => ?_⟩) _ _ ih v
      rw [List.filter_cons, List.filter_cons, h.2 r j hread]

/-- What is entered outside of the doomed addresses is known from the entries outside of them. -/
theorem filter_arrivals_of_filter (hD : P.Doomed task.text D) {i : task.text.Offset}
    {es es' : List (Fin P.size × Slots)}
    (h : es.filter (·.1 ∉ D i) = es'.filter (·.1 ∉ D i)) :
    ((P.passingAt task.text i).arrivals ∅ es).filter (·.1 ∉ D i) =
      ((P.passingAt task.text i).arrivals ∅ es').filter (·.1 ∉ D i) := by
  rw [Graph.filter_arrivals (hD.stay i), Graph.filter_arrivals (hD.stay i),
    ← Graph.arrivals_filter_entries Finset.subset_union_right es, h,
    Graph.arrivals_filter_entries Finset.subset_union_right es']

/-- **Entries at doomed addresses do not matter.** -/
theorem outcome_filter (hD : P.Doomed task.text D) (i : task.text.Offset)
    {es es' : List (Fin P.size × Slots)} (v : Verdict)
    (h : es.filter (·.1 ∉ D i) = es'.filter (·.1 ∉ D i)) :
    P.outcome task i es v = P.outcome task i es' v := by
  induction i using Text.offset_induction generalizing es es' v with
  | step i ih =>
    have hseeded : (es ++ task.seeds P i v).filter (·.1 ∉ D i) =
        (es' ++ task.seeds P i v).filter (·.1 ∉ D i) := by
      rw [List.filter_append, h, List.filter_append]
    have harrived := filter_arrivals_of_filter hD hseeded
    have hverdict : (P.settledAt task i es v).2 = (P.settledAt task i es' v).2 := by
      unfold settledAt
      rw [← (settle_filter hD i _ v).1, harrived, (settle_filter hD i _ v).1]
    cases hread : task.text.read? i with
    | none => rw [outcome_of_end hread, outcome_of_end hread, hverdict]
    | some found =>
      obtain ⟨r, j⟩ := found
      have hentries : (P.settledAt task i es v).1.filter (·.1 ∉ D j) =
          (P.settledAt task i es' v).1.filter (·.1 ∉ D j) := by
        unfold settledAt
        rw [← (settle_filter hD i _ v).2 r j hread, harrived, (settle_filter hD i _ v).2 r j hread]
      rw [outcome_of_read hread, outcome_of_read hread, hverdict,
        ih j (Text.lt_of_read? hread) _ hentries]

/-- If only doomed entries are left, and a new thread would be doomed, the verdict stays and only
doomed entries go on. -/
theorem settledAt_of_doomed (hD : P.Doomed task.text D) {i : task.text.Offset}
    {es : List (Fin P.size × Slots)} {v : Verdict} (hes : ∀ e ∈ es, e.1 ∈ D i)
    (hseeds : ∀ e ∈ task.seeds P i v, e.1 ∈ D i) :
    (P.settledAt task i es v).2 = v ∧
      ∀ r j, task.text.read? i = some (r, j) → ∀ e ∈ (P.settledAt task i es v).1, e.1 ∈ D j := by
  have hnone : (es ++ task.seeds P i v).filter (·.1 ∉ D i) = ([] : List _).filter (·.1 ∉ D i) := by
    refine List.filter_eq_nil_iff.mpr fun e he => ?_
    rcases List.mem_append.mp he with he | he
    · simpa using hes e he
    · simpa using hseeds e he
  have harrived := filter_arrivals_of_filter hD hnone
  rw [Graph.arrivals_nil, List.filter_nil] at harrived
  constructor
  · unfold settledAt
    rw [← (settle_filter hD i _ v).1, harrived]
    rfl
  · intro r j hread e he
    by_contra hmem
    have hfilter := (settle_filter hD i
      ((P.passingAt task.text i).arrivals ∅ (es ++ task.seeds P i v)) v).2 r j hread
    rw [harrived, Moment.settle_nil, List.filter_nil] at hfilter
    exact List.filter_eq_nil_iff.mp hfilter.symm e he (by simpa using hmem)

/-- If only doomed entries are left, and all new threads would be doomed, the verdict stands. -/
theorem outcome_of_doomed (hD : P.Doomed task.text D) (i : task.text.Offset)
    {es : List (Fin P.size × Slots)} {v : Verdict} (hes : ∀ e ∈ es, e.1 ∈ D i)
    (hseeds : ∀ j, i ≤ j → ∀ e ∈ task.seeds P j v, e.1 ∈ D j) :
    P.outcome task i es v = v := by
  induction i using Text.offset_induction generalizing es with
  | step i ih =>
    obtain ⟨hv, hnext⟩ := settledAt_of_doomed hD hes (hseeds i (le_refl i))
    cases hread : task.text.read? i with
    | none => rw [outcome_of_end hread, hv]
    | some found =>
      obtain ⟨r, j⟩ := found
      have hlt : i < j := Text.lt_of_read? hread
      rw [outcome_of_read hread, hv]
      split
      · rfl
      · exact ih j hlt (hnext r j hread) fun k hk => hseeds k (le_of_lt (lt_of_lt_of_le hlt hk))

end Doomed

/-! ## Passing over offsets -/

section Skip

variable {D : task.text.Offset → Finset (Fin P.size)}

/-- **Offsets can be passed over** at which only doomed entries are left, and at which all new
threads would be doomed. -/
theorem outcome_skip (hD : P.Doomed task.text D) {i j : task.text.Offset}
    (hij : task.text.ReadsTo i j) {es : List (Fin P.size × Slots)} {v : Verdict}
    (hfound : v.found = false) (hes : ∀ e ∈ es, e.1 ∈ D i)
    (hseeds : ∀ k, task.text.ReadsTo i k → k < j → ∀ e ∈ task.seeds P k v, e.1 ∈ D k) :
    P.outcome task i es v = P.outcome task j [] v := by
  induction hij using Relation.ReflTransGen.head_induction_on generalizing es with
  | refl =>
    refine outcome_filter hD j v ?_
    rw [List.filter_nil, List.filter_eq_nil_iff]
    exact fun e he => by simpa using hes e he
  | head hstep hrest ih =>
    next i k =>
    obtain ⟨r, hread⟩ := hstep
    have hlt : i < j := lt_of_lt_of_le (Text.lt_of_read? hread) (Text.ReadsTo.le hrest)
    obtain ⟨hv, hnext⟩ := settledAt_of_doomed hD hes (hseeds i (.refl i) hlt)
    rw [outcome_of_read hread, hv, if_neg (by simp [hfound])]
    exact ih (hnext r k hread) fun l hl => hseeds l (.trans (.of_read hread) hl)

end Skip

end Program

end Lockstep
