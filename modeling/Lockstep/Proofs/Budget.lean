import Lockstep.Proofs.Bounds
import Lockstep.Proofs.Invariants
import Lockstep.Proofs.Savings

/-!
# The work of a run grows no faster than the text

At one offset no address is visited twice, and no more threads are taken up than addresses have been
visited. So the work at each offset is at most twice the size of the program, and a run goes to no
more offsets than there are symbols, and one more.

- `Text.symbolsFrom`: the symbols that are read from an offset on.
- `RunList.Distinct`: threads wait at different addresses that have been visited.
- `Search.Within`: what a search has counted and may still count, at its offset and behind it, is
  within a bound.
- `Search.keeps_within`: it stays so, whatever is done at an offset.
- `Machine.work_tryMatch_le`: the work of a whole run.
-/

namespace Lockstep

/-! ## Symbols -/

namespace Text

variable {text : Text} {i j : text.Offset}

/-- The symbols that are read from an offset on. -/
def symbolsFrom (text : Text) (i : text.Offset) : List Symbol :=
  (text.offsetsFrom i).filterMap fun j : text.Offset => text.symbolAt j

theorem symbolsFrom_of_read {r : Symbol} (h : text.read? i = some (r, j)) :
    text.symbolsFrom i = r :: text.symbolsFrom j := by
  rw [symbolsFrom, offsetsFrom_of_read h, List.filterMap_cons, symbolAt_of_read? h]
  rfl

theorem symbolsFrom_of_end (h : text.read? i = none) : text.symbolsFrom i = [] := by
  rw [symbolsFrom, offsetsFrom_of_end h, List.filterMap_cons,
    symbolAt_of_read?_eq_none h]
  rfl

/-- Behind an offset there are no more symbols than from it on. -/
theorem ReadsTo.length_symbolsFrom_le (h : text.ReadsTo i j) :
    (text.symbolsFrom j).length ≤ (text.symbolsFrom i).length := by
  induction h using Relation.ReflTransGen.head_induction_on with
  | refl => exact le_rfl
  | head hstep _ ih =>
    obtain ⟨r, hread⟩ := hstep
    rw [symbolsFrom_of_read hread, List.length_cons]
    exact Nat.le_succ_of_le ih

/-- Each symbol takes up room in the text. -/
theorem length_symbolsFrom_le (i : text.Offset) :
    (text.symbolsFrom i).length ≤ text.endPos - i := by
  induction i using offset_induction with
  | step i ih =>
    cases hread : text.read? i with
    | none =>
      rw [symbolsFrom_of_end hread]
      exact Nat.zero_le _
    | some found =>
      obtain ⟨r, j⟩ := found
      have hlt : (i : Nat) < j := lt_of_read? hread
      have hend : (j : Nat) ≤ text.endPos := Nat.le_of_lt_succ j.isLt
      have hrest := ih j (lt_of_read? hread)
      rw [symbolsFrom_of_read hread, List.length_cons]
      omega

end Text

/-! ## Threads at different addresses -/

variable {P : Program}

/-- The threads of a run list wait at different addresses, and all of these have been visited. -/
structure RunList.Distinct (list : RunList P.size) : Prop where
  nodup : (list.view.map Prod.fst).Nodup
  marked : ∀ e ∈ list.view, e.1 ∈ list.seen
  waits : ∀ e ∈ list.view, (P.instr e.1).isStop = true

namespace RunList

theorem distinct_empty (P : Program) : (RunList.empty P.size).Distinct := by
  constructor <;> simp

theorem card_seen_le (list : RunList P.size) : list.seen.card ≤ P.size := by
  simpa using Finset.card_le_univ list.seen

/-- There are no more threads than addresses at which they may wait. -/
theorem Distinct.length_view_le_card {list : RunList P.size} (h : list.Distinct)
    {pcs : Finset (Fin P.size)} (hpcs : ∀ e ∈ list.view, e.1 ∈ pcs) :
    list.view.length ≤ pcs.card := by
  have hsubset : (list.view.map Prod.fst).toFinset ⊆ pcs := by
    intro pc hpc
    obtain ⟨e, he, rfl⟩ := List.mem_map.mp (List.mem_toFinset.mp hpc)
    exact hpcs e he
  calc list.view.length = (list.view.map Prod.fst).toFinset.card := by
        rw [List.toFinset_card_of_nodup h.nodup, List.length_map]
    _ ≤ pcs.card := Finset.card_le_card hsubset

/-- There are no more threads than addresses that have been visited. -/
theorem Distinct.length_view_le {list : RunList P.size} (h : list.Distinct) :
    list.view.length ≤ list.seen.card :=
  h.length_view_le_card h.marked

end RunList

namespace Front.Gains

variable {pos count : Nat} {cond : Conditions} {es : List (Fin P.size × Slots)}
  {front grown : Front P.size}

/-- A visit adds one to the work and one to the addresses that have been visited. -/
theorem work_add_card (h : Gains P pos cond es count front grown) :
    grown.work + front.list.seen.card = front.work + count + grown.list.seen.card := by
  rw [h.work, h.seen, Graph.card_seen_arrivals]
  omega

/-- New threads wait at addresses that had not been visited. -/
theorem distinct (h : Gains P pos cond es count front grown) (hfront : front.list.Distinct) :
    grown.list.Distinct := by
  have hnew : ∀ e ∈ P.stops ((P.passing pos cond).arrivals front.list.seen es),
      e ∈ (P.passing pos cond).arrivals front.list.seen es ∧ (P.instr e.1).isStop = true :=
    fun e he => List.mem_filter.mp he
  refine ⟨?_, fun e he => ?_, fun e he => ?_⟩
  · rw [h.view, List.map_append]
    refine List.Nodup.append hfront.nodup ?_ fun pc hold hadded => ?_
    · refine (Graph.nodup_arrivals (P.passing pos cond) front.list.seen es).sublist ?_
      exact List.filter_sublist.map Prod.fst
    · obtain ⟨e, he, rfl⟩ := List.mem_map.mp hold
      obtain ⟨e', he', heq⟩ := List.mem_map.mp hadded
      refine Graph.notMem_seen_of_arrival e' (hnew e' he').1 ?_
      rw [heq]
      exact hfront.marked e he
  · rw [h.view] at he
    rw [h.seen]
    rcases List.mem_append.mp he with he | he
    · exact Finset.mem_union_left _ (hfront.marked e he)
    · exact Finset.mem_union_right _ (Graph.mem_nodes_of_mem (hnew e he).1)
  · rw [h.view] at he
    rcases List.mem_append.mp he with he | he
    · exact hfront.waits e he
    · exact (hnew e he).2

end Front.Gains

/-! ## Sweeps -/

namespace Moment

/-- No more threads are taken up than there are. -/
theorem takenUp_le_length (m : Moment) (es : List (Fin P.size × Slots)) (v : Verdict) :
    m.takenUp P es v ≤ es.length := by
  induction es generalizing v with
  | nil => exact le_rfl
  | cons e es ih =>
    obtain ⟨pc, slots⟩ := e
    rw [List.length_cons]
    by_cases hacc : P.instr pc = .accept
    · cases hab : m.abandons v slots with
      | true =>
        rw [takenUp_of_abandons hab]
        exact Nat.succ_le_succ (ih v)
      | false =>
        rw [takenUp_accept hab hacc]
        split
        · split
          · omega
          · exact Nat.succ_le_succ (ih _)
        · exact Nat.succ_le_succ (ih v)
    · rw [takenUp_of_ne_accept hacc]
      exact Nat.succ_le_succ (ih v)

/-- Without a symbol nothing is handed over. -/
theorem settle_fst_of_no_symbol {m : Moment} (h : m.symbol = none)
    (es : List (Fin P.size × Slots)) (v : Verdict) : (m.settle P es v).1 = [] := by
  induction es generalizing v with
  | nil => rfl
  | cons e es ih =>
    obtain ⟨pc, slots⟩ := e
    by_cases hacc : P.instr pc = .accept
    · cases hab : m.abandons v slots with
      | true =>
        rw [settle_of_abandons hab]
        exact ih v
      | false =>
        rw [settle_accept hab hacc]
        split
        · split
          · rfl
          · exact ih _
        · exact ih v
    · obtain ⟨handed, hsettle, hhanded⟩ := settle_of_ne_accept hacc m slots es v
      have hnone : handed = [] := by
        refine List.eq_nil_iff_forall_not_mem.mpr fun e he => ?_
        obtain ⟨-, cls, -, hany⟩ := hhanded e he
        rw [h] at hany
        cases hany
      rw [hsettle, hnone]
      exact ih v

end Moment

/-! ## Searches -/

namespace Search

variable {q : Query} {s : Search P.size} {i : q.input.text.Offset} {bound : Nat}

/-- The search stands at the offset `i`, and the bound leaves room for what it has counted and for
what is still to come: visits to addresses that have not been marked, a thread for each address, and
twice as much as that for each symbol. -/
structure Within (q : Query) (s : Search P.size) (i : q.input.text.Offset) (bound : Nat) :
    Prop where
  pos : s.pos = i
  next : s.space.next = RunList.empty P.size
  distinct : s.space.current.Distinct
  work : s.space.work + (P.size - s.space.current.seen.card) + P.size +
    2 * P.size * (q.input.text.symbolsFrom i).length ≤ bound

/-- Where reading leads there is no more to come. -/
theorem Within.aim (h : Within q s i bound) {aimed : Search P.size} (haim : s.aim q = some aimed)
    {k : q.input.text.Offset} (hpos : aimed.pos = k) (hto : q.input.text.ReadsTo i k) :
    Within q aimed k bound := by
  have hspace := space_of_aim haim
  refine ⟨hpos, by rw [hspace, h.next], hspace ▸ h.distinct, ?_⟩
  have hfewer := Nat.mul_le_mul_left (2 * P.size) hto.length_symbolsFrom_le
  have hwork := h.work
  rw [hspace]
  omega

/-- A new thread visits addresses that have not been marked. -/
theorem Within.seed (h : Within q s i bound) : Within q (s.seed q) i bound := by
  by_cases hmay : s.space.verdict.found = false ∧ q.mayStart s.pos = true
  · obtain ⟨b, pool, hb⟩ : ∃ b pool, s.space.pool.take = (b, pool) := ⟨_, _, rfl⟩
    have hgains := Front.gains_explore (P := P) ⟨s.space.current, pool, s.space.work⟩ s.pos
      (q.input.text.context s.pos) P.start (b.startAt s.pos)
    have hwork := h.work
    have hvisits := hgains.work_add_card
    have hall := RunList.card_seen_le s.space.current
    have hall' := RunList.card_seen_le
      ((Front.explore ⟨s.space.current, pool, s.space.work⟩ s.pos
        (q.input.text.context s.pos) P.start (b.startAt s.pos)).list)
    rw [Search.seed, if_pos hmay]
    simp only [hb]
    refine ⟨h.pos, h.next, hgains.distinct h.distinct, ?_⟩
    dsimp only at hvisits ⊢
    omega
  · rw [seed_of_not_may hmay]
    exact h

/-- **One sweep** takes up no more threads than addresses have been marked, and marks new addresses
for the next offset, if there is one. -/
theorem Within.sweep (h : Within q s i bound) :
    ∃ space, s.sweep q = .ok space ∧ space.work ≤ bound ∧
      ∀ r j, q.input.text.read? i = some (r, j) → ∀ steps,
        Within q ⟨j, steps, { space with current := space.next, next := space.current }⟩ j
          bound := by
  have hstop : ∀ t ∈ s.space.current.threads.toList, (P.instr t.pc).isStop = true :=
    fun t ht => h.distinct.waits _ (List.mem_map.mpr ⟨t, ht, rfl⟩)
  obtain ⟨swept, hrun, hcomes⟩ := Sweep.run_eq (s.moment q) s.space.current.threads.toList
    ⟨s.space.next, s.space.pool, s.space.work⟩ s.space.verdict hstop
  have hviewed : Sweep.viewed s.space.current.threads.toList = s.space.current.view := rfl
  rw [hviewed] at hcomes
  have hfront : (⟨s.space.next, s.space.pool, s.space.work⟩ : Front P.size).list =
      RunList.empty P.size := h.next
  have hdistinct : swept.front.list.Distinct :=
    hcomes.gains.distinct (hfront ▸ RunList.distinct_empty P)
  -- the work of the sweep, and what it is at most
  have hvisits := hcomes.gains.work_add_card
  rw [hfront, RunList.seen_empty, Finset.card_empty] at hvisits
  dsimp only at hvisits
  have htaken := (s.moment q).takenUp_le_length s.space.current.view s.space.verdict
  have hthreads := h.distinct.length_view_le
  have hmarked := RunList.card_seen_le s.space.current
  have hmarked' := RunList.card_seen_le swept.front.list
  have hwork := h.work
  have hgoes : ∀ r j, q.input.text.read? i = some (r, j) →
      swept.front.work + (P.size - swept.front.list.seen.card) + P.size +
        2 * P.size * (q.input.text.symbolsFrom j).length ≤ bound := by
    intro r j hread
    rw [Text.symbolsFrom_of_read hread, List.length_cons, Nat.mul_succ] at hwork
    omega
  refine ⟨_, sweep_of_run hrun, ?_,
    fun r j hread steps => ⟨rfl, rfl, hdistinct, hgoes r j hread⟩⟩
  show swept.front.work ≤ bound
  cases hread : q.input.text.read? i with
  | some found =>
    have hbehind := hgoes found.1 found.2 hread
    omega
  | none =>
    -- at the end of the text nothing is handed over
    have hsymbol : (s.moment q).symbol = none := by
      show q.input.text.symbolAt s.pos = none
      rw [h.pos]
      exact Text.symbolAt_of_read?_eq_none hread
    have hends := hcomes.work
    rw [Moment.settle_fst_of_no_symbol hsymbol, Graph.arrivals_nil, List.length_nil] at hends
    dsimp only at hends
    omega

/-- **Whatever is done at an offset** stays within the bound. -/
theorem keeps_within (q : Query) (bound : Nat) :
    Keeps q (fun (s : Search P.size) i => Within q s i bound) fun space => space.work ≤ bound where
  pos _ _ h := h.pos
  rest s i h := by
    have hwork := h.work
    omega
  aim _ _ _ h haim _ hpos hto := h.aim haim hpos hto
  seed _ _ h := h.seed
  sweep _ _ h := h.sweep

end Search

/-! ## Runs of a machine -/

namespace Machine

/-- At the start of a run nothing has been counted. -/
theorem Idle.within {m : Machine P} (h : m.Idle) (q : Query) (i : q.input.text.Offset) :
    Search.Within q { pos := i, steps := 0, space := m.space.reset m.width } i
      (2 * P.size * ((q.input.text.symbolsFrom i).length + 1)) where
  pos := rfl
  next := h.next
  distinct := by
    show m.space.current.Distinct
    rw [h.current]
    exact RunList.distinct_empty P
  work := by
    have hseen : (m.space.reset m.width).current.seen = ∅ := by
      show m.space.current.seen = ∅
      rw [h.current, RunList.seen_empty]
    have hwork : (m.space.reset m.width).work = 0 := rfl
    rw [hseen, hwork, Finset.card_empty, Nat.mul_succ]
    omega

/-- **The work of a run is linear** in the length of the text, whatever the program, which calls
came before, what is asked, and however the run ends: it is at most twice the size of the program
for each symbol from where the run begins, and once more. There are no more symbols than the text is
long from there. -/
theorem work_tryMatch_le {m : Machine P} (h : m.Reachable) (env : Environment) (input : Input)
    (i : input.text.Offset) (anchor : Anchor) :
    (m.tryMatch env input i anchor).2.work ≤
        2 * P.size * ((input.text.symbolsFrom i).length + 1) ∧
      (input.text.symbolsFrom i).length ≤ input.text.endPos - i := by
  refine ⟨?_, Text.length_symbolsFrom_le i⟩
  rcases m.tryMatch_cases env input i anchor with hno | ⟨entry, hrun⟩
  · rw [hno]
    exact Nat.zero_le _
  · obtain ⟨space, hend, hwork⟩ :=
      (Search.keeps_within _ _).run (h.idle.within (m.query env input anchor entry) i)
    rw [hrun]
    rcases hend with hend | hend <;> rw [hend] <;> exact hwork

/-- A program with two loops that read the same letter, which may take no time at all, on a text
that begins in the middle of a character. -/
theorem work_tryMatch_le_letters :
    let P : Program := ⟨5, #v[.fork [1, 4, 2], .consume (.single 0x61) 0, .fork [3, 4],
      .consume (.single 0x61) 2, .accept], 0⟩
    let input : Input := { text := .utf8 #[0x80, 0x61, 0x61] }
    let i : input.text.Offset := 1
    let m := ((new P .leftmostLongest).track 0).setLimit (some 0)
    m.Reachable ∧
      (m.tryMatch {} input i .unanchored).2.work ≤
          2 * P.size * ((input.text.symbolsFrom i).length + 1) ∧
        (input.text.symbolsFrom i).length ≤ input.text.endPos - i := by
  intro P input i m
  have h : m.Reachable := .setLimit (.track (.new .leftmostLongest) 0) (some 0)
  exact ⟨h, work_tryMatch_le h {} input i .unanchored⟩

end Machine

end Lockstep
