import Lockstep.Proofs.Skipping
import Lockstep.Proofs.Starts

/-!
# A search agrees with a depth-first search

All threads of a search share their marks, later starts lose to earlier ones, and a match may be
found before another one that starts further left. In the end the search has found the match that a
depth-first search from one offset after the other is to find.

- `pick_matchesFrom`: what the matches behind some entries come to, given by one sweep and by what
  it hands over.
- `outcome_eq_pick`: the outcome, as a choice among the matches of a depth-first search.
- `Machine.tryMatch_eq_reference`: the answer of a machine.
-/

namespace Lockstep

/-! ## One thread after the other -/

namespace Moment

variable {P : Program} {task : Task} {i : task.text.Offset} {pc : Fin P.size} {slots : Slots}
  {v : Verdict}

/-- A thread that is no match hands over what lies behind it. -/
theorem settle_eq_of_ne_accept (h : P.instr pc ≠ .accept)
    (hab : (task.moment i).abandons v slots = false) (rest : List (Fin P.size × Slots)) :
    ∃ handed, P.handOver i handed = (P.layer task.text i).pushOut pc slots ∧
      (task.moment i).settle P ((pc, slots) :: rest) v =
        (handed ++ ((task.moment i).settle P rest v).1, ((task.moment i).settle P rest v).2) := by
  cases hi : P.instr pc with
  | accept => exact absurd hi h
  | consume cls next =>
    rw [settle_consume hab hi, Program.pushOut_of_consume hi]
    by_cases hread : (task.moment i).symbol.any cls.contains = true
    · rw [if_pos hread, if_pos hread]
      exact ⟨[(next, slots)], rfl, rfl⟩
    · rw [if_neg hread, if_neg hread]
      exact ⟨[], Program.handOver_nil i, rfl⟩
  | fork | save | assert | jump | fail =>
    refine ⟨[], ?_, settle_of_not_isStop (by rw [hi]; rfl)⟩
    rw [Program.handOver_nil, Program.pushOut_of_ne_consume fun cls next hcls => ?_]
    rw [hi] at hcls
    cases hcls

theorem abandons_iff {m : Moment} (hkind : m.kind = .leftmostLongest) (hwidth : 0 < m.width) :
    m.abandons v slots = true ↔
      v.found = true ∧ Verdict.offsetLt v.slots.start? slots.start? = true := by
  simp only [abandons, hkind, hwidth, decide_true, Bool.true_and, Bool.and_true, Bool.and_eq_true]
  exact Iff.rfl

theorem judge_eq_take (hkind : task.kind = .leftmostFirst) (hwidth : 0 < task.width) :
    (task.moment i).judge v slots = v.take (some (slots.setIfInBounds 1 (some (i : Nat)))) :=
  if_pos ⟨hwidth, .inl hkind⟩

theorem judge_eq_improve (hkind : task.kind = .leftmostLongest) (hwidth : 0 < task.width) :
    (task.moment i).judge v slots = v.improve (i, slots.setIfInBounds 1 (some (i : Nat))) := by
  have hbeaten : v.isBeatenBy (slots.setIfInBounds 1 (some (i : Nat))) i =
      v.isBeatenBy slots (task.moment i).pos := by
    unfold Verdict.isBeatenBy
    rw [Slots.start?_setIfInBounds (by decide)]
    rfl
  have hmoment : (task.moment i).kind = .leftmostLongest := hkind
  by_cases h : v.found = false ∨ v.isBeatenBy slots (task.moment i).pos = true
  · rw [Verdict.improve_of_beaten (by rw [hbeaten]; exact h), judge,
      if_pos ⟨hwidth, .inr h⟩]
    rfl
  · have hfound : v.found = true := by
      by_contra hno
      exact h (.inl (by simpa using hno))
    rw [Verdict.improve_of_not_beaten (by rw [hbeaten]; exact h), judge, if_neg]
    · obtain ⟨found, slots'⟩ := v
      cases hfound
      rfl
    · rintro ⟨-, hfirst | hbetter⟩
      · rw [hmoment] at hfirst
        cases hfirst
      · exact h hbetter

end Moment

namespace Program

variable {P : Program} {task : Task} {i : task.text.Offset}

/-- The match at a node, if one ends there, and those behind it. -/
theorem matchesOf_weave_cons {pc : Fin P.size} {slots : Slots}
    (seen : Finset (Fin P.size × task.text.Offset)) (rest : List (Fin P.size × Slots)) :
    let beyond := (P.walk task.text).arrivals seen ((P.layer task.text i).pushOut pc slots)
    P.matchesOf task ((P.layer task.text i).weave seen ((pc, slots) :: rest)) =
      P.matchesOf task [((pc, i), slots)] ++ (P.matchesOf task beyond ++
        P.matchesOf task ((P.layer task.text i).weave (seen ∪ Graph.nodes beyond) rest)) := by
  intro beyond
  rw [Graph.Layer.weave_cons, ← matchesOf_append, ← matchesOf_append]
  rfl

/-! ## The first match -/

/-- One sweep decides as a depth-first search would, if the first match counts: what is handed over
comes before the match, and everything behind it is dropped. -/
theorem take_head?_weave (hkind : task.kind = .leftmostFirst) (hwidth : 0 < task.width)
    (seen : Finset (Fin P.size × task.text.Offset)) (arrived : List (Fin P.size × Slots))
    (v : Verdict) :
    let settled := (task.moment i).settle P arrived v
    task.pick v (P.matchesOf task ((P.layer task.text i).weave seen arrived)) =
      task.pick settled.2
        (P.matchesOf task ((P.walk task.text).arrivals seen (P.handOver i settled.1))) := by
  have hmoment : (task.moment i).kind = .leftmostFirst := hkind
  induction arrived generalizing seen with
  | nil => simp
  | cons e rest ih =>
    obtain ⟨pc, slots⟩ := e
    have hab : (task.moment i).abandons v slots = false := by
      simp [Moment.abandons, hmoment]
    simp only
    rw [matchesOf_weave_cons]
    by_cases hacc : P.instr pc = .accept
    · have hout : (P.layer task.text i).pushOut pc slots = [] :=
        pushOut_of_ne_consume (fun cls next h => by rw [hacc] at h; cases h) slots
      rw [hout, Graph.arrivals_nil, matchesOf_nil, List.nil_append, Graph.nodes_nil,
        Finset.union_empty, Moment.settle_accept hab hacc]
      cases hend : (task.moment i).mayEnd with
      | true =>
        rw [matchesOf_cons_of_ends (by rw [ends_eq_mayEnd_of_accept hacc, hend]), if_pos rfl,
          hmoment, Task.pick_first hkind]
        simp only [handOver_nil, Graph.arrivals_nil, matchesOf_nil, Task.pick_nil]
        rw [Moment.judge_eq_take hkind hwidth]
        rfl
      | false =>
        rw [matchesOf_cons_of_not_ends (by rw [ends_eq_mayEnd_of_accept hacc, hend]),
          if_neg (by simp)]
        exact ih seen
    · obtain ⟨handed, hhanded, hsettle⟩ := Moment.settle_eq_of_ne_accept hacc hab rest
      rw [matchesOf_cons_of_not_ends (ends_eq_false_of_ne_accept hacc i), hsettle, handOver_append,
        hhanded, Graph.arrivals_append, matchesOf_append, matchesOf_nil, List.nil_append]
      -- the first match behind the thread decides, or else the threads behind it do
      cases hbeyond : P.matchesOf task
          ((P.walk task.text).arrivals seen ((P.layer task.text i).pushOut pc slots)) with
      | nil => exact ih _
      | cons m ms =>
        rw [Task.pick_first hkind, Task.pick_first hkind]
        rfl

/-! ## The longest match -/

/-- What all threads of an offset together lead to beyond it. -/
def handOverAll (P : Program) {text : Text} (i : text.Offset)
    (arrived : List (Fin P.size × Slots)) :
    List ((Fin P.size × text.Offset) × Slots) :=
  arrived.flatMap fun e => (P.layer text i).pushOut e.1 e.2

theorem label_of_mem_handOverAll (hspare : P.SparesMatch) {arrived : List (Fin P.size × Slots)}
    {e : (Fin P.size × task.text.Offset) × Slots} (he : e ∈ P.handOverAll i arrived) :
    i < e.1.2 ∧ ∃ e' ∈ arrived, e.2.start? = e'.2.start? ∧ e.2.size = e'.2.size := by
  obtain ⟨e', he', hmem⟩ := List.mem_flatMap.mp he
  refine ⟨(P.layer task.text i).beyond_of_pushOut hmem, e', he', ?_⟩
  obtain ⟨w, -, rfl⟩ := List.mem_map.mp hmem
  exact ⟨start?_carry hspare i (task.text.context i) e'.1 e'.2,
    size_carry i (task.text.context i) e'.1 e'.2⟩

/-- The matches at an offset come before or after those beyond it; it makes no difference. -/
theorem foldl_improve_weave (hwidth : 2 ≤ task.width)
    (seen : Finset (Fin P.size × task.text.Offset)) {arrived : List (Fin P.size × Slots)}
    (hsize : ∀ e ∈ arrived, e.2.size = task.width) (v : Verdict) :
    (P.matchesOf task ((P.layer task.text i).weave seen arrived)).foldl Verdict.improve v =
      (P.matchesOf task ((P.walk task.text).arrivals seen (P.handOverAll i arrived))).foldl
        Verdict.improve
        ((P.matchesOf task (arrived.map (P.layer task.text i).lift)).foldl Verdict.improve v) := by
  induction arrived generalizing seen v with
  | nil => simp [handOverAll]
  | cons e rest ih =>
    obtain ⟨pc, slots⟩ := e
    have hrest : ∀ e ∈ rest, e.2.size = task.width :=
      fun e he => hsize e (List.mem_cons_of_mem _ he)
    have hhere : P.matchesOf task (((pc, slots) :: rest).map (P.layer task.text i).lift) =
        P.matchesOf task [((pc, i), slots)] ++
          P.matchesOf task (rest.map (P.layer task.text i).lift) := by
      rw [← matchesOf_append]
      rfl
    have hall : P.handOverAll i ((pc, slots) :: rest) =
        (P.layer task.text i).pushOut pc slots ++ P.handOverAll i rest := rfl
    rw [matchesOf_weave_cons, hhere, hall, Graph.arrivals_append, matchesOf_append]
    simp only [List.foldl_append]
    rw [ih _ hrest]
    congr 1
    -- the matches at the offset of the threads behind, and those beyond this thread
    refine Verdict.foldl_foldl_improve_comm _ ?_ ?_ ?_
    · refine stop?_of_mem_matchesOf hwidth fun e he => ?_
      obtain ⟨w, -, rfl⟩ := List.mem_map.mp he
      exact (size_carry i (task.text.context i) pc slots).trans (hsize _ (List.mem_cons_self ..))
    · intro m hm
      obtain ⟨e, he, -, rfl⟩ := mem_matchesOf.mp hm
      obtain ⟨e', he', rfl⟩ := List.mem_map.mp he
      have hsize' : e'.2.size = task.width := hrest e' he'
      exact Slots.stop?_setIfInBounds_one (by show 1 < e'.2.size; omega) _
    · intro m hm m' hm'
      obtain ⟨e, he, -, rfl⟩ := mem_matchesOf.mp hm
      obtain ⟨e', he', -, rfl⟩ := mem_matchesOf.mp hm'
      obtain ⟨e'', -, rfl⟩ := List.mem_map.mp he'
      have hbeyond : i < e.1.2 := (P.layer task.text i).beyond_of_arrival
        (fun e he => (P.layer task.text i).beyond_of_pushOut he) _ (Graph.mem_nodes_of_mem he)
      exact ne_of_gt hbeyond

/-- Threads that start further right than the match that is known are given up. -/
theorem settle_longest_of_later (hspare : P.SparesMatch) (hkind : task.kind = .leftmostLongest)
    (hwidth : 0 < task.width) {arrived : List (Fin P.size × Slots)} {v : Verdict}
    (hfound : v.found = true)
    (hlater : ∀ e ∈ arrived, Verdict.offsetLt v.slots.start? e.2.start? = true) :
    (task.moment i).settle P arrived v = ([], v) ∧
      (P.matchesOf task (arrived.map (P.layer task.text i).lift)).foldl Verdict.improve v = v ∧
      ∀ e ∈ P.handOverAll i arrived, Verdict.offsetLt v.slots.start? e.2.start? = true := by
  refine ⟨?_, ?_, fun e he => ?_⟩
  · exact Moment.settle_of_forall_abandons fun e he =>
      (Moment.abandons_iff hkind hwidth).mpr ⟨hfound, hlater e he⟩
  · refine Verdict.foldl_improve_of_later hfound fun m hm => ?_
    obtain ⟨e, he, -, rfl⟩ := mem_matchesOf.mp hm
    obtain ⟨e', he', rfl⟩ := List.mem_map.mp he
    rw [Slots.start?_setIfInBounds (by decide)]
    exact hlater e' he'
  · obtain ⟨-, e', he', hstart, -⟩ := label_of_mem_handOverAll hspare he
    rw [hstart]
    exact hlater e' he'

/-- One sweep keeps the best match at its offset, and hands over what could still be better. -/
theorem settle_longest (hspare : P.SparesMatch) (hkind : task.kind = .leftmostLongest)
    (hwidth : 2 ≤ task.width) {arrived : List (Fin P.size × Slots)}
    (hsorted : (arrived.map (·.2)).Pairwise fun a b => Verdict.offsetLt b.start? a.start? = false)
    (v : Verdict) :
    let settled := (task.moment i).settle P arrived v
    settled.2 =
        (P.matchesOf task (arrived.map (P.layer task.text i).lift)).foldl Verdict.improve v ∧
      ∃ dropped, P.handOverAll i arrived = P.handOver i settled.1 ++ dropped ∧
        ∀ e ∈ dropped, settled.2.found = true ∧
          Verdict.offsetLt settled.2.slots.start? e.2.start? = true := by
  have hmoment : (task.moment i).kind = .leftmostLongest := hkind
  have hpositive : 0 < (task.moment i).width := by
    show 0 < task.width
    omega
  induction arrived generalizing v with
  | nil => exact ⟨rfl, [], by simp [handOverAll], by simp⟩
  | cons e rest ih =>
    obtain ⟨pc, slots⟩ := e
    obtain ⟨hhead, htail⟩ := List.pairwise_cons.mp hsorted
    have hall : P.handOverAll i ((pc, slots) :: rest) =
        (P.layer task.text i).pushOut pc slots ++ P.handOverAll i rest := rfl
    have hhere : P.matchesOf task (((pc, slots) :: rest).map (P.layer task.text i).lift) =
        P.matchesOf task [((pc, i), slots)] ++
          P.matchesOf task (rest.map (P.layer task.text i).lift) := by
      rw [← matchesOf_append]
      rfl
    have hnone : P.instr pc = .accept → (P.layer task.text i).pushOut pc slots = [] := fun hacc =>
      pushOut_of_ne_consume (fun cls next h => by rw [hacc] at h; cases h) slots
    cases hab : (task.moment i).abandons v slots with
    | true =>
      obtain ⟨hfound, hlt⟩ := (Moment.abandons_iff hmoment hpositive).mp hab
      -- all threads behind start as far right
      have hlater : ∀ e ∈ (pc, slots) :: rest,
          Verdict.offsetLt v.slots.start? e.2.start? = true := by
        intro e he
        rcases List.mem_cons.mp he with rfl | he
        · exact hlt
        · exact Verdict.offsetLt_of_lt_of_not_lt hlt (hhead _ (List.mem_map_of_mem he))
      obtain ⟨hsettle, hsame, hdropped⟩ :=
        settle_longest_of_later (i := i) hspare hkind (by omega) hfound hlater
      rw [hsettle, hsame]
      exact ⟨rfl, _, by simp, fun e he => ⟨hfound, hdropped e he⟩⟩
    | false =>
      by_cases hacc : P.instr pc = .accept
      · rw [Moment.settle_accept hab hacc, hall, hnone hacc, List.nil_append, hhere]
        cases hend : (task.moment i).mayEnd with
        | true =>
          rw [matchesOf_cons_of_ends (by rw [ends_eq_mayEnd_of_accept hacc, hend]), if_pos rfl,
            hmoment, matchesOf_nil, List.singleton_append, List.foldl_cons]
          simp only
          rw [Moment.judge_eq_improve hkind (by omega)]
          exact ih htail _
        | false =>
          rw [matchesOf_cons_of_not_ends (by rw [ends_eq_mayEnd_of_accept hacc, hend]),
            if_neg (by simp), matchesOf_nil, List.nil_append]
          exact ih htail v
      · obtain ⟨handed, hhanded, hsettle⟩ := Moment.settle_eq_of_ne_accept hacc hab rest
        rw [hsettle, hall, hhere, matchesOf_cons_of_not_ends (ends_eq_false_of_ne_accept hacc i),
          matchesOf_nil, List.nil_append]
        obtain ⟨hverdict, dropped, hdropped, hlater⟩ := ih htail v
        refine ⟨hverdict, dropped, ?_, hlater⟩
        rw [handOver_append, hhanded, hdropped, List.append_assoc]

/-! ## One offset -/

/-- **What the matches behind some entries come to** is known from the verdict after one sweep and
from the matches behind what the sweep hands over. -/
theorem pick_matchesFrom (hspare : P.SparesMatch) (hwidth : 2 ≤ task.width) {bound : Nat}
    {es : List (Fin P.size × Slots)} (hes : Orderly task.width bound (es.map (·.2)))
    (v : Verdict) :
    let settled := (task.moment i).settle P ((P.passingAt task.text i).arrivals ∅ es) v
    task.pick v (P.matchesFrom task i es) = task.pick settled.2
      (P.matchesOf task ((P.walk task.text).arrivals ∅ (P.handOver i settled.1))) := by
  intro settled
  have harrived : Orderly task.width bound (((P.passingAt task.text i).arrivals ∅ es).map (·.2)) :=
    orderly_arrivals hspare hes i (task.text.context i)
  rw [matchesFrom_eq]
  cases hkind : task.kind with
  | leftmostFirst => exact take_head?_weave hkind (by omega) ∅ _ v
  | leftmostLongest =>
    have hsize : ∀ e ∈ (P.passingAt task.text i).arrivals ∅ es, e.2.size = task.width :=
      fun e he => harrived.size _ (List.mem_map_of_mem he)
    obtain ⟨hverdict, dropped, hdropped, hlater⟩ :=
      settle_longest (i := i) hspare hkind hwidth harrived.sorted v
    rw [Task.pick_longest hkind, Task.pick_longest hkind, foldl_improve_weave hwidth ∅ hsize,
      ← hverdict]
    have hall : P.handOverAll i ((P.passingAt task.text i).arrivals ∅ es) =
        P.handOver i settled.1 ++ dropped := hdropped
    rw [hall, Graph.arrivals_append, matchesOf_append, List.foldl_append]
    -- what was given up starts further right than the match that is known
    cases dropped with
    | nil =>
      rw [Graph.arrivals_nil, matchesOf_nil]
      rfl
    | cons e dropped =>
      have hfound : settled.2.found = true := (hlater e (List.mem_cons_self ..)).1
      refine Verdict.foldl_improve_of_later ?_ fun m hm => ?_
      · exact (Verdict.found_foldl_improve _ _).mpr (.inl hfound)
      · refine start?_of_mem_matchesOf hspare (q := fun start => Verdict.offsetLt
          ((P.matchesOf task ((P.walk task.text).arrivals ∅ (P.handOver i settled.1))).foldl
            Verdict.improve settled.2).slots.start? start = true) (fun e' he' => ?_) m hm
        exact Verdict.offsetLt_foldl_improve hfound (hlater e' he').2 _

/-! ## All offsets -/

/-- The matches that start at an offset start there, and have their ends written. -/
theorem mem_explored (hspare : P.SparesMatch) (hwidth : 2 ≤ task.width) :
    ∀ m ∈ P.explored task i, m.2.start? = some (i : Nat) ∧ m.2.stop? = some (m.1 : Nat) := by
  intro m hm
  constructor
  · refine start?_of_mem_matchesOf hspare (q := fun start => start = some (i : Nat)) ?_ m hm
    intro e he
    rw [List.mem_singleton.mp he]
    exact Slots.start?_startAt (by omega) i
  · refine stop?_of_mem_matchesOf hwidth ?_ m hm
    intro e he
    rw [List.mem_singleton.mp he]
    exact Slots.size_startAt task.width i

/-- A new thread matters only if the entries that are there lead to no match and none has been
found. -/
theorem pick_matchesFrom_seeds (hspare : P.SparesMatch) (hwidth : 2 ≤ task.width)
    {es : List (Fin P.size × Slots)} (hes : Orderly task.width i (es.map (·.2))) (v : Verdict) :
    let w := task.pick v (P.matchesFrom task i es)
    task.pick v (P.matchesFrom task i (es ++ task.seeds P i v)) =
      if w.found then w
      else if task.mayStart i then w.take (task.choose (P.explored task i)) else w := by
  intro w
  by_cases hseed : v.found = false ∧ task.mayStart i = true
  · have hseeds : task.seeds P i v = [(P.start, Slots.startAt task.width i)] := if_pos hseed
    have hstart : ∀ e ∈ [((P.start, i), Slots.startAt task.width i)],
        e.2.start? = some (i : Nat) := by
      intro e he
      rw [List.mem_singleton.mp he]
      exact Slots.start?_startAt (by omega) i
    rw [hseeds, if_pos hseed.2]
    -- a match behind the entries starts further left, and leaves the new thread no say
    by_cases hnil : P.matchesFrom task i es = []
    · have hw : w = v := by
        show task.pick v (P.matchesFrom task i es) = v
        rw [hnil, Task.pick_nil]
      have hexplored : P.matchesFrom task i (es ++ [(P.start, Slots.startAt task.width i)]) =
          P.explored task i := by
        unfold matchesFrom
        rw [List.map_append, matchesOf_arrivals_append hnil]
        rfl
      rw [hw, hexplored, if_neg (by simp [hseed.1]),
        Task.pick_eq_take_choose hseed.1 (mem_explored hspare hwidth)]
    · have hw : w.found = true := (Task.found_pick v _).mpr (.inr hnil)
      have happend : P.matchesFrom task i (es ++ [(P.start, Slots.startAt task.width i)]) =
          P.matchesFrom task i es ++ P.matchesOf task ((P.walk task.text).arrivals
            (Graph.nodes ((P.walk task.text).arrivals ∅ (es.map (P.layer task.text i).lift)))
            [((P.start, i), Slots.startAt task.width i)]) := by
        unfold matchesFrom
        rw [List.map_append, Graph.arrivals_append, matchesOf_append, Finset.empty_union]
        rfl
      rw [if_pos hw, happend]
      refine Task.pick_append_of_later hseed.1 hnil (s := some (i : Nat)) ?_ ?_
      · refine start?_of_mem_matchesOf hspare
          (q := fun start => Verdict.offsetLt start (some (i : Nat)) = true) ?_
        intro e he
        obtain ⟨e', he', rfl⟩ := List.mem_map.mp he
        exact hes.before _ (List.mem_map_of_mem he')
      · exact start?_of_mem_matchesOf hspare (q := fun start => start = some (i : Nat)) hstart
  · have hseeds : task.seeds P i v = [] := if_neg hseed
    rw [hseeds, List.append_nil]
    cases hw : w.found with
    | true => rw [if_pos rfl]
    | false =>
      have hv : v.found = false := by
        by_contra hfound
        have hw' : w.found = true := (Task.found_pick v _).mpr (.inl (by simpa using hfound))
        rw [hw] at hw'
        cases hw'
      rw [if_neg (by simp), if_neg fun hstart => hseed ⟨hv, hstart⟩]

/-- The threads of an offset stay orderly with a new one behind them. -/
theorem orderly_seeds {es : List (Fin P.size × Slots)} (hwidth : 2 ≤ task.width)
    (hes : Orderly task.width i (es.map (·.2))) (v : Verdict) :
    Orderly task.width (i + 1) ((es ++ task.seeds P i v).map (·.2)) := by
  unfold Task.seeds
  split
  · rw [List.map_append]
    exact hes.concat (Slots.start?_startAt (by omega) i) (Slots.size_startAt task.width i)
  · rw [List.append_nil]
    exact hes.mono (Nat.le_succ i)

/-- The reference tries one offset, and then the next one. -/
theorem take_reference {w : Verdict} (hw : w.found = false) (i : task.text.Offset) :
    let u := if task.mayStart i then w.take (task.choose (P.explored task i)) else w
    w.take (P.reference task i) = if u.found then u else match task.text.read? i with
      | none => u
      | some (_, j) => u.take (P.reference task j) := by
  intro u
  -- a match from here decides, and otherwise the next offset is tried
  by_cases hchosen : task.mayStart i = true ∧ task.choose (P.explored task i) ≠ none
  · obtain ⟨slots, hslots⟩ := Option.ne_none_iff_exists'.mp hchosen.2
    have hu : u = ⟨true, slots⟩ := by
      show (if task.mayStart i then w.take (task.choose (P.explored task i)) else w) = _
      rw [if_pos hchosen.1, hslots, Verdict.take_some]
    rw [reference_of_choose hchosen.1 hslots, hu, Verdict.take_some, if_pos rfl]
  · have hnone : task.mayStart i = true → task.choose (P.explored task i) = none := by
      intro hstart
      by_contra hne
      exact hchosen ⟨hstart, hne⟩
    have hu : u = w := by
      show (if task.mayStart i then w.take (task.choose (P.explored task i)) else w) = _
      split
      · next hstart => rw [hnone hstart, Verdict.take_none]
      · rfl
    rw [reference_of_none hnone, hu, if_neg (by simp [hw])]
    cases task.text.read? i with
    | none => rfl
    | some found => rfl

/-- **The outcome** is the match that a depth-first search finds: one behind the entries, or, if
there is none and none has been found before, the one that is wanted from this offset on. -/
theorem outcome_eq_pick (hspare : P.SparesMatch) (hwidth : 2 ≤ task.width)
    {es : List (Fin P.size × Slots)} (hes : Orderly task.width i (es.map (·.2))) (v : Verdict) :
    let w := task.pick v (P.matchesFrom task i es)
    P.outcome task i es v = if w.found then w else w.take (P.reference task i) := by
  -- by induction from the end of the text: a sweep leads to the next offset
  induction i using Text.offset_induction generalizing es v with
  | step i ih =>
    intro w
    have hseeded := orderly_seeds hwidth hes v
    have hpick := (pick_matchesFrom_seeds hspare hwidth hes v).symm.trans
      (pick_matchesFrom (i := i) hspare hwidth hseeded v)
    cases hread : task.text.read? i with
    | none =>
      rw [matchesOf_handOver_of_end hread, Task.pick_nil] at hpick
      have houtcome := (outcome_of_end hread es v).trans hpick.symm
      by_cases hw : w.found = true
      · rw [houtcome, if_pos hw, if_pos hw]
      · have href := take_reference (P := P) (w := w) (by simpa using hw) i
        rw [hread] at href
        rw [houtcome, if_neg hw, if_neg hw, href]
        dsimp only
        rw [ite_self]
    | some found =>
      obtain ⟨r, j⟩ := found
      rw [matchesOf_handOver hread] at hpick
      have hlt : (i : Nat) < j := Text.lt_of_read? hread
      -- what is handed over is in the order of its starts, and starts before the next offset
      have hnext : Orderly task.width j ((P.settledAt task i es v).1.map (·.2)) := by
        have harrived := orderly_arrivals hspare hseeded i (task.text.context i)
        exact (harrived.sublist (Moment.labels_settle_sublist _ _ _)).mono hlt
      have houtcome := ih j hlt hnext (P.settledAt task i es v).2
      rw [outcome_of_read hread, if_neg (by omega), houtcome]
      by_cases hw : w.found = true
      · have hsame : task.pick (P.settledAt task i es v).2
            (P.matchesFrom task j (P.settledAt task i es v).1) = w := hpick.symm.trans (if_pos hw)
        rw [hsame, if_pos hw, if_pos hw]
      · have hsame : task.pick (P.settledAt task i es v).2
            (P.matchesFrom task j (P.settledAt task i es v).1) =
              if task.mayStart i then w.take (task.choose (P.explored task i)) else w :=
          hpick.symm.trans (if_neg hw)
        have href := take_reference (P := P) (w := w) (by simpa using hw) i
        rw [hread] at href
        rw [hsame, if_neg hw, href]

/-- With nothing found so far, the outcome is what a depth-first search finds. -/
theorem outcome_eq_reference (task : Task) (hspare : P.SparesMatch) (hwidth : 2 ≤ task.width)
    (i : task.text.Offset) : P.outcome task i [] (Verdict.pending task.width) =
      (Verdict.pending task.width).take (P.reference task i) := by
  have horderly : Orderly task.width i (([] : List (Fin P.size × Slots)).map (·.2)) :=
    Orderly.nil task.width i
  have hpick := outcome_eq_pick hspare hwidth horderly (Verdict.pending task.width)
  have hnone : task.pick (Verdict.pending task.width) (P.matchesFrom task i []) =
      Verdict.pending task.width := by
    unfold matchesFrom
    rw [List.map_nil, Graph.arrivals_nil, matchesOf_nil, Task.pick_nil]
  rw [hnone] at hpick
  exact hpick

end Program

/-! ## What a machine answers -/

namespace Machine

variable {P : Program}

/-- **A machine finds the match that a depth-first search is to find**, from one offset after the
other, and answers that there is none if there is none. -/
theorem tryMatch_eq_reference {m : Machine P} (h : m.Reachable) {env : Environment}
    (hlimit : m.timeLimit env = none) (hspare : P.SparesMatch) (hwidth : 2 ≤ m.width)
    (input : Input) (anchor : Anchor) (i : input.text.Offset) :
    let wanted := P.reference (m.task input.text anchor) i
    (m.tryMatch env input i anchor).1 = .ok wanted.isSome ∧
      (m.tryMatch env input i anchor).2.submatches = wanted.getD (Slots.unset m.width) := by
  intro wanted
  obtain ⟨hanswer, hslots⟩ := tryMatch_eq_outcome h hlimit input anchor i (P.skips _ _)
  have houtcome : m.outcome input.text anchor i = (Verdict.pending m.width).take wanted :=
    Program.outcome_eq_reference (m.task input.text anchor) hspare hwidth i
  rw [hanswer, hslots, houtcome, Verdict.found_take_pending, Verdict.submatches_take_pending]
  exact ⟨rfl, rfl⟩

/-- A program with a way that leads back to where it starts without reading: a letter, any number
of times, in a group, or nothing. -/
theorem tryMatch_eq_reference_letters :
    let P : Program :=
      ⟨5, #v[.fork [1, 3, 4], .save 2 2, .consume (.single 0x61) 0, .save 3 0, .accept], 0⟩
    let m := new P .leftmostLongest
    let input : Input := { text := .utf8 #[0xFF, 0x61, 0x61], searchable := false }
    let wanted := P.reference (m.task input.text .unanchored) 0
    m.Reachable ∧ m.timeLimit {} = none ∧ P.SparesMatch ∧ 2 ≤ m.width ∧
      (m.tryMatch {} input 0 .unanchored).1 = .ok wanted.isSome ∧
      (m.tryMatch {} input 0 .unanchored).2.submatches = wanted.getD (Slots.unset m.width) := by
  intro P m input wanted
  have hreach : m.Reachable := .new .leftmostLongest
  have hlimit : m.timeLimit {} = none := rfl
  have hspare : P.SparesMatch := by decide
  have hwidth : 2 ≤ m.width := by decide
  exact ⟨hreach, hlimit, hspare, hwidth,
    tryMatch_eq_reference hreach hlimit hspare hwidth input .unanchored 0⟩

end Machine

end Lockstep
