import Lockstep.Proofs.Layers
import Lockstep.Proofs.Outcome
import Mathlib.Data.Fintype.Prod
import Mathlib.Data.List.MinMax

/-!
# Matches by depth-first search

What a search is to find can be said without threads: from each offset on, one after the other, the
ways through the program and the text are gone depth first, and no pair of an address and an offset
is entered twice. The first offset from where the end of a match is entered decides.

- `Program.explored`: the matches that start at an offset, in the order of such a search.
- `Task.choose`: the one that is wanted.
- `Program.reference`: the match that is wanted from an offset on.
- `Program.layer`: the pairs with one offset, as a layer of all ways.
-/

namespace Lockstep

namespace Program

/-- A match ends at a node. -/
def ends (P : Program) (task : Task) (e : Fin P.size × task.text.Offset) : Bool :=
  decide (P.instr e.1 = .accept) && task.mayEnd e.2

/-- The matches that end at some arrivals, each with the offset where it ends and its slots. -/
def matchesOf (P : Program) (task : Task)
    (es : List ((Fin P.size × task.text.Offset) × Slots)) : List (task.text.Offset × Slots) :=
  es.filterMap fun e =>
    if P.ends task e.1 then some (e.1.2, e.2.setIfInBounds 1 (some e.1.2)) else none

/-- The matches that start at the offset `i`, in the order in which a depth-first search from there
enters their ends. -/
def explored (P : Program) (task : Task) (i : task.text.Offset) :
    List (task.text.Offset × Slots) :=
  P.matchesOf task
    ((P.walk task.text).arrivals ∅ [((P.start, i), Slots.startAt task.width i)])

end Program

/-- The slots of the match that is wanted among those that start at one offset: the first one, or
the first one of those that end furthest right. -/
def Task.choose (task : Task) (found : List (task.text.Offset × Slots)) : Option Slots :=
  match task.kind with
  | .leftmostFirst => found.head?.map (·.2)
  | .leftmostLongest => (found.argmax (·.1)).map (·.2)

/-- The offsets from `i` on where a match may start, in order. -/
def Task.starts (task : Task) (i : task.text.Offset) : List task.text.Offset :=
  (task.text.offsetsFrom i).filter fun i : task.text.Offset => task.mayStart i

theorem Task.choose_eq_none_iff {task : Task} {found : List (task.text.Offset × Slots)} :
    task.choose found = none ↔ found = [] := by
  unfold choose
  cases task.kind with
  | leftmostFirst => simp
  | leftmostLongest => simp [List.argmax_eq_none]

namespace Program

/-- The slots of the match that is wanted from the offset `i` on: offsets are tried one after the
other, as far as matches may start there. -/
def reference (P : Program) (task : Task) (i : task.text.Offset) : Option Slots :=
  match if task.mayStart i then task.choose (P.explored task i) else none with
  | some slots => some slots
  | none =>
    match _h : task.text.read? i with
    | none => none
    | some (_, j) => P.reference task j
termination_by task.text.endPos - i
decreasing_by
  have hlt : (i : Nat) < j := Text.lt_of_read? ‹_›
  omega

variable {P : Program} {task : Task}

theorem reference_of_choose {i : task.text.Offset} (hstart : task.mayStart i = true)
    {slots : Slots} (h : task.choose (P.explored task i) = some slots) :
    P.reference task i = some slots := by
  rw [reference, if_pos hstart, h]

/-- Where no match starts, the next offset is tried. -/
theorem reference_of_none {i : task.text.Offset}
    (h : task.mayStart i = true → task.choose (P.explored task i) = none) :
    P.reference task i = match task.text.read? i with
      | none => none
      | some (_, j) => P.reference task j := by
  have hnone : (if task.mayStart i then task.choose (P.explored task i) else none) = none := by
    split
    · next hstart => exact h hstart
    · rfl
  rw [reference, hnone]
  simp only
  split
  · next hread => rw [hread]
  · next hread => rw [hread]

/-- **The match that is wanted** starts at the first of the offsets from where one is found. -/
theorem reference_eq_findSome? (i : task.text.Offset) : P.reference task i =
    (task.starts i).findSome? fun i => task.choose (P.explored task i) := by
  induction i using Text.offset_induction with
  | step i ih =>
    have hrest : (match task.text.read? i with
        | none => none
        | some (_, j) => P.reference task j) =
        ((task.text.offsetsFrom i).tail.filter fun i : task.text.Offset =>
          task.mayStart i).findSome? fun i => task.choose (P.explored task i) := by
      cases hread : task.text.read? i with
      | none =>
        rw [Text.offsetsFrom_of_end hread]
        rfl
      | some found =>
        obtain ⟨r, j⟩ := found
        rw [Text.offsetsFrom_of_read hread]
        exact ih j (Text.lt_of_read? hread)
    obtain ⟨rest, hfrom⟩ : ∃ rest, task.text.offsetsFrom i = i :: rest := by
      rw [Text.offsetsFrom]
      exact ⟨_, rfl⟩
    rw [hfrom, List.tail_cons] at hrest
    rw [Task.starts, hfrom]
    by_cases hstart : task.mayStart i = true
    · rw [List.filter_cons, if_pos hstart, List.findSome?_cons, ← hrest]
      cases hchosen : task.choose (P.explored task i) with
      | none => exact reference_of_none fun _ => hchosen
      | some slots => exact reference_of_choose hstart hchosen
    · rw [List.filter_cons, if_neg hstart, ← hrest]
      exact reference_of_none fun h => absurd h hstart

/-- **Nothing is found** if no match starts at any of the offsets that are tried. -/
theorem reference_eq_none_iff {pos : task.text.Offset} : P.reference task pos = none ↔
    ∀ i ∈ task.starts pos, P.explored task i = [] := by
  rw [reference_eq_findSome?, List.findSome?_eq_none_iff]
  simp only [Task.choose_eq_none_iff]

/-! ## Matches in a list of arrivals -/

theorem ends_eq_false_of_ne_accept {pc : Fin P.size} (h : P.instr pc ≠ .accept)
    (i : task.text.Offset) : P.ends task (pc, i) = false := by
  simp only [ends, h, decide_false, Bool.false_and]

theorem ends_eq_mayEnd_of_accept {pc : Fin P.size} (h : P.instr pc = .accept)
    (i : task.text.Offset) : P.ends task (pc, i) = (task.moment i).mayEnd := by
  simp only [ends, h, decide_true, Bool.true_and]
  rfl

@[simp] theorem matchesOf_nil : P.matchesOf task [] = [] := rfl

@[simp] theorem matchesOf_append (es es' : List ((Fin P.size × task.text.Offset) × Slots)) :
    P.matchesOf task (es ++ es') = P.matchesOf task es ++ P.matchesOf task es' :=
  List.filterMap_append

theorem matchesOf_cons_of_ends {e : (Fin P.size × task.text.Offset) × Slots}
    (h : P.ends task e.1 = true) (es : List ((Fin P.size × task.text.Offset) × Slots)) :
    P.matchesOf task (e :: es) =
      (e.1.2, e.2.setIfInBounds 1 (some e.1.2)) :: P.matchesOf task es := by
  simp only [matchesOf, List.filterMap_cons, h, if_true]

theorem matchesOf_cons_of_not_ends {e : (Fin P.size × task.text.Offset) × Slots}
    (h : P.ends task e.1 = false) (es : List ((Fin P.size × task.text.Offset) × Slots)) :
    P.matchesOf task (e :: es) = P.matchesOf task es := by
  simp only [matchesOf, List.filterMap_cons, h, Bool.false_eq_true, if_false]

theorem mem_matchesOf {es : List ((Fin P.size × task.text.Offset) × Slots)}
    {m : task.text.Offset × Slots} :
    m ∈ P.matchesOf task es ↔ ∃ e ∈ es, P.ends task e.1 = true ∧
      m = (e.1.2, e.2.setIfInBounds 1 (some e.1.2)) := by
  simp only [matchesOf, List.mem_filterMap]
  constructor
  · rintro ⟨e, he, hm⟩
    split at hm
    · next hends => exact ⟨e, he, hends, (Option.some.inj hm).symm⟩
    · cases hm
  · rintro ⟨e, he, hends, rfl⟩
    exact ⟨e, he, by rw [if_pos hends]⟩

theorem matchesOf_eq_nil_iff {es : List ((Fin P.size × task.text.Offset) × Slots)} :
    P.matchesOf task es = [] ↔ ∀ e ∈ es, P.ends task e.1 = false := by
  rw [List.eq_nil_iff_forall_not_mem]
  constructor
  · intro h e he
    by_contra hends
    exact h _ (mem_matchesOf.mpr ⟨e, he, by simpa using hends, rfl⟩)
  · intro h m hm
    obtain ⟨e, he, hends, -⟩ := mem_matchesOf.mp hm
    rw [h e he] at hends
    cases hends

/-- **A part that leads to no match** changes no match behind it. -/
theorem matchesOf_arrivals_append {es es' : List ((Fin P.size × task.text.Offset) × Slots)}
    (h : P.matchesOf task ((P.walk task.text).arrivals ∅ es) = []) :
    P.matchesOf task ((P.walk task.text).arrivals ∅ (es ++ es')) =
      P.matchesOf task ((P.walk task.text).arrivals ∅ es') := by
  have hdead : ∀ e : (Fin P.size × task.text.Offset) × Slots, P.ends task e.1 = true →
      e.1 ∉ Graph.nodes ((P.walk task.text).arrivals ∅ es) := by
    intro e hends hmem
    obtain ⟨slots, hmem⟩ := Graph.mem_nodes.mp hmem
    rw [matchesOf_eq_nil_iff] at h
    rw [h _ hmem] at hends
    cases hends
  rw [Graph.arrivals_append, matchesOf_append, h, List.nil_append,
    ← Graph.filter_arrivals ((P.walk task.text).closed_nodes_arrivals es) ∅]
  unfold matchesOf
  rw [List.filterMap_filter]
  refine List.filterMap_congr fun e _ => ?_
  by_cases hends : P.ends task e.1 = true
  · rw [if_pos (by simpa using hdead e hends)]
  · rw [if_neg hends]
    split <;> rfl

/-! ## The pairs with one offset -/

/-- The edges that lead from an address at an offset to another offset. -/
def reading (P : Program) (text : Text) (i : text.Offset) (pc : Fin P.size) :
    List (Fin P.size × text.Offset) :=
  match P.instr pc with
  | .consume cls next => match text.read? i with
    | some (r, j) => if r ∈ cls then [(next, j)] else []
    | none => []
  | .fork _ | .save _ _ | .assert _ _ | .jump _ | .fail | .accept => []

/-- The pairs with the offset `i` are a layer of all ways; edges lead on to greater offsets. -/
def layer (P : Program) (text : Text) (i : text.Offset) :
    Graph.Layer (P.walk text) (P.passingAt text i) where
  node pc := (pc, i)
  out := P.reading text i
  Beyond e := i < e.2
  injective := fun _ _ h => congrArg Prod.fst h
  next_eq pc := by
    by_cases hpc : ∃ cls next, P.instr pc = .consume cls next
    · obtain ⟨cls, next, hpc⟩ := hpc
      have hnone : (P.passingAt text i).next pc = [] :=
        next_passing_of_isStop (by rw [hpc]; rfl) _ _
      rw [next_walk_of_consume hpc, hnone, List.map_nil, List.append_nil]
      cases hread : text.read? i <;> simp only [reading, hpc, hread]
    · rw [next_walk_of_passing fun cls next h => hpc ⟨cls, next, h⟩]
      have hnone : P.reading text i pc = [] := by
        cases hi : P.instr pc with
        | consume cls next => exact absurd ⟨cls, next, hi⟩ hpc
        | fork | save | assert | jump | fail | accept => simp only [reading, hi]
      rw [hnone, List.nil_append]
  carry_eq _ _ := rfl
  beyond_of_out pc e he := by
    unfold reading at he
    split at he
    · split at he
      · next r j hread =>
        split at he
        · rw [List.mem_singleton.mp he]
          exact Text.lt_of_read? hread
        · exact absurd he List.not_mem_nil
      · exact absurd he List.not_mem_nil
    all_goals exact absurd he List.not_mem_nil
  closed e he e' hnext := by
    have hto := readsTo_of_reaches (Graph.Reaches.head hnext (.refl e'))
    exact lt_of_lt_of_le he hto.le
  not_beyond _ := lt_irrefl i

/-- The matches behind some entries at the offset `i`. -/
def matchesFrom (P : Program) (task : Task) (i : task.text.Offset)
    (es : List (Fin P.size × Slots)) : List (task.text.Offset × Slots) :=
  P.matchesOf task ((P.walk task.text).arrivals ∅ (es.map (P.layer task.text i).lift))

/-- **The matches behind some entries** are those at their own offset, with those behind what is
handed over in between. -/
theorem matchesFrom_eq (i : task.text.Offset) (es : List (Fin P.size × Slots)) :
    P.matchesFrom task i es =
      P.matchesOf task ((P.layer task.text i).weave ∅
        ((P.passingAt task.text i).arrivals ∅ es)) := by
  have hmarks : ∀ pc : Fin P.size, (P.layer task.text i).node pc ∈
      (∅ : Finset (Fin P.size × task.text.Offset)) ↔ pc ∈ (∅ : Finset (Fin P.size)) :=
    fun pc => iff_of_false (Finset.notMem_empty _) (Finset.notMem_empty pc)
  unfold matchesFrom
  rw [(P.layer task.text i).arrivals_eq_weave hmarks fun _ _ => Iff.rfl]

/-! ## What is handed over -/

/-- Entries for the next offset, as entries of the graph of all ways; at the end of the text there
are none. -/
def handOver (P : Program) {text : Text} (i : text.Offset) (es : List (Fin P.size × Slots)) :
    List ((Fin P.size × text.Offset) × Slots) :=
  match text.read? i with
  | some (_, j) => es.map (P.layer text j).lift
  | none => []

variable {i j : task.text.Offset} {pc : Fin P.size}

theorem handOver_of_read {r : Symbol} (h : task.text.read? i = some (r, j))
    (es : List (Fin P.size × Slots)) : P.handOver i es = es.map (P.layer task.text j).lift := by
  simp only [handOver, h]

@[simp] theorem handOver_nil (i : task.text.Offset) : P.handOver i [] = [] := by
  unfold handOver
  split <;> rfl

theorem handOver_append (i : task.text.Offset) (es es' : List (Fin P.size × Slots)) :
    P.handOver i (es ++ es') = P.handOver i es ++ P.handOver i es' := by
  unfold handOver
  split
  · rw [List.map_append]
  · rfl

/-- The matches behind what is handed over are those behind the entries of the next offset. -/
theorem matchesOf_handOver {r : Symbol} (h : task.text.read? i = some (r, j))
    (es : List (Fin P.size × Slots)) :
    P.matchesOf task ((P.walk task.text).arrivals ∅ (P.handOver i es)) =
      P.matchesFrom task j es := by
  rw [handOver_of_read h]
  rfl

theorem matchesOf_handOver_of_end (h : task.text.read? i = none)
    (es : List (Fin P.size × Slots)) :
    P.matchesOf task ((P.walk task.text).arrivals ∅ (P.handOver i es)) = [] := by
  simp only [handOver, h, Graph.arrivals_nil, matchesOf_nil]

/-- An address at which nothing is read hands over nothing. -/
theorem pushOut_of_ne_consume (h : ∀ cls next, P.instr pc ≠ .consume cls next) (slots : Slots) :
    (P.layer task.text i).pushOut pc slots = [] := by
  have hnone : P.reading task.text i pc = [] := by
    cases hi : P.instr pc with
    | consume cls next => exact absurd hi (h cls next)
    | fork | save | assert | jump | fail | accept => simp only [reading, hi]
  show (P.reading task.text i pc).map _ = []
  rw [hnone, List.map_nil]

/-- A thread that reads hands its slots over to where it goes on. -/
theorem pushOut_of_consume {cls : SymbolClass} {next : Fin P.size}
    (h : P.instr pc = .consume cls next) (slots : Slots) :
    (P.layer task.text i).pushOut pc slots =
      if (task.moment i).symbol.any cls.contains then P.handOver i [(next, slots)] else [] := by
  have hcarry : (P.passingAt task.text i).carry pc slots = slots := by
    simp only [passingAt, passing, h]
  show (P.reading task.text i pc).map (fun w => (w, (P.passingAt task.text i).carry pc slots)) = _
  rw [hcarry]
  cases hread : task.text.read? i with
  | none =>
    have hsymbol : (task.moment i).symbol = none := Text.symbolAt_of_read?_eq_none hread
    have hreading : P.reading task.text i pc = [] := by
      simp only [reading, h, hread]
    rw [hsymbol, hreading]
    rfl
  | some found =>
    obtain ⟨r, j⟩ := found
    have hsymbol : (task.moment i).symbol = some r := Text.symbolAt_of_read? hread
    rw [hsymbol, handOver_of_read hread]
    by_cases hr : r ∈ cls
    · have hcontains : (some r).any cls.contains = true := hr
      have hreading : P.reading task.text i pc = [(next, j)] := by
        simp only [reading, h, hread, if_pos hr]
      rw [if_pos hcontains, hreading]
      rfl
    · have hcontains : ¬ (some r).any cls.contains = true := hr
      have hreading : P.reading task.text i pc = [] := by
        simp only [reading, h, hread, if_neg hr]
      rw [if_neg hcontains, hreading]
      rfl

end Program

end Lockstep
