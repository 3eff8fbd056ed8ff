import Lockstep.Proofs.DepthFirst

/-!
# Nodes that hand their edges over

If exactly one edge leads to a node, and the label does not change there, then whoever has that
edge can have the edges of the node instead, in the same place. A search enters the same nodes in
the same order, all but the node that nothing leads to any more.

- `Graph.Splice`: the graph with the edges of some inner nodes handed over.
- `Graph.Tidy`: the stacks on which an inner node stands at most once, and behind its parent.
- `arrivals_splice`: what a search in that graph enters.
- `Tidy.finish`: what has been seen when it ends.
-/

namespace Lockstep

namespace Graph

variable {ν α : Type}

/-- An inner node is replaced by its edges. -/
def spread (G : Graph ν α) (inner : ν → Bool) (v : ν) : List ν := if inner v then G.next v else [v]

/-- The entries of a stack with the inner nodes replaced by their edges. -/
def spreadEntries (G : Graph ν α) (inner : ν → Bool) (es : List (ν × α)) : List (ν × α) :=
  es.flatMap fun e => (G.spread inner e.1).map fun w => (w, e.2)

/-- In the graph `G'` the inner nodes of `G` have handed their edges over. The nodes that are not
`met` do not matter. -/
structure Splice [DecidableEq ν] (G G' : Graph ν α) (met : ν → Prop) (inner : ν → Bool) :
    Prop where
  closed : G.Closed met
  carry : ∀ v, met v → inner v = false → G'.carry v = G.carry v
  idle : ∀ v, met v → inner v = true → ∀ a, G.carry v a = a
  next : ∀ v, met v → inner v = false → G'.next v = (G.next v).flatMap (G.spread inner)
  apart : ∀ v, met v → inner v = true → ∀ w ∈ G.next v, inner w = false
  once : ∀ v, met v → ∀ w, inner w = true → (G.next v).count w ≤ 1
  unique : ∀ u v w, met u → met v → inner w = true → w ∈ G.next u → w ∈ G.next v → u = v

/-- An inner node stands on a stack at most once and only before it is entered; its parent has been
entered. -/
structure Tidy [DecidableEq ν] (G : Graph ν α) (met : ν → Prop) (inner : ν → Bool)
    (seen : Finset ν) (stack : List (ν × α)) : Prop where
  known : ∀ e ∈ stack, met e.1
  fresh : ∀ e ∈ stack, inner e.1 = true → e.1 ∉ seen
  once : ∀ w, inner w = true → (stack.map Prod.fst).count w ≤ 1
  parent : ∀ w, inner w = true → w ∈ seen ∨ w ∈ stack.map Prod.fst →
    ∀ u, met u → w ∈ G.next u → u ∈ seen

variable {G G' : Graph ν α} {met : ν → Prop} {inner : ν → Bool}

theorem flatMap_spread_of_forall {vs : List ν} (h : ∀ v ∈ vs, inner v = false) :
    vs.flatMap (G.spread inner) = vs := by
  induction vs with
  | nil => rfl
  | cons v vs ih =>
    have hv : G.spread inner v = [v] := by
      rw [spread, h v List.mem_cons_self]
      rfl
    rw [List.flatMap_cons, hv, ih fun w hw => h w (List.mem_cons_of_mem _ hw)]
    rfl

theorem spreadEntries_cons_of_inner {v : ν} (hv : inner v = true) (a : α) (rest : List (ν × α)) :
    G.spreadEntries inner ((v, a) :: rest) =
      (G.next v).map (fun w => (w, a)) ++ G.spreadEntries inner rest := by
  simp only [spreadEntries, List.flatMap_cons, spread, hv, if_true]

theorem spreadEntries_cons_of_not_inner {v : ν} (hv : inner v = false) (a : α)
    (rest : List (ν × α)) :
    G.spreadEntries inner ((v, a) :: rest) = (v, a) :: G.spreadEntries inner rest := by
  simp only [spreadEntries, List.flatMap_cons, spread, hv, Bool.false_eq_true, if_false,
    List.map_cons, List.map_nil, List.singleton_append]

theorem spreadEntries_append (es es' : List (ν × α)) :
    G.spreadEntries inner (es ++ es') = G.spreadEntries inner es ++ G.spreadEntries inner es' :=
  List.flatMap_append

theorem spreadEntries_of_forall {es : List (ν × α)} (h : ∀ e ∈ es, inner e.1 = false) :
    G.spreadEntries inner es = es := by
  induction es with
  | nil => rfl
  | cons e es ih =>
    rw [spreadEntries_cons_of_not_inner (h e List.mem_cons_self),
      ih fun e' he' => h e' (List.mem_cons_of_mem _ he')]

section Search

variable [DecidableEq ν] {seen : Finset ν} {rest : List (ν × α)} {v : ν} {a : α}

theorem Tidy.skip (h : G.Tidy met inner seen ((v, a) :: rest)) : G.Tidy met inner seen rest where
  known e he := h.known e (List.mem_cons_of_mem _ he)
  fresh e he := h.fresh e (List.mem_cons_of_mem _ he)
  once w hw := by
    have hcount := h.once w hw
    rw [List.map_cons, List.count_cons] at hcount
    omega
  parent w hw hmem := h.parent w hw (hmem.imp_right fun hmem => List.mem_cons_of_mem _ hmem)

/-- Entering an inner node, whose edges lead to no other inner node. -/
theorem Tidy.enter_inner (hsplice : G.Splice G' met inner)
    (h : G.Tidy met inner seen ((v, a) :: rest)) (hv : inner v = true) :
    G.Tidy met inner (insert v seen) (G.push v a ++ rest) := by
  have hmet : met v := h.known (v, a) List.mem_cons_self
  have hpush : ∀ e ∈ G.push v a, inner e.1 = false := fun e he =>
    hsplice.apart v hmet hv e.1 (mem_push.mp he).1
  have hnone : ∀ w, inner w = true → w ∉ (G.push v a).map Prod.fst := by
    intro w hw hmem
    obtain ⟨e, he, rfl⟩ := List.mem_map.mp hmem
    rw [hpush e he] at hw
    cases hw
  -- it stood on the stack once, and has been taken off
  have hgone : v ∉ rest.map Prod.fst := by
    have hcount := h.once v hv
    rw [List.map_cons, List.count_cons_self] at hcount
    exact List.count_eq_zero.mp (by omega)
  refine ⟨?_, ?_, ?_, ?_⟩
  · intro e he
    rcases List.mem_append.mp he with he | he
    · exact hsplice.closed v hmet e.1 (mem_push.mp he).1
    · exact h.known e (List.mem_cons_of_mem _ he)
  · intro e he hinner hseen
    rcases List.mem_append.mp he with he | he
    · rw [hpush e he] at hinner
      cases hinner
    · rcases Finset.mem_insert.mp hseen with heq | hseen
      · exact hgone (heq ▸ List.mem_map_of_mem he)
      · exact h.fresh e (List.mem_cons_of_mem _ he) hinner hseen
  · intro w hw
    rw [List.map_append, List.count_append, List.count_eq_zero.mpr (hnone w hw), Nat.zero_add]
    exact h.skip.once w hw
  · intro w hw hmem u hu hedge
    refine Finset.mem_insert_of_mem (h.parent w hw ?_ u hu hedge)
    rcases hmem with hmem | hmem
    · rcases Finset.mem_insert.mp hmem with rfl | hmem
      · exact .inr List.mem_cons_self
      · exact .inl hmem
    · rw [List.map_append] at hmem
      rcases List.mem_append.mp hmem with hmem | hmem
      · exact absurd hmem (hnone w hw)
      · exact .inr (List.mem_cons_of_mem _ hmem)

/-- Entering any other node: the inner nodes behind it have not been met before. -/
theorem Tidy.enter (hsplice : G.Splice G' met inner)
    (h : G.Tidy met inner seen ((v, a) :: rest)) (hv : inner v = false) (hseen : v ∉ seen) :
    G.Tidy met inner (insert v seen) (G.push v a ++ rest) := by
  have hmet : met v := h.known (v, a) List.mem_cons_self
  have hmap : (G.push v a).map Prod.fst = G.next v := by
    simp [push, Function.comp_def]
  -- the parent of an inner node that is known has been entered, and `v` has not
  have hnew : ∀ w ∈ G.next v, inner w = true → w ∉ seen ∧ w ∉ rest.map Prod.fst := by
    intro w hw hinner
    constructor
    · exact fun hmem => hseen (h.parent w hinner (.inl hmem) v hmet hw)
    · intro hmem
      exact hseen (h.parent w hinner (.inr (List.mem_cons_of_mem _ hmem)) v hmet hw)
  have hne : ∀ w, inner w = true → w ≠ v := by
    rintro w hw rfl
    rw [hv] at hw
    cases hw
  refine ⟨?_, ?_, ?_, ?_⟩
  · intro e he
    rcases List.mem_append.mp he with he | he
    · exact hsplice.closed v hmet e.1 (mem_push.mp he).1
    · exact h.known e (List.mem_cons_of_mem _ he)
  · intro e he hinner hmem
    have hmem : e.1 ∈ seen := (Finset.mem_insert.mp hmem).resolve_left (hne e.1 hinner)
    rcases List.mem_append.mp he with he | he
    · exact (hnew e.1 (mem_push.mp he).1 hinner).1 hmem
    · exact h.fresh e (List.mem_cons_of_mem _ he) hinner hmem
  · intro w hw
    rw [List.map_append, List.count_append, hmap]
    by_cases hedge : w ∈ G.next v
    · rw [List.count_eq_zero.mpr (hnew w hedge hw).2, Nat.add_zero]
      exact hsplice.once v hmet w hw
    · rw [List.count_eq_zero.mpr hedge, Nat.zero_add]
      exact h.skip.once w hw
  · intro w hw hmem u hu hedge
    by_cases hvw : w ∈ G.next v
    · rw [hsplice.unique u v w hu hmet hw hedge hvw]
      exact Finset.mem_insert_self v seen
    · refine Finset.mem_insert_of_mem (h.parent w hw ?_ u hu hedge)
      rcases hmem with hmem | hmem
      · exact .inl ((Finset.mem_insert.mp hmem).resolve_left (hne w hw))
      · rw [List.map_append, hmap] at hmem
        rcases List.mem_append.mp hmem with hmem | hmem
        · exact absurd hmem hvw
        · exact .inr (List.mem_cons_of_mem _ hmem)

/-- **Handing edges over changes no search**: apart from the inner nodes, the same nodes are
entered, in the same order and with the same labels. -/
theorem arrivals_splice [Fintype ν] (hsplice : G.Splice G' met inner) {seen seen' : Finset ν}
    {stack : List (ν × α)}
    (h : G.Tidy met inner seen stack)
    (hseen : ∀ v, inner v = false → (v ∈ seen' ↔ v ∈ seen)) :
    G'.arrivals seen' (G.spreadEntries inner stack) =
      (G.arrivals seen stack).filter fun e => !inner e.1 := by
  induction seen, stack using search_induction G generalizing seen' with
  | nil seen => simp [spreadEntries]
  | skip seen v a rest hv ih =>
    -- an inner node on the stack has not been entered, so it is not skipped
    have hinner : inner v = false := by
      by_contra hne
      exact h.fresh (v, a) List.mem_cons_self (by simpa using hne) hv
    rw [spreadEntries_cons_of_not_inner hinner, arrivals_cons_of_mem ((hseen v hinner).mpr hv),
      arrivals_cons_of_mem hv]
    exact ih h.skip hseen
  | enter seen v a rest hv ih =>
    have hmet : met v := h.known (v, a) List.mem_cons_self
    rw [arrivals_cons_of_notMem hv]
    cases hinner : inner v with
    | true =>
      -- the edges of an inner node are on the other stack already
      have hpush : G.spreadEntries inner (G.push v a) = (G.next v).map fun w => (w, a) := by
        have hnot : ∀ e ∈ G.push v a, inner e.1 = false := fun e he =>
          hsplice.apart v hmet hinner e.1 (mem_push.mp he).1
        rw [spreadEntries_of_forall hnot, push, hsplice.idle v hmet hinner]
      rw [List.filter_cons_of_neg (by simp [hinner]), spreadEntries_cons_of_inner hinner, ← hpush,
        ← spreadEntries_append]
      refine ih (h.enter_inner hsplice hinner) fun w hw => ?_
      rw [hseen w hw, Finset.mem_insert]
      refine ⟨.inr, fun hmem => hmem.resolve_left ?_⟩
      rintro rfl
      rw [hinner] at hw
      cases hw
    | false =>
      have hpush : G'.push v a = G.spreadEntries inner (G.push v a) := by
        rw [push, push, hsplice.next v hmet hinner, hsplice.carry v hmet hinner, List.map_flatMap,
          spreadEntries, List.flatMap_map]
      have hv' : v ∉ seen' := fun hmem => hv ((hseen v hinner).mp hmem)
      rw [List.filter_cons_of_pos (by simp [hinner]), spreadEntries_cons_of_not_inner hinner,
        arrivals_cons_of_notMem hv', hpush, ← spreadEntries_append]
      congr 1
      refine ih (h.enter hsplice hinner hv) fun w hw => ?_
      rw [Finset.mem_insert, Finset.mem_insert, hseen w hw]

/-- In the end of a search the parents of the inner nodes that have been entered have been
entered. -/
theorem Tidy.finish [Fintype ν] (hsplice : G.Splice G' met inner) {stack : List (ν × α)}
    (h : G.Tidy met inner seen stack) :
    G.Tidy met inner (seen ∪ nodes (G.arrivals seen stack)) ([] : List (ν × α)) := by
  induction seen, stack using search_induction G with
  | nil seen => simpa using h
  | skip seen v a rest hv ih =>
    rw [arrivals_cons_of_mem hv]
    exact ih h.skip
  | enter seen v a rest hv ih =>
    rw [arrivals_cons_of_notMem hv, nodes_cons, Finset.union_insert, ← Finset.insert_union]
    cases hinner : inner v with
    | true => exact ih (h.enter_inner hsplice hinner)
    | false => exact ih (h.enter hsplice hinner hv)

/-- A search from a node that no edge leads to. -/
theorem arrivals_splice_single [Fintype ν] (hsplice : G.Splice G' met inner) {v : ν} (hv : met v)
    (hinner : inner v = false) (a : α) :
    G'.arrivals ∅ [(v, a)] = (G.arrivals ∅ [(v, a)]).filter fun e => !inner e.1 := by
  have htidy : G.Tidy met inner ∅ [(v, a)] := by
    have hnot : ∀ w, inner w = true → w ∉ [(v, a)].map Prod.fst := by
      intro w hw hmem
      rw [List.mem_singleton.mp hmem, hinner] at hw
      cases hw
    refine ⟨?_, ?_, ?_, ?_⟩
    · intro e he
      rw [List.mem_singleton.mp he]
      exact hv
    · exact fun e _ _ => Finset.notMem_empty e.1
    · intro w hw
      rw [List.count_eq_zero.mpr (hnot w hw)]
      exact Nat.zero_le 1
    · intro w hw hmem
      rcases hmem with hmem | hmem
      · exact absurd hmem (Finset.notMem_empty w)
      · exact absurd hmem (hnot w hw)
  have hsame : G'.arrivals ∅ (G.spreadEntries inner [(v, a)]) =
      (G.arrivals ∅ [(v, a)]).filter fun e => !inner e.1 :=
    arrivals_splice hsplice htidy fun w _ => Iff.rfl
  rw [spreadEntries_cons_of_not_inner hinner] at hsame
  exact hsame

end Search

end Graph

end Lockstep
