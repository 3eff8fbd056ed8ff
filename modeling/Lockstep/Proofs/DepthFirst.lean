import Mathlib.Data.Fintype.Card
import Mathlib.Data.List.Basic
import Mathlib.Data.List.Forall2
import Mathlib.Logic.Relation

/-!
# Depth-first search that enters no node twice

A graph lists the edges of each node in order of preference, and a search carries a label along
its way. The search is given a stack of entries and the nodes that it must not enter (again); it
yields the nodes that it enters, in the order in which it enters them, each with the label it
arrives with.

- `Graph`, `Graph.Reaches`: edges and labels; the nodes behind a node.
- `Graph.arrivals`: the search.
- `arrivals_append`: a stack is worked off from the top, one part after the other.
- `nodup_arrivals`, `card_seen_arrivals`: no node is entered twice, so that each arrival adds one to
  what has been seen.
- `mem_nodes_arrivals_iff`: from scratch, exactly the nodes behind the entries are entered.
- `filter_arrivals`: forbidding a set of nodes that no edge leaves takes away the arrivals in that
  set, and changes nothing else.
- `arrivals_congr`: what is forbidden outside of such a set does not matter within it.
- `forall₂_arrivals`: searches of graphs whose edges correspond go the same way.
-/

namespace Lockstep

/-- A graph to be searched by someone who carries a label of type `α`. -/
structure Graph (ν α : Type) where
  /-- The edges of a node, the preferred one first. -/
  next : ν → List ν
  /-- What becomes of the label when a node is left. -/
  carry : ν → α → α

namespace Graph

variable {ν α : Type}

/-- The entries that a node adds to the stack of a search. -/
def push (G : Graph ν α) (v : ν) (a : α) : List (ν × α) :=
  (G.next v).map fun w => (w, G.carry v a)

/-- There is a way from one node to another, which may be empty. -/
def Reaches (G : Graph ν α) : ν → ν → Prop := Relation.ReflTransGen fun v w => w ∈ G.next v

/-- No edge leads out of the set. -/
def Closed (G : Graph ν α) (D : ν → Prop) : Prop := ∀ v, D v → ∀ w ∈ G.next v, D w

theorem Reaches.refl {G : Graph ν α} (v : ν) : G.Reaches v v := Relation.ReflTransGen.refl

theorem Reaches.trans {G : Graph ν α} {u v w : ν} (h : G.Reaches u v) (h' : G.Reaches v w) :
    G.Reaches u w :=
  Relation.ReflTransGen.trans h h'

theorem Reaches.head {G : Graph ν α} {u v w : ν} (h : v ∈ G.next u) (h' : G.Reaches v w) :
    G.Reaches u w :=
  Relation.ReflTransGen.head h h'

/-- A way is empty or starts with an edge. -/
theorem Reaches.cases_head {G : Graph ν α} {u w : ν} (h : G.Reaches u w) :
    u = w ∨ ∃ v ∈ G.next u, G.Reaches v w := by
  rcases Relation.ReflTransGen.cases_head h with rfl | ⟨v, hv, hvw⟩
  · exact .inl rfl
  · exact .inr ⟨v, hv, hvw⟩

/-- A way that starts in a closed set stays in it. -/
theorem Closed.mem_of_reaches {G : Graph ν α} {D : ν → Prop} (hD : G.Closed D) {v w : ν}
    (h : G.Reaches v w) (hv : D v) : D w := by
  induction h with
  | refl => exact hv
  | tail _ hedge ih => exact hD _ ih _ hedge

theorem mem_push {G : Graph ν α} {v : ν} {a : α} {e : ν × α} :
    e ∈ G.push v a ↔ e.1 ∈ G.next v ∧ e.2 = G.carry v a := by
  simp only [push, List.mem_map]
  constructor
  · rintro ⟨w, hw, rfl⟩
    exact ⟨hw, rfl⟩
  · rintro ⟨hw, ha⟩
    exact ⟨e.1, hw, by rw [← ha]⟩

/-! ## The search -/

/-- The nodes of a list of entries or arrivals. -/
def nodes [DecidableEq ν] (es : List (ν × α)) : Finset ν := (es.map Prod.fst).toFinset

/-- The nodes that a search enters, with the labels it arrives with, in order. It works off a
stack of entries, and passes over the nodes in `seen` and those it has entered before. -/
def arrivals [Fintype ν] [DecidableEq ν] (G : Graph ν α) (seen : Finset ν) :
    List (ν × α) → List (ν × α)
  | [] => []
  | (v, a) :: rest =>
    if v ∈ seen then G.arrivals seen rest
    else (v, a) :: G.arrivals (insert v seen) (G.push v a ++ rest)
termination_by stack => (Fintype.card ν - seen.card, stack.length)
decreasing_by
  · exact Prod.Lex.right _ (by simp)
  · next hv =>
    apply Prod.Lex.left
    have hcard : (insert v seen).card = seen.card + 1 := Finset.card_insert_of_notMem hv
    have hle : (insert v seen).card ≤ Fintype.card ν := Finset.card_le_univ _
    omega

section Nodes

variable [DecidableEq ν]

@[simp] theorem nodes_nil : nodes ([] : List (ν × α)) = ∅ := rfl

@[simp] theorem nodes_cons (e : ν × α) (es : List (ν × α)) :
    nodes (e :: es) = insert e.1 (nodes es) := by
  simp [nodes]

@[simp] theorem nodes_append (es es' : List (ν × α)) :
    nodes (es ++ es') = nodes es ∪ nodes es' := by
  simp [nodes]

theorem mem_nodes {es : List (ν × α)} {v : ν} : v ∈ nodes es ↔ ∃ a, (v, a) ∈ es := by
  simp [nodes]

theorem mem_nodes_of_mem {es : List (ν × α)} {e : ν × α} (h : e ∈ es) : e.1 ∈ nodes es :=
  mem_nodes.mpr ⟨e.2, h⟩

end Nodes

section Search

variable [Fintype ν] [DecidableEq ν] {G : Graph ν α} {seen : Finset ν}

@[simp] theorem arrivals_nil (G : Graph ν α) (seen : Finset ν) : G.arrivals seen [] = [] := by
  rw [arrivals]

theorem arrivals_cons_of_mem {v : ν} (h : v ∈ seen) (a : α) (rest : List (ν × α)) :
    G.arrivals seen ((v, a) :: rest) = G.arrivals seen rest := by
  rw [arrivals, if_pos h]

theorem arrivals_cons_of_notMem {v : ν} (h : v ∉ seen) (a : α) (rest : List (ν × α)) :
    G.arrivals seen ((v, a) :: rest) =
      (v, a) :: G.arrivals (insert v seen) (G.push v a ++ rest) := by
  rw [arrivals, if_neg h]

/-- Induction along a search: the stack is empty, or its top has been seen, or it is entered. -/
theorem search_induction {motive : Finset ν → List (ν × α) → Prop} (G : Graph ν α)
    (nil : ∀ seen, motive seen [])
    (skip : ∀ seen v a rest, v ∈ seen → motive seen rest → motive seen ((v, a) :: rest))
    (enter : ∀ seen v a rest, v ∉ seen → motive (insert v seen) (G.push v a ++ rest) →
      motive seen ((v, a) :: rest))
    (seen : Finset ν) (stack : List (ν × α)) : motive seen stack := by
  induction seen, stack using arrivals.induct G with
  | case1 seen => exact nil seen
  | case2 seen v a rest h ih => exact skip seen v a rest h ih
  | case3 seen v a rest h ih => exact enter seen v a rest h ih

/-- **A stack is worked off from the top**: first everything behind its upper part, and then, with
all of that seen, what is behind the lower part. -/
theorem arrivals_append (G : Graph ν α) (seen : Finset ν) (es es' : List (ν × α)) :
    G.arrivals seen (es ++ es') =
      G.arrivals seen es ++ G.arrivals (seen ∪ nodes (G.arrivals seen es)) es' := by
  induction seen, es using search_induction G with
  | nil seen => simp
  | skip seen v a rest h ih =>
    rw [List.cons_append, arrivals_cons_of_mem h, arrivals_cons_of_mem h, ih]
  | enter seen v a rest h ih =>
    rw [List.cons_append, arrivals_cons_of_notMem h, arrivals_cons_of_notMem h,
      ← List.append_assoc, ih, nodes_cons, List.cons_append, Finset.insert_union,
      Finset.union_insert]

theorem arrivals_cons (G : Graph ν α) (seen : Finset ν) (e : ν × α) (es : List (ν × α)) :
    G.arrivals seen (e :: es) =
      G.arrivals seen [e] ++ G.arrivals (seen ∪ nodes (G.arrivals seen [e])) es :=
  arrivals_append G seen [e] es

/-- Entries that have been seen add nothing. -/
theorem arrivals_append_of_seen {es : List (ν × α)} (h : ∀ e ∈ es, e.1 ∈ seen)
    (rest : List (ν × α)) : G.arrivals seen (es ++ rest) = G.arrivals seen rest := by
  induction es with
  | nil => rfl
  | cons e es ih =>
    rw [List.cons_append, arrivals_cons_of_mem (h e (List.mem_cons_self ..))]
    exact ih fun e' he' => h e' (List.mem_cons_of_mem _ he')

/-- A property of entries that edges pass on holds of all arrivals. -/
theorem forall_arrivals {p : ν → α → Prop}
    (hstep : ∀ v a, p v a → ∀ w ∈ G.next v, p w (G.carry v a)) {es : List (ν × α)}
    (hes : ∀ e ∈ es, p e.1 e.2) : ∀ e ∈ G.arrivals seen es, p e.1 e.2 := by
  induction seen, es using search_induction G with
  | nil seen => simp
  | skip seen v a rest hv ih =>
    rw [arrivals_cons_of_mem hv]
    exact ih fun e he => hes e (List.mem_cons_of_mem _ he)
  | enter seen v a rest hv ih =>
    have hva : p v a := hes (v, a) (List.mem_cons_self ..)
    rw [arrivals_cons_of_notMem hv]
    refine List.forall_mem_cons.mpr ⟨hva, ih ?_⟩
    intro e he
    rcases List.mem_append.mp he with he | he
    · obtain ⟨hnext, hcarry⟩ := mem_push.mp he
      rw [hcarry]
      exact hstep v a hva e.1 hnext
    · exact hes e (List.mem_cons_of_mem _ he)

/-- What holds of the labels of all entries, and is not changed by leaving a node, holds of the
labels of all arrivals. -/
theorem forall_label_of_arrivals {p : α → Prop} (hcarry : ∀ v a, p a → p (G.carry v a))
    {es : List (ν × α)} (hes : ∀ e ∈ es, p e.2) : ∀ e ∈ G.arrivals seen es, p e.2 :=
  forall_arrivals (p := fun _ a => p a) (fun v a ha _ _ => hcarry v a ha) hes

/-- Entries in some order lead to arrivals in that order, if leaving a node does not change the
keys by which they are ordered. -/
theorem pairwise_arrivals {κ : Type} {f : α → κ} {R : κ → κ → Prop} (hrefl : ∀ k, R k k)
    (hcarry : ∀ v a, f (G.carry v a) = f a) {es : List (ν × α)}
    (hes : es.Pairwise fun e e' => R (f e.2) (f e'.2)) :
    (G.arrivals seen es).Pairwise fun e e' => R (f e.2) (f e'.2) := by
  induction seen, es using search_induction G with
  | nil seen => simp
  | skip seen v a rest hv ih =>
    rw [arrivals_cons_of_mem hv]
    exact ih (List.pairwise_cons.mp hes).2
  | enter seen v a rest hv ih =>
    obtain ⟨hhead, hrest⟩ := List.pairwise_cons.mp hes
    have hpush : ∀ e ∈ G.push v a, f e.2 = f a := by
      intro e he
      rw [(mem_push.mp he).2, hcarry]
    -- all that is behind the first entry has its key, or stands behind it
    have hbehind : ∀ e ∈ G.push v a ++ rest, R (f a) (f e.2) := by
      intro e he
      rcases List.mem_append.mp he with he | he
      · rw [hpush e he]
        exact hrefl _
      · exact hhead e he
    rw [arrivals_cons_of_notMem hv, List.pairwise_cons]
    constructor
    · refine forall_label_of_arrivals (p := fun b => R (f a) (f b)) (fun w b hb => ?_) hbehind
      rw [hcarry]
      exact hb
    · refine ih (List.pairwise_append.mpr ⟨?_, hrest, ?_⟩)
      · refine List.pairwise_of_forall_mem_list ?_
        intro e he e' he'
        rw [hpush e he, hpush e' he']
        exact hrefl _
      · intro e he e' he'
        rw [hpush e he]
        exact hhead e' he'

/-! ## How many nodes are entered -/

/-- No node is entered that has been seen. -/
theorem notMem_seen_of_arrival {es : List (ν × α)} : ∀ e ∈ G.arrivals seen es, e.1 ∉ seen := by
  induction seen, es using search_induction G with
  | nil seen => simp
  | skip seen v a rest hv ih =>
    rw [arrivals_cons_of_mem hv]
    exact ih
  | enter seen v a rest hv ih =>
    rw [arrivals_cons_of_notMem hv]
    exact List.forall_mem_cons.mpr ⟨hv, fun e he hmem => ih e he (Finset.mem_insert_of_mem hmem)⟩

/-- **No node is entered twice.** -/
theorem nodup_arrivals (G : Graph ν α) (seen : Finset ν) (es : List (ν × α)) :
    ((G.arrivals seen es).map Prod.fst).Nodup := by
  induction seen, es using search_induction G with
  | nil seen => simp
  | skip seen v a rest hv ih =>
    rw [arrivals_cons_of_mem hv]
    exact ih
  | enter seen v a rest hv ih =>
    rw [arrivals_cons_of_notMem hv, List.map_cons, List.nodup_cons]
    refine ⟨fun hmem => ?_, ih⟩
    obtain ⟨e, he, rfl⟩ := List.mem_map.mp hmem
    exact notMem_seen_of_arrival e he (Finset.mem_insert_self ..)

/-- Each arrival adds one to what has been seen. -/
theorem card_seen_arrivals (G : Graph ν α) (seen : Finset ν) (es : List (ν × α)) :
    (seen ∪ nodes (G.arrivals seen es)).card = seen.card + (G.arrivals seen es).length := by
  have hdisjoint : Disjoint seen (nodes (G.arrivals seen es)) := by
    refine Finset.disjoint_right.mpr fun v hv => ?_
    obtain ⟨a, ha⟩ := mem_nodes.mp hv
    exact notMem_seen_of_arrival (v, a) ha
  rw [Finset.card_union_of_disjoint hdisjoint, nodes,
    List.toFinset_card_of_nodup (nodup_arrivals G seen es), List.length_map]

/-! ## Which nodes are entered -/

/-- Each entry has been seen or is entered. -/
theorem mem_nodes_of_entry {es : List (ν × α)} :
    ∀ e ∈ es, e.1 ∈ seen ∪ nodes (G.arrivals seen es) := by
  induction seen, es using search_induction G with
  | nil seen => simp
  | skip seen v a rest hv ih =>
    rw [arrivals_cons_of_mem hv]
    exact List.forall_mem_cons.mpr ⟨Finset.mem_union_left _ hv, ih⟩
  | enter seen v a rest hv ih =>
    rw [arrivals_cons_of_notMem hv, nodes_cons, Finset.union_insert, ← Finset.insert_union]
    refine List.forall_mem_cons.mpr ⟨by simp, fun e he => ?_⟩
    exact ih e (List.mem_append_right _ he)

/-- An edge from a node that is entered leads to a node that is seen or entered, too. -/
theorem next_mem_of_arrival {es : List (ν × α)} :
    ∀ v ∈ nodes (G.arrivals seen es), ∀ w ∈ G.next v,
      w ∈ seen ∪ nodes (G.arrivals seen es) := by
  induction seen, es using search_induction G with
  | nil seen => simp
  | skip seen v a rest hv ih =>
    rw [arrivals_cons_of_mem hv]
    exact ih
  | enter seen v a rest hv ih =>
    rw [arrivals_cons_of_notMem hv, nodes_cons, Finset.union_insert, ← Finset.insert_union]
    intro u hu w hw
    rcases Finset.mem_insert.mp hu with rfl | hu
    · refine mem_nodes_of_entry (w, G.carry u a) (List.mem_append_left _ ?_)
      exact mem_push.mpr ⟨hw, rfl⟩
    · exact ih u hu w hw

/-- If no edge leads out of what has been seen, none leads out of what has been seen in the
end. -/
theorem closed_seen_arrivals (hseen : G.Closed (· ∈ seen)) (es : List (ν × α)) :
    G.Closed (· ∈ seen ∪ nodes (G.arrivals seen es)) := by
  intro v hv w hw
  rcases Finset.mem_union.mp hv with hv | hv
  · exact Finset.mem_union_left _ (hseen v hv w hw)
  · exact next_mem_of_arrival v hv w hw

/-- What is entered lies behind some entry. -/
theorem exists_reaches_of_arrival {es : List (ν × α)} {v : ν}
    (h : v ∈ nodes (G.arrivals seen es)) : ∃ e ∈ es, G.Reaches e.1 v := by
  obtain ⟨a, ha⟩ := mem_nodes.mp h
  refine forall_arrivals (p := fun w _ => ∃ e ∈ es, G.Reaches e.1 w) ?_ ?_ (v, a) ha
  · rintro u - ⟨e, he, hreach⟩ w hw
    exact ⟨e, he, hreach.trans (.head hw (.refl w))⟩
  · exact fun e he => ⟨e, he, .refl e.1⟩

/-- **A search from scratch enters exactly the nodes behind its entries.** -/
theorem mem_nodes_arrivals_iff {es : List (ν × α)} {v : ν} :
    v ∈ nodes (G.arrivals ∅ es) ↔ ∃ e ∈ es, G.Reaches e.1 v := by
  refine ⟨exists_reaches_of_arrival, ?_⟩
  rintro ⟨e, he, hreach⟩
  have hclosed : G.Closed (· ∈ ∅ ∪ nodes (G.arrivals ∅ es)) :=
    closed_seen_arrivals (fun _ h => absurd h (Finset.notMem_empty _)) es
  have hv : v ∈ ∅ ∪ nodes (G.arrivals ∅ es) :=
    hclosed.mem_of_reaches hreach (mem_nodes_of_entry e he)
  simpa using hv

/-- From a single node, exactly the nodes behind it are entered. -/
theorem exists_mem_arrivals_iff {v w : ν} {a : α} :
    (∃ b, (w, b) ∈ G.arrivals ∅ [(v, a)]) ↔ G.Reaches v w := by
  rw [← mem_nodes, mem_nodes_arrivals_iff]
  simp

/-- No edge leads out of what a search from scratch enters. -/
theorem closed_nodes_arrivals (G : Graph ν α) (es : List (ν × α)) :
    G.Closed (· ∈ nodes (G.arrivals ∅ es)) := by
  intro v hv w hw
  obtain ⟨e, he, hreach⟩ := mem_nodes_arrivals_iff.mp hv
  exact mem_nodes_arrivals_iff.mpr ⟨e, he, hreach.trans (.head hw (.refl w))⟩

/-! ## Forbidden nodes -/

/-- **Forbidding a closed set**: what is entered outside of the set stays the same, in the same
order and with the same labels. -/
theorem filter_arrivals {D : Finset ν} (hD : G.Closed (· ∈ D)) (seen : Finset ν)
    (es : List (ν × α)) :
    (G.arrivals seen es).filter (·.1 ∉ D) = G.arrivals (seen ∪ D) es := by
  induction seen, es using search_induction G with
  | nil seen => simp
  | skip seen v a rest hv ih =>
    rw [arrivals_cons_of_mem hv, arrivals_cons_of_mem (Finset.mem_union_left _ hv), ih]
  | enter seen v a rest hv ih =>
    rw [arrivals_cons_of_notMem hv]
    by_cases hvD : v ∈ D
    · -- nothing but forbidden nodes is behind a forbidden node
      have hpush : ∀ e ∈ G.push v a, e.1 ∈ seen ∪ D := fun e he =>
        Finset.mem_union_right _ (hD v hvD e.1 (mem_push.mp he).1)
      have hsame : insert v seen ∪ D = seen ∪ D := by
        rw [Finset.insert_union, Finset.insert_eq_of_mem (Finset.mem_union_right _ hvD)]
      rw [List.filter_cons_of_neg (by simpa using hvD), ih, hsame, arrivals_append_of_seen hpush,
        arrivals_cons_of_mem (Finset.mem_union_right _ hvD)]
    · have hvU : v ∉ seen ∪ D := by simp [hv, hvD]
      rw [List.filter_cons_of_pos (by simpa using hvD), ih, arrivals_cons_of_notMem hvU,
        Finset.insert_union]

/-- What entries there are in a forbidden set does not matter. -/
theorem arrivals_filter_entries {D : Finset ν} (hD : D ⊆ seen) (es : List (ν × α)) :
    G.arrivals seen (es.filter (·.1 ∉ D)) = G.arrivals seen es := by
  induction es generalizing seen with
  | nil => rfl
  | cons e es ih =>
    by_cases he : e.1 ∈ D
    · rw [List.filter_cons_of_neg (by simpa using he), ih hD, arrivals_cons_of_mem (hD he)]
    · rw [List.filter_cons_of_pos (by simpa using he), arrivals_cons, arrivals_cons G _ _ es,
        ih (hD.trans Finset.subset_union_left)]

/-- **What lies outside of a closed set does not matter within it**: a search that starts in such a
set only asks which nodes of the set have been seen. -/
theorem arrivals_congr {C : ν → Prop} (hC : G.Closed C) {seen seen' : Finset ν}
    (hseen : ∀ v, C v → (v ∈ seen ↔ v ∈ seen')) {es : List (ν × α)} (hes : ∀ e ∈ es, C e.1) :
    G.arrivals seen es = G.arrivals seen' es := by
  induction seen, es using search_induction G generalizing seen' with
  | nil seen => simp
  | skip seen v a rest hv ih =>
    have hv' : v ∈ seen' := (hseen v (hes (v, a) (List.mem_cons_self ..))).mp hv
    rw [arrivals_cons_of_mem hv, arrivals_cons_of_mem hv']
    exact ih hseen fun e he => hes e (List.mem_cons_of_mem _ he)
  | enter seen v a rest hv ih =>
    have hCv : C v := hes (v, a) (List.mem_cons_self ..)
    have hv' : v ∉ seen' := fun h => hv ((hseen v hCv).mpr h)
    rw [arrivals_cons_of_notMem hv, arrivals_cons_of_notMem hv']
    congr 1
    refine ih (fun w hw => ?_) (fun e he => ?_)
    · simp only [Finset.mem_insert, hseen w hw]
    · rcases List.mem_append.mp he with he | he
      · exact hC v hCv e.1 (mem_push.mp he).1
      · exact hes e (List.mem_cons_of_mem _ he)

/-- **Searches of two graphs go the same way** if their edges correspond, and bring labels that
correspond if what becomes of labels does. -/
theorem forall₂_arrivals {ν' α' : Type} [Fintype ν'] [DecidableEq ν'] {G' : Graph ν' α'}
    {R : ν → ν' → Prop} {S : α → α' → Prop}
    (hR : ∀ v v' w w', R v v' → R w w' → (v = w ↔ v' = w'))
    (hnext : ∀ v v', R v v' → List.Forall₂ R (G.next v) (G'.next v'))
    (hcarry : ∀ v v' a a', R v v' → S a a' → S (G.carry v a) (G'.carry v' a'))
    {seen' : Finset ν'} (hseen : ∀ v v', R v v' → (v ∈ seen ↔ v' ∈ seen'))
    {es : List (ν × α)} {es' : List (ν' × α')}
    (hes : List.Forall₂ (fun e e' => R e.1 e'.1 ∧ S e.2 e'.2) es es') :
    List.Forall₂ (fun e e' => R e.1 e'.1 ∧ S e.2 e'.2) (G.arrivals seen es)
      (G'.arrivals seen' es') := by
  induction seen, es using search_induction G generalizing seen' es' with
  | nil seen =>
    cases hes
    simp
  | skip seen v a rest hv ih =>
    obtain ⟨⟨v', a'⟩, rest', ⟨hvv, -⟩, hrest, rfl⟩ := List.forall₂_cons_left_iff.mp hes
    rw [arrivals_cons_of_mem hv, arrivals_cons_of_mem ((hseen v v' hvv).mp hv)]
    exact ih hseen hrest
  | enter seen v a rest hv ih =>
    obtain ⟨⟨v', a'⟩, rest', ⟨hvv, haa⟩, hrest, rfl⟩ := List.forall₂_cons_left_iff.mp hes
    rw [arrivals_cons_of_notMem hv,
      arrivals_cons_of_notMem fun hv' => hv ((hseen v v' hvv).mpr hv')]
    refine .cons ⟨hvv, haa⟩ (ih (fun w w' hww => ?_) ?_)
    · rw [Finset.mem_insert, Finset.mem_insert, hseen w w' hww, hR w w' v v' hww hvv]
    · refine List.rel_append ?_ hrest
      exact List.rel_map (fun w w' hww => ⟨hww, hcarry v v' a a' hvv haa⟩) (hnext v v' hvv)

end Search

end Graph

end Lockstep
