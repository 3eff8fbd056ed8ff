import Lockstep.Proofs.Priority
import Mathlib.Data.List.Find

/-!
# What a search comes to first

A depth-first search goes on behind the first node of a set as if it had just been started there,
but for what it has entered by then. That matters only for what leads to something that is looked
for, and what has been entered before a node mostly leads to that node.

- `Graph.cut`: a graph without the edges of some nodes.
- `Graph.exists_arrivals_of_cut`: a search goes the same way up to the first of them.
- `Graph.reaches_of_before`: what is entered before a node leads to it.
- `Graph.first`: what a search enters first among the nodes that are looked for.
- `Graph.first_of_dead`, `Graph.first_of_before`: what may have been seen without changing that.
- `Graph.first_push_of_before`: what is found from a node on the way.
-/

namespace Lockstep

namespace Graph

variable {ν α : Type} [Fintype ν] [DecidableEq ν] {G : Graph ν α} {seen seen' : Finset ν}
  {es pre tail : List (ν × α)} {v w y : ν} {a b : α}

/-- A new entry is entered. -/
theorem mem_nodes_of_new {e : ν × α} (he : e ∈ es) (hseen : e.1 ∉ seen) :
    e.1 ∈ nodes (G.arrivals seen es) :=
  (Finset.mem_union.mp (mem_nodes_of_entry e he)).resolve_left hseen

/-! ## Up to the first node of a set -/

/-- The graph without the edges of the nodes in a set. -/
def cut (G : Graph ν α) (T : ν → Bool) : Graph ν α where
  next v := if T v then [] else G.next v
  carry := G.carry

/-- **Up to the first node of a set**, a search goes the same way with the set cut. There it goes on
with the edges of that node. -/
theorem exists_arrivals_of_cut {T : ν → Bool}
    (h : (G.cut T).arrivals seen es = pre ++ (w, b) :: tail) (hpre : ∀ e ∈ pre, T e.1 = false) :
    ∃ stack, G.arrivals seen es =
      pre ++ (w, b) :: G.arrivals (insert w (seen ∪ nodes pre)) (G.push w b ++ stack) := by
  induction seen, es using search_induction (G.cut T) generalizing pre with
  | nil seen => simp at h
  | skip seen v a rest hv ih =>
    rw [arrivals_cons_of_mem hv] at h ⊢
    exact ih h hpre
  | enter seen v a rest hv ih =>
    rw [arrivals_cons_of_notMem hv] at h ⊢
    cases pre with
    | nil =>
      obtain ⟨heq, -⟩ := List.cons_eq_cons.mp h
      cases heq
      exact ⟨rest, by simp⟩
    | cons e pre =>
      rw [List.cons_append, List.cons.injEq] at h
      obtain ⟨rfl, h⟩ := h
      obtain ⟨hvT, hpre⟩ := List.forall_mem_cons.mp hpre
      have hpush : (G.cut T).push v a = G.push v a := by
        simp only [push, cut, hvT, Bool.false_eq_true, if_false]
      rw [hpush] at h ih
      obtain ⟨stack, hstack⟩ := ih h hpre
      refine ⟨stack, ?_⟩
      rw [hstack, nodes_cons, Finset.union_insert, Finset.insert_union]
      rfl

/-- Behind a node that it enters, a search goes on with the edges of that node. -/
theorem exists_arrivals_of_entered (h : G.arrivals seen es = pre ++ (w, b) :: tail) :
    ∃ stack, tail = G.arrivals (insert w (seen ∪ nodes pre)) (G.push w b ++ stack) := by
  obtain ⟨stack, hstack⟩ := exists_arrivals_of_cut (G := G) (T := fun _ => false) h fun _ _ => rfl
  rw [h] at hstack
  exact ⟨stack, by simpa using hstack⟩

omit [Fintype ν] [DecidableEq ν] in
/-- A way to the set comes to it in the graph that is cut there. -/
theorem exists_reaches_cut {T : ν → Bool} {u : ν} (h : G.Reaches v u) (hu : T u = true) :
    ∃ u', T u' = true ∧ (G.cut T).Reaches v u' := by
  induction h using Relation.ReflTransGen.head_induction_on with
  | refl => exact ⟨u, hu, .refl u⟩
  | @head v v' hedge _ ih =>
    by_cases hv : T v = true
    · exact ⟨v, hv, .refl v⟩
    · obtain ⟨u', hu', hreach⟩ := ih
      refine ⟨u', hu', .head ?_ hreach⟩
      simpa only [cut, if_neg hv] using hedge

omit [Fintype ν] [DecidableEq ν] in
theorem reaches_of_cut {T : ν → Bool} (h : (G.cut T).Reaches v w) : G.Reaches v w := by
  refine Relation.ReflTransGen.mono (fun u u' hu => ?_) _ _ h
  by_cases hT : T u = true
  · simp [cut, hT] at hu
  · simpa only [cut, if_neg hT] using hu

omit [Fintype ν] [DecidableEq ν] in
/-- Where there are no edges, nothing is cut. -/
theorem cut_eq_self {T : ν → Bool} (h : ∀ v, T v = true → G.next v = []) : G.cut T = G := by
  have hnext : (G.cut T).next = G.next := by
    funext v
    by_cases hv : T v = true
    · simp only [cut, if_pos hv, h v hv]
    · simp only [cut, if_neg hv]
  show Graph.mk (G.cut T).next G.carry = G
  rw [hnext]

/-- What is entered before a node leads to it, or is done with: all of its edges lead to nodes that
have been seen by then. -/
theorem reaches_or_done_of_before (h : G.arrivals seen es = pre ++ (w, b) :: tail) :
    ∀ v ∈ nodes pre, G.Reaches v w ∨ ∀ u ∈ G.next v, u ∈ seen ∪ nodes pre := by
  induction seen, es using search_induction G generalizing pre with
  | nil seen => simp at h
  | skip seen v a rest hv ih =>
    rw [arrivals_cons_of_mem hv] at h
    exact ih h
  | enter seen v a rest hv ih =>
    rw [arrivals_cons_of_notMem hv] at h
    cases pre with
    | nil => simp
    | cons e pre =>
      rw [List.cons_append, List.cons.injEq] at h
      obtain ⟨rfl, h⟩ := h
      rw [nodes_cons, Finset.union_insert, ← Finset.insert_union]
      refine Finset.forall_mem_insert .. |>.mpr ⟨?_, ih h⟩
      -- the edges of the node are on top of the stack, and what is behind them is entered first
      rw [arrivals_append] at h
      rcases List.append_eq_append_iff.mp h with ⟨between, hpre, -⟩ | ⟨between, hfirst, hrest⟩
      · refine .inr fun u hu => ?_
        rw [hpre, nodes_append, ← Finset.union_assoc]
        exact Finset.mem_union_left _
          (mem_nodes_of_entry (u, G.carry v a) (mem_push.mpr ⟨hu, rfl⟩))
      cases between with
      | nil =>
        refine .inr fun u hu => ?_
        rw [List.append_nil] at hfirst
        rw [← hfirst]
        exact mem_nodes_of_entry (u, G.carry v a) (mem_push.mpr ⟨hu, rfl⟩)
      | cons e between =>
        rw [List.cons_append, List.cons.injEq] at hrest
        have hbehind : w ∈ nodes (G.arrivals (insert v seen) (G.push v a)) := by
          rw [hfirst, ← hrest.1]
          simp
        obtain ⟨e, he, hreach⟩ := exists_reaches_of_arrival hbehind
        exact .inl (.head (mem_push.mp he).1 hreach)

/-- **What is entered before a node leads to it**, if it leads to anything that is not entered
before. -/
theorem reaches_of_before (h : G.arrivals ∅ es = pre ++ (w, b) :: tail) {u : ν}
    (hv : v ∈ nodes pre) (hreach : G.Reaches v u) (hu : u ∉ nodes pre) : G.Reaches v w := by
  induction hreach using Relation.ReflTransGen.head_induction_on with
  | refl => exact absurd hv hu
  | @head v v' hedge hrest ih =>
    rcases reaches_or_done_of_before h v hv with hw | hdone
    · exact hw
    · have hv' : v' ∈ nodes pre := by simpa using hdone v' hedge
      exact .head hedge (ih hv')

/-- A search that has seen more goes the same way up to the first node that only this one has
seen. -/
theorem exists_arrivals_of_subset (h : G.arrivals seen es = pre ++ tail) (hsub : seen ⊆ seen')
    (hpre : ∀ v ∈ nodes pre, v ∉ seen') : ∃ tail', G.arrivals seen' es = pre ++ tail' := by
  induction seen, es using search_induction G generalizing seen' pre with
  | nil seen =>
    have hnil : pre = [] := by simp_all
    exact ⟨[], by simp [hnil]⟩
  | skip seen v a rest hv ih =>
    rw [arrivals_cons_of_mem hv] at h
    rw [arrivals_cons_of_mem (hsub hv)]
    exact ih h hsub hpre
  | enter seen v a rest hv ih =>
    cases pre with
    | nil => exact ⟨_, rfl⟩
    | cons e pre =>
      rw [arrivals_cons_of_notMem hv, List.cons_append, List.cons.injEq] at h
      obtain ⟨rfl, h⟩ := h
      rw [nodes_cons, Finset.forall_mem_insert] at hpre
      obtain ⟨hv', hpre⟩ := hpre
      have hpre' : ∀ u ∈ nodes pre, u ∉ insert v seen' := by
        intro u hu hmem
        -- no node is entered twice
        obtain ⟨c, hc⟩ := mem_nodes.mp hu
        have hnew : u ∉ insert v seen :=
          notMem_seen_of_arrival (u, c) (h ▸ List.mem_append_left _ hc)
        rcases Finset.mem_insert.mp hmem with rfl | hmem
        · exact hnew (Finset.mem_insert_self ..)
        · exact hpre u hu hmem
      obtain ⟨tail', htail⟩ := ih h (Finset.insert_subset_insert v hsub) hpre'
      exact ⟨tail', by rw [arrivals_cons_of_notMem hv', htail, List.cons_append]⟩

/-! ## Graphs that go together -/

omit [Fintype ν] [DecidableEq ν] in
/-- What is behind a node from which all ways come to an end is of the same kind. -/
theorem Terminates.of_reaches (h : G.Terminates v) (hreach : G.Reaches v w) : G.Terminates w := by
  induction hreach with
  | refl => exact h
  | tail _ hedge ih => exact ih.inv hedge

/-- All ways come to an end from whatever is entered behind such a node. -/
theorem Terminates.of_arrival (h : G.Terminates v)
    (hw : w ∈ nodes (G.arrivals seen [(v, a)])) : G.Terminates w := by
  obtain ⟨e, he, hreach⟩ := exists_reaches_of_arrival hw
  rw [List.mem_singleton.mp he] at hreach
  exact h.of_reaches hreach

theorem exists_of_mem_forall₂ {ν ν' : Type} {R : ν → ν' → Prop} {vs : List ν} {vs' : List ν'}
    (h : List.Forall₂ R vs vs') {v : ν} (hv : v ∈ vs) : ∃ v' ∈ vs', R v v' := by
  induction h with
  | nil => cases hv
  | @cons u u' _ _ hu _ ih =>
    rcases List.mem_cons.mp hv with rfl | hv
    · exact ⟨u', List.mem_cons_self, hu⟩
    · obtain ⟨v', hv', hvv⟩ := ih hv
      exact ⟨v', List.mem_cons_of_mem _ hv', hvv⟩

omit [Fintype ν] [DecidableEq ν] in
/-- All ways come to an end where ways that correspond to them do. -/
theorem Terminates.of_forall₂ {ν' α' : Type} {G' : Graph ν' α'} {R : ν → ν' → Prop}
    (hnext : ∀ v v', R v v' → List.Forall₂ R (G.next v) (G'.next v')) {v' : ν'}
    (h : G'.Terminates v') (hv : R v v') : G.Terminates v := by
  induction h generalizing v with
  | intro v' _ ih =>
    refine terminates_of_forall fun w hw => ?_
    obtain ⟨w', hw', hww⟩ := exists_of_mem_forall₂ (hnext v v' hv) hw
    exact ih w' hw' hww

/-! ## What is found first -/

/-- The node that a search enters first among those that are looked for. -/
def first (G : Graph ν α) (p : ν → Bool) (seen : Finset ν) (es : List (ν × α)) : Option ν :=
  ((G.arrivals seen es).find? fun e => p e.1).map Prod.fst

variable {p : ν → Bool}

/-- Where a search comes to before it comes to a node that is looked for. -/
theorem first_eq_some_iff : G.first p seen es = some w ↔ ∃ pre b tail,
    G.arrivals seen es = pre ++ (w, b) :: tail ∧ p w = true ∧ ∀ e ∈ pre, p e.1 = false := by
  unfold first
  rw [Option.map_eq_some_iff]
  simp only [List.find?_eq_some_iff_append, Bool.not_eq_true']
  constructor
  · rintro ⟨⟨_, b⟩, ⟨hw, pre, tail, heq, hpre⟩, rfl⟩
    exact ⟨pre, b, tail, heq, hw, hpre⟩
  · rintro ⟨pre, b, tail, heq, hw, hpre⟩
    exact ⟨(w, b), ⟨hw, pre, tail, heq, hpre⟩, rfl⟩

/-- What is found behind some nodes, if nothing is found up to them. -/
theorem first_of_arrivals {es' : List (ν × α)}
    (h : G.arrivals seen es = pre ++ (w, b) :: G.arrivals seen' es')
    (hpre : ∀ e ∈ pre, p e.1 = false) (hw : p w = false) :
    G.first p seen es = G.first p seen' es' := by
  have hnone : pre.find? (p ·.1) = none := List.find?_eq_none.mpr fun e he => by simp [hpre e he]
  unfold first
  rw [h, List.find?_append, hnone, Option.none_or, List.find?_cons_of_neg (by simp [hw])]

/-- An entry that is looked for is found at once. -/
theorem first_cons_of_found (hv : v ∉ seen) (hp : p v = true) (a : α) (es : List (ν × α)) :
    G.first p seen ((v, a) :: es) = some v := by
  unfold first
  rw [arrivals_cons_of_notMem hv, List.find?_cons_of_pos (by simpa using hp)]
  rfl

/-- A stack is worked off from the top. -/
theorem first_append (es es' : List (ν × α)) : G.first p seen (es ++ es') =
    (G.first p seen es).or (G.first p (seen ∪ nodes (G.arrivals seen es)) es') := by
  unfold first
  rw [arrivals_append, List.find?_append, Option.map_or]

/-- Searches that go the same way find the same. -/
theorem rel_first {ν' α' : Type} [Fintype ν'] [DecidableEq ν'] {G' : Graph ν' α'}
    {p' : ν' → Bool} {seen' : Finset ν'} {es' : List (ν' × α')} {R : ν → ν' → Prop}
    {S : α → α' → Prop}
    (h : List.Forall₂ (fun e e' => R e.1 e'.1 ∧ S e.2 e'.2) (G.arrivals seen es)
      (G'.arrivals seen' es')) (hp : ∀ v v', R v v' → p v = p' v') :
    Option.Rel R (G.first p seen es) (G'.first p' seen' es') := by
  unfold first
  generalize G.arrivals seen es = arrived, G'.arrivals seen' es' = arrived' at h
  induction h with
  | nil => exact .none
  | @cons e e' _ _ he _ ih =>
    rw [List.find?_cons, List.find?_cons, hp _ _ he.1]
    cases p' e'.1 with
    | true => exact .some he.1
    | false => exact ih

/-- Labels do not matter to what is found. -/
theorem first_congr {es' : List (ν × α)} (h : es.map Prod.fst = es'.map Prod.fst) :
    G.first p seen es = G.first p seen es' := by
  have hes : List.Forall₂ (fun e e' : ν × α => e.1 = e'.1 ∧ True) es es' := by
    rw [← List.forall₂_eq_eq_eq, List.forall₂_map_left_iff, List.forall₂_map_right_iff] at h
    exact h.imp fun _ _ heq => ⟨heq, trivial⟩
  have harrivals : List.Forall₂ (fun e e' : ν × α => e.1 = e'.1 ∧ True) (G.arrivals seen es)
      (G.arrivals seen es') := by
    refine forall₂_arrivals (R := Eq) (S := fun _ _ => True) ?_ ?_ (fun _ _ _ _ _ _ => trivial) ?_
      hes
    · rintro v _ w _ rfl rfl
      rfl
    · rintro v _ rfl
      exact List.forall₂_refl _
    · rintro v _ rfl
      rfl
  have hrel := rel_first (R := Eq) (S := fun _ _ => True) harrivals fun v v' h => congrArg p h
  generalize G.first p seen es = found, G.first p seen es' = found' at hrel
  cases hrel with
  | none => rfl
  | some heq => rw [heq]

/-- It only matters which of the nodes that are entered are looked for. -/
theorem first_congr_left {q : ν → Bool} (h : ∀ e ∈ G.arrivals seen es, p e.1 = q e.1) :
    G.first p seen es = G.first q seen es := by
  unfold first
  rw [List.find?_congr h]

omit [Fintype ν] [DecidableEq ν] in
/-- What is entered before the first node that is looked for is part of any beginning of the search
in which such a node is entered. -/
theorem mem_of_before {front : List (ν × α)} (h : front ++ tail = pre ++ es)
    (hfront : ∃ e ∈ front, p e.1 = true) (hpre : ∀ e ∈ pre, p e.1 = false) :
    ∀ e ∈ pre, e ∈ front := by
  obtain ⟨e, he, hp⟩ := hfront
  rcases List.append_eq_append_iff.mp h with ⟨between, rfl, -⟩ | ⟨between, rfl, -⟩
  · rw [hpre e (List.mem_append_left _ he)] at hp
    cases hp
  · exact fun e he => List.mem_append_left _ he

/-- Something is found if it is among what is entered. -/
theorem isSome_first (hw : w ∈ nodes (G.arrivals seen es)) (hp : p w = true) :
    (G.first p seen es).isSome = true := by
  obtain ⟨b, hb⟩ := mem_nodes.mp hw
  unfold first
  rw [Option.isSome_map, List.find?_isSome]
  exact ⟨(w, b), hb, hp⟩

/-- What is below an entry that is looked for does not matter. -/
theorem first_append_of_entry {e : ν × α} (he : e ∈ es) (hseen : e.1 ∉ seen) (hp : p e.1 = true)
    (es' : List (ν × α)) : G.first p seen (es ++ es') = G.first p seen es := by
  have hfound := isSome_first (G := G) (mem_nodes_of_new he hseen) hp
  rw [first_append, Option.or_of_isSome hfound]

/-- What is found is looked for, and lies behind some entry. -/
theorem reaches_of_first (h : G.first p seen es = some w) :
    p w = true ∧ ∃ e ∈ es, G.Reaches e.1 w := by
  obtain ⟨pre, b, tail, heq, hw, -⟩ := first_eq_some_iff.mp h
  have hmem : w ∈ nodes (G.arrivals seen es) := by simp [heq]
  exact ⟨hw, exists_reaches_of_arrival hmem⟩

/-- Nothing is found in a set that no edge leaves and that has none of what is looked for; it does
not matter whether it has been seen. -/
theorem first_union {D : Finset ν} (hD : G.Closed (· ∈ D)) (hp : ∀ v ∈ D, p v = false) :
    G.first p (seen ∪ D) es = G.first p seen es := by
  unfold first
  rw [← filter_arrivals hD, List.find?_filter]
  congr 1
  refine List.find?_congr fun e _ => ?_
  by_cases he : e.1 ∈ D
  · simp [hp e.1 he]
  · simp [he]

/-- The nodes behind which there is nothing of what is looked for. -/
noncomputable def dead (G : Graph ν α) (p : ν → Bool) : Finset ν := by
  classical exact {v | ∀ u, G.Reaches v u → p u = false}

omit [DecidableEq ν] in
theorem mem_dead : v ∈ G.dead p ↔ ∀ u, G.Reaches v u → p u = false := by
  simp [dead]

omit [DecidableEq ν] in
theorem closed_dead (G : Graph ν α) (p : ν → Bool) : G.Closed (· ∈ G.dead p) := by
  intro v hv w hw
  rw [mem_dead] at hv ⊢
  exact fun u hu => hv u (.head hw hu)

theorem first_union_dead : G.first p (seen ∪ G.dead p) es = G.first p seen es :=
  first_union (G.closed_dead p) fun v hv => mem_dead.mp hv v (.refl v)

/-- **Nodes from which nothing is found do not matter** to what is found first: among what is behind
the entries, a search may have seen more of them. -/
theorem first_of_dead (hsub : seen ⊆ seen')
    (hdead : ∀ v ∈ seen', v ∉ seen → (∃ e ∈ es, G.Reaches e.1 v) → v ∈ G.dead p) :
    G.first p seen' es = G.first p seen es := by
  have hsame : G.arrivals (seen' ∪ G.dead p) es = G.arrivals (seen ∪ G.dead p) es := by
    refine arrivals_congr (C := fun v => ∃ e ∈ es, G.Reaches e.1 v) ?_ (fun v hv => ?_)
      fun e he => ⟨e, he, .refl e.1⟩
    · rintro v ⟨e, he, hreach⟩ w hw
      exact ⟨e, he, hreach.trans (.head hw (.refl w))⟩
    · constructor
      · intro hmem
        rcases Finset.mem_union.mp hmem with hmem | hmem
        · by_cases hseen : v ∈ seen
          · exact Finset.mem_union_left _ hseen
          · exact Finset.mem_union_right _ (hdead v hmem hseen hv)
        · exact Finset.mem_union_right _ hmem
      · exact fun hmem => Finset.union_subset_union_left hsub hmem
  calc G.first p seen' es = G.first p (seen' ∪ G.dead p) es := first_union_dead.symm
    _ = G.first p (seen ∪ G.dead p) es := by rw [first, first, hsame]
    _ = G.first p seen es := first_union_dead

/-- What has been seen besides does not matter, either, if a search comes to none of it before it
finds something, but for nodes from which nothing is found. -/
theorem first_of_before (hsub : seen ⊆ seen') (hfirst : G.arrivals seen es = pre ++ (w, b) :: tail)
    (hw : p w = true) (hpre : ∀ e ∈ pre, p e.1 = false)
    (hdead : ∀ v ∈ seen', v ∈ nodes pre → v ∈ G.dead p) (hseen : w ∉ seen') :
    G.first p seen' es = some w := by
  have hwdead : w ∉ G.dead p := fun hmem => by
    rw [mem_dead.mp hmem w (.refl w)] at hw
    cases hw
  have hlive : G.arrivals (seen ∪ G.dead p) es =
      (pre.filter (·.1 ∉ G.dead p) ++ [(w, b)]) ++ tail.filter (·.1 ∉ G.dead p) := by
    rw [← filter_arrivals (G.closed_dead p), hfirst, List.filter_append,
      List.filter_cons_of_pos (by simpa using hwdead), List.append_cons]
  have hnew : ∀ v ∈ nodes (pre.filter (·.1 ∉ G.dead p) ++ [(w, b)]), v ∉ seen' ∪ G.dead p := by
    intro v hv hmem
    rw [nodes_append, nodes_cons, nodes_nil, Finset.mem_union, Finset.mem_insert] at hv
    rcases hv with hv | rfl | hv
    · obtain ⟨c, hc⟩ := mem_nodes.mp hv
      obtain ⟨hc, hlive⟩ := List.mem_filter.mp hc
      have hlive : v ∉ G.dead p := by simpa using hlive
      rcases Finset.mem_union.mp hmem with hmem | hmem
      · exact hlive (hdead v hmem (mem_nodes_of_mem hc))
      · exact hlive hmem
    · exact (Finset.mem_union.mp hmem).elim hseen hwdead
    · exact Finset.notMem_empty v hv
  obtain ⟨tail', htail⟩ :=
    exists_arrivals_of_subset hlive (Finset.union_subset_union_left hsub) hnew
  rw [← first_union_dead, first_eq_some_iff]
  refine ⟨pre.filter (·.1 ∉ G.dead p), b, tail', ?_, hw, fun e he => ?_⟩
  · rw [htail, List.append_assoc, List.singleton_append]
  · exact hpre e (List.mem_of_mem_filter he)

/-- **What is found from a node on the way**: if all ways from a node come to an end, and a search
comes to it before it finds something, then that is what a search finds behind the node, if it finds
anything there. -/
theorem first_push_of_before (hterm : G.Terminates v)
    (h : G.arrivals ∅ es = pre ++ (w, b) :: tail) (hpre : ∀ e ∈ pre, p e.1 = false)
    (hw : p w = true) (hv : v ∈ nodes pre) {u : ν} (hreach : G.Reaches v u) (hu : p u = true)
    (a : α) : G.first p ∅ (G.push v a) = some w := by
  obtain ⟨c, hc⟩ := mem_nodes.mp hv
  obtain ⟨before, between, rfl⟩ := List.append_of_mem hc
  rw [List.append_assoc, List.cons_append] at h
  obtain ⟨stack, hrest⟩ := exists_arrivals_of_entered h
  have hfirst : G.first p (insert v (∅ ∪ nodes before)) (G.push v c ++ stack) = some w :=
    first_eq_some_iff.mpr ⟨between, b, tail, hrest.symm, hw, fun e he => hpre e (by simp [he])⟩
  -- what has been entered by then leads to the node, which is not behind itself, or to nothing
  have hdead : G.first p (insert v (∅ ∪ nodes before)) (G.push v c) = G.first p ∅ (G.push v c) := by
    refine first_of_dead (Finset.empty_subset _) ?_
    rintro x hx - ⟨e, he, hex⟩
    refine mem_dead.mpr fun z hxz => ?_
    by_contra hz
    have hback : G.Reaches x v := by
      rcases Finset.mem_insert.mp hx with rfl | hx
      · exact .refl x
      · have hx : x ∈ nodes before := by simpa using hx
        refine reaches_of_before h hx hxz fun hmem => hz ?_
        obtain ⟨d, hd⟩ := mem_nodes.mp hmem
        exact hpre (z, d) (by simp [hd])
    exact hterm.not_reaches (mem_push.mp he).1 (hex.trans hback)
  have hfound : (G.first p ∅ (G.push v c)).isSome = true := by
    rcases hreach.cases_head with rfl | ⟨x, hx, hxu⟩
    · have hno := hpre (v, c) (by simp)
      rw [hu] at hno
      cases hno
    · exact isSome_first (mem_nodes_arrivals_iff.mpr
        ⟨(x, G.carry v c), mem_push.mpr ⟨hx, rfl⟩, hxu⟩) hu
  rw [first_append, hdead, Option.or_eq_some_iff] at hfirst
  have hlabels : (G.push v a).map Prod.fst = (G.push v c).map Prod.fst := by
    simp [push, Function.comp_def]
  rw [first_congr hlabels]
  rcases hfirst with hfirst | ⟨hnone, -⟩
  · exact hfirst
  · rw [hnone] at hfound
    cases hfound

end Graph

end Lockstep
