import Lockstep.Proofs.DepthFirst

/-!
# Searching a graph layer by layer

Some nodes of a graph may form a layer: edges lead from it to nodes beyond it, and never back. A
depth-first search enters the nodes of the layer in the order in which a search of the layer alone
does, and what lies beyond is entered in between, each part right behind the node that leads to
it.

- `Graph.Layer`: a layer of a graph, itself given as a graph.
- `Layer.weave`: the arrivals in the layer, with what lies beyond in between.
- `Layer.arrivals_eq_weave`: a search is the search of the layer, woven in that way.
-/

namespace Lockstep

namespace Graph

/-- A layer of the graph `G`, whose nodes and edges are those of the graph `H`. -/
structure Layer {ν κ α : Type} (G : Graph ν α) (H : Graph κ α) where
  /-- The nodes of the layer. -/
  node : κ → ν
  /-- The edges that leave the layer. -/
  out : κ → List ν
  /-- What lies beyond the layer. -/
  Beyond : ν → Prop
  injective : Function.Injective node
  next_eq : ∀ k, G.next (node k) = out k ++ (H.next k).map node
  carry_eq : ∀ k a, G.carry (node k) a = H.carry k a
  beyond_of_out : ∀ k, ∀ w ∈ out k, Beyond w
  closed : G.Closed Beyond
  not_beyond : ∀ k, ¬ Beyond (node k)

namespace Layer

variable {ν κ α : Type} {G : Graph ν α} {H : Graph κ α} (L : Layer G H)

/-- The entries that a node of the layer adds for what lies beyond. -/
def pushOut (k : κ) (a : α) : List (ν × α) := (L.out k).map fun w => (w, H.carry k a)

/-- An entry of the layer as one of the graph. -/
def lift (e : κ × α) : ν × α := (L.node e.1, e.2)

theorem push_eq (k : κ) (a : α) :
    G.push (L.node k) a = L.pushOut k a ++ (H.push k a).map L.lift := by
  simp only [push, pushOut, L.next_eq, L.carry_eq, List.map_append, List.map_map]
  rfl

theorem beyond_of_pushOut {k : κ} {a : α} {e : ν × α} (h : e ∈ L.pushOut k a) : L.Beyond e.1 := by
  obtain ⟨w, hw, rfl⟩ := List.mem_map.mp h
  exact L.beyond_of_out k w hw

variable [Fintype ν] [DecidableEq ν]

/-- The arrivals in a layer, each with what it leads to beyond the layer; `seen` is what has been
seen there. -/
def weave (seen : Finset ν) : List (κ × α) → List (ν × α)
  | [] => []
  | (k, a) :: rest =>
    let beyond := G.arrivals seen (L.pushOut k a)
    (L.node k, a) :: (beyond ++ weave (seen ∪ nodes beyond) rest)

@[simp] theorem weave_nil (seen : Finset ν) : L.weave seen [] = [] := rfl

theorem weave_cons (seen : Finset ν) (k : κ) (a : α) (rest : List (κ × α)) :
    L.weave seen ((k, a) :: rest) = (L.node k, a) :: (G.arrivals seen (L.pushOut k a) ++
      L.weave (seen ∪ nodes (G.arrivals seen (L.pushOut k a))) rest) := rfl

/-- What is entered from beyond lies beyond. -/
theorem beyond_of_arrival {seen : Finset ν} {es : List (ν × α)} (hes : ∀ e ∈ es, L.Beyond e.1) :
    ∀ v ∈ nodes (G.arrivals seen es), L.Beyond v := by
  intro v hv
  obtain ⟨e, he, hreach⟩ := exists_reaches_of_arrival hv
  exact L.closed.mem_of_reaches hreach (hes e he)

variable [Fintype κ] [DecidableEq κ]

/-- **A search is the search of a layer**, with what lies beyond in between. -/
theorem arrivals_eq_weave {marks : Finset κ} {seen beyond : Finset ν} {es : List (κ × α)}
    (hmarks : ∀ k, L.node k ∈ seen ↔ k ∈ marks)
    (hbeyond : ∀ w, L.Beyond w → (w ∈ seen ↔ w ∈ beyond)) :
    G.arrivals seen (es.map L.lift) = L.weave beyond (H.arrivals marks es) := by
  induction marks, es using search_induction H generalizing seen beyond with
  | nil marks => simp
  | skip marks k a rest hk ih =>
    rw [arrivals_cons_of_mem hk, List.map_cons]
    have hseen : (L.lift (k, a)).1 ∈ seen := (hmarks k).mpr hk
    rw [arrivals_cons_of_mem hseen]
    exact ih hmarks hbeyond
  | enter marks k a rest hk ih =>
    have hseen : L.node k ∉ seen := fun h => hk ((hmarks k).mp h)
    have hstack : G.push (L.node k) a ++ rest.map L.lift =
        L.pushOut k a ++ (H.push k a ++ rest).map L.lift := by
      rw [L.push_eq, List.map_append, List.append_assoc]
    have hinsert : ∀ w, L.Beyond w → (w ∈ insert (L.node k) seen ↔ w ∈ beyond) := by
      intro w hw
      have hne : w ≠ L.node k := fun h => L.not_beyond k (h ▸ hw)
      rw [Finset.mem_insert, hbeyond w hw]
      exact or_iff_right hne
    -- what lies beyond the node does not see the marks in the layer
    have hout : G.arrivals (insert (L.node k) seen) (L.pushOut k a) =
        G.arrivals beyond (L.pushOut k a) :=
      arrivals_congr L.closed hinsert fun e he => L.beyond_of_pushOut he
    rw [arrivals_cons_of_notMem hk, weave_cons, List.map_cons]
    show G.arrivals seen ((L.node k, a) :: rest.map L.lift) = _
    rw [arrivals_cons_of_notMem hseen, hstack, arrivals_append, hout]
    congr 2
    refine ih (fun k' => ?_) (fun w hw => ?_)
    · have hno : L.node k' ∉ nodes (G.arrivals beyond (L.pushOut k a)) := fun h =>
        L.not_beyond k' (L.beyond_of_arrival (fun e he => L.beyond_of_pushOut he) _ h)
      rw [Finset.mem_union, Finset.mem_insert, Finset.mem_insert, hmarks k', L.injective.eq_iff]
      exact or_iff_left hno
    · rw [Finset.mem_union, Finset.mem_union, hinsert w hw]

end Layer

end Graph

end Lockstep
