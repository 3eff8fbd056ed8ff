import Lockstep.Proofs.Extent
import Lockstep.Proofs.Rounds

/-!
# Searches of copies go the same way

Two places with one shape, in one program or in two, are copies of each other, so that searches of
both go the same way up to what is behind the shape, and come to it at the same offset.

- `Program.Alongside`: nodes of two programs that correspond.
- `Program.offset_first_of_alongside`: searches along such nodes.
- `Program.Copy`, `Program.walkTo`: a place with a shape, and the way up to what is behind it.
- `Program.firstAt`: where a search comes to an address first.
- `Program.Copy.firstAt_eq`: searches of two copies of a shape.
- `Program.Copy.terminates`: where no body of a repetition matches empty, they go no way for ever.
-/

namespace Lockstep

namespace Program

variable {P P' : Program} {c : Shape} {lo hi lo' hi' : Nat} {s t : Fin P.size} {s' t' : Fin P'.size}
  {text : Text}

/-! ## Pairs of nodes -/

/-- Two nodes stand alongside each other if their addresses are paired and their offsets are the
same. -/
def Alongside (R : Fin P.size → Fin P'.size → Prop) (v : Fin P.size × text.Offset)
    (v' : Fin P'.size × text.Offset) : Prop :=
  R v.1 v'.1 ∧ v.2 = v'.2

theorem alongside_unique {R : Fin P.size → Fin P'.size → Prop}
    (hR : ∀ x x' y y', R x x' → R y y' → (x = y ↔ x' = y')) (v : Fin P.size × text.Offset)
    (v' : Fin P'.size × text.Offset) (w : Fin P.size × text.Offset) (w' : Fin P'.size × text.Offset)
    (hv : Alongside R v v') (hw : Alongside R w w') : v = w ↔ v' = w' := by
  rw [Prod.ext_iff, Prod.ext_iff, hR _ _ _ _ hv.1 hw.1, hv.2, hw.2]

/-- **Searches along pairs of nodes** find what they look for at the same offset. -/
theorem offset_first_of_alongside {R : Fin P.size → Fin P'.size → Prop}
    (hR : ∀ x x' y y', R x x' → R y y' → (x = y ↔ x' = y'))
    {G : Graph (Fin P.size × text.Offset) Slots} {G' : Graph (Fin P'.size × text.Offset) Slots}
    (hnext : ∀ v v', Alongside R v v' → List.Forall₂ (Alongside R) (G.next v) (G'.next v'))
    {p : Fin P.size × text.Offset → Bool} {p' : Fin P'.size × text.Offset → Bool}
    (hp : ∀ v v', Alongside R v v' → p v = p' v') {seen : Finset (Fin P.size × text.Offset)}
    {seen' : Finset (Fin P'.size × text.Offset)}
    (hseen : ∀ v v', Alongside R v v' → (v ∈ seen ↔ v' ∈ seen'))
    {es : List ((Fin P.size × text.Offset) × Slots)}
    {es' : List ((Fin P'.size × text.Offset) × Slots)}
    (hes : List.Forall₂ (fun e e' => Alongside R e.1 e'.1) es es') :
    (G.first p seen es).map Prod.snd = (G'.first p' seen' es').map Prod.snd := by
  have harrivals := Graph.forall₂_arrivals (R := Alongside R) (S := fun _ _ => True)
    (alongside_unique hR) hnext (fun _ _ _ _ _ _ => trivial) hseen
    (hes.imp fun _ _ he => ⟨he, trivial⟩)
  have hfirst := Graph.rel_first (R := Alongside R) (S := fun _ _ => True) harrivals hp
  generalize G.first p seen es = found, G'.first p' seen' es' = found' at hfirst
  cases hfirst with
  | none => rfl
  | some hv => exact congrArg some hv.2

/-- Instructions that do the same lead from nodes alongside each other to such nodes. -/
theorem forall₂_next_of_rel {S : Fin P.size → Fin P'.size → Prop}
    (h : (P.instr s).Rel S (P'.instr s')) (i : text.Offset) :
    List.Forall₂ (Alongside S) ((P.walk text).next (s, i)) ((P'.walk text).next (s', i)) := by
  generalize hs : P.instr s = instr, hs' : P'.instr s' = instr' at h
  cases h with
  | fork harms =>
    rw [next_walk_of_fork hs, next_walk_of_fork hs']
    exact List.rel_map (fun x x' hx => ⟨hx, rfl⟩) harms
  | save slot h =>
    rw [next_walk_of_save hs, next_walk_of_save hs']
    exact .cons ⟨h, rfl⟩ .nil
  | assert cond h =>
    rw [next_walk_of_assert hs, next_walk_of_assert hs']
    split
    · exact .cons ⟨h, rfl⟩ .nil
    · exact .nil
  | jump h =>
    rw [next_walk_of_jump hs, next_walk_of_jump hs']
    exact .cons ⟨h, rfl⟩ .nil
  | fail =>
    rw [next_walk_of_fail hs, next_walk_of_fail hs']
    exact .nil
  | consume cls h =>
    rw [next_walk_of_consume hs, next_walk_of_consume hs']
    split
    · split
      · exact .cons ⟨h, rfl⟩ .nil
      · exact .nil
    · exact .nil

/-- One more pair, of addresses that have not been paired. -/
theorem unique_insert {R : Fin P.size → Fin P'.size → Prop}
    (hR : ∀ x x' y y', R x x' → R y y' → (x = y ↔ x' = y'))
    (hnew : ∀ x x', R x x' → x ≠ t ∧ x' ≠ t') (x : Fin P.size) (x' : Fin P'.size) (y : Fin P.size)
    (y' : Fin P'.size) (hx : R x x' ∨ x = t ∧ x' = t') (hy : R y y' ∨ y = t ∧ y' = t') :
    x = y ↔ x' = y' := by
  rcases hx with hx | ⟨rfl, rfl⟩ <;> rcases hy with hy | ⟨rfl, rfl⟩
  · exact hR x x' y y' hx hy
  · exact iff_of_false (hnew x x' hx).1 (hnew x x' hx).2
  · exact iff_of_false (hnew y y' hy).1.symm (hnew y y' hy).2.symm
  · exact iff_of_true rfl rfl

/-! ## A shape and what is behind it -/

/-- An address is not among those that a shape has in some range. -/
def Beyond (t : Fin P.size) (lo hi : Nat) : Prop := (t : Nat) ≠ 0 ∧ ((t : Nat) < lo ∨ hi ≤ t)

/-- The end of a match is behind whatever lies before it. -/
theorem Rooted.beyond_of_accept (h : P.Rooted) (ht : P.instr t = .accept) (lo : Nat) :
    Beyond t lo t := by
  refine ⟨fun hzero => ?_, .inr le_rfl⟩
  obtain ⟨hpos, hfail⟩ := h
  rw [show t = ⟨0, hpos⟩ from Fin.ext hzero, hfail] at ht
  cases ht

/-- A place with a shape: the address 0 is not in its range, and what is behind the shape is not,
either. -/
structure Copy (P : Program) (c : Shape) (lo hi : Nat) (s t : Fin P.size) : Prop where
  pos : 0 < lo
  lays : P.Lays c lo hi s t
  beyond : Beyond t lo hi

/-- A program that lays out an expression is such a place. -/
theorem LaysOut.exists_copy {e : Expr} (h : P.LaysOut e) :
    ∃ t, P.instr t = .accept ∧ P.Copy e.shape 1 t P.start t := by
  obtain ⟨hroot, t, hacc, hlays⟩ := h
  exact ⟨t, hacc, Nat.one_pos, hlays, hroot.beyond_of_accept hacc 1⟩

/-- Whether a node stands at an address. -/
def isAt (t : Fin P.size) (v : Fin P.size × text.Offset) : Bool := v.1 = t

/-- The graph of a program, up to an address. -/
abbrev walkTo (P : Program) (text : Text) (t : Fin P.size) :
    Graph (Fin P.size × text.Offset) Slots :=
  (P.walk text).cut (isAt t)

/-- No edge leaves from the end of a match. -/
theorem walkTo_of_accept (ht : P.instr t = .accept) : P.walkTo text t = P.walk text := by
  refine Graph.cut_eq_self fun v hv => ?_
  have hv : v.1 = t := by simpa [isAt] using hv
  simp only [walk, hv, ht]

/-- The offset at which a search from one address comes first to another one. -/
def firstAt (P : Program) (text : Text) (s t : Fin P.size) (i : text.Offset) : Option text.Offset :=
  ((P.walkTo text t).first (isAt t) ∅ [((s, i), #[])]).map Prod.snd

/-- Slots do not matter to that. -/
theorem firstAt_eq_some_iff {i j : text.Offset} (a : Slots) : P.firstAt text s t i = some j ↔
    (P.walkTo text t).first (isAt t) ∅ [((s, i), a)] = some (t, j) := by
  have hlabel : (P.walkTo text t).first (isAt t) ∅ [((s, i), #[])] =
      (P.walkTo text t).first (isAt t) ∅ [((s, i), a)] := Graph.first_congr rfl
  rw [firstAt, hlabel]
  cases hfound : (P.walkTo text t).first (isAt t) ∅ [((s, i), a)] with
  | none => simp
  | some v =>
    have hv : v.1 = t := by simpa [isAt] using (Graph.reaches_of_first hfound).1
    simp [Prod.ext_iff, hv]

theorem readsTo_of_firstAt {i j : text.Offset} (h : P.firstAt text s t i = some j) :
    text.ReadsTo i j := by
  obtain ⟨-, e, he, hreach⟩ := Graph.reaches_of_first ((firstAt_eq_some_iff #[]).mp h)
  rw [List.mem_singleton.mp he] at hreach
  exact readsTo_of_reaches (Graph.reaches_of_cut hreach)

/-- Where a shape matches, it leads to what is behind it. -/
theorem Copy.isSome_firstAt (h : P.Copy c lo hi s t) {i j : text.Offset}
    (hmatches : c.Matches text i j) : (P.firstAt text s t i).isSome = true := by
  obtain ⟨u, hu, hreach⟩ :=
    Graph.exists_reaches_cut (T := isAt t) (h.lays.spans.reaches hmatches) (by simp [isAt])
  rw [firstAt, Option.isSome_map]
  exact Graph.isSome_first
    (Graph.mem_nodes_arrivals_iff.mpr ⟨_, List.mem_singleton_self _, hreach⟩) hu

/-! ## Searches of copies -/

/-- Up to what is behind the shape, the nodes of two copies of a shape can be paired, so that edges
lead from pairs to pairs. -/
theorem Copy.exists_alongside (h : P.Copy c lo hi s t) (h' : P'.Copy c lo' hi' s' t')
    (text : Text) : ∃ R : Fin P.size → Fin P'.size → Prop, R s s' ∧ R t t' ∧
      (∀ x x' y y', R x x' → R y y' → (x = y ↔ x' = y')) ∧
      ∀ v v', Alongside R v v' →
        List.Forall₂ (Alongside R) ((P.walkTo text t).next v) ((P'.walkTo text t').next v') := by
  obtain ⟨R, hs, hR⟩ := h.lays.exists_pairing h'.lays h.pos h'.pos
  have hnew : ∀ x x', R x x' → x ≠ t ∧ x' ≠ t' := by
    intro x x' hx
    have hwithin := hR.within x x' hx
    have ht := h.beyond
    have ht' := h'.beyond
    unfold Beyond at ht ht'
    rw [Ne, Fin.ext_iff, Ne, Fin.ext_iff]
    omega
  refine ⟨_, .inl hs, .inr ⟨rfl, rfl⟩, unique_insert hR.unique hnew, ?_⟩
  rintro ⟨x, i⟩ ⟨x', _⟩ ⟨hx | ⟨rfl, rfl⟩, rfl⟩
  · obtain ⟨hne, hne'⟩ := hnew x x' hx
    simpa [Graph.cut, isAt, hne, hne'] using forall₂_next_of_rel (hR.instr x x' hx) i
  · simp [Graph.cut, isAt]

/-- **Searches of two copies of a shape** come first to what is behind the shape at the same
offset. -/
theorem Copy.firstAt_eq (h : P.Copy c lo hi s t) (h' : P'.Copy c lo' hi' s' t') (i : text.Offset) :
    P.firstAt text s t i = P'.firstAt text s' t' i := by
  obtain ⟨R, hs, ht, hR, hnext⟩ := h.exists_alongside h' text
  refine offset_first_of_alongside hR hnext ?_ (by simp) (.cons ⟨hs, rfl⟩ .nil)
  exact fun v v' hv => decide_eq_decide.mpr (hR _ _ _ _ hv.1 ht)

/-- **All ways through a copy come to an end** where no body of a repetition matches empty, if there
is a program that has just this shape. -/
theorem Copy.terminates {task : Task} (h : P.Copy c lo hi s t) (h' : P'.Copy c lo' hi' s' t')
    (haccept : P'.instr t' = .accept) (hloops : c.LoopsAdvance task.text) (i : task.text.Offset) :
    (P.walkTo task.text t).Terminates (s, i) := by
  obtain ⟨R, hs, -, -, hnext⟩ := h.exists_alongside h' task.text
  have hterminates : (P'.walkTo task.text t').Terminates (s', i) := by
    rw [walkTo_of_accept haccept]
    exact (h'.lays.spans.yields hloops fun j _ => yields_accept haccept j).terminates
  exact .of_forall₂ hnext hterminates ⟨hs, rfl⟩

end Program

end Lockstep
