import Lockstep.Proofs.Copies

/-!
# Once and then again

A fork behind a part that leads back to it makes a loop. The first round ends at the fork, and there
the search goes on with the arms of the fork; but it does not enter again what it has entered in the
first round. If the second round goes through another copy of the part, that does not matter. If it
goes through the same one, it may matter only where the part matches both empty and more.

- `Program.Cycle`: a part behind a fork that leads back to it.
- `Program.Round`: how a search comes to the fork.
- `Program.Cycle.firstAccept_of_round`: how it goes on from there.
- `Program.Cycle.offset_firstAccept`: second rounds in two copies.
- `Program.Cycle.firstAccept_apart`: a second round in another copy than the first one.
- `Program.Cycle.firstAccept_same`: a second round in the same copy.
-/

namespace Lockstep

namespace Program

variable {P : Program} {c : Shape} {greedy : Bool} {lo hi lo₁ hi₁ : Nat} {s l x t : Fin P.size}
  {text : Text} {task : Task} {C : Fin P.size → Prop}

/-! ## A loop -/

/-- A part behind a fork that leads back to it; the other arm of the fork leads to the end of a
match. -/
structure Cycle (P : Program) (c : Shape) (greedy : Bool) (lo hi : Nat) (x l t : Fin P.size) :
    Prop where
  body : P.Copy c lo hi x l
  fork : P.instr l = .fork (Shape.arms greedy x t)
  accept : P.instr t = .accept

namespace Cycle

variable (h : P.Cycle c greedy lo hi x l t)
include h

theorem exit_ne : t ≠ l := by
  intro heq
  have haccept := h.accept
  rw [heq, h.fork] at haccept
  cases haccept

theorem push_eq (j : text.Offset) (b : Slots) : (P.walk text).push (l, j) b =
    (Shape.arms greedy x t).map fun y => ((y, j), b) := by
  rw [Graph.push, next_walk_of_fork h.fork, carry_of_ne_save (by simp [h.fork]), List.map_map]
  rfl

theorem exit_mem_push (j : text.Offset) (b : Slots) :
    ((t, j), b) ∈ (P.walk text).push (l, j) b := by
  rw [h.push_eq]
  cases greedy <;> simp [Shape.arms]

/-- Ways from the fork come to the end of a match after some rounds. -/
theorem repeats_of_reaches {j k : text.Offset} {y : Fin P.size}
    (hreach : (P.walk text).Reaches (l, j) (y, k)) (hy : P.instr y = .accept) :
    Relation.ReflTransGen (c.Matches text) j k := by
  have hspans : P.Spans (.star greedy c) l t := .star h.fork h.body.lays.spans
  obtain ⟨n, slots, hn⟩ := (exists_endsIn_iff #[]).mpr ⟨y, hreach, hy⟩
  obtain ⟨m, k', slots', -, hruns, hrest⟩ := hspans.exists_runs hn
  have hk : k' = k := congrArg Prod.fst (hrest.eq_of_accept h.accept)
  exact hk ▸ hruns.matches

/-- What is behind the fork are the nodes of its two arms. -/
theorem of_reaches {C : Fin P.size → Prop} (hC : P.Inner C lo hi l) (hx : C x)
    {v w : Fin P.size × text.Offset} (hreach : (P.walk text).Reaches v w)
    (hv : C v.1 ∨ v.1 = l ∨ v.1 = t) : C w.1 ∨ w.1 = l ∨ w.1 = t := by
  have hclosed : (P.walk text).Closed fun v => C v.1 ∨ v.1 = l ∨ v.1 = t := by
    rintro ⟨y, k⟩ (hy | rfl | rfl) w hw
    · exact (hC.closed y hy w.1 (mem_successors_of_mem_next hw)).imp_right .inl
    · rcases (mem_next_of_arms h.fork).mp hw with rfl | rfl
      · exact .inl hx
      · exact .inr (.inr rfl)
    · simp [walk, h.accept] at hw
  exact hclosed.mem_of_reaches hreach hv

/-- A part that leads back to the fork at the same offset matches empty there. -/
theorem matches_of_reaches {j : text.Offset} (hback : (P.walk text).Reaches (x, j) (l, j)) :
    c.Matches text j j := by
  have hexit : (t, j) ∈ (P.walk text).next (l, j) := (mem_next_of_arms h.fork).mpr (.inr rfl)
  obtain ⟨n, slots, hn⟩ := (exists_endsIn_iff #[]).mpr ⟨t, hback.tail hexit, h.accept⟩
  obtain ⟨m, k, slots', -, hruns, hrest⟩ := h.body.lays.spans.exists_runs hn
  obtain ⟨y, hreach, -⟩ := (exists_endsIn_iff slots').mp ⟨m, slots, hrest⟩
  have hmatches : c.Matches text j k := hruns.matches
  have hkj : k ≤ j := (readsTo_of_reaches hreach).le
  obtain rfl : k = j := le_antisymm hkj (c.le_of_matches j k hmatches)
  exact hmatches

end Cycle

/-! ## The first round -/

/-- A search from the address `s` comes to the address `l` first at the offset `j`. The nodes `pre`
that it enters before are of a part. -/
structure Round (P : Program) (text : Text) (C : Fin P.size → Prop) (s l : Fin P.size)
    (i : text.Offset) (a : Slots) (pre : List ((Fin P.size × text.Offset) × Slots))
    (j : text.Offset) (b : Slots) : Prop where
  comes : ∃ tail, (P.walkTo text l).arrivals ∅ [((s, i), a)] = pre ++ ((l, j), b) :: tail
  before : ∀ e ∈ pre, isAt l e.1 = false
  inner : ∀ v ∈ Graph.nodes pre, C v.1

theorem Inner.ne_of_beyond (hC : P.Inner C lo hi l) (hl : Beyond l lo hi) {y : Fin P.size}
    (hy : C y) : y ≠ l := by
  have hrange := hC.range y hy
  unfold Beyond at hl
  rw [Ne, Fin.ext_iff]
  omega

/-- What a search enters up to the fork is of the part. -/
theorem Inner.of_arrival (hC : P.Inner C lo hi l) (hs : C s) {i : text.Offset} {a : Slots}
    {v : Fin P.size × text.Offset}
    (hv : v ∈ Graph.nodes ((P.walkTo text l).arrivals ∅ [((s, i), a)])) : C v.1 ∨ v.1 = l := by
  obtain ⟨e, he, hreach⟩ := Graph.exists_reaches_of_arrival hv
  rw [List.mem_singleton.mp he] at hreach
  have hclosed : (P.walkTo text l).Closed fun v => C v.1 ∨ v.1 = l := by
    intro v hv w hw
    by_cases hvl : v.1 = l
    · simp [Graph.cut, isAt, hvl] at hw
    · simp only [Graph.cut, isAt, hvl, decide_false, Bool.false_eq_true, if_false] at hw
      exact hC.closed v.1 (hv.resolve_right hvl) w.1 (mem_successors_of_mem_next hw)
  exact hclosed.mem_of_reaches hreach (.inl hs)

theorem Round.mem_arrivals {i j : text.Offset} {a b : Slots}
    {pre : List ((Fin P.size × text.Offset) × Slots)} (hr : P.Round text C s l i a pre j b)
    {v : Fin P.size × text.Offset} (hv : v ∈ Graph.nodes pre) :
    v ∈ Graph.nodes ((P.walkTo text l).arrivals ∅ [((s, i), a)]) := by
  obtain ⟨tail, hcomes⟩ := hr.comes
  rw [hcomes, Graph.nodes_append]
  exact Finset.mem_union_left _ hv

theorem Inner.exists_round (hC : P.Inner C lo hi l) (hs : C s) {i j : text.Offset}
    (hfirst : P.firstAt text s l i = some j) (a : Slots) :
    ∃ pre b, P.Round text C s l i a pre j b := by
  obtain ⟨pre, b, tail, hcomes, -, hbefore⟩ :=
    Graph.first_eq_some_iff.mp ((firstAt_eq_some_iff a).mp hfirst)
  refine ⟨pre, b, ⟨tail, hcomes⟩, hbefore, fun v hv => ?_⟩
  obtain ⟨d, hd⟩ := Graph.mem_nodes.mp hv
  have hmem : v ∈ Graph.nodes ((P.walkTo text l).arrivals ∅ [((s, i), a)]) := by
    rw [hcomes, Graph.nodes_append]
    exact Finset.mem_union_left _ hv
  refine (hC.of_arrival hs hmem).resolve_right fun hvl => ?_
  have hno : isAt l v = false := hbefore (v, d) hd
  simp [isAt, hvl] at hno

/-- The end of a match that a search enters first. -/
abbrev firstAccept (P : Program) (task : Task) (seen : Finset (Fin P.size × task.text.Offset))
    (es : List ((Fin P.size × task.text.Offset) × Slots)) :
    Option (Fin P.size × task.text.Offset) :=
  (P.walk task.text).first (P.ends task) seen es

theorem ends_iff (hend : ∀ j : Nat, task.mayEnd j = true) {v : Fin P.size × task.text.Offset} :
    P.ends task v = true ↔ P.instr v.1 = .accept := by
  rw [ends, hend, Bool.and_true, decide_eq_true_eq]

namespace Cycle

variable {i j k : task.text.Offset} {a b : Slots}
  {pre : List ((Fin P.size × task.text.Offset) × Slots)}

section Behind

variable (h : P.Cycle c greedy lo hi x l t) (hend : ∀ j : Nat, task.mayEnd j = true)
include h

theorem exit_notMem_fork : (t, j) ∉ ({(l, j)} : Finset (Fin P.size × task.text.Offset)) := by
  simp [h.exit_ne]

/-- The end of a match has not been entered in the first round. -/
theorem exit_notMem (hC : P.Inner C lo₁ hi₁ l) (hr : P.Round task.text C s l i a pre j b) :
    (t, k) ∉ insert (l, j) (Graph.nodes pre) := by
  intro hmem
  rcases Finset.mem_insert.mp hmem with heq | hmem
  · exact h.exit_ne (congrArg Prod.fst heq)
  · exact hC.running t (hr.inner (t, k) hmem) h.accept

include hend

/-- Behind the fork, the end of a match is found. -/
theorem isSome_firstAccept (b : Slots) {seen : Finset (Fin P.size × task.text.Offset)}
    (hseen : (t, j) ∉ seen) :
    (P.firstAccept task seen ((P.walk task.text).push (l, j) b)).isSome = true :=
  Graph.isSome_first (Graph.mem_nodes_of_new (h.exit_mem_push j b) hseen)
    ((ends_iff hend).mpr h.accept)

/-- **After the first round** a search goes on with the arms of the fork, and finds nothing but what
is behind them. -/
theorem firstAccept_of_round (hC : P.Inner C lo₁ hi₁ l)
    (hr : P.Round task.text C s l i a pre j b) : P.firstAccept task ∅ [((s, i), a)] =
      P.firstAccept task (insert (l, j) (Graph.nodes pre)) ((P.walk task.text).push (l, j) b) := by
  have hnone : ∀ e ∈ pre, P.ends task e.1 = false := fun e he =>
    Bool.eq_false_iff.mpr fun hends =>
      hC.running e.1.1 (hr.inner e.1 (Graph.mem_nodes_of_mem he)) ((ends_iff hend).mp hends)
  have hfork : P.ends task (l, j) = false := by
    rw [Bool.eq_false_iff, Ne, ends_iff hend, h.fork]
    nofun
  obtain ⟨tail, hcomes⟩ := hr.comes
  obtain ⟨stack, hstack⟩ := Graph.exists_arrivals_of_cut hcomes hr.before
  rw [Finset.empty_union] at hstack
  rw [firstAccept, Graph.first_of_arrivals hstack hnone hfork]
  exact Graph.first_append_of_entry (h.exit_mem_push j b) (h.exit_notMem hC hr)
    ((ends_iff hend).mpr h.accept) _

/-- Where another round is not preferred, there is none. -/
theorem firstAccept_lazy (hC : P.Inner C lo₁ hi₁ l) (hr : P.Round task.text C s l i a pre j b)
    (hlazy : greedy = false) :
    P.firstAccept task (insert (l, j) (Graph.nodes pre)) ((P.walk task.text).push (l, j) b) =
      some (t, j) := by
  rw [h.push_eq, hlazy]
  exact Graph.first_cons_of_found (h.exit_notMem hC hr) ((ends_iff hend).mpr h.accept) _ _

/-- **If the part matches nothing more** behind the first round, a match ends there. -/
theorem firstAccept_of_stuck {seen : Finset (Fin P.size × task.text.Offset)}
    (hseen : (t, j) ∉ seen) (hstuck : ∀ k, c.Matches task.text j k → k = j) :
    (P.firstAccept task seen ((P.walk task.text).push (l, j) b)).map Prod.snd = some j := by
  have hstay : ∀ k, Relation.ReflTransGen (c.Matches task.text) j k → k = j := by
    intro k hk
    induction hk with
    | refl => rfl
    | tail _ hstep ih =>
      subst ih
      exact hstuck _ hstep
  obtain ⟨⟨y, k⟩, hyk⟩ := Option.isSome_iff_exists.mp (h.isSome_firstAccept hend b hseen)
  obtain ⟨hends, e, he, hreach⟩ := Graph.reaches_of_first hyk
  have hrepeats : Relation.ReflTransGen (c.Matches task.text) j k :=
    h.repeats_of_reaches (.head (Graph.mem_push.mp he).1 hreach) ((ends_iff hend).mp hends)
  rw [hyk, Option.map_some, hstay k hrepeats]

end Behind

/-! ## The second round in another copy -/

section Apart

variable (h : P.Cycle c greedy lo hi x l t) (hend : ∀ j : Nat, task.mayEnd j = true)
include h

/-- The nodes of two forks with copies of the part can be paired, so that edges lead from pairs to
pairs. -/
theorem exists_alongside {P' : Program} {lo' hi' : Nat} {x' l' t' : Fin P'.size}
    (h' : P'.Cycle c greedy lo' hi' x' l' t') (text : Text) :
    ∃ R : Fin P.size → Fin P'.size → Prop, R l l' ∧
      (∀ y y' z z', R y y' → R z z' → (y = z ↔ y' = z')) ∧
      (∀ y y', R y y' → (P.instr y = .accept ↔ P'.instr y' = .accept)) ∧
      ∀ v v', Alongside R v v' →
        List.Forall₂ (Alongside R) ((P.walk text).next v) ((P'.walk text).next v') := by
  obtain ⟨R, hx, hR⟩ := h.body.lays.exists_pairing h'.body.lays h.body.pos h'.body.pos
  have hfork : ∀ y y', R y y' → y ≠ l ∧ y' ≠ l' := by
    intro y y' hy
    have hwithin := hR.within y y' hy
    have hl := h.body.beyond
    have hl' := h'.body.beyond
    unfold Beyond at hl hl'
    rw [Ne, Fin.ext_iff, Ne, Fin.ext_iff]
    omega
  -- a match ends at neither of two paired addresses, and not at the forks
  have hrunning : ∀ y y', (R y y' ∨ y = l ∧ y' = l') →
      P.instr y ≠ .accept ∧ P'.instr y' ≠ .accept := by
    rintro y y' (hy | ⟨rfl, rfl⟩)
    · exact (hR.instr y y' hy).ne_accept
    · rw [h.fork, h'.fork]
      exact ⟨nofun, nofun⟩
  have hexit : ∀ y y', (R y y' ∨ y = l ∧ y' = l') → y ≠ t ∧ y' ≠ t' := by
    intro y y' hy
    obtain ⟨hacc, hacc'⟩ := hrunning y y' hy
    exact ⟨fun heq => hacc (heq ▸ h.accept), fun heq => hacc' (heq ▸ h'.accept)⟩
  refine ⟨_, .inl (.inr ⟨rfl, rfl⟩), unique_insert (unique_insert hR.unique hfork) hexit, ?_, ?_⟩
  · rintro y y' (hy | ⟨rfl, rfl⟩)
    · exact iff_of_false (hrunning y y' hy).1 (hrunning y y' hy).2
    · exact iff_of_true h.accept h'.accept
  · rintro ⟨y, i⟩ ⟨y', _⟩ ⟨(hy | ⟨rfl, rfl⟩) | ⟨rfl, rfl⟩, rfl⟩
    · exact forall₂_next_of_rel ((hR.instr y y' hy).mono fun _ _ => .inl) i
    · refine forall₂_next_of_rel ?_ i
      rw [h.fork, h'.fork]
      exact Shape.rel_arms greedy (.inl (.inl hx)) (.inr ⟨rfl, rfl⟩)
    · simp [walk, h.accept, h'.accept]

include hend

/-- **Second rounds in two copies** of the part find the end of a match at the same offset. -/
theorem offset_firstAccept {P' : Program} {lo' hi' : Nat} {x' l' t' : Fin P'.size}
    (h' : P'.Cycle c greedy lo' hi' x' l' t') (b b' : Slots) :
    (P.firstAccept task {(l, j)} ((P.walk task.text).push (l, j) b)).map Prod.snd =
      (P'.firstAccept task {(l', j)} ((P'.walk task.text).push (l', j) b')).map Prod.snd := by
  obtain ⟨R, hl, hunique, haccept, hnext⟩ := h.exists_alongside h' task.text
  refine offset_first_of_alongside hunique hnext ?_ ?_ ?_
  · intro v v' hv
    rw [Bool.eq_iff_iff, ends_iff hend, ends_iff hend, haccept _ _ hv.1]
  · intro v v' hv
    rw [Finset.mem_singleton, Finset.mem_singleton]
    exact alongside_unique hunique v v' (l, j) (l', j) hv ⟨hl, rfl⟩
  · rw [Graph.push, Graph.push, List.forall₂_map_left_iff, List.forall₂_map_right_iff]
    exact hnext (l, j) (l', j) ⟨hl, rfl⟩

/-- **A second round in another copy** of the part is not touched by the first one. -/
theorem firstAccept_apart (hroot : P.Rooted) (hC : P.Inner C lo₁ hi₁ l) (hl : Beyond l lo₁ hi₁)
    (hapart : hi₁ ≤ lo ∨ hi ≤ lo₁) (hr : P.Round task.text C s l i a pre j b) :
    P.firstAccept task (insert (l, j) (Graph.nodes pre)) ((P.walk task.text).push (l, j) b) =
      P.firstAccept task {(l, j)} ((P.walk task.text).push (l, j) b) := by
  obtain ⟨C', hx, hC'⟩ := h.body.lays.exists_inner h.body.pos
  refine Graph.first_of_dead (by simp) ?_
  rintro ⟨y, k⟩ hmem hne ⟨e, he, hreach⟩
  have hy : C y := hr.inner (y, k) ((Finset.mem_insert.mp hmem).resolve_left (by simpa using hne))
  have hy' : C' y ∨ y = l ∨ y = t :=
    h.of_reaches hC' hx (.head (Graph.mem_push.mp he).1 hreach) (.inr (.inl rfl))
  -- the two copies have nothing in common but the address 0
  have hzero : (y : Nat) = 0 := by
    have hrange := hC.range y hy
    rcases hy' with hy' | rfl | rfl
    · have hrange' := hC'.range y hy'
      have := h.body.pos
      omega
    · exact absurd rfl (hC.ne_of_beyond hl hy)
    · exact absurd h.accept (hC.running y hy)
  obtain ⟨hpos, hfail⟩ := hroot
  obtain rfl : y = ⟨0, hpos⟩ := Fin.ext hzero
  refine Graph.mem_dead.mpr fun v hv => ?_
  rcases hv.cases_head with rfl | ⟨v', hv', -⟩
  · rw [Bool.eq_false_iff, Ne, ends_iff hend, hfail]
    nofun
  · rw [next_walk_of_fail hfail] at hv'
    cases hv'

end Apart

end Cycle

/-! ## The second round in the same copy -/

/-- Ways from the part to the end of a match lead through the fork. -/
theorem Inner.exists_reaches_fork (hC : P.Inner C lo hi l) (hl : Beyond l lo hi)
    {v u : Fin P.size × text.Offset} (hv : C v.1) (h : (P.walk text).Reaches v u)
    (hu : P.instr u.1 = .accept) : ∃ k, (P.walkTo text l).Reaches v (l, k) := by
  induction h using Relation.ReflTransGen.head_induction_on with
  | refl => exact absurd hu (hC.running u.1 hv)
  | @head v v' hedge _ ih =>
    have hcut : v' ∈ (P.walkTo text l).next v := by
      simpa [Graph.cut, isAt, hC.ne_of_beyond hl hv] using hedge
    rcases hC.closed v.1 hv v'.1 (mem_successors_of_mem_next hedge) with hv' | hv'
    · obtain ⟨k, hk⟩ := ih hv'
      exact ⟨k, .head hcut hk⟩
    · obtain ⟨y, k⟩ := v'
      obtain rfl : y = l := hv'
      exact ⟨k, .head hcut (.refl _)⟩

/-- No node that leads to the fork is entered both in a round that ends at one offset and in a round
that ends at another one, if all ways through the part come to an end. -/
theorem Round.eq_of_mem {i i' j k : text.Offset} {a a' b b' : Slots}
    {pre pre' : List ((Fin P.size × text.Offset) × Slots)} {v : Fin P.size × text.Offset}
    (hterm : ∀ i, (P.walkTo text l).Terminates (s, i)) (hr : P.Round text C s l i a pre j b)
    (hv : v ∈ Graph.nodes pre) (hr' : P.Round text C s l i' a' pre' k b')
    (hv' : v ∈ Graph.nodes pre') (hreach : (P.walkTo text l).Reaches v (l, j)) : j = k := by
  have hvterm : (P.walkTo text l).Terminates v := (hterm i).of_arrival (hr.mem_arrivals hv)
  have hat : ∀ k : text.Offset, isAt l (l, k) = true := fun k => by simp [isAt]
  obtain ⟨tail, hcomes⟩ := hr.comes
  obtain ⟨tail', hcomes'⟩ := hr'.comes
  have hfirst :=
    Graph.first_push_of_before hvterm hcomes hr.before (hat j) hv hreach (hat j) b
  have hsecond :=
    Graph.first_push_of_before hvterm hcomes' hr'.before (hat k) hv' hreach (hat j) b
  exact congrArg Prod.snd (Option.some.inj (hfirst.symm.trans hsecond))

namespace Cycle

variable {i j k : task.text.Offset} {a b b' : Slots}
  {pre pre' : List ((Fin P.size × task.text.Offset) × Slots)}
  {v : Fin P.size × task.text.Offset}

section Same

variable (h : P.Cycle c true lo hi s l t) (hC : P.Inner C lo hi l)
  (hend : ∀ j : Nat, task.mayEnd j = true)
include h hC

/-- Where the part leads on from the end of the first round, the second one comes to the fork again
as if nothing had been entered. -/
theorem exists_second_round (hr : P.Round task.text C s l j b pre k b') (hjk : j < k) :
    ∃ rest, (P.walk task.text).arrivals {(l, j)} ((P.walk task.text).push (l, j) b) =
      (pre ++ ((l, k), b') :: (P.walk task.text).arrivals
        (insert (l, k) ({(l, j)} ∪ Graph.nodes pre)) ((P.walk task.text).push (l, k) b')) ++
        rest := by
  have hnew : ∀ v ∈ Graph.nodes (pre ++ [((l, k), b')]), v ∉ ({(l, j)} : Finset _) := by
    intro v hv hmem
    obtain rfl : v = (l, j) := Finset.mem_singleton.mp hmem
    rw [Graph.nodes_append, Finset.mem_union] at hv
    rcases hv with hv | hv
    · exact hC.ne_of_beyond h.body.beyond (hr.inner _ hv) rfl
    · exact absurd (show j = k by simpa using hv) (ne_of_lt hjk)
  obtain ⟨tail, hcomes⟩ := hr.comes
  obtain ⟨stack, hstack⟩ := Graph.exists_arrivals_of_cut hcomes hr.before
  obtain ⟨behind, hbehind⟩ := Graph.exists_arrivals_of_subset
    (hstack.trans (List.append_cons ..)) (Finset.empty_subset {(l, j)}) hnew
  rw [List.append_assoc, List.singleton_append] at hbehind
  obtain ⟨stack', rfl⟩ := Graph.exists_arrivals_of_entered hbehind
  have hpush : (P.walk task.text).push (l, j) b = [((s, j), b)] ++ [((t, j), b)] := h.push_eq j b
  rw [hpush, Graph.arrivals_append, hbehind, Graph.arrivals_append, ← List.cons_append,
    ← List.append_assoc, List.append_assoc]
  exact ⟨_, rfl⟩

/-- Behind the fork of the second round, the end of a match is entered. -/
theorem exit_mem_second_round (hr : P.Round task.text C s l j b pre k b') :
    (t, k) ∈ Graph.nodes ((P.walk task.text).arrivals (insert (l, k) ({(l, j)} ∪ Graph.nodes pre))
      ((P.walk task.text).push (l, k) b')) := by
  refine Graph.mem_nodes_of_new (h.exit_mem_push k b') ?_
  simp only [Finset.mem_insert, Finset.mem_union, Finset.mem_singleton, not_or, Prod.ext_iff]
  exact ⟨fun heq => h.exit_ne heq.1, fun heq => h.exit_ne heq.1,
    fun hmem => hC.running t (hr.inner (t, k) hmem) h.accept⟩

include hend

/-- What is entered in the first round leads to the fork where that round ends, or to no match. -/
theorem reaches_of_before (hr : P.Round task.text C s l i a pre j b) (hv : v ∈ Graph.nodes pre)
    (hlive : v ∉ (P.walk task.text).dead (P.ends task)) :
    (P.walkTo task.text l).Reaches v (l, j) := by
  rw [Graph.mem_dead] at hlive
  push Not at hlive
  obtain ⟨u, hu, hends⟩ := hlive
  have hacc : P.instr u.1 = .accept := (ends_iff hend).mp (by simpa using hends)
  obtain ⟨k, hk⟩ := hC.exists_reaches_fork h.body.beyond (hr.inner v hv) hu hacc
  obtain ⟨tail, hcomes⟩ := hr.comes
  exact Graph.reaches_of_before hcomes hv hk fun hmem =>
    hC.ne_of_beyond h.body.beyond (hr.inner (l, k) hmem) rfl

/-- **If the part does not match empty** behind the first round, the second round comes to nothing
that the first one has entered, but for what leads to no match. -/
theorem firstAccept_of_advancing (hr : P.Round task.text C s l i a pre j b)
    (hempty : ¬ c.Matches task.text j j) :
    P.firstAccept task (insert (l, j) (Graph.nodes pre)) ((P.walk task.text).push (l, j) b) =
      P.firstAccept task {(l, j)} ((P.walk task.text).push (l, j) b) := by
  refine Graph.first_of_dead (by simp) ?_
  rintro v hmem hne ⟨e, he, hev⟩
  have hv : v ∈ Graph.nodes pre := (Finset.mem_insert.mp hmem).resolve_left (by simpa using hne)
  by_contra hlive
  have hback : (P.walk task.text).Reaches v (l, j) :=
    Graph.reaches_of_cut (h.reaches_of_before hC hend hr hv hlive)
  rcases (mem_next_of_arms h.fork).mp (Graph.mem_push.mp he).1 with heq | heq
  -- the part would lead from the fork back to it without reading anything
  · exact hempty (h.matches_of_reaches (heq ▸ hev.trans hback))
  · rw [heq] at hev
    rcases hev.cases_head with heq | ⟨w, hw, -⟩
    · exact hC.running t (by simpa [← heq] using hr.inner v hv) h.accept
    · simp [walk, h.accept] at hw

/-- What the second round enters before it finds the end of a match, and without reading anything,
it enters before it comes to the fork again, if the part leads on from there. -/
theorem mem_of_before (hr : P.Round task.text C s l j b pre k b') (hjk : j < k)
    {tail : List ((Fin P.size × task.text.Offset) × Slots)}
    (hsecond : (P.walk task.text).arrivals {(l, j)} ((P.walk task.text).push (l, j) b) =
      pre' ++ tail)
    (hpre' : ∀ e ∈ pre', P.ends task e.1 = false) (hv : v ∈ Graph.nodes pre') (hvj : v.2 ≤ j) :
    v ∈ Graph.nodes pre := by
  obtain ⟨rest, hrest⟩ := h.exists_second_round hC hr hjk
  obtain ⟨d, hd⟩ := Graph.mem_nodes.mp (h.exit_mem_second_round hC hr)
  obtain ⟨d', hd'⟩ := Graph.mem_nodes.mp hv
  have hfront := Graph.mem_of_before (hrest.symm.trans hsecond)
    ⟨((t, k), d), List.mem_append_right _ (List.mem_cons_of_mem _ hd),
      (ends_iff hend).mpr h.accept⟩ hpre' (v, d') hd'
  have hkv : ¬ k ≤ v.2 := fun hle => absurd (le_trans hle hvj) (not_le_of_gt hjk)
  rcases List.mem_append.mp hfront with hfront | hfront
  · exact Graph.mem_nodes_of_mem hfront
  rcases List.mem_cons.mp hfront with heq | hfront
  · cases heq
    exact absurd (le_refl k) hkv
  · obtain ⟨e, he, hreach⟩ := Graph.exists_reaches_of_arrival (Graph.mem_nodes_of_mem hfront)
    exact absurd (readsTo_of_reaches (.head (Graph.mem_push.mp he).1 hreach)).le hkv

/-- **If the part leads on** behind the first round, and all ways through it come to an end, the
second round is not touched by the first one. -/
theorem firstAccept_of_further (hterm : ∀ i, (P.walkTo task.text l).Terminates (s, i))
    (hr : P.Round task.text C s l i a pre j b) (hr' : P.Round task.text C s l j b pre' k b')
    (hjk : j < k) :
    P.firstAccept task (insert (l, j) (Graph.nodes pre)) ((P.walk task.text).push (l, j) b) =
      P.firstAccept task {(l, j)} ((P.walk task.text).push (l, j) b) := by
  obtain ⟨z, hz⟩ :=
    Option.isSome_iff_exists.mp (h.isSome_firstAccept hend b h.exit_notMem_fork (j := j))
  obtain ⟨before, b₃, tail, hsecond, hends, hbefore⟩ := Graph.first_eq_some_iff.mp hz
  rw [hz]
  refine Graph.first_of_before (by simp) hsecond hends hbefore (fun v hv hv₃ => ?_) fun hmem => ?_
  · by_contra hlive
    have hv : v ∈ Graph.nodes pre := by
      obtain ⟨d, hd⟩ := Graph.mem_nodes.mp hv₃
      have hnew := Graph.notMem_seen_of_arrival (v, d) (hsecond ▸ List.mem_append_left _ hd)
      exact (Finset.mem_insert.mp hv).resolve_left (by simpa using hnew)
    have hback := h.reaches_of_before hC hend hr hv hlive
    have hvj : v.2 ≤ j := (readsTo_of_reaches (Graph.reaches_of_cut hback)).le
    have hv' : v ∈ Graph.nodes pre' := h.mem_of_before hC hend hr' hjk hsecond hbefore hv₃ hvj
    exact absurd (hr.eq_of_mem hterm hv hr' hv' hback) (ne_of_lt hjk)
  · rcases Finset.mem_insert.mp hmem with rfl | hmem
    · rw [ends_iff hend, h.fork] at hends
      cases hends
    · exact hC.running z.1 (hr.inner z hmem) ((ends_iff hend).mp hends)

/-- **The second round finds the end of a match where it would if nothing had been entered** but the
fork, unless the part matches both empty and more, and either prefers to match empty or has ways
that do not come to an end. -/
theorem firstAccept_same (hs : C s) (hr : P.Round task.text C s l i a pre j b)
    (hagain : c.Matches task.text j j → (∃ k, j < k ∧ c.Matches task.text j k) →
      (∀ i, (P.walkTo task.text l).Terminates (s, i)) ∧ P.firstAt task.text s l j ≠ some j) :
    (P.firstAccept task (insert (l, j) (Graph.nodes pre))
        ((P.walk task.text).push (l, j) b)).map Prod.snd =
      (P.firstAccept task {(l, j)} ((P.walk task.text).push (l, j) b)).map Prod.snd := by
  by_cases hempty : c.Matches task.text j j
  · by_cases hmore : ∃ k, j < k ∧ c.Matches task.text j k
    · obtain ⟨hterm, hne⟩ := hagain hempty hmore
      obtain ⟨k, hk⟩ := Option.isSome_iff_exists.mp (h.body.isSome_firstAt hempty)
      obtain ⟨pre', b', hr'⟩ := hC.exists_round hs hk b
      have hjk : j < k := lt_of_le_of_ne (readsTo_of_firstAt hk).le fun heq => hne (heq ▸ hk)
      rw [h.firstAccept_of_further hC hend hterm hr hr' hjk]
    · have hstuck : ∀ k, c.Matches task.text j k → k = j := by
        intro k hk
        by_contra hne
        exact hmore ⟨k, lt_of_le_of_ne (c.le_of_matches j k hk) (Ne.symm hne), hk⟩
      rw [h.firstAccept_of_stuck hend (h.exit_notMem hC hr) hstuck,
        h.firstAccept_of_stuck hend h.exit_notMem_fork hstuck]
  · rw [h.firstAccept_of_advancing hC hend hr hempty]

end Same

end Cycle

end Program

end Lockstep
