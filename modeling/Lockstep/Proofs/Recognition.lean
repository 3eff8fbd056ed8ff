import Lockstep.Proofs.Assembling
import Lockstep.Proofs.Language
import Mathlib.Data.Fintype.Prod

/-!
# A program matches what its shape matches

A way through a program of some shape leads from the one address to the other exactly where the
shape matches, and every way that comes to the end of a match leads through the other address; on
its way it writes the slots that the shape writes. That is said of ways with a number of steps,
since a way through the body of a repetition leads back to its fork and is shorter from there on.

- `Shape.Runs`: what a shape matches, with the slots before and behind it.
- `Program.EndsIn`: a way with some number of steps leads to the end of a match.
- `Program.Spans.reaches`: where a shape matches, there is a way.
- `Program.Spans.exists_runs`: a way leads through a place up to which the shape runs.
- `Program.Implements.reaches_iff`: the ways through the program of an expression.
- `Program.Implements.runs_of_endsIn`: what slots they write.
-/

namespace Lockstep

/-! ## Shapes and slots -/

namespace Shape

variable {text : Text}

/-- A shape matches between two offsets and makes some slots of others. -/
def Runs (text : Text) : Shape → text.Offset × Slots → text.Offset × Slots → Prop
  | never, _, _ => False
  | skip, e, e' => e = e'
  | read cls, e, e' => (∃ r, text.read? e.1 = some (r, e'.1) ∧ r ∈ cls) ∧ e.2 = e'.2
  | check cond, e, e' => e = e' ∧ cond ⊆ text.context e.1
  | save slot, e, e' => (e.1, e.2.setIfInBounds slot (some (e.1 : Nat))) = e'
  | seq first second, e, e' => ∃ m, first.Runs text e m ∧ second.Runs text m e'
  | choice first second, e, e' => first.Runs text e e' ∨ second.Runs text e e'
  | star _ body, e, e' => Relation.ReflTransGen (body.Runs text) e e'
  | plus _ body, e, e' => ∃ m, body.Runs text e m ∧ Relation.ReflTransGen (body.Runs text) m e'
  | optional _ body, e, e' => e = e' ∨ body.Runs text e e'

/-- What runs matches. -/
theorem Runs.matches {c : Shape} {e e' : text.Offset × Slots} (h : c.Runs text e e') :
    c.Matches text e.1 e'.1 := by
  induction c generalizing e e' with
  | never => exact h
  | skip => exact congrArg Prod.fst h
  | read cls => exact h.1
  | check cond => exact ⟨congrArg Prod.fst h.1, h.2⟩
  | save slot =>
    show e.1 = e'.1
    rw [← show (e.1, e.2.setIfInBounds slot (some (e.1 : Nat))) = e' from h]
  | seq first second hfirst hsecond =>
    obtain ⟨m, hm, hm'⟩ := h
    exact ⟨m.1, hfirst hm, hsecond hm'⟩
  | choice first second hfirst hsecond => exact h.imp hfirst hsecond
  | star greedy body hbody => exact Relation.ReflTransGen.lift Prod.fst (fun _ _ => hbody) _ _ h
  | plus greedy body hbody =>
    obtain ⟨m, hm, hm'⟩ := h
    exact ⟨m.1, hbody hm, Relation.ReflTransGen.lift Prod.fst (fun _ _ => hbody) _ _ hm'⟩
  | optional greedy body hbody => exact h.imp (congrArg Prod.fst) hbody

end Shape

namespace Program

variable {P : Program} {text : Text}

/-! ## Edges -/

section Edges

variable {s t : Fin P.size} {i : text.Offset}

theorem next_walk_of_fork {arms : List (Fin P.size)} (h : P.instr s = .fork arms) :
    (P.walk text).next (s, i) = arms.map fun arm => (arm, i) := by
  simp only [walk, h]

theorem next_walk_of_jump (h : P.instr s = .jump t) : (P.walk text).next (s, i) = [(t, i)] := by
  simp only [walk, h]

theorem next_walk_of_save {slot : Nat} (h : P.instr s = .save slot t) :
    (P.walk text).next (s, i) = [(t, i)] := by
  simp only [walk, h]

theorem next_walk_of_assert {cond : Conditions} (h : P.instr s = .assert cond t) :
    (P.walk text).next (s, i) = if cond ⊆ text.context i then [(t, i)] else [] := by
  simp only [walk, h]

theorem next_walk_of_fail (h : P.instr s = .fail) : (P.walk text).next (s, i) = [] := by
  simp only [walk, h]

/-- Only a capture write changes the slots. -/
theorem carry_of_ne_save (h : ∀ slot next, P.instr s ≠ .save slot next) (slots : Slots) :
    (P.walk text).carry (s, i) slots = slots := by
  cases hs : P.instr s with
  | save slot next => exact absurd hs (h slot next)
  | fork | assert | jump | fail | accept | consume => simp only [walk, hs]

theorem carry_of_save {slot : Nat} (h : P.instr s = .save slot t) (slots : Slots) :
    (P.walk text).carry (s, i) slots = slots.setIfInBounds slot (some (i : Nat)) := by
  simp only [walk, h]

end Edges

/-- The arms of a fork in front of the body of a repetition. -/
theorem mem_next_of_arms {greedy : Bool} {s x t : Fin P.size} {i : text.Offset}
    (h : P.instr s = .fork (Shape.arms greedy x t)) {e : Fin P.size × text.Offset} :
    e ∈ (P.walk text).next (s, i) ↔ e = (x, i) ∨ e = (t, i) := by
  rw [next_walk_of_fork h]
  cases greedy with
  | true => simp [Shape.arms]
  | false =>
    simp only [Shape.arms, Bool.false_eq_true, if_false, List.map_cons, List.map_nil,
      List.mem_cons, List.not_mem_nil, or_false]
    exact or_comm

/-- A symbol of the class is read. -/
theorem mem_next_of_consume {cls : SymbolClass} {s t : Fin P.size} {i : text.Offset}
    (h : P.instr s = .consume cls t) {e : Fin P.size × text.Offset} :
    e ∈ (P.walk text).next (s, i) ↔ ∃ r j, text.read? i = some (r, j) ∧ r ∈ cls ∧ e = (t, j) := by
  rw [next_walk_of_consume h]
  constructor
  · intro hmem
    split at hmem
    · next r j hread =>
      split at hmem
      · next hr => exact ⟨r, j, hread, hr, List.mem_singleton.mp hmem⟩
      · cases hmem
    · cases hmem
  · rintro ⟨r, j, hread, hr, rfl⟩
    rw [hread]
    dsimp only
    rw [if_pos hr]
    exact List.mem_cons_self

/-! ## Where a shape matches, there is a way -/

/-- A fork in front of a part that leads back to it is gone through as often as the part matches. -/
theorem reaches_of_repeats {R : text.Offset → text.Offset → Prop} {greedy : Bool}
    {s x t : Fin P.size} (hs : P.instr s = .fork (Shape.arms greedy x t))
    (hbody : ∀ i j, R i j → (P.walk text).Reaches (x, i) (s, j)) {i j : text.Offset}
    (h : Relation.ReflTransGen R i j) : (P.walk text).Reaches (s, i) (t, j) := by
  induction h using Relation.ReflTransGen.head_induction_on with
  | refl => exact .head ((mem_next_of_arms hs).mpr (.inr rfl)) (.refl _)
  | head hstep _ ih =>
    exact .head ((mem_next_of_arms hs).mpr (.inl rfl)) ((hbody _ _ hstep).trans ih)

theorem Spans.reaches {c : Shape} {s t : Fin P.size} (h : P.Spans c s t) {i j : text.Offset}
    (hc : c.Matches text i j) : (P.walk text).Reaches (s, i) (t, j) := by
  induction h generalizing i j with
  | never hnever => exact absurd hc (Shape.not_matches_of_isNever hnever i j)
  | skip hs =>
    rw [show i = j from hc]
    refine .head ?_ (.refl _)
    rw [next_walk_of_jump hs]
    exact List.mem_cons_self
  | read hs =>
    obtain ⟨r, hread, hr⟩ := hc
    exact .head ((mem_next_of_consume hs).mpr ⟨r, j, hread, hr, rfl⟩) (.refl _)
  | check hs =>
    obtain ⟨rfl, hcond⟩ := hc
    refine .head ?_ (.refl _)
    rw [next_walk_of_assert hs, if_pos hcond]
    exact List.mem_cons_self
  | save hs =>
    rw [show i = j from hc]
    refine .head ?_ (.refl _)
    rw [next_walk_of_save hs]
    exact List.mem_cons_self
  | seq _ _ ihc ihd =>
    obtain ⟨k, hk, hrest⟩ := hc
    exact (ihc hk).trans (ihd hrest)
  | @choice c d s x y t hs _ _ ihc ihd =>
    rcases hc with hc | hd
    · refine .head ?_ (ihc hc)
      rw [next_walk_of_fork hs]
      simp
    · refine .head ?_ (ihd hd)
      rw [next_walk_of_fork hs]
      simp
  | first _ hd ih =>
    exact ih (hc.resolve_right (Shape.not_matches_of_isNever hd i j))
  | second hd _ ih =>
    exact ih (hc.resolve_left (Shape.not_matches_of_isNever hd i j))
  | star hs _ ih => exact reaches_of_repeats hs (fun _ _ => ih) hc
  | plus _ hl ih =>
    obtain ⟨k, hk, hrest⟩ := hc
    exact (ih hk).trans (reaches_of_repeats hl (fun _ _ => ih) hrest)
  | optional hs _ ih =>
    rcases hc with rfl | hc
    · exact .head ((mem_next_of_arms hs).mpr (.inr rfl)) (.refl _)
    · exact .head ((mem_next_of_arms hs).mpr (.inl rfl)) (ih hc)

/-! ## Ways with a number of steps -/

/-- A way with `n` steps leads to the end of a match: from an address, an offset and some slots to
an offset and the slots that have been made of them. -/
def EndsIn (P : Program) (text : Text) :
    (n : Nat) → (Fin P.size × text.Offset) × Slots → text.Offset × Slots → Prop
  | 0, e, m => P.instr e.1.1 = .accept ∧ (e.1.2, e.2) = m
  | n + 1, e, m => ∃ v ∈ (P.walk text).next e.1,
      EndsIn P text n (v, (P.walk text).carry e.1 e.2) m

theorem exists_endsIn_iff {v : Fin P.size × text.Offset} {k : text.Offset} (slots : Slots) :
    (∃ n slots', P.EndsIn text n (v, slots) (k, slots')) ↔
      ∃ t, (P.walk text).Reaches v (t, k) ∧ P.instr t = .accept := by
  constructor
  · rintro ⟨n, slots', hn⟩
    induction n generalizing v slots with
    | zero =>
      obtain ⟨hacc, hk⟩ := hn
      obtain rfl : v.2 = k := congrArg Prod.fst hk
      exact ⟨v.1, .refl v, hacc⟩
    | succ n ih =>
      obtain ⟨v', hedge, hrest⟩ := hn
      obtain ⟨t, hreach, hacc⟩ := ih _ hrest
      exact ⟨t, .head hedge hreach, hacc⟩
  · rintro ⟨t, hreach, hacc⟩
    induction hreach using Relation.ReflTransGen.head_induction_on generalizing slots with
    | refl => exact ⟨0, slots, hacc, rfl⟩
    | head hedge _ ih =>
      obtain ⟨n, slots', hn⟩ := ih _
      exact ⟨n + 1, slots', _, hedge, hn⟩

/-- Arrivals at the end of a match have come there on a way. -/
theorem exists_endsIn_of_mem_arrivals {seen : Finset (Fin P.size × text.Offset)}
    {v : Fin P.size × text.Offset} {slots : Slots} {e : (Fin P.size × text.Offset) × Slots}
    (he : e ∈ (P.walk text).arrivals seen [(v, slots)]) (hacc : P.instr e.1.1 = .accept) :
    ∃ n, P.EndsIn text n (v, slots) (e.1.2, e.2) := by
  refine Graph.forall_arrivals
    (p := fun w a => ∀ m, (∃ n, P.EndsIn text n (w, a) m) → ∃ n, P.EndsIn text n (v, slots) m)
    ?_ ?_ e he _ ⟨0, hacc, rfl⟩
  · rintro w a hw w' hedge m ⟨n, hn⟩
    exact hw m ⟨n + 1, w', hedge, hn⟩
  · intro e' he'
    rw [List.mem_singleton.mp he']
    exact fun m hm => hm

/-- A way from an instruction that is not the end of a match has a first step. -/
theorem EndsIn.exists_step {n : Nat} {s : Fin P.size} {i : text.Offset} {slots : Slots}
    {k : text.Offset × Slots} (h : P.EndsIn text n ((s, i), slots) k) (hs : P.instr s ≠ .accept) :
    ∃ m v, n = m + 1 ∧ v ∈ (P.walk text).next (s, i) ∧
      P.EndsIn text m (v, (P.walk text).carry (s, i) slots) k := by
  cases n with
  | zero => exact absurd h.1 hs
  | succ m =>
    obtain ⟨v, hedge, hrest⟩ := h
    exact ⟨m, v, rfl, hedge, hrest⟩

/-- No edge leaves from the end of a match. -/
theorem EndsIn.eq_of_accept {n : Nat} {t : Fin P.size} {j : text.Offset} {slots : Slots}
    {m : text.Offset × Slots} (h : P.EndsIn text n ((t, j), slots) m)
    (ht : P.instr t = .accept) : (j, slots) = m := by
  cases n with
  | zero => exact h.2
  | succ n =>
    obtain ⟨v, hedge, -⟩ := h
    have hnone : (P.walk text).next (t, j) = [] := by simp only [walk, ht]
    rw [hnone] at hedge
    cases hedge

/-- A way from a fork in front of a part leads through a place up to which the part runs any
number of times: by induction on the number of steps, since the part leads back to the fork. -/
theorem EndsIn.exists_repeats {R : text.Offset × Slots → text.Offset × Slots → Prop}
    {greedy : Bool} {s x t : Fin P.size} (hs : P.instr s = .fork (Shape.arms greedy x t))
    {k : text.Offset × Slots}
    (hbody : ∀ n i slots, P.EndsIn text n ((x, i), slots) k →
      ∃ m j slots', m ≤ n ∧ R (i, slots) (j, slots') ∧ P.EndsIn text m ((s, j), slots') k)
    {n : Nat} {i : text.Offset} {slots : Slots} (hn : P.EndsIn text n ((s, i), slots) k) :
    ∃ m j slots', m ≤ n ∧ Relation.ReflTransGen R (i, slots) (j, slots') ∧
      P.EndsIn text m ((t, j), slots') k := by
  induction n using Nat.strong_induction_on generalizing i slots with
  | _ n ihn =>
    obtain ⟨m, v, rfl, hedge, hrest⟩ := hn.exists_step (by rw [hs]; nofun)
    rw [carry_of_ne_save (by rw [hs]; nofun)] at hrest
    rcases (mem_next_of_arms hs).mp hedge with rfl | rfl
    -- the way has become shorter when it is back at the fork
    · obtain ⟨m', j, slots', hmm, hstep, hagain⟩ := hbody m i slots hrest
      obtain ⟨m'', j', slots'', hmm', hrepeats, hend⟩ := ihn m' (Nat.lt_succ_of_le hmm) hagain
      exact ⟨m'', j', slots'', by omega, .head hstep hrepeats, hend⟩
    · exact ⟨m, i, slots, Nat.le_succ m, .refl, hrest⟩

/-- **Every way to the end of a match leads through a place up to which the shape runs.** -/
theorem Spans.exists_runs {c : Shape} {s t : Fin P.size} (h : P.Spans c s t) {n : Nat}
    {i : text.Offset} {slots : Slots} {k : text.Offset × Slots}
    (hn : P.EndsIn text n ((s, i), slots) k) :
    ∃ m j slots', m ≤ n ∧ c.Runs text (i, slots) (j, slots') ∧
      P.EndsIn text m ((t, j), slots') k := by
  induction h generalizing n i slots with
  | never _ hs =>
    obtain ⟨m, v, rfl, hedge, -⟩ := hn.exists_step (by rw [hs]; nofun)
    rw [next_walk_of_fail hs] at hedge
    cases hedge
  | skip hs =>
    obtain ⟨m, v, rfl, hedge, hrest⟩ := hn.exists_step (by rw [hs]; nofun)
    rw [carry_of_ne_save (by rw [hs]; nofun)] at hrest
    rw [next_walk_of_jump hs, List.mem_singleton] at hedge
    exact ⟨m, i, slots, Nat.le_succ m, rfl, hedge ▸ hrest⟩
  | read hs =>
    obtain ⟨m, v, rfl, hedge, hrest⟩ := hn.exists_step (by rw [hs]; nofun)
    rw [carry_of_ne_save (by rw [hs]; nofun)] at hrest
    obtain ⟨r, j, hread, hr, rfl⟩ := (mem_next_of_consume hs).mp hedge
    exact ⟨m, j, slots, Nat.le_succ m, ⟨⟨r, hread, hr⟩, rfl⟩, hrest⟩
  | check hs =>
    obtain ⟨m, v, rfl, hedge, hrest⟩ := hn.exists_step (by rw [hs]; nofun)
    rw [carry_of_ne_save (by rw [hs]; nofun)] at hrest
    rw [next_walk_of_assert hs] at hedge
    split at hedge
    · next hcond =>
      rw [List.mem_singleton] at hedge
      exact ⟨m, i, slots, Nat.le_succ m, ⟨rfl, hcond⟩, hedge ▸ hrest⟩
    · cases hedge
  | save hs =>
    obtain ⟨m, v, rfl, hedge, hrest⟩ := hn.exists_step (by rw [hs]; nofun)
    rw [carry_of_save hs] at hrest
    rw [next_walk_of_save hs, List.mem_singleton] at hedge
    exact ⟨m, i, _, Nat.le_succ m, rfl, hedge ▸ hrest⟩
  | seq _ _ ihc ihd =>
    obtain ⟨m, j, slots', hmn, hc, hrest⟩ := ihc hn
    obtain ⟨m', k', slots'', hmm, hd, hend⟩ := ihd hrest
    exact ⟨m', k', slots'', Nat.le_trans hmm hmn, ⟨(j, slots'), hc, hd⟩, hend⟩
  | @choice c d s x y t hs _ _ ihc ihd =>
    obtain ⟨m, v, rfl, hedge, hrest⟩ := hn.exists_step (by rw [hs]; nofun)
    rw [carry_of_ne_save (by rw [hs]; nofun)] at hrest
    rw [next_walk_of_fork hs] at hedge
    have hedge : v = (x, i) ∨ v = (y, i) := by simpa using hedge
    rcases hedge with rfl | rfl
    · obtain ⟨m', j, slots', hmm, hc, hend⟩ := ihc hrest
      exact ⟨m', j, slots', Nat.le_succ_of_le hmm, .inl hc, hend⟩
    · obtain ⟨m', j, slots', hmm, hd, hend⟩ := ihd hrest
      exact ⟨m', j, slots', Nat.le_succ_of_le hmm, .inr hd, hend⟩
  | first _ _ ih =>
    obtain ⟨m, j, slots', hmn, hc, hend⟩ := ih hn
    exact ⟨m, j, slots', hmn, .inl hc, hend⟩
  | second _ _ ih =>
    obtain ⟨m, j, slots', hmn, hc, hend⟩ := ih hn
    exact ⟨m, j, slots', hmn, .inr hc, hend⟩
  | star hs _ ih => exact hn.exists_repeats hs fun _ _ _ => ih
  | plus _ hl ih =>
    obtain ⟨m, j, slots', hmn, hc, hrest⟩ := ih hn
    obtain ⟨m', j', slots'', hmm, hstar, hend⟩ := hrest.exists_repeats hl fun _ _ _ => ih
    exact ⟨m', j', slots'', Nat.le_trans hmm hmn, ⟨(j, slots'), hc, hstar⟩, hend⟩
  | @optional c greedy s x t hs _ ih =>
    obtain ⟨m, v, rfl, hedge, hrest⟩ := hn.exists_step (by rw [hs]; nofun)
    rw [carry_of_ne_save (by rw [hs]; nofun)] at hrest
    rcases (mem_next_of_arms hs).mp hedge with rfl | rfl
    · obtain ⟨m', j, slots', hmm, hc, hend⟩ := ih hrest
      exact ⟨m', j, slots', Nat.le_succ_of_le hmm, .inr hc, hend⟩
    · exact ⟨m, i, slots, Nat.le_succ m, .inl rfl, hrest⟩

/-! ## Programs of expressions -/

/-- A way through the program of an expression runs its shape. -/
theorem Implements.runs_of_endsIn {e : Expr} (h : P.Implements e) {n : Nat} {i : text.Offset}
    {slots : Slots} {m : text.Offset × Slots} (hn : P.EndsIn text n ((P.start, i), slots) m) :
    e.shape.Runs text (i, slots) m := by
  obtain ⟨t, hacc, hspans⟩ := h
  obtain ⟨n', j, slots', -, hruns, hend⟩ := hspans.exists_runs hn
  rw [← hend.eq_of_accept hacc]
  exact hruns

/-- **The program of an expression comes to the end of a match where the expression matches.** -/
theorem Implements.reaches_iff {e : Expr} (h : P.Implements e) {i j : text.Offset} :
    (∃ t, (P.walk text).Reaches (P.start, i) (t, j) ∧ P.instr t = .accept) ↔
      e.Matches text i j := by
  rw [Expr.matches_iff_shape]
  constructor
  · intro hreach
    obtain ⟨n, slots, hn⟩ := (exists_endsIn_iff #[]).mpr hreach
    exact (h.runs_of_endsIn hn).matches
  · intro hmatches
    obtain ⟨t, hacc, hspans⟩ := h
    exact ⟨t, hspans.reaches hmatches, hacc⟩

end Program

end Lockstep
