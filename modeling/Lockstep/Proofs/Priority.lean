import Lockstep.Proofs.Advancing
import Lockstep.Proofs.Backtracking
import Lockstep.Proofs.Extent

/-!
# The preferred match

Where no body of a repetition matches empty, all ways through a program come to an end. Then a
depth-first search that enters no node twice finds first what a backtracking matcher finds, which
may come to the same place many times: from the second time on, it fails there as it did before.

- `Graph.Terminates`: all ways from a node come to an end.
- `Program.firstOf`: what a depth-first search finds first.
- `Program.Spans.yields`: it is what the matcher of a shape finds.
- `Expr.backtrack`: what backtracking finds from an offset on.
- `Machine.tryMatch_eq_backtrack`: the answer of a machine that prefers the first match.
-/

namespace Lockstep

/-! ## Ways that come to an end -/

namespace Graph

variable {ν α : Type} {G : Graph ν α} {v w : ν}

/-- All ways from a node come to an end. -/
def Terminates (G : Graph ν α) (v : ν) : Prop := Acc (fun w v => w ∈ G.next v) v

theorem terminates_of_forall (h : ∀ w ∈ G.next v, G.Terminates w) : G.Terminates v :=
  Acc.intro v h

/-- No way leads back to where it comes from. -/
theorem Terminates.not_reaches (h : G.Terminates v) (hw : w ∈ G.next v) : ¬ G.Reaches w v := by
  induction h generalizing w with
  | intro v _ ih =>
    intro hback
    rcases hback.cases_head with rfl | ⟨u, hu, hrest⟩
    -- the node would be behind itself
    · exact ih w hw hw (.refl w)
    · exact ih w hw hu (hrest.trans (.head hw (.refl w)))

/-- A search that enters such a node goes on as if the node had not been entered. -/
theorem arrivals_single [Fintype ν] [DecidableEq ν] (h : G.Terminates v) (a : α) :
    G.arrivals ∅ [(v, a)] = (v, a) :: G.arrivals ∅ (G.push v a) := by
  rw [arrivals_cons_of_notMem (Finset.notMem_empty v), List.append_nil]
  congr 1
  -- what is behind the node does not lead back to it, and never asks for its mark
  refine arrivals_congr (C := fun u => ∃ w ∈ G.next v, G.Reaches w u) ?_ (fun u hu => ?_) ?_
  · rintro u ⟨w, hw, hreach⟩ u' hu'
    exact ⟨w, hw, hreach.trans (.head hu' (.refl u'))⟩
  · obtain ⟨w, hw, hreach⟩ := hu
    have hne : u ≠ v := fun heq => h.not_reaches hw (heq ▸ hreach)
    simp [hne]
  · exact fun e he => ⟨e.1, (mem_push.mp he).1, .refl e.1⟩

end Graph

/-! ## What a depth-first search finds first -/

namespace Program

variable {P : Program} {task : Task}

/-- The slots of the match that a depth-first search from some entries finds first. -/
def firstOf (P : Program) (task : Task)
    (es : List ((Fin P.size × task.text.Offset) × Slots)) : Option Slots :=
  (P.matchesOf task ((P.walk task.text).arrivals ∅ es)).head?.map (·.2)

@[simp] theorem firstOf_nil : P.firstOf task [] = none := by
  unfold firstOf
  rw [Graph.arrivals_nil, matchesOf_nil]
  rfl

/-- Entries that lead to no match are forgotten. -/
theorem firstOf_append (es es' : List ((Fin P.size × task.text.Offset) × Slots)) :
    P.firstOf task (es ++ es') = (P.firstOf task es).or (P.firstOf task es') := by
  unfold firstOf
  cases hes : P.matchesOf task ((P.walk task.text).arrivals ∅ es) with
  -- a part that has led to no match is not entered again, and would lead to none
  | nil =>
    rw [matchesOf_arrivals_append hes]
    rfl
  | cons m ms =>
    rw [Graph.arrivals_append, matchesOf_append, hes]
    rfl

theorem firstOf_pair (e e' : (Fin P.size × task.text.Offset) × Slots) :
    P.firstOf task [e, e'] = (P.firstOf task [e]).or (P.firstOf task [e']) :=
  firstOf_append [e] [e']

/-- All ways from a node come to an end, and a search from there finds first what is given for its
slots. -/
structure Yields (P : Program) (task : Task) (e : Fin P.size × task.text.Offset)
    (result : Slots → Option Slots) : Prop where
  terminates : (P.walk task.text).Terminates e
  firstOf : ∀ slots, P.firstOf task [(e, slots)] = result slots

variable {s t x y : Fin P.size} {i j : task.text.Offset} {result result' : Slots → Option Slots}

/-- A node that is not the end of a match yields what its edges lead to. -/
theorem yields_of_next {e : Fin P.size × task.text.Offset}
    (hterminates : ∀ e' ∈ (P.walk task.text).next e, (P.walk task.text).Terminates e')
    (hacc : P.instr e.1 ≠ .accept)
    (hresult : ∀ slots, P.firstOf task ((P.walk task.text).push e slots) = result slots) :
    P.Yields task e result := by
  have hhere := Graph.terminates_of_forall hterminates
  refine ⟨hhere, fun slots => ?_⟩
  rw [← hresult]
  unfold Program.firstOf
  rw [Graph.arrivals_single hhere, matchesOf_cons_of_not_ends (ends_eq_false_of_ne_accept hacc e.2)]

/-- A node with a single edge yields what that leads to. -/
theorem Yields.of_single {e e' : Fin P.size × task.text.Offset} (h : P.Yields task e' result)
    (hnext : (P.walk task.text).next e = [e']) (hacc : P.instr e.1 ≠ .accept) :
    P.Yields task e fun slots => result ((P.walk task.text).carry e slots) := by
  refine yields_of_next (fun e'' he'' => ?_) hacc fun slots => ?_
  · rw [hnext, List.mem_singleton] at he''
    exact he'' ▸ h.terminates
  · unfold Graph.push
    rw [hnext]
    exact h.firstOf _

/-- A node without edges yields nothing. -/
theorem yields_none {e : Fin P.size × task.text.Offset}
    (hnext : (P.walk task.text).next e = []) (hacc : P.instr e.1 ≠ .accept) :
    P.Yields task e fun _ => none := by
  refine yields_of_next (fun e' he' => ?_) hacc fun slots => ?_
  · rw [hnext] at he'
    cases he'
  · unfold Graph.push
    rw [hnext]
    exact firstOf_nil

/-- A fork with two arms yields what the first one yields, or else the second one. -/
theorem Yields.fork (hx : P.Yields task (x, i) result) (hy : P.Yields task (y, i) result')
    (hs : P.instr s = .fork [x, y]) :
    P.Yields task (s, i) fun slots => (result slots).or (result' slots) := by
  refine yields_of_next (fun e he => ?_) (by rw [hs]; nofun) fun slots => ?_
  · rw [next_walk_of_fork hs] at he
    have he : e = (x, i) ∨ e = (y, i) := by simpa using he
    rcases he with rfl | rfl
    · exact hx.terminates
    · exact hy.terminates
  · have hcarry : (P.walk task.text).carry (s, i) slots = slots := by
      simp only [walk, hs]
    unfold Graph.push
    rw [next_walk_of_fork hs, hcarry]
    show P.firstOf task [((x, i), slots), ((y, i), slots)] = _
    rw [firstOf_pair, hx.firstOf, hy.firstOf]

/-- The arms of a repetition yield what its body yields and what is behind it, in the order that is
preferred. -/
theorem Yields.arms {greedy : Bool} (hx : P.Yields task (x, i) result)
    (ht : P.Yields task (t, i) result') (hs : P.instr s = .fork (Shape.arms greedy x t)) :
    P.Yields task (s, i) fun slots => Matcher.prefer greedy (result slots) (result' slots) := by
  cases greedy with
  | true => exact hx.fork ht hs
  | false => exact ht.fork hx hs

/-! ## Shapes and their matchers -/

section Shapes

variable {c : Shape} {follow : task.text.Offset → Slots → Option Slots}

/-- A repetition yields what its matcher finds, if its body does. -/
theorem yields_star {greedy : Bool} (hs : P.instr s = .fork (Shape.arms greedy x t))
    (hempty : ∀ i, ¬ c.Matches task.text i i)
    (hbody : ∀ i follow', (∀ j, c.Matches task.text i j → P.Yields task (s, j) (follow' j)) →
      P.Yields task (x, i) fun slots => c.matcher task.text i slots follow')
    (ht : ∀ j, Relation.ReflTransGen (c.Matches task.text) i j →
      P.Yields task (t, j) (follow j)) :
    P.Yields task (s, i) fun slots =>
      Matcher.star greedy (c.matcher task.text) i slots follow := by
  induction i using Text.offset_induction with
  | step i ih =>
    -- the body leads on in the text, so that the fork behind it has been dealt with
    have hagain : P.Yields task (x, i) fun slots => c.matcher task.text i slots fun j slots' =>
        if i < j then Matcher.star greedy (c.matcher task.text) j slots' follow else none := by
      refine hbody i _ fun j hj => ?_
      have hlt : i < j := Shape.lt_of_matches hempty hj
      simp only [if_pos hlt]
      exact ih j hlt fun k hk => ht k (.head hj hk)
    have hforked := hagain.arms (ht i .refl) hs
    have hstar : (fun slots => Matcher.star greedy (c.matcher task.text) i slots follow) =
        fun slots => Matcher.prefer greedy (c.matcher task.text i slots fun j slots' =>
          if i < j then Matcher.star greedy (c.matcher task.text) j slots' follow else none)
          (follow i slots) := by
      funext slots
      rw [Matcher.star]
    rw [hstar]
    exact hforked

theorem yields_read {cls : SymbolClass} (hs : P.instr s = .consume cls t)
    (ht : ∀ j, (Shape.read cls).Matches task.text i j → P.Yields task (t, j) (follow j)) :
    P.Yields task (s, i) fun slots => Matcher.read cls.contains i slots follow := by
  have hacc : P.instr s ≠ .accept := by
    rw [hs]
    nofun
  have hcarry : ∀ slots, (P.walk task.text).carry (s, i) slots = slots := fun slots => by
    simp only [walk, hs]
  have hnext : (P.walk task.text).next (s, i) = _ := next_walk_of_consume hs
  unfold Matcher.read
  cases hread : task.text.read? i with
  | none =>
    rw [hread] at hnext
    exact yields_none hnext hacc
  | some found =>
    obtain ⟨r, j⟩ := found
    rw [hread] at hnext
    by_cases hr : cls.contains r = true
    · have htarget := (ht j ⟨r, hread, hr⟩).of_single (hnext.trans (if_pos hr)) hacc
      simpa only [hcarry, if_pos hr] using htarget
    · have hnone := yields_none (hnext.trans (if_neg hr)) hacc
      simpa only [if_neg hr] using hnone

theorem yields_check {cond : Conditions} (hs : P.instr s = .assert cond t)
    (ht : ∀ j, (Shape.check cond).Matches task.text i j → P.Yields task (t, j) (follow j)) :
    P.Yields task (s, i) fun slots => Matcher.check cond i slots follow := by
  have hacc : P.instr s ≠ .accept := by
    rw [hs]
    nofun
  have hcarry : ∀ slots, (P.walk task.text).carry (s, i) slots = slots := fun slots => by
    simp only [walk, hs]
  have hnext : (P.walk task.text).next (s, i) = _ := next_walk_of_assert hs
  unfold Matcher.check
  by_cases hcond : cond ⊆ task.text.context i
  · have htarget := (ht i ⟨rfl, hcond⟩).of_single (hnext.trans (if_pos hcond)) hacc
    simpa only [hcarry, if_pos hcond] using htarget
  · have hnone := yields_none (hnext.trans (if_neg hcond)) hacc
    simpa only [if_neg hcond] using hnone

/-- **A program of some shape yields what the matcher of the shape finds**, if that is told to go on
with what lies behind the shape. -/
theorem Spans.yields (h : P.Spans c s t) (hloops : c.LoopsAdvance task.text)
    (ht : ∀ j, c.Matches task.text i j → P.Yields task (t, j) (follow j)) :
    P.Yields task (s, i) fun slots => c.matcher task.text i slots follow := by
  induction h generalizing i follow with
  | never hc hs =>
    simp only [Shape.matcher_of_isNever hc]
    exact yields_none (next_walk_of_fail hs) (by rw [hs]; nofun)
  | @skip s t hs =>
    have hcarry : ∀ slots, (P.walk task.text).carry (s, i) slots = slots := fun slots => by
      simp only [walk, hs]
    have htarget := (ht i rfl).of_single (next_walk_of_jump hs) (by rw [hs]; nofun)
    simp only [hcarry] at htarget
    exact htarget
  | read hs => exact yields_read hs ht
  | check hs => exact yields_check hs ht
  | @save slot s t hs =>
    have hcarry : ∀ slots, (P.walk task.text).carry (s, i) slots =
        slots.setIfInBounds slot (some (i : Nat)) := fun slots => by
      simp only [walk, hs]
    have htarget := (ht i rfl).of_single (next_walk_of_save hs) (by rw [hs]; nofun)
    simp only [hcarry] at htarget
    exact htarget
  -- what follows the first part is what the second one yields
  | seq _ _ ihc ihd =>
    exact ihc hloops.1 fun j hj => ihd hloops.2 fun k hk => ht k ⟨j, hj, hk⟩
  | choice hs _ _ ihc ihd =>
    exact (ihc hloops.1 fun j hj => ht j (.inl hj)).fork
      (ihd hloops.2 fun j hj => ht j (.inr hj)) hs
  -- no fork has been made for a part that never matches
  | @first c d s t _ hd ih =>
    have hc := ih hloops.1 fun j hj => ht j (.inl hj)
    have hchoice : (fun slots => (Shape.choice c d).matcher task.text i slots follow) =
        fun slots => c.matcher task.text i slots follow := by
      funext slots
      show (c.matcher task.text i slots follow).or (d.matcher task.text i slots follow) = _
      rw [Shape.matcher_of_isNever hd, Option.or_none]
    rw [hchoice]
    exact hc
  | @second c d s t hc _ ih =>
    have hd := ih hloops.2 fun j hj => ht j (.inr hj)
    have hchoice : (fun slots => (Shape.choice c d).matcher task.text i slots follow) =
        fun slots => d.matcher task.text i slots follow := by
      funext slots
      show (c.matcher task.text i slots follow).or (d.matcher task.text i slots follow) = _
      rw [Shape.matcher_of_isNever hc, Option.none_or]
    rw [hchoice]
    exact hd
  | star hs _ ih =>
    exact yields_star hs hloops.1 (fun i follow' hfollow => ih hloops.2 hfollow) ht
  | plus _ hl ih =>
    -- the fork stands behind the body, and leads back to it
    refine ih hloops.2 fun j hj => ?_
    exact yields_star hl hloops.1 (fun i follow' hfollow => ih hloops.2 hfollow)
      fun k hk => ht k ⟨j, hj, hk⟩
  | optional hs _ ih =>
    exact (ih hloops fun j hj => ht j (.inr hj)).arms (ht i (.inl rfl)) hs

end Shapes

end Program

/-! ## Backtracking over a text -/

/-- What follows a match: it counts if it may end where it does. -/
def Task.finish (task : Task) (j : task.text.Offset) (slots : Slots) : Option Slots :=
  if task.mayEnd j then some (slots.setIfInBounds 1 (some (j : Nat))) else none

/-- The slots of the match that backtracking finds from the offset `i` on: the matcher of the
expression starts at one offset after the other, as far as matches may start there. -/
def Expr.backtrack (e : Expr) (task : Task) (i : task.text.Offset) : Option Slots :=
  (task.starts i).findSome? fun i =>
    e.matcher task.text i (Slots.startAt task.width i) task.finish

namespace Program

variable {P : Program} {task : Task} {e : Expr}

theorem yields_accept {t : Fin P.size} (ht : P.instr t = .accept) (j : task.text.Offset) :
    P.Yields task (t, j) (task.finish j) := by
  have hnext : (P.walk task.text).next (t, j) = [] := by
    simp only [walk, ht]
  have hterminates : (P.walk task.text).Terminates (t, j) := by
    refine Graph.terminates_of_forall fun e he => ?_
    rw [hnext] at he
    cases he
  refine ⟨hterminates, fun slots => ?_⟩
  unfold firstOf Task.finish
  rw [Graph.arrivals_single hterminates, Graph.push, hnext, List.map_nil, Graph.arrivals_nil]
  by_cases hend : task.mayEnd j = true
  · rw [if_pos hend, matchesOf_cons_of_ends (by rw [ends_eq_mayEnd_of_accept ht]; exact hend)]
    rfl
  · have hno : P.ends task (t, j) = false := by
      rw [ends_eq_mayEnd_of_accept ht]
      exact Bool.eq_false_iff.mpr hend
    rw [if_neg hend, matchesOf_cons_of_not_ends hno]
    rfl

/-- **The program of an expression finds what backtracking finds**, if the first match is wanted. -/
theorem Implements.reference_eq_backtrack (h : P.Implements e) (task : Task)
    (hloops : e.LoopsAdvance task.text) (hkind : task.kind = .leftmostFirst)
    (i : task.text.Offset) : P.reference task i = e.backtrack task i := by
  obtain ⟨t, hacc, hspans⟩ := h
  have hyields : ∀ i, P.Yields task (P.start, i) fun slots =>
      e.matcher task.text i slots task.finish := by
    intro i
    rw [Expr.matcher_eq_shape]
    exact hspans.yields (Expr.loopsAdvance_shape e hloops) fun j _ => yields_accept hacc j
  rw [reference_eq_findSome?]
  unfold Expr.backtrack
  congr 1
  funext i
  rw [← (hyields i).firstOf]
  simp only [Task.choose, hkind]
  rfl

/-- Another letter of the repetition is taken only where the letter behind it is not there. -/
example : (Expr.concat [
    .star (.group 1 (.alternate [.literal 'a' false, .literal 'b' false])) false,
    .literal 'b' false]).backtrack ⟨.utf8 #[0xFF, 0x61, 0x62, 0x62], .unanchored, .leftmostFirst, 4⟩
      0 = some #[some 1, some 3, some 1, some 2] := by
  decide +kernel

end Program

/-! ## What a machine answers -/

namespace Machine

variable {P : Program} {e : Expr}

/-- **A machine that prefers the first match finds the match that backtracking finds**, with the
slots of its groups as they were written last on the way to it, and answers that there is none if
backtracking fails. -/
theorem tryMatch_eq_backtrack {limit : Nat} (hcompile : e.compile limit = .ok P) {m : Machine P}
    (h : m.Reachable) {env : Environment} (hlimit : m.timeLimit env = none)
    (hkind : m.kind = .leftmostFirst) (hwidth : 2 ≤ m.width) (input : Input)
    (hloops : e.LoopsAdvance input.text) (anchor : Anchor) (pos : input.text.Offset) :
    let wanted := e.backtrack (m.task input.text anchor) pos
    (m.tryMatch env input pos anchor).1 = .ok wanted.isSome ∧
      (m.tryMatch env input pos anchor).2.submatches = wanted.getD (Slots.unset m.width) := by
  intro wanted
  obtain ⟨Q, himplements, -, hreference⟩ :=
    exists_reference_of_compile hcompile h hlimit hwidth input anchor pos
  let task : Task := m.task input.text anchor
  have hbacktrack : Q.reference task pos = e.backtrack task pos :=
    himplements.reference_eq_backtrack task hloops hkind pos
  have hwanted : Q.reference task pos = wanted := hbacktrack
  rw [← hwanted]
  exact hreference

/-- A repetition that would rather stop, with a choice in a group. -/
theorem tryMatch_eq_backtrack_letters :
    let e : Expr := .concat [.star (.group 1 (.alternate [.literal 'a' false, .literal 'b' false]))
      false, .literal 'b' false]
    let P : Program :=
      ⟨9, #v[.fail, .save 2 4, .consume (.single 0x61) 5, .consume (.single 0x62) 5, .fork [2, 3],
        .save 3 6, .fork [7, 1], .consume (.single 0x62) 8, .accept], 6⟩
    let m := new P .leftmostFirst
    let input : Input := { text := .utf8 #[0xFF, 0x61, 0x62, 0x62], searchable := false }
    let wanted := e.backtrack (m.task input.text .unanchored) 0
    e.compile 100 = .ok P ∧ m.Reachable ∧ m.timeLimit {} = none ∧ m.kind = .leftmostFirst ∧
      2 ≤ m.width ∧ e.LoopsAdvance input.text ∧
      (m.tryMatch {} input 0 .unanchored).1 = .ok wanted.isSome ∧
      (m.tryMatch {} input 0 .unanchored).2.submatches = wanted.getD (Slots.unset m.width) := by
  intro e P m input wanted
  have hcompile : e.compile 100 = .ok P := by cbv
  have hreach : m.Reachable := .new .leftmostFirst
  have hlimit : m.timeLimit {} = none := rfl
  have hkind : m.kind = .leftmostFirst := rfl
  have hwidth : 2 ≤ m.width := P.two_le_slotCount
  have hliteral : ∀ c i, ¬ (Expr.literal c false).Matches input.text i i := by
    intro c i hmatches
    cases hmatches with
    | literal hread => exact lt_irrefl i (Text.lt_of_read? hread)
  have hloops : e.LoopsAdvance input.text := by
    refine ⟨⟨fun i hbody => ?_, trivial, trivial, trivial⟩, trivial, trivial⟩
    cases hbody with
    | capture halternate =>
      cases halternate with
      | alternate hmem hmatches =>
        simp only [List.mem_cons, List.not_mem_nil, or_false] at hmem
        rcases hmem with rfl | rfl
        · exact hliteral 'a' i hmatches
        · exact hliteral 'b' i hmatches
  exact ⟨hcompile, hreach, hlimit, hkind, hwidth, hloops,
    tryMatch_eq_backtrack hcompile hreach hlimit hkind hwidth input hloops .unanchored 0⟩

end Machine

end Lockstep
