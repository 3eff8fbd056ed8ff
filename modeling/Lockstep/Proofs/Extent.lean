import Lockstep.Proofs.Agreement
import Lockstep.Proofs.Flattening
import Lockstep.Proofs.Recognition
import Mathlib

/-!
# Where the match lies that is found

A machine that runs the program of an expression finds a match exactly if the expression matches
somewhere, and the match that it finds starts as far left as any does. If the longest match is
wanted, none that starts there ends further right.

- `Program.exists_of_compile`: what compiling an expression yields.
- `Task.Admits`: where a match may lie.
- `Program.mem_explored_iff`: the ends of the matches that start at an offset.
- `Machine.tryMatch_extent`: the match that is found.
-/

namespace Lockstep

/-! ## Compiled programs -/

namespace Program

variable {P : Program} {e : Expr}

theorem SparesMatch.flatten (h : P.SparesMatch) : P.flatten.SparesMatch := by
  intro pc slot next hpc
  rcases (rewired_flatten P).resembles pc with hsame | ⟨arms, -, harms, -⟩
  · exact h pc slot next (hsame.symm.trans hpc)
  · exact absurd (harms.symm.trans hpc) nofun

/-- A compiled program is one that lays out its expression, with the forks flattened. -/
theorem exists_laysOut_of_compile {limit : Nat} (h : e.compile limit = .ok P) :
    ∃ Q : Program, P = Q.flatten ∧ Q.LaysOut e ∧ Q.SparesMatch := by
  obtain ⟨b, hbuild, hfreeze⟩ := Builder.exists_ok_of_bind h
  obtain ⟨Q, hfinish, hflat⟩ := Builder.freeze_eq_ok_iff.mp hfreeze
  obtain ⟨hlays, hgroups⟩ := laysOut_of_build hbuild (finishes_of_finish hfinish)
  exact ⟨Q, hflat, hlays, fun pc slot next hpc => (hgroups pc slot next hpc).1⟩

/-- **A compiled program** is a program of its expression with the forks flattened. -/
theorem exists_of_compile {limit : Nat} (h : e.compile limit = .ok P) :
    ∃ Q : Program, P = Q.flatten ∧ Q.Implements e ∧ Q.SparesMatch := by
  obtain ⟨Q, hflat, hlays, hspares⟩ := exists_laysOut_of_compile h
  exact ⟨Q, hflat, hlays.implements, hspares⟩

end Program

/-! ## What a depth-first search finds -/

/-- A match may lie between two offsets: the first one is among those that are tried from `pos` on,
and the second one is where the anchor wants it. -/
def Task.Admits (task : Task) (pos i j : task.text.Offset) : Prop :=
  task.text.ReadsTo pos i ∧ (task.anchor ≠ .unanchored → (pos : Nat) = 0 ∧ (i : Nat) = 0) ∧
    (task.anchor = .both → (j : Nat) = task.text.endPos)

namespace Task

variable {task : Task} {pos i j : task.text.Offset}

theorem mem_starts : i ∈ task.starts pos ↔ task.text.ReadsTo pos i ∧ task.mayStart i = true := by
  rw [starts, List.mem_filter, Text.mem_offsetsFrom]

theorem admits_iff : task.Admits pos i j ↔ i ∈ task.starts pos ∧ task.mayEnd j = true := by
  rw [mem_starts]
  unfold Admits mayStart mayEnd
  simp only [Bool.or_eq_true, decide_eq_true_eq]
  constructor
  · rintro ⟨hreads, hstart, hend⟩
    refine ⟨⟨hreads, ?_⟩, ?_⟩
    · by_cases hanchor : task.anchor = .unanchored
      · exact .inr hanchor
      · exact .inl (hstart hanchor).2
    · by_cases hanchor : task.anchor = .both
      · exact .inr (hend hanchor)
      · exact .inl hanchor
  · rintro ⟨⟨hreads, hstart⟩, hend⟩
    refine ⟨hreads, fun hanchor => ?_, fun hanchor => hend.resolve_left (fun h => h hanchor)⟩
    have hi : (i : Nat) = 0 := hstart.resolve_right hanchor
    have hle : (pos : Nat) ≤ i := hreads.le
    exact ⟨by omega, hi⟩

/-- What is wanted is one of the matches, and none is longer if the longest is wanted. -/
theorem exists_of_choose_eq_some {found : List (task.text.Offset × Slots)} {slots : Slots}
    (h : task.choose found = some slots) : ∃ j, (j, slots) ∈ found ∧
      (task.kind = .leftmostLongest → ∀ m ∈ found, m.1 ≤ j) := by
  unfold choose at h
  cases hkind : task.kind with
  | leftmostFirst =>
    rw [hkind] at h
    obtain ⟨m, hm, rfl⟩ := Option.map_eq_some_iff.mp h
    exact ⟨m.1, List.mem_of_mem_head? hm, nofun⟩
  | leftmostLongest =>
    rw [hkind] at h
    obtain ⟨m, hm, rfl⟩ := Option.map_eq_some_iff.mp h
    exact ⟨m.1, List.argmax_mem hm, fun _ m' hm' => List.le_of_mem_argmax hm' hm⟩

end Task

namespace Program

variable {P : Program} {task : Task}

/-- **What is found** starts at the first of the offsets that are tried where a match starts. -/
theorem exists_of_reference_eq_some {pos : task.text.Offset} {slots : Slots}
    (h : P.reference task pos = some slots) : ∃ i ∈ task.starts pos,
      task.choose (P.explored task i) = some slots ∧
      ∀ i' ∈ task.starts pos, P.explored task i' ≠ [] → i ≤ i' := by
  rw [reference_eq_findSome?, List.findSome?_eq_some_iff] at h
  obtain ⟨before, i, behind, hsplit, hchosen, hbefore⟩ := h
  -- offsets are tried in order, so the first one with a match is the least
  have hsorted : (task.starts pos).Pairwise (· < ·) := (Text.pairwise_offsetsFrom pos).filter _
  rw [hsplit] at hsorted ⊢
  refine ⟨i, by simp, hchosen, fun i' hi' hne => ?_⟩
  rcases List.mem_append.mp hi' with hi' | hi'
  · exact absurd (Task.choose_eq_none_iff.mp (hbefore i' hi')) hne
  · rcases List.mem_cons.mp hi' with rfl | hi'
    · exact le_refl i'
    · obtain ⟨hbehind, -⟩ := List.pairwise_cons.mp (List.pairwise_append.mp hsorted).2.1
      exact le_of_lt (hbehind i' hi')

/-- What is found is one of the matches that start there, and has its two ends written. None of them
is longer if the longest is wanted. -/
theorem exists_explored_of_reference (hspare : P.SparesMatch) (hwidth : 2 ≤ task.width)
    {pos : task.text.Offset} {slots : Slots} (h : P.reference task pos = some slots) :
    ∃ i ∈ task.starts pos, ∃ j, (j, slots) ∈ P.explored task i ∧
      slots.start? = some (i : Nat) ∧ slots.stop? = some (j : Nat) ∧
      (∀ i' ∈ task.starts pos, P.explored task i' ≠ [] → i ≤ i') ∧
      (task.kind = .leftmostLongest → ∀ m ∈ P.explored task i, m.1 ≤ j) := by
  obtain ⟨i, hi, hchoose, hfirst⟩ := exists_of_reference_eq_some h
  obtain ⟨j, hmem, hlongest⟩ := Task.exists_of_choose_eq_some hchoose
  obtain ⟨hleft, hright⟩ := mem_explored hspare hwidth _ hmem
  exact ⟨i, hi, j, hmem, hleft, hright, hfirst, hlongest⟩

/-- **The ends of the matches that start at an offset** are the places where ways from there come to
the end of a match. -/
theorem mem_explored_iff {i j : task.text.Offset} : (∃ slots, (j, slots) ∈ P.explored task i) ↔
    (∃ t, (P.walk task.text).Reaches (P.start, i) (t, j) ∧ P.instr t = .accept) ∧
      task.mayEnd j = true := by
  constructor
  · rintro ⟨slots, hmem⟩
    obtain ⟨e, he, hends, heq⟩ := mem_matchesOf.mp hmem
    cases heq
    rw [ends, Bool.and_eq_true, decide_eq_true_eq] at hends
    exact ⟨⟨e.1.1, Graph.exists_mem_arrivals_iff.mp ⟨e.2, he⟩, hends.1⟩, hends.2⟩
  · rintro ⟨⟨t, hreach, hacc⟩, hend⟩
    obtain ⟨slots, hmem⟩ := Graph.exists_mem_arrivals_iff.mpr hreach
    refine ⟨_, mem_matchesOf.mpr ⟨_, hmem, ?_, rfl⟩⟩
    rw [ends, Bool.and_eq_true, decide_eq_true_eq]
    exact ⟨hacc, hend⟩

/-- The matches that start at an offset are those of the expression. -/
theorem Implements.mem_explored_iff {e : Expr} (h : P.Implements e) {i j : task.text.Offset} :
    (∃ slots, (j, slots) ∈ P.explored task i) ↔ e.Matches task.text i j ∧ task.mayEnd j = true := by
  rw [Program.mem_explored_iff, h.reaches_iff]

/-- Where an expression matches, there is a match to be explored. -/
theorem Implements.explored_ne_nil {e : Expr} (h : P.Implements e) {i j : task.text.Offset}
    (hmatches : e.Matches task.text i j) (hend : task.mayEnd j = true) :
    P.explored task i ≠ [] := by
  obtain ⟨slots, hmem⟩ := h.mem_explored_iff.mpr ⟨hmatches, hend⟩
  exact List.ne_nil_of_mem hmem

/-- Where the expression matches, if it does. -/
theorem Implements.reference_isSome_iff {e : Expr} (h : P.Implements e)
    {pos : task.text.Offset} : (P.reference task pos).isSome = true ↔
      ∃ i j, task.Admits pos i j ∧ e.Matches task.text i j := by
  rw [Option.isSome_iff_ne_none, Ne, reference_eq_none_iff]
  push Not
  constructor
  · rintro ⟨i, hi, hne⟩
    obtain ⟨⟨j, slots⟩, hmem⟩ := List.exists_mem_of_ne_nil _ hne
    obtain ⟨hmatches, hend⟩ := h.mem_explored_iff.mp ⟨slots, hmem⟩
    exact ⟨i, j, Task.admits_iff.mpr ⟨hi, hend⟩, hmatches⟩
  · rintro ⟨i, j, hadmits, hmatches⟩
    obtain ⟨hi, hend⟩ := Task.admits_iff.mp hadmits
    exact ⟨i, hi, h.explored_ne_nil hmatches hend⟩

/-- What is found lies where the expression matches, as far left as possible, and is as long as
possible if the longest match is wanted. -/
theorem Implements.exists_of_reference_eq_some {e : Expr} (h : P.Implements e)
    (hspare : P.SparesMatch) (hwidth : 2 ≤ task.width) {pos : task.text.Offset} {slots : Slots}
    (hslots : P.reference task pos = some slots) : ∃ i j : task.text.Offset,
      slots.start? = some (i : Nat) ∧ slots.stop? = some (j : Nat) ∧ task.Admits pos i j ∧
      e.Matches task.text i j ∧
      (∀ i' j', task.Admits pos i' j' → e.Matches task.text i' j' → i ≤ i') ∧
      (task.kind = .leftmostLongest →
        ∀ j', task.Admits pos i j' → e.Matches task.text i j' → j' ≤ j) := by
  obtain ⟨i, hi, j, hmem, hleft, hright, hfirst, hlongest⟩ :=
    exists_explored_of_reference hspare hwidth hslots
  obtain ⟨hmatches, hend⟩ := h.mem_explored_iff.mp ⟨slots, hmem⟩
  refine ⟨i, j, hleft, hright, Task.admits_iff.mpr ⟨hi, hend⟩, hmatches, ?_, ?_⟩
  · intro i' j' hadmits' hmatches'
    obtain ⟨hi', hend'⟩ := Task.admits_iff.mp hadmits'
    exact hfirst i' hi' (h.explored_ne_nil hmatches' hend')
  · intro hkind j' hadmits' hmatches'
    obtain ⟨-, hend'⟩ := Task.admits_iff.mp hadmits'
    obtain ⟨slots', hmem'⟩ := h.mem_explored_iff.mpr ⟨hmatches', hend'⟩
    exact hlongest hkind _ hmem'

end Program

/-! ## What a machine finds -/

namespace Machine

variable {P : Program} {e : Expr}

/-- A machine for a compiled program finds what a depth-first search finds in a program of the
expression: flattening has changed nothing about that. -/
theorem exists_reference_of_compile {limit : Nat} (hcompile : e.compile limit = .ok P)
    {m : Machine P} (h : m.Reachable) {env : Environment} (hlimit : m.timeLimit env = none)
    (hwidth : 2 ≤ m.width) (input : Input) (anchor : Anchor) (pos : input.text.Offset) :
    ∃ Q : Program, Q.Implements e ∧ Q.SparesMatch ∧
      let wanted := Q.reference (m.task input.text anchor) pos
      (m.tryMatch env input pos anchor).1 = .ok wanted.isSome ∧
        (m.tryMatch env input pos anchor).2.submatches = wanted.getD (Slots.unset m.width) := by
  obtain ⟨Q, rfl, himplements, hspare⟩ := Program.exists_of_compile hcompile
  obtain ⟨hanswer, hslots⟩ :=
    tryMatch_eq_outcome h hlimit input anchor pos (Q.flatten.skips _ _)
  let task : Task := m.task input.text anchor
  have houtcome : m.outcome input.text anchor pos =
      (Verdict.pending m.width).take (Q.reference task pos) := by
    rw [← Program.reference_flatten Q task pos]
    exact Program.outcome_eq_reference task hspare.flatten hwidth pos
  refine ⟨Q, himplements, hspare, ?_⟩
  rw [hanswer, hslots, houtcome, Verdict.found_take_pending, Verdict.submatches_take_pending]
  exact ⟨rfl, rfl⟩

/-- **A machine finds a match exactly if the expression matches somewhere** that is allowed. What
it finds is a match of the expression and lies as far left as any does; if the longest match is
wanted, none that starts there ends further right. -/
theorem tryMatch_extent {limit : Nat} (hcompile : e.compile limit = .ok P) {m : Machine P}
    (h : m.Reachable) {env : Environment} (hlimit : m.timeLimit env = none) (hwidth : 2 ≤ m.width)
    (input : Input) (anchor : Anchor) (pos : input.text.Offset) :
    let task := m.task input.text anchor
    let slots := (m.tryMatch env input pos anchor).2.submatches
    ∃ found : Bool, (m.tryMatch env input pos anchor).1 = .ok found ∧
      (found = true ↔ ∃ i j, task.Admits pos i j ∧ e.Matches input.text i j) ∧
      (found = true → ∃ i j : input.text.Offset,
        slots.start? = some (i : Nat) ∧ slots.stop? = some (j : Nat) ∧ task.Admits pos i j ∧
        e.Matches input.text i j ∧
        (∀ i' j', task.Admits pos i' j' → e.Matches input.text i' j' → i ≤ i') ∧
        (m.kind = .leftmostLongest →
          ∀ j', task.Admits pos i j' → e.Matches input.text i j' → j' ≤ j)) := by
  intro task slots
  obtain ⟨Q, himplements, hspare, hanswer, hslots⟩ :=
    exists_reference_of_compile hcompile h hlimit hwidth input anchor pos
  refine ⟨(Q.reference task pos).isSome, hanswer, himplements.reference_isSome_iff, fun hsome => ?_⟩
  obtain ⟨wanted, hwanted⟩ := Option.isSome_iff_exists.mp hsome
  have hfound : slots = wanted :=
    hslots.trans (congrArg (Option.getD · (Slots.unset m.width)) hwanted)
  rw [hfound]
  exact himplements.exists_of_reference_eq_some hspare hwidth hwanted

/-- A repetition whose body is a group that matches empty. -/
theorem tryMatch_extent_nullable :
    let e : Expr := .star (.group 1 (.star (.literal 'a' false) true)) true
    let P : Program :=
      ⟨7, #v[.fail, .save 2 3, .consume (.single 0x61) 3, .fork [2, 4], .save 3 5, .fork [1, 6],
        .accept], 5⟩
    let m := new P .leftmostLongest
    let input : Input := { text := .utf8 #[0xFF, 0x61, 0x61], searchable := false }
    let task := m.task input.text .unanchored
    let slots := (m.tryMatch {} input 0 .unanchored).2.submatches
    e.compile 100 = .ok P ∧ m.Reachable ∧ m.timeLimit {} = none ∧ 2 ≤ m.width ∧
      ∃ found : Bool, (m.tryMatch {} input 0 .unanchored).1 = .ok found ∧
        (found = true ↔ ∃ i j, task.Admits 0 i j ∧ e.Matches input.text i j) ∧
        (found = true → ∃ i j : input.text.Offset,
          slots.start? = some (i : Nat) ∧ slots.stop? = some (j : Nat) ∧ task.Admits 0 i j ∧
          e.Matches input.text i j ∧
          (∀ i' j', task.Admits 0 i' j' → e.Matches input.text i' j' → i ≤ i') ∧
          (m.kind = .leftmostLongest →
            ∀ j', task.Admits 0 i j' → e.Matches input.text i j' → j' ≤ j)) := by
  intro e P m input task slots
  have hcompile : e.compile 100 = .ok P := by cbv
  have hreach : m.Reachable := .new .leftmostLongest
  have hlimit : m.timeLimit {} = none := rfl
  have hwidth : 2 ≤ m.width := by decide
  exact ⟨hcompile, hreach, hlimit, hwidth,
    tryMatch_extent hcompile hreach hlimit hwidth input .unanchored 0⟩

end Machine

end Lockstep
