import Lockstep.Proofs.Handover
import Lockstep.Program.Flatten
import Mathlib.Algebra.BigOperators.Fin
import Mathlib.Algebra.Order.BigOperators.Group.Finset

/-!
# Flat forks lead to the same matches

Flattening lets forks hand their arms over, one after the other, where a single edge leads to them.
Edges are counted only once, before that; what was private then stays private to the end.

- `Program.private_of_indegrees`: an address to which one edge leads is private.
- `Program.Rewired`: what a program comes to by handing arms over again and again.
- `Program.rewired_flatten`: so does flattening.
- `Program.reference_flatten`: a flattened program finds what the program finds.
-/

namespace Lockstep

namespace Program

variable {P : Program}

/-! ## Counting edges -/

theorem get_foldl_replaceAt {n : Nat} (arms : List (Fin n)) (counts : Vector Nat n) (f : Fin n) :
    (arms.foldl (fun counts pc => replaceAt counts pc (counts.get pc + 1)) counts).get f =
      counts.get f + arms.count f := by
  induction arms generalizing counts with
  | nil => rfl
  | cons arm arms ih =>
    rw [List.foldl_cons, ih, List.count_cons]
    by_cases harm : arm = f
    · subst harm
      simp [get_replaceAt_self, Nat.add_assoc, Nat.add_comm]
    · simp [harm, get_replaceAt_ne _ _ (Ne.symm harm)]

/-- The edges that lead to an address, counted. -/
theorem get_indegrees (P : Program) (f : Fin P.size) :
    P.indegrees.get f = (if P.start = f then 1 else 0) +
      ∑ pc, (P.instr pc).successors.count f := by
  -- the count goes over all instructions, and over the edges of each
  have hfold : ∀ (code : List (Instr (Fin P.size))) (counts : Vector Nat P.size),
      (code.foldl (fun counts i => i.successors.foldl
        (fun counts pc => replaceAt counts pc (counts.get pc + 1)) counts) counts).get f =
      counts.get f + (code.map fun i => i.successors.count f).sum := by
    intro code
    induction code with
    | nil => intro counts; rfl
    | cons i code ih =>
      intro counts
      rw [List.foldl_cons, ih, get_foldl_replaceAt, List.map_cons, List.sum_cons, Nat.add_assoc]
  have hcode : P.code.toList = (List.finRange P.size).map P.instr := by
    refine List.ext_getElem (by simp) fun k h _ => ?_
    simp [instr]
  have hcount : P.indegrees = P.code.foldl (fun counts i => i.successors.foldl
      (fun counts pc => replaceAt counts pc (counts.get pc + 1)) counts)
      (replaceAt (Vector.replicate P.size 0) P.start 1) := rfl
  rw [hcount, ← Vector.foldl_toList, hfold, hcode, Fin.sum_univ_def, List.map_map]
  congr 1
  by_cases hstart : P.start = f
  · subst hstart
    simp [get_replaceAt_self]
  · rw [get_replaceAt_ne _ _ (Ne.symm hstart)]
    simp [hstart, Vector.get]

/-- An address to which one edge leads is private. -/
theorem private_of_indegrees {f : Fin P.size} (h : P.indegrees.get f = 1) : P.Private f := by
  rw [get_indegrees] at h
  have hsingle : ∀ pc, (P.instr pc).successors.count f ≤ ∑ pc, (P.instr pc).successors.count f :=
    fun pc => Finset.single_le_sum (f := fun q => (P.instr q).successors.count f)
      (fun _ _ => Nat.zero_le _) (Finset.mem_univ pc)
  refine ⟨?_, ?_, ?_⟩
  · intro hstart pc _ hmem
    rw [if_pos hstart] at h
    have hpos : 0 < (P.instr pc).successors.count f := List.count_pos_iff.mpr hmem
    have := hsingle pc
    omega
  · intro pc _
    have := hsingle pc
    omega
  · intro pc pc' _ _ hmem hmem'
    by_contra hne
    have hpos : 0 < (P.instr pc).successors.count f := List.count_pos_iff.mpr hmem
    have hpos' : 0 < (P.instr pc').successors.count f := List.count_pos_iff.mpr hmem'
    -- edges that leave from two addresses would be counted as two
    have hpair : ∑ q ∈ {pc, pc'}, (P.instr q).successors.count f ≤
        ∑ q, (P.instr q).successors.count f :=
      Finset.sum_le_sum_of_subset (Finset.subset_univ _)
    rw [Finset.sum_pair hne] at hpair
    omega

/-! ## Flattening -/

/-- Instructions that a program comes to by handing arms over, from one private fork after the
other. -/
inductive Rewired (P : Program) : Vector (Instr (Fin P.size)) P.size → Prop where
  | refl : Rewired P P.code
  | handOver {code : Vector (Instr (Fin P.size)) P.size} (h : Rewired P code) {a f : Fin P.size}
    {front inner back : List (Fin P.size)}
    (hover : (P.withCode code).HandsOver a f front inner back) :
    Rewired P ((P.withCode code).handedOver a front inner back)

namespace Rewired

variable {code : Vector (Instr (Fin P.size)) P.size}

/-- Handing arms over changes no match. -/
theorem explored (h : P.Rewired code) (task : Task) (i : task.text.Offset) :
    (P.withCode code).explored task i = P.explored task i := by
  induction h with
  | refl => rfl
  | handOver _ hover ih =>
    obtain ⟨left, hleft⟩ := hover.exists_leavesOut
    exact (hleft.explored_withCode task i).trans ih

/-- Handing arms over changes no instruction but forks, and these stay forks. -/
theorem resembles (h : P.Rewired code) : P.Resembles code := by
  induction h with
  | refl => exact fun _ => .inl rfl
  | handOver _ hover ih => exact ih.trans hover.resembles

end Rewired

/-- What flattening comes to: arms are handed over, and what one edge led to stays private. -/
structure Flattened (P : Program) (code : Vector (Instr (Fin P.size)) P.size) : Prop where
  rewired : P.Rewired code
  isPrivate : ∀ f : Fin P.size, P.indegrees.get f = 1 → (P.withCode code).Private f

theorem flattened_self (P : Program) : P.Flattened P.code :=
  ⟨.refl, fun _ h => private_of_indegrees h⟩

/-- Handing over the arms of one private fork. -/
theorem Flattened.handOver {code : Vector (Instr (Fin P.size)) P.size} (h : P.Flattened code)
    {a f : Fin P.size} {front inner back : List (Fin P.size)}
    (ha : code.get a = .fork (front ++ f :: back)) (hf : code.get f = .fork inner) (hne : f ≠ a)
    (hprivate : P.indegrees.get f = 1) :
    P.Flattened (replaceAt code a (.fork (front ++ inner ++ back))) := by
  have hover : (P.withCode code).HandsOver a f front inner back :=
    ⟨ha, hf, hne, h.isPrivate f hprivate⟩
  exact ⟨.handOver h.rewired hover, fun g hg => hover.private_handedOver (h.isPrivate g hg)⟩

/-- Which fork it is whose arms come in. -/
theorem exists_of_spliceFirst? {n : Nat} {indegrees : Vector Nat n}
    {code : Vector (Instr (Fin n)) n} {a : Fin n} {arms wider : List (Fin n)}
    (h : spliceFirst? indegrees code a arms = some wider) :
    ∃ front f inner back, arms = front ++ f :: back ∧ wider = front ++ inner ++ back ∧
      code.get f = .fork inner ∧ f ≠ a ∧ indegrees.get f = 1 := by
  induction arms generalizing wider with
  | nil => cases h
  | cons arm rest ih =>
    have hrest : (spliceFirst? indegrees code a rest).map (arm :: ·) = some wider →
        ∃ front f inner back, arm :: rest = front ++ f :: back ∧ wider = front ++ inner ++ back ∧
          code.get f = .fork inner ∧ f ≠ a ∧ indegrees.get f = 1 := by
      intro hmap
      obtain ⟨wider', hwider, rfl⟩ := Option.map_eq_some_iff.mp hmap
      obtain ⟨front, f, inner, back, rfl, rfl, hf⟩ := ih hwider
      exact ⟨arm :: front, f, inner, back, rfl, rfl, hf⟩
    rw [spliceFirst?] at h
    split at h
    · next inner hfork =>
      split at h
      · next hprivate =>
        cases h
        exact ⟨[], arm, inner, rest, rfl, rfl, hfork, hprivate⟩
      · exact hrest h
    · exact hrest h

theorem Flattened.splice {code : Vector (Instr (Fin P.size)) P.size} {a : Fin P.size}
    (budget : Nat) {arms : List (Fin P.size)} (h : P.Flattened (replaceAt code a (.fork arms))) :
    P.Flattened (replaceAt code a (.fork (Program.splice P.indegrees code a budget arms))) := by
  induction budget generalizing arms with
  | zero => exact h
  | succ budget ih =>
    rw [Program.splice]
    split
    · next wider hwider =>
      obtain ⟨front, f, inner, back, rfl, rfl, hf, hne, hprivate⟩ := exists_of_spliceFirst? hwider
      refine ih ?_
      have hself : (replaceAt code a (.fork (front ++ f :: back))).get a =
          .fork (front ++ f :: back) :=
        get_replaceAt_self ..
      have hother : (replaceAt code a (.fork (front ++ f :: back))).get f = .fork inner :=
        (get_replaceAt_ne _ _ hne).trans hf
      have hnext := h.handOver hself hother hne hprivate
      rw [replaceAt, replaceAt, Vector.set_set] at hnext
      exact hnext
    · exact h

theorem Flattened.widen {code : Vector (Instr (Fin P.size)) P.size} (h : P.Flattened code)
    (a : Fin P.size) : P.Flattened (Program.widen P.indegrees code a) := by
  unfold Program.widen
  split
  · next arms harms =>
    dsimp only
    split
    · exact h
    · refine Flattened.splice P.size ?_
      have hself : replaceAt code a (.fork arms) = code := by
        rw [← harms]
        exact Vector.set_getElem_self ..
      rw [hself]
      exact h
  · exact h

theorem flattened_flatten (P : Program) : P.Flattened P.flatten.code := by
  have hfold : ∀ (as : List (Fin P.size)) (code : Vector (Instr (Fin P.size)) P.size),
      P.Flattened code → P.Flattened (as.foldl (Program.widen P.indegrees) code) := by
    intro as
    induction as with
    | nil => exact fun _ h => h
    | cons a as ih => exact fun code h => ih _ (h.widen a)
  exact hfold _ _ (flattened_self P)

/-- **Flattening hands arms over**, and does nothing else. -/
theorem rewired_flatten (P : Program) : P.Rewired P.flatten.code := (flattened_flatten P).rewired

theorem explored_flatten (P : Program) (task : Task) (i : task.text.Offset) :
    P.flatten.explored task i = P.explored task i :=
  (rewired_flatten P).explored task i

/-- **A flattened program finds what the program finds.** -/
theorem reference_flatten (P : Program) (task : Task) (i : task.text.Offset) :
    P.flatten.reference task i = P.reference task i := by
  rw [reference_eq_findSome?, reference_eq_findSome?]
  simp only [explored_flatten]

end Program

end Lockstep
