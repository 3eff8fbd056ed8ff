import Lockstep.Proofs.Reference
import Lockstep.Proofs.Splicing

/-!
# Handing over the arms of a fork

A fork to which a single edge leads may hand its arms over to the fork that has that edge. A
depth-first search then finds the same matches in the same order. The fork that has handed its arms
over stays behind, and nothing leads to it; so what counts are the edges that leave from an address
that is met.

- `Program.Met`: the addresses that edges lead to from the start.
- `Program.Private`: at most one edge leads to an address from those that are met.
- `Program.HandsOver`: a private fork hands its arms over to another fork.
- `HandsOver.private_handedOver`: what was private stays private.
- `Program.LeavesOut`: what comes of it, at each offset: some forks are left out.
- `LeavesOut.explored_withCode`: no match changes.
-/

namespace Lockstep

namespace Program

variable {P : Program}

/-! ## Private addresses -/

/-- The addresses that edges lead to from the start. -/
def Met (P : Program) : Fin P.size → Prop :=
  Relation.ReflTransGen (fun pc pc' => pc' ∈ (P.instr pc).successors) P.start

theorem met_start (P : Program) : P.Met P.start := Relation.ReflTransGen.refl

theorem Met.tail {pc pc' : Fin P.size} (h : P.Met pc) (hedge : pc' ∈ (P.instr pc).successors) :
    P.Met pc' :=
  Relation.ReflTransGen.tail h hedge

/-- At most one edge leads to an address from those that are met, and none to the start. -/
structure Private (P : Program) (f : Fin P.size) : Prop where
  start : P.start = f → ∀ pc, P.Met pc → f ∉ (P.instr pc).successors
  once : ∀ pc, P.Met pc → (P.instr pc).successors.count f ≤ 1
  unique : ∀ pc pc', P.Met pc → P.Met pc' → f ∈ (P.instr pc).successors →
    f ∈ (P.instr pc').successors → pc = pc'

/-- The program with other instructions. -/
abbrev withCode (P : Program) (code : Vector (Instr (Fin P.size)) P.size) : Program :=
  { P with code := code }

/-- The instructions are those of the program, but forks may have other arms. -/
def Resembles (P : Program) (code : Vector (Instr (Fin P.size)) P.size) : Prop :=
  ∀ pc, (P.withCode code).instr pc = P.instr pc ∨
    ∃ arms arms', (P.withCode code).instr pc = .fork arms ∧ P.instr pc = .fork arms'

theorem Resembles.trans {code code' : Vector (Instr (Fin P.size)) P.size} (h : P.Resembles code)
    (h' : (P.withCode code).Resembles code') : P.Resembles code' := by
  intro pc
  rcases h' pc with hsame' | ⟨arms, arms', hfork, hfork'⟩
  · rcases h pc with hsame | ⟨arms, arms', hfork, hfork'⟩
    · exact .inl (hsame'.trans hsame)
    · exact .inr ⟨arms, arms', hsame'.trans hfork, hfork'⟩
  · rcases h pc with hsame | ⟨-, arms', -, hfork⟩
    · exact .inr ⟨arms, _, hfork, hsame.symm.trans hfork'⟩
    · exact .inr ⟨_, arms', ‹_›, hfork⟩

/-- A fork hands its arms over to another one, which has it among its own arms. -/
structure HandsOver (P : Program) (a f : Fin P.size) (front inner back : List (Fin P.size)) :
    Prop where
  outer : P.instr a = .fork (front ++ f :: back)
  inner : P.instr f = .fork inner
  ne : f ≠ a
  isPrivate : P.Private f

/-- A vector with something else at an address. -/
def replaceAt {α : Type} {n : Nat} (xs : Vector α n) (a : Fin n) (x : α) : Vector α n :=
  xs.set a x a.isLt

theorem get_replaceAt_self {α : Type} {n : Nat} (xs : Vector α n) (a : Fin n) (x : α) :
    (replaceAt xs a x).get a = x :=
  Vector.getElem_set_self ..

theorem get_replaceAt_ne {α : Type} {n : Nat} (xs : Vector α n) {a pc : Fin n} (x : α)
    (h : pc ≠ a) : (replaceAt xs a x).get pc = xs.get pc :=
  Vector.getElem_set_ne _ _ fun heq => h (Fin.ext heq.symm)

/-- The instructions after that. -/
def handedOver (P : Program) (a : Fin P.size) (front inner back : List (Fin P.size)) :
    Vector (Instr (Fin P.size)) P.size :=
  replaceAt P.code a (.fork (front ++ inner ++ back))

variable {a f : Fin P.size} {front inner back : List (Fin P.size)}

theorem instr_handedOver_self :
    (P.withCode (P.handedOver a front inner back)).instr a = .fork (front ++ inner ++ back) :=
  get_replaceAt_self ..

theorem instr_handedOver_ne {pc : Fin P.size} (h : pc ≠ a) :
    (P.withCode (P.handedOver a front inner back)).instr pc = P.instr pc :=
  get_replaceAt_ne _ _ h

/-- If the outer fork is not met, nothing that is met has changed. -/
theorem instr_handedOver_of_met (ha : ¬ P.Met a) {pc : Fin P.size} (hpc : P.Met pc) :
    (P.withCode (P.handedOver a front inner back)).instr pc = P.instr pc := by
  refine instr_handedOver_ne ?_
  rintro rfl
  exact ha hpc

namespace HandsOver

variable (h : P.HandsOver a f front inner back)
include h

theorem mem_successors : f ∈ (P.instr a).successors := by
  rw [h.outer]
  exact List.mem_append_right _ List.mem_cons_self

/-- The address appears once among the arms. -/
theorem notMem (ha : P.Met a) : f ∉ front ∧ f ∉ back := by
  have hcount := h.isPrivate.once a ha
  rw [h.outer] at hcount
  have hsum : (front ++ f :: back).count f = front.count f + (back.count f + 1) := by
    rw [List.count_append, List.count_cons_self]
  rw [show (Instr.fork (front ++ f :: back)).successors = front ++ f :: back from rfl, hsum]
    at hcount
  exact ⟨List.count_eq_zero.mp (by omega), List.count_eq_zero.mp (by omega)⟩

theorem notMem_inner (ha : P.Met a) : f ∉ inner := by
  intro hmem
  refine h.ne (h.isPrivate.unique f a (ha.tail h.mem_successors) ha ?_ h.mem_successors)
  rw [h.inner]
  exact hmem

theorem start_ne (ha : P.Met a) : P.start ≠ f :=
  fun hstart => h.isPrivate.start hstart a ha h.mem_successors

/-- Handing arms over changes no instruction but a fork. -/
theorem resembles : P.Resembles (P.handedOver a front inner back) := by
  intro pc
  by_cases hpc : pc = a
  · rw [hpc]
    exact .inr ⟨_, _, instr_handedOver_self, h.outer⟩
  · exact .inl (instr_handedOver_ne hpc)

/-- Where an edge comes from that there is afterwards. -/
theorem mem_successors_of_handedOver {pc g : Fin P.size}
    (hmem : g ∈ ((P.withCode (P.handedOver a front inner back)).instr pc).successors) :
    g ∈ (P.instr pc).successors ∨ pc = a ∧ g ∈ (P.instr f).successors := by
  by_cases hpc : pc = a
  · subst hpc
    rw [instr_handedOver_self] at hmem
    rw [h.outer, h.inner]
    have hmem : g ∈ front ++ inner ++ back := hmem
    simp only [List.mem_append] at hmem
    rcases hmem with (hmem | hmem) | hmem
    · exact .inl (List.mem_append_left _ hmem)
    · exact .inr ⟨rfl, hmem⟩
    · exact .inl (List.mem_append_right _ (List.mem_cons_of_mem _ hmem))
  · rw [instr_handedOver_ne hpc] at hmem
    exact .inl hmem

/-- Nothing is met afterwards that was not met before. -/
theorem met_of_handedOver {pc : Fin P.size}
    (hmet : (P.withCode (P.handedOver a front inner back)).Met pc) : P.Met pc := by
  induction hmet with
  | refl => exact .refl
  | tail _ hedge ih =>
    rcases h.mem_successors_of_handedOver hedge with hmem | ⟨rfl, hmem⟩
    · exact ih.tail hmem
    · exact (ih.tail h.mem_successors).tail hmem

/-- No edge leads to the private fork any more. -/
theorem notMem_handedOver (ha : P.Met a) {pc : Fin P.size} (hpc : P.Met pc) :
    f ∉ ((P.withCode (P.handedOver a front inner back)).instr pc).successors := by
  intro hmem
  by_cases heq : pc = a
  · subst heq
    rw [instr_handedOver_self] at hmem
    have hmem : f ∈ front ++ inner ++ back := hmem
    simp only [List.mem_append] at hmem
    rcases hmem with (hmem | hmem) | hmem
    · exact (h.notMem ha).1 hmem
    · exact h.notMem_inner ha hmem
    · exact (h.notMem ha).2 hmem
  · rw [instr_handedOver_ne heq] at hmem
    exact heq (h.isPrivate.unique pc a hpc ha hmem h.mem_successors)

theorem not_met_handedOver (ha : P.Met a) :
    ¬ (P.withCode (P.handedOver a front inner back)).Met f := by
  intro hmet
  -- it is not the start, and no last edge leads to it
  rcases Relation.ReflTransGen.cases_tail hmet with hstart | ⟨pc, hpc, hedge⟩
  · exact h.start_ne ha hstart.symm
  · exact h.notMem_handedOver ha (h.met_of_handedOver hpc) hedge

/-- An edge that there is afterwards comes from an address that was met before: where it leaves
now, or the private fork. -/
theorem exists_source (ha : P.Met a) {pc g : Fin P.size}
    (hpc : (P.withCode (P.handedOver a front inner back)).Met pc)
    (hmem : g ∈ ((P.withCode (P.handedOver a front inner back)).instr pc).successors) :
    ∃ pc', P.Met pc' ∧ g ∈ (P.instr pc').successors ∧ (pc' = pc ∨ pc = a ∧ pc' = f) := by
  rcases h.mem_successors_of_handedOver hmem with hold | ⟨rfl, hinner⟩
  · exact ⟨pc, h.met_of_handedOver hpc, hold, .inl rfl⟩
  · exact ⟨f, ha.tail h.mem_successors, hinner, .inr ⟨rfl, rfl⟩⟩

/-- An address that was private is no more than once among the arms that there are afterwards. -/
theorem count_arms_le (ha : P.Met a) {g : Fin P.size} (hg : P.Private g) :
    (front ++ inner ++ back).count g ≤ 1 := by
  have hmetf : P.Met f := ha.tail h.mem_successors
  have hinner : inner.count g ≤ 1 := by
    have honce := hg.once f hmetf
    rw [h.inner] at honce
    exact honce
  rw [List.count_append, List.count_append]
  by_cases hgf : g = f
  · obtain ⟨hfront, hback⟩ := h.notMem ha
    rw [hgf, List.count_eq_zero.mpr hfront, List.count_eq_zero.mpr hback,
      List.count_eq_zero.mpr (h.notMem_inner ha)]
    exact Nat.zero_le 1
  · have houter : front.count g + back.count g ≤ 1 := by
      have honce := hg.once a ha
      rw [h.outer] at honce
      have honce : (front ++ f :: back).count g ≤ 1 := honce
      rw [List.count_append, List.count_cons_of_ne (Ne.symm hgf)] at honce
      exact honce
    by_cases hmem : g ∈ inner
    · -- its single edge leaves from the inner fork
      have hnot : g ∉ (P.instr a).successors := by
        intro hmem'
        refine h.ne (hg.unique f a hmetf ha ?_ hmem')
        rw [h.inner]
        exact hmem
      rw [h.outer] at hnot
      have hnot : g ∉ front ++ f :: back := hnot
      rw [List.mem_append, not_or, List.mem_cons, not_or] at hnot
      rw [List.count_eq_zero.mpr hnot.1, List.count_eq_zero.mpr hnot.2.2]
      omega
    · rw [List.count_eq_zero.mpr hmem]
      omega

/-- What was private stays private if the outer fork is met: the edges that have been handed over
now leave from there, and the inner fork is not met. -/
theorem private_handedOver_of_met (ha : P.Met a) {g : Fin P.size} (hg : P.Private g) :
    (P.withCode (P.handedOver a front inner back)).Private g := by
  refine ⟨?_, ?_, ?_⟩
  · intro hstart (pc : Fin P.size) hpc hmem
    obtain ⟨pc', hpc', hmem', -⟩ := h.exists_source ha hpc hmem
    exact hg.start hstart pc' hpc' hmem'
  · intro (pc : Fin P.size) hpc
    by_cases hpca : pc = a
    · rw [hpca, instr_handedOver_self]
      exact h.count_arms_le ha hg
    · rw [instr_handedOver_ne hpca]
      exact hg.once pc (h.met_of_handedOver hpc)
  · intro (pc : Fin P.size) (pc' : Fin P.size) hpc hpc' hmem hmem'
    obtain ⟨q, hq, hgq, hqpc⟩ := h.exists_source ha hpc hmem
    obtain ⟨q', hq', hgq', hqpc'⟩ := h.exists_source ha hpc' hmem'
    -- both edges were there before, and one address had at most one of them
    have heq : q = q' := hg.unique q q' hq hq' hgq hgq'
    have hne : ∀ pc : Fin P.size,
        (P.withCode (P.handedOver a front inner back)).Met pc → pc ≠ f := by
      rintro pc hpc rfl
      exact h.not_met_handedOver ha hpc
    rcases hqpc with rfl | ⟨rfl, rfl⟩
    · rcases hqpc' with rfl | ⟨rfl, rfl⟩
      · exact heq
      · exact absurd heq (hne q hpc)
    · rcases hqpc' with rfl | ⟨rfl, -⟩
      · exact absurd heq.symm (hne q' hpc')
      · rfl

/-- **What was private stays private.** -/
theorem private_handedOver {g : Fin P.size} (hg : P.Private g) :
    (P.withCode (P.handedOver a front inner back)).Private g := by
  by_cases ha : P.Met a
  · exact h.private_handedOver_of_met ha hg
  · refine ⟨?_, ?_, ?_⟩
    · intro hstart (pc : Fin P.size) hpc
      rw [instr_handedOver_of_met ha (h.met_of_handedOver hpc)]
      exact hg.start hstart pc (h.met_of_handedOver hpc)
    · intro (pc : Fin P.size) hpc
      rw [instr_handedOver_of_met ha (h.met_of_handedOver hpc)]
      exact hg.once pc (h.met_of_handedOver hpc)
    · intro (pc : Fin P.size) (pc' : Fin P.size) hpc hpc'
      rw [instr_handedOver_of_met ha (h.met_of_handedOver hpc),
        instr_handedOver_of_met ha (h.met_of_handedOver hpc')]
      exact hg.unique pc pc' (h.met_of_handedOver hpc) (h.met_of_handedOver hpc')

end HandsOver

/-! ## One offset in both programs -/

section OneOffset

variable {pos : Nat} {cond : Conditions} {pc : Fin P.size}
  {code : Vector (Instr (Fin P.size)) P.size}

/-- An edge that is followed at an offset is an edge of the instruction. -/
theorem mem_successors_of_mem_passing {pc' : Fin P.size}
    (h : pc' ∈ (P.passing pos cond).next pc) : pc' ∈ (P.instr pc).successors := by
  unfold passing at h
  cases hi : P.instr pc with
  | fork | save | jump =>
    simp only [hi] at h
    exact h
  | assert need next =>
    simp only [hi] at h
    split at h
    · exact h
    · cases h
  | fail | accept | consume =>
    simp only [hi] at h
    cases h

/-- It is followed no more often than the instruction has it. -/
theorem count_next_passing_le (pc pc' : Fin P.size) :
    ((P.passing pos cond).next pc).count pc' ≤ (P.instr pc).successors.count pc' := by
  refine List.Sublist.count_le pc' ?_
  unfold passing
  cases hi : P.instr pc with
  | fork | save | jump => simp [hi, Instr.successors]
  | assert need next =>
    simp only [hi]
    split <;> simp [Instr.successors]
  | fail | accept | consume => simp [hi]

theorem next_passing_of_fork {arms : List (Fin P.size)} (h : P.instr pc = .fork arms) :
    (P.passing pos cond).next pc = arms := by
  simp only [passing, h]

theorem next_passing_withCode (h : (P.withCode code).instr pc = P.instr pc) :
    ((P.withCode code).passing pos cond).next pc = (P.passing pos cond).next pc := by
  cases hi : P.instr pc <;> rw [hi] at h <;> simp only [passing, h, hi]

theorem carry_passing_withCode (h : (P.withCode code).instr pc = P.instr pc) :
    ((P.withCode code).passing pos cond).carry pc = (P.passing pos cond).carry pc := by
  funext slots
  cases hi : P.instr pc <;> rw [hi] at h <;> simp only [passing, h, hi]

end OneOffset

/-- The instructions leave some forks out: wherever an edge of the program leads to one of them,
they lead to its arms instead. -/
structure LeavesOut (P : Program) (code : Vector (Instr (Fin P.size)) P.size)
    (inner : Fin P.size → Bool) : Prop where
  resembles : P.Resembles code
  splice : ∀ pos cond, Graph.Splice (P.passing pos cond) ((P.withCode code).passing pos cond)
    P.Met inner
  start : inner P.start = false
  isFork : ∀ pc, inner pc = true → ∃ arms, P.instr pc = .fork arms
  parent : ∀ pc g, P.Met pc → inner g = true → g ∈ (P.instr pc).successors →
    ∃ arms, P.instr pc = .fork arms

/-- Where nothing that is met has changed, nothing is left out. -/
theorem leavesOut_of_same {code : Vector (Instr (Fin P.size)) P.size} (h : P.Resembles code)
    (hsame : ∀ pc, P.Met pc → (P.withCode code).instr pc = P.instr pc) :
    P.LeavesOut code fun _ => false := by
  refine ⟨h, fun pos cond => ⟨?_, ?_, ?_, ?_, ?_, ?_, ?_⟩, rfl, nofun, fun _ _ _ => nofun⟩
  · exact fun pc hpc pc' hedge => hpc.tail (mem_successors_of_mem_passing hedge)
  · exact fun pc hpc _ => carry_passing_withCode (hsame pc hpc)
  · exact fun _ _ => nofun
  · intro pc hpc _
    rw [Graph.flatMap_spread_of_forall fun _ _ => rfl]
    exact next_passing_withCode (hsame pc hpc)
  · exact fun _ _ => nofun
  · exact fun _ _ _ => nofun
  · exact fun _ _ _ _ _ => nofun

namespace HandsOver

variable (h : P.HandsOver a f front inner back)
include h

/-- The edges of the outer fork afterwards: those of the private fork are in its place. -/
theorem next_outer_handedOver (ha : P.Met a) (pos : Nat) (cond : Conditions) :
    ((P.withCode (P.handedOver a front inner back)).passing pos cond).next a =
      ((P.passing pos cond).next a).flatMap
        ((P.passing pos cond).spread fun pc => decide (pc = f)) := by
  have hafter : ((P.withCode (P.handedOver a front inner back)).passing pos cond).next a =
      front ++ inner ++ back := next_passing_of_fork instr_handedOver_self
  have hspread : ∀ arms : List (Fin P.size), f ∉ arms →
      arms.flatMap ((P.passing pos cond).spread fun pc => decide (pc = f)) = arms := by
    intro arms hnot
    refine Graph.flatMap_spread_of_forall fun arm harm => ?_
    simpa using fun heq : arm = f => hnot (heq ▸ harm)
  have hself : (P.passing pos cond).spread (fun pc => decide (pc = f)) f = inner := by
    rw [Graph.spread, if_pos (by simp), next_passing_of_fork h.inner]
  rw [hafter, next_passing_of_fork h.outer, List.flatMap_append, List.flatMap_cons,
    hspread front (h.notMem ha).1, hspread back (h.notMem ha).2, hself, List.append_assoc]

/-- At an offset the private fork has handed its edges over. -/
theorem splice_passing (ha : P.Met a) (pos : Nat) (cond : Conditions) :
    Graph.Splice (P.passing pos cond)
      ((P.withCode (P.handedOver a front inner back)).passing pos cond) P.Met
      (fun pc => decide (pc = f)) := by
  refine ⟨?_, ?_, ?_, ?_, ?_, ?_, ?_⟩
  · exact fun pc hpc pc' hedge => hpc.tail (mem_successors_of_mem_passing hedge)
  · intro pc _ _
    by_cases hpc : pc = a
    · subst hpc
      funext slots
      simp only [passing, h.outer, instr_handedOver_self]
    · exact carry_passing_withCode (instr_handedOver_ne hpc)
  · intro pc _ hpc slots
    have hpc : pc = f := by simpa using hpc
    simp only [passing, hpc, h.inner]
  · intro pc hmet _
    by_cases hpca : pc = a
    · subst hpca
      exact h.next_outer_handedOver ha pos cond
    · rw [Graph.flatMap_spread_of_forall]
      · exact next_passing_withCode (instr_handedOver_ne hpca)
      · intro pc' hedge
        by_contra hinner
        -- an edge to the private fork would have to leave from the outer one
        have hpc' : pc' = f := by simpa using hinner
        subst hpc'
        exact hpca (h.isPrivate.unique pc a hmet ha (mem_successors_of_mem_passing hedge)
          h.mem_successors)
  · intro pc _ hpc arm harm
    have hpc : pc = f := by simpa using hpc
    rw [hpc, next_passing_of_fork h.inner] at harm
    simpa using fun heq : arm = f => h.notMem_inner ha (heq ▸ harm)
  · intro pc hmet pc' hinner
    have hpc' : pc' = f := by simpa using hinner
    rw [hpc']
    exact (count_next_passing_le pc f).trans (h.isPrivate.once pc hmet)
  · intro pc₁ pc₂ pc' h₁ h₂ hinner hedge₁ hedge₂
    have hpc' : pc' = f := by simpa using hinner
    subst hpc'
    exact h.isPrivate.unique pc₁ pc₂ h₁ h₂ (mem_successors_of_mem_passing hedge₁)
      (mem_successors_of_mem_passing hedge₂)

/-- **Handing arms over leaves a fork out**: the private one, if it is met at all. -/
theorem exists_leavesOut : ∃ left, P.LeavesOut (P.handedOver a front inner back) left := by
  by_cases ha : P.Met a
  · refine ⟨fun pc => decide (pc = f), h.resembles, h.splice_passing ha, ?_, ?_, ?_⟩
    · simpa using h.start_ne ha
    · intro pc hpc
      have hpc : pc = f := by simpa using hpc
      exact ⟨inner, hpc ▸ h.inner⟩
    · intro pc g hmet hg hedge
      have hg : g = f := by simpa using hg
      subst hg
      rw [h.isPrivate.unique pc a hmet ha hedge h.mem_successors]
      exact ⟨_, h.outer⟩
  · exact ⟨fun _ => false, leavesOut_of_same h.resembles fun pc => instr_handedOver_of_met ha⟩

end HandsOver

/-! ## Ways through both programs -/

/-- An edge of a way is an edge of the instruction. -/
theorem mem_successors_of_mem_next {text : Text} {e e' : Fin P.size × text.Offset}
    (h : e' ∈ (P.walk text).next e) : e'.1 ∈ (P.instr e.1).successors := by
  obtain ⟨pc, i⟩ := e
  obtain ⟨pc', j⟩ := e'
  rcases mem_next_walk.mp h with ⟨rfl, hpass⟩ | ⟨cls, r, hpc, -, -⟩
  · exact mem_successors_of_mem_passing hpass
  · show pc' ∈ (P.instr pc).successors
    rw [hpc]
    exact List.mem_singleton.mpr rfl

theorem next_withCode {text : Text} {code : Vector (Instr (Fin P.size)) P.size} {pc : Fin P.size}
    (h : (P.withCode code).instr pc = P.instr pc) (i : text.Offset) :
    ((P.withCode code).walk text).next (pc, i) = (P.walk text).next (pc, i) := by
  cases hi : P.instr pc <;> rw [hi] at h <;> simp only [walk, h, hi]

theorem Resembles.instr_of_ne_fork {code : Vector (Instr (Fin P.size)) P.size}
    (h : P.Resembles code) {pc : Fin P.size} (hpc : ∀ arms, P.instr pc ≠ .fork arms) :
    (P.withCode code).instr pc = P.instr pc := by
  rcases h pc with hsame | ⟨-, arms, -, hfork⟩
  · exact hsame
  · exact absurd hfork (hpc arms)

namespace LeavesOut

variable {code : Vector (Instr (Fin P.size)) P.size} {left : Fin P.size → Bool}
  (h : P.LeavesOut code left) {text : Text}
include h

/-- An edge of a way to a fork that is left out stays at its offset. -/
theorem exists_fork_of_mem_next {e e' : Fin P.size × text.Offset} (he : P.Met e.1)
    (he' : left e'.1 = true) (hedge : e' ∈ (P.walk text).next e) :
    e.2 = e'.2 ∧ e'.1 ∈ (P.passingAt text e'.2).next e.1 := by
  obtain ⟨pc, i⟩ := e
  obtain ⟨pc', j⟩ := e'
  obtain ⟨arms, hfork⟩ := h.parent pc pc' he he' (mem_successors_of_mem_next hedge)
  rcases mem_next_walk.mp hedge with ⟨rfl, hpass⟩ | ⟨cls, r, hread, -, -⟩
  · exact ⟨rfl, hpass⟩
  · rw [hfork] at hread
    cases hread

/-- It is followed once. -/
theorem count_next_le [BEq (Fin P.size × text.Offset)] [LawfulBEq (Fin P.size × text.Offset)]
    {e e' : Fin P.size × text.Offset} (he : P.Met e.1) (he' : left e'.1 = true) :
    ((P.walk text).next e).count e' ≤ 1 := by
  by_cases hedge : e' ∈ (P.walk text).next e
  · obtain ⟨pc, i⟩ := e
    obtain ⟨arms, hfork⟩ := h.parent pc e'.1 he he' (mem_successors_of_mem_next hedge)
    have hmap : ((P.walk text).next (pc, i)).map Prod.fst = (P.passingAt text i).next pc := by
      rw [next_walk_of_passing (by rw [hfork]; nofun), List.map_map]
      exact List.map_id _
    have hcount : ((P.walk text).next (pc, i)).count e' ≤
        (((P.walk text).next (pc, i)).map Prod.fst).count e'.1 := List.count_le_count_map
    rw [hmap] at hcount
    exact hcount.trans ((h.splice i (text.context i)).once pc he e'.1 he')
  · rw [List.count_eq_zero.mpr hedge]
    exact Nat.zero_le 1

/-- Ways through the program go on as before where a symbol is read, and otherwise as they do at
one offset. -/
theorem splice_walk (text : Text) : Graph.Splice (P.walk text)
    ((P.withCode code).walk text) (fun e => P.Met e.1) (fun e => left e.1) := by
  have hleft : ∀ {pc : Fin P.size}, left pc = true →
      ∀ cls next, P.instr pc ≠ .consume cls next := by
    intro pc hpc cls next hread
    obtain ⟨arms, hfork⟩ := h.isFork pc hpc
    rw [hfork] at hread
    cases hread
  refine ⟨?_, ?_, ?_, ?_, ?_, ?_, ?_⟩
  · exact fun e he e' hedge => he.tail (mem_successors_of_mem_next hedge)
  · rintro ⟨pc, i⟩ hmet hpc
    exact (h.splice i (text.context i)).carry pc hmet hpc
  · rintro ⟨pc, i⟩ hmet hpc
    exact (h.splice i (text.context i)).idle pc hmet hpc
  · rintro ⟨pc, i⟩ hmet hpc
    by_cases hread : ∃ cls next, P.instr pc = .consume cls next
    · obtain ⟨cls, next, hread⟩ := hread
      rw [next_withCode (h.resembles.instr_of_ne_fork (by rw [hread]; nofun)),
        Graph.flatMap_spread_of_forall]
      intro e hedge
      by_contra hinner
      obtain ⟨arms, hfork⟩ := h.parent pc e.1 hmet (by simpa using hinner)
        (mem_successors_of_mem_next hedge)
      rw [hfork] at hread
      cases hread
    · have hpass : ∀ cls next, P.instr pc ≠ .consume cls next :=
        fun cls next hcls => hread ⟨cls, next, hcls⟩
      have hpass' : ∀ cls next, (P.withCode code).instr pc ≠ .consume cls next := by
        intro cls next hcls
        rcases h.resembles pc with hsame | ⟨arms, -, hfork, -⟩
        · exact hpass cls next (hsame ▸ hcls)
        · rw [hfork] at hcls
          cases hcls
      rw [next_walk_of_passing hpass, next_walk_of_passing hpass', List.flatMap_map]
      have hnext : ((P.withCode code).passingAt text i).next pc =
          ((P.passingAt text i).next pc).flatMap ((P.passingAt text i).spread left) :=
        (h.splice i (text.context i)).next pc hmet hpc
      rw [hnext, List.map_flatMap]
      refine List.flatMap_congr fun pc' _ => ?_
      simp only [Graph.spread]
      by_cases hinner : left pc' = true
      · rw [if_pos hinner, if_pos hinner]
        exact (next_walk_of_passing (hleft hinner)).symm
      · rw [if_neg hinner, if_neg hinner]
        rfl
  · rintro ⟨pc, i⟩ hmet hpc e he
    rw [next_walk_of_passing (hleft hpc)] at he
    obtain ⟨pc', hedge, rfl⟩ := List.mem_map.mp he
    exact (h.splice i (text.context i)).apart pc hmet hpc pc' hedge
  · exact fun e he e' hinner =>
      @count_next_le P code left h text instBEqOfDecidableEq _ e e' he hinner
  · intro e₁ e₂ e' h₁ h₂ hinner hedge₁ hedge₂
    obtain ⟨hat₁, hpass₁⟩ := h.exists_fork_of_mem_next h₁ hinner hedge₁
    obtain ⟨hat₂, hpass₂⟩ := h.exists_fork_of_mem_next h₂ hinner hedge₂
    exact Prod.ext ((h.splice _ _).unique _ _ _ h₁ h₂ hinner hpass₁ hpass₂) (hat₁.trans hat₂.symm)

/-- Matches end where they did. -/
theorem matchesOf_withCode {task : Task} (es : List ((Fin P.size × task.text.Offset) × Slots)) :
    (P.withCode code).matchesOf task es = P.matchesOf task es := by
  have haccept : ∀ pc : Fin P.size,
      ((P.withCode code).instr pc = .accept) = (P.instr pc = .accept) := by
    intro pc
    rcases h.resembles pc with hsame | ⟨arms, arms', hfork, hfork'⟩
    · rw [hsame]
    · rw [hfork, hfork']
      simp
  unfold matchesOf ends
  simp only [haccept]

/-- No match ends at a fork that is left out. -/
theorem matchesOf_filter {task : Task} (es : List ((Fin P.size × task.text.Offset) × Slots)) :
    P.matchesOf task (es.filter fun e => !left e.1.1) = P.matchesOf task es := by
  unfold matchesOf
  rw [List.filterMap_filter]
  refine List.filterMap_congr fun e _ => ?_
  cases hleft : left e.1.1 with
  | true =>
    obtain ⟨arms, hfork⟩ := h.isFork e.1.1 hleft
    have hnot : P.ends task e.1 = false := ends_eq_false_of_ne_accept (by rw [hfork]; nofun) _
    rw [hnot]
    simp
  | false => simp

/-- **Leaving forks out changes no match.** -/
theorem explored_withCode (task : Task) (i : task.text.Offset) :
    (P.withCode code).explored task i = P.explored task i := by
  unfold explored
  rw [h.matchesOf_withCode,
    Graph.arrivals_splice_single (h.splice_walk task.text) (met_start P) h.start,
    h.matchesOf_filter]

end LeavesOut

end Program

end Lockstep
