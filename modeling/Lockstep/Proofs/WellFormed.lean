import Lockstep.Proofs.Extent
import Lockstep.Proofs.Finishing
import Lockstep.Proofs.Savings

/-!
# Programs of expressions are well formed

A complete program can be finished. That a finished program starts inside itself and never leaves it
is in its type; so what there is to prove about that is that finishing does not fail. What comes of
it hangs together, and so does what comes of flattening it.

- `Program.Concludes`: edges lead from an address to an instruction that ends a thread.
- `Program.WellFormed`: a program that hangs together.
- `Finishes.wellFormed`, `WellFormed.flatten`: what finishing and flattening come to.
- `Expr.compile_wellFormed`: the programs of an expression.
-/

namespace Lockstep

/-! ## Programs that hang together -/

namespace Program

variable {P : Program} {b : Builder}

/-- Edges lead from an address to an instruction that ends a thread. -/
inductive Concludes (P : Program) : Fin P.size → Prop where
  | stop {pc : Fin P.size} (h : P.instr pc = .accept ∨ P.instr pc = .fail) : Concludes P pc
  | step {pc next : Fin P.size} (h : next ∈ (P.instr pc).successors) (rest : Concludes P next) :
    Concludes P pc

/-- A way from a fork goes on along one of its arms. -/
theorem Concludes.exists_of_fork {pc : Fin P.size} {arms : List (Fin P.size)}
    (h : P.Concludes pc) (hpc : P.instr pc = .fork arms) : ∃ arm ∈ arms, P.Concludes arm := by
  cases h with
  | stop hstop =>
    rw [hpc] at hstop
    exact hstop.elim nofun nofun
  | @step _ next hnext hrest =>
    rw [hpc] at hnext
    exact ⟨next, hnext, hrest⟩

/-- A program that hangs together: it fails at the address 0, it starts and all edges lead inside,
all capture writes go to slots that there are and leave alone those of the whole match, and from
everywhere edges lead to an instruction that ends a thread. -/
structure WellFormed (P : Program) : Prop where
  root : P.Rooted
  start : (P.start : Nat) < P.size
  edges : ∀ pc, ∀ next ∈ (P.instr pc).successors, (next : Nat) < P.size
  slots : ∀ pc slot next, P.instr pc = .save slot next → 2 ≤ slot ∧ slot < P.slotCount
  concludes : ∀ pc, P.Concludes pc

/-! ### Ways on -/

/-- An edge by its index is one of the edges. -/
theorem Leads.exists_mem {hole : Hole} {target : Nat} (h : P.Leads hole target) :
    ∃ hpc : hole.pc < P.size, ∃ next ∈ (P.instr ⟨hole.pc, hpc⟩).successors,
      (next : Nat) = target := by
  obtain ⟨hpc, hleads⟩ := h
  have hmem : some target ∈ (P.openInstr ⟨hole.pc, hpc⟩).successors :=
    List.mem_of_getElem? hleads
  rw [openInstr, Instr.successors_map] at hmem
  obtain ⟨next, hnext, heq⟩ := List.mem_map.mp hmem
  exact ⟨hpc, next, hnext, Option.some.inj heq⟩

/-- The edges and the links of a builder are edges of the finished program. -/
theorem Realises.exists_leads (h : P.Realises b) {pc target : Nat} (hleads : b.LeadsTo pc target) :
    ∃ arm, P.Leads ⟨pc, arm⟩ target := by
  rcases hleads with ⟨i, hi, hmem⟩ | ⟨arm, hlink⟩
  · obtain ⟨hpc, hfills⟩ := h.instr pc i hi
    obtain ⟨arm, harm⟩ := List.mem_iff_getElem?.mp hmem
    exact ⟨arm, hpc, hfills.keeps arm target harm⟩
  · exact ⟨arm, h.links _ hlink⟩

/-- A way on that ends a thread is still there when the program is finished. -/
theorem Realises.concludes (h : P.Realises b) {pc : Nat} (hescapes : b.Escapes 0 pc)
    (hpc : pc < P.size) : P.Concludes ⟨pc, hpc⟩ := by
  induction hescapes with
  | @stop pc i hi hstop =>
    obtain ⟨_, hfills⟩ := h.instr pc i hi
    refine .stop ?_
    rcases hstop with rfl | rfl
    · exact .inl hfills.eq_accept
    · exact .inr hfills.eq_fail
  | hole hmem => exact absurd hmem (Multiset.notMem_zero _)
  | edge hleads _ ih =>
    obtain ⟨arm, hleads⟩ := h.exists_leads hleads
    obtain ⟨_, next, hnext, rfl⟩ := hleads.exists_mem
    exact .step hnext (ih next.isLt)

/-- **A finished program is well formed** if what it was built from is complete. -/
theorem Finishes.wellFormed (h : P.Finishes b) (hcomplete : b.Complete)
    (hgroups : ∀ pc, (P.instr pc).SavesGroup) : P.WellFormed where
  root := by
    obtain ⟨hpos, hfills⟩ := h.realises.instr 0 .fail hcomplete.root
    exact ⟨hpos, hfills.eq_fail⟩
  start := P.start.isLt
  edges _ next _ := next.isLt
  slots pc slot next hpc :=
    (hgroups pc slot next hpc).imp_right fun hslot => lt_slotCount hpc hslot
  concludes pc :=
    h.realises.concludes (hcomplete.escapes pc (h.size ▸ pc.isLt)) pc.isLt

/-! ### Flattening -/

section Flattening

variable {code : Vector (Instr (Fin P.size)) P.size} {pc : Fin P.size}

/-- A way over a fork that hands its arms over goes on along one of these arms. -/
theorem HandsOver.concludes {a f : Fin P.size} {front inner back : List (Fin P.size)}
    (h : P.HandsOver a f front inner back) (hconcludes : P.Concludes pc) :
    (P.withCode (P.handedOver a front inner back)).Concludes pc := by
  induction hconcludes with
  | @stop pc hstop =>
    have hne : pc ≠ a := by
      rintro rfl
      rw [h.outer] at hstop
      exact hstop.elim nofun nofun
    refine .stop ?_
    rw [instr_handedOver_ne hne]
    exact hstop
  | @step pc next hnext _ ih =>
    by_cases hpc : pc = a
    · subst hpc
      have harms : ∀ arm ∈ front ++ inner ++ back,
          (P.withCode (P.handedOver pc front inner back)).Concludes arm →
          (P.withCode (P.handedOver pc front inner back)).Concludes pc := by
        intro arm harm hrest
        refine .step ?_ hrest
        rw [instr_handedOver_self]
        exact harm
      rw [h.outer] at hnext
      rcases List.mem_append.mp hnext with hfront | hback
      · exact harms next (by simp [hfront]) ih
      rcases List.mem_cons.mp hback with rfl | hback
      · -- the way led over the inner fork, which is as it was
        obtain ⟨arm, harm, hrest⟩ := ih.exists_of_fork ((instr_handedOver_ne h.ne).trans h.inner)
        exact harms arm (by simp [harm]) hrest
      · exact harms next (by simp [hback]) ih
    · refine .step ?_ ih
      rw [instr_handedOver_ne hpc]
      exact hnext

theorem Rewired.concludes (h : P.Rewired code) (hconcludes : P.Concludes pc) :
    (P.withCode code).Concludes pc := by
  induction h with
  | refl => exact hconcludes
  | handOver _ hover ih => exact hover.concludes ih

/-- Flattening keeps the ways on. -/
theorem Concludes.flatten (h : P.Concludes pc) : P.flatten.Concludes pc :=
  (rewired_flatten P).concludes h

/-- **A flattened program is well formed** if the program is. -/
theorem WellFormed.flatten (h : P.WellFormed) : P.flatten.WellFormed where
  root := by
    obtain ⟨hpos, hfail⟩ := h.root
    refine ⟨hpos, ?_⟩
    rcases (rewired_flatten P).resembles ⟨0, hpos⟩ with hsame | ⟨-, arms, -, hfork⟩
    · exact hsame.trans hfail
    · exact absurd (hfork.symm.trans hfail) nofun
  start := P.flatten.start.isLt
  edges _ next _ := next.isLt
  slots pc slot next hpc := by
    have hresembles := (rewired_flatten P).resembles
    rcases hresembles pc with hsame | ⟨arms, -, harms, -⟩
    · rw [show P.flatten.slotCount = P.slotCount from hresembles.slotCount_eq]
      exact h.slots pc slot next (hsame.symm.trans hpc)
    · exact absurd (harms.symm.trans hpc) nofun
  concludes pc := (h.concludes pc).flatten

end Flattening

end Program

/-! ## Programs of expressions -/

/-- **Compiling an expression** yields programs that hang together, flattened or not; or it fails
both ways with the same error, and the fault is not in the program. Once all instructions are there,
each open edge has been linked once, and nothing else has; so finishing cannot fail. -/
theorem Expr.compile_wellFormed (e : Expr) (limit : Nat) :
    (∃ error, error.isInternal = false ∧ e.build limit = .error error ∧
      e.compileBinary limit = .error error ∧ e.compile limit = .error error) ∨
      ∃ b P, e.build limit = .ok b ∧
        ((b.links.toList.map Prod.fst).Nodup ∧
          ∀ hole, hole ∈ b.links.toList.map Prod.fst ↔ hole.IsOpenIn b.code) ∧
        e.compileBinary limit = .ok P ∧ P.WellFormed ∧
        e.compile limit = .ok P.flatten ∧ P.flatten.WellFormed := by
  obtain ⟨herror, hok⟩ := e.complete_build limit
  cases hbuild : e.build limit with
  | error error =>
    refine .inl ⟨error, herror error hbuild, rfl, ?_, ?_⟩
    · unfold compileBinary
      rw [hbuild]
      rfl
    · unfold compile
      rw [hbuild]
      rfl
  | ok b =>
    have hcomplete : b.Complete := hok b hbuild
    obtain ⟨P, hfinish⟩ := hcomplete.exists_finish
    have hfinishes : P.Finishes b := Program.finishes_of_finish hfinish
    have hwell : P.WellFormed :=
      hfinishes.wellFormed hcomplete (Program.laysOut_of_build hbuild hfinishes).2
    have hbinary : b.freezeBinary = .ok P := congrArg (Except.mapError Error.malformed) hfinish
    have hflat : b.freeze = .ok P.flatten := congrArg (Except.map Program.flatten) hbinary
    refine .inr ⟨b, P, rfl, hcomplete.links, ?_, hwell, ?_, hwell.flatten⟩
    · unfold compileBinary
      rw [hbuild]
      exact hbinary
    · unfold compile
      rw [hbuild]
      exact hflat

/-- If what comes next never matches, the edge that would have led there leads to where the program
fails. -/
example : (Expr.concat [.literal 'a' false, .never]).compile 100 =
    .ok ⟨3, #v[.fail, .consume (.single 0x61) 0, .accept], 0⟩ := by
  cbv

end Lockstep
