import Lockstep.Proofs.Bounds
import Lockstep.Proofs.Ownership
import Mathlib.Order.Bounds.Defs

/-!
# Which programs can be finished

Links are put in one after the other, and each one has to find its edge open; afterwards every edge
has to lead into the program. Put together, these checks ask that the links and the open edges
belong together one to one, in whatever order the links were noted down, and nothing else.

- `Hole.edgeIn`: an edge by its address and index.
- `Builder.applyLink_eq_ok_iff`, `Builder.edgeIn_applyLink`: when a link is put in, and what changes.
- `Builder.exists_foldlM_applyLink_iff`: when all links are put in.
- `Builder.exists_resolved_iff`: when all edges are addresses.
- `Builder.Linkable`, `Builder.exists_finish_iff`: when a program is finished.
- `Builder.Call`, `Builder.ofCalls`: the ways to use a builder.
- `Builder.freezeBinary_ofCalls`: what becomes of a builder, however it was used.
-/

namespace Lockstep

/-- The edge with a given address and index, if there is one. -/
def Hole.edgeIn (hole : Hole) (code : Array (Instr Edge)) : Option Edge :=
  code[hole.pc]?.bind fun i => i.successors[hole.arm]?

namespace Builder

/-! ## Putting all links in -/

section Links

variable {n : Nat} {code code' : Vector (Instr Edge) n} {link : Hole × Nat}
  {links : List (Hole × Nat)} {hole : Hole} {edge : Edge}

theorem edgeIn_eq_some_iff : hole.edgeIn code.toArray = some edge ↔
    ∃ h : hole.pc < n, code[hole.pc].successors[hole.arm]? = some edge := by
  unfold Hole.edgeIn
  by_cases h : hole.pc < n
  · rw [Array.getElem?_eq_getElem (by simpa using h)]
    simp [h]
  · rw [Array.getElem?_eq_none (by simpa using h)]
    simp [h]

/-- **A link is put in exactly where an edge is open.** -/
theorem applyLink_eq_ok_iff : applyLink code link = .ok code' ↔
    ∃ h : link.1.pc < n, code[link.1.pc].successors[link.1.arm]? = some none ∧
      code' = code.set link.1.pc (code[link.1.pc].setArm link.1.arm (some link.2)) := by
  obtain ⟨⟨pc, arm⟩, target⟩ := link
  simp only [applyLink]
  by_cases hpc : pc < n
  · rw [dif_pos hpc]
    cases harm : code[pc].successors[arm]? with
    | none => simp [harm]
    | some edge =>
      cases edge with
      | some => simp [harm]
      | none => simp [harm, hpc, eq_comm]
  · rw [dif_neg hpc]
    simp [hpc]

theorem exists_applyLink_iff :
    (∃ code', applyLink code link = .ok code') ↔ link.1.IsOpenIn code.toArray := by
  refine Iff.trans ?_ edgeIn_eq_some_iff.symm
  constructor
  · rintro ⟨code', h⟩
    obtain ⟨hpc, hopen, -⟩ := applyLink_eq_ok_iff.mp h
    exact ⟨hpc, hopen⟩
  · rintro ⟨hpc, hopen⟩
    exact ⟨_, applyLink_eq_ok_iff.mpr ⟨hpc, hopen, rfl⟩⟩

/-- A link changes its own edge only. -/
theorem edgeIn_applyLink (h : applyLink code link = .ok code') (hole : Hole) :
    hole.edgeIn code'.toArray =
      if hole = link.1 then some (some link.2) else hole.edgeIn code.toArray := by
  obtain ⟨⟨pc, arm⟩, target⟩ := link
  obtain ⟨pc', arm'⟩ := hole
  obtain ⟨hpc, hopen, rfl⟩ := applyLink_eq_ok_iff.mp h
  have hpc : pc < n := hpc
  have hopen : code[pc].successors[arm]? = some none := hopen
  ext edge
  rw [edgeIn_eq_some_iff]
  show (∃ h : pc' < n, (code.set pc _)[pc'].successors[arm']? = some edge) ↔ _
  by_cases heq : pc = pc'
  · subst heq
    simp only [Vector.getElem_set_self, Instr.successors_setArm, exists_prop_of_true hpc]
    by_cases harm : arm = arm'
    · subst harm
      simp [List.getElem?_set_self (List.getElem?_eq_some_iff.mp hopen).1]
    · have hne : ({ pc := pc, arm := arm' } : Hole) ≠ ⟨pc, arm⟩ :=
        fun h => harm (Hole.mk.inj h).2.symm
      rw [List.getElem?_set_ne harm, if_neg hne, edgeIn_eq_some_iff, exists_prop_of_true hpc]
  · have hne : ({ pc := pc', arm := arm' } : Hole) ≠ ⟨pc, arm⟩ :=
      fun h => heq (Hole.mk.inj h).1.symm
    rw [if_neg hne, edgeIn_eq_some_iff]
    simp [Vector.getElem_set_ne _ _ heq]

theorem isOpenIn_applyLink (h : applyLink code link = .ok code') :
    hole.IsOpenIn code'.toArray ↔ hole ≠ link.1 ∧ hole.IsOpenIn code.toArray := by
  show hole.edgeIn _ = _ ↔ _ ∧ hole.edgeIn _ = _
  rw [edgeIn_applyLink h]
  split <;> simp [*]

/-- **All links are put in exactly if** they are for open edges, and no two of them for the same
one. -/
theorem exists_foldlM_applyLink_iff : (∃ code', links.foldlM applyLink code = .ok code') ↔
    (links.map Prod.fst).Nodup ∧ ∀ link ∈ links, link.1.IsOpenIn code.toArray := by
  induction links generalizing code with
  | nil => exact ⟨fun _ => ⟨List.nodup_nil, by simp⟩, fun _ => ⟨code, rfl⟩⟩
  | cons link rest ih =>
    rw [List.map_cons, List.nodup_cons, List.forall_mem_cons]
    constructor
    · rintro ⟨code', h⟩
      rw [List.foldlM_cons] at h
      obtain ⟨linked, hlink, hrest⟩ := exists_ok_of_bind h
      obtain ⟨hnodup, hopen⟩ := ih.mp ⟨code', hrest⟩
      refine ⟨⟨fun hmem => ?_, hnodup⟩, exists_applyLink_iff.mp ⟨linked, hlink⟩, ?_⟩
      -- once a link is in, its edge is not open any more
      · obtain ⟨link', hlink', heq⟩ := List.mem_map.mp hmem
        exact ((isOpenIn_applyLink hlink).mp (hopen link' hlink')).1 heq
      · exact fun link' hlink' => ((isOpenIn_applyLink hlink).mp (hopen link' hlink')).2
    · rintro ⟨⟨hfresh, hnodup⟩, hfirst, hopen⟩
      obtain ⟨linked, hlink⟩ := exists_applyLink_iff.mpr hfirst
      obtain ⟨code', hrest⟩ := ih.mpr ⟨hnodup, fun link' hlink' =>
        (isOpenIn_applyLink hlink).mpr
          ⟨fun heq => hfresh (heq ▸ List.mem_map_of_mem hlink'), hopen link' hlink'⟩⟩
      refine ⟨code', ?_⟩
      rw [List.foldlM_cons, hlink]
      exact hrest

/-- Edges without a link stay as they were. -/
theorem edgeIn_foldlM (h : links.foldlM applyLink code = .ok code')
    (hole : Hole) (hno : ∀ link ∈ links, link.1 ≠ hole) :
    hole.edgeIn code'.toArray = hole.edgeIn code.toArray := by
  induction links generalizing code with
  | nil =>
    cases h
    rfl
  | cons link rest ih =>
    obtain ⟨hne, hno⟩ := List.forall_mem_cons.mp hno
    rw [List.foldlM_cons] at h
    obtain ⟨linked, hlink, hrest⟩ := exists_ok_of_bind h
    rw [ih hrest hno, edgeIn_applyLink hlink, if_neg (Ne.symm hne)]

/-- Edges with a link lead where it says. -/
theorem edgeIn_foldlM_of_mem (h : links.foldlM applyLink code = .ok code') (hlink : link ∈ links) :
    link.1.edgeIn code'.toArray = some (some link.2) :=
  edgeIn_eq_some_iff.mpr ((linked_foldlM h).links link hlink)

end Links

/-! ## Edges as addresses -/

/-- An action on each element of a list has a result if it has one for each element. -/
theorem exists_mapM_ok {ε α β : Type} {f : α → Except ε β} {as : List α}
    (h : ∀ a ∈ as, ∃ b, f a = .ok b) : ∃ bs, as.mapM f = .ok bs := by
  induction as with
  | nil => exact ⟨[], rfl⟩
  | cons a as ih =>
    obtain ⟨b, hb⟩ := h a List.mem_cons_self
    obtain ⟨bs, hbs⟩ := ih fun a' ha' => h a' (List.mem_cons_of_mem _ ha')
    refine ⟨b :: bs, ?_⟩
    rw [List.mapM_cons, hb, hbs]
    rfl

/-- An instruction with all edges within the program has edges that are addresses. -/
theorem exists_mapM_resolve {n pc : Nat} {i : Instr Edge}
    (h : ∀ edge ∈ i.successors, ∃ target, edge = some target ∧ target < n) :
    ∃ a, i.mapM (resolve n pc) = .ok a := by
  have hresolve : ∀ edge ∈ i.successors, ∃ t, resolve n pc edge = .ok t := by
    intro edge hedge
    obtain ⟨target, rfl, hlt⟩ := h edge hedge
    exact ⟨⟨target, hlt⟩, dif_pos hlt⟩
  cases i with
  | fork arms =>
    obtain ⟨arms', harms⟩ := exists_mapM_ok hresolve
    have harms : arms.mapM (resolve n pc) = .ok arms' := harms
    exact ⟨.fork arms', by rw [Instr.mapM, harms]; rfl⟩
  | save _ edge | assert _ edge | jump edge | consume _ edge =>
    obtain ⟨t, ht⟩ := hresolve edge List.mem_cons_self
    exact ⟨_, by rw [Instr.mapM, ht]; rfl⟩
  | fail | accept => exact ⟨_, rfl⟩

section Resolved

variable {n : Nat} {code : Vector (Instr Edge) n}

/-- The edges of a program are addresses, and the edges it was made from lead there. -/
theorem edgeIn_of_resolved {code' : Vector (Instr (Fin n)) n} (h : resolved code = .ok code')
    {hole : Hole} {edge : Edge} : hole.edgeIn code.toArray = some edge ↔
      ∃ hpc : hole.pc < n,
        (code'[hole.pc].map fun t => some t.val).successors[hole.arm]? = some edge := by
  rw [edgeIn_eq_some_iff]
  exact exists_congr fun hpc => by rw [eq_map_of_resolved h hole.pc hpc]

/-- **All edges are addresses exactly if** each of them leads into the program. -/
theorem exists_resolved_iff : (∃ code', resolved code = .ok code') ↔
    ∀ (hole : Hole) (edge : Edge), hole.edgeIn code.toArray = some edge →
      ∃ target, edge = some target ∧ target < n := by
  constructor
  · rintro ⟨code', h⟩ hole edge hedge
    obtain ⟨hpc, harm⟩ := (edgeIn_of_resolved h).mp hedge
    rw [Instr.successors_map, List.getElem?_map, Option.map_eq_some_iff] at harm
    obtain ⟨t, -, rfl⟩ := harm
    exact ⟨t, rfl, t.isLt⟩
  · intro h
    let f : Instr Edge × Nat → Except Flaw (Instr (Fin n)) := fun e => e.1.mapM (resolve n e.2)
    have heach : ∀ e ∈ code.zipIdx.toArray.toList, ∃ a, f e = .ok a := by
      rintro ⟨i, pc⟩ hmem
      obtain ⟨hpc, heq⟩ := Vector.mem_zipIdx' (Vector.mem_toList_iff.mp hmem)
      refine exists_mapM_resolve fun edge hedge => ?_
      rw [show i = code[pc] from heq] at hedge
      obtain ⟨arm, harm⟩ := List.mem_iff_getElem?.mp hedge
      exact h ⟨pc, arm⟩ edge (edgeIn_eq_some_iff.mpr ⟨hpc, harm⟩)
    obtain ⟨as, has⟩ := exists_mapM_ok heach
    rw [← Array.toList_mapM, ← Vector.toArray_mapM] at has
    cases hcode : resolved code with
    | ok code' => exact ⟨code', rfl⟩
    | error flaw =>
      have hcode : code.zipIdx.mapM f = .error flaw := hcode
      rw [hcode] at has
      cases has

end Resolved

/-! ## Finishing -/

/-- The links of a builder and its open edges belong together, and the program starts and leads
inside: each link is for an edge that was open when it was added, no two links are for the same
edge, each open edge has a link, and whatever leads anywhere leads to an instruction. -/
structure Linkable (b : Builder) : Prop where
  nonempty : 0 < b.code.size
  start : b.start < b.code.size
  isOpen : ∀ link ∈ b.links, link.1.IsOpenIn b.code
  nodup : (b.links.toList.map Prod.fst).Nodup
  covers : ∀ hole : Hole, hole.IsOpenIn b.code → ∃ link ∈ b.links, link.1 = hole
  target : ∀ pc target, b.LeadsTo pc target → target < b.code.size

variable {b : Builder} {P : Program}

/-- An edge that was added leading somewhere, by its index. -/
theorem leadsTo_of_edgeIn {hole : Hole} {target : Nat}
    (h : hole.edgeIn b.code = some (some target)) : b.LeadsTo hole.pc target := by
  obtain ⟨i, hi, harm⟩ := Option.bind_eq_some_iff.mp h
  exact .inl ⟨i, hi, List.mem_of_getElem? harm⟩

/-- What is finished was linkable: where nothing was linked, the edges are as they were. -/
theorem linkable_of_finish (h : b.finish = .ok P) : b.Linkable := by
  obtain ⟨hstart, code, code', hlinked, hresolved, -⟩ := finish_eq_ok_iff.mp h
  rw [linked_eq] at hlinked
  obtain ⟨hnodup, hopen⟩ := exists_foldlM_applyLink_iff.mp ⟨code, hlinked⟩
  have hwithin := exists_resolved_iff.mp ⟨code', hresolved⟩
  have hkeeps : ∀ {hole : Hole} {edge : Edge}, (∀ link ∈ b.links.toList, link.1 ≠ hole) →
      hole.edgeIn b.code = some edge → ∃ target, edge = some target ∧ target < b.code.size :=
    fun hno hedge => hwithin _ _ ((edgeIn_foldlM hlinked _ hno).trans hedge)
  refine ⟨by omega, hstart, fun link hlink => ?_, hnodup, fun hole hole_open => ?_, ?_⟩
  · exact hopen link (Array.mem_toList_iff.mpr hlink)
  · -- an open edge without a link would still lead nowhere
    by_contra hno
    obtain ⟨target, htarget, -⟩ := hkeeps (fun link hlink heq =>
      hno ⟨link, Array.mem_toList_iff.mp hlink, heq⟩) hole_open
    cases htarget
  · rintro pc target (⟨i, hi, hmem⟩ | ⟨arm, hlink⟩)
    · obtain ⟨arm, harm⟩ := List.mem_iff_getElem?.mp hmem
      have hedge : (Hole.mk pc arm).edgeIn b.code = some (some target) := by
        rw [Hole.edgeIn, hi]
        exact harm
      obtain ⟨_, htarget, hlt⟩ := hkeeps (fun link hlink heq => by
        have hlink_open : link.1.edgeIn b.code = some none := hopen link hlink
        rw [heq, hedge] at hlink_open
        cases hlink_open) hedge
      cases htarget
      exact hlt
    · obtain ⟨_, htarget, hlt⟩ := hwithin _ _
        (edgeIn_foldlM_of_mem hlinked (Array.mem_toList_iff.mpr hlink))
      cases htarget
      exact hlt

/-- With all links put in, no edge of a linkable program leads nowhere, or outside. -/
theorem Linkable.exists_target (h : b.Linkable) {code : Vector (Instr Edge) b.code.size}
    (hlinked : b.links.toList.foldlM applyLink (Vector.mk b.code rfl) = .ok code) {hole : Hole}
    {edge : Edge} (hedge : hole.edgeIn code.toArray = some edge) :
    ∃ target, edge = some target ∧ target < b.code.size := by
  by_cases hlink : ∃ link ∈ b.links.toList, link.1 = hole
  · obtain ⟨link, hlink, rfl⟩ := hlink
    rw [edgeIn_foldlM_of_mem hlinked hlink] at hedge
    cases hedge
    exact ⟨link.2, rfl, h.target _ _ (.inr ⟨link.1.arm, Array.mem_toList_iff.mp hlink⟩)⟩
  · have hno : ∀ link ∈ b.links.toList, link.1 ≠ hole := fun link hmem heq =>
      hlink ⟨link, hmem, heq⟩
    rw [edgeIn_foldlM hlinked hole hno] at hedge
    cases edge with
    | some target => exact ⟨target, rfl, h.target _ _ (leadsTo_of_edgeIn hedge)⟩
    | none =>
      obtain ⟨link, hmem, heq⟩ := h.covers hole hedge
      exact absurd heq (hno link (Array.mem_toList_iff.mpr hmem))

/-- **A program is finished exactly if it is linkable**, whatever the order of its links. -/
theorem exists_finish_iff : (∃ P, b.finish = .ok P) ↔ b.Linkable := by
  refine ⟨fun ⟨P, hP⟩ => linkable_of_finish hP, fun h => ?_⟩
  obtain ⟨code, hlinked⟩ : ∃ code, b.links.toList.foldlM applyLink (Vector.mk b.code rfl) =
      .ok code := exists_foldlM_applyLink_iff.mpr
    ⟨h.nodup, fun link hlink => h.isOpen link (Array.mem_toList_iff.mp hlink)⟩
  obtain ⟨code', hresolved⟩ : ∃ code', resolved code = .ok code' :=
    exists_resolved_iff.mpr fun hole edge hedge => h.exists_target hlinked hedge
  exact ⟨_, finish_eq_ok_iff.mpr
    ⟨h.start, code, code', b.linked_eq.trans hlinked, hresolved, rfl⟩⟩

/-- **A complete program is linkable.** -/
theorem Complete.linkable (h : b.Complete) : b.Linkable where
  nonempty := h.pos
  start := h.start
  isOpen link hlink :=
    (h.links.2 link.1).mp (List.mem_map_of_mem (Array.mem_toList_iff.mpr hlink))
  nodup := h.links.1
  covers hole hopen := by
    obtain ⟨link, hlink, heq⟩ := List.mem_map.mp ((h.links.2 hole).mpr hopen)
    exact ⟨link, Array.mem_toList_iff.mp hlink, heq⟩
  target := h.target

/-- **A complete program is finished.** -/
theorem Complete.exists_finish (h : b.Complete) : ∃ P, b.finish = .ok P :=
  exists_finish_iff.mpr h.linkable

/-- An edge without a link leads where it led when it was added. -/
theorem leads_iff_of_no_link (h : b.finish = .ok P) {hole : Hole}
    (hno : ∀ link ∈ b.links, link.1 ≠ hole) {target : Nat} :
    P.Leads hole target ↔ hole.edgeIn b.code = some (some target) := by
  obtain ⟨hstart, code, code', hlinked, hresolved, rfl⟩ := finish_eq_ok_iff.mp h
  rw [linked_eq] at hlinked
  refine (edgeIn_of_resolved hresolved).symm.trans ?_
  rw [edgeIn_foldlM hlinked hole fun link hlink => hno link (Array.mem_toList_iff.mp hlink)]

end Builder

/-! ## Slots -/

namespace Program

variable {P : Program} {b : Builder}

/-- The greatest of some numbers is not more than what all of them are less than. -/
theorem foldl_max_le_of_forall {α : Type} {f : α → Nat} {l : List α} {m most : Nat} (hm : m ≤ most)
    (h : ∀ x ∈ l, f x ≤ most) : l.foldl (fun most x => max most (f x)) m ≤ most := by
  induction l generalizing m with
  | nil => exact hm
  | cons x l ih =>
    obtain ⟨hx, hl⟩ := List.forall_mem_cons.mp h
    exact ih (Nat.max_le.mpr ⟨hm, hx⟩) hl

/-- An instruction of a finished program is the one that was added, but for its edges. -/
theorem Finishes.exists_instr (h : P.Finishes b) (pc : Fin P.size) :
    ∃ i, b.code[(pc : Nat)]? = some i ∧ ((P.openInstr pc).map fun _ => ()) = i.map fun _ => () := by
  have hpc : (pc : Nat) < b.code.size := h.size ▸ pc.isLt
  have hi := Array.getElem?_eq_getElem hpc
  obtain ⟨_, hfills⟩ := h.realises.instr pc _ hi
  exact ⟨_, hi, hfills.same⟩

/-- **The slots of a finished program** are those of its captures, in pairs, unless there are too
many to be counted. -/
theorem Finishes.isLeast_slotCount (h : P.Finishes b) (hslots : ∀ (pc slot : Nat) (next : Edge),
      b.code[pc]? = some (.save slot next) → slot + 2 < UInt64.size) :
    IsLeast {count | Even count ∧ 2 ≤ count ∧ ∀ (pc slot : Nat) (next : Edge),
      b.code[pc]? = some (.save slot next) → slot < count} P.slotCount := by
  constructor
  · refine ⟨P.slotCount_even, P.two_le_slotCount, fun pc slot next hi => ?_⟩
    obtain ⟨hpc, hfills⟩ := h.realises.instr pc _ hi
    have hsame := hfills.same
    unfold openInstr at hsame
    cases hinstr : P.instr ⟨pc, hpc⟩ with
    | save slot' next' =>
      rw [hinstr] at hsame
      cases hsame
      exact lt_slotCount hinstr (hslots pc slot next hi)
    | fork | assert | jump | fail | accept | consume =>
      rw [hinstr] at hsame
      cases hsame
  · rintro count ⟨heven, htwo, hless⟩
    rw [slotCount_eq_foldl]
    refine foldl_max_le_of_forall htwo fun i hi => ?_
    obtain ⟨pc, hpc, rfl⟩ := Vector.mem_iff_getElem.mp (Vector.mem_toList_iff.mp hi)
    obtain ⟨i, hi, hsame⟩ := h.exists_instr ⟨pc, hpc⟩
    unfold openInstr instr at hsame
    cases hinstr : P.code[pc] with
    | save slot next =>
      rw [show P.code[(⟨pc, hpc⟩ : Fin P.size)] = _ from hinstr] at hsame
      cases i with
      | save slot' next' =>
        cases hsame
        have hlt := hless pc _ _ hi
        obtain ⟨half, rfl⟩ := heven
        show Slots.paired (slot + 1) ≤ half + half
        rw [Slots.paired_of_lt (hslots pc _ _ hi)]
        omega
      | fork | assert | jump | fail | accept | consume => cases hsame
    | fork | assert | jump | fail | accept | consume => exact Nat.zero_le count

end Program

/-! ## Builders in use -/

namespace Builder

/-- A way to use a builder. -/
inductive Call where
  /-- Adds an instruction. -/
  | push (i : Instr Edge)
  /-- Notes down links. -/
  | link (holes : List Hole) (target : Nat)
  /-- Sets the start. -/
  | startAt (pc : Nat)

namespace Call

/-- What a call does to a builder. -/
def run (b : Builder) : Call → Builder
  | push i => b.push i
  | link holes target => b.link holes target
  | startAt pc => b.startAt pc

/-- The instruction that a call adds. -/
def instr? : Call → Option (Instr Edge)
  | push i => some i
  | link _ _ | startAt _ => none

/-- The links that a call notes down. -/
def queued : Call → List (Hole × Nat)
  | link holes target => holes.map fun hole => (hole, target)
  | push _ | startAt _ => []

/-- The start that a call sets. -/
def start? : Call → Option Nat
  | startAt pc => some pc
  | push _ | link _ _ => none

end Call

/-- A new builder after some calls. -/
def ofCalls (calls : List Call) : Builder := calls.foldl Call.run {}

/-- **What a builder holds after some calls**: the instructions and the links in the order in which
they came, however they alternate, and the last start. -/
theorem ofCalls_holds (calls : List Call) :
    (ofCalls calls).code.toList = calls.filterMap Call.instr? ∧
      (ofCalls calls).links.toList = calls.flatMap Call.queued ∧
      (ofCalls calls).start = (calls.reverse.findSome? Call.start?).getD 0 := by
  induction calls using List.reverseRecOn with
  | nil => exact ⟨rfl, rfl, rfl⟩
  | append_singleton calls call ih =>
    obtain ⟨hcode, hlinks, hstart⟩ := ih
    have hlast : ofCalls (calls ++ [call]) = call.run (ofCalls calls) := by
      rw [ofCalls, List.foldl_append]
      rfl
    rw [hlast, List.filterMap_append, List.flatMap_append, List.reverse_append, ← hcode, ← hlinks]
    cases call with
    | push i => exact ⟨Array.toList_push .., (List.append_nil _).symm, hstart⟩
    | link holes target =>
      refine ⟨(List.append_nil _).symm, ?_, hstart⟩
      show ((ofCalls calls).links ++ (holes.map fun hole => (hole, target)).toArray).toList = _
      rw [Array.toList_append]
      simp [Call.queued]
    | startAt pc => exact ⟨(List.append_nil _).symm, (List.append_nil _).symm, rfl⟩

/-- Two links for one edge are refused, whichever of them comes first. -/
example : (ofCalls [.push (.jump none), .link [⟨0, 0⟩, ⟨0, 0⟩] 0]).finish =
    .error (.linkedTwice 0 0) := rfl

end Builder

end Lockstep
