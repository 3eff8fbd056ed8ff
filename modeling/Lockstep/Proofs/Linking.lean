import Lockstep.Program.Freeze
import Mathlib.Data.List.Forall2

/-!
# What finishing a program keeps

A program is finished by leading its open edges somewhere. All that was decided while it was built
stays: the instructions, the edges that had a target already, and the links.

- `Instr.Fills`: an instruction with more of its edges leading somewhere.
- `Program.Leads`: an edge of a finished program leads to an address.
- `Program.Realises`: a finished program has the instructions and the links of a builder.
- `Builder.linked_foldlM`, `Builder.eq_map_of_resolved`: what putting the links in keeps.
- `Builder.finish_eq_ok_iff`: the steps of finishing.
- `Program.finishes_of_finish`: finishing a builder realises it.
- `Builder.freezeBinary_eq_ok_iff`, `Builder.freeze_eq_ok_iff`: freezing is finishing.
-/

namespace Lockstep

/-! ## More edges that lead somewhere -/

namespace Instr

/-- The same instruction, with at least the same edges leading somewhere. -/
structure Fills (i' i : Instr Edge) : Prop where
  same : (i'.map fun _ => ()) = i.map fun _ => ()
  keeps : ∀ arm target : Nat,
    i.successors[arm]? = some (some target) → i'.successors[arm]? = some (some target)

variable {i i' i'' : Instr Edge}

theorem Fills.refl (i : Instr Edge) : i.Fills i := ⟨rfl, fun _ _ h => h⟩

theorem Fills.trans (h : i''.Fills i') (h' : i'.Fills i) : i''.Fills i :=
  ⟨h.same.trans h'.same, fun arm target hi => h.keeps arm target (h'.keeps arm target hi)⟩

/-- Giving an open edge a target. -/
theorem fills_setArm {arm : Nat} (h : i.successors[arm]? = some none) (target : Nat) :
    (i.setArm arm (some target)).Fills i := by
  constructor
  · cases i with
    | fork arms =>
      show fork ((arms.set arm _).map _) = fork (arms.map _)
      congr 1
      rw [List.map_set]
      refine List.ext_getElem? fun k => ?_
      rw [List.getElem?_set]
      split
      · next hk =>
        subst hk
        have hlt : arm < arms.length := (List.getElem?_eq_some_iff.mp h).1
        simp [hlt]
      · rfl
    | save | assert | jump | fail | accept | consume => rfl
  · intro k u hk
    rw [successors_setArm]
    by_cases hne : arm = k
    · subst hne
      rw [h] at hk
      cases hk
    · rw [List.getElem?_set_ne hne]
      exact hk

theorem successors_setArm_self {arm : Nat} (h : i.successors[arm]? = some none) (target : Nat) :
    (i.setArm arm (some target)).successors[arm]? = some (some target) := by
  rw [successors_setArm, List.getElem?_set_self (List.getElem?_eq_some_iff.mp h).1]

/-- What fills an instruction that has one edge by its kind. -/
theorem Fills.eq_map {n : Nat} {a : Instr (Fin n)}
    (h : (a.map fun t => some t.val).Fills i) (hi : i.next?.isSome = true) {t : Fin n}
    (ht : (a.map fun t => some t.val).successors[0]? = some (some t.val)) :
    a = i.map fun _ => t := by
  have hsame := h.same
  cases i with
  | fork | fail | accept => cases hi
  | save slot next =>
    cases a <;> simp_all [map, successors, Fin.ext_iff]
  | assert cond next =>
    cases a <;> simp_all [map, successors, Fin.ext_iff]
  | jump next =>
    cases a <;> simp_all [map, successors, Fin.ext_iff]
  | consume cls next =>
    cases a <;> simp_all [map, successors, Fin.ext_iff]

theorem Fills.eq_fail {n : Nat} {a : Instr (Fin n)}
    (h : (a.map fun t => some t.val).Fills .fail) : a = .fail := by
  have hsame := h.same
  cases a with
  | fail => rfl
  | fork | save | assert | jump | accept | consume => cases hsame

theorem Fills.eq_accept {n : Nat} {a : Instr (Fin n)}
    (h : (a.map fun t => some t.val).Fills .accept) : a = .accept := by
  have hsame := h.same
  cases a with
  | accept => rfl
  | fork | save | assert | jump | fail | consume => cases hsame

/-- What fills an instruction writes into the same slot. -/
theorem Fills.exists_save {n slot : Nat} {next : Fin n}
    (h : (map (fun t : Fin n => some t.val) (.save slot next)).Fills i) :
    ∃ next', i = .save slot next' := by
  have hsame := h.same
  cases i with
  | save slot' next' =>
    cases hsame
    exact ⟨next', rfl⟩
  | fork | assert | jump | fail | accept | consume => cases hsame

/-- What fills a fork. -/
theorem Fills.exists_fork {n : Nat} {a : Instr (Fin n)} {arms : List Edge}
    (h : (a.map fun t => some t.val).Fills (.fork arms)) :
    ∃ arms', a = .fork arms' ∧ arms'.length = arms.length := by
  have hsame := h.same
  cases a with
  | fork arms' =>
    have hlen := congrArg (fun a => a.successors.length) hsame
    exact ⟨arms', rfl, by simpa [map, successors] using hlen⟩
  | save | assert | jump | fail | accept | consume => simp [map] at hsame

end Instr

/-! ## Programs that realise a builder -/

namespace Program

variable {P : Program} {b : Builder}

/-- The instruction at an address, with its edges as those of a program that is being built. -/
def openInstr (P : Program) (pc : Fin P.size) : Instr Edge := (P.instr pc).map fun t => some t.val

/-- An edge leads to an address. -/
def Leads (P : Program) (hole : Hole) (target : Nat) : Prop :=
  ∃ h : hole.pc < P.size, (P.openInstr ⟨hole.pc, h⟩).successors[hole.arm]? = some (some target)

/-- The program has the instructions and the links of a builder, perhaps with more behind them. -/
structure Realises (P : Program) (b : Builder) : Prop where
  instr : ∀ pc i, b.code[pc]? = some i → ∃ h : pc < P.size, (P.openInstr ⟨pc, h⟩).Fills i
  links : ∀ link ∈ b.links, P.Leads link.1 link.2

/-- Where a single edge leads. -/
theorem instr_of_leads {s t : Fin P.size} {i : Instr Edge} (h : (P.openInstr s).Fills i)
    (hi : i.next?.isSome = true) (ht : P.Leads ⟨s, 0⟩ t) : P.instr s = i.map fun _ => t := by
  obtain ⟨_, ht⟩ := ht
  exact h.eq_map hi ht

end Program

namespace Builder

/-! ## Putting the links in -/

/-- The instructions with some links put in: what led somewhere still leads there. -/
structure Linked {n : Nat} (code code' : Vector (Instr Edge) n) (links : List (Hole × Nat)) :
    Prop where
  fills : ∀ pc (h : pc < n), code'[pc].Fills code[pc]
  links : ∀ link ∈ links, ∃ h : link.1.pc < n,
    code'[link.1.pc].successors[link.1.arm]? = some (some link.2)

/-- A link that can be put in is one of an open edge. -/
theorem linked_applyLink {n : Nat} {code code' : Vector (Instr Edge) n} {link : Hole × Nat}
    (h : applyLink code link = .ok code') : Linked code code' [link] := by
  obtain ⟨⟨pc, arm⟩, target⟩ := link
  simp only [applyLink] at h
  split at h
  · next hpc =>
    split at h
    · cases h
    · cases h
    · next hopen =>
      cases h
      constructor
      -- only the address of the link has changed
      · intro pc' hpc'
        by_cases heq : pc = pc'
        · subst heq
          rw [Vector.getElem_set_self]
          exact Instr.fills_setArm hopen target
        · rw [Vector.getElem_set_ne _ _ heq]
          exact Instr.Fills.refl _
      · intro link hlink
        rw [List.mem_singleton.mp hlink]
        refine ⟨hpc, ?_⟩
        rw [Vector.getElem_set_self]
        exact Instr.successors_setArm_self hopen target
  · cases h

theorem Linked.trans {n : Nat} {code code' code'' : Vector (Instr Edge) n}
    {links links' : List (Hole × Nat)} (h : Linked code code' links)
    (h' : Linked code' code'' links') : Linked code code'' (links ++ links') := by
  constructor
  · exact fun pc hpc => (h'.fills pc hpc).trans (h.fills pc hpc)
  · intro link hlink
    rcases List.mem_append.mp hlink with hlink | hlink
    -- a link that was put in earlier is never put in again
    · obtain ⟨hpc, hleads⟩ := h.links link hlink
      exact ⟨hpc, (h'.fills _ hpc).keeps _ _ hleads⟩
    · exact h'.links link hlink

theorem linked_foldlM {n : Nat} {links : List (Hole × Nat)} {code code' : Vector (Instr Edge) n}
    (h : links.foldlM applyLink code = .ok code') : Linked code code' links := by
  induction links generalizing code with
  | nil =>
    cases h
    exact ⟨fun _ _ => Instr.Fills.refl _, by simp⟩
  | cons link rest ih =>
    rw [List.foldlM_cons] at h
    cases hlink : applyLink code link with
    | error flaw =>
      rw [hlink] at h
      cases h
    | ok linked =>
      rw [hlink] at h
      exact (linked_applyLink hlink).trans (ih h)

/-! ## Edges as addresses -/

/-- Two actions one after the other have a result only if each of them has one. -/
theorem exists_ok_of_bind {ε α β : Type} {x : Except ε α} {f : α → Except ε β} {b : β}
    (h : (x >>= f) = .ok b) : ∃ a, x = .ok a ∧ f a = .ok b := by
  cases x with
  | error e => cases h
  | ok a => exact ⟨a, rfl, h⟩

/-- An action on each element of a list has a result only if it has one for each element. -/
theorem forall₂_of_mapM {ε α β : Type} {f : α → Except ε β} {as : List α} {bs : List β}
    (h : as.mapM f = .ok bs) : List.Forall₂ (fun a b => f a = .ok b) as bs := by
  induction as generalizing bs with
  | nil =>
    cases h
    exact .nil
  | cons a as ih =>
    rw [List.mapM_cons] at h
    obtain ⟨b, hb, h⟩ := exists_ok_of_bind h
    obtain ⟨bs', hbs, h⟩ := exists_ok_of_bind h
    cases h
    exact .cons hb (ih hbs)

theorem eq_some_of_resolve {n pc : Nat} {edge : Edge} {t : Fin n}
    (h : resolve n pc edge = .ok t) : edge = some t.val := by
  unfold resolve at h
  split at h
  · cases h
  · split at h
    · cases h
      rfl
    · cases h

/-- An instruction whose edges are all addresses is the same one with its edges as they were. -/
theorem eq_map_of_mapM_resolve {n pc : Nat} {i : Instr Edge} {a : Instr (Fin n)}
    (h : i.mapM (resolve n pc) = .ok a) : i = a.map fun t => some t.val := by
  cases i with
  | fork arms =>
    obtain ⟨arms', harms, h⟩ := exists_ok_of_bind h
    cases h
    have hall := forall₂_of_mapM harms
    show Instr.fork arms = .fork (arms'.map _)
    congr 1
    clear h harms
    induction hall with
    | nil => rfl
    | cons hab _ ih => rw [List.map_cons, ← ih, eq_some_of_resolve hab]
  | save _ edge | assert _ edge | jump edge | consume _ edge =>
    obtain ⟨t, ht, h⟩ := exists_ok_of_bind h
    cases h
    rw [eq_some_of_resolve ht]
    rfl
  | fail | accept =>
    cases h
    rfl

theorem eq_map_of_resolved {n : Nat} {code : Vector (Instr Edge) n}
    {code' : Vector (Instr (Fin n)) n} (h : resolved code = .ok code') (pc : Nat) (hpc : pc < n) :
    code[pc] = code'[pc].map fun t => some t.val := by
  let f : Instr Edge × Nat → Except Flaw (Instr (Fin n)) := fun e => e.1.mapM (resolve n e.2)
  have hlist : code.zipIdx.toArray.toList.mapM f = .ok code'.toArray.toList := by
    rw [← Array.toList_mapM, ← Vector.toArray_mapM]
    have h' : code.zipIdx.mapM f = .ok code' := h
    rw [h']
    rfl
  have hall := forall₂_of_mapM hlist
  have hpc' : pc < code.zipIdx.toArray.toList.length := by simpa using hpc
  have hstep := List.forall₂_iff_get.mp hall |>.2 pc hpc' (by simpa using hpc)
  have heq := eq_map_of_mapM_resolve hstep
  simpa using heq

end Builder

/-! ## Finishing -/

namespace Builder

variable {P : Program} {b : Builder}

/-- The links of a builder are put in oldest first. -/
theorem linked_eq (b : Builder) :
    b.linked = b.links.toList.foldlM applyLink (Vector.mk b.code rfl) :=
  (Array.foldlM_toList ..).symm

/-- A program is finished if it can start, its links can be put in, and all edges are addresses
then. -/
theorem finish_eq_ok_iff : b.finish = .ok P ↔ ∃ (hstart : b.start < b.code.size)
    (code : Vector (Instr Edge) b.code.size) (code' : Vector (Instr (Fin b.code.size)) b.code.size),
    b.linked = .ok code ∧ resolved code = .ok code' ∧
      P = { size := b.code.size, code := code', start := ⟨b.start, hstart⟩ } := by
  unfold finish
  dsimp only
  by_cases hne : b.code.isEmpty = true
  · have hsize : b.code.size = 0 := by simpa using hne
    rw [if_pos hne]
    exact iff_of_false nofun fun ⟨hstart, _⟩ => by omega
  rw [if_neg hne]
  by_cases hstart : b.start < b.code.size
  · rw [dif_pos hstart]
    constructor
    · intro h
      obtain ⟨code, hcode, h⟩ := exists_ok_of_bind h
      obtain ⟨code', hcode', h⟩ := exists_ok_of_bind h
      cases h
      exact ⟨hstart, code, code', hcode, hcode', rfl⟩
    · rintro ⟨-, code, code', hcode, hcode', rfl⟩
      rw [hcode]
      show (resolved code >>= fun code => pure (Program.mk b.code.size code _)) = _
      rw [hcode']
      rfl
  · rw [dif_neg hstart]
    exact iff_of_false nofun fun ⟨h, _⟩ => absurd h hstart

end Builder

namespace Program

variable {P : Program} {b : Builder}

/-- What a finished program has from its builder. -/
structure Finishes (P : Program) (b : Builder) : Prop where
  size : P.size = b.code.size
  start : P.start.val = b.start
  realises : P.Realises b

/-- **Finishing keeps what was built.** -/
theorem finishes_of_finish (h : b.finish = .ok P) : P.Finishes b := by
  obtain ⟨hstart, code, resolved, hcode, hresolved, rfl⟩ := Builder.finish_eq_ok_iff.mp h
  -- first all links are put in, and then every edge has to lead somewhere
  have hlinked : Builder.Linked (Vector.mk b.code rfl) code b.links.toList :=
    Builder.linked_foldlM (b.linked_eq.symm.trans hcode)
  have hedges : ∀ pc (hpc : pc < b.code.size),
      (resolved[pc].map fun t => some t.val) = code[pc] :=
    fun pc hpc => (Builder.eq_map_of_resolved hresolved pc hpc).symm
  refine ⟨rfl, rfl, ⟨?_, ?_⟩⟩
  · intro pc i hi
    obtain ⟨hpc, rfl⟩ := Array.getElem?_eq_some_iff.mp hi
    refine ⟨hpc, ?_⟩
    show (resolved[pc].map fun t => some t.val).Fills b.code[pc]
    rw [hedges pc hpc]
    exact hlinked.fills pc hpc
  · intro link hlink
    obtain ⟨hpc, hleads⟩ := hlinked.links link (Array.mem_toList_iff.mpr hlink)
    refine ⟨hpc, ?_⟩
    show (resolved[link.1.pc].map fun t => some t.val).successors[link.1.arm]? = _
    rw [hedges _ hpc]
    exact hleads

end Program

/-! ## Freezing -/

namespace Builder

variable {P : Program} {b : Builder}

/-- Freezing as it was built is finishing. -/
theorem freezeBinary_eq_ok_iff : b.freezeBinary = .ok P ↔ b.finish = .ok P := by
  unfold freezeBinary
  cases b.finish with
  | ok P' => simp only [Except.mapError, Except.ok.injEq]
  | error flaw => exact iff_of_false nofun nofun

/-- What freezing refuses is malformed. -/
theorem isInternal_of_freezeBinary {e : Error} (h : b.freezeBinary = .error e) :
    e.isInternal = true := by
  unfold freezeBinary at h
  cases hfinish : b.finish with
  | ok P =>
    rw [hfinish] at h
    cases h
  | error flaw =>
    rw [hfinish] at h
    cases h
    rfl

/-- Freezing is finishing and then flattening. -/
theorem freeze_eq_ok_iff : b.freeze = .ok P ↔ ∃ Q, b.finish = .ok Q ∧ P = Q.flatten := by
  simp only [← freezeBinary_eq_ok_iff]
  unfold freeze
  cases b.freezeBinary with
  | ok Q => simp only [Except.map, Except.ok.injEq, exists_eq_left', eq_comm]
  | error e => exact iff_of_false nofun nofun

theorem isInternal_of_freeze {e : Error} (h : b.freeze = .error e) : e.isInternal = true := by
  unfold freeze at h
  cases hbinary : b.freezeBinary with
  | ok Q =>
    rw [hbinary] at h
    cases h
  | error e' =>
    rw [hbinary] at h
    cases h
    exact isInternal_of_freezeBinary hbinary

end Builder

end Lockstep
