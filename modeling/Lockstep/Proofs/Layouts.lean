import Lockstep.Proofs.Shapes
import Mathlib.Data.List.Forall2

/-!
# Where the parts of a shape lie

The instructions of a shape lie in a range of addresses, and those of each part in a range of its
own. Hence two places with one shape, in one program or in two, are copies of each other: their
addresses can be paired so that the instructions of a pair do the same, and lead to pairs again or
out of the shape.

- `Program.Lays`: a program has a shape between two addresses, laid out in a range.
- `Program.Lays.spans`: the shape is there, whatever the layout.
- `Instr.Rel`: two instructions do the same, along edges that correspond.
- `Program.Pairing`: addresses of two ranges are paired.
- `Program.Lays.exists_pairing`: two places with one shape are copies of each other.
- `Program.Lays.exists_inner`: a shape is left only for what is behind it.
-/

namespace Lockstep

/-- A program has a shape between two addresses, and the instructions of the shape have addresses
from `lo` up to `hi`. The parts of a shape share none of them. What never matches has no instruction
of its own, and is entered at the address 0, where the program fails. -/
inductive Program.Lays (P : Program) :
    Shape → (lo hi : Nat) → Fin P.size → Fin P.size → Prop where
  | never {c : Shape} {lo hi : Nat} {s t : Fin P.size} (hc : c.isNever = true)
    (hs : P.instr s = .fail) (hzero : (s : Nat) = 0) : Lays P c lo hi s t
  | skip {lo hi : Nat} {s t : Fin P.size} (hin : lo ≤ s ∧ s < hi)
    (hs : P.instr s = .jump t) : Lays P .skip lo hi s t
  | read {cls : SymbolClass} {lo hi : Nat} {s t : Fin P.size} (hin : lo ≤ s ∧ s < hi)
    (hs : P.instr s = .consume cls t) : Lays P (.read cls) lo hi s t
  | check {cond : Conditions} {lo hi : Nat} {s t : Fin P.size} (hin : lo ≤ s ∧ s < hi)
    (hs : P.instr s = .assert cond t) : Lays P (.check cond) lo hi s t
  | save {slot lo hi : Nat} {s t : Fin P.size} (hin : lo ≤ s ∧ s < hi)
    (hs : P.instr s = .save slot t) : Lays P (.save slot) lo hi s t
  | seq {c d : Shape} {lo hi lo₁ hi₁ lo₂ hi₂ : Nat} {s m t : Fin P.size}
    (hlive : (Shape.seq c d).isNever = false) (hc : Lays P c lo₁ hi₁ s m)
    (hd : Lays P d lo₂ hi₂ m t) (hapart : hi₁ ≤ lo₂ ∨ hi₂ ≤ lo₁) (hlo : lo ≤ lo₁ ∧ lo ≤ lo₂)
    (hhi : hi₁ ≤ hi ∧ hi₂ ≤ hi) : Lays P (.seq c d) lo hi s t
  | choice {c d : Shape} {lo hi mid top : Nat} {s x y t : Fin P.size} (hc' : c.isNever = false)
    (hd' : d.isNever = false) (hc : Lays P c lo mid x t) (hd : Lays P d mid top y t)
    (hin : top ≤ s ∧ s < hi) (hs : P.instr s = .fork [x, y]) (hrange : lo ≤ mid ∧ mid ≤ top) :
    Lays P (.choice c d) lo hi s t
  | first {c d : Shape} {lo hi : Nat} {s t : Fin P.size} (hc' : c.isNever = false)
    (hd' : d.isNever = true) (hc : Lays P c lo hi s t) : Lays P (.choice c d) lo hi s t
  | second {c d : Shape} {lo hi : Nat} {s t : Fin P.size} (hc' : c.isNever = true)
    (hd' : d.isNever = false) (hd : Lays P d lo hi s t) : Lays P (.choice c d) lo hi s t
  | star {c : Shape} {greedy : Bool} {lo hi top : Nat} {s x t : Fin P.size}
    (hc : Lays P c lo top x s) (hrange : lo ≤ top) (hin : top ≤ s ∧ s < hi)
    (hs : P.instr s = .fork (Shape.arms greedy x t)) : Lays P (.star greedy c) lo hi s t
  | plus {c : Shape} {greedy : Bool} {lo hi top : Nat} {s l t : Fin P.size}
    (hlive : c.isNever = false) (hc : Lays P c lo top s l) (hrange : lo ≤ top)
    (hin : top ≤ l ∧ l < hi) (hl : P.instr l = .fork (Shape.arms greedy s t)) :
    Lays P (.plus greedy c) lo hi s t
  | optional {c : Shape} {greedy : Bool} {lo hi top : Nat} {s x t : Fin P.size}
    (hc : Lays P c lo top x t) (hrange : lo ≤ top) (hin : top ≤ s ∧ s < hi)
    (hs : P.instr s = .fork (Shape.arms greedy x t)) : Lays P (.optional greedy c) lo hi s t

namespace Program

variable {P P' : Program} {c : Shape} {lo hi lo' hi' : Nat} {s t : Fin P.size}

/-- What is laid out in some range is there. -/
theorem Lays.spans (h : P.Lays c lo hi s t) : P.Spans c s t := by
  induction h with
  | never hc hs => exact .never hc hs
  | skip _ hs => exact .skip hs
  | read _ hs => exact .read hs
  | check _ hs => exact .check hs
  | save _ hs => exact .save hs
  | seq _ _ _ _ _ _ hc hd => exact .seq hc hd
  | choice _ _ _ _ _ hs _ hc hd => exact .choice hs hc hd
  | first _ hd' _ hc => exact .first hc hd'
  | second hc' _ _ hd => exact .second hc' hd
  | star _ _ _ hs hc => exact .star hs hc
  | plus _ _ _ _ hl hc => exact .plus hc hl
  | optional _ _ _ hs hc => exact .optional hs hc

/-- What never matches is entered where the program fails. -/
theorem Lays.of_isNever (h : P.Lays c lo hi s t) (hc : c.isNever = true) :
    P.instr s = .fail ∧ (s : Nat) = 0 := by
  cases h with
  | never _ hs hzero => exact ⟨hs, hzero⟩
  | skip | read | check | save | star | optional => cases hc
  | seq hlive | plus hlive => exact absurd hc (Bool.eq_false_iff.mp hlive)
  | choice hc' | first hc' => simp [Shape.isNever, hc'] at hc
  | second _ hd' => simp [Shape.isNever, hd'] at hc

/-- What is laid out in a range is laid out in a wider one. -/
theorem Lays.mono (h : P.Lays c lo hi s t) (hlo : lo' ≤ lo) (hhi : hi ≤ hi') :
    P.Lays c lo' hi' s t := by
  induction h generalizing lo' hi' with
  | never hc hs hzero => exact .never hc hs hzero
  | skip hin hs => exact .skip (by omega) hs
  | read hin hs => exact .read (by omega) hs
  | check hin hs => exact .check (by omega) hs
  | save hin hs => exact .save (by omega) hs
  | seq hlive hc hd hapart hlo₁ hhi₁ =>
    exact .seq hlive hc hd hapart (by omega) (by omega)
  | choice hc' hd' _ hd hin hs hrange ihc =>
    exact .choice hc' hd' (ihc hlo (Nat.le_refl _)) hd (by omega) hs (by omega)
  | first hc' hd' _ ih => exact .first hc' hd' (ih hlo hhi)
  | second hc' hd' _ ih => exact .second hc' hd' (ih hlo hhi)
  | star _ hrange hin hs ih =>
    exact .star (ih hlo (Nat.le_refl _)) (by omega) (by omega) hs
  | plus hlive _ hrange hin hl ih =>
    exact .plus hlive (ih hlo (Nat.le_refl _)) (by omega) (by omega) hl
  | optional _ hrange hin hs ih =>
    exact .optional (ih hlo (Nat.le_refl _)) (by omega) (by omega) hs

end Program

/-! ## Instructions that do the same -/

/-- Two instructions do the same, and their edges correspond one by one. A match does not end at
either of them. -/
inductive Instr.Rel {ε δ : Type} (S : ε → δ → Prop) : Instr ε → Instr δ → Prop where
  | fork {arms : List ε} {arms' : List δ} (h : List.Forall₂ S arms arms') :
    Rel S (.fork arms) (.fork arms')
  | save (slot : Nat) {next : ε} {next' : δ} (h : S next next') :
    Rel S (.save slot next) (.save slot next')
  | assert (cond : Conditions) {next : ε} {next' : δ} (h : S next next') :
    Rel S (.assert cond next) (.assert cond next')
  | jump {next : ε} {next' : δ} (h : S next next') : Rel S (.jump next) (.jump next')
  | fail : Rel S .fail .fail
  | consume (cls : SymbolClass) {next : ε} {next' : δ} (h : S next next') :
    Rel S (.consume cls next) (.consume cls next')

theorem Instr.Rel.mono {ε δ : Type} {S T : ε → δ → Prop} {i : Instr ε} {i' : Instr δ}
    (h : i.Rel S i') (hST : ∀ x x', S x x' → T x x') : i.Rel T i' := by
  cases h with
  | fork h => exact .fork (h.imp hST)
  | save slot h => exact .save slot (hST _ _ h)
  | assert cond h => exact .assert cond (hST _ _ h)
  | jump h => exact .jump (hST _ _ h)
  | fail => exact .fail
  | consume cls h => exact .consume cls (hST _ _ h)

theorem Instr.Rel.ne_accept {ε δ : Type} {S : ε → δ → Prop} {i : Instr ε} {i' : Instr δ}
    (h : i.Rel S i') : i ≠ .accept ∧ i' ≠ .accept := by
  cases h <;> exact ⟨nofun, nofun⟩

/-- The edges of instructions that do the same correspond. -/
theorem Instr.Rel.successors {ε δ : Type} {S : ε → δ → Prop} {i : Instr ε} {i' : Instr δ}
    (h : i.Rel S i') : List.Forall₂ S i.successors i'.successors := by
  cases h with
  | fork h => exact h
  | save _ h | assert _ h | jump h | consume _ h => exact .cons h .nil
  | fail => exact .nil

/-- Forks of two repetitions do the same if their bodies and what is behind them correspond. -/
theorem Shape.rel_arms {ε δ : Type} {S : ε → δ → Prop} {x t : ε} {x' t' : δ} (greedy : Bool)
    (hx : S x x') (ht : S t t') :
    (Instr.fork (arms greedy x t)).Rel S (.fork (arms greedy x' t')) := by
  cases greedy with
  | true => exact .fork (.cons hx (.cons ht .nil))
  | false => exact .fork (.cons ht (.cons hx .nil))

/-! ## Pairs of addresses -/

namespace Program

variable {P P' : Program} {c : Shape} {lo hi lo' hi' : Nat} {s t : Fin P.size} {s' t' : Fin P'.size}
  {R S : Fin P.size → Fin P'.size → Prop}

/-- Addresses of one range are paired with addresses of another one, each with at most one; the
address 0 may be paired with itself. The instructions of a pair do the same, along edges that
correspond. -/
structure Pairing (R S : Fin P.size → Fin P'.size → Prop) (lo hi lo' hi' : Nat) : Prop where
  within : ∀ x x', R x x' → ((x : Nat) = 0 ∧ (x' : Nat) = 0) ∨
    (lo ≤ x ∧ x < hi ∧ lo' ≤ x' ∧ x' < hi')
  unique : ∀ x x' y y', R x x' → R y y' → (x = y ↔ x' = y')
  instr : ∀ x x', R x x' → (P.instr x).Rel S (P'.instr x')

theorem Pairing.imp {S' : Fin P.size → Fin P'.size → Prop} (h : Pairing R S lo hi lo' hi')
    (hS : ∀ x x', S x x' → S' x x') : Pairing R S' lo hi lo' hi' where
  within := h.within
  unique := h.unique
  instr x x' hx := (h.instr x x' hx).mono hS

/-- A single pair. -/
theorem pairing_single (hrel : (P.instr s).Rel S (P'.instr s'))
    (hwithin : ((s : Nat) = 0 ∧ (s' : Nat) = 0) ∨ (lo ≤ s ∧ s < hi ∧ lo' ≤ s' ∧ s' < hi')) :
    Pairing (fun x x' => x = s ∧ x' = s') S lo hi lo' hi' where
  within := by
    rintro x x' ⟨rfl, rfl⟩
    exact hwithin
  unique := by
    rintro x x' y y' ⟨rfl, rfl⟩ ⟨rfl, rfl⟩
    exact iff_of_true rfl rfl
  instr := by
    rintro x x' ⟨rfl, rfl⟩
    exact hrel

/-- Pairs of ranges that lie apart go together. -/
theorem Pairing.union {R' : Fin P.size → Fin P'.size → Prop}
    {lo₁ hi₁ lo₁' hi₁' lo₂ hi₂ lo₂' hi₂' : Nat} (h : Pairing R S lo₁ hi₁ lo₁' hi₁')
    (h' : Pairing R' S lo₂ hi₂ lo₂' hi₂')
    (hpos : 0 < lo₁ ∧ 0 < lo₂ ∧ 0 < lo₁' ∧ 0 < lo₂') (hapart : hi₁ ≤ lo₂ ∨ hi₂ ≤ lo₁)
    (hapart' : hi₁' ≤ lo₂' ∨ hi₂' ≤ lo₁') (hlo : lo ≤ lo₁ ∧ lo ≤ lo₂) (hhi : hi₁ ≤ hi ∧ hi₂ ≤ hi)
    (hlo' : lo' ≤ lo₁' ∧ lo' ≤ lo₂') (hhi' : hi₁' ≤ hi' ∧ hi₂' ≤ hi') :
    Pairing (fun x x' => R x x' ∨ R' x x') S lo hi lo' hi' where
  within := by
    rintro x x' (hx | hx)
    · have := h.within x x' hx
      omega
    · have := h'.within x x' hx
      omega
  unique := by
    have hcross : ∀ x x' y y', R x x' → R' y y' → (x = y ↔ x' = y') := by
      intro x x' y y' hx hy
      have hx := h.within x x' hx
      have hy := h'.within y y' hy
      rw [Fin.ext_iff, Fin.ext_iff]
      omega
    rintro x x' y y' (hx | hx) (hy | hy)
    · exact h.unique x x' y y' hx hy
    · exact hcross x x' y y' hx hy
    · rw [eq_comm, hcross y y' x x' hy hx, eq_comm]
    · exact h'.unique x x' y y' hx hy
  instr := by
    rintro x x' (hx | hx)
    · exact h.instr x x' hx
    · exact h'.instr x x' hx

/-- Pairs of ranges that lie side by side. -/
theorem Pairing.beside {R' : Fin P.size → Fin P'.size → Prop} {mid mid' : Nat}
    (h : Pairing R S lo mid lo' mid') (h' : Pairing R' S mid hi mid' hi')
    (hrange : 0 < lo ∧ lo ≤ mid ∧ mid ≤ hi) (hrange' : 0 < lo' ∧ lo' ≤ mid' ∧ mid' ≤ hi') :
    Pairing (fun x x' => R x x' ∨ R' x x') S lo hi lo' hi' :=
  h.union h' (by omega) (.inl (Nat.le_refl _)) (.inl (Nat.le_refl _)) (by omega) (by omega)
    (by omega) (by omega)

/-- One more pair, above the others. -/
theorem Pairing.insert {top top' : Nat} (h : Pairing R S lo top lo' top')
    (hrel : (P.instr s).Rel S (P'.instr s')) (hs : top ≤ s ∧ s < hi) (hs' : top' ≤ s' ∧ s' < hi')
    (hrange : 0 < lo ∧ lo ≤ top) (hrange' : 0 < lo' ∧ lo' ≤ top') :
    Pairing (fun x x' => R x x' ∨ x = s ∧ x' = s') S lo hi lo' hi' :=
  h.beside (pairing_single hrel (.inr ⟨hs.1, hs.2, hs'⟩)) (by omega) (by omega)

/-! ## Copies of a shape -/

/-- Two single instructions that do the same. -/
theorem exists_pairing_single {i : Instr (Fin P.size)} {i' : Instr (Fin P'.size)}
    (hs : P.instr s = i) (hs' : P'.instr s' = i') (hrel : i.Rel (fun x x' => x = t ∧ x' = t') i')
    (hin : lo ≤ s ∧ s < hi) (hin' : lo' ≤ s' ∧ s' < hi') :
    ∃ R : Fin P.size → Fin P'.size → Prop, R s s' ∧
      Pairing R (fun x x' => R x x' ∨ x = t ∧ x' = t') lo hi lo' hi' := by
  subst hs hs'
  exact ⟨_, ⟨rfl, rfl⟩, pairing_single (hrel.mono fun _ _ => .inr) (.inr ⟨hin.1, hin.2, hin'⟩)⟩

/-- **Two places with one shape are copies of each other**: their addresses can be paired, so that
the instructions of a pair do the same, and lead to pairs again or behind the shape. -/
theorem Lays.exists_pairing (h : P.Lays c lo hi s t) (h' : P'.Lays c lo' hi' s' t') (hlo : 0 < lo)
    (hlo' : 0 < lo') : ∃ R : Fin P.size → Fin P'.size → Prop, R s s' ∧
      Pairing R (fun x x' => R x x' ∨ x = t ∧ x' = t') lo hi lo' hi' := by
  induction h generalizing lo' hi' s' t' with
  | never hc hs hzero =>
    have hs' : P'.instr s' = .fail ∧ (s' : Nat) = 0 := h'.of_isNever hc
    refine ⟨_, ⟨rfl, rfl⟩, pairing_single ?_ (.inl ⟨hzero, hs'.2⟩)⟩
    rw [hs, hs'.1]
    exact .fail
  | skip hin hs =>
    cases h' with
    | never hnever => cases hnever
    | skip hin' hs' => exact exists_pairing_single hs hs' (.jump ⟨rfl, rfl⟩) hin hin'
  | read hin hs =>
    cases h' with
    | never hnever => cases hnever
    | read hin' hs' => exact exists_pairing_single hs hs' (.consume _ ⟨rfl, rfl⟩) hin hin'
  | check hin hs =>
    cases h' with
    | never hnever => cases hnever
    | check hin' hs' => exact exists_pairing_single hs hs' (.assert _ ⟨rfl, rfl⟩) hin hin'
  | save hin hs =>
    cases h' with
    | never hnever => cases hnever
    | save hin' hs' => exact exists_pairing_single hs hs' (.save _ ⟨rfl, rfl⟩) hin hin'
  | seq hlive _ _ hapart hlo₁ hhi₁ ihc ihd =>
    cases h' with
    | never hnever => exact absurd hnever (Bool.eq_false_iff.mp hlive)
    | seq _ hc' hd' hapart' hlo₁' hhi₁' =>
      obtain ⟨R, hs, hR⟩ := ihc hc' (by omega) (by omega)
      obtain ⟨R', hm, hR'⟩ := ihd hd' (by omega) (by omega)
      refine ⟨_, .inl hs, (hR.imp ?_).union (hR'.imp ?_) (by omega) hapart hapart' hlo₁ hhi₁ hlo₁'
        hhi₁'⟩
      -- behind the first part stands the entry of the second one
      · rintro x x' (hx | ⟨rfl, rfl⟩)
        · exact .inl (.inl hx)
        · exact .inl (.inr hm)
      · exact fun x x' hx => hx.imp_left .inr
  | choice hc hd _ _ hin hs hrange ihc ihd =>
    cases h' with
    | never hnever => simp [Shape.isNever, hc] at hnever
    | choice _ _ hc' hd' hin' hs' hrange' =>
      obtain ⟨R, hx, hR⟩ := ihc hc' (by omega) (by omega)
      obtain ⟨R', hy, hR'⟩ := ihd hd' (by omega) (by omega)
      refine ⟨_, .inr ⟨rfl, rfl⟩, ((hR.imp ?_).beside (hR'.imp ?_) (by omega) (by omega)).insert ?_
        hin hin' (by omega) (by omega)⟩
      · exact fun x x' hx => hx.imp_left fun hx => .inl (.inl hx)
      · exact fun x x' hx => hx.imp_left fun hx => .inl (.inr hx)
      · rw [hs, hs']
        exact .fork (.cons (.inl (.inl (.inl hx))) (.cons (.inl (.inl (.inr hy))) .nil))
    | first _ hd' => exact absurd hd' (Bool.eq_false_iff.mp hd)
    | second hc' => exact absurd hc' (Bool.eq_false_iff.mp hc)
  | first hc hd _ ih =>
    cases h' with
    | never hnever => simp [Shape.isNever, hc] at hnever
    | choice _ hd' => exact absurd hd (Bool.eq_false_iff.mp hd')
    | first _ _ hc' => exact ih hc' hlo hlo'
    | second hc' => exact absurd hc' (Bool.eq_false_iff.mp hc)
  | second hc hd _ ih =>
    cases h' with
    | never hnever => simp [Shape.isNever, hd] at hnever
    | choice hc' => exact absurd hc (Bool.eq_false_iff.mp hc')
    | first hc' => exact absurd hc (Bool.eq_false_iff.mp hc')
    | second _ _ hd' => exact ih hd' hlo hlo'
  | star _ hrange hin hs ih =>
    cases h' with
    | never hnever => cases hnever
    | star hc' hrange' hin' hs' =>
      obtain ⟨R, hx, hR⟩ := ih hc' hlo hlo'
      refine ⟨_, .inr ⟨rfl, rfl⟩, (hR.imp fun _ _ => .inl).insert ?_ hin hin'
        (by omega) (by omega)⟩
      rw [hs, hs']
      exact Shape.rel_arms _ (.inl (.inl hx)) (.inr ⟨rfl, rfl⟩)
  | plus hlive _ hrange hin hl ih =>
    cases h' with
    | never hnever => exact absurd hnever (Bool.eq_false_iff.mp hlive)
    | plus _ hc' hrange' hin' hl' =>
      obtain ⟨R, hx, hR⟩ := ih hc' hlo hlo'
      refine ⟨_, .inl hx, (hR.imp fun _ _ => .inl).insert ?_ hin hin'
        (by omega) (by omega)⟩
      rw [hl, hl']
      exact Shape.rel_arms _ (.inl (.inl hx)) (.inr ⟨rfl, rfl⟩)
  | optional _ hrange hin hs ih =>
    cases h' with
    | never hnever => cases hnever
    | optional hc' hrange' hin' hs' =>
      obtain ⟨R, hx, hR⟩ := ih hc' hlo hlo'
      refine ⟨_, .inr ⟨rfl, rfl⟩, (hR.imp ?_).insert ?_ hin hin'
        (by omega) (by omega)⟩
      · exact fun x x' hx => hx.imp_left .inl
      · rw [hs, hs']
        exact Shape.rel_arms _ (.inl (.inl hx)) (.inr ⟨rfl, rfl⟩)

/-! ## The inner addresses of a shape -/

/-- A set of addresses of a range, possibly with the address 0, that is only left for another
address. A match ends at none of them. -/
structure Inner (P : Program) (C : Fin P.size → Prop) (lo hi : Nat) (t : Fin P.size) : Prop where
  range : ∀ x, C x → (x : Nat) = 0 ∨ lo ≤ x ∧ x < hi
  running : ∀ x, C x → P.instr x ≠ .accept
  closed : ∀ x, C x → ∀ y ∈ (P.instr x).successors, C y ∨ y = t

/-- A shape is left only for what is behind it. -/
theorem Lays.exists_inner (h : P.Lays c lo hi s t) (hlo : 0 < lo) :
    ∃ C : Fin P.size → Prop, C s ∧ P.Inner C lo hi t := by
  obtain ⟨R, hs, hR⟩ := h.exists_pairing h hlo hlo
  refine ⟨fun x => ∃ x', R x x', ⟨s, hs⟩, ?_, ?_, ?_⟩
  · rintro x ⟨x', hx⟩
    have hwithin := hR.within x x' hx
    omega
  · rintro x ⟨x', hx⟩
    exact (hR.instr x x' hx).ne_accept.1
  · rintro x ⟨x', hx⟩
    have hsuccessors := (hR.instr x x' hx).successors
    refine ((List.forall₂_and_left (R := fun _ _ => True) _ _).mp
      (hsuccessors.imp fun y y' hy => ?_)).1
    exact ⟨hy.imp (fun h => ⟨y', h⟩) And.left, trivial⟩

end Program

end Lockstep
