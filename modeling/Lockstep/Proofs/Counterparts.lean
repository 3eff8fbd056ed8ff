import Lockstep.Proofs.Agreement

/-!
# Searches that find the same

A depth-first search asks of a text which symbols it reads and which conditions hold in between. So
it goes the same way through two texts whose offsets correspond, and what it finds corresponds.

- `Task.Counterparts`: two tasks whose offsets and slots correspond.
- `Task.Counterparts.explored`: the same ways lead to the ends of matches.
- `Task.Counterparts.reference`: what is found corresponds.
- `Slots.Correspond`, `Task.counterparts_width`: two searches that keep a different number of slots.
-/

namespace Lockstep

/-! ## Texts whose offsets correspond -/

/-- Offsets of two tasks correspond by `R`: the same is read there, and the same conditions hold.
Slots correspond by `S`, and go on to do so when offsets that correspond are written. -/
structure Task.Counterparts (task task' : Task)
    (R : task.text.Offset → task'.text.Offset → Prop) (S : Slots → Slots → Prop) : Prop where
  kind : task.kind = task'.kind
  anchor : task.anchor = task'.anchor
  lt_iff : ∀ i i' j j', R i i' → R j j' → (i < j ↔ i' < j')
  zero_iff : ∀ i i', R i i' → ((i : Nat) = 0 ↔ (i' : Nat) = 0)
  context_eq : ∀ i i', R i i' → task.text.context i = task'.text.context i'
  read : ∀ i i', R i i' → Option.Rel (fun x x' => x.1 = x'.1 ∧ R x.2 x'.2)
    (task.text.read? i) (task'.text.read? i')
  startAt : ∀ i i', R i i' → S (Slots.startAt task.width i) (Slots.startAt task'.width i')
  set : ∀ i i' slots slots', R i i' → S slots slots' → ∀ slot,
    S (slots.setIfInBounds slot (some (i : Nat))) (slots'.setIfInBounds slot (some (i' : Nat)))

namespace Task.Counterparts

variable {P : Program} {task task' : Task} {R : task.text.Offset → task'.text.Offset → Prop}
  {S : Slots → Slots → Prop} (h : task.Counterparts task' R S)
  {i j : task.text.Offset} {i' j' : task'.text.Offset}
include h

theorem eq_iff (hi : R i i') (hj : R j j') : i = j ↔ i' = j' := by
  have hlt := h.lt_iff i i' j j' hi hj
  have hgt := h.lt_iff j j' i i' hj hi
  rw [le_antisymm_iff, le_antisymm_iff, ← not_lt, ← not_lt, ← not_lt, ← not_lt, hlt, hgt]

theorem mayStart_eq (hi : R i i') : task.mayStart i = task'.mayStart i' := by
  rw [mayStart, mayStart, h.anchor, decide_eq_decide.mpr (h.zero_iff i i' hi)]

theorem read?_eq_none_iff (hi : R i i') :
    task.text.read? i = none ↔ task'.text.read? i' = none := by
  have hread := h.read i i' hi
  generalize task.text.read? i = found, task'.text.read? i' = found' at hread
  cases hread <;> simp

theorem mayEnd_eq (hi : R i i') : task.mayEnd i = task'.mayEnd i' := by
  have hend : (i : Nat) = task.text.endPos ↔ (i' : Nat) = task'.text.endPos := by
    rw [← Text.read?_eq_none_iff, ← Text.read?_eq_none_iff, h.read?_eq_none_iff hi]
  rw [mayEnd, mayEnd, h.anchor, decide_eq_decide.mpr hend]

/-! ### Ways -/

/-- The same edges are followed, and lead to offsets that correspond. -/
theorem forall₂_next (pc : Fin P.size) (hi : R i i') :
    List.Forall₂ (fun v v' => v.1 = v'.1 ∧ R v.2 v'.2) ((P.walk task.text).next (pc, i))
      ((P.walk task'.text).next (pc, i')) := by
  by_cases hpc : ∃ cls next, P.instr pc = .consume cls next
  · obtain ⟨cls, next, hpc⟩ := hpc
    rw [Program.next_walk_of_consume hpc, Program.next_walk_of_consume hpc]
    have hread := h.read i i' hi
    generalize task.text.read? i = found, task'.text.read? i' = found' at hread
    cases hread with
    | none => exact .nil
    | @some x x' hx =>
      obtain ⟨r, j⟩ := x
      obtain ⟨r', j'⟩ := x'
      obtain ⟨rfl, hj⟩ : r = r' ∧ R j j' := hx
      dsimp only
      split
      · exact .cons ⟨rfl, hj⟩ .nil
      · exact .nil
  · have hpass : ∀ cls next, P.instr pc ≠ .consume cls next :=
      fun cls next heq => hpc ⟨cls, next, heq⟩
    have hnext : (P.passingAt task.text i).next pc = (P.passingAt task'.text i').next pc := by
      unfold Program.passingAt
      rw [h.context_eq i i' hi]
      rfl
    rw [Program.next_walk_of_passing hpass, Program.next_walk_of_passing hpass, hnext]
    refine List.rel_map (R := Eq) ?_ (List.forall₂_refl _)
    rintro pc₁ _ rfl
    exact ⟨rfl, hi⟩

/-- What becomes of the slots corresponds. -/
theorem carry (pc : Fin P.size) (hi : R i i') {slots slots' : Slots} (hslots : S slots slots') :
    S ((P.walk task.text).carry (pc, i) slots) ((P.walk task'.text).carry (pc, i') slots') := by
  cases hpc : P.instr pc with
  | save slot next =>
    simp only [Program.walk, hpc]
    exact h.set i i' slots slots' hi hslots slot
  | fork | assert | jump | fail | accept | consume =>
    simp only [Program.walk, hpc]
    exact hslots

/-- The same nodes are entered, one after the other. -/
theorem forall₂_arrivals (hi : R i i') :
    List.Forall₂ (fun e e' => (e.1.1 = e'.1.1 ∧ R e.1.2 e'.1.2) ∧ S e.2 e'.2)
      ((P.walk task.text).arrivals ∅ [((P.start, i), Slots.startAt task.width i)])
      ((P.walk task'.text).arrivals ∅ [((P.start, i'), Slots.startAt task'.width i')]) := by
  refine Graph.forall₂_arrivals (R := fun (v : Fin P.size × task.text.Offset)
    (v' : Fin P.size × task'.text.Offset) => v.1 = v'.1 ∧ R v.2 v'.2) ?_ ?_ ?_ (by simp) ?_
  · rintro ⟨pc, k⟩ ⟨_, k'⟩ ⟨pc₁, k₁⟩ ⟨_, k₁'⟩ ⟨rfl, hk⟩ ⟨rfl, hk₁⟩
    rw [Prod.mk.injEq, Prod.mk.injEq, h.eq_iff hk hk₁]
  · rintro ⟨pc, k⟩ ⟨_, k'⟩ ⟨rfl, hk⟩
    exact h.forall₂_next pc hk
  · rintro ⟨pc, k⟩ ⟨_, k'⟩ slots slots' ⟨rfl, hk⟩ hslots
    exact h.carry pc hk hslots
  · exact .cons ⟨⟨rfl, hi⟩, h.startAt i i' hi⟩ .nil

/-- **The same ways lead to the ends of matches.** -/
theorem explored (hi : R i i') : List.Forall₂ (fun m m' => R m.1 m'.1 ∧ S m.2 m'.2)
    (P.explored task i) (P.explored task' i') := by
  refine List.rel_filterMap ?_ (h.forall₂_arrivals hi)
  rintro ⟨⟨pc, k⟩, slots⟩ ⟨⟨pc', k'⟩, slots'⟩ ⟨⟨rfl, hk⟩, hslots⟩
  have hends : P.ends task (pc, k) = P.ends task' (pc, k') := by
    rw [Program.ends, Program.ends, h.mayEnd_eq hk]
  dsimp only
  rw [hends]
  split
  · exact .some ⟨hk, h.set k k' slots slots' hk hslots 1⟩
  · exact .none

/-! ### What is found -/

theorem argmax {found : List (task.text.Offset × Slots)} {found' : List (task'.text.Offset × Slots)}
    (hfound : List.Forall₂ (fun m m' => R m.1 m'.1 ∧ S m.2 m'.2) found found') :
    Option.Rel (fun m m' => R m.1 m'.1 ∧ S m.2 m'.2)
      (found.argmax (·.1)) (found'.argmax (·.1)) := by
  induction hfound with
  | nil => exact .none
  | @cons m m' rest rest' hm _ ih =>
    rw [List.argmax_cons, List.argmax_cons]
    generalize rest.argmax (·.1) = best, rest'.argmax (·.1) = best' at ih
    cases ih with
    | none => exact .some hm
    | @some b b' hb =>
      have hlt := h.lt_iff m.1 m'.1 b.1 b'.1 hm.1 hb.1
      dsimp only
      by_cases hmb : m.1 < b.1
      · rw [if_pos hmb, if_pos (hlt.mp hmb)]
        exact .some hb
      · rw [if_neg hmb, if_neg fun hmb' => hmb (hlt.mpr hmb')]
        exact .some hm

/-- The match that is wanted is the same. -/
theorem choose {found : List (task.text.Offset × Slots)} {found' : List (task'.text.Offset × Slots)}
    (hfound : List.Forall₂ (fun m m' => R m.1 m'.1 ∧ S m.2 m'.2) found found') :
    Option.Rel S (task.choose found) (task'.choose found') := by
  have hmap : ∀ (best : Option (task.text.Offset × Slots))
      (best' : Option (task'.text.Offset × Slots)),
      Option.Rel (fun m m' => R m.1 m'.1 ∧ S m.2 m'.2) best best' →
        Option.Rel S (best.map (·.2)) (best'.map (·.2)) := by
    intro best best' hbest
    cases hbest with
    | none => exact .none
    | some hm => exact .some hm.2
  unfold Task.choose
  rw [← h.kind]
  cases task.kind with
  | leftmostFirst =>
    refine hmap _ _ ?_
    cases hfound with
    | nil => exact .none
    | cons hm => exact .some hm
  | leftmostLongest => exact hmap _ _ (h.argmax hfound)

theorem offsetsFrom (hi : R i i') :
    List.Forall₂ R (task.text.offsetsFrom i) (task'.text.offsetsFrom i') := by
  induction i using Text.offset_induction generalizing i' with
  | step i ih =>
    have hrel := h.read i i' hi
    cases hread : task.text.read? i with
    | none =>
      rw [Text.offsetsFrom_of_end hread,
        Text.offsetsFrom_of_end ((h.read?_eq_none_iff hi).mp hread)]
      exact .cons hi .nil
    | some found =>
      cases hread' : task'.text.read? i' with
      | none =>
        rw [(h.read?_eq_none_iff hi).mpr hread'] at hread
        cases hread
      | some found' =>
        obtain ⟨r, j⟩ := found
        obtain ⟨r', j'⟩ := found'
        rw [hread, hread'] at hrel
        cases hrel with
        | some hj =>
          rw [Text.offsetsFrom_of_read hread, Text.offsetsFrom_of_read hread']
          exact .cons hi (ih j (Text.lt_of_read? hread) hj.2)

/-- Matches may start at offsets that correspond. -/
theorem starts (hi : R i i') : List.Forall₂ R (task.starts i) (task'.starts i') :=
  List.rel_filter (fun _ _ hk => iff_of_eq (congrArg (· = true) (h.mayStart_eq hk)))
    (h.offsetsFrom hi)

/-- **What is found corresponds.** -/
theorem reference (hi : R i i') : Option.Rel S (P.reference task i) (P.reference task' i') := by
  rw [Program.reference_eq_findSome?, Program.reference_eq_findSome?]
  have hstarts := h.starts hi
  generalize task.starts i = ks, task'.starts i' = ks' at hstarts
  induction hstarts with
  | nil => exact .none
  | @cons k k' ks ks' hk _ ih =>
    rw [List.findSome?_cons, List.findSome?_cons]
    have hchoose := h.choose (h.explored (P := P) hk)
    generalize task.choose (P.explored task k) = wanted,
      task'.choose (P.explored task' k') = wanted' at hchoose
    cases hchoose with
    | none => exact ih
    | some hslots => exact .some hslots

end Task.Counterparts

/-! ## Slots that correspond -/

/-- The first `count` slots correspond: both are there or neither is, and what was written to them
corresponds by `T`. -/
def Slots.Correspond (count : Nat) (T : Nat → Nat → Prop) (slots slots' : Slots) : Prop :=
  ∀ slot < count, Option.Rel (Option.Rel T) slots[slot]? slots'[slot]?

namespace Slots.Correspond

variable {count : Nat} {T : Nat → Nat → Prop} {slots slots' : Slots}

theorem set (h : Correspond count T slots slots') (slot : Nat) {value value' : Option Nat}
    (hvalue : Option.Rel T value value') :
    Correspond count T (slots.setIfInBounds slot value) (slots'.setIfInBounds slot value') := by
  intro k hk
  by_cases hslot : slot = k
  · subst hslot
    have hold := h slot hk
    rw [getElem?_setIfInBounds, getElem?_setIfInBounds]
    generalize slots[slot]? = old, slots'[slot]? = old' at hold
    cases hold with
    | none => exact .none
    | some => exact .some hvalue
  · rw [Array.getElem?_setIfInBounds_ne hslot, Array.getElem?_setIfInBounds_ne hslot]
    exact h k hk

theorem unset {width width' : Nat} (h : count ≤ width) (h' : count ≤ width') :
    Correspond count T (Slots.unset width) (Slots.unset width') := by
  intro k hk
  rw [Slots.unset, Slots.unset, Array.getElem?_replicate, Array.getElem?_replicate,
    if_pos (by omega), if_pos (by omega)]
  exact .some .none

theorem startAt {width width' pos pos' : Nat} (h : count ≤ width) (h' : count ≤ width')
    (hpos : T pos pos') :
    Correspond count T (Slots.startAt width pos) (Slots.startAt width' pos') :=
  set (unset h h') 0 (.some hpos)

theorem join (h : Correspond count T slots slots') {slot : Nat} (hslot : slot < count) :
    Option.Rel T slots[slot]?.join slots'[slot]?.join := by
  have hrel := h slot hslot
  generalize slots[slot]? = value, slots'[slot]? = value' at hrel
  cases hrel with
  | none => exact .none
  | some hvalue => exact hvalue

/-- Where two matches start and end corresponds. -/
theorem start?_stop? (h : Correspond 2 T slots slots') :
    Option.Rel T slots.start? slots'.start? ∧ Option.Rel T slots.stop? slots'.stop? :=
  ⟨h.join (by omega), h.join (by omega)⟩

end Slots.Correspond

/-- **How many slots are kept** makes no difference to those that are. -/
theorem Task.counterparts_width (task : Task) {width count : Nat} (h : count ≤ task.width)
    (h' : count ≤ width) :
    task.Counterparts { task with width } Eq (Slots.Correspond count Eq) := by
  refine ⟨rfl, rfl, ?_, ?_, ?_, ?_, ?_, ?_⟩
  · rintro i _ j _ rfl rfl
    exact Iff.rfl
  · rintro i _ rfl
    exact Iff.rfl
  · rintro i _ rfl
    rfl
  · rintro i _ rfl
    cases task.text.read? i with
    | none => exact .none
    | some found => exact .some ⟨rfl, rfl⟩
  · rintro i _ rfl
    exact .startAt h h' rfl
  · rintro i _ slots slots' rfl hslots slot
    exact hslots.set slot (.some rfl)

end Lockstep
