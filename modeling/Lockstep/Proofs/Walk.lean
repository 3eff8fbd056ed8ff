import Lockstep.Proofs.Offsets
import Lockstep.Proofs.Passage

/-!
# Ways through a program and a text

A way through a program and a text leads from one pair of an address and an offset to another. At
an offset it goes along the edges that read nothing, and where it reads a symbol it comes to the
offset behind it.

- `Program.passingAt`: the edges at an offset of a text.
- `Program.walk`: the edges between all pairs of an address and an offset.
- `Text.ReadsTo`, `Text.offsetsFrom`: the offsets that reading leads to, and all of them in order.
- `Program.Live`: the pairs from which a way leads to the end of a match.
-/

namespace Lockstep

/-! ## From offset to offset -/

namespace Text

/-- One offset is reached from another by reading. -/
def ReadsTo (text : Text) : text.Offset → text.Offset → Prop :=
  Relation.ReflTransGen fun i j => ∃ r, text.read? i = some (r, j)

variable {text : Text} {i j k : text.Offset}

theorem ReadsTo.refl (i : text.Offset) : text.ReadsTo i i := Relation.ReflTransGen.refl

theorem ReadsTo.trans (h : text.ReadsTo i j) (h' : text.ReadsTo j k) : text.ReadsTo i k :=
  Relation.ReflTransGen.trans h h'

theorem ReadsTo.of_read {r : Symbol} (h : text.read? i = some (r, j)) : text.ReadsTo i j :=
  Relation.ReflTransGen.single ⟨r, h⟩

theorem ReadsTo.le (h : text.ReadsTo i j) : i ≤ j := by
  induction h with
  | refl => exact le_refl i
  | tail _ hstep ih =>
    obtain ⟨r, hread⟩ := hstep
    exact le_trans ih (le_of_lt (lt_of_read? hread))

/-- Reading leads somewhere at once or not at all. -/
theorem ReadsTo.cases_head (h : text.ReadsTo i k) :
    i = k ∨ ∃ r j, text.read? i = some (r, j) ∧ text.ReadsTo j k := by
  rcases Relation.ReflTransGen.cases_head h with rfl | ⟨j, ⟨r, hread⟩, hrest⟩
  · exact .inl rfl
  · exact .inr ⟨r, j, hread, hrest⟩

/-- The offsets that reading leads to, in order. -/
def offsetsFrom (text : Text) (i : text.Offset) : List text.Offset :=
  i :: match _h : text.read? i with
    | some (_, j) => text.offsetsFrom j
    | none => []
termination_by text.endPos - i
decreasing_by
  have hlt : (i : Nat) < j := lt_of_read? ‹_›
  omega

theorem offsetsFrom_of_read {r : Symbol} (h : text.read? i = some (r, j)) :
    text.offsetsFrom i = i :: text.offsetsFrom j := by
  rw [offsetsFrom]
  split
  · next hread =>
    rw [h] at hread
    cases hread
    rfl
  · next hread =>
    rw [h] at hread
    cases hread

theorem offsetsFrom_of_end (h : text.read? i = none) : text.offsetsFrom i = [i] := by
  rw [offsetsFrom]
  split
  · next hread =>
    rw [h] at hread
    cases hread
  · rfl

theorem mem_offsetsFrom : k ∈ text.offsetsFrom i ↔ text.ReadsTo i k := by
  induction i using offset_induction with
  | step i ih =>
    cases hread : text.read? i with
    | none =>
      rw [offsetsFrom_of_end hread, List.mem_singleton]
      constructor
      · rintro rfl
        exact .refl k
      · intro h
        rcases h.cases_head with rfl | ⟨r, j, hread', -⟩
        · rfl
        · rw [hread] at hread'
          cases hread'
    | some found =>
      obtain ⟨r, j⟩ := found
      rw [offsetsFrom_of_read hread, List.mem_cons, ih j (lt_of_read? hread)]
      constructor
      · rintro (rfl | h)
        · exact .refl k
        · exact (ReadsTo.of_read hread).trans h
      · intro h
        rcases h.cases_head with rfl | ⟨r', j', hread', hrest⟩
        · exact .inl rfl
        · rw [hread] at hread'
          cases hread'
          exact .inr hrest

theorem pairwise_offsetsFrom (i : text.Offset) : (text.offsetsFrom i).Pairwise (· < ·) := by
  induction i using offset_induction with
  | step i ih =>
    cases hread : text.read? i with
    | none =>
      rw [offsetsFrom_of_end hread]
      exact List.pairwise_singleton _ _
    | some found =>
      obtain ⟨r, j⟩ := found
      have hlt : i < j := lt_of_read? hread
      rw [offsetsFrom_of_read hread]
      refine List.pairwise_cons.mpr ⟨fun k hk => ?_, ih j hlt⟩
      exact lt_of_lt_of_le hlt (mem_offsetsFrom.mp hk).le

end Text

namespace Program

variable {P : Program} {text : Text}

/-! ## The graph of all ways -/

/-- The edges at an offset of a text. -/
def passingAt (P : Program) (text : Text) (pos : Nat) : Graph (Fin P.size) Slots :=
  P.passing pos (text.context pos)

/-- The edges between pairs of an address and an offset. The arms of a fork are tried in order; a
capture write puts the offset into its slot; an assertion lets pass where its conditions hold; and
an instruction that reads leads behind a symbol of its class. -/
def walk (P : Program) (text : Text) : Graph (Fin P.size × text.Offset) Slots where
  next
    | (pc, i) => match P.instr pc with
      | .fork arms => arms.map fun arm => (arm, i)
      | .save _ next | .jump next => [(next, i)]
      | .assert need next => if need ⊆ text.context i then [(next, i)] else []
      | .consume cls next => match text.read? i with
        | some (r, j) => if r ∈ cls then [(next, j)] else []
        | none => []
      | .fail | .accept => []
  carry
    | (pc, i), slots => match P.instr pc with
      | .save slot _ => slots.setIfInBounds slot (some i)
      | _ => slots

/-- Where a symbol is read, the way goes on behind it. -/
theorem next_walk_of_consume {pc next : Fin P.size} {i : text.Offset} {cls : SymbolClass}
    (h : P.instr pc = .consume cls next) :
    (P.walk text).next (pc, i) = match text.read? i with
      | some (r, j) => if r ∈ cls then [(next, j)] else []
      | none => [] := by
  simp only [walk, h]

/-- Everywhere else, the way stays at its offset. -/
theorem next_walk_of_passing {pc : Fin P.size} {i : text.Offset}
    (h : ∀ cls next, P.instr pc ≠ .consume cls next) :
    (P.walk text).next (pc, i) = ((P.passingAt text i).next pc).map fun pc' => (pc', i) := by
  cases hi : P.instr pc with
  | consume cls next => exact absurd hi (h cls next)
  | fork arms => simp only [walk, passingAt, passing, hi]
  | save slot next => simp only [walk, passingAt, passing, hi, List.map_cons, List.map_nil]
  | jump next => simp only [walk, passingAt, passing, hi, List.map_cons, List.map_nil]
  | assert need next =>
    simp only [walk, passingAt, passing, hi]
    split <;> rfl
  | fail => simp only [walk, passingAt, passing, hi, List.map_nil]
  | accept => simp only [walk, passingAt, passing, hi, List.map_nil]

theorem carry_walk (pc : Fin P.size) (i : text.Offset) (slots : Slots) :
    (P.walk text).carry (pc, i) slots = (P.passingAt text i).carry pc slots := rfl

/-- Instructions that read have no edge at their own offset. -/
theorem next_passing_of_isStop {pc : Fin P.size} (h : (P.instr pc).isStop = true) (pos : Nat)
    (cond : Conditions) : (P.passing pos cond).next pc = [] := by
  cases hi : P.instr pc with
  | accept | consume => simp only [passing, hi]
  | fork | save | assert | jump | fail => rw [hi] at h; cases h

/-- An edge stays at its offset, or it reads a symbol. -/
theorem mem_next_walk {pc pc' : Fin P.size} {i j : text.Offset} :
    (pc', j) ∈ (P.walk text).next (pc, i) ↔
      (j = i ∧ pc' ∈ (P.passingAt text i).next pc) ∨
        ∃ cls r, P.instr pc = .consume cls pc' ∧ text.read? i = some (r, j) ∧ r ∈ cls := by
  by_cases hpc : ∃ cls next, P.instr pc = .consume cls next
  · obtain ⟨cls, next, hpc⟩ := hpc
    have hstop : (P.passingAt text i).next pc = [] :=
      next_passing_of_isStop (by rw [hpc]; rfl) _ _
    rw [next_walk_of_consume hpc, hstop]
    constructor
    · intro h
      split at h
      · next r k hread =>
        split at h
        · next hr =>
          rw [List.mem_singleton] at h
          cases h
          exact .inr ⟨cls, r, hpc, hread, hr⟩
        · exact absurd h List.not_mem_nil
      · exact absurd h List.not_mem_nil
    · rintro (⟨-, hnil⟩ | ⟨cls', r, hpc', hread, hr⟩)
      · exact absurd hnil List.not_mem_nil
      · rw [hpc] at hpc'
        cases hpc'
        simp only [hread, if_pos hr, List.mem_singleton]
  · have hpass : ∀ cls next, P.instr pc ≠ .consume cls next :=
      fun cls next h => hpc ⟨cls, next, h⟩
    rw [next_walk_of_passing hpass]
    constructor
    · intro h
      obtain ⟨pc'', hnext, heq⟩ := List.mem_map.mp h
      cases heq
      exact .inl ⟨rfl, hnext⟩
    · rintro (⟨rfl, hnext⟩ | ⟨cls, r, hcls, -, -⟩)
      · exact List.mem_map.mpr ⟨pc', hnext, rfl⟩
      · exact absurd hcls (hpass cls pc')

/-- A way goes only to offsets that reading leads to. -/
theorem readsTo_of_reaches {e e' : Fin P.size × text.Offset}
    (h : (P.walk text).Reaches e e') : text.ReadsTo e.2 e'.2 := by
  induction h with
  | refl => exact .refl _
  | @tail e₁ e₂ _ hedge ih =>
    obtain ⟨pc₁, i₁⟩ := e₁
    obtain ⟨pc₂, i₂⟩ := e₂
    rcases mem_next_walk.mp hedge with ⟨rfl, -⟩ | ⟨cls, r, -, hread, -⟩
    · exact ih
    · exact ih.trans (.of_read hread)

/-! ## Where a match can end -/

/-- A way leads from here to the end of a match. -/
def Live (P : Program) (text : Text) (i : text.Offset) (pc : Fin P.size) : Prop :=
  ∃ e, (P.walk text).Reaches (pc, i) e ∧ P.instr e.1 = .accept

theorem live_of_accept {pc : Fin P.size} (h : P.instr pc = .accept) (i : text.Offset) :
    P.Live text i pc :=
  ⟨(pc, i), .refl _, h⟩

theorem Live.head {pc pc' : Fin P.size} {i j : text.Offset} (h : P.Live text j pc')
    (hedge : (pc', j) ∈ (P.walk text).next (pc, i)) : P.Live text i pc := by
  obtain ⟨e, hreach, hacc⟩ := h
  exact ⟨e, .head hedge hreach, hacc⟩

end Program

end Lockstep
