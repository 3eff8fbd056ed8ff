import Lockstep.Proofs.Walk

/-!
# Ways to the end of a match

Of what it runs over, a program asks only what is read at an offset and which conditions hold there.
A way to the end of a match follows edges, and reads some symbols one after the other. Over a text
such ways are those that searches go.

- `Reader`: what a program asks of the text it runs over; `Text.reader` for texts.
- `Reader.Reads`: some symbols are read between two offsets.
- `Program.Accepts`: a way that reads some symbols comes to the end of a match.
- `Program.comesTo_iff_accepts`: over a text, the ways of a search.
-/

namespace Lockstep

/-- What a program asks of what it runs over. -/
structure Reader where
  /-- The symbol at an offset, with its width. -/
  step : Nat → Option (Symbol × Nat)
  /-- The conditions that hold at an offset. -/
  context : Nat → Conditions

/-- Some symbols are read between two offsets, one after the other, and nothing else. -/
def Reader.Reads (R : Reader) : (i : Nat) → List Symbol → (j : Nat) → Prop
  | i, [], j => i = j
  | i, r :: rs, j => ∃ width, R.step i = some (r, width) ∧ R.Reads (i + width) rs j

theorem Reader.Reads.exists_of_append {R : Reader} {i j : Nat} {rs rs' : List Symbol}
    (h : R.Reads i (rs ++ rs') j) : ∃ k, R.Reads i rs k ∧ R.Reads k rs' j := by
  induction rs generalizing i with
  | nil => exact ⟨i, rfl, h⟩
  | cons r rs ih =>
    obtain ⟨width, hstep, hrest⟩ := h
    obtain ⟨k, hreads, hreads'⟩ := ih hrest
    exact ⟨k, ⟨width, hstep, hreads⟩, hreads'⟩

/-- What a program asks of a text. -/
def Text.reader (text : Text) : Reader := ⟨text.step, text.context⟩

theorem Text.reader_step_of_read? {text : Text} {i j : text.Offset} {r : Symbol}
    (h : text.read? i = some (r, j)) :
    ∃ width, text.reader.step i = some (r, width) ∧ (i : Nat) + width = j :=
  ⟨j - i, step_of_read? h, Nat.add_sub_cancel' (Fin.le_def.mp (lt_of_read? h).le)⟩

theorem Text.exists_read_of_reader_step {text : Text} {i : text.Offset} {r : Symbol} {width : Nat}
    (h : text.reader.step i = some (r, width)) :
    ∃ j : text.Offset, text.read? i = some (r, j) ∧ (j : Nat) = i + width :=
  exists_read_of_step h

namespace Program

/-- A way leads from an address and an offset to the end of a match at the offset `j`, and reads the
symbols `rs`. -/
inductive Accepts (P : Program) (R : Reader) : Fin P.size → Nat → (rs : List Symbol) → (j : Nat) →
    Prop where
  /-- The match ends here. -/
  | accept {pc : Fin P.size} {i : Nat} (hinstr : P.instr pc = .accept) : Accepts P R pc i [] i
  /-- An edge is followed without reading. -/
  | pass {pc next : Fin P.size} {i j : Nat} {rs : List Symbol}
      (hnext : next ∈ (P.passing i (R.context i)).next pc) (hrest : Accepts P R next i rs j) :
      Accepts P R pc i rs j
  /-- A symbol is read. -/
  | read {pc next : Fin P.size} {i j width : Nat} {cls : SymbolClass} {r : Symbol}
      {rs : List Symbol} (hinstr : P.instr pc = .consume cls next)
      (hstep : R.step i = some (r, width)) (hr : r ∈ cls)
      (hrest : Accepts P R next (i + width) rs j) : Accepts P R pc i (r :: rs) j

variable {P : Program} {R : Reader} {pc : Fin P.size} {i j : Nat} {rs : List Symbol}

/-- The symbols of a way are read between its ends. -/
theorem Accepts.reads (h : P.Accepts R pc i rs j) : R.Reads i rs j := by
  induction h with
  | accept => rfl
  | pass _ _ ih => exact ih
  | read _ hstep _ _ ih => exact ⟨_, hstep, ih⟩

/-- Before anything is read, a way comes to an instruction at which a thread waits. -/
theorem Accepts.exists_stop (h : P.Accepts R pc i rs j) :
    ∃ stop, (P.passing i (R.context i)).Reaches pc stop ∧ (P.instr stop).isStop = true := by
  induction h with
  | @accept pc _ hinstr => exact ⟨pc, .refl pc, by rw [hinstr]; rfl⟩
  | pass hnext _ ih =>
    obtain ⟨stop, hreach, hstop⟩ := ih
    exact ⟨stop, .head hnext hreach, hstop⟩
  | @read pc _ _ _ _ _ _ _ hinstr _ _ _ _ => exact ⟨pc, .refl pc, by rw [hinstr]; rfl⟩

/-- From the end of a match there is no further way. -/
theorem accepts_iff_of_accept (h : P.instr pc = .accept) :
    P.Accepts R pc i rs j ↔ rs = [] ∧ i = j := by
  constructor
  · intro hacc
    cases hacc with
    | accept => exact ⟨rfl, rfl⟩
    | pass hnext =>
      rw [next_passing_of_isStop (by rw [h]; rfl)] at hnext
      cases hnext
    | read hinstr =>
      rw [h] at hinstr
      cases hinstr
  · rintro ⟨rfl, rfl⟩
    exact .accept h

/-- Where a symbol is read, the way goes on behind it. -/
theorem accepts_iff_of_consume {cls : SymbolClass} {next : Fin P.size}
    (h : P.instr pc = .consume cls next) :
    P.Accepts R pc i rs j ↔ ∃ r width rest, rs = r :: rest ∧ R.step i = some (r, width) ∧ r ∈ cls ∧
      P.Accepts R next (i + width) rest j := by
  constructor
  · intro hacc
    cases hacc with
    | accept hinstr =>
      rw [h] at hinstr
      cases hinstr
    | pass hnext =>
      rw [next_passing_of_isStop (by rw [h]; rfl)] at hnext
      cases hnext
    | read hinstr hstep hr hrest =>
      rw [h] at hinstr
      cases hinstr
      exact ⟨_, _, _, rfl, hstep, hr, hrest⟩
  · rintro ⟨r, width, rest, rfl, hstep, hr, hrest⟩
    exact .read h hstep hr hrest

/-- Everywhere else, the way follows an edge. -/
theorem accepts_iff_of_not_isStop (h : (P.instr pc).isStop = false) : P.Accepts R pc i rs j ↔
    ∃ next ∈ (P.passing i (R.context i)).next pc, P.Accepts R next i rs j := by
  constructor
  · intro hacc
    cases hacc with
    | accept hinstr =>
      rw [hinstr] at h
      cases h
    | pass hnext hrest => exact ⟨_, hnext, hrest⟩
    | read hinstr =>
      rw [hinstr] at h
      cases h
  · rintro ⟨next, hnext, hrest⟩
    exact .pass hnext hrest

/-! ## Ways over a text -/

variable {text : Text}

/-- A way leads to the end of a match at an offset. -/
def ComesTo (P : Program) (text : Text) (v : Fin P.size × text.Offset) (j : text.Offset) : Prop :=
  ∃ t, (P.walk text).Reaches v (t, j) ∧ P.instr t = .accept

theorem ComesTo.head {v w : Fin P.size × text.Offset} {j : text.Offset} (h : P.ComesTo text w j)
    (hedge : w ∈ (P.walk text).next v) : P.ComesTo text v j := by
  obtain ⟨t, hreach, hacc⟩ := h
  exact ⟨t, .head hedge hreach, hacc⟩

/-- **The ways over a text** are those that a search goes. -/
theorem comesTo_iff_accepts {i j : text.Offset} :
    P.ComesTo text (pc, i) j ↔ ∃ rs, P.Accepts text.reader pc i rs j := by
  constructor
  · rintro ⟨t, hreach, hacc⟩
    suffices hways : ∀ v : Fin P.size × text.Offset, (P.walk text).Reaches v (t, j) →
        ∃ rs, P.Accepts text.reader v.1 v.2 rs j from hways (pc, i) hreach
    intro v hreach
    induction hreach using Relation.ReflTransGen.head_induction_on with
    | refl => exact ⟨[], .accept hacc⟩
    | @head v w hedge _ ih =>
      obtain ⟨rs, hrest⟩ := ih
      rcases mem_next_walk.mp hedge with ⟨heq, hnext⟩ | ⟨cls, r, hcls, hread, hr⟩
      · rw [heq] at hrest
        exact ⟨rs, .pass hnext hrest⟩
      · obtain ⟨width, hstep, hwidth⟩ := Text.reader_step_of_read? hread
        rw [← hwidth] at hrest
        exact ⟨r :: rs, .read hcls hstep hr hrest⟩
  · rintro ⟨rs, hacc⟩
    generalize hi : (i : Nat) = i' at hacc
    generalize hj : (j : Nat) = j' at hacc
    induction hacc generalizing i with
    | @accept pc _ hinstr =>
      obtain rfl : i = j := Fin.ext (hi.trans hj.symm)
      exact ⟨pc, .refl _, hinstr⟩
    | pass hnext _ ih =>
      subst hi
      exact (ih rfl hj).head (mem_next_walk.mpr (.inl ⟨rfl, hnext⟩))
    | read hinstr hstep hr _ ih =>
      subst hi
      obtain ⟨k, hread, hk⟩ := Text.exists_read_of_reader_step hstep
      exact (ih hk hj).head (mem_next_walk.mpr (.inr ⟨_, _, hinstr, hread, hr⟩))

/-- Where a match is possible, some way comes to its end. -/
theorem Live.exists_accepts {i : text.Offset} (h : P.Live text i pc) :
    ∃ rs j, P.Accepts text.reader pc i rs j := by
  obtain ⟨⟨t, j⟩, hreach, hacc⟩ := h
  obtain ⟨rs, haccepts⟩ := comesTo_iff_accepts.mp ⟨t, hreach, hacc⟩
  exact ⟨rs, j, haccepts⟩

end Program

end Lockstep
