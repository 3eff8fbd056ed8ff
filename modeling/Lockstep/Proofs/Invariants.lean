import Lockstep.Proofs.Skipping

/-!
# What holds at every offset

A search goes from one offset to a later one, by reading a symbol or by passing over a part of the
text, until it ends. What holds where it begins, and is kept by the three things that are done at an
offset, holds wherever it goes, and tells what it leaves behind, also if it is broken off.

- `Search.exists_offset_of_aim`: passing over a part of the text leads to where reading leads.
- `Search.Keeps`: what is kept at every offset, and what is left behind.
- `Search.Keeps.run`: so it is, for a whole search.
-/

namespace Lockstep

/-! ## Where a search goes on -/

/-- What is passed over ends at an offset that reading leads to. -/
theorem Input.readsTo_of_distance? {text : Text} {chars : List Char} {i : text.Offset}
    {distance : Nat} (h : distance? { text, searchable := true } chars i = some distance) :
    ∃ k : text.Offset, (k : Nat) = i + distance ∧ text.ReadsTo i k := by
  rcases distance?_cases text chars i with hzero | ⟨-, hfind⟩
  · rw [hzero] at h
    cases h
    exact ⟨i, rfl, .refl i⟩
  · rw [hfind] at h
    obtain ⟨p, hp, rfl⟩ := Option.map_eq_some_iff.mp h
    obtain ⟨hle, hend, -⟩ := Text.find?_eq_some hp
    let k : text.Offset := ⟨p, Nat.lt_succ_of_le hend⟩
    exact ⟨k, (Nat.add_sub_cancel' hle).symm, Text.readsTo_of_find? hp⟩

namespace Search

variable {P : Program} {q : Query} {s : Search P.size}

/-- Where the search goes on is where it is, or the next place where the characters stand that every
match starts with. -/
theorem pos_of_aim {aimed : Search P.size} (haim : s.aim q = some aimed) :
    aimed.pos = s.pos ∨ q.input.searchable = true ∧
      ∃ distance, q.input.distance? q.lead s.pos = some distance ∧
        aimed.pos = s.pos + distance := by
  unfold aim at haim
  split at haim
  · cases haim
    exact .inl rfl
  · split at haim
    · cases haim
    · split at haim
      · next hskip =>
        obtain ⟨distance, hdistance, rfl⟩ := Option.map_eq_some_iff.mp haim
        exact .inr ⟨hskip.2.1, distance, hdistance, rfl⟩
      · cases haim
        exact .inl rfl

/-- **Passing over a part of the text** leads to an offset that reading leads to. -/
theorem exists_offset_of_aim {i : q.input.text.Offset} (hpos : s.pos = i) {aimed : Search P.size}
    (haim : s.aim q = some aimed) :
    ∃ k : q.input.text.Offset, aimed.pos = k ∧ q.input.text.ReadsTo i k := by
  rcases pos_of_aim haim with hstay | ⟨hsearch, distance, hdistance, hgoes⟩
  · exact ⟨i, hstay.trans hpos, .refl i⟩
  · have hinput : q.input = { text := q.input.text, searchable := true } := by
      rw [← hsearch]
    rw [hinput, hpos] at hdistance
    obtain ⟨k, hk, hto⟩ := Input.readsTo_of_distance? hdistance
    exact ⟨k, by rw [hgoes, hpos, hk], hto⟩

/-- Only a search without threads passes over a part of the text. -/
theorem view_of_pos_ne_of_aim {aimed : Search P.size} (haim : s.aim q = some aimed)
    (hne : aimed.pos ≠ s.pos) : s.space.current.view = [] := by
  unfold aim at haim
  split at haim
  · cases haim
    exact absurd rfl hne
  · next hempty => exact RunList.view_eq_nil_iff.mpr (by simpa using hempty)

/-! ## A whole search -/

/-- What holds of a search at the offset where it stands, `I`, and of what it leaves behind, `F`:
going on keeps it, and so does starting a thread; and a sweep leaves it behind for the end and for
the next offset. -/
structure Keeps (q : Query) (I : Search P.size → q.input.text.Offset → Prop)
    (F : Workspace P.size → Prop) : Prop where
  pos : ∀ s i, I s i → s.pos = i
  rest : ∀ s i, I s i → F s.space
  aim : ∀ s i aimed, I s i → s.aim q = some aimed → ∀ k : q.input.text.Offset, aimed.pos = k →
    q.input.text.ReadsTo i k → I aimed k
  seed : ∀ s i, I s i → I (s.seed q) i
  sweep : ∀ s i, I s i → ∃ space, s.sweep q = .ok space ∧ F space ∧
    ∀ r j, q.input.text.read? i = some (r, j) → ∀ steps,
      I ⟨j, steps, { space with current := space.next, next := space.current }⟩ j

variable {I : Search P.size → q.input.text.Offset → Prop} {F : Workspace P.size → Prop}
  {i : q.input.text.Offset}

/-- Going through one offset: the search goes on as it was, or it ends. -/
theorem Keeps.step (hkeeps : Keeps q I F) (h : I s i) :
    (∀ s', s.step q = .inl s' → ∃ j, I s' j) ∧
      ∀ ending, s.step q = .inr ending →
        ∃ space, (ending = .settled space ∨ ending = .overrun space) ∧ F space := by
  cases haim : s.aim q with
  | none =>
    rw [step_of_aim_eq_none haim]
    refine ⟨nofun, ?_⟩
    rintro _ ⟨⟩
    exact ⟨_, .inl rfl, hkeeps.rest s i h⟩
  | some aimed =>
    obtain ⟨k, hpos, hto⟩ := exists_offset_of_aim (hkeeps.pos s i h) haim
    have haimed : I aimed k := hkeeps.aim s i aimed h haim k hpos hto
    obtain ⟨space, hsweep, hspace, hgoes⟩ :=
      hkeeps.sweep (aimed.seed q) k (hkeeps.seed aimed k haimed)
    rw [step_of_sweep haim hsweep]
    split
    · refine ⟨nofun, ?_⟩
      rintro _ ⟨⟩
      exact ⟨_, .inl rfl, hspace⟩
    · next hgo =>
      split
      · refine ⟨nofun, ?_⟩
        rintro _ ⟨⟩
        exact ⟨_, .inr rfl, hspace⟩
      · refine ⟨?_, nofun⟩
        rintro _ ⟨⟩
        cases hread : q.input.text.read? k with
        | none =>
          have hwidth := Text.widthAt_of_read?_eq_none hread
          rw [← hpos] at hwidth
          exact absurd (.inl hwidth) hgo
        | some found =>
          obtain ⟨r, j⟩ := found
          rw [hpos, Text.add_widthAt_of_read? hread]
          exact ⟨j, hgoes r j hread _⟩

/-- **A whole search** ends, with its verdict or because the time is up, and leaves behind what has
been kept. -/
theorem Keeps.run (hkeeps : Keeps q I F) (h : I s i) :
    ∃ space, (s.run q = .settled space ∨ s.run q = .overrun space) ∧ F space := by
  induction s using Search.run.induct q generalizing i with
  | case1 s s' hstep ih =>
    obtain ⟨j, hj⟩ := (hkeeps.step h).1 s' hstep
    rw [run_of_step_inl hstep]
    exact ih hj
  | case2 s ending hstep =>
    rw [run_of_step_inr hstep]
    exact (hkeeps.step h).2 ending hstep

end Search

end Lockstep
