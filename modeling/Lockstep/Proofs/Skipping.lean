import Lockstep.Proofs.Encoding
import Lockstep.Proofs.Refinement

/-!
# Passing over a part of the text changes no answer

A search may pass over what lies before the next place where the characters stand that every match
starts with. It finds what a search does that goes from symbol to symbol: on its way that one comes
by all the places where these characters are read, and elsewhere no match can start.

- `skips`: what is passed over, the outcome does not see.
- `Search.run_past_end`: past the end of the text the two searches agree as well.
- `Machine.tryMatch_searchable`: a machine gives the same answer either way.
-/

namespace Lockstep

namespace Input

/-- A search for characters that may be part of no sequence stays where it is; every other one goes
to the next place where they stand. -/
theorem distance?_cases (text : Text) (chars : List Char) (pos : Nat) :
    distance? { text, searchable := true } chars pos = some 0 ∨
      (text.Plain chars ∧ distance? { text, searchable := true } chars pos =
        (text.find? chars pos).map (· - pos)) := by
  cases text with
  | utf8 bytes =>
    by_cases hany : chars.any (·.val == Symbol.replacement) = true
    · left
      simp only [distance?, hany, if_true]
    · right
      constructor
      · intro c hc heq
        exact hany (List.any_eq_true.mpr ⟨c, hc, by simpa using heq⟩)
      · simp only [distance?, hany, if_true]
        rfl
  | utf16 units => exact .inr ⟨trivial, rfl⟩

end Input

namespace Program

variable {P : Program} {task : Task}

open Classical in
/-- Where the characters do not stand, a new thread comes to nothing. -/
theorem mem_doomed_of_mem_seeds (hplain : task.text.Plain P.literal.chars) {i : task.text.Offset}
    {v : Verdict} (hno : ¬ task.text.Occurs P.literal.chars i) {e : Fin P.size × Slots}
    (he : e ∈ task.seeds P i v) :
    e.1 ∈ Finset.univ.filter fun pc => ¬ P.Live task.text i pc := by
  rw [Task.eq_start_of_mem_seeds he, Finset.mem_filter]
  exact ⟨Finset.mem_univ _, fun hlive => hno (Text.occurs_of_spells hplain (spells_literal hlive))⟩

/-- **What is passed over**, the outcome does not see. -/
theorem skips (P : Program) (task : Task) (searchable : Bool) : P.Skips task searchable := by
  intro i v hfound _ hsearch _
  subst hsearch
  rcases Input.distance?_cases task.text P.literal.chars i with hzero | ⟨hplain, hdistance⟩
  · rw [hzero]
    exact ⟨i, rfl, le_refl i, rfl⟩
  · rw [hdistance]
    have hD := P.doomed_of_not_live task.text
    cases hfind : task.text.find? P.literal.chars i with
    | none =>
      -- no match starts anywhere
      refine outcome_of_doomed hD i (by simp) fun j hij e he => ?_
      have hno := Text.find?_eq_none hfind j hij (Nat.le_of_lt_succ j.isLt)
      exact mem_doomed_of_mem_seeds hplain hno he
    | some p =>
      obtain ⟨hip, hend, -, hleast⟩ := Text.find?_eq_some hfind
      let k : task.text.Offset := ⟨p, Nat.lt_succ_of_le hend⟩
      have hik : i ≤ k := hip
      have hto : task.text.ReadsTo i k := Text.readsTo_of_find? hfind
      refine ⟨k, (Nat.add_sub_cancel' hip).symm, hik, ?_⟩
      refine outcome_skip hD hto hfound (by simp) fun j hij hjk e he => ?_
      exact mem_doomed_of_mem_seeds hplain (hleast j hij.le hjk) he

end Program

/-! ## Past the end of the text -/

namespace Program

variable {P : Program}

/-- With a character to begin with, no match is empty. -/
theorem ne_accept_of_reaches_start (hlead : P.literal.chars ≠ []) {pos : Nat} {cond : Conditions}
    {pc : Fin P.size} (h : (P.passing pos cond).Reaches P.start pc) : P.instr pc ≠ .accept := by
  intro hacc
  obtain ⟨c, cs, hchars⟩ := List.exists_cons_of_ne_nil hlead
  obtain ⟨next, hconsume⟩ := exists_consume_of_lead hchars
  have hon := reaches_settle_of_reaches P.size (by rw [hconsume]; rfl) h pos cond
  rcases hon.cases_head with heq | ⟨v, hv, -⟩
  · rw [heq, hconsume] at hacc
    cases hacc
  · rw [next_passing_of_isStop (by rw [hacc]; rfl)] at hv
    exact absurd hv List.not_mem_nil

end Program

/-- Where no match ends, the verdict stays. -/
theorem Moment.settle_snd_of_ne_accept {P : Program} (m : Moment) {es : List (Fin P.size × Slots)}
    (h : ∀ e ∈ es, P.instr e.1 ≠ .accept) (v : Verdict) : (m.settle P es v).2 = v := by
  induction es with
  | nil => rfl
  | cons e es ih =>
    obtain ⟨handed, hsettle, -⟩ := settle_of_ne_accept (h e (List.mem_cons_self ..)) m e.2 es v
    rw [hsettle]
    exact ih fun e' he' => h e' (List.mem_cons_of_mem _ he')

/-- The same query for a text that may not be searched. -/
def Query.stepping (q : Query) : Query := { q with input := { q.input with searchable := false } }

namespace Search

variable {P : Program} {q : Query} {s : Search P.size}

/-- A search that may not skip goes on where it is, or not at all. -/
theorem aim_stepping (s : Search P.size) : s.aim q.stepping =
    if ¬ s.space.current.isEmpty then some s
    else if s.space.verdict.found ∨ ¬ q.mayStart s.pos ∨
      (Conditions.beginText ⊆ q.entry ∧ s.pos ≠ 0) then none
    else some s := by
  have hno : ¬ (¬ q.stepping.lead.isEmpty ∧ q.stepping.input.searchable ∧
      q.stepping.input.text.symbolAt s.pos ≠ q.stepping.lead.head?.map Char.val) := by
    rintro ⟨-, hsearch, -⟩
    cases hsearch
  rw [aim, if_neg hno]
  rfl

theorem eq_of_aim_stepping {s' : Search P.size} (h : s.aim q.stepping = some s') : s' = s := by
  rw [aim_stepping] at h
  split at h
  · exact (Option.some.inj h).symm
  · split at h
    · cases h
    · exact (Option.some.inj h).symm

/-- Past the end of the text a search that may skip goes on as one that may not, or it waits for a
character and goes on no more. -/
theorem aim_past_end (hsearch : q.input.searchable = true) (hpos : q.input.text.endPos < s.pos) :
    s.aim q = s.aim q.stepping ∨
      s.aim q = none ∧ s.aim q.stepping = some s ∧ q.lead ≠ [] := by
  rw [aim_stepping, aim]
  by_cases hempty : ¬ s.space.current.isEmpty
  · rw [if_pos hempty, if_pos hempty]
    exact .inl rfl
  · rw [if_neg hempty, if_neg hempty]
    split
    · exact .inl rfl
    · split
      · next hskip =>
        have hinput : q.input = { text := q.input.text, searchable := true } := by
          rw [← hsearch]
        have hfind : q.input.text.find? q.lead s.pos = none := by
          by_contra hne
          obtain ⟨p, hp⟩ := Option.ne_none_iff_exists'.mp hne
          obtain ⟨hle, hend, -⟩ := Text.find?_eq_some hp
          omega
        rw [hinput]
        rcases Input.distance?_cases q.input.text q.lead s.pos with hzero | ⟨-, hdistance⟩
        · rw [hzero]
          exact .inl rfl
        · rw [hdistance, hfind]
          exact .inr ⟨rfl, rfl, by simpa using hskip.1⟩
      · exact .inl rfl

/-- **Past the end of the text** a search that may skip comes to what one comes to that may not. -/
theorem run_past_end (hlead : q.lead = P.literal.chars) (hsearch : q.input.searchable = true)
    (hpos : q.input.text.endPos < s.pos) (h : Shows q s s.pos []) :
    ∃ space space', s.run q = .settled space ∧ s.run q.stepping = .settled space' ∧
      space.verdict = space'.verdict := by
  have hwidth : q.input.text.widthAt s.pos = 0 := by
    have hstep : q.input.text.step s.pos = none := Text.step_eq_none_iff.mpr (le_of_lt hpos)
    rw [Text.widthAt, hstep]
    rfl
  -- one sweep is all there is to do
  obtain ⟨space, hsweep, hverdict, -⟩ := sweep_of_stands h.seed.1
  have hsweep' : (s.seed q.stepping).sweep q.stepping = .ok space := hsweep
  rcases aim_past_end hsearch hpos with hsame | ⟨hnone, hstepping, hwaits⟩
  · cases hstepping : s.aim q.stepping with
    | none =>
      rw [hstepping] at hsame
      exact ⟨s.space, s.space, run_of_aim_eq_none hsame, run_of_aim_eq_none hstepping, rfl⟩
    | some s' =>
      obtain rfl := eq_of_aim_stepping hstepping
      rw [hstepping] at hsame
      exact ⟨space, space, run_of_sweep hsame hsweep (.inl hwidth),
        run_of_sweep hstepping hsweep' (.inl hwidth), rfl⟩
  · refine ⟨s.space, space, run_of_aim_eq_none hnone,
      run_of_sweep hstepping hsweep' (.inl hwidth), ?_⟩
    -- the thread that is started waits for a character, and there is none
    rw [hverdict, h.seed.2]
    refine (Moment.settle_snd_of_ne_accept _ (fun e he => ?_) _).symm
    obtain ⟨e', he', hreach⟩ := Graph.exists_reaches_of_arrival (Graph.mem_nodes_of_mem he)
    rw [List.nil_append] at he'
    rw [Task.eq_start_of_mem_seeds he'] at hreach
    exact Program.ne_accept_of_reaches_start (by rw [← hlead]; exact hwaits) hreach

end Search

/-! ## What a machine answers -/

namespace Machine

variable {P : Program}

/-- **Whether the text may be searched changes no answer**: neither whether there is a match, nor
where it and its groups are, wherever the run begins. -/
theorem tryMatch_searchable {m : Machine P} (h : m.Reachable) {env : Environment}
    (hlimit : m.timeLimit env = none) (text : Text) (pos : Nat) (anchor : Anchor) :
    (m.tryMatch env { text, searchable := true } pos anchor).1 =
        (m.tryMatch env { text, searchable := false } pos anchor).1 ∧
      (m.tryMatch env { text, searchable := true } pos anchor).2.submatches =
        (m.tryMatch env { text, searchable := false } pos anchor).2.submatches := by
  rcases Nat.lt_or_ge text.endPos pos with hpos | hpos
  · have hidle : m.Idle := h.idle
    by_cases hanchor : anchor ≠ .unanchored ∧ pos ≠ 0
    · rw [tryMatch_of_anchored hanchor, tryMatch_of_anchored hanchor]
      exact ⟨rfl, rfl⟩
    cases hentry : P.entry? with
    | none =>
      rw [tryMatch_of_no_entry hentry, tryMatch_of_no_entry hentry]
      exact ⟨rfl, rfl⟩
    | some entry =>
      rw [tryMatch_of_entry hentry hanchor, tryMatch_of_entry hentry hanchor]
      have hquery : m.query env { text, searchable := false } anchor entry =
          (m.query env { text, searchable := true } anchor entry).stepping := rfl
      have hshows : Search.Shows (m.query env { text, searchable := true } anchor entry)
          { pos, steps := 0, space := m.space.reset m.width } pos [] := hidle.shows rfl pos
      obtain ⟨space, space', hrun, hrun', hverdict⟩ := Search.run_past_end rfl rfl hpos hshows
      rw [hquery, hrun, hrun']
      constructor
      · show Except.ok space.verdict.found = .ok space'.verdict.found
        rw [hverdict]
      · show space.verdict.submatches m.width = space'.verdict.submatches m.width
        rw [hverdict]
  · have hskipping := tryMatch_eq_outcome h hlimit { text, searchable := true } anchor
      ⟨pos, Nat.lt_succ_of_le hpos⟩ (P.skips _ _)
    have hstepping := tryMatch_eq_outcome h hlimit { text, searchable := false } anchor
      ⟨pos, Nat.lt_succ_of_le hpos⟩ (P.skips _ _)
    constructor
    · exact hskipping.1.trans hstepping.1.symm
    · exact hskipping.2.trans hstepping.2.symm

/-- A program that reads one letter, on a text with a byte in front that belongs to no sequence. -/
theorem tryMatch_searchable_letter :
    let P : Program := ⟨2, #v[.consume (.single 0x61) 1, .accept], 0⟩
    let m := new P .leftmostFirst
    let text := Text.utf8 #[0xFF, 0x61]
    m.Reachable ∧ m.timeLimit {} = none ∧
      (m.tryMatch {} { text, searchable := true } 0 .unanchored).1 =
        (m.tryMatch {} { text, searchable := false } 0 .unanchored).1 ∧
      (m.tryMatch {} { text, searchable := true } 0 .unanchored).2.submatches =
        (m.tryMatch {} { text, searchable := false } 0 .unanchored).2.submatches := by
  intro P m text
  have hreach : m.Reachable := .new .leftmostFirst
  have hlimit : m.timeLimit {} = none := rfl
  exact ⟨hreach, hlimit, tryMatch_searchable hreach hlimit text 0 .unanchored⟩

end Machine

end Lockstep
