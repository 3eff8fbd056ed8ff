import Lockstep.Search

/-!
# Machines

A machine belongs to one program, and runs it over one text after the other. It keeps its run
lists and buffers from one call to the next, and after a call it can be asked for the slots of the
match.

- `Environment`: the limits that hold for everyone, and the clock.
- `Machine`: what is kept between two calls.
- `Machine.track`: how many slots the next matches are to fill.
- `Machine.query`, `Machine.conclude`: what a run asks, and its answer.
- `Machine.tryMatch`, `Machine.isMatch`: a run over a text.
- `Machine.submatches`, `Machine.work`: what the last run came to.
-/

namespace Lockstep

/-- The limits that hold for everyone, and the clock that searches look at. -/
structure Environment where
  /-- The most instructions that a program may have. -/
  programSize : Nat := 1000000
  /-- The time that a search may take, in milliseconds; zero stands for as long as it needs. -/
  searchTime : Nat := 0
  /-- The time that a search has taken after so many symbols, in milliseconds. -/
  clock : Nat → Nat := fun _ => 0

/-- A machine for the program `P`. -/
structure Machine (P : Program) where
  /-- Which match is wanted. -/
  kind : MatchKind
  /-- How many slots the matches fill. -/
  width : Nat
  /-- The time that a search may take, in milliseconds, whatever holds for everyone. -/
  limit : Option Nat
  /-- What the searches work with. -/
  space : Workspace P.size

namespace Machine

variable {P : Program}

/-- A new machine, which fills all slots of the program. -/
def new (P : Program) (kind : MatchKind) : Machine P where
  kind
  width := P.slotCount
  limit := none
  space := Workspace.fresh P.size P.slotCount

/-- Sets how many slots the next matches fill: none for a mere yes or no, two for the whole match,
or more for groups. Slots come in pairs, and an odd number is rounded up; the greatest number of 64
bits stands for none. -/
def track (m : Machine P) (count : Nat) : Machine P :=
  let width := Slots.paired count
  if width = m.width then m
  else
    { m with
      width
      space :=
        { m.space with
          pool := m.space.pool.resize width
          verdict := { m.space.verdict with slots := m.space.verdict.slots.resize width } } }

/-- Sets the time that a search may take, in milliseconds; without it the limit for everyone
holds. -/
def setLimit (m : Machine P) (limit : Option Nat) : Machine P := { m with limit }

/-- The slots of the match that the last run found; all are unset if it found none. -/
def submatches (m : Machine P) : Slots := m.space.verdict.submatches m.width

/-- How many visits to an instruction, and threads taken up, the last run took. -/
def work (m : Machine P) : Nat := m.space.work

/-- The limit on the time of a search. -/
def timeLimit (m : Machine P) (env : Environment) : Option Nat :=
  m.limit <|> if env.searchTime = 0 then none else some env.searchTime

/-- What a run asks, where a match needs the conditions `entry` to begin. -/
def query (m : Machine P) (env : Environment) (input : Input) (anchor : Anchor)
    (entry : Conditions) : Query :=
  { input, anchor, kind := m.kind, width := m.width, entry, lead := P.literal.chars
    limit := m.timeLimit env, clock := env.clock }

/-- The answer of a run, given how the search has ended. -/
def conclude (m : Machine P) : Ending P.size → Except Error Bool × Machine P
  | .settled space => (.ok space.verdict.found, { m with space := space.drain })
  | .overrun space => (.error .timeLimitOver, { m with space := space.drain })
  | .flawed flaw => (.error (.malformed flaw), { m with space := Workspace.fresh P.size m.width })

/-- Runs the program over a text from the offset `pos` on, and tells whether there is a match. -/
def tryMatch (m : Machine P) (env : Environment) (input : Input) (pos : Nat) (anchor : Anchor) :
    Except Error Bool × Machine P :=
  let space := m.space.reset m.width
  match P.entry? with
  | none => (.ok false, { m with space })
  | some entry =>
    if anchor ≠ .unanchored ∧ pos ≠ 0 then (.ok false, { m with space })
    else m.conclude (Search.run (m.query env input anchor entry) { pos, steps := 0, space })

theorem tryMatch_of_no_entry (h : P.entry? = none) (m : Machine P) (env : Environment)
    (input : Input) (pos : Nat) (anchor : Anchor) :
    m.tryMatch env input pos anchor = (.ok false, { m with space := m.space.reset m.width }) := by
  unfold tryMatch
  rw [h]

theorem tryMatch_of_anchored {anchor : Anchor} {pos : Nat} (h : anchor ≠ .unanchored ∧ pos ≠ 0)
    (m : Machine P) (env : Environment) (input : Input) :
    m.tryMatch env input pos anchor = (.ok false, { m with space := m.space.reset m.width }) := by
  unfold tryMatch
  cases P.entry? with
  | none => rfl
  | some entry => exact if_pos h

theorem tryMatch_of_entry {entry : Conditions} (hentry : P.entry? = some entry) {anchor : Anchor}
    {pos : Nat} (hanchor : ¬ (anchor ≠ .unanchored ∧ pos ≠ 0)) (m : Machine P) (env : Environment)
    (input : Input) :
    m.tryMatch env input pos anchor = m.conclude (Search.run (m.query env input anchor entry)
      { pos, steps := 0, space := m.space.reset m.width }) := by
  unfold tryMatch
  rw [hentry]
  simp only [if_neg hanchor]

/-- A run answers no at once, or as its search ends. -/
theorem tryMatch_cases (m : Machine P) (env : Environment) (input : Input) (pos : Nat)
    (anchor : Anchor) :
    m.tryMatch env input pos anchor = (.ok false, { m with space := m.space.reset m.width }) ∨
      ∃ entry, m.tryMatch env input pos anchor =
        m.conclude (Search.run (m.query env input anchor entry)
          { pos, steps := 0, space := m.space.reset m.width }) := by
  by_cases hanchor : anchor ≠ .unanchored ∧ pos ≠ 0
  · exact .inl (tryMatch_of_anchored hanchor m env input)
  · cases hentry : P.entry? with
    | none => exact .inl (tryMatch_of_no_entry hentry m env input pos anchor)
    | some entry => exact .inr ⟨entry, tryMatch_of_entry hentry hanchor m env input⟩

@[simp] theorem kind_track (m : Machine P) (count : Nat) : (m.track count).kind = m.kind := by
  unfold track
  simp only
  split <;> rfl

@[simp] theorem limit_track (m : Machine P) (count : Nat) : (m.track count).limit = m.limit := by
  unfold track
  simp only
  split <;> rfl

@[simp] theorem width_track (m : Machine P) (count : Nat) :
    (m.track count).width = Slots.paired count := by
  unfold track
  simp only
  split
  · next h => exact h.symm
  · rfl

/-- A run leaves a machine for the same matches and with the same limit. -/
theorem settings_tryMatch (m : Machine P) (env : Environment) (input : Input) (pos : Nat)
    (anchor : Anchor) : (m.tryMatch env input pos anchor).2.kind = m.kind ∧
      (m.tryMatch env input pos anchor).2.limit = m.limit := by
  rcases m.tryMatch_cases env input pos anchor with hno | ⟨entry, hrun⟩
  · rw [hno]
    exact ⟨rfl, rfl⟩
  · rw [hrun]
    unfold conclude
    split <;> exact ⟨rfl, rfl⟩

/-- Runs the program over a text; a run that is broken off counts as no match. -/
def isMatch (m : Machine P) (env : Environment) (input : Input) (pos : Nat) (anchor : Anchor) :
    Bool × Machine P :=
  match m.tryMatch env input pos anchor with
  | (.ok found, m) => (found, m)
  | (.error _, m) => (false, m)

end Machine

end Lockstep
