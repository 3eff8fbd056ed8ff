import Lockstep.Closure
import Lockstep.Error

/-!
# Sweeping the threads of one offset

At each offset the threads of a run list are taken up one after the other, the preferred one
first. A thread that reads the symbol at this offset goes on to the run list of the next one; a
thread that has come to the end of a match is compared with the best match so far.

- `MatchKind`, `Verdict`: which match is wanted, and the best one so far.
- `Moment`: what is the same for all threads of one offset.
- `Sweep`: the threads that have not been taken up, the run list of the next offset, and the
  verdict.
- `Sweep.step`, `Sweep.run`: one thread taken up, and all of them.
-/

namespace Lockstep

/-- Which match is wanted when there are several. -/
inductive MatchKind where
  /-- The leftmost match, and of those that start there the preferred one. -/
  | leftmostFirst
  /-- The leftmost match, and of those that start there the longest one. -/
  | leftmostLongest
  deriving DecidableEq, Repr, Inhabited

/-- The best match so far. -/
structure Verdict where
  /-- Whether there is any match. -/
  found : Bool
  /-- The slots of the match, if there is one and slots are kept at all. -/
  slots : Slots
  deriving DecidableEq, Repr

namespace Verdict

/-- No match yet. -/
def pending (width : Nat) : Verdict := ⟨false, Slots.unset width⟩

/-- The slots of the match; all of them are unset if there is none. -/
def submatches (v : Verdict) (width : Nat) : Slots := if v.found then v.slots else Slots.unset width

/-- Whether one offset is less than another; an unset one counts as greater than all others. -/
def offsetLt : Option Nat → Option Nat → Bool
  | some a, some b => a < b
  | some _, none => true
  | none, _ => false

/-- Whether the match so far starts further left than a thread did. -/
def startsBefore (v : Verdict) (slots : Slots) : Bool := offsetLt v.slots.start? slots.start?

/-- Whether a match that ends at `pos` starts further left than the match so far, or starts where
it does and ends further right. -/
def isBeatenBy (v : Verdict) (slots : Slots) (pos : Nat) : Bool :=
  offsetLt slots.start? v.slots.start? ||
    (slots.start? == v.slots.start? && offsetLt v.slots.stop? (some pos))

end Verdict

/-- What is the same for all threads of one offset. -/
structure Moment where
  /-- Which match is wanted. -/
  kind : MatchKind
  /-- How many slots are kept. -/
  width : Nat
  /-- The offset. -/
  pos : Nat
  /-- The symbol at the offset; none at the end of the text. -/
  symbol : Option Symbol
  /-- The offset behind the symbol. -/
  nextPos : Nat
  /-- The conditions that hold behind the symbol. -/
  nextCond : Conditions
  /-- Whether a match may end at the offset. -/
  mayEnd : Bool

namespace Moment

/-- Whether a thread is given up at once, since a match that starts further left was found. -/
def abandons (m : Moment) (v : Verdict) (slots : Slots) : Bool :=
  m.kind = .leftmostLongest && v.found && decide (0 < m.width) && v.startsBefore slots

/-- The verdict after a thread with these slots has come to the end of a match. -/
def judge (m : Moment) (v : Verdict) (slots : Slots) : Verdict :=
  if 0 < m.width ∧ (m.kind = .leftmostFirst ∨ v.found = false ∨ v.isBeatenBy slots m.pos) then
    ⟨true, slots.setIfInBounds 1 (some m.pos)⟩
  else
    { v with found := true }

end Moment

/-- A sweep under way. -/
structure Sweep (n : Nat) where
  /-- The threads that have not been taken up, the preferred one first. -/
  pending : List (Thread n)
  /-- The run list of the next offset. -/
  front : Front n
  /-- The best match so far. -/
  verdict : Verdict
  deriving DecidableEq, Repr

namespace Sweep

variable {P : Program}

/-- Takes up the thread `t`, where `s` is what the sweep would be without it. -/
def take (m : Moment) (s : Sweep P.size) (t : Thread P.size) : Except Flaw (Sweep P.size) :=
  let front := { s.front with work := s.front.work + 1 }
  if m.abandons s.verdict t.buffer.slots then
    .ok { s with front := front.release t.buffer }
  else
    match P.instr t.pc with
    | .accept =>
      if m.mayEnd then
        let verdict := m.judge s.verdict t.buffer.slots
        let front := front.release t.buffer
        match m.kind with
        | .leftmostFirst =>
          -- the threads behind this one are less preferred, and lose
          .ok
            { pending := []
              front := s.pending.foldl (fun front t => front.release t.buffer) front
              verdict }
        | .leftmostLongest => .ok { s with front, verdict }
      else
        .ok { s with front := front.release t.buffer }
    | .consume cls next =>
      if m.symbol.any cls.contains then
        .ok { s with front := front.explore m.nextPos m.nextCond next t.buffer }
      else
        .ok { s with front := front.release t.buffer }
    | .fork _ | .save _ _ | .assert _ _ | .jump _ | .fail => .error (.strayThread t.pc)

/-- Takes up the next thread, if there is one. -/
def step (m : Moment) (s : Sweep P.size) : Except Flaw (Sweep P.size) :=
  match s.pending with
  | [] => .ok s
  | t :: rest => take m { s with pending := rest } t

/-- Each thread that is taken up is one thread less to be taken up. -/
theorem length_pending_step {m : Moment} {s s' : Sweep P.size} (hne : s.pending ≠ [])
    (h : s.step m = .ok s') : s'.pending.length < s.pending.length := by
  obtain ⟨pending, front, verdict⟩ := s
  cases pending with
  | nil => exact absurd rfl hne
  | cons t rest =>
    simp only [step, take] at h
    grind

/-- Takes up all threads. -/
def run (m : Moment) (s : Sweep P.size) : Except Flaw (Sweep P.size) :=
  if _hne : s.pending = [] then .ok s
  else
    match _hs : s.step m with
    | .ok s' => run m s'
    | .error flaw => .error flaw
termination_by s.pending.length
decreasing_by exact length_pending_step ‹_› ‹_›

theorem run_of_pending_eq_nil {m : Moment} {s : Sweep P.size} (h : s.pending = []) :
    run m s = .ok s := by
  rw [run]
  simp [h]

theorem run_of_step {m : Moment} {s : Sweep P.size} (h : s.pending ≠ []) :
    run m s = s.step m >>= run m := by
  rw [run, dif_neg h]
  split
  · next heq => rw [heq]; rfl
  · next heq => rw [heq]; rfl

end Sweep

end Lockstep
