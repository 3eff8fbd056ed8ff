import Lockstep.Expr.Assembly
import Lockstep.Machine
import Lockstep.Regex.Captures

/-!
# Regular expressions that are ready for use

A `Regex` is a program together with the machines that have run it before. A search takes one of
these machines, or a new one if all are in use, and puts it back.

- `Regex.Options`, `Regex.ofExpr`, `Regex.ofProgram`: how to get one.
- `Regex.isMatch`, `Regex.tryIsMatch`: whether there is a match in a string.
- `Regex.find`, `Regex.findAt`, `Regex.captures`, `Regex.findAll`: the first match, from the start
  or from some offset on; the first match with its groups; all matches.
- `Regex.isMatchUtf16`, `Regex.findUtf16`: the same for text in 16-bit units.

Every search gives the answer together with the `Regex` to be used from then on. Where all matches
are one and the same sequence of characters, some searches look for that sequence and need no
machine.
-/

namespace Lockstep

/-- A program that is ready to be run, again and again. -/
structure Regex where
  /-- The program. -/
  program : Program
  /-- Which match is wanted. -/
  kind : MatchKind
  /-- The time that a search may take, in milliseconds, whatever holds for everyone. -/
  limit : Option Nat
  /-- The machines that are not in use. -/
  idle : List (Machine program)

namespace Regex

/-- What can be chosen when an expression is compiled. -/
structure Options where
  /-- Which match is wanted. -/
  kind : MatchKind := .leftmostFirst
  /-- The time that a search may take, in milliseconds, whatever holds for everyone. -/
  timeLimit : Option Nat := none
  /-- The most instructions that the program may have, whatever holds for everyone. -/
  sizeLimit : Option Nat := none

/-- A finished program, made ready for use. -/
def ofProgram (P : Program) (kind : MatchKind) : Regex :=
  { program := P, kind, limit := none, idle := [] }

/-- An expression, made ready for use. -/
def ofExpr (env : Environment) (e : Expr) (options : Options) : Except Error Regex := do
  let P ← e.compile (options.sizeLimit.getD env.programSize)
  return { ofProgram P options.kind with limit := options.timeLimit }

/-- How many groups there are, without the whole match. -/
def groupCount (re : Regex) : Nat := re.program.slotCount / 2 - 1

/-- A short description: the kind of match and the size of the program. -/
def summary (re : Regex) : String :=
  let kind := match re.kind with
    | .leftmostFirst => "LeftmostFirst"
    | .leftmostLongest => "LeftmostLongest"
  "Regex \x7b kind: " ++ kind ++ ", num_inst: " ++ toString re.program.size ++ ", .. \x7d"

/-! ## Running a machine -/

/-- Runs a machine that fills `width` slots over a text from `pos` on; gives the slots of the
match, if there is one. -/
def run (re : Regex) (env : Environment) (text : Text) (pos width : Nat) :
    Except Error (Option Slots) × Regex :=
  let (m, idle) := match re.idle with
    | m :: idle => (m, idle)
    | [] => ((Machine.new re.program re.kind).setLimit re.limit, [])
  let (result, m) := (m.track width).tryMatch env { text } pos .unanchored
  (result.map fun found => if found then some m.submatches else none, { re with idle := m :: idle })

/-- Where all matches are one and the same sequence of characters, the next place where it stands
from `start` on; `none` where a machine has to be run. -/
def literalSpan? (re : Regex) (text : Text) (start : Nat) : Option (Option (Nat × Nat)) :=
  let lit := re.program.literal
  if lit.complete ∧ re.program.entry?.isSome ∧ start ≤ text.endPos then
    some ((text.find? lit.chars start).map fun i => (i, i + lit.text.utf8ByteSize))
  else
    none

/-- The first match from the offset `start` on, as a pair of offsets; nothing if `start` is past
the end or inside a character, or if the time is up. -/
def spanAt (re : Regex) (env : Environment) (text : String) (start : Nat) :
    Option (Nat × Nat) × Regex :=
  if ¬ String.Pos.Raw.isValid text ⟨start⟩ then (none, re)
  else
    match re.literalSpan? (Text.ofString text) start with
    | some found => (found, re)
    | none =>
      let (result, re) := re.run env (Text.ofString text) start 2
      (span? result, re)
where
  /-- The two offsets of a match. -/
  span? (result : Except Error (Option Slots)) : Option (Nat × Nat) := do
    let slots ← result.toOption.join
    return (← slots.start?, ← slots.stop?)

/-! ## Searching strings -/

/-- Whether there is a match, or that the time is up. -/
def tryIsMatch (re : Regex) (env : Environment) (text : String) : Except Error Bool × Regex :=
  match re.literalSpan? (Text.ofString text) 0 with
  | some found => (.ok found.isSome, re)
  | none =>
    let (result, re) := re.run env (Text.ofString text) 0 0
    (result.map Option.isSome, re)

/-- Whether there is a match; there is none if the time is up. -/
def isMatch (re : Regex) (env : Environment) (text : String) : Bool × Regex :=
  let (result, re) := re.tryIsMatch env text
  (result.toOption.getD false, re)

/-- The first match that starts at the offset `start` or behind it. What lies before `start` still
counts as the text before the match. -/
def findAt (re : Regex) (env : Environment) (text : String) (start : Nat) : Option Match × Regex :=
  let (span, re) := re.spanAt env text start
  (span.map fun (start, stop) => { text, start, stop }, re)

/-- The first match. -/
def find (re : Regex) (env : Environment) (text : String) : Option Match × Regex :=
  re.findAt env text 0

/-- The first match with its groups. -/
def captures (re : Regex) (env : Environment) (text : String) : Option Captures × Regex :=
  let (result, re) := re.run env (Text.ofString text) 0 re.program.slotCount
  (result.toOption.join.map fun slots => { text, slots }, re)

/-- The offset behind the character at `pos`, or past the end if there is none. -/
def behindChar (text : String) (pos : Nat) : Nat :=
  pos + max 1 ((Text.ofString text).widthAt pos)

/-- Where the search for the next match begins. -/
def resume (text : String) (start stop : Nat) : Nat :=
  if start = stop then behindChar text stop else stop

/-- All matches from the offset `pos` on, each starting where the one before it ends or behind
that. An empty match is passed over where the match before it ends. The search goes on only if it
gets on, which it always does: a match that is found neither starts before `pos` nor ends before it
starts. -/
def findAllFrom (re : Regex) (env : Environment) (text : String) (pos : Nat)
    (previous : Option Nat) : List Match × Regex :=
  if _hpos : pos ≤ text.utf8ByteSize then
    match re.spanAt env text pos with
    | (none, re) => ([], re)
    | (some (start, stop), re) =>
      if _hnext : pos < resume text start stop then
        if start = stop ∧ previous = some stop then
          findAllFrom re env text (resume text start stop) previous
        else
          let (rest, re) := findAllFrom re env text (resume text start stop) (some stop)
          ({ text, start, stop } :: rest, re)
      else
        ([], re)
  else
    ([], re)
termination_by text.utf8ByteSize + 1 - pos

section FindAllFrom

variable {re re' : Regex} {env : Environment} {text : String} {pos start stop : Nat}
  {previous : Option Nat}

theorem findAllFrom_of_lt (h : text.utf8ByteSize < pos) :
    re.findAllFrom env text pos previous = ([], re) := by
  rw [findAllFrom, dif_neg (Nat.not_le_of_lt h)]

theorem findAllFrom_of_none (hpos : pos ≤ text.utf8ByteSize)
    (h : re.spanAt env text pos = (none, re')) :
    re.findAllFrom env text pos previous = ([], re') := by
  rw [findAllFrom, dif_pos hpos, h]

theorem findAllFrom_of_some (hpos : pos ≤ text.utf8ByteSize)
    (h : re.spanAt env text pos = (some (start, stop), re')) :
    re.findAllFrom env text pos previous =
      if pos < resume text start stop then
        if start = stop ∧ previous = some stop then
          re'.findAllFrom env text (resume text start stop) previous
        else
          ({ text, start, stop } ::
              (re'.findAllFrom env text (resume text start stop) (some stop)).1,
            (re'.findAllFrom env text (resume text start stop) (some stop)).2)
      else
        ([], re') := by
  rw [findAllFrom, dif_pos hpos, h]
  rfl

end FindAllFrom

/-- All matches that do not overlap, from left to right. -/
def findAll (re : Regex) (env : Environment) (text : String) : List Match × Regex :=
  re.findAllFrom env text 0 none

/-! ## Searching 16-bit units -/

/-- Whether there is a match; there is none if the time is up. -/
def isMatchUtf16 (re : Regex) (env : Environment) (units : Array UInt16) : Bool × Regex :=
  let (result, re) := re.run env (.utf16 units) 0 0
  (result.toOption.join.isSome, re)

/-- The first match, as a pair of offsets. -/
def findUtf16 (re : Regex) (env : Environment) (units : Array UInt16) :
    Option (Nat × Nat) × Regex :=
  let (result, re) := re.run env (.utf16 units) 0 2
  (spanAt.span? result, re)

end Regex

end Lockstep
