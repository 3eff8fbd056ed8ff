import Lockstep.Proofs.Counterparts
import Lockstep.Proofs.Presence
import Lockstep.Proofs.Spelling
import Lockstep.Regex
import Mathlib

/-!
# All searches of a regular expression agree

A `Regex` answers some questions without running a machine, and for others it runs one that keeps
just the slots that are asked for. Whichever way it takes, the answers are about the same match.

- `Regex.Reachable`: a `Regex` from an expression, after any calls.
- `Regex.Sound`: its program is that of an expression, and its machines run that program.
- `Regex.Sound.run_eq_reference`, `Regex.Sound.isSome_run`: what a run answers.
- `Regex.Sound.spanAt_eq`: looking for characters answers the same.
- `Regex.searches_agree`: the answers of all searches.
-/

namespace Lockstep

namespace Regex

/-! ## Between two calls -/

/-- The values of `Regex` that calls lead to, starting from an expression. -/
inductive Reachable : Regex → Prop where
  | ofExpr {env : Environment} {e : Expr} {options : Options} {re : Regex}
      (h : ofExpr env e options = .ok re) : Reachable re
  | tryIsMatch {re : Regex} (h : Reachable re) (env : Environment) (text : String) :
      Reachable (re.tryIsMatch env text).2
  | isMatch {re : Regex} (h : Reachable re) (env : Environment) (text : String) :
      Reachable (re.isMatch env text).2
  | findAt {re : Regex} (h : Reachable re) (env : Environment) (text : String) (start : Nat) :
      Reachable (re.findAt env text start).2
  | find {re : Regex} (h : Reachable re) (env : Environment) (text : String) :
      Reachable (re.find env text).2
  | captures {re : Regex} (h : Reachable re) (env : Environment) (text : String) :
      Reachable (re.captures env text).2
  | findAll {re : Regex} (h : Reachable re) (env : Environment) (text : String) :
      Reachable (re.findAll env text).2
  | isMatchUtf16 {re : Regex} (h : Reachable re) (env : Environment) (units : Array UInt16) :
      Reachable (re.isMatchUtf16 env units).2
  | findUtf16 {re : Regex} (h : Reachable re) (env : Environment) (units : Array UInt16) :
      Reachable (re.findUtf16 env units).2

/-- The program is that of an expression, and the machines that are not in use run it as the `Regex`
says. -/
structure Sound (re : Regex) : Prop where
  compiled : ∃ (e : Expr) (limit : Nat), e.compile limit = .ok re.program
  idle : ∀ m ∈ re.idle, m.Reachable ∧ m.kind = re.kind ∧ m.limit = re.limit

theorem sound_of_ofExpr {env : Environment} {e : Expr} {options : Options} {re : Regex}
    (h : ofExpr env e options = .ok re) : re.Sound := by
  unfold ofExpr at h
  cases hcompile : e.compile (options.sizeLimit.getD env.programSize) with
  | error flaw =>
    rw [hcompile] at h
    cases h
  | ok P =>
    rw [hcompile] at h
    cases h
    exact ⟨⟨e, _, hcompile⟩, fun m hm => absurd hm List.not_mem_nil⟩

/-- A run takes a machine that is not in use, or a new one, and puts it back. -/
theorem exists_run_eq (re : Regex) (env : Environment) (text : Text) (pos width : Nat) :
    ∃ (m : Machine re.program) (idle : List (Machine re.program)),
      (m ∈ re.idle ∨ m = (Machine.new re.program re.kind).setLimit re.limit) ∧
      (∀ m ∈ idle, m ∈ re.idle) ∧
      re.run env text pos width =
        (((m.track width).tryMatch env { text } pos .unanchored).1.map fun found =>
            if found then
              some ((m.track width).tryMatch env { text } pos .unanchored).2.submatches
            else none,
          { re with
            idle := ((m.track width).tryMatch env { text } pos .unanchored).2 :: idle }) := by
  unfold run
  cases hidle : re.idle with
  | nil => exact ⟨_, [], .inr rfl, fun _ hm => hm, rfl⟩
  | cons m idle => exact ⟨m, idle, .inl List.mem_cons_self, fun _ => List.mem_cons_of_mem _, rfl⟩

/-- A run is a run of some machine, which is not in use or new. -/
theorem Sound.exists_run {re : Regex} (h : re.Sound) (env : Environment) (text : Text)
    (pos width : Nat) : (re.run env text pos width).2.Sound ∧
      ∃ m : Machine re.program, m.Reachable ∧ m.kind = re.kind ∧ m.limit = re.limit ∧
        m.width = Slots.paired width ∧
        (re.run env text pos width).1 = (m.tryMatch env { text } pos .unanchored).1.map
          fun found => if found then some (m.tryMatch env { text } pos .unanchored).2.submatches
            else none := by
  obtain ⟨m, idle, hm, hidle, hrun⟩ := re.exists_run_eq env text pos width
  obtain ⟨hreach, hkind, hlimit⟩ : m.Reachable ∧ m.kind = re.kind ∧ m.limit = re.limit := by
    rcases hm with hm | rfl
    · exact h.idle m hm
    · exact ⟨.setLimit (.new re.kind) re.limit, rfl, rfl⟩
  rw [hrun]
  refine ⟨⟨h.compiled, ?_⟩, m.track width, .track hreach width, ?_, ?_, ?_, rfl⟩
  · intro m' hm'
    rcases List.mem_cons.mp hm' with rfl | hm'
    · obtain ⟨hkind', hlimit'⟩ :=
        (m.track width).settings_tryMatch env { text } pos .unanchored
      refine ⟨.tryMatch (.track hreach width) env { text } pos .unanchored, ?_, ?_⟩
      · rw [hkind', Machine.kind_track, hkind]
      · rw [hlimit', Machine.limit_track, hlimit]
    · exact h.idle m' (hidle m' hm')
  · rw [Machine.kind_track, hkind]
  · rw [Machine.limit_track, hlimit]
  · exact Machine.width_track m width

theorem Sound.run {re : Regex} (h : re.Sound) (env : Environment) (text : Text) (pos width : Nat) :
    (re.run env text pos width).2.Sound :=
  (h.exists_run env text pos width).1

theorem Sound.spanAt {re : Regex} (h : re.Sound) (env : Environment) (text : String) (start : Nat) :
    (re.spanAt env text start).2.Sound := by
  unfold Regex.spanAt
  split
  · exact h
  · split
    · exact h
    · exact h.run env (Text.ofString text) start 2

theorem Sound.tryIsMatch {re : Regex} (h : re.Sound) (env : Environment) (text : String) :
    (re.tryIsMatch env text).2.Sound := by
  unfold Regex.tryIsMatch
  split
  · exact h
  · exact h.run env (Text.ofString text) 0 0

theorem Sound.findAllFrom {re : Regex} (h : re.Sound) (env : Environment) (text : String)
    (pos : Nat) (previous : Option Nat) : (re.findAllFrom env text pos previous).2.Sound := by
  have hspan : ∀ {re re' : Regex} {pos : Nat} {found : Option (Nat × Nat)}, re.Sound →
      re.spanAt env text pos = (found, re') → re'.Sound := by
    intro re re' pos found h heq
    have hsound := h.spanAt env text pos
    rwa [heq] at hsound
  fun_induction Regex.findAllFrom re env text pos previous with
  | case1 re pos previous hpos re' heq => exact hspan h heq
  | case2 re pos previous hpos start stop re' heq hnext hempty ih => exact ih (hspan h heq)
  | case3 re pos previous hpos start stop re' heq hnext hempty rest re'' hrest ih =>
    have hsound := ih (hspan h heq)
    rw [hrest] at hsound
    exact hsound
  | case4 re pos previous hpos start stop re' heq hnext => exact hspan h heq
  | case5 re pos previous hpos => exact h

/-- **Between two calls** a `Regex` is sound. -/
theorem Reachable.sound {re : Regex} (h : re.Reachable) : re.Sound := by
  induction h with
  | ofExpr h => exact sound_of_ofExpr h
  | tryIsMatch _ env text ih => exact ih.tryIsMatch env text
  | isMatch _ env text ih => exact ih.tryIsMatch env text
  | findAt _ env text start ih => exact ih.spanAt env text start
  | find _ env text ih => exact ih.spanAt env text 0
  | @captures re _ env text ih => exact ih.run env (Text.ofString text) 0 re.program.slotCount
  | findAll _ env text ih => exact ih.findAllFrom env text 0 none
  | isMatchUtf16 _ env units ih => exact ih.run env (.utf16 units) 0 0
  | findUtf16 _ env units ih => exact ih.run env (.utf16 units) 0 2

/-! ## What a run answers -/

/-- What a run from anywhere on is asked, where `width` slots are kept. -/
abbrev task (re : Regex) (text : Text) (width : Nat) : Task :=
  { text, anchor := .unanchored, kind := re.kind, width }

section Answers

variable {re : Regex} {env : Environment} {text : Text} {pos : text.Offset} {width : Nat}

theorem Sound.sparesMatch (h : re.Sound) : re.program.SparesMatch := by
  obtain ⟨e, limit, hcompile⟩ := h.compiled
  obtain ⟨Q, hflat, -, hspare⟩ := Program.exists_of_compile hcompile
  rw [hflat]
  exact hspare.flatten

/-- Without a limit on its time a run answers as the outcome says. -/
theorem Sound.run_eq_outcome (h : re.Sound) (hlimit : re.limit = none)
    (hsearch : env.searchTime = 0) {kept : Nat} (hkept : Slots.paired width = kept) :
    let outcome := re.program.outcome (re.task text kept) pos [] (Verdict.pending kept)
    (re.run env text pos width).1 =
      .ok (if outcome.found then some (outcome.submatches kept) else none) := by
  obtain ⟨-, m, hm, hkind, hmlimit, hmwidth, hrun⟩ := h.exists_run env text pos width
  have htime : m.timeLimit env = none := by
    rw [Machine.timeLimit, hmlimit, hlimit, if_pos hsearch]
    rfl
  obtain ⟨hanswer, hslots⟩ :=
    Machine.tryMatch_eq_outcome hm htime { text } .unanchored pos (re.program.skips _ _)
  have houtcome : m.outcome text .unanchored pos =
      re.program.outcome (re.task text kept) pos [] (Verdict.pending kept) := by
    obtain ⟨kind, w, limit, space⟩ := m
    obtain rfl : kind = re.kind := hkind
    obtain rfl : w = kept := hmwidth.trans hkept
    rfl
  rw [hrun, hanswer, hslots, houtcome, hmwidth, hkept]
  rfl

/-- A run that keeps the slots of the match answers with what a depth-first search finds. -/
theorem Sound.run_eq_reference (h : re.Sound) (text : Text) (pos : text.Offset)
    (hlimit : re.limit = none) (hsearch : env.searchTime = 0) {kept : Nat}
    (hkept : Slots.paired width = kept) (hwidth : 2 ≤ kept) :
    (re.run env text pos width).1 = .ok (re.program.reference (re.task text kept) pos) := by
  have houtcome : re.program.outcome (re.task text kept) pos [] (Verdict.pending kept) =
      (Verdict.pending kept).take (re.program.reference (re.task text kept) pos) :=
    Program.outcome_eq_reference (re.task text kept) h.sparesMatch hwidth pos
  rw [h.run_eq_outcome hlimit hsearch hkept, houtcome]
  cases re.program.reference (re.task text kept) pos <;> rfl

/-- **Whether there is a match** does not depend on how many slots a run keeps. -/
theorem Sound.isSome_run (h : re.Sound) (text : Text) (pos : text.Offset)
    (hlimit : re.limit = none) (hsearch : env.searchTime = 0) (width : Nat) :
    (re.run env text pos width).1.map Option.isSome =
      .ok (re.program.reference (re.task text 2) pos).isSome := by
  have hfound : (re.program.outcome (re.task text (Slots.paired width)) pos []
      (Verdict.pending (Slots.paired width))).found =
        (re.program.reference (re.task text 2) pos).isSome :=
    Program.found_outcome_eq (re.task text 2) _ rfl
  rw [h.run_eq_outcome hlimit hsearch rfl, hfound]
  cases (re.program.reference (re.task text 2) pos).isSome <;> rfl

/-! ## The two ends of the match -/

theorem span?_ok (wanted : Option Slots) : spanAt.span? (.ok wanted) =
    (wanted.map fun slots => (slots.start?, slots.stop?)).bind fun ends => do
      return (← ends.1, ← ends.2) := by
  cases wanted <;> rfl

/-- The two ends of matches whose slots correspond do so, too. -/
theorem rel_span? {T : Nat → Nat → Prop} {wanted wanted' : Option Slots}
    (h : Option.Rel (Slots.Correspond 2 T) wanted wanted') :
    Option.Rel (fun ends ends' => T ends.1 ends'.1 ∧ T ends.2 ends'.2)
      (spanAt.span? (.ok wanted)) (spanAt.span? (.ok wanted')) := by
  rw [span?_ok, span?_ok]
  cases h with
  | none => exact .none
  | @some slots slots' hslots =>
    obtain ⟨hleft, hright⟩ := hslots.start?_stop?
    rw [Option.map_some, Option.map_some, Option.bind_some, Option.bind_some]
    generalize slots.start? = left, slots'.start? = left' at hleft
    generalize slots.stop? = right, slots'.stop? = right' at hright
    cases hleft with
    | none => exact .none
    | some hleft =>
      cases hright with
      | none => exact .none
      | some hright => exact .some ⟨hleft, hright⟩

/-- Whether a match is found, and what its two ends are, does not depend on how many slots are
kept. -/
theorem reference_width (re : Regex) {kept : Nat} (hkept : 2 ≤ kept) :
    (re.program.reference (re.task text kept) pos).isSome =
        (re.program.reference (re.task text 2) pos).isSome ∧
      spanAt.span? (.ok (re.program.reference (re.task text kept) pos)) =
        spanAt.span? (.ok (re.program.reference (re.task text 2) pos)) := by
  have hrel : Option.Rel (Slots.Correspond 2 Eq) (re.program.reference (re.task text 2) pos)
      (re.program.reference (re.task text kept) pos) :=
    ((re.task text 2).counterparts_width (le_refl 2) hkept).reference rfl
  refine ⟨?_, ?_⟩
  · generalize re.program.reference (re.task text 2) pos = wanted,
      re.program.reference (re.task text kept) pos = wanted' at hrel
    cases hrel <;> rfl
  · have hends := rel_span? hrel
    generalize spanAt.span? (.ok (re.program.reference (re.task text 2) pos)) = ends,
      spanAt.span? (.ok (re.program.reference (re.task text kept) pos)) = ends' at hends
    cases hends with
    | none => rfl
    | some heq => rw [Prod.ext heq.1 heq.2]

/-- A match that is found has two ends. -/
theorem Sound.isSome_span? (h : re.Sound) :
    (spanAt.span? (.ok (re.program.reference (re.task text 2) pos))).isSome =
      (re.program.reference (re.task text 2) pos).isSome := by
  cases hwanted : re.program.reference (re.task text 2) pos with
  | none => rfl
  | some slots =>
    obtain ⟨i, -, j, -, hleft, hright, -, -⟩ :=
      Program.exists_explored_of_reference h.sparesMatch (le_refl 2) hwanted
    rw [span?_ok, Option.map_some, hleft, hright]
    rfl

end Answers

section Strings

variable {re : Regex} {env : Environment} {s : String}

/-- What is said of a literal that is all of a match is said of its search for characters. -/
theorem literalSpan?_eq_some {text : Text} {start : Nat} {found : Option (Nat × Nat)}
    (h : re.literalSpan? text start = some found) : re.program.literal.complete = true ∧
      found = (text.find? re.program.literal.chars start).map fun i =>
        (i, i + re.program.literal.text.utf8ByteSize) := by
  unfold literalSpan? at h
  simp only at h
  split at h
  · next hcond => exact ⟨hcond.1, (Option.some.inj h).symm⟩
  · cases h

/-- **Looking for characters** answers what a run answers. -/
theorem Sound.literalSpan?_eq (h : re.Sound) (start : (Text.ofString s).Offset)
    (hvalid : String.Pos.Raw.isValid s ⟨start⟩ = true) {found : Option (Nat × Nat)}
    (hfound : re.literalSpan? (Text.ofString s) start = some found) : found =
      spanAt.span? (.ok (re.program.reference (re.task (Text.ofString s) 2) start)) := by
  obtain ⟨hcomplete, rfl⟩ := literalSpan?_eq_some hfound
  have hreference := Program.reference_of_complete re.kind h.sparesMatch hcomplete
    (le_refl 2) hvalid
  rw [span?_ok]
  refine Eq.trans ?_ (congrArg (Option.bind · _) hreference.symm)
  cases (Text.ofString s).find? re.program.literal.chars start <;> rfl

theorem Sound.spanAt_eq (h : re.Sound) (start : (Text.ofString s).Offset)
    (hlimit : re.limit = none) (hsearch : env.searchTime = 0)
    (hvalid : String.Pos.Raw.isValid s ⟨start⟩ = true) :
    (re.spanAt env s start).1 =
      spanAt.span? (.ok (re.program.reference (re.task (Text.ofString s) 2) start)) := by
  unfold Regex.spanAt
  rw [if_neg (not_not_intro hvalid)]
  cases hfound : re.literalSpan? (Text.ofString s) start with
  | some found => exact h.literalSpan?_eq start hvalid hfound
  | none =>
    have hkept : Slots.paired 2 = 2 := rfl
    show spanAt.span? (re.run env (Text.ofString s) start 2).1 = _
    rw [h.run_eq_reference _ start hlimit hsearch hkept (le_refl 2)]

theorem Sound.tryIsMatch_eq (h : re.Sound) (hlimit : re.limit = none)
    (hsearch : env.searchTime = 0) : (re.tryIsMatch env s).1 =
      .ok (re.program.reference (re.task (Text.ofString s) 2) 0).isSome := by
  unfold Regex.tryIsMatch
  cases hfound : re.literalSpan? (Text.ofString s) 0 with
  | some found =>
    have hspan := h.literalSpan?_eq 0 (by simp) hfound
    show Except.ok found.isSome = _
    rw [hspan, h.isSome_span?]
  | none =>
    show (re.run env (Text.ofString s) 0 0).1.map Option.isSome = _
    exact h.isSome_run (Text.ofString s) 0 hlimit hsearch 0

theorem Sound.isMatch_eq (h : re.Sound) (hlimit : re.limit = none) (hsearch : env.searchTime = 0) :
    (re.isMatch env s).1 = (re.program.reference (re.task (Text.ofString s) 2) 0).isSome := by
  show (re.tryIsMatch env s).1.toOption.getD false = _
  rw [h.tryIsMatch_eq hlimit hsearch]
  rfl

theorem Sound.find_eq (h : re.Sound) (hlimit : re.limit = none) (hsearch : env.searchTime = 0) :
    (re.find env s).1 =
      (spanAt.span? (.ok (re.program.reference (re.task (Text.ofString s) 2) 0))).map
        fun (start, stop) => { text := s, start, stop } :=
  congrArg (Option.map _) (h.spanAt_eq 0 hlimit hsearch (by simp))

theorem Sound.captures_eq (h : re.Sound) (hlimit : re.limit = none) (hsearch : env.searchTime = 0) :
    ∃ kept, 2 ≤ kept ∧ (re.captures env s).1 =
      (re.program.reference (re.task (Text.ofString s) kept) 0).map
        fun slots => { text := s, slots } := by
  have hkept : 2 ≤ Slots.paired re.program.slotCount := by
    rw [re.program.paired_slotCount]
    exact re.program.two_le_slotCount
  have hrun : (re.run env (Text.ofString s) 0 re.program.slotCount).1 = _ :=
    h.run_eq_reference _ 0 hlimit hsearch rfl hkept
  refine ⟨_, hkept, ?_⟩
  show Option.map _ (re.run env (Text.ofString s) 0 re.program.slotCount).1.toOption.join = _
  rw [hrun]
  rfl

/-- A machine that keeps two slots reports the span that a search finds. -/
theorem Sound.findAt_eq_tryMatch (h : re.Sound) (hlimit : re.limit = none)
    (hsearch : env.searchTime = 0) {start : Nat}
    (hvalid : String.Pos.Raw.isValid s ⟨start⟩ = true) {m : Machine re.program}
    (hm : m.Reachable) (hkind : m.kind = re.kind) (htime : m.timeLimit env = none)
    (hwidth : m.width = 2) (searchable : Bool) :
    let answer := m.tryMatch env { text := Text.ofString s, searchable } start .unanchored
    (answer.1 = .ok false ∧ (re.findAt env s start).1 = none) ∨
      ∃ i j, answer.1 = .ok true ∧ answer.2.submatches.start? = some i ∧
        answer.2.submatches.stop? = some j ∧
        (re.findAt env s start).1 = some { text := s, start := i, stop := j } := by
  intro answer
  let pos : (Text.ofString s).Offset :=
    ⟨start, Nat.lt_succ_of_le (Text.le_endPos_of_isValid hvalid)⟩
  have hfind : (re.findAt env s start).1 = _ :=
    congrArg (Option.map _) (h.spanAt_eq pos hlimit hsearch hvalid)
  obtain ⟨hanswer, hslots⟩ := Machine.tryMatch_eq_outcome hm htime
    { text := Text.ofString s, searchable } .unanchored pos (re.program.skips _ _)
  have houtcome : m.outcome (Text.ofString s) .unanchored pos = (Verdict.pending m.width).take
      (re.program.reference (re.task (Text.ofString s) 2) pos) := by
    obtain ⟨kind, width, limit, space⟩ := m
    obtain rfl : kind = re.kind := hkind
    obtain rfl : width = 2 := hwidth
    exact Program.outcome_eq_reference (re.task (Text.ofString s) 2) h.sparesMatch
      (le_refl 2) pos
  rw [houtcome] at hanswer hslots
  rw [Verdict.found_take_pending] at hanswer
  rw [Verdict.submatches_take_pending] at hslots
  cases hwanted : re.program.reference (re.task (Text.ofString s) 2) pos with
  | none =>
    rw [hwanted] at hanswer hfind
    exact .inl ⟨hanswer, hfind⟩
  | some slots =>
    rw [hwanted] at hanswer hslots hfind
    obtain ⟨i, -, j, -, hleft, hright, -, -⟩ :=
      Program.exists_explored_of_reference h.sparesMatch (le_refl 2) hwanted
    rw [span?_ok, Option.map_some, hleft, hright] at hfind
    refine .inr ⟨i, j, hanswer, ?_, ?_, hfind⟩
    · exact (congrArg Slots.start? hslots).trans hleft
    · exact (congrArg Slots.stop? hslots).trans hright

end Strings

section Units

variable {re : Regex} {env : Environment} {units : Array UInt16}

theorem Sound.isMatchUtf16_eq (h : re.Sound) (hlimit : re.limit = none)
    (hsearch : env.searchTime = 0) : (re.isMatchUtf16 env units).1 =
      (re.program.reference (re.task (.utf16 units) 2) 0).isSome := by
  have hjoin : ∀ (result : Except Error (Option Slots)) (answer : Bool),
      result.map Option.isSome = .ok answer → result.toOption.join.isSome = answer := by
    intro result answer hresult
    cases result with
    | error flaw => cases hresult
    | ok found => exact Except.ok.inj hresult
  exact hjoin _ _ (h.isSome_run (.utf16 units) 0 hlimit hsearch 0)

theorem Sound.findUtf16_eq (h : re.Sound) (hlimit : re.limit = none)
    (hsearch : env.searchTime = 0) : (re.findUtf16 env units).1 =
      spanAt.span? (.ok (re.program.reference (re.task (.utf16 units) 2) 0)) :=
  congrArg spanAt.span? (h.run_eq_reference (.utf16 units) 0 hlimit hsearch rfl (le_refl 2))

end Units

/-- Group 0 is the whole match. -/
theorem get?_zero (text : String) (wanted : Option Slots) :
    (wanted.map fun slots => ({ text, slots } : Captures)).bind (·.get? 0) =
      (spanAt.span? (.ok wanted)).map fun (start, stop) => { text, start, stop } := by
  cases wanted with
  | none => rfl
  | some slots =>
    rw [span?_ok]
    show (do return { text, start := ← slots.start?, stop := ← slots.stop? } : Option Match) = _
    cases hleft : slots.start? <;> cases hright : slots.stop? <;> simp [hleft, hright]

/-- **All searches agree.** A search from some offset on finds the span that a machine with two
slots reports, also if it looks for characters instead; and searches that ask whether there is a
match, where it is, or what its groups are find the same match. -/
theorem searches_agree {re : Regex} (h : re.Reachable) (hlimit : re.limit = none)
    {env : Environment} (hsearch : env.searchTime = 0) (text : String) :
    (∀ start : Nat, String.Pos.Raw.isValid text ⟨start⟩ = true →
      ∀ m : Machine re.program, m.Reachable → m.kind = re.kind → m.timeLimit env = none →
      m.width = 2 → ∀ searchable : Bool,
      let answer := m.tryMatch env { text := Text.ofString text, searchable } start .unanchored
      (answer.1 = .ok false ∧ (re.findAt env text start).1 = none) ∨
        ∃ i j, answer.1 = .ok true ∧ answer.2.submatches.start? = some i ∧
          answer.2.submatches.stop? = some j ∧
          (re.findAt env text start).1 = some { text, start := i, stop := j }) ∧
    (re.isMatch env text).1 = (re.find env text).1.isSome ∧
    (re.captures env text).1.isSome = (re.find env text).1.isSome ∧
    (re.captures env text).1.bind (·.get? 0) = (re.find env text).1 := by
  have hsound := h.sound
  have hfind := hsound.find_eq (s := text) hlimit hsearch
  refine ⟨?_, ?_, ?_, ?_⟩
  · intro start hvalid m hm hkind htime hwidth searchable answer
    exact hsound.findAt_eq_tryMatch hlimit hsearch hvalid hm hkind htime hwidth searchable
  · rw [hsound.isMatch_eq hlimit hsearch, hfind, Option.isSome_map, hsound.isSome_span?]
  · obtain ⟨kept, hkept, hcaptures⟩ := hsound.captures_eq (s := text) hlimit hsearch
    rw [hcaptures, hfind, Option.isSome_map, Option.isSome_map, hsound.isSome_span?,
      (reference_width re hkept).1]
  · obtain ⟨kept, hkept, hcaptures⟩ := hsound.captures_eq (s := text) hlimit hsearch
    rw [hcaptures, get?_zero, (reference_width re hkept).2, hfind]

/-- Two letters in a group, behind another letter: they are looked for, or a machine is run that
starts behind the other letter. -/
theorem searches_agree_letters :
    let e : Expr := .group 1 (.text ['a', 'b'])
    let P : Program :=
      ⟨6, #v[.fail, .save 2 2, .consume (.single 0x61) 3, .consume (.single 0x62) 4, .save 3 5,
        .accept], 1⟩
    let re := ofProgram P .leftmostFirst
    let text := "éab"
    let answer := ((Machine.new P .leftmostFirst).track 2).tryMatch {}
      { text := Text.ofString text } 2 .unanchored
    ofExpr {} e {} = .ok re ∧ re.Reachable ∧ re.limit = none ∧
      String.Pos.Raw.isValid text ⟨2⟩ = true ∧
      ((answer.1 = .ok false ∧ (re.findAt {} text 2).1 = none) ∨
        ∃ i j, answer.1 = .ok true ∧ answer.2.submatches.start? = some i ∧
          answer.2.submatches.stop? = some j ∧
          (re.findAt {} text 2).1 = some { text, start := i, stop := j }) ∧
      (re.isMatch {} text).1 = (re.find {} text).1.isSome ∧
      (re.captures {} text).1.isSome = (re.find {} text).1.isSome ∧
      (re.captures {} text).1.bind (·.get? 0) = (re.find {} text).1 := by
  intro e P re text answer
  have hcompile : ofExpr {} e {} = .ok re := by cbv
  have hreach : re.Reachable := .ofExpr hcompile
  have hlimit : re.limit = none := rfl
  have hvalid : String.Pos.Raw.isValid text ⟨2⟩ = true := by cbv
  have hsearch : ({} : Environment).searchTime = 0 := rfl
  obtain ⟨hfind, hmatch, hcaptures, hgroup⟩ := searches_agree hreach hlimit hsearch text
  exact ⟨hcompile, hreach, hlimit, hvalid,
    hfind 2 hvalid _ (.track (.new .leftmostFirst) 2) rfl rfl rfl true, hmatch, hcaptures, hgroup⟩

end Regex

end Lockstep
