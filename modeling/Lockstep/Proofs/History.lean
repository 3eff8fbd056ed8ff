import Lockstep.Proofs.Methods
import Lockstep.Proofs.Savings

/-!
# Earlier calls leave no trace

A machine keeps its run lists and its buffers from one call to the next, and a `Regex` keeps the
machines that have run. None of this can be told from an answer: what a call answers is what it
answers on something new.

- `Machine.Idle.tryMatch_eq`: two machines between calls, set in the same way.
- `Regex.Alike`: two values of `Regex` that differ in the machines they keep.
- `Regex.Alike.run`, `Regex.Alike.findAllFrom`: they answer the same, and remain alike.
- `Regex.Follows`: what calls make of a `Regex`.
- `history_independence`: machines, and all searches.
-/

namespace Lockstep

/-! ## Machines -/

/-- Leaving no fork out saves nothing. -/
theorem Program.saves_self (P : Program) : P.Saves P := (Rewired.refl (P := P)).saves

/-- **Between calls** a machine is as good as any other that is set in the same way. -/
theorem Machine.Idle.tryMatch_eq {P : Program} {m m' : Machine P} (h : m.Idle) (h' : m'.Idle)
    (hkind : m'.kind = m.kind) (hwidth : m'.width = m.width) (hlimit : m'.limit = m.limit)
    (env : Environment) (input : Input) (pos : Nat) (anchor : Anchor) :
    (m'.tryMatch env input pos anchor).1 = (m.tryMatch env input pos anchor).1 ∧
      (m'.tryMatch env input pos anchor).2.submatches =
        (m.tryMatch env input pos anchor).2.submatches ∧
      (m'.tryMatch env input pos anchor).2.work = (m.tryMatch env input pos anchor).2.work := by
  have htime : m'.timeLimit env = m.timeLimit env := by
    rw [timeLimit, timeLimit, hlimit]
  obtain ⟨hanswer, hslots, hle⟩ :=
    P.saves_self m m' h h' hkind hwidth env htime input pos anchor
  -- each of the two machines takes no more work than the other
  obtain ⟨-, -, hge⟩ :=
    P.saves_self m' m h' h hkind.symm hwidth.symm env htime.symm input pos anchor
  exact ⟨hanswer, hslots, Nat.le_antisymm hle hge⟩

/-! ## Values of `Regex` -/

namespace Regex

/-- Two values of `Regex` differ in the machines that they keep, and nowhere else; and these are all
between two calls. -/
inductive Alike : Regex → Regex → Prop where
  | intro {P : Program} {kind : MatchKind} {limit : Option Nat} {idle idle' : List (Machine P)}
    (h : ∀ m ∈ idle, m.Idle ∧ m.kind = kind ∧ m.limit = limit)
    (h' : ∀ m ∈ idle', m.Idle ∧ m.kind = kind ∧ m.limit = limit) :
    Alike ⟨P, kind, limit, idle⟩ ⟨P, kind, limit, idle'⟩

namespace Alike

variable {re re' re'' : Regex}

theorem refl_of_idle_eq_nil (h : re.idle = []) : re.Alike re := by
  have hidle : ∀ m ∈ re.idle, m.Idle ∧ m.kind = re.kind ∧ m.limit = re.limit := by
    rw [h]
    exact fun m hm => absurd hm List.not_mem_nil
  exact .intro hidle hidle

theorem symm (h : re.Alike re') : re'.Alike re := by
  cases h with
  | intro h h' => exact .intro h' h

theorem trans (h : re.Alike re') (h' : re'.Alike re'') : re.Alike re'' := by
  cases h with
  | intro h _ =>
    cases h' with
    | intro _ h'' => exact .intro h h''

variable (env : Environment)

/-- **A run** answers the same, whichever machine it is that runs. -/
theorem run (h : re.Alike re') (text : Text) (pos width : Nat) :
    (re'.run env text pos width).1 = (re.run env text pos width).1 ∧
      re.Alike (re'.run env text pos width).2 := by
  cases h with
  | @intro P kind limit idle idle' h h' =>
    let re : Regex := ⟨P, kind, limit, idle⟩
    let re' : Regex := ⟨P, kind, limit, idle'⟩
    have hnew : ((Machine.new P kind).setLimit limit).Idle :=
      (Machine.idle_new P kind).setLimit limit
    obtain ⟨m, rest, hm, -, hrun⟩ := re.exists_run_eq env text pos width
    obtain ⟨m', rest', hm', hrest', hrun'⟩ := re'.exists_run_eq env text pos width
    have hset : m.Idle ∧ m.kind = kind ∧ m.limit = limit := by
      rcases hm with hm | rfl
      · exact h m hm
      · exact ⟨hnew, rfl, rfl⟩
    have hset' : m'.Idle ∧ m'.kind = kind ∧ m'.limit = limit := by
      rcases hm' with hm' | rfl
      · exact h' m' hm'
      · exact ⟨hnew, rfl, rfl⟩
    obtain ⟨hidle, hkind, hlimit⟩ := hset
    obtain ⟨hidle', hkind', hlimit'⟩ := hset'
    obtain ⟨hanswer, hslots, -⟩ :=
      (hidle.track width).tryMatch_eq (hidle'.track width) (by simp [hkind, hkind']) (by simp)
        (by simp [hlimit, hlimit']) env { text } pos .unanchored
    rw [hrun, hrun']
    refine ⟨?_, .intro h fun m'' hm'' => ?_⟩
    · show Except.map _ _ = Except.map _ _
      rw [hanswer, hslots]
    · rcases List.mem_cons.mp hm'' with rfl | hm''
      · obtain ⟨hkind'', hlimit''⟩ :=
          (m'.track width).settings_tryMatch env { text } pos .unanchored
        refine ⟨(hidle'.track width).tryMatch env { text } pos .unanchored, ?_, ?_⟩
        · rw [hkind'', Machine.kind_track, hkind']
        · rw [hlimit'', Machine.limit_track, hlimit']
      · exact h' m'' (hrest' m'' hm'')

/-- Whether there is a machine to be run does not depend on the machines that are kept. -/
theorem literalSpan?_eq (h : re.Alike re') (text : Text) (start : Nat) :
    re'.literalSpan? text start = re.literalSpan? text start := by
  cases h with
  | intro => rfl

theorem spanAt (h : re.Alike re') (text : String) (start : Nat) :
    (re'.spanAt env text start).1 = (re.spanAt env text start).1 ∧
      re.Alike (re'.spanAt env text start).2 := by
  obtain ⟨hanswer, halike⟩ := h.run env (Text.ofString text) start 2
  unfold Regex.spanAt
  rw [h.literalSpan?_eq]
  split
  · exact ⟨rfl, h⟩
  · cases re.literalSpan? (Text.ofString text) start with
    | some found => exact ⟨rfl, h⟩
    | none => exact ⟨congrArg spanAt.span? hanswer, halike⟩

theorem tryIsMatch (h : re.Alike re') (text : String) :
    (re'.tryIsMatch env text).1 = (re.tryIsMatch env text).1 ∧
      re.Alike (re'.tryIsMatch env text).2 := by
  obtain ⟨hanswer, halike⟩ := h.run env (Text.ofString text) 0 0
  unfold Regex.tryIsMatch
  rw [h.literalSpan?_eq]
  cases re.literalSpan? (Text.ofString text) 0 with
  | some found => exact ⟨rfl, h⟩
  | none => exact ⟨congrArg (Except.map Option.isSome) hanswer, halike⟩

/-- **An enumeration** answers the same, wherever it is taken up. -/
theorem findAllFrom (h : re.Alike re') (text : String) (pos : Nat) (previous : Option Nat) :
    (re'.findAllFrom env text pos previous).1 = (re.findAllFrom env text pos previous).1 ∧
      re.Alike (re'.findAllFrom env text pos previous).2 := by
  -- both sides come to the same span, and go on with what is alike
  have hspan : ∀ {re re' re₁ : Regex} {pos : Nat} {found : Option (Nat × Nat)}, re.Alike re' →
      re.spanAt env text pos = (found, re₁) →
      ∃ re₁', re'.spanAt env text pos = (found, re₁') ∧ re.Alike re₁ ∧ re₁.Alike re₁' := by
    intro re re' re₁ pos found h heq
    obtain ⟨hanswer, halike⟩ := h.spanAt env text pos
    obtain ⟨-, hself⟩ := (h.trans h.symm).spanAt env text pos
    rw [heq] at hanswer hself
    exact ⟨(re'.spanAt env text pos).2, Prod.ext hanswer rfl, hself, hself.symm.trans halike⟩
  induction hleft : text.utf8ByteSize + 1 - pos using Nat.strong_induction_on
    generalizing re re' pos previous with
  | _ left ih =>
    rcases Nat.lt_or_ge text.utf8ByteSize pos with hlt | hpos
    · rw [findAllFrom_of_lt hlt, findAllFrom_of_lt hlt]
      exact ⟨rfl, h⟩
    · rcases hre : re.spanAt env text pos with ⟨found, re₁⟩
      obtain ⟨re₁', hre', hfirst, hboth⟩ := hspan h hre
      cases found with
      | none =>
        rw [findAllFrom_of_none hpos hre, findAllFrom_of_none hpos hre']
        exact ⟨rfl, hfirst.trans hboth⟩
      | some span =>
        obtain ⟨start, stop⟩ := span
        rw [findAllFrom_of_some hpos hre, findAllFrom_of_some hpos hre']
        split
        · next hnext =>
          have hrest := fun previous => ih _ (by omega) hboth (resume text start stop) previous rfl
          split
          · exact ⟨(hrest previous).1, hfirst.trans (hrest previous).2⟩
          · exact ⟨congrArg ({ text, start, stop } :: ·) (hrest (some stop)).1,
              hfirst.trans (hrest (some stop)).2⟩
        · exact ⟨rfl, hfirst.trans hboth⟩

end Alike

/-- What calls make of a `Regex`. An enumeration that is left off on its way has made some of the
calls of `findAt`. -/
inductive Follows (re₀ : Regex) : Regex → Prop where
  | refl : Follows re₀ re₀
  | tryIsMatch {re : Regex} (h : Follows re₀ re) (env : Environment) (text : String) :
      Follows re₀ (re.tryIsMatch env text).2
  | isMatch {re : Regex} (h : Follows re₀ re) (env : Environment) (text : String) :
      Follows re₀ (re.isMatch env text).2
  | findAt {re : Regex} (h : Follows re₀ re) (env : Environment) (text : String) (start : Nat) :
      Follows re₀ (re.findAt env text start).2
  | find {re : Regex} (h : Follows re₀ re) (env : Environment) (text : String) :
      Follows re₀ (re.find env text).2
  | captures {re : Regex} (h : Follows re₀ re) (env : Environment) (text : String) :
      Follows re₀ (re.captures env text).2
  | findAll {re : Regex} (h : Follows re₀ re) (env : Environment) (text : String) :
      Follows re₀ (re.findAll env text).2
  | isMatchUtf16 {re : Regex} (h : Follows re₀ re) (env : Environment) (units : Array UInt16) :
      Follows re₀ (re.isMatchUtf16 env units).2
  | findUtf16 {re : Regex} (h : Follows re₀ re) (env : Environment) (units : Array UInt16) :
      Follows re₀ (re.findUtf16 env units).2

/-- **Calls leave alike** what keeps no machines at first. -/
theorem Follows.alike {re₀ re : Regex} (h : re₀.Follows re) (hidle : re₀.idle = []) :
    re₀.Alike re := by
  induction h with
  | refl => exact .refl_of_idle_eq_nil hidle
  | tryIsMatch _ env text ih => exact (ih.tryIsMatch env text).2
  | isMatch _ env text ih => exact (ih.tryIsMatch env text).2
  | findAt _ env text start ih => exact (ih.spanAt env text start).2
  | find _ env text ih => exact (ih.spanAt env text 0).2
  | @captures re _ env text ih =>
    exact (ih.run env (Text.ofString text) 0 re.program.slotCount).2
  | findAll _ env text ih => exact (ih.findAllFrom env text 0 none).2
  | isMatchUtf16 _ env units ih => exact (ih.run env (.utf16 units) 0 0).2
  | findUtf16 _ env units ih => exact (ih.run env (.utf16 units) 0 2).2

end Regex

/-! ## What can be told from answers -/

/-- **Earlier calls leave no trace.** A machine that has been called in any way, whatever came of
it, runs as a new machine does once both are set in the same way, and takes as much work. A `Regex`
that has been called in any way answers all questions as it would have done at first. -/
theorem history_independence {P : Program} {m : Machine P} (hm : m.Reachable) {re₀ re : Regex}
    (hidle : re₀.idle = []) (hre : re₀.Follows re) :
    (∀ (count : Nat) (limit : Option Nat) (env : Environment) (input : Input) (pos : Nat)
        (anchor : Anchor),
      let used := (m.track count).setLimit limit
      let unused := ((Machine.new P m.kind).track count).setLimit limit
      (used.tryMatch env input pos anchor).1 = (unused.tryMatch env input pos anchor).1 ∧
        (used.tryMatch env input pos anchor).2.submatches =
          (unused.tryMatch env input pos anchor).2.submatches ∧
        (used.tryMatch env input pos anchor).2.work =
          (unused.tryMatch env input pos anchor).2.work) ∧
    ∀ (env : Environment) (text : String) (units : Array UInt16),
      (re.tryIsMatch env text).1 = (re₀.tryIsMatch env text).1 ∧
      (re.isMatch env text).1 = (re₀.isMatch env text).1 ∧
      (∀ start : Nat, (re.findAt env text start).1 = (re₀.findAt env text start).1) ∧
      (re.find env text).1 = (re₀.find env text).1 ∧
      (re.captures env text).1 = (re₀.captures env text).1 ∧
      (re.findAll env text).1 = (re₀.findAll env text).1 ∧
      (∀ (pos : Nat) (previous : Option Nat),
        (re.findAllFrom env text pos previous).1 = (re₀.findAllFrom env text pos previous).1) ∧
      (re.isMatchUtf16 env units).1 = (re₀.isMatchUtf16 env units).1 ∧
      (re.findUtf16 env units).1 = (re₀.findUtf16 env units).1 ∧
      re.groupCount = re₀.groupCount ∧ re.summary = re₀.summary := by
  refine ⟨?_, ?_⟩
  · intro count limit env input pos anchor used unused
    have hused : used.Idle := (hm.idle.track count).setLimit limit
    have hunused : unused.Idle := ((Machine.idle_new P m.kind).track count).setLimit limit
    have hkind : used.kind = unused.kind := by
      show (m.track count).kind = ((Machine.new P m.kind).track count).kind
      rw [Machine.kind_track, Machine.kind_track]
      rfl
    have hwidth : used.width = unused.width := by
      show (m.track count).width = ((Machine.new P m.kind).track count).width
      rw [Machine.width_track, Machine.width_track]
    exact hunused.tryMatch_eq hused hkind hwidth rfl env input pos anchor
  · intro env text units
    have halike := hre.alike hidle
    have hmatch := (halike.tryIsMatch env text).1
    have hspan := fun start => (halike.spanAt env text start).1
    have hall := fun pos previous => (halike.findAllFrom env text pos previous).1
    have hrun := fun text width => (halike.run env text 0 width).1
    have hcount : re.program.slotCount = re₀.program.slotCount := by
      cases halike
      rfl
    refine ⟨hmatch, ?_, ?_, ?_, ?_, hall 0 none, hall, ?_, ?_, ?_, ?_⟩
    · exact congrArg (fun answer => answer.toOption.getD false) hmatch
    · exact fun start => congrArg (Option.map _) (hspan start)
    · exact congrArg (Option.map _) (hspan 0)
    · show Option.map _ (re.run env (Text.ofString text) 0 re.program.slotCount).1.toOption.join = _
      rw [hcount, hrun]
      rfl
    · exact congrArg (fun answer => answer.toOption.join.isSome) (hrun (.utf16 units) 0)
    · exact congrArg Regex.spanAt.span? (hrun (.utf16 units) 2)
    · cases halike
      rfl
    · cases halike
      rfl

/-- A machine that has been given no time for a long text, and then has to keep groups; and a
`Regex` that has been asked for groups, and then for a yes or no. -/
theorem history_independence_letter :
    let P : Program := ⟨4, #v[.save 2 1, .consume (.single 0x61) 2, .save 3 3, .accept], 0⟩
    let hurried := ((Machine.new P .leftmostLongest).track 0).setLimit (some 0)
    let m := (hurried.tryMatch {} { text := .utf8 (Array.replicate 600 0x62) } 0 .unanchored).2
    let re₀ := Regex.ofProgram P .leftmostLongest
    let re := ((re₀.captures {} "ba").2.isMatch {} "b").2
    let input : Input := { text := .utf16 #[0xD800, 0x61] }
    let used := (m.track 3).setLimit none
    let unused := ((Machine.new P m.kind).track 3).setLimit none
    m.Reachable ∧ re₀.idle = [] ∧ re₀.Follows re ∧
      (used.tryMatch {} input 0 .unanchored).1 = (unused.tryMatch {} input 0 .unanchored).1 ∧
      (used.tryMatch {} input 0 .unanchored).2.submatches =
        (unused.tryMatch {} input 0 .unanchored).2.submatches ∧
      (used.tryMatch {} input 0 .unanchored).2.work =
        (unused.tryMatch {} input 0 .unanchored).2.work ∧
      (re.findAll {} "aba").1 = (re₀.findAll {} "aba").1 ∧
      (re.captures {} "aba").1 = (re₀.captures {} "aba").1 := by
  intro P hurried m re₀ re input used unused
  have hm : m.Reachable := .tryMatch (.setLimit (.track (.new _) 0) (some 0)) {} _ 0 .unanchored
  have hidle : re₀.idle = [] := rfl
  have hre : re₀.Follows re := .isMatch (.captures .refl {} "ba") {} "b"
  obtain ⟨hmachine, hregex⟩ := history_independence hm hidle hre
  obtain ⟨hanswer, hslots, hwork⟩ := hmachine 3 none {} input 0 .unanchored
  obtain ⟨-, -, -, -, hcaptures, hall, -⟩ := hregex {} "aba" #[]
  exact ⟨hm, hidle, hre, hanswer, hslots, hwork, hall, hcaptures⟩

end Lockstep
