import Lockstep.Proofs.Enumeration
import Lockstep.Proofs.Iterations

/-!
# One round and then a loop

A repetition that asks for at least one round shares one copy of its body between the first round
and the others, so that a search does not enter again in the second round what it has entered in the
first one. Written out, as the body and then a repetition that asks for nothing, it has two copies.
The two find matches at the same places, and mostly the same matches.

- `Program.firstEnd`: where the preferred match ends that starts at an offset.
- `Regex.span?_reference`: the span that is found.
- `Program.firstEnd_plus`: where the two agree on the end.
- `Regex.find_plus`: what that means for the matches that are found.
-/

namespace Lockstep

namespace Program

variable {P : Program} {task : Task} {e : Expr} {greedy : Bool} {i j : task.text.Offset}

/-! ## Where the preferred match ends -/

/-- Where the preferred one of the matches ends that start at the offset `i`. -/
def firstEnd (P : Program) (task : Task) (i : task.text.Offset) : Option task.text.Offset :=
  (P.explored task i).head?.map Prod.fst

/-- It is what a depth-first search finds first. -/
theorem firstEnd_eq_first (P : Program) (task : Task) (i : task.text.Offset) : P.firstEnd task i =
    (P.firstAccept task ∅ [((P.start, i), Slots.startAt task.width i)]).map Prod.snd := by
  unfold firstEnd explored matchesOf firstAccept Graph.first
  induction (P.walk task.text).arrivals ∅ [((P.start, i), Slots.startAt task.width i)] with
  | nil => rfl
  | cons e es ih =>
    cases he : P.ends task e.1 with
    | true => simp [he]
    | false => simpa [he] using ih

/-- There is such a match where the expression matches. -/
theorem Implements.isSome_firstEnd_iff (h : P.Implements e)
    (hend : ∀ j : Nat, task.mayEnd j = true) :
    (P.firstEnd task i).isSome = true ↔ ∃ j, e.Matches task.text i j := by
  rw [firstEnd, Option.isSome_map, List.isSome_head?]
  constructor
  · intro hne
    obtain ⟨⟨j, slots⟩, hmem⟩ := List.exists_mem_of_ne_nil _ hne
    exact ⟨j, (h.mem_explored_iff.mp ⟨slots, hmem⟩).1⟩
  · rintro ⟨j, hmatches⟩
    exact h.explored_ne_nil hmatches (hend j)

/-- Expressions that match from the same offsets on have programs with matches from them. -/
theorem Implements.isSome_firstEnd_congr (h : P.Implements e) {P' : Program} {e' : Expr}
    (h' : P'.Implements e') (hend : ∀ j : Nat, task.mayEnd j = true)
    (hsame : (∃ j, e.Matches task.text i j) ↔ ∃ j, e'.Matches task.text i j) :
    (P.firstEnd task i).isSome = (P'.firstEnd task i).isSome := by
  rw [Bool.eq_iff_iff, h.isSome_firstEnd_iff hend, h'.isSome_firstEnd_iff hend, hsame]

theorem Implements.matches_of_firstEnd (h : P.Implements e) (hj : P.firstEnd task i = some j) :
    e.Matches task.text i j := by
  obtain ⟨m, hm, rfl⟩ := Option.map_eq_some_iff.mp hj
  exact (h.mem_explored_iff.mp ⟨m.2, List.mem_of_mem_head? hm⟩).1

/-! ## Programs with one round and with two -/

/-- A program that lays out an expression finds what any copy of its shape comes to first. -/
theorem LaysOut.firstEnd_eq (h : P.LaysOut e) (hend : ∀ j : Nat, task.mayEnd j = true)
    {P' : Program} {lo hi : Nat} {s l : Fin P'.size} (h' : P'.Copy e.shape lo hi s l)
    (i : task.text.Offset) :
    P.firstEnd task i = P'.firstAt task.text s l i := by
  obtain ⟨t, hacc, hcopy⟩ := h.exists_copy
  obtain ⟨C, hs, hC⟩ := hcopy.lays.exists_inner hcopy.pos
  rw [← hcopy.firstAt_eq h', firstEnd_eq_first, firstAt, walkTo_of_accept hacc]
  -- a match ends just behind the shape
  have hsame : P.firstAccept task ∅ [((P.start, i), Slots.startAt task.width i)] =
      (P.walk task.text).first (isAt t) ∅ [((P.start, i), Slots.startAt task.width i)] := by
    refine Graph.first_congr_left fun e he => ?_
    rw [Bool.eq_iff_iff, ends_iff hend, isAt, decide_eq_true_eq]
    refine ⟨fun hends => ?_, fun heq => heq ▸ hacc⟩
    rw [← walkTo_of_accept hacc] at he
    exact (hC.of_arrival hs (Graph.mem_nodes_of_mem he)).resolve_left fun hinner =>
      hC.running e.1.1 hinner hends
  rw [hsame]
  exact congrArg (Option.map Prod.snd) (Graph.first_congr rfl)

/-- All ways through a copy of the shape come to an end. -/
theorem LaysOut.terminates (h : P.LaysOut e) {P' : Program} {lo hi : Nat} {s l : Fin P'.size}
    (h' : P'.Copy e.shape lo hi s l) (hloops : e.LoopsAdvance task.text) (i : task.text.Offset) :
    (P'.walkTo task.text l).Terminates (s, i) := by
  obtain ⟨t, hacc, hcopy⟩ := h.exists_copy
  exact h'.terminates hcopy hacc (Expr.loopsAdvance_shape e hloops) i

/-- The program of a repetition that asks for at least one round: the body is the first round,
too. -/
theorem LaysOut.exists_cycle_of_plus (h : P.LaysOut (.plus e greedy))
    (hlive : e.shape.isNever = false) :
    ∃ (hi : Nat) (l t : Fin P.size), P.Cycle e.shape greedy 1 hi P.start l t := by
  obtain ⟨-, t, hacc, hlays⟩ := h
  rw [Expr.shape] at hlays
  cases hlays with
  | never hnever => exact absurd hnever (Bool.eq_false_iff.mp hlive)
  | @plus _ _ _ _ top _ l _ _ hbody hrange hin hfork =>
    have hbeyond : Beyond l 1 top := ⟨by omega, .inr hin.1⟩
    exact ⟨top, l, t, ⟨Nat.one_pos, hbody, hbeyond⟩, hfork, hacc⟩

/-- The program of the body and then a repetition that asks for nothing: the body of the repetition
lies apart from the first round. -/
theorem LaysOut.exists_cycle_of_concat (h : P.LaysOut (.concat [e, .star e greedy]))
    (hlive : e.shape.isNever = false) : ∃ (lo hi lo' hi' : Nat) (x l t : Fin P.size),
      P.Copy e.shape lo hi P.start l ∧ P.Cycle e.shape greedy lo' hi' x l t ∧
      (hi ≤ lo' ∨ hi' ≤ lo) := by
  obtain ⟨-, t, hacc, hlays⟩ := h
  simp only [Expr.shape, Expr.concatShape] at hlays
  cases hlays with
  | never hnever => simp [Shape.isNever, hlive] at hnever
  | @seq _ _ _ _ lo hi lo' _ _ l _ _ hfirst hloop hapart hlo hhi =>
    cases hloop with
    | never hnever => cases hnever
    | @star _ _ _ _ top _ x _ hbody hrange hin hfork =>
      have hbeyond : Beyond l lo hi := ⟨by omega, by omega⟩
      have hbeyond' : Beyond l lo' top := ⟨by omega, .inr hin.1⟩
      exact ⟨lo, hi, lo', top, x, l, t, ⟨by omega, hfirst, hbeyond⟩,
        ⟨⟨by omega, hbody, hbeyond'⟩, hfork, hacc⟩, by omega⟩

/-- **One copy of the body does what two copies do**, if no further round is preferred; or if the
body does not match both empty and more where the first round ends, or if it rather matches more and
all ways through it come to an end. -/
theorem firstEnd_plus {P₀ P₁ P₂ : Program} (h₀ : P₀.LaysOut e) (h₁ : P₁.LaysOut (.plus e greedy))
    (h₂ : P₂.LaysOut (.concat [e, .star e greedy])) (hend : ∀ j : Nat, task.mayEnd j = true)
    (hj : P₀.firstEnd task i = some j)
    (hagain : greedy = true → e.Matches task.text j j → (∃ k, j < k ∧ e.Matches task.text j k) →
      e.LoopsAdvance task.text ∧ P₀.firstEnd task j ≠ some j) :
    P₁.firstEnd task i = P₂.firstEnd task i := by
  have hmatches : e.shape.Matches task.text i j :=
    Expr.matches_iff_shape.mp (h₀.implements.matches_of_firstEnd hj)
  have hlive : e.shape.isNever = false := Bool.eq_false_iff.mpr fun hnever =>
    Shape.not_matches_of_isNever hnever i j hmatches
  obtain ⟨hi₁, l₁, t₁, hcycle₁⟩ := h₁.exists_cycle_of_plus hlive
  obtain ⟨lo₂, hi₂, lo₂', hi₂', x₂, l₂, t₂, hcopy₂, hcycle₂, hapart⟩ :=
    h₂.exists_cycle_of_concat hlive
  -- the first rounds go through copies of the body, and end at the same offset
  obtain ⟨C₁, hs₁, hC₁⟩ := hcycle₁.body.lays.exists_inner hcycle₁.body.pos
  obtain ⟨C₂, hs₂, hC₂⟩ := hcopy₂.lays.exists_inner hcopy₂.pos
  have hj₁ := (h₀.firstEnd_eq hend hcycle₁.body i).symm.trans hj
  have hj₂ := (h₀.firstEnd_eq hend hcopy₂ i).symm.trans hj
  obtain ⟨pre₁, b₁, hr₁⟩ := hC₁.exists_round hs₁ hj₁ (Slots.startAt task.width i)
  obtain ⟨pre₂, b₂, hr₂⟩ := hC₂.exists_round hs₂ hj₂ (Slots.startAt task.width i)
  rw [firstEnd_eq_first, firstEnd_eq_first, hcycle₁.firstAccept_of_round hend hC₁ hr₁,
    hcycle₂.firstAccept_of_round hend hC₂ hr₂]
  cases greedy with
  | false =>
    rw [hcycle₁.firstAccept_lazy hend hC₁ hr₁ rfl, hcycle₂.firstAccept_lazy hend hC₂ hr₂ rfl]
    rfl
  | true =>
    rw [hcycle₂.firstAccept_apart hend h₂.1 hC₂ hcopy₂.beyond hapart hr₂,
      ← hcycle₁.offset_firstAccept hend hcycle₂ b₁ b₂]
    refine hcycle₁.firstAccept_same hC₁ hend hs₁ hr₁ fun hempty hmore => ?_
    obtain ⟨hloops, hne⟩ := hagain rfl (Expr.matches_iff_shape.mpr hempty)
      (hmore.imp fun _ hk => ⟨hk.1, Expr.matches_iff_shape.mpr hk.2⟩)
    rw [h₀.firstEnd_eq hend hcycle₁.body] at hne
    exact ⟨h₀.terminates hcycle₁.body hloops, hne⟩

end Program

/-! ## What the two match -/

namespace Expr

variable {text : Text} {e : Expr} {greedy : Bool} {i j : text.Offset}

/-- The two match the same. -/
theorem matches_plus_iff : (plus e greedy).Matches text i j ↔
    (concat [e, star e greedy]).Matches text i j := by
  constructor
  · intro h
    cases h with
    | plus hbody hrest => exact .concatCons hbody (.concatCons hrest (.concatNil j))
  · intro h
    cases h with
    | concatCons hbody hrest =>
      cases hrest with
      | concatCons hstar hnil =>
        cases hnil
        exact .plus hbody hstar

/-- They match from where the body does. -/
theorem exists_matches_plus_iff :
    (∃ j, (plus e greedy).Matches text i j) ↔ ∃ j, e.Matches text i j := by
  constructor
  · rintro ⟨k, hk⟩
    cases hk with
    | plus hbody => exact ⟨_, hbody⟩
  · rintro ⟨j, hbody⟩
    exact ⟨j, .plus hbody (.starNil j)⟩

end Expr

/-! ## What is found -/

namespace Regex

/-- The span that is found starts at the first of the offsets that are tried where a match starts,
and ends where the preferred one of those matches does. -/
theorem span?_reference {P : Program} {task : Task} (hspare : P.SparesMatch)
    (hwidth : 2 ≤ task.width) (hkind : task.kind = .leftmostFirst) (pos : task.text.Offset) :
    spanAt.span? (.ok (P.reference task pos)) =
      ((task.starts pos).find? fun i => (P.firstEnd task i).isSome).bind fun i =>
        (P.firstEnd task i).map fun j : task.text.Offset => ((i : Nat), (j : Nat)) := by
  rw [Program.reference_eq_findSome?]
  induction task.starts pos with
  | nil => rfl
  | cons i starts ih =>
    rw [List.findSome?_cons, List.find?_cons]
    cases hexplored : P.explored task i with
    | nil =>
      have hnone : P.firstEnd task i = none := by rw [Program.firstEnd, hexplored]; rfl
      rw [Task.choose_eq_none_iff.mpr rfl, hnone]
      exact ih
    | cons m ms =>
      have hsome : P.firstEnd task i = some m.1 := by rw [Program.firstEnd, hexplored]; rfl
      have hchoose : task.choose (m :: ms) = some m.2 := by
        unfold Task.choose
        rw [hkind]
        rfl
      obtain ⟨hleft, hright⟩ := Program.mem_explored hspare hwidth m
        (hexplored ▸ List.mem_cons_self)
      rw [hchoose, hsome, span?_ok, Option.map_some, hleft, hright]
      simp [hsome]

/-- A `Regex` has been made from an expression to find the preferred match, and may take any
time. -/
def Prefers (re : Regex) (e : Expr) : Prop :=
  ∃ env options, ofExpr env e options = .ok re ∧ options.kind = .leftmostFirst ∧
    options.timeLimit = none

/-- What it is asked about a string. -/
abbrev preferring (text : String) : Task :=
  { text := Text.ofString text, anchor := .unanchored, kind := .leftmostFirst, width := 2 }

variable {re : Regex} {e : Expr} {env : Environment} {text : String}

theorem Prefers.sound (h : re.Prefers e) : re.Sound ∧ re.kind = .leftmostFirst ∧ re.limit = none ∧
    ∃ Q : Program, re.program = Q.flatten ∧ Q.LaysOut e ∧ Q.SparesMatch := by
  obtain ⟨env', options, hmade, hkind, htime⟩ := h
  refine ⟨sound_of_ofExpr hmade, ?_⟩
  unfold ofExpr at hmade
  cases hcompile : e.compile (options.sizeLimit.getD env'.programSize) with
  | error flaw =>
    rw [hcompile] at hmade
    cases hmade
  | ok P =>
    rw [hcompile] at hmade
    cases hmade
    exact ⟨hkind, htime, Program.exists_laysOut_of_compile hcompile⟩

/-- Where a depth-first search of a program finds the start of a match, from an offset on. -/
def startFrom (Q : Program) (text : String) (pos : (Text.ofString text).Offset) :
    Option (Text.ofString text).Offset :=
  ((preferring text).starts pos).find? fun i => (Q.firstEnd (preferring text) i).isSome

/-- The match that it finds. -/
def foundFrom (Q : Program) (text : String) (pos : (Text.ofString text).Offset) : Option Match :=
  (startFrom Q text pos).bind fun i =>
    (Q.firstEnd (preferring text) i).map fun j : (Text.ofString text).Offset => ⟨text, i, j⟩

section Found

variable {Q Q' : Program} {text : String} {i j k pos : (Text.ofString text).Offset}

theorem exists_firstEnd_of_startFrom (hi : startFrom Q text pos = some i) :
    ∃ j, Q.firstEnd (preferring text) i = some j :=
  Option.isSome_iff_exists.mp (List.find?_some
    (p := fun i => (Q.firstEnd (preferring text) i).isSome) hi)

theorem foundFrom_eq_some (hi : startFrom Q text pos = some i)
    (hj : Q.firstEnd (preferring text) i = some j) : foundFrom Q text pos = some ⟨text, i, j⟩ := by
  rw [foundFrom, hi, Option.bind_some, hj, Option.map_some]

/-- Where a match starts at the offset itself, that is the one. -/
theorem foundFrom_of_firstEnd (hk : Q.firstEnd (preferring text) j = some k) :
    foundFrom Q text j = some ⟨text, j, k⟩ := by
  refine foundFrom_eq_some ?_ hk
  have hstarts : ∃ rest, (preferring text).starts j = j :: rest := by
    rw [Task.starts, Text.offsetsFrom, List.filter_cons_of_pos (by simp [Task.mayStart])]
    exact ⟨_, rfl⟩
  obtain ⟨rest, hrest⟩ := hstarts
  rw [startFrom, hrest, List.find?_cons_of_pos (by simp [hk])]

theorem map_start_foundFrom (Q : Program) (pos : (Text.ofString text).Offset) :
    (foundFrom Q text pos).map Match.start = (startFrom Q text pos).map fun i => (i : Nat) := by
  cases hi : startFrom Q text pos with
  | none => rw [foundFrom, hi]; rfl
  | some i =>
    obtain ⟨j, hj⟩ := exists_firstEnd_of_startFrom hi
    rw [foundFrom_eq_some hi hj]
    rfl

/-- Programs that match from the same offsets on find the same start. -/
theorem startFrom_congr (h : ∀ i, (Q.firstEnd (preferring text) i).isSome =
    (Q'.firstEnd (preferring text) i).isSome) : startFrom Q text pos = startFrom Q' text pos := by
  rw [startFrom, startFrom, funext h]

/-- If the preferred matches end there at the same offset, they find the same match. -/
theorem foundFrom_congr (hstart : startFrom Q text pos = startFrom Q' text pos)
    (hend : ∀ i, startFrom Q text pos = some i →
      Q.firstEnd (preferring text) i = Q'.firstEnd (preferring text) i) :
    foundFrom Q text pos = foundFrom Q' text pos := by
  rw [foundFrom, foundFrom, ← hstart]
  cases hi : startFrom Q text pos with
  | none => rfl
  | some i => rw [Option.bind_some, Option.bind_some, hend i hi]

/-- A match of a whole string ends between two characters. -/
theorem isValid_of_firstEnd (hQ : Q.LaysOut e) (hi : startFrom Q text 0 = some i)
    (hj : Q.firstEnd (preferring text) i = some j) :
    String.Pos.Raw.isValid text ⟨j⟩ = true := by
  have hmem : i ∈ (preferring text).starts 0 := List.mem_of_find?_eq_some hi
  have hto : (Text.ofString text).ReadsTo 0 i := (Task.mem_starts.mp hmem).1
  obtain ⟨t, hreach, -⟩ :=
    hQ.implements.reaches_iff.mpr (hQ.implements.matches_of_firstEnd hj)
  have hto : (Text.ofString text).ReadsTo 0 j := hto.trans (Program.readsTo_of_reaches hreach)
  exact Text.isValid_of_readsTo (i := 0) (by simp) hto

end Found

/-- What such a `Regex` finds is told by a program that lays out the expression. -/
theorem Prefers.exists_laysOut (h : re.Prefers e) (hsearch : env.searchTime = 0) (text : String) :
    ∃ Q : Program, Q.LaysOut e ∧ ∀ pos : (Text.ofString text).Offset,
      String.Pos.Raw.isValid text ⟨pos⟩ = true →
        (re.findAt env text pos).1 = foundFrom Q text pos := by
  obtain ⟨hsound, hkind, hlimit, Q, hprogram, hlays, hspare⟩ := h.sound
  refine ⟨Q, hlays, fun pos hvalid => ?_⟩
  have hspan : (re.spanAt env text pos).1 =
      spanAt.span? (.ok (re.program.reference (re.task (Text.ofString text) 2) pos)) :=
    hsound.spanAt_eq pos hlimit hsearch hvalid
  have hreference : re.program.reference (re.task (Text.ofString text) 2) pos =
      Q.reference (preferring text) pos := by
    clear hspan hsound h
    obtain ⟨program, kind, limit, idle⟩ := re
    obtain rfl : kind = .leftmostFirst := hkind
    obtain rfl : program = Q.flatten := hprogram
    exact Program.reference_flatten Q (preferring text) pos
  show (re.spanAt env text pos).1.map _ = _
  rw [hspan, hreference, span?_reference hspare (le_refl 2) rfl, foundFrom, startFrom,
    Option.map_bind]
  congr 1
  funext i
  rw [Function.comp_apply, Option.map_map]
  rfl

/-- **A repetition that asks for at least one round** finds a match where the body and then a
repetition that asks for nothing does, from the same offset on. The matches end at the same offset
if no further round is preferred; and also if one is, unless the body matches both empty and more
where its own preferred match ends, and then prefers to match empty or has itself a repetition whose
body matches empty. -/
theorem find_plus {once plus unrolled : Regex} {greedy : Bool} (honce : once.Prefers e)
    (hplus : plus.Prefers (.plus e greedy))
    (hunrolled : unrolled.Prefers (.concat [e, .star e greedy]))
    (hsearch : env.searchTime = 0) (text : String) :
    (plus.find env text).1.map Match.start = (unrolled.find env text).1.map Match.start ∧
    ((∀ j : (Text.ofString text).Offset, greedy = true →
        (once.find env text).1.map Match.stop = some (j : Nat) →
        e.Matches (Text.ofString text) j j → (∃ k, j < k ∧ e.Matches (Text.ofString text) j k) →
        e.LoopsAdvance (Text.ofString text) ∧
          (once.findAt env text j).1.map Match.stop ≠ some (j : Nat)) →
      (plus.find env text).1 = (unrolled.find env text).1) := by
  obtain ⟨Q₀, h₀, hfind₀⟩ := honce.exists_laysOut hsearch text
  obtain ⟨Q₁, h₁, hfind₁⟩ := hplus.exists_laysOut hsearch text
  obtain ⟨Q₂, h₂, hfind₂⟩ := hunrolled.exists_laysOut hsearch text
  have hend : ∀ j : Nat, (preferring text).mayEnd j = true := fun j => by simp [Task.mayEnd]
  -- the three find the start of a match at the same offset
  have hstart₁ : startFrom Q₁ text 0 = startFrom Q₀ text 0 := startFrom_congr fun i =>
    h₁.implements.isSome_firstEnd_congr h₀.implements hend Expr.exists_matches_plus_iff
  have hstart₂ : startFrom Q₁ text 0 = startFrom Q₂ text 0 := startFrom_congr fun i =>
    h₁.implements.isSome_firstEnd_congr h₂.implements hend
      (exists_congr fun _ => Expr.matches_plus_iff)
  have honce : (once.find env text).1 = foundFrom Q₀ text 0 := hfind₀ 0 (by simp)
  have hplus : (plus.find env text).1 = foundFrom Q₁ text 0 := hfind₁ 0 (by simp)
  have hunrolled : (unrolled.find env text).1 = foundFrom Q₂ text 0 := hfind₂ 0 (by simp)
  rw [hplus, hunrolled]
  refine ⟨by rw [map_start_foundFrom, map_start_foundFrom, hstart₂], fun hagain => ?_⟩
  refine foundFrom_congr hstart₂ fun i hi => ?_
  rw [hstart₁] at hi
  obtain ⟨j, hj⟩ := exists_firstEnd_of_startFrom hi
  refine Program.firstEnd_plus h₀ h₁ h₂ hend hj fun hgreedy hempty hmore => ?_
  have hstop : (once.find env text).1.map Match.stop = some (j : Nat) := by
    rw [honce, foundFrom_eq_some hi hj]
    rfl
  obtain ⟨hloops, hne⟩ := hagain j hgreedy hstop hempty hmore
  refine ⟨hloops, fun hstay => hne ?_⟩
  rw [hfind₀ j (isValid_of_firstEnd h₀ hi hj), foundFrom_of_firstEnd hstay]
  rfl

/-- A letter that may be there, and rather is. -/
theorem find_plus_letters :
    let e : Expr := .optional (.literal 'a' false) true
    let once := ofProgram ⟨4, #v[.fail, .consume (.single 0x61) 3, .fork [1, 3], .accept], 2⟩
      .leftmostFirst
    let plus := ofProgram ⟨5, #v[.fail, .consume (.single 0x61) 3, .fork [1, 3], .fork [2, 4],
      .accept], 2⟩ .leftmostFirst
    let unrolled := ofProgram ⟨7, #v[.fail, .consume (.single 0x61) 5, .fork [1, 5],
      .consume (.single 0x61) 5, .fork [3, 5], .fork [3, 5, 6], .accept], 2⟩ .leftmostFirst
    once.Prefers e ∧ plus.Prefers (.plus e true) ∧ unrolled.Prefers (.concat [e, .star e true]) ∧
      ({} : Environment).searchTime = 0 ∧ (once.find {} "aa").1 = some ⟨"aa", 0, 1⟩ ∧
      (once.findAt {} "aa" 1).1 = some ⟨"aa", 1, 2⟩ ∧
      (plus.find {} "aa").1.map Match.start = (unrolled.find {} "aa").1.map Match.start ∧
      (plus.find {} "aa").1 = (unrolled.find {} "aa").1 := by
  intro e once plus unrolled
  have honce : once.Prefers e := ⟨{}, {}, by cbv, rfl, rfl⟩
  have hplus : plus.Prefers (.plus e true) := ⟨{}, {}, by cbv, rfl, rfl⟩
  have hunrolled : unrolled.Prefers (.concat [e, .star e true]) := ⟨{}, {}, by cbv, rfl, rfl⟩
  have hsearch : ({} : Environment).searchTime = 0 := rfl
  have hfirst : (once.find {} "aa").1 = some ⟨"aa", 0, 1⟩ := by decide +kernel
  have hsecond : (once.findAt {} "aa" 1).1 = some ⟨"aa", 1, 2⟩ := by decide +kernel
  obtain ⟨hstart, hsame⟩ := find_plus honce hplus hunrolled hsearch "aa"
  refine ⟨honce, hplus, hunrolled, hsearch, hfirst, hsecond, hstart, hsame fun j _ hj _ _ => ?_⟩
  rw [hfirst] at hj
  have hj : 1 = (j : Nat) := Option.some.inj hj
  rw [← hj, hsecond]
  exact ⟨trivial, by decide⟩

/-- **One copy of the body does not always do what two copies do**: a body that would rather match
empty is not tried again in a second round, where a copy of it would be. And a body that would
rather match more, but has a repetition whose own body matches empty, is entered again in its
middle. -/
theorem find_plus_ne_unrolled :
    (let e : Expr := .alternate [.empty, .literal 'a' false]
      ∃ once plus unrolled : Regex, once.Prefers e ∧ plus.Prefers (.plus e true) ∧
        unrolled.Prefers (.concat [e, .star e true]) ∧ (plus.find {} "a").1 = some ⟨"a", 0, 0⟩ ∧
        (unrolled.find {} "a").1 = some ⟨"a", 0, 1⟩) ∧
    (let e : Expr := .star (.concat [.optional (.literal 'a' false) true,
        .optional (.literal 'b' false) false]) true
      ∃ once plus unrolled : Regex, once.Prefers e ∧ plus.Prefers (.plus e true) ∧
        unrolled.Prefers (.concat [e, .star e true]) ∧ (once.find {} "ab").1 = some ⟨"ab", 0, 1⟩ ∧
        (once.findAt {} "ab" 1).1 = some ⟨"ab", 1, 2⟩ ∧
        (plus.find {} "ab").1 = some ⟨"ab", 0, 1⟩ ∧
        (unrolled.find {} "ab").1 = some ⟨"ab", 0, 2⟩) := by
  refine ⟨⟨ofProgram ⟨5, #v[.fail, .jump 4, .consume (.single 0x61) 4, .fork [1, 2], .accept], 3⟩
      .leftmostFirst,
    ofProgram ⟨6, #v[.fail, .jump 4, .consume (.single 0x61) 4, .fork [1, 2], .fork [3, 5],
      .accept], 3⟩ .leftmostFirst,
    ofProgram ⟨9, #v[.fail, .jump 7, .consume (.single 0x61) 7, .fork [1, 2], .jump 7,
      .consume (.single 0x61) 7, .fork [4, 5], .fork [4, 5, 8], .accept], 3⟩ .leftmostFirst,
    ?_, ?_, ?_, ?_, ?_⟩,
    ⟨ofProgram ⟨7, #v[.fail, .consume (.single 0x61) 4, .fork [1, 4], .consume (.single 0x62) 5,
      .fork [5, 3], .fork [1, 4, 6], .accept], 5⟩ .leftmostFirst,
    ofProgram ⟨8, #v[.fail, .consume (.single 0x61) 4, .fork [1, 4], .consume (.single 0x62) 5,
      .fork [5, 3], .fork [1, 4, 5, 7], .fork [5, 7], .accept], 5⟩ .leftmostFirst,
    ofProgram ⟨13, #v[.fail, .consume (.single 0x61) 4, .fork [1, 4], .consume (.single 0x62) 5,
      .fork [5, 3], .fork [1, 4, 11], .consume (.single 0x61) 9, .fork [6, 9],
      .consume (.single 0x62) 10, .fork [10, 8], .fork [6, 9, 11], .fork [10, 12], .accept], 5⟩
      .leftmostFirst, ?_, ?_, ?_, ?_, ?_, ?_, ?_⟩⟩
  -- the programs are those of the expressions
  · exact ⟨{}, {}, by cbv, rfl, rfl⟩
  · exact ⟨{}, {}, by cbv, rfl, rfl⟩
  · exact ⟨{}, {}, by cbv, rfl, rfl⟩
  · decide +kernel
  · decide +kernel
  · exact ⟨{}, {}, by cbv, rfl, rfl⟩
  · exact ⟨{}, {}, by cbv, rfl, rfl⟩
  · exact ⟨{}, {}, by cbv, rfl, rfl⟩
  · decide +kernel
  · decide +kernel
  · decide +kernel
  · decide +kernel

end Regex

end Lockstep
