import Lockstep.Proofs.Finishing
import Mathlib

/-!
# What the limit of a program decides

The limit is looked at each time an instruction is added, between everything else that assembling an
expression does, and in the middle of repetitions that make many copies. All the same it decides one
thing only: an action gives what it gives without a limit, or there is an error that says how far
the limit let it come.

- `Assembly.Filtered`: the limit of an action only filters.
- `Assembly.filtered_emit`, `Assembly.Filtered.bind`: the one check, and actions in a row.
- `Expr.filtered_assemble`: the limit of an expression only filters.
- `Expr.FiltersBy`: what a limit makes of the result without one.
- `Expr.compile_filters`: the limit of a program only filters.
-/

namespace Lockstep

namespace Assembly

variable {α β : Type}

/-! ## Limits that filter -/

/-- What an action that depends on a limit does to a builder: it has the result `result`, for which
the builder grows to `size` instructions, unless the limit keeps it from growing so far. A limit
below the size that the builder has already keeps it from growing at all. -/
structure Filters (act : Nat → Assembly α) (b : Builder) (result : Except Error (α × Builder))
    (size : Nat) : Prop where
  le : b.code.size ≤ size
  grown : ∀ a b', result = .ok (a, b') → b'.code.size = size
  free : ∀ size limit, result ≠ .error (.programTooLarge size limit)
  filter : ∀ limit, act limit b = if size ≤ max limit b.code.size then result else
    .error (.programTooLarge (max limit b.code.size + 1) limit)

/-- The limit of an action only filters, whatever there is already. -/
def Filtered (act : Nat → Assembly α) : Prop := ∀ b, ∃ result size, Filters act b result size

/-- An action that does not look at the limit and leaves the instructions alone. -/
theorem filtered_of_same_size {act : Assembly α}
    (hsize : ∀ b a b', act b = .ok (a, b') → b'.code.size = b.code.size)
    (hfree : ∀ b size limit, act b ≠ .error (.programTooLarge size limit)) :
    Filtered fun _ => act := by
  refine fun b => ⟨act b, b.code.size, Nat.le_refl _, hsize b, hfree b, fun limit => ?_⟩
  rw [if_pos (Nat.le_max_right ..)]

theorem filtered_pure (a : α) : Filtered fun _ => (pure a : Assembly α) := by
  refine filtered_of_same_size ?_ fun b size limit => nofun
  rintro b _ _ ⟨⟩
  rfl

theorem filtered_throw {e : Error} (h : ∀ size limit, e ≠ .programTooLarge size limit) :
    Filtered fun _ => (throw e : Assembly α) := by
  refine filtered_of_same_size (fun b a b' => nofun) ?_
  rintro b size limit ⟨⟩
  exact h size limit rfl

theorem filtered_link (holes : List Hole) (target : Nat) : Filtered fun _ => link holes target := by
  refine filtered_of_same_size ?_ fun b size limit => nofun
  rintro b _ _ ⟨⟩
  rfl

/-- **The check of the limit.** -/
theorem filtered_emit (i : Instr Edge) : Filtered fun limit => emit limit i := by
  intro b
  refine ⟨.ok (b.code.size, b.push i), b.code.size + 1, Nat.le_succ _, ?_, nofun, fun limit => ?_⟩
  · rintro _ _ ⟨⟩
    exact Array.size_push i
  · unfold emit
    dsimp only
    by_cases hlimit : limit < b.code.size + 1
    · rw [if_pos hlimit, Nat.max_eq_right (Nat.le_of_lt_succ hlimit),
        if_neg (Nat.not_succ_le_self _)]
    · rw [if_neg hlimit, if_pos (Nat.le_trans (Nat.le_of_not_lt hlimit) (Nat.le_max_left ..))]

/-- **Two actions one after the other**: where the first one may grow as far as it wants, the second
one starts where the first one ended, and where it may not, neither may both. -/
theorem Filtered.bind {act : Nat → Assembly α} {next : Nat → α → Assembly β} (h : Filtered act)
    (hnext : ∀ a, Filtered fun limit => next limit a) :
    Filtered fun limit => act limit >>= next limit := by
  intro b
  obtain ⟨first, size, hle, hgrown, hfree, hfilter⟩ := h b
  cases first with
  | error e =>
    refine ⟨.error e, size, hle, nofun, fun size limit heq => ?_, fun limit => ?_⟩
    · cases heq
      exact hfree size limit rfl
    · show (act limit b >>= fun r => next limit r.1 r.2) = _
      rw [hfilter limit]
      split <;> rfl
  | ok r =>
    obtain ⟨a, b'⟩ := r
    obtain ⟨second, size', hle', hgrown', hfree', hfilter'⟩ := hnext a b'
    obtain rfl := hgrown a b' rfl
    refine ⟨second, size', Nat.le_trans hle hle', hgrown', hfree', fun limit => ?_⟩
    show (act limit b >>= fun r => next limit r.1 r.2) = _
    rw [hfilter limit]
    split
    · next hfits =>
      show next limit a b' = _
      have hsame : max limit b'.code.size = max limit b.code.size := by omega
      rw [hfilter', hsame]
    · next hfits => rw [if_neg (by omega)]; rfl

/-! ## Fragments -/

variable {f g : Fragment}

theorem filtered_single (i : Instr Edge) : Filtered fun limit => single limit i :=
  (filtered_emit i).bind fun pc => filtered_pure (Fragment.live pc [⟨pc, 0⟩])

theorem filtered_oneOf (table : List SymbolRange) : Filtered fun limit => oneOf limit table := by
  unfold oneOf
  cases SymbolClass.ofNormal? table with
  | none => exact filtered_pure Fragment.never
  | some cls => exact filtered_single (.consume cls none)

theorem filtered_join : Filtered fun _ => join f g := by
  have hnever : Filtered fun _ => (do link f.exits 0; link g.exits 0; return Fragment.never) :=
    (filtered_link _ _).bind fun _ => (filtered_link _ _).bind fun _ => filtered_pure Fragment.never
  cases f with
  | never => exact hnever
  | live entry exits =>
    cases g with
    | never => exact hnever
    | live entry' exits' =>
      exact (filtered_link exits entry').bind fun _ => filtered_pure (Fragment.live entry exits')

theorem filtered_choose : Filtered fun limit => choose limit f g := by
  cases f with
  | never => exact filtered_pure g
  | live entry exits =>
    cases g with
    | never => exact filtered_pure (Fragment.live entry exits)
    | live entry' exits' =>
      exact (filtered_emit _).bind fun pc => filtered_pure (Fragment.live pc (exits ++ exits'))

theorem filtered_branch (greedy : Bool) : Filtered fun limit => branch limit greedy f := by
  cases greedy with
  | true => exact (filtered_emit _).bind fun pc => filtered_pure (pc, (⟨pc, 1⟩ : Hole))
  | false => exact (filtered_emit _).bind fun pc => filtered_pure (pc, (⟨pc, 0⟩ : Hole))

theorem filtered_optional (greedy : Bool) : Filtered fun limit => optional limit greedy f :=
  (filtered_branch greedy).bind fun r => filtered_pure (Fragment.live r.1 (r.2 :: f.exits))

theorem filtered_star (greedy : Bool) : Filtered fun limit => star limit greedy f :=
  (filtered_branch greedy).bind fun r => (filtered_link f.exits r.1).bind fun _ =>
    filtered_pure (Fragment.live r.1 [r.2])

theorem filtered_plus (greedy : Bool) : Filtered fun limit => plus limit greedy f := by
  cases f with
  | never => exact filtered_pure Fragment.never
  | live entry exits =>
    exact (filtered_star greedy).bind fun loop => filtered_pure (Fragment.live entry loop.exits)

/-! ## Copies -/

variable {copy : Nat → Assembly Fragment}

theorem filtered_joinCopies (hcopy : Filtered copy) (count : Nat) {f : Fragment} :
    Filtered fun limit => joinCopies (copy limit) count f := by
  induction count generalizing f with
  | zero => exact filtered_pure f
  | succ count ih => exact hcopy.bind fun next => filtered_join.bind fun joined => ih

theorem filtered_nestCopies (hcopy : Filtered copy) (greedy : Bool) (count : Nat)
    {inner : Option Fragment} :
    Filtered fun limit => nestCopies limit greedy (copy limit) count inner := by
  induction count generalizing inner with
  | zero => exact filtered_pure inner
  | succ count ih =>
    have hrest : ∀ body : Fragment, Filtered fun limit => (do
        nestCopies limit greedy (copy limit) count (some (← optional limit greedy body))) :=
      fun body => (filtered_optional greedy).bind fun outer => ih
    cases inner with
    | none => exact hcopy.bind fun outer => hrest outer
    | some inner => exact hcopy.bind fun outer => filtered_join.bind fun body => hrest body

theorem filtered_checkBounds (min : Nat) (max : Option Nat) :
    Filtered fun _ => checkBounds min max := by
  have hmin : Filtered fun _ =>
      (if Expr.maxRepeat < min then throw (.repeatTooLarge min) else pure () : Assembly Unit) := by
    split
    · exact filtered_throw nofun
    · exact filtered_pure ()
  unfold checkBounds
  cases max with
  | none => exact hmin
  | some max =>
    dsimp only
    split
    · exact filtered_throw nofun
    · split
      · exact filtered_throw nofun
      · exact hmin

theorem filtered_times (hcopy : Filtered copy) (min : Nat) (max : Option Nat) (greedy : Bool) :
    Filtered fun limit => times limit (copy limit) min max greedy := by
  unfold times
  refine (filtered_checkBounds min max).bind fun _ => ?_
  cases max with
  | none =>
    cases min with
    | zero => exact hcopy.bind fun body => filtered_star greedy
    | succ min =>
      exact (filtered_single _).bind fun first => (filtered_joinCopies hcopy min).bind fun front =>
        hcopy.bind fun last => (filtered_plus greedy).bind fun loop => filtered_join
  | some max =>
    refine (filtered_single _).bind fun first => (filtered_joinCopies hcopy min).bind fun front =>
      (filtered_nestCopies hcopy greedy (max - min)).bind fun rest => ?_
    cases rest with
    | none => exact filtered_pure front
    | some rest => exact filtered_join

end Assembly

/-! ## Expressions -/

namespace Expr

open Assembly

theorem filtered_assembleText (chars : List Char) {f : Fragment} :
    Filtered fun limit => assembleText limit f chars := by
  induction chars generalizing f with
  | nil => exact filtered_pure f
  | cons c rest ih =>
    exact (filtered_single _).bind fun next => filtered_join.bind fun joined => ih

mutual

/-- **The limit of an expression only filters.** -/
theorem filtered_assemble : ∀ e : Expr, Filtered fun limit => assemble limit e
  | empty => filtered_single _
  | never => filtered_pure _
  | literal _ _ => filtered_single _
  | text [] => filtered_single _
  | text (_ :: rest) => (filtered_single _).bind fun _ => filtered_assembleText rest
  | oneOf _ => filtered_oneOf _
  | noneOf _ => filtered_oneOf _
  | any => filtered_single _
  | anyButNewline => filtered_single _
  | assert _ => filtered_single _
  | concat [] => filtered_single _
  | concat (e :: rest) => (filtered_assemble e).bind fun _ => filtered_assembleConcat rest
  | alternate [] => filtered_pure _
  | alternate (e :: rest) => (filtered_assemble e).bind fun _ => filtered_assembleAlternate rest
  | star body greedy => (filtered_assemble body).bind fun _ => filtered_star greedy
  | plus body greedy => (filtered_assemble body).bind fun _ => filtered_plus greedy
  | optional body greedy => (filtered_assemble body).bind fun _ => filtered_optional greedy
  | times body min max greedy => filtered_times (filtered_assemble body) min max greedy
  | capture index body => by
    by_cases hindex : index = 0
    · simp only [assemble, if_pos hindex]
      exact filtered_throw nofun
    · simp only [assemble, if_neg hindex]
      exact (filtered_single _).bind fun _ => (filtered_assemble body).bind fun _ =>
        (filtered_single _).bind fun _ => filtered_join.bind fun _ => filtered_join

theorem filtered_assembleConcat : ∀ (es : List Expr) {f : Fragment},
    Filtered fun limit => assembleConcat limit f es
  | [], f => filtered_pure f
  | e :: rest, _ => (filtered_assemble e).bind fun _ => filtered_join.bind fun _ =>
      filtered_assembleConcat rest

theorem filtered_assembleAlternate : ∀ (es : List Expr) {f : Fragment},
    Filtered fun limit => assembleAlternate limit f es
  | [], f => filtered_pure f
  | e :: rest, _ => (filtered_assemble e).bind fun _ => filtered_choose.bind fun _ =>
      filtered_assembleAlternate rest

end

/-! ## Programs -/

variable {e : Expr} {limit : Nat}

/-- Below two instructions there is no room for `accept` behind `fail`. -/
theorem build_zero_ne_ok (e : Expr) (b : Builder) : e.build 0 ≠ .ok b := by
  intro h
  obtain ⟨⟨_, b₁⟩, hwhole, -⟩ := Builder.exists_ok_of_bind h
  obtain ⟨body, b₂, -, hrest⟩ := exists_of_bind hwhole
  obtain ⟨pc, b₃, hemit, -⟩ := exists_of_bind hrest
  unfold emit at hemit
  rw [if_pos (Nat.succ_pos _)] at hemit
  cases hemit

/-- The limit of what is built only filters. -/
theorem exists_build_eq (e : Expr) : ∃ (result : Except Error Builder) (size : Nat),
    (∀ b, result = .ok b → b.code.size = size ∧ 2 ≤ size) ∧
    (∀ size limit, result ≠ .error (.programTooLarge size limit)) ∧
    ∀ limit, e.build limit = if size ≤ max limit 1 then result else
      .error (.programTooLarge (max limit 1 + 1) limit) := by
  have hwhole : Filtered fun limit => (do
      let body ← assemble limit e
      let accepting ← emit limit .accept
      link body.exits accepting
      startAt body.entry) := by
    refine (filtered_assemble e).bind fun body => (filtered_emit .accept).bind fun accepting =>
      (filtered_link body.exits accepting).bind fun _ => filtered_of_same_size ?_ nofun
    rintro b _ _ ⟨⟩
    rfl
  obtain ⟨result, size, hle, hgrown, hfree, hfilter⟩ := hwhole { code := #[.fail] }
  have hbuild : ∀ limit, e.build limit = if size ≤ max limit 1 then result.map (·.2) else
      .error (.programTooLarge (max limit 1 + 1) limit) := by
    intro limit
    unfold build
    show ((do
      let body ← assemble limit e
      let accepting ← emit limit .accept
      link body.exits accepting
      startAt body.entry : Assembly Unit) { code := #[.fail] } >>= fun r => pure r.2) = _
    rw [hfilter limit]
    show (if size ≤ max limit 1 then _ else _) >>= _ = _
    split
    · cases result <;> rfl
    · rfl
  refine ⟨result.map (·.2), size, fun b hb => ?_, ?_, hbuild⟩
  · cases result with
    | error error => cases hb
    | ok r =>
      cases hb
      refine ⟨hgrown r.1 r.2 rfl, ?_⟩
      by_contra hsmall
      exact build_zero_ne_ok e r.2 ((hbuild 0).trans (if_pos (by omega)))
  · intro size' limit heq
    cases result with
    | error error =>
      cases heq
      exact hfree size' limit rfl
    | ok r => cases heq

/-- A limit makes two things of the result without a limit, which is what every limit gives that is
high enough: if that is a program, a limit lets the same program through that is not longer than the
limit, and otherwise there is an error with the first size that is too much; and if it is an error,
there is that one or the other. -/
structure FiltersBy (compile : Nat → Except Error Program) (whole : Except Error Program) :
    Prop where
  enough : ∃ enough, ∀ limit, enough ≤ limit → compile limit = whole
  free : ∀ size limit, whole ≠ .error (.programTooLarge size limit)
  ok : ∀ P, whole = .ok P → ∀ limit, compile limit = if P.size ≤ limit then .ok P else
    .error (.programTooLarge (max limit 1 + 1) limit)
  error : ∀ error, whole = .error error → ∀ limit, compile limit = .error error ∨
    compile limit = .error (.programTooLarge (max limit 1 + 1) limit)

/-- **Freezing what is built under a limit** leaves it to the limit to filter. -/
theorem exists_filtersBy {freeze : Builder → Except Error Program}
    (hsize : ∀ b P, freeze b = .ok P → P.size = b.code.size)
    (hfault : ∀ b error, freeze b = .error error → error.isInternal = true) (e : Expr) :
    ∃ whole, FiltersBy (fun limit => e.build limit >>= freeze) whole := by
  obtain ⟨result, size, hgrown, hfree, hbuild⟩ := exists_build_eq e
  have hcompile : ∀ limit, (e.build limit >>= freeze) = if size ≤ max limit 1 then
      result >>= freeze else .error (.programTooLarge (max limit 1 + 1) limit) := by
    intro limit
    rw [hbuild limit]
    split <;> rfl
  refine ⟨result >>= freeze, ⟨size, fun limit hlimit => ?_⟩, fun size limit heq => ?_,
    fun P hP limit => ?_, fun error herror limit => ?_⟩
  · exact (hcompile limit).trans (if_pos (hlimit.trans (Nat.le_max_left ..)))
  · cases result with
    | error error =>
      cases heq
      exact hfree size limit rfl
    | ok b => exact absurd (hfault b _ heq) nofun
  · obtain ⟨b, rfl, hfreeze⟩ := Builder.exists_ok_of_bind hP
    obtain ⟨hb, htwo⟩ := hgrown b rfl
    refine (hcompile limit).trans ?_
    rw [hP, hsize b P hfreeze, hb]
    -- there are two instructions at least, so a limit below that makes no difference here
    exact if_congr (by omega) rfl rfl
  · by_cases hfits : size ≤ max limit 1
    · exact .inl ((hcompile limit).trans ((if_pos hfits).trans herror))
    · exact .inr ((hcompile limit).trans (if_neg hfits))

namespace FiltersBy

variable {compile : Nat → Except Error Program} {whole : Except Error Program} {P : Program}

/-- What a limit lets through is what there is without one, and not longer than the limit. -/
theorem of_ok (h : FiltersBy compile whole) (hP : compile limit = .ok P) :
    whole = .ok P ∧ P.size ≤ limit := by
  cases whole with
  | error error =>
    rcases h.error error rfl limit with heq | heq
    · rw [heq] at hP
      cases hP
    · rw [heq] at hP
      cases hP
  | ok Q =>
    rw [h.ok Q rfl limit] at hP
    split at hP
    · next hle =>
      cases hP
      exact ⟨rfl, hle⟩
    · cases hP

/-- A higher limit lets through what a lower one does. -/
theorem mono (h : FiltersBy compile whole) (hP : compile limit = .ok P) {limit' : Nat}
    (hle : limit ≤ limit') : compile limit' = .ok P := by
  obtain ⟨hwhole, hsize⟩ := h.of_ok hP
  rw [h.ok P hwhole limit', if_pos (hsize.trans hle)]

end FiltersBy

/-- **The limit of a program only filters**, with flattened forks and without. There is one result
that every limit gives that is high enough. If it is a program, every limit gives the same program
that is not below its number of instructions, and all others give the error that there are more
instructions than allowed, by one, or by two where not even one was allowed; if it is an error,
every limit gives that one or the other. So no program is longer than its limit, and a higher limit
gives the same program. -/
theorem compile_filters (e : Expr) :
    ∀ compile ∈ [fun limit => e.compile limit, fun limit => e.compileBinary limit],
      (∃ whole, FiltersBy compile whole) ∧
      ∀ limit P, compile limit = .ok P →
        P.size ≤ limit ∧ ∀ limit', limit ≤ limit' → compile limit' = .ok P := by
  have hsize : ∀ {b : Builder} {P : Program}, b.finish = .ok P → P.size = b.code.size :=
    fun hP => (Program.finishes_of_finish hP).size
  intro compile hmem
  have hfilters : ∃ whole, FiltersBy compile whole := by
    rcases List.mem_cons.mp hmem with rfl | hmem
    · refine exists_filtersBy (fun b P hP => ?_) (fun b error => Builder.isInternal_of_freeze) e
      obtain ⟨Q, hQ, rfl⟩ := Builder.freeze_eq_ok_iff.mp hP
      exact Q.flatten_size.trans (hsize hQ)
    · rw [List.mem_singleton.mp hmem]
      exact exists_filtersBy (fun b P hP => hsize (Builder.freezeBinary_eq_ok_iff.mp hP))
        (fun b error => Builder.isInternal_of_freezeBinary) e
  refine ⟨hfilters, fun limit P hP => ?_⟩
  obtain ⟨whole, h⟩ := hfilters
  exact ⟨(h.of_ok hP).2, fun limit' hle => h.mono hP hle⟩

/-- Two characters under limits that are high enough, one short, and zero. -/
theorem compile_filters_letters :
    let e : Expr := .text ['a', 'b']
    ∃ P, P.size = 4 ∧ e.compile 4 = .ok P ∧ e.compile 1000000 = .ok P ∧
      e.compile 3 = .error (.programTooLarge 4 3) ∧ e.compile 0 = .error (.programTooLarge 2 0) := by
  intro e
  let P : Program := ⟨4, #v[.fail, .consume (.single 0x61) 2, .consume (.single 0x62) 3, .accept], 1⟩
  have hP : e.compile 4 = .ok P := by cbv
  obtain ⟨⟨whole, hfilters⟩, hmono⟩ := compile_filters e _ List.mem_cons_self
  have hwhole := (hfilters.of_ok hP).1
  exact ⟨P, rfl, hP, (hmono 4 P hP).2 1000000 (by decide), hfilters.ok P hwhole 3,
    hfilters.ok P hwhole 0⟩

/-- An error that comes behind the first character is not seen where there is no room for it. -/
example :
    let e : Expr := .concat [.literal 'a' false, .group 0 .empty]
    e.compile 2 = .error .invalidArgument ∧ e.compile 1 = .error (.programTooLarge 2 1) :=
  ⟨rfl, rfl⟩

end Expr

end Lockstep
