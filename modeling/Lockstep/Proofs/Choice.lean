import Lockstep.Proofs.Reference

/-!
# Choosing among matches

A search meets the matches it finds in another order than a depth-first search does, and keeps the
best one. Between matches that end at different offsets the order does not matter.

- `Verdict.take`, `Verdict.improve`: a match that replaces the verdict, if there is one, or if it
  is better.
- `Task.pick`: the verdict after some matches.
- `Verdict.improve_comm`: matches that end at different offsets may be met in either order.
- `pick_eq_take_choose`: without a match so far, the verdict is the match that is wanted.
-/

namespace Lockstep

namespace Verdict

/-! ## The order of offsets -/

theorem offsetLt_trans {a b c : Option Nat} (hab : offsetLt a b = true)
    (hbc : offsetLt b c = true) : offsetLt a c = true := by
  cases a <;> cases b <;> cases c <;> simp only [offsetLt, decide_eq_true_eq] at * <;> first
    | omega
    | contradiction

theorem offsetLt_irrefl (a : Option Nat) : offsetLt a a = false := by
  cases a <;> simp [offsetLt]

/-- What is less than something is less than all that is not less than that. -/
theorem offsetLt_of_lt_of_not_lt {a b c : Option Nat} (hab : offsetLt a b = true)
    (hbc : offsetLt c b = false) : offsetLt a c = true := by
  cases a <;> cases b <;> cases c <;> simp_all [offsetLt]
  omega

/-! ## Better matches -/

variable {n : Nat}

/-- A match replaces what was found before, if there is one. -/
def take (v : Verdict) : Option Slots → Verdict
  | some slots => ⟨true, slots⟩
  | none => v

/-- A match, given with the offset where it ends, replaces what was found before if it is better. -/
def improve (v : Verdict) (m : Fin n × Slots) : Verdict :=
  if v.found = false ∨ v.isBeatenBy m.2 m.1 = true then ⟨true, m.2⟩ else v

@[simp] theorem take_none (v : Verdict) : v.take none = v := rfl

@[simp] theorem take_some (v : Verdict) (slots : Slots) : v.take (some slots) = ⟨true, slots⟩ := rfl

@[simp] theorem found_take_pending (width : Nat) (wanted : Option Slots) :
    ((pending width).take wanted).found = wanted.isSome := by
  cases wanted <;> rfl

@[simp] theorem submatches_take_pending (width : Nat) (wanted : Option Slots) :
    ((pending width).take wanted).submatches width = wanted.getD (Slots.unset width) := by
  cases wanted <;> rfl

theorem improve_of_beaten {v : Verdict} {m : Fin n × Slots}
    (h : v.found = false ∨ v.isBeatenBy m.2 m.1 = true) : v.improve m = ⟨true, m.2⟩ :=
  if_pos h

theorem improve_of_not_beaten {v : Verdict} {m : Fin n × Slots}
    (h : ¬ (v.found = false ∨ v.isBeatenBy m.2 m.1 = true)) : v.improve m = v :=
  if_neg h

theorem isBeatenBy_iff {v : Verdict} {slots : Slots} {pos : Nat} :
    v.isBeatenBy slots pos = true ↔ offsetLt slots.start? v.slots.start? = true ∨
      (slots.start? = v.slots.start? ∧ offsetLt v.slots.stop? (some pos) = true) := by
  rw [isBeatenBy, Bool.or_eq_true, Bool.and_eq_true, beq_iff_eq]

/-- What is better than a better match is better. -/
theorem isBeatenBy_trans {v : Verdict} {m m' : Fin n × Slots} (hstop : m.2.stop? = some (m.1 : Nat))
    (h : v.isBeatenBy m.2 m.1 = true) (h' : isBeatenBy ⟨true, m.2⟩ m'.2 m'.1 = true) :
    v.isBeatenBy m'.2 m'.1 = true := by
  rw [isBeatenBy_iff] at h h' ⊢
  rcases h' with hlt' | ⟨heq', hstop'⟩
  · rcases h with hlt | ⟨heq, -⟩
    · exact .inl (offsetLt_trans hlt' hlt)
    · exact .inl (by rw [← heq]; exact hlt')
  · rcases h with hlt | ⟨heq, hstop''⟩
    · exact .inl (by rw [heq']; exact hlt)
    · refine .inr ⟨heq'.trans heq, ?_⟩
      rw [hstop] at hstop'
      exact offsetLt_trans hstop'' hstop'

/-- Of two matches that end at different offsets, exactly one is better. -/
theorem isBeatenBy_swap {m m' : Fin n × Slots} (hstop : m.2.stop? = some (m.1 : Nat))
    (hstop' : m'.2.stop? = some (m'.1 : Nat)) (hne : m.1 ≠ m'.1) :
    isBeatenBy ⟨true, m.2⟩ m'.2 m'.1 = !isBeatenBy ⟨true, m'.2⟩ m.2 m.1 := by
  have hne' : (m.1 : Nat) ≠ m'.1 := Fin.val_ne_of_ne hne
  simp only [isBeatenBy, hstop, hstop']
  cases m.2.start? <;> cases m'.2.start? <;> simp [offsetLt] <;> grind

/-- **Matches that end at different offsets** may be met in either order. -/
theorem improve_comm (v : Verdict) {m m' : Fin n × Slots} (hstop : m.2.stop? = some (m.1 : Nat))
    (hstop' : m'.2.stop? = some (m'.1 : Nat)) (hne : m.1 ≠ m'.1) :
    (v.improve m).improve m' = (v.improve m').improve m := by
  have hswap := isBeatenBy_swap hstop hstop' hne
  -- of the two that beat the verdict, the better one stays in either order
  by_cases hm : v.found = false ∨ v.isBeatenBy m.2 m.1 = true
  · rw [improve_of_beaten hm]
    by_cases hm' : v.found = false ∨ v.isBeatenBy m'.2 m'.1 = true
    · rw [improve_of_beaten hm']
      cases hbeaten : isBeatenBy ⟨true, m.2⟩ m'.2 m'.1 with
      | true =>
        rw [hbeaten] at hswap
        rw [improve_of_beaten (.inr hbeaten), improve_of_not_beaten]
        rintro (hfound | hbeaten')
        · cases hfound
        · rw [hbeaten'] at hswap
          cases hswap
      | false =>
        rw [hbeaten] at hswap
        rw [improve_of_not_beaten, improve_of_beaten (.inr (by simpa using hswap.symm))]
        rintro (hfound | hbeaten')
        · cases hfound
        · rw [hbeaten] at hbeaten'
          cases hbeaten'
    · rw [improve_of_not_beaten hm', improve_of_beaten hm, improve_of_not_beaten]
      rintro (hfound | hbeaten)
      · cases hfound
      · rcases hm with hfound | hbeaten'
        · exact hm' (.inl hfound)
        · exact hm' (.inr (isBeatenBy_trans hstop hbeaten' hbeaten))
  · rw [improve_of_not_beaten hm]
    by_cases hm' : v.found = false ∨ v.isBeatenBy m'.2 m'.1 = true
    · rw [improve_of_beaten hm', improve_of_not_beaten]
      rintro (hfound | hbeaten)
      · cases hfound
      · rcases hm' with hfound | hbeaten'
        · exact hm (.inl hfound)
        · exact hm (.inr (isBeatenBy_trans hstop' hbeaten' hbeaten))
    · rw [improve_of_not_beaten hm', improve_of_not_beaten hm]

/-! ## Several matches -/

@[simp] theorem found_improve (v : Verdict) (m : Fin n × Slots) : (v.improve m).found = true := by
  unfold improve
  split
  · rfl
  · next h =>
    by_contra hfound
    exact h (.inl (by simpa using hfound))

theorem found_foldl_improve (v : Verdict) (ms : List (Fin n × Slots)) :
    (ms.foldl improve v).found = true ↔ v.found = true ∨ ms ≠ [] := by
  induction ms generalizing v with
  | nil => simp
  | cons m ms ih =>
    rw [List.foldl_cons, ih]
    simp

/-- Matches that start further right than the verdict do not change it. -/
theorem improve_of_later {v : Verdict} {m : Fin n × Slots} (hfound : v.found = true)
    (h : offsetLt v.slots.start? m.2.start? = true) : v.improve m = v := by
  refine improve_of_not_beaten ?_
  rintro (hno | hbeaten)
  · rw [hfound] at hno
    cases hno
  · rcases isBeatenBy_iff.mp hbeaten with hlt | ⟨heq, -⟩
    · have hself := offsetLt_trans h hlt
      rw [offsetLt_irrefl] at hself
      cases hself
    · rw [heq, offsetLt_irrefl] at h
      cases h

theorem foldl_improve_of_later {v : Verdict} {ms : List (Fin n × Slots)} (hfound : v.found = true)
    (h : ∀ m ∈ ms, offsetLt v.slots.start? m.2.start? = true) : ms.foldl improve v = v := by
  induction ms with
  | nil => rfl
  | cons m ms ih =>
    rw [List.foldl_cons, improve_of_later hfound (h m (List.mem_cons_self ..))]
    exact ih fun m' hm' => h m' (List.mem_cons_of_mem _ hm')

/-- What starts further right than a verdict starts further right than a better one. -/
theorem offsetLt_foldl_improve {v : Verdict} {start : Option Nat} (hfound : v.found = true)
    (h : offsetLt v.slots.start? start = true) (ms : List (Fin n × Slots)) :
    offsetLt (ms.foldl improve v).slots.start? start = true := by
  induction ms generalizing v with
  | nil => exact h
  | cons m ms ih =>
    refine ih (found_improve v m) ?_
    by_cases hbeaten : v.found = false ∨ v.isBeatenBy m.2 m.1 = true
    · rw [improve_of_beaten hbeaten]
      rcases hbeaten with hno | hbeaten
      · rw [hfound] at hno
        cases hno
      · rcases isBeatenBy_iff.mp hbeaten with hlt | ⟨heq, -⟩
        · exact offsetLt_trans hlt h
        · rw [heq]
          exact h
    · rw [improve_of_not_beaten hbeaten]
      exact h

/-- A match may be met before or after some that end at other offsets. -/
theorem foldl_improve_comm (v : Verdict) {m : Fin n × Slots} {ms : List (Fin n × Slots)}
    (hstop : m.2.stop? = some (m.1 : Nat))
    (hms : ∀ m' ∈ ms, m'.2.stop? = some (m'.1 : Nat) ∧ m.1 ≠ m'.1) :
    ms.foldl improve (v.improve m) = (ms.foldl improve v).improve m := by
  induction ms generalizing v with
  | nil => rfl
  | cons m' ms ih =>
    obtain ⟨hstop', hne⟩ := hms m' (List.mem_cons_self ..)
    rw [List.foldl_cons, List.foldl_cons, improve_comm v hstop hstop' hne]
    exact ih _ fun m'' hm'' => hms m'' (List.mem_cons_of_mem _ hm'')

/-- Matches at one offset may be met before or after some that end at other offsets. -/
theorem foldl_foldl_improve_comm (v : Verdict) {ms ms' : List (Fin n × Slots)}
    (hms : ∀ m ∈ ms, m.2.stop? = some (m.1 : Nat))
    (hms' : ∀ m' ∈ ms', m'.2.stop? = some (m'.1 : Nat))
    (hne : ∀ m ∈ ms, ∀ m' ∈ ms', m.1 ≠ m'.1) :
    ms'.foldl improve (ms.foldl improve v) = ms.foldl improve (ms'.foldl improve v) := by
  induction ms generalizing v with
  | nil => rfl
  | cons m ms ih =>
    have hcomm : ms'.foldl improve (v.improve m) = (ms'.foldl improve v).improve m := by
      refine foldl_improve_comm v (hms m (List.mem_cons_self ..)) fun m' hm' => ⟨hms' m' hm', ?_⟩
      exact hne m (List.mem_cons_self ..) m' hm'
    rw [List.foldl_cons, List.foldl_cons, ← hcomm]
    exact ih _ (fun m'' hm'' => hms m'' (List.mem_cons_of_mem _ hm''))
      fun m'' hm'' => hne m'' (List.mem_cons_of_mem _ hm'')

end Verdict

/-! ## The verdict after some matches -/

namespace Task

variable {task : Task}

/-- The verdict after some matches have been found, in the order of a depth-first search. -/
def pick (task : Task) (v : Verdict) (found : List (task.text.Offset × Slots)) : Verdict :=
  match task.kind with
  | .leftmostFirst => v.take (found.head?.map (·.2))
  | .leftmostLongest => found.foldl Verdict.improve v

theorem pick_first (h : task.kind = .leftmostFirst) (v : Verdict)
    (found : List (task.text.Offset × Slots)) :
    task.pick v found = v.take (found.head?.map (·.2)) := by
  simp only [pick, h]

theorem pick_longest (h : task.kind = .leftmostLongest) (v : Verdict)
    (found : List (task.text.Offset × Slots)) :
    task.pick v found = found.foldl Verdict.improve v := by
  simp only [pick, h]

@[simp] theorem pick_nil (v : Verdict) : task.pick v [] = v := by
  cases h : task.kind with
  | leftmostFirst => rw [pick_first h]; rfl
  | leftmostLongest => rw [pick_longest h]; rfl

theorem found_pick (v : Verdict) (found : List (task.text.Offset × Slots)) :
    (task.pick v found).found = true ↔ v.found = true ∨ found ≠ [] := by
  cases h : task.kind with
  | leftmostFirst =>
    rw [pick_first h]
    cases found with
    | nil => simp
    | cons m found => simp
  | leftmostLongest =>
    rw [pick_longest h]
    exact Verdict.found_foldl_improve v found

/-- With a match found, those that start further right do not matter. -/
theorem pick_append_of_later {v : Verdict} (hfound : v.found = false) {s : Option Nat}
    {found later : List (task.text.Offset × Slots)} (hne : found ≠ [])
    (hbefore : ∀ m ∈ found, Verdict.offsetLt m.2.start? s = true)
    (hlater : ∀ m ∈ later, m.2.start? = s) :
    task.pick v (found ++ later) = task.pick v found := by
  obtain ⟨m, ms, rfl⟩ := List.exists_cons_of_ne_nil hne
  cases h : task.kind with
  | leftmostFirst => rw [pick_first h, pick_first h]; rfl
  | leftmostLongest =>
    rw [pick_longest h, pick_longest h, List.foldl_append]
    have hm : v.improve m = ⟨true, m.2⟩ := Verdict.improve_of_beaten (.inl hfound)
    have hstart : Verdict.offsetLt ((m :: ms).foldl Verdict.improve v).slots.start? s = true := by
      rw [List.foldl_cons]
      refine Verdict.offsetLt_foldl_improve (Verdict.found_improve v m) ?_ ms
      rw [hm]
      exact hbefore m (List.mem_cons_self ..)
    refine Verdict.foldl_improve_of_later ?_ fun m' hm' => ?_
    · exact (Verdict.found_foldl_improve v _).mpr (.inr hne)
    · rw [hlater m' hm']
      exact hstart

/-- Of two matches that start alike, the one that ends further right is better. -/
theorem isBeatenBy_iff_lt {m m' : task.text.Offset × Slots} {start : Option Nat}
    (hm : m.2.start? = start ∧ m.2.stop? = some (m.1 : Nat))
    (hm' : m'.2.start? = start ∧ m'.2.stop? = some (m'.1 : Nat)) :
    Verdict.isBeatenBy ⟨true, m.2⟩ m'.2 m'.1 = true ↔ m.1 < m'.1 := by
  rw [Verdict.isBeatenBy_iff, hm.1, hm.2, hm'.1, Verdict.offsetLt_irrefl]
  simp [Verdict.offsetLt]

/-- One more match: the verdict goes along with the match that ends furthest right so far. -/
theorem improve_take_eq {v : Verdict} (hfound : v.found = false) {start : Option Nat}
    {best : Option (task.text.Offset × Slots)} {m : task.text.Offset × Slots}
    (hbest : ∀ m ∈ best, m.2.start? = start ∧ m.2.stop? = some (m.1 : Nat))
    (hm : m.2.start? = start ∧ m.2.stop? = some (m.1 : Nat)) :
    (v.take (best.map (·.2))).improve m =
      v.take ((List.argAux (fun b c => c.1 < b.1) best m).map (·.2)) := by
  cases best with
  | none => exact Verdict.improve_of_beaten (.inl hfound)
  | some c =>
    have hiff := isBeatenBy_iff_lt (hbest c rfl) hm
    show Verdict.improve ⟨true, c.2⟩ m = _
    by_cases hlt : c.1 < m.1
    · rw [Verdict.improve_of_beaten (.inr (hiff.mpr hlt))]
      simp [List.argAux, hlt]
    · rw [Verdict.improve_of_not_beaten]
      · simp [List.argAux, hlt]
      · rintro (hno | hbeaten)
        · cases hno
        · exact hlt (hiff.mp hbeaten)

theorem foldl_improve_take_eq {v : Verdict} (hfound : v.found = false) {start : Option Nat}
    {found : List (task.text.Offset × Slots)}
    (hms : ∀ m ∈ found, m.2.start? = start ∧ m.2.stop? = some (m.1 : Nat))
    (best : Option (task.text.Offset × Slots))
    (hbest : ∀ m ∈ best, m.2.start? = start ∧ m.2.stop? = some (m.1 : Nat)) :
    found.foldl Verdict.improve (v.take (best.map (·.2))) =
      v.take ((found.foldl (List.argAux fun b c => c.1 < b.1) best).map (·.2)) := by
  induction found generalizing best with
  | nil => rfl
  | cons m ms ih =>
    have hm := hms m (List.mem_cons_self ..)
    rw [List.foldl_cons, List.foldl_cons, improve_take_eq hfound hbest hm]
    -- the best so far is the new match or the old one
    refine ih (fun m' hm' => hms m' (List.mem_cons_of_mem _ hm')) _ fun m' hm' => ?_
    cases best with
    | none =>
      obtain rfl : m = m' := by simpa [List.argAux] using hm'
      exact hm
    | some c =>
      have hmem : m' = m ∨ m' = c := by
        simp only [List.argAux, Option.mem_def] at hm'
        split at hm'
        · exact .inl (by simpa using hm'.symm)
        · exact .inr (by simpa using hm'.symm)
      rcases hmem with rfl | rfl
      · exact hm
      · exact hbest _ rfl

/-- **Without a match so far**, the verdict is the match that is wanted, if all start alike. -/
theorem pick_eq_take_choose {v : Verdict} (hfound : v.found = false) {start : Option Nat}
    {found : List (task.text.Offset × Slots)}
    (hms : ∀ m ∈ found, m.2.start? = start ∧ m.2.stop? = some (m.1 : Nat)) :
    task.pick v found = v.take (task.choose found) := by
  cases h : task.kind with
  | leftmostFirst =>
    rw [pick_first h]
    simp only [choose, h]
  | leftmostLongest =>
    rw [pick_longest h]
    simp only [choose, h, List.argmax]
    exact foldl_improve_take_eq hfound hms none (by simp)

end Task

end Lockstep
