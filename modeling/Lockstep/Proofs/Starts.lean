import Lockstep.Proofs.Choice

/-!
# Threads that start further left come first

A thread keeps the slot in which the start of its match was written. So the threads of an offset
stay in the order of their starts, and a match starts where the entry does that led to it.

- `Orderly`: slots in the order of their starts.
- `Orderly.replace`: threads that start where another one does may take its place.
- `Program.SparesMatch`: capture writes leave alone the slots of the whole match.
- `orderly_arrivals`: edges that read nothing keep threads orderly.
- `start?_of_mem_matchesOf`, `stop?_of_mem_matchesOf`: where the matches behind some entries start
  and end.
-/

namespace Lockstep

namespace Slots

theorem start?_setIfInBounds {slots : Slots} {slot : Nat} (h : slot ≠ 0) (value : Option Nat) :
    start? (slots.setIfInBounds slot value) = slots.start? := by
  unfold start?
  rw [Array.getElem?_setIfInBounds_ne h]

theorem stop?_setIfInBounds_one {slots : Slots} (h : 1 < slots.size) (value : Option Nat) :
    stop? (slots.setIfInBounds 1 value) = value := by
  unfold stop?
  rw [Array.getElem?_setIfInBounds_self_of_lt h]
  rfl

theorem start?_startAt {width : Nat} (h : 0 < width) (pos : Nat) :
    (startAt width pos).start? = some pos := by
  unfold start? startAt
  rw [Array.getElem?_setIfInBounds_self_of_lt (by simpa using h)]
  rfl

end Slots

/-- Slots of a certain width that start before `bound`, those further left first. -/
structure Orderly (width bound : Nat) (labels : List Slots) : Prop where
  sorted : labels.Pairwise fun a b => Verdict.offsetLt b.start? a.start? = false
  before : ∀ a ∈ labels, Verdict.offsetLt a.start? (some bound) = true
  size : ∀ a ∈ labels, a.size = width

namespace Orderly

variable {width bound : Nat} {labels labels' : List Slots}

theorem nil (width bound : Nat) : Orderly width bound [] :=
  ⟨List.Pairwise.nil, by simp, by simp⟩

theorem sublist (h : Orderly width bound labels) (hsub : labels'.Sublist labels) :
    Orderly width bound labels' :=
  ⟨h.sorted.sublist hsub, fun a ha => h.before a (hsub.subset ha),
    fun a ha => h.size a (hsub.subset ha)⟩

theorem exists_start (h : Orderly width bound labels) {a : Slots} (ha : a ∈ labels) :
    ∃ start, a.start? = some start ∧ start < bound := by
  have hbefore := h.before a ha
  cases hstart : a.start? with
  | none =>
    rw [hstart] at hbefore
    cases hbefore
  | some start =>
    rw [hstart] at hbefore
    exact ⟨start, rfl, by simpa [Verdict.offsetLt] using hbefore⟩

theorem mono (h : Orderly width bound labels) {bound' : Nat} (hle : bound ≤ bound') :
    Orderly width bound' labels := by
  refine ⟨h.sorted, fun a ha => ?_, h.size⟩
  obtain ⟨start, hstart, hlt⟩ := h.exists_start ha
  rw [hstart]
  simpa [Verdict.offsetLt] using hlt.trans_le hle

/-- A thread that starts at the bound comes last. -/
theorem concat (h : Orderly width bound labels) {a : Slots} (hstart : a.start? = some bound)
    (hsize : a.size = width) : Orderly width (bound + 1) (labels ++ [a]) := by
  have hbefore : ∀ b ∈ labels ++ [a], b ∈ labels ∨ b = a := by
    intro b hb
    simpa using hb
  refine ⟨?_, ?_, ?_⟩
  · refine List.pairwise_append.mpr ⟨h.sorted, List.pairwise_singleton _ _, ?_⟩
    intro b hb c hc
    rw [List.mem_singleton.mp hc, hstart]
    have hlt := h.before b hb
    by_contra hlt'
    have hself := Verdict.offsetLt_trans hlt (by simpa using hlt')
    rw [Verdict.offsetLt_irrefl] at hself
    cases hself
  · intro b hb
    rcases hbefore b hb with hb | rfl
    · exact (h.mono (Nat.le_succ bound)).before b hb
    · rw [hstart]
      simp [Verdict.offsetLt]
  · intro b hb
    rcases hbefore b hb with hb | rfl
    · exact h.size b hb
    · exact hsize

/-- The starts, as numbers. -/
theorem exists_starts (h : Orderly width bound labels) : ∃ starts : List Nat,
    labels.map Slots.start? = starts.map some ∧ starts.Pairwise (· ≤ ·) ∧
      ∀ start ∈ starts, start < bound := by
  refine ⟨labels.map fun a => a.start?.getD 0, ?_, ?_, ?_⟩
  · rw [List.map_map]
    refine List.map_congr_left fun a ha => ?_
    obtain ⟨start, hstart, -⟩ := h.exists_start ha
    rw [Function.comp_apply, hstart]
    rfl
  · rw [List.pairwise_map]
    refine h.sorted.imp_of_mem fun {a b} ha hb hab => ?_
    obtain ⟨start, hstart, -⟩ := h.exists_start ha
    obtain ⟨start', hstart', -⟩ := h.exists_start hb
    rw [hstart, hstart'] at hab ⊢
    simpa [Verdict.offsetLt] using hab
  · intro start hmem
    obtain ⟨a, ha, rfl⟩ := List.mem_map.mp hmem
    obtain ⟨start, hstart, hlt⟩ := h.exists_start ha
    rw [hstart]
    exact hlt

/-- Several threads with the start of one of them can take its place. -/
theorem replace {as bs cs : List Slots} {a : Slots} (h : Orderly width bound (as ++ a :: bs))
    (hcs : ∀ c ∈ cs, c.start? = a.start? ∧ c.size = a.size) :
    Orderly width bound (as ++ (cs ++ bs)) := by
  obtain ⟨hleft, hright, hcross⟩ := List.pairwise_append.mp h.sorted
  obtain ⟨hahead, hbehind⟩ := List.pairwise_cons.mp hright
  have ha : a ∈ as ++ a :: bs := by simp
  -- what goes over from the one thread to those in its place holds of all threads, if it did
  have hmem : ∀ {p : Slots → Prop}, (∀ c ∈ cs, p a → p c) → (∀ b ∈ as ++ a :: bs, p b) →
      ∀ b ∈ as ++ (cs ++ bs), p b := by
    intro p hp hall b hb
    rcases List.mem_append.mp hb with hb | hb
    · exact hall b (List.mem_append_left _ hb)
    · rcases List.mem_append.mp hb with hb | hb
      · exact hp b hb (hall a ha)
      · exact hall b (List.mem_append_right _ (List.mem_cons_of_mem _ hb))
  refine ⟨?_, hmem (fun c hc => ?_) h.before, hmem (fun c hc => ?_) h.size⟩
  · refine List.pairwise_append.mpr ⟨hleft, List.pairwise_append.mpr ⟨?_, hbehind, ?_⟩, ?_⟩
    · refine List.pairwise_of_forall_mem_list fun c hc c' hc' => ?_
      rw [(hcs c hc).1, (hcs c' hc').1]
      exact Verdict.offsetLt_irrefl _
    · intro c hc b hb
      rw [(hcs c hc).1]
      exact hahead b hb
    · intro b hb c hc
      rcases List.mem_append.mp hc with hc | hc
      · rw [(hcs c hc).1]
        exact hcross b hb a (List.mem_cons_self ..)
      · exact hcross b hb c (List.mem_cons_of_mem _ hc)
  · rw [(hcs c hc).1]
    exact id
  · rw [(hcs c hc).2]
    exact id

end Orderly

/-- The slot that an instruction writes to. -/
def Instr.slot? {ε : Type} : Instr ε → Option Nat
  | save slot _ => some slot
  | fork _ | assert _ _ | jump _ | fail | accept | consume _ _ => none

namespace Program

/-- Capture writes leave alone the slots of the whole match. -/
def SparesMatch (P : Program) : Prop :=
  ∀ pc slot next, P.instr pc = .save slot next → 2 ≤ slot

instance (P : Program) : Decidable P.SparesMatch :=
  decidable_of_iff (∀ pc, ∀ slot ∈ (P.instr pc).slot?, 2 ≤ slot) <| by
    refine forall_congr' fun pc => ?_
    cases P.instr pc with
    | save slot next => simp [Instr.slot?]
    | fork | assert | jump | fail | accept | consume => simp [Instr.slot?]

variable {P : Program} {task : Task} {i : task.text.Offset}

/-! ## What a way does to the slots -/

theorem start?_carry (hspare : P.SparesMatch) (pos : Nat) (cond : Conditions) (pc : Fin P.size)
    (slots : Slots) : ((P.passing pos cond).carry pc slots).start? = slots.start? := by
  cases hi : P.instr pc with
  | save slot next =>
    have hslot : 2 ≤ slot := hspare pc slot next hi
    have hcarry : (P.passing pos cond).carry pc slots = slots.setIfInBounds slot (some pos) := by
      simp only [passing, hi]
    rw [hcarry, Slots.start?_setIfInBounds (by omega)]
  | fork | assert | jump | fail | accept | consume => simp only [passing, hi]

theorem size_carry (pos : Nat) (cond : Conditions) (pc : Fin P.size) (slots : Slots) :
    ((P.passing pos cond).carry pc slots).size = slots.size := by
  cases hi : P.instr pc <;> simp [passing, hi]

/-- What holds of the start and the number of slots of all entries does behind edges that read
nothing, too. -/
theorem forall_slots_arrivals (hspare : P.SparesMatch) {p : Option Nat → Nat → Prop}
    {seen : Finset (Fin P.size)} {es : List (Fin P.size × Slots)}
    (hes : ∀ e ∈ es, p e.2.start? e.2.size) (pos : Nat) (cond : Conditions) :
    ∀ e ∈ (P.passing pos cond).arrivals seen es, p e.2.start? e.2.size := by
  refine Graph.forall_label_of_arrivals (p := fun slots : Slots => p slots.start? slots.size) ?_ hes
  intro pc slots hslots
  rw [start?_carry hspare, size_carry]
  exact hslots

/-- Edges that read nothing keep threads orderly. -/
theorem orderly_arrivals (hspare : P.SparesMatch) {width bound : Nat}
    {es : List (Fin P.size × Slots)} (h : Orderly width bound (es.map (·.2))) (pos : Nat)
    (cond : Conditions) :
    Orderly width bound (((P.passing pos cond).arrivals ∅ es).map (·.2)) := by
  have hbefore : ∀ e ∈ es, Verdict.offsetLt e.2.start? (some bound) = true :=
    fun e he => h.before _ (List.mem_map_of_mem he)
  have hsize : ∀ e ∈ es, e.2.size = width := fun e he => h.size _ (List.mem_map_of_mem he)
  refine ⟨?_, ?_, ?_⟩
  · rw [List.pairwise_map]
    refine Graph.pairwise_arrivals (f := Slots.start?)
      (R := fun a b => Verdict.offsetLt b a = false) Verdict.offsetLt_irrefl
      (fun pc slots => start?_carry hspare pos cond pc slots) ?_
    exact List.pairwise_map.mp h.sorted
  · intro a ha
    obtain ⟨e, he, rfl⟩ := List.mem_map.mp ha
    exact forall_slots_arrivals hspare
      (p := fun start _ => Verdict.offsetLt start (some bound) = true) hbefore pos cond e he
  · intro a ha
    obtain ⟨e, he, rfl⟩ := List.mem_map.mp ha
    exact forall_slots_arrivals hspare (p := fun _ size => size = width) hsize pos cond e he

/-- Every match behind some entries starts where one of them does. -/
theorem start?_of_mem_matchesOf (hspare : P.SparesMatch)
    {seen : Finset (Fin P.size × task.text.Offset)}
    {es : List ((Fin P.size × task.text.Offset) × Slots)} {q : Option Nat → Prop}
    (hes : ∀ e ∈ es, q e.2.start?) :
    ∀ m ∈ P.matchesOf task ((P.walk task.text).arrivals seen es), q m.2.start? := by
  intro m hm
  obtain ⟨e, he, -, rfl⟩ := mem_matchesOf.mp hm
  rw [Slots.start?_setIfInBounds (by decide)]
  refine Graph.forall_label_of_arrivals (p := fun slots => q slots.start?) ?_ hes e he
  rintro ⟨pc, k⟩ slots hslots
  rw [carry_walk, passingAt, start?_carry hspare]
  exact hslots

/-- Every match behind some entries has the slot in which its end is written. -/
theorem stop?_of_mem_matchesOf (hwidth : 2 ≤ task.width)
    {seen : Finset (Fin P.size × task.text.Offset)}
    {es : List ((Fin P.size × task.text.Offset) × Slots)}
    (hes : ∀ e ∈ es, e.2.size = task.width) :
    ∀ m ∈ P.matchesOf task ((P.walk task.text).arrivals seen es), m.2.stop? = some (m.1 : Nat) := by
  intro m hm
  obtain ⟨e, he, -, rfl⟩ := mem_matchesOf.mp hm
  have hsize : e.2.size = task.width := by
    refine Graph.forall_label_of_arrivals (p := fun slots => slots.size = task.width) ?_ hes e he
    rintro ⟨pc, k⟩ slots hslots
    rw [carry_walk, passingAt, size_carry]
    exact hslots
  exact Slots.stop?_setIfInBounds_one (by omega) _

end Program

end Lockstep
