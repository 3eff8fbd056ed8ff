import Lockstep.Program.Lead
import Lockstep.Proofs.Accepting

/-!
# Every match begins as the look ahead says

What is told about a program from a look at its first instructions holds of every match: the
conditions that are asked for, and the characters that are read first.

- `entry_subset`: where a thread can wait at all, the conditions of the entry hold.
- `exists_consume_of_lead`: with characters to begin with there is a single way to the first of
  them, the same at every offset.
- `literal_isPrefix`, `accepts_iff_of_complete`: the symbols that a way to the end of a match reads.
- `accepts_as_foretold`: all that a look ahead tells.
-/

namespace Lockstep

namespace Text

/-- From an offset on, the text reads as these characters. -/
def Spells (text : Text) : List Char → text.Offset → Prop
  | [], _ => True
  | c :: cs, i => ∃ j, text.read? i = some (c.val, j) ∧ text.Spells cs j

theorem spells_of_reads {text : Text} {cs : List Char} {i : text.Offset} {j : Nat}
    (h : text.reader.Reads i (cs.map Char.val) j) : text.Spells cs i := by
  induction cs generalizing i with
  | nil => trivial
  | cons c cs ih =>
    obtain ⟨width, hstep, hrest⟩ := h
    obtain ⟨k, hread, hk⟩ := exists_read_of_reader_step hstep
    exact ⟨k, hread, ih (hk ▸ hrest)⟩

end Text

namespace Program

variable {P : Program} {text : Text}

/-! ## The conditions of the entry -/

/-- With enough steps or not, what is gathered holds wherever a thread comes to wait. -/
theorem gather_of_reaches {pos : Nat} {cond : Conditions} (steps : Nat) {pc stop : Fin P.size}
    (hreach : (P.passing pos cond).Reaches pc stop) (hstop : (P.instr stop).isStop = true)
    {found : Conditions} (hfound : found ⊆ cond) :
    ∃ entry, P.gather steps pc found = some entry ∧ entry ⊆ cond := by
  induction steps generalizing pc found with
  | zero => exact ⟨found, rfl, hfound⟩
  | succ steps ih =>
    have hfirst : (P.instr pc).isStop = false →
        ∃ v ∈ (P.passing pos cond).next pc, (P.passing pos cond).Reaches v stop := by
      intro hpass
      rcases hreach.cases_head with rfl | hway
      · rw [hpass] at hstop
        cases hstop
      · exact hway
    cases hi : P.instr pc with
    | accept | consume | fork => exact ⟨found, by rw [gather, hi], hfound⟩
    | fail =>
      obtain ⟨v, hv, -⟩ := hfirst (by rw [hi]; rfl)
      simp [passing, hi] at hv
    | jump next | save _ next =>
      obtain ⟨v, hv, hrest⟩ := hfirst (by rw [hi]; rfl)
      have hnext : v = next := by simpa [passing, hi] using hv
      rw [gather, hi]
      exact ih (hnext ▸ hrest) hfound
    -- an assertion on the way lets pass, so its conditions hold
    | assert need next =>
      obtain ⟨v, hv, hrest⟩ := hfirst (by rw [hi]; rfl)
      by_cases hneed : need ⊆ cond
      · have hnext : v = next := by simpa [passing, hi, hneed] using hv
        rw [gather, hi]
        exact ih (hnext ▸ hrest) (Conditions.union_subset_iff.mpr ⟨hfound, hneed⟩)
      · simp [passing, hi, hneed] at hv

/-- **The entry is sound**: it exists, and its conditions hold, wherever a thread that starts there
comes to wait. -/
theorem entry_subset {pos : Nat} {cond : Conditions} {stop : Fin P.size}
    (hreach : (P.passing pos cond).Reaches P.start stop) (hstop : (P.instr stop).isStop = true) :
    ∃ entry, P.entry? = some entry ∧ entry ⊆ cond :=
  gather_of_reaches P.size hreach hstop (Conditions.empty_subset cond)

/-! ## The way to the first character -/

theorem settle_of_next {pc next : Fin P.size}
    (h : P.instr pc = .jump next ∨ ∃ slot, P.instr pc = .save slot next) (steps : Nat) :
    P.settle (steps + 1) pc = P.settle steps next := by
  rcases h with h | ⟨slot, h⟩ <;> rw [settle, h]

/-- An instruction is passed through along its single edge, or the search for the end of single
edges ends there. -/
theorem settle_cases (pc : Fin P.size) :
    (∃ next, (P.instr pc = .jump next ∨ ∃ slot, P.instr pc = .save slot next) ∧
        ∀ pos cond, (P.passing pos cond).next pc = [next]) ∨
      ∀ steps, P.settle steps pc = pc := by
  cases hi : P.instr pc with
  | jump next => exact .inl ⟨next, .inl rfl, fun pos cond => by simp only [passing, hi]⟩
  | save slot next =>
    exact .inl ⟨next, .inr ⟨slot, rfl⟩, fun pos cond => by simp only [passing, hi]⟩
  | accept | consume | fork | assert | fail =>
    refine .inr fun steps => ?_
    cases steps with
    | zero => rfl
    | succ steps => rw [settle, hi]

/-- Single edges lead to where they end. -/
theorem reaches_settle (steps : Nat) (pc : Fin P.size) (pos : Nat) (cond : Conditions) :
    (P.passing pos cond).Reaches pc (P.settle steps pc) := by
  induction steps generalizing pc with
  | zero => exact .refl pc
  | succ steps ih =>
    rcases P.settle_cases pc with ⟨next, hpc, hnext⟩ | hend
    · rw [settle_of_next hpc]
      exact .head (by rw [hnext]; exact List.mem_singleton_self _) (ih next)
    · rw [hend]
      exact .refl pc

/-- Every node on the way along single edges leads to where they end; single edges are the same at
every offset. -/
theorem reaches_settle_of_reaches (steps : Nat) {pc v : Fin P.size} {pos : Nat} {cond : Conditions}
    (hstop : (P.instr (P.settle steps pc)).isStop = true)
    (hreach : (P.passing pos cond).Reaches pc v) (pos' : Nat) (cond' : Conditions) :
    (P.passing pos' cond').Reaches v (P.settle steps pc) := by
  induction steps generalizing pc with
  | zero =>
    rcases hreach.cases_head with rfl | ⟨w, hw, -⟩
    · exact .refl _
    · have hpc : (P.instr pc).isStop = true := hstop
      rw [next_passing_of_isStop hpc] at hw
      exact absurd hw List.not_mem_nil
  | succ steps ih =>
    rcases hreach.cases_head with rfl | ⟨w, hw, hwv⟩
    · exact P.reaches_settle (steps + 1) pc pos' cond'
    · rcases P.settle_cases pc with ⟨next, hpc, hnext⟩ | hend
      · rw [hnext, List.mem_singleton] at hw
        subst hw
        rw [settle_of_next hpc] at hstop ⊢
        exact ih hstop hwv
      · rw [hend] at hstop
        rw [next_passing_of_isStop hstop] at hw
        exact absurd hw List.not_mem_nil

/-- Characters are read off one by one, as far as single ones are asked for. -/
theorem spell_cases (steps : Nat) (pc : Fin P.size) :
    (∃ c next, P.instr pc = .consume (.single c.val) next ∧ P.spell (steps + 1) pc =
        (c :: (P.spell steps (P.settle P.size next)).1,
          (P.spell steps (P.settle P.size next)).2)) ∨
      P.spell (steps + 1) pc = ([], pc) := by
  rw [spell]
  split
  · next r next hpc =>
    split
    · next c hc =>
      rw [Symbol.toChar?_eq_some_iff.mp hc] at hpc
      exact .inl ⟨c, next, hpc, rfl⟩
    · exact .inr rfl
  · exact .inr rfl

/-- What is read off starts with the character that is read where it starts. -/
theorem exists_consume_of_spell {steps : Nat} {pc : Fin P.size} {c : Char} {cs : List Char}
    (h : (P.spell steps pc).1 = c :: cs) :
    ∃ next, P.instr pc = .consume (.single c.val) next := by
  cases steps with
  | zero => cases h
  | succ steps =>
    rcases P.spell_cases steps pc with ⟨c', next, hpc, hspell⟩ | hspell
    · rw [hspell] at h
      obtain ⟨rfl, -⟩ := List.cons.inj h
      exact ⟨next, hpc⟩
    · rw [hspell] at h
      cases h

/-- With characters to begin with, single edges end at an instruction that reads the first of
them. -/
theorem exists_consume_of_lead {c : Char} {cs : List Char} (h : P.literal.chars = c :: cs) :
    ∃ next, P.instr (P.settle P.size P.start) = .consume (.single c.val) next := by
  have hspell : (P.spell P.size (P.settle P.size P.start)).1 = c :: cs := h
  exact exists_consume_of_spell hspell

/-! ## The first characters -/

variable {R : Reader} {i j : Nat} {rs : List Symbol}

/-- Where single edges lead, the same ways lead to the end of a match. -/
theorem accepts_settle (steps : Nat) (pc : Fin P.size) :
    P.Accepts R (P.settle steps pc) i rs j ↔ P.Accepts R pc i rs j := by
  induction steps generalizing pc with
  | zero => exact Iff.rfl
  | succ steps ih =>
    rcases P.settle_cases pc with ⟨next, hpc, hnext⟩ | hend
    · have hstop : (P.instr pc).isStop = false := by
        rcases hpc with hpc | ⟨slot, hpc⟩ <;> rw [hpc] <;> rfl
      rw [settle_of_next hpc, ih next, accepts_iff_of_not_isStop hstop, hnext]
      simp
    · rw [hend]

/-- A way to the end of a match reads the characters that are read off, and maybe others behind
them. -/
theorem spell_isPrefix (steps : Nat) {pc : Fin P.size} (h : P.Accepts R pc i rs j) :
    (P.spell steps pc).1.map Char.val <+: rs := by
  induction steps generalizing pc i rs with
  | zero => exact List.nil_prefix
  | succ steps ih =>
    rcases P.spell_cases steps pc with ⟨c, next, hpc, hspell⟩ | hspell
    · obtain ⟨r, width, rest, rfl, -, hr, hrest⟩ := (accepts_iff_of_consume hpc).mp h
      -- the one symbol that can be read is the one that is read off
      have hrc : c.val = r := SymbolClass.mem_single.mp hr
      rw [hspell, List.map_cons, hrc]
      exact (List.prefix_cons_inj r).mpr (ih ((accepts_settle P.size next).mpr hrest))
    · rw [hspell]
      exact List.nil_prefix

/-- If a match ends behind what is read off, that is all that a way reads. -/
theorem accepts_iff_of_spell (steps : Nat) {pc : Fin P.size}
    (h : P.instr (P.spell steps pc).2 = .accept) : P.Accepts R pc i rs j ↔
      rs = (P.spell steps pc).1.map Char.val ∧ R.Reads i ((P.spell steps pc).1.map Char.val) j := by
  induction steps generalizing pc i rs with
  | zero => exact accepts_iff_of_accept h
  | succ steps ih =>
    rcases P.spell_cases steps pc with ⟨c, next, hpc, hspell⟩ | hspell
    · rw [hspell] at h ⊢
      rw [accepts_iff_of_consume hpc, List.map_cons]
      constructor
      · rintro ⟨r, width, rest, rfl, hstep, hr, hrest⟩
        obtain ⟨rfl, hreads⟩ := (ih h).mp ((accepts_settle P.size next).mpr hrest)
        have hrc : c.val = r := SymbolClass.mem_single.mp hr
        exact ⟨by rw [hrc], width, by rw [hrc]; exact hstep, hreads⟩
      · rintro ⟨rfl, width, hstep, hreads⟩
        exact ⟨c.val, width, _, rfl, hstep, SymbolClass.mem_single.mpr rfl,
          (accepts_settle P.size next).mp ((ih h).mpr ⟨rfl, hreads⟩)⟩
    · rw [hspell] at h ⊢
      exact accepts_iff_of_accept h

/-- **The characters are sound**: every way to the end of a match reads them first. -/
theorem literal_isPrefix (h : P.Accepts R P.start i rs j) : P.literal.chars.map Char.val <+: rs :=
  spell_isPrefix P.size ((accepts_settle P.size P.start).mpr h)

/-- **A program whose literal is complete** comes to the end of a match where the characters have
been read, and nowhere else. -/
theorem accepts_iff_of_complete (h : P.literal.complete = true) : P.Accepts R P.start i rs j ↔
    rs = P.literal.chars.map Char.val ∧ R.Reads i (P.literal.chars.map Char.val) j := by
  have haccept : P.instr (P.spell P.size (P.settle P.size P.start)).2 = .accept :=
    of_decide_eq_true h
  rw [← accepts_settle P.size P.start]
  exact accepts_iff_of_spell P.size haccept

/-- Wherever a match can start, the text goes on with the characters. -/
theorem spells_literal {i : text.Offset} (h : P.Live text i P.start) :
    text.Spells P.literal.chars i := by
  obtain ⟨rs, j, haccepts⟩ := h.exists_accepts
  obtain ⟨rest, rfl⟩ := literal_isPrefix haccepts
  obtain ⟨k, hreads, -⟩ := haccepts.reads.exists_of_append
  exact Text.spells_of_reads hreads

/-! ## What a look ahead tells -/

/-- **A look ahead is right** about all ways to the end of a match, whatever the program runs over
and wherever it starts: a way reads the characters of the literal first, and the conditions of the
entry hold where it starts, so that there is no way if there is no entry. If the literal is
complete, then the ways are those that read its characters and nothing else. -/
theorem accepts_as_foretold (P : Program) (R : Reader) (i : Nat) :
    (∀ rs j, P.Accepts R P.start i rs j → P.literal.chars.map Char.val <+: rs ∧
        ∃ entry, P.entry? = some entry ∧ entry ⊆ R.context i) ∧
      (P.literal.complete = true → ∀ rs j, P.Accepts R P.start i rs j ↔
        rs = P.literal.chars.map Char.val ∧ R.Reads i (P.literal.chars.map Char.val) j) := by
  refine ⟨fun rs j h => ⟨literal_isPrefix h, ?_⟩, fun h rs j => accepts_iff_of_complete h⟩
  obtain ⟨stop, hreach, hstop⟩ := h.exists_stop
  exact entry_subset hreach hstop

/-- Two characters in a group, in bytes that start with one that is part of no character. -/
theorem accepts_as_foretold_group :
    let P : Program := ⟨6, #v[.save 2 1, .consume (.single 0x61) 2, .jump 3,
      .consume (.single 0x1F600) 4, .save 3 5, .accept], 0⟩
    let R := (Text.utf8 #[0xFF, 0x61, 0xF0, 0x9F, 0x98, 0x80]).reader
    (P.Accepts R P.start 1 [0x61, 0x1F600] 6 ∧ P.literal.complete = true) ∧
      (P.literal.chars.map Char.val <+: [0x61, 0x1F600] ∧
        ∃ entry, P.entry? = some entry ∧ entry ⊆ R.context 1) ∧
      ∀ rs j, P.Accepts R P.start 1 rs j ↔
        rs = P.literal.chars.map Char.val ∧ R.Reads 1 (P.literal.chars.map Char.val) j := by
  intro P R
  have hcomplete : P.literal.complete = true := by decide
  have hclosing : (5 : Fin P.size) ∈ (P.passing 6 (R.context 6)).next 4 := by decide
  have hbetween : (3 : Fin P.size) ∈ (P.passing 2 (R.context 2)).next 2 := by decide
  have hopening : (1 : Fin P.size) ∈ (P.passing 1 (R.context 1)).next P.start := by decide
  have hread : R.step 1 = some (0x61, 1) := by decide
  have hread' : R.step 2 = some (0x1F600, 4) := by decide
  have hway : P.Accepts R P.start 1 [0x61, 0x1F600] 6 :=
    .pass hopening <| .read rfl hread (by decide) <|
      .pass hbetween <| .read rfl hread' (by decide) <| .pass hclosing (.accept rfl)
  obtain ⟨hlead, hexact⟩ := accepts_as_foretold P R 1
  exact ⟨⟨hway, hcomplete⟩, hlead _ _ hway, hexact hcomplete⟩

end Program

end Lockstep
