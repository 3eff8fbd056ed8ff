import Lockstep.Proofs.Extent
import Lockstep.Proofs.Leading
import Lockstep.Proofs.Strings

/-!
# Matches that are one sequence of characters

Where a look ahead tells all of a match, a match lies exactly where these characters are read. In a
string they are read where their encoding stands, so that a search for bytes finds the match.

- `Text.SpellsTo`: some characters are read between two offsets.
- `Program.comesTo_iff_of_complete`: where a program that is all literal comes to the end of a
  match.
- `Text.spellsTo_iff_occurs`: in a string, what stands is read.
- `Program.reference_of_complete`: the first place where the characters stand is the match.
-/

namespace Lockstep

/-- Some characters are read between two offsets, and nothing else. -/
def Text.SpellsTo (text : Text) : List Char → text.Offset → text.Offset → Prop
  | [], i, j => i = j
  | c :: cs, i, j => ∃ k, text.read? i = some (c.val, k) ∧ text.SpellsTo cs k j

/-- What is read between two offsets. -/
theorem Text.spellsTo_iff_reads {text : Text} {cs : List Char} {i j : text.Offset} :
    text.SpellsTo cs i j ↔ text.reader.Reads i (cs.map Char.val) j := by
  induction cs generalizing i with
  | nil => exact Fin.ext_iff
  | cons c cs ih =>
    constructor
    · rintro ⟨k, hread, hrest⟩
      obtain ⟨width, hstep, hwidth⟩ := reader_step_of_read? hread
      exact ⟨width, hstep, hwidth ▸ ih.mp hrest⟩
    · rintro ⟨width, hstep, hrest⟩
      obtain ⟨k, hread, hk⟩ := exists_read_of_reader_step hstep
      exact ⟨k, hread, ih.mpr (hk ▸ hrest)⟩

/-- A program whose literal is complete comes to the end of a match where the characters have been
read, and nowhere else. -/
theorem Program.comesTo_iff_of_complete {P : Program} {text : Text} {i j : text.Offset}
    (h : P.literal.complete = true) :
    P.ComesTo text (P.start, i) j ↔ text.SpellsTo P.literal.chars i j := by
  rw [comesTo_iff_accepts, Text.spellsTo_iff_reads]
  simp only [accepts_iff_of_complete h, exists_eq_left]

/-! ## Characters that stand in a string -/

namespace Text

/-- Where the encoding of some characters stands, they are read. -/
theorem exists_spellsTo_of_occurs {bytes : Array UInt8} {cs : List Char}
    {i : (utf8 bytes).Offset} (h : (utf8 bytes).Occurs cs i) :
    ∃ j, (utf8 bytes).SpellsTo cs i j ∧
      (j : Nat) = i + (cs.map fun c => (String.utf8EncodeChar c).length).sum := by
  induction cs generalizing i with
  | nil => exact ⟨i, rfl, rfl⟩
  | cons c cs ih =>
    have hstands : Occurrence.test bytes
        (String.utf8EncodeChar c ++ cs.flatMap String.utf8EncodeChar) i = true := h
    rw [Occurrence.test_append, Bool.and_eq_true] at hstands
    have hstep : (utf8 bytes).step i = some (c.val, (String.utf8EncodeChar c).length) := by
      obtain ⟨rest, hrest⟩ := Occurrence.test_iff_startsWith.mp hstands.1
      have hwidth : (String.utf8EncodeChar c).length ≤ Utf8.maxWidth := by
        rw [String.length_utf8EncodeChar]
        exact c.utf8Size_le_four
      show Utf8.decode _ = _
      rw [Array.toList_extract, List.extract_eq_take_drop, Nat.add_sub_cancel_left, ← hrest,
        List.take_append, List.take_of_length_le hwidth, Utf8.decode_append]
    obtain ⟨k, hread, hk⟩ := exists_read_of_step hstep
    have hrest : (utf8 bytes).Occurs cs k := by
      show Occurrence.test bytes (cs.flatMap String.utf8EncodeChar) k = true
      rw [hk]
      exact hstands.2
    obtain ⟨j, hspells, hj⟩ := ih hrest
    refine ⟨j, ⟨k, hread, hspells⟩, ?_⟩
    rw [hj, hk, List.map_cons, List.sum_cons, Nat.add_assoc]

/-- Characters are read where they are written. -/
theorem Writes.exists_of_spellsTo {text : Text} {whole l r : List Char} {size : Char → Nat}
    (h : text.Writes whole size) (hwhole : whole = l ++ r) {cs : List Char} {i j : text.Offset}
    (hi : (i : Nat) = (l.map size).sum) (hspells : text.SpellsTo cs i j) :
    ∃ rest, r = cs ++ rest ∧ (j : Nat) = i + (cs.map size).sum := by
  induction cs generalizing l r i with
  | nil => exact ⟨r, rfl, congrArg Fin.val (show i = j from hspells).symm⟩
  | cons c cs ih =>
    obtain ⟨k, hread, hrest⟩ := hspells
    cases r with
    | nil =>
      rw [List.append_nil] at hwhole
      rw [h.read?_end (hwhole ▸ hi)] at hread
      cases hread
    | cons c' r =>
      obtain ⟨k', hread', hk⟩ := h.exists_read hwhole hi
      rw [hread', Option.some.injEq, Prod.mk.injEq] at hread
      obtain ⟨hc, rfl⟩ := hread
      obtain rfl : c' = c := Char.ext hc
      obtain ⟨rest, rfl, hj⟩ :=
        ih (l := l ++ [c']) (by rw [hwhole, List.append_assoc]; rfl) hk hrest
      refine ⟨rest, rfl, ?_⟩
      rw [hj, hk, hi, List.map_append, List.sum_append, List.map_singleton, List.sum_singleton,
        List.map_cons, List.sum_cons, Nat.add_assoc]

/-- **In a string characters are read where their encoding stands**, from any offset between two
characters on. -/
theorem spellsTo_iff_occurs {s : String} {cs : List Char} {i j : (ofString s).Offset}
    (hi : Parts s.toList (fun c => (String.utf8EncodeChar c).length) i) :
    (ofString s).SpellsTo cs i j ↔ (ofString s).Occurs cs i ∧
      (j : Nat) = i + (cs.map fun c => (String.utf8EncodeChar c).length).sum := by
  constructor
  · intro hspells
    obtain ⟨l, r, hs, hi⟩ := hi
    obtain ⟨rest, rfl, hj⟩ := (writes_ofString s).exists_of_spellsTo hs hi hspells
    refine ⟨?_, hj⟩
    show Occurrence.test s.toUTF8.data (cs.flatMap String.utf8EncodeChar) i = true
    rw [Occurrence.test_iff_startsWith, toList_toUTF8, hs, hi, sum_length_eq, List.flatMap_append,
      List.drop_left, List.flatMap_append]
    exact List.prefix_append _ _
  · rintro ⟨hoccurs, hj⟩
    obtain ⟨j', hspells, hj'⟩ := exists_spellsTo_of_occurs hoccurs
    obtain rfl : j' = j := Fin.ext (hj'.trans hj.symm)
    exact hspells

end Text

/-! ## The match is where the characters stand -/

namespace Program

variable {P : Program} {s : String} {kind : MatchKind} {width : Nat}
  {i j pos : (Text.ofString s).Offset}

/-- Matches start where the characters stand, and end behind them. -/
theorem mem_explored_iff_occurs (h : P.literal.complete = true)
    (hi : Text.Parts s.toList (fun c => (String.utf8EncodeChar c).length) i) :
    (∃ slots, (j, slots) ∈
        P.explored { text := Text.ofString s, anchor := .unanchored, kind, width } i) ↔
      (Text.ofString s).Occurs P.literal.chars i ∧
        (j : Nat) = i + P.literal.text.utf8ByteSize := by
  rw [Literal.text, Text.utf8ByteSize_ofList, ← Text.spellsTo_iff_occurs hi,
    ← comesTo_iff_of_complete h, mem_explored_iff]
  exact and_iff_left rfl

/-- A match is to be explored where the characters stand. -/
theorem explored_ne_nil_iff_occurs (h : P.literal.complete = true)
    (hi : Text.Parts s.toList (fun c => (String.utf8EncodeChar c).length) i) :
    P.explored { text := Text.ofString s, anchor := .unanchored, kind, width } i ≠ [] ↔
      (Text.ofString s).Occurs P.literal.chars i := by
  constructor
  · intro hne
    obtain ⟨⟨j, slots⟩, hmem⟩ := List.exists_mem_of_ne_nil _ hne
    exact ((mem_explored_iff_occurs h hi).mp ⟨slots, hmem⟩).1
  · intro hoccurs
    obtain ⟨j, -, hj⟩ : ∃ j, (Text.ofString s).SpellsTo P.literal.chars i j ∧ _ :=
      Text.exists_spellsTo_of_occurs hoccurs
    have hend : (j : Nat) = i + P.literal.text.utf8ByteSize := by
      rw [hj, Literal.text, Text.utf8ByteSize_ofList]
    obtain ⟨slots, hmem⟩ := (mem_explored_iff_occurs h hi).mpr ⟨hoccurs, hend⟩
    exact List.ne_nil_of_mem hmem

/-- **A match that is one sequence of characters** is found by looking for them. -/
theorem reference_of_complete (kind : MatchKind) (hspare : P.SparesMatch)
    (h : P.literal.complete = true) (hwidth : 2 ≤ width)
    (hpos : String.Pos.Raw.isValid s ⟨pos⟩ = true) :
    (P.reference { text := Text.ofString s, anchor := .unanchored, kind, width } pos).map
        (fun slots => (slots.start?, slots.stop?)) =
      ((Text.ofString s).find? P.literal.chars pos).map fun i =>
        (some i, some (i + P.literal.text.utf8ByteSize)) := by
  let task : Task := { text := Text.ofString s, anchor := .unanchored, kind, width }
  have hparts : ∀ i ∈ task.starts pos,
      Text.Parts s.toList (fun c => (String.utf8EncodeChar c).length) (i : Nat) := fun i hi =>
    (Text.writes_ofString s).parts_of_readsTo (Text.isValid_iff_parts.mp hpos)
      (Task.mem_starts.mp hi).1
  cases hfind : (Text.ofString s).find? P.literal.chars pos with
  | none =>
    have hnone : P.reference task pos = none := by
      refine reference_eq_none_iff.mpr fun i hi => ?_
      by_contra hne
      have hle : pos ≤ i := (Task.mem_starts.mp hi).1.le
      exact Text.find?_eq_none hfind i hle (Nat.le_of_lt_succ i.isLt)
        ((explored_ne_nil_iff_occurs h (hparts i hi)).mp hne)
    exact congrArg (Option.map _) hnone
  | some p =>
    obtain ⟨-, hend, hoccurs, hleast⟩ := Text.find?_eq_some hfind
    let k : (Text.ofString s).Offset := ⟨p, Nat.lt_succ_of_le hend⟩
    have hk : k ∈ task.starts pos :=
      Task.mem_starts.mpr ⟨Text.readsTo_of_find? hfind, by simp [Task.mayStart, task]⟩
    have hfound : P.explored task k ≠ [] :=
      (explored_ne_nil_iff_occurs h (hparts k hk)).mpr hoccurs
    cases hreference : P.reference task pos with
    | none => exact absurd (reference_eq_none_iff.mp hreference k hk) hfound
    | some slots =>
      obtain ⟨i, hi, j, hmem, hleft, hright, hfirst, -⟩ :=
        exists_explored_of_reference hspare hwidth hreference
      obtain ⟨hstands, hj⟩ := (mem_explored_iff_occurs h (hparts i hi)).mp ⟨slots, hmem⟩
      have hik : i ≤ k := hfirst k hk hfound
      have hnot : ¬ (i : Nat) < p := fun hlt =>
        hleast i (Task.mem_starts.mp hi).1.le hlt hstands
      have hip : (i : Nat) = p := Nat.le_antisymm hik (Nat.le_of_not_lt hnot)
      have hspan : (slots.start?, slots.stop?) =
          (some p, some (p + P.literal.text.utf8ByteSize)) := by
        rw [hleft, hright, hj, hip]
      rw [Option.map_some, hspan, Option.map_some]

end Program

end Lockstep
