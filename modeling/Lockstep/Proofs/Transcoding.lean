import Lockstep.Proofs.Methods
import Lockstep.Proofs.Strings
import Mathlib.Data.String.Basic

/-!
# Bytes and 16-bit units

A search looks at the characters of a text, not at how they are encoded. So it finds the same in a
string and in its encoding in 16-bit units, only that the offsets count something else.

- `Text.Marks`: offsets that have the same characters before them.
- `Text.Writes.counterparts`: tasks over two encodings of the same characters.
- `unitsBefore`: how many units there are before an offset of a string.
- `Regex.utf16_agrees`: searches of strings and of units agree.
-/

namespace Lockstep

/-! ## Two encodings of the same characters -/

namespace Text

/-- Two offsets have the same characters before them, where these are `size` units long in one text
and `size'` units long in the other. -/
def Marks (cs : List Char) (size size' : Char → Nat) (pos pos' : Nat) : Prop :=
  ∃ l r, cs = l ++ r ∧ pos = (l.map size).sum ∧ pos' = (l.map size').sum

namespace Writes

section Pair

variable {text text' : Text} {cs : List Char} {size size' : Char → Nat}
  (h : text.Writes cs size) (h' : text'.Writes cs size')
include h h'

/-- Where the same characters lie before, the same is read. -/
theorem rel_read {i : text.Offset} {i' : text'.Offset} (hi : Marks cs size size' i i') :
    Option.Rel (fun x x' => x.1 = x'.1 ∧ Marks cs size size' x.2 x'.2)
      (text.read? i) (text'.read? i') := by
  obtain ⟨l, r, hcs, hpos, hpos'⟩ := hi
  cases r with
  | nil =>
    rw [List.append_nil] at hcs
    subst hcs
    rw [h.read?_end hpos, h'.read?_end hpos']
    exact .none
  | cons c r =>
    obtain ⟨j, hread, hj⟩ := h.exists_read hcs hpos
    obtain ⟨j', hread', hj'⟩ := h'.exists_read hcs hpos'
    rw [hread, hread']
    exact .some ⟨rfl, l ++ [c], r, by rw [hcs, List.append_assoc]; rfl, hj, hj'⟩

/-- **Two encodings of the same characters** are searched in the same way. -/
theorem counterparts (anchor : Anchor) (kind : MatchKind) (width : Nat) :
    Task.Counterparts { text, anchor, kind, width } { text := text', anchor, kind, width }
      (fun i i' => Marks cs size size' i i') (Slots.Correspond width (Marks cs size size')) := by
  refine ⟨rfl, rfl, ?_, ?_, ?_, fun i i' hi => h.rel_read h' hi, ?_, ?_⟩
  · rintro i i' j j' ⟨l, r, hcs, hi, hi'⟩ ⟨l₁, r₁, hcs₁, hj, hj'⟩
    show (i : Nat) < j ↔ (i' : Nat) < j'
    rw [hi, hj, hi', hj', h.sum_lt_iff hcs hcs₁, h'.sum_lt_iff hcs hcs₁]
  · rintro i i' ⟨l, r, hcs, hi, hi'⟩
    rw [hi, hi', h.sum_eq_zero_iff hcs, h'.sum_eq_zero_iff hcs]
  · rintro i i' ⟨l, r, hcs, hi, hi'⟩
    show text.context i = text'.context i'
    rw [hi, hi', h.context_eq hcs, h'.context_eq hcs]
  · exact fun i i' hi => .startAt (le_refl width) (le_refl width) hi
  · exact fun i i' slots slots' hi hslots slot => hslots.set slot (.some hi)

end Pair

end Writes

end Text

/-! ## A string and its units -/

/-- How many 16-bit units the part of a string before an offset has. -/
def unitsBefore (s : String) (pos : Nat) : Nat :=
  (Utf16.encode (String.Pos.Raw.extract s 0 ⟨pos⟩).toList).length

namespace Text

/-- The width of some characters in bytes. -/
theorem utf8Len_eq (cs : List Char) :
    String.utf8Len cs = (cs.map fun c => (String.utf8EncodeChar c).length).sum := by
  rw [← String.utf8ByteSize_ofList, utf8ByteSize_ofList]

/-- The part of a string before an offset between two characters. -/
theorem extract_zero {s : String} {l r : List Char} (hs : s.toList = l ++ r) :
    String.Pos.Raw.extract s 0 ⟨(l.map fun c => (String.utf8EncodeChar c).length).sum⟩ =
      String.ofList l := by
  have hextract := String.extract_of_valid [] l r
  rw [List.nil_append, ← hs, String.ofList_toList, String.utf8Len_nil, Nat.zero_add,
    utf8Len_eq] at hextract
  exact hextract

/-- An offset of a string and one of its units have the same characters before them. -/
abbrev MarksUnits (s : String) : Nat → Nat → Prop :=
  Marks s.toList (fun c => (String.utf8EncodeChar c).length) fun c => (Utf16.encodeChar c).length

namespace MarksUnits

variable {s : String} {pos units : Nat}

/-- An offset of a string that has a counterpart among its units is no offset inside a character. -/
theorem isValid (h : MarksUnits s pos units) : String.Pos.Raw.isValid s ⟨pos⟩ = true := by
  obtain ⟨l, r, hs, hpos, -⟩ := h
  exact isValid_iff_parts.mpr ⟨l, r, hs, hpos⟩

/-- Its counterpart is how many units lie before it. -/
theorem eq_unitsBefore (h : MarksUnits s pos units) : units = unitsBefore s pos := by
  obtain ⟨l, r, hs, rfl, rfl⟩ := h
  rw [unitsBefore, extract_zero hs, String.toList_ofList, Utf16.encode, sum_length_eq]

end MarksUnits

end Text

namespace Regex

/-- What is found in a string and in its units corresponds. -/
theorem rel_reference (re : Regex) {s : String} {units : Array UInt16}
    (hunits : units.toList = Utf16.encode s.toList) :
    Option.Rel (Slots.Correspond 2 (Text.MarksUnits s))
      (re.program.reference (re.task (Text.ofString s) 2) 0)
      (re.program.reference (re.task (.utf16 units) 2) 0) :=
  ((Text.writes_ofString s).counterparts (Text.writes_utf16 hunits) .unanchored re.kind 2).reference
    ⟨[], s.toList, rfl, rfl, rfl⟩

/-- **Searches of strings and of units agree.** They find a match in a string and in its encoding in
16-bit units, or in neither, and the same characters lie before its two ends. -/
theorem utf16_agrees {re : Regex} (h : re.Reachable) (hlimit : re.limit = none)
    {env : Environment} (hsearch : env.searchTime = 0) (text : String) {units : Array UInt16}
    (hunits : units.toList = Utf16.encode text.toList) :
    (re.isMatch env text).1 = (re.isMatchUtf16 env units).1 ∧
    ((re.find env text).1 = none ↔ (re.findUtf16 env units).1 = none) ∧
    ∀ m, (re.find env text).1 = some m →
      String.Pos.Raw.isValid text ⟨m.start⟩ = true ∧ String.Pos.Raw.isValid text ⟨m.stop⟩ = true ∧
      (re.findUtf16 env units).1 = some (unitsBefore text m.start, unitsBefore text m.stop) := by
  have hsound := h.sound
  have hrel := re.rel_reference hunits
  have hends := rel_span? hrel
  have hfind := hsound.find_eq (s := text) hlimit hsearch
  rw [hsound.findUtf16_eq hlimit hsearch, hfind]
  refine ⟨?_, ?_⟩
  · rw [hsound.isMatch_eq hlimit hsearch, hsound.isMatchUtf16_eq hlimit hsearch]
    generalize re.program.reference (re.task (Text.ofString text) 2) 0 = wanted,
      re.program.reference (re.task (.utf16 units) 2) 0 = wanted' at hrel
    cases hrel <;> rfl
  · generalize spanAt.span? (.ok (re.program.reference (re.task (Text.ofString text) 2) 0)) = ends,
      spanAt.span? (.ok (re.program.reference (re.task (.utf16 units) 2) 0)) = ends' at hends
    cases hends with
    | none =>
      refine ⟨by simp, ?_⟩
      rintro m ⟨⟩
    | some hmarks =>
      refine ⟨by simp, ?_⟩
      rintro m ⟨⟩
      refine ⟨hmarks.1.isValid, hmarks.2.isValid, congrArg some ?_⟩
      exact Prod.ext hmarks.1.eq_unitsBefore hmarks.2.eq_unitsBefore

/-- A letter behind characters of two and of four bytes, which are one unit and two. -/
theorem utf16_agrees_letter :
    let e : Expr := .text ['b']
    let P : Program := ⟨3, #v[.fail, .consume (.single 0x62) 2, .accept], 1⟩
    let re := ofProgram P .leftmostFirst
    let text := "é𝒳b"
    let units : Array UInt16 := #[0xE9, 0xD835, 0xDCB3, 0x62]
    ofExpr {} e {} = .ok re ∧ re.Reachable ∧ re.limit = none ∧
      units.toList = Utf16.encode text.toList ∧
      (re.isMatch {} text).1 = (re.isMatchUtf16 {} units).1 ∧
      (re.find {} text).1 = some { text, start := 6, stop := 7 } ∧
      (re.findUtf16 {} units).1 = some (3, 4) := by
  intro e P re text units
  have hcompile : ofExpr {} e {} = .ok re := by cbv
  have hreach : re.Reachable := .ofExpr hcompile
  have hunits : units.toList = Utf16.encode text.toList := by cbv
  have hsearch : ({} : Environment).searchTime = 0 := rfl
  obtain ⟨hmatch, -, hends⟩ := utf16_agrees hreach rfl hsearch text hunits
  have hfind : (re.find {} text).1 = some { text, start := 6, stop := 7 } := by cbv
  obtain ⟨-, -, hfindUtf16⟩ := hends _ hfind
  have hstart : unitsBefore text 6 = 3 := by cbv
  have hstop : unitsBefore text 7 = 4 := by cbv
  dsimp only at hfindUtf16
  rw [hstart, hstop] at hfindUtf16
  exact ⟨hcompile, hreach, rfl, hunits, hmatch, hfind, hfindUtf16⟩

end Regex

end Lockstep
