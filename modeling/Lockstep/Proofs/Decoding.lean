import Lockstep.Proofs.Strings

/-!
# Decoding accepts encoded characters only

Bytes that start with the encoding of a character are decoded as that character; all others are
decoded as the replacement symbol, one byte at a time. So reading a string from its start gives its
characters at the offsets between them, and stops behind the last one.

- `Utf8.decode_of_isPrefix`, `Utf8.decode_of_forall_not_isPrefix`: the two cases.
- `Utf8.eq_of_isPrefix`: no two characters have encodings of which one starts the other.
- `Utf8.decode_take`, `Text.step_utf8`: how far decoding looks, and what a step decodes.
- `Text.Writes.map_offsetsFrom`: what is read of a text that is written in characters.
- `Text.Writes.exists_mem_offsetsFrom_iff`: the offsets that reading leads to.
- `Utf8.decode_exact`: bytes, and whole strings.
-/

namespace Lockstep

/-! ## Bytes -/

namespace Utf8

variable {bytes : List UInt8} {c c' : Char}

theorem decode_of_isPrefix (h : String.utf8EncodeChar c <+: bytes) :
    decode bytes = some (c.val, (String.utf8EncodeChar c).length) := by
  obtain ⟨rest, rfl⟩ := h
  exact decode_append c rest

/-- Bytes start with the encoding of one character at most. -/
theorem eq_of_isPrefix (h : String.utf8EncodeChar c <+: bytes)
    (h' : String.utf8EncodeChar c' <+: bytes) : c' = c := by
  have hsame := (decode_of_isPrefix h').symm.trans (decode_of_isPrefix h)
  simp only [Option.some.injEq, Prod.mk.injEq] at hsame
  exact Char.ext hsame.1

/-- What is no encoding is not decoded but replaced. -/
theorem decode_of_forall_not_isPrefix (hne : bytes ≠ [])
    (h : ∀ c : Char, ¬ String.utf8EncodeChar c <+: bytes) :
    decode bytes = some (Symbol.replacement, 1) := by
  unfold decode
  rw [if_neg (by simpa using hne)]
  cases hformed : wellFormed? bytes with
  | none => rfl
  | some found =>
    obtain ⟨n, width⟩ := found
    obtain ⟨c, -, htake⟩ := exists_char_of_wellFormed? hformed
    exact absurd (htake ▸ List.take_prefix width bytes) (h c)

/-- Decoding looks no further than the longest encoding reaches. -/
theorem decode_take (bytes : List UInt8) : decode (bytes.take maxWidth) = decode bytes := by
  by_cases hc : ∃ c : Char, String.utf8EncodeChar c <+: bytes
  · obtain ⟨c, hc⟩ := hc
    rw [decode_of_isPrefix hc,
      decode_of_isPrefix (List.prefix_take_iff.mpr ⟨hc, length_encode_le c⟩)]
  · have hnone : ∀ c : Char, ¬ String.utf8EncodeChar c <+: bytes := not_exists.mp hc
    cases bytes with
    | nil => rfl
    | cons b rest =>
      rw [decode_of_forall_not_isPrefix (List.cons_ne_nil b rest) hnone]
      exact decode_of_forall_not_isPrefix (List.cons_ne_nil b _) fun c hc =>
        hnone c (hc.trans (List.take_prefix _ _))

end Utf8

/-! ## Texts -/

/-- A step decodes what lies behind the offset. -/
theorem Text.step_utf8 (bytes : Array UInt8) (pos : Nat) :
    (utf8 bytes).step pos = Utf8.decode (bytes.toList.drop pos) := by
  show Utf8.decode _ = _
  rw [Array.toList_extract, List.extract_eq_take_drop, Nat.add_sub_cancel_left, Utf8.decode_take]

namespace Text.Writes

variable {text : Text} {cs : List Char} {size : Char → Nat} (h : text.Writes cs size)
include h

/-- **Reading on from between two characters** gives the characters that follow, and ends behind
the last one. -/
theorem map_offsetsFrom {l r : List Char} (hcs : cs = l ++ r) {i : text.Offset}
    (hi : (i : Nat) = (l.map size).sum) :
    ((text.offsetsFrom i).map fun j : text.Offset => ((j : Nat), text.step j)) =
      (r.mapIdx fun k c => (((l ++ r.take k).map size).sum, some (c.val, size c))) ++
        [(text.endPos, none)] := by
  induction r generalizing l i with
  | nil =>
    rw [List.append_nil] at hcs
    have hend : (i : Nat) = text.endPos := by rw [hi, h.endPos, hcs]
    rw [offsetsFrom_of_end (h.read?_end (hcs ▸ hi)), List.map_singleton, hend,
      step_eq_none_iff.mpr (Nat.le_refl _)]
    rfl
  | cons c r ih =>
    obtain ⟨j, hread, hj⟩ := h.exists_read hcs hi
    have hcs' : cs = (l ++ [c]) ++ r := by rw [hcs, List.append_assoc, List.singleton_append]
    have hstep : text.step i = some (c.val, size c) := hi ▸ h.step l c r hcs
    rw [offsetsFrom_of_read hread, List.map_cons, ih hcs' hj, List.mapIdx_cons, hstep, hi]
    simp only [List.take_zero, List.append_nil, List.take_succ_cons, List.append_assoc,
      List.cons_append, List.nil_append]

/-- **Reading from the start** leads to the offsets between characters, and to no others. -/
theorem exists_mem_offsetsFrom_iff {pos : Nat} :
    (∃ i ∈ text.offsetsFrom 0, (i : Nat) = pos) ↔ Parts cs size pos := by
  constructor
  · rintro ⟨i, hi, rfl⟩
    exact h.parts_of_readsTo ⟨[], cs, rfl, rfl⟩ (mem_offsetsFrom.mp hi)
  · intro hpos
    obtain ⟨l, r, hcs, rfl⟩ := hpos
    let i : text.Offset := ⟨(l.map size).sum, Nat.lt_succ_of_le (h.sum_le_endPos hcs)⟩
    have hto : text.ReadsTo 0 i :=
      h.readsTo_of_parts ⟨[], cs, rfl, rfl⟩ ⟨l, r, hcs, rfl⟩ (Fin.zero_le i)
    exact ⟨i, mem_offsetsFrom.mpr hto, rfl⟩

end Text.Writes

/-! ## What decoding accepts -/

/-- **Decoding accepts the encodings of characters**, and nothing else. No bytes are decoded only if
there are none; bytes that start with the encoding of a character, which can be one character only,
are decoded as the character, with the bytes that its encoding has; and what starts with no encoding
is replaced, one byte at a time. A step decodes what lies behind its offset. So stepping through a
string from its start finds each character where the characters before it end, comes by the valid
positions of the string, and ends with it. -/
theorem Utf8.decode_exact :
    (∀ bytes : List UInt8, (decode bytes = none ↔ bytes = []) ∧
      (∀ c : Char, String.utf8EncodeChar c <+: bytes →
        decode bytes = some (c.val, (String.utf8EncodeChar c).length) ∧
          ∀ c' : Char, String.utf8EncodeChar c' <+: bytes → c' = c) ∧
      (bytes ≠ [] → (∀ c : Char, ¬ String.utf8EncodeChar c <+: bytes) →
        decode bytes = some (Symbol.replacement, 1))) ∧
    (∀ (bytes : Array UInt8) (pos : Nat),
      (Text.utf8 bytes).step pos = decode (bytes.toList.drop pos)) ∧
    ∀ s : String, let text := Text.ofString s
      ((text.offsetsFrom 0).map fun i : text.Offset => ((i : Nat), text.step i)) =
          (s.toList.mapIdx fun k c => ((String.ofList (s.toList.take k)).utf8ByteSize,
            some (c.val, (String.utf8EncodeChar c).length))) ++ [(text.endPos, none)] ∧
        ∀ pos : Nat, (∃ i ∈ text.offsetsFrom 0, (i : Nat) = pos) ↔
          String.Pos.Raw.isValid s ⟨pos⟩ = true := by
  refine ⟨fun bytes => ⟨decode_eq_none_iff, fun c hc => ?_, decode_of_forall_not_isPrefix⟩,
    Text.step_utf8, ?_⟩
  · exact ⟨decode_of_isPrefix hc, fun c' hc' => eq_of_isPrefix hc hc'⟩
  · intro s
    have hwrites := Text.writes_ofString s
    refine ⟨?_, fun pos => hwrites.exists_mem_offsetsFrom_iff.trans Text.isValid_iff_parts.symm⟩
    refine (hwrites.map_offsetsFrom (List.nil_append _).symm rfl).trans ?_
    simp only [List.nil_append, Text.utf8ByteSize_ofList]

/-- A character with another byte behind it, the bytes of a surrogate, and a string. -/
theorem Utf8.decode_exact_smile :
    decode [0xF0, 0x9F, 0x98, 0x80, 0x21] = some ('😀'.val, 4) ∧
      decode [0xED, 0xA0, 0x80] = some (Symbol.replacement, 1) ∧
      (((Text.ofString "aé").offsetsFrom 0).map fun i : (Text.ofString "aé").Offset =>
        ((i : Nat), (Text.ofString "aé").step i)) =
          [(0, some ('a'.val, 1)), (1, some ('é'.val, 2)), (3, none)] := by
  obtain ⟨hbytes, -, hstring⟩ := decode_exact
  have hsmile : String.utf8EncodeChar '😀' <+: [0xF0, 0x9F, 0x98, 0x80, 0x21] := by decide
  have hnone : ∀ c : Char, ¬ String.utf8EncodeChar c <+: [0xED, 0xA0, 0x80] := by
    intro c hc
    -- the only character that could be there has a longer encoding
    have hdecode := ((hbytes _).2.1 c hc).1
    rw [show decode [0xED, 0xA0, 0x80] = some ('\uFFFD'.val, 1) by decide] at hdecode
    simp only [Option.some.injEq, Prod.mk.injEq] at hdecode
    obtain rfl : '\uFFFD' = c := Char.ext hdecode.1
    exact absurd hdecode.2 (by decide)
  exact ⟨((hbytes _).2.1 '😀' hsmile).1, (hbytes _).2.2 (by decide) hnone, (hstring "aé").1⟩

end Lockstep
