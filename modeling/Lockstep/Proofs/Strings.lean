import Lockstep.Proofs.Encoding
import Mathlib.Algebra.GroupWithZero.Nat

/-!
# Texts that are written in characters

Where the encoding of a character stands, the character is read, forwards and backwards. So a text
that is the encoding of some characters can be gone through character by character.

- `Utf8.decode_append`, `Utf8.decodeLast_append`, and the same for units: a character is read.
- `Text.Writes`: the text is some characters, one behind the other.
- `Text.writes_utf8`, `Text.writes_utf16`, `Text.writes_ofString`: encoded characters are.
- `Text.Parts`: the offsets between characters; `Text.isValid_iff_parts` for strings.
- `Text.Writes.parts_of_readsTo`, `Text.Writes.readsTo_of_parts`: reading goes from one of them to
  the next, and passes none over.
-/

namespace Lockstep

/-! ## Bytes -/

namespace Utf8

theorem toNat_ofNat {n : Nat} (h : n < 256) : (UInt8.ofNat n).toNat = n := by
  rw [UInt8.toNat_ofNat', Nat.mod_eq_of_lt (by simpa using h)]

/-- The encoding of a character is a lead byte and the bytes that it asks for. -/
theorem exists_lead_of_encode (c : Char) : ∃ b tail bits least,
    String.utf8EncodeChar c = b :: tail ∧ lead? b = some (tail.length + 1, bits, least) ∧
      tail.all isTail = true ∧ value bits tail = c.val.toNat ∧ least ≤ c.val.toNat := by
  have hbound : c.val.toNat < 0x110000 := by
    rcases c.valid with hlt | ⟨-, hlt⟩
    · exact Nat.lt_trans hlt (by decide)
    · exact hlt
  have htail : ∀ n : Nat, isTail (UInt8.ofNat (n % 0x40 + 0x80)) = true ∧
      tailBits (UInt8.ofNat (n % 0x40 + 0x80)) = n % 0x40 := by
    intro n
    rw [isTail_iff, tailBits, toNat_ofNat (by omega)]
    omega
  by_cases h1 : c.val.toNat ≤ 0x7F
  · refine ⟨_, [], c.val.toNat, 0, encode_one h1, ?_, rfl, rfl, Nat.zero_le _⟩
    rw [lead?_eq, toNat_ofNat (by omega), if_pos (by omega)]
    rfl
  · by_cases h2 : c.val.toNat ≤ 0x7FF
    · refine ⟨_, [_], c.val.toNat / 64, 0x80, encode_two (by omega) h2, ?_, ?_, ?_, by omega⟩
      · rw [lead?_eq, toNat_ofNat (by omega), if_neg (by omega), if_neg (by omega),
          if_pos (by omega)]
        simp only [List.length_singleton, Option.some.injEq, Prod.mk.injEq, true_and, and_true]
        omega
      · simp only [List.all_cons, List.all_nil, htail, Bool.and_self]
      · simp only [value, List.foldl_cons, List.foldl_nil, htail]
        omega
    · by_cases h3 : c.val.toNat ≤ 0xFFFF
      · refine ⟨_, [_, _], c.val.toNat / 4096, 0x800, encode_three (by omega) h3, ?_, ?_, ?_,
          by omega⟩
        · rw [lead?_eq, toNat_ofNat (by omega), if_neg (by omega), if_neg (by omega),
            if_neg (by omega), if_pos (by omega)]
          simp only [List.length_cons, List.length_nil, Option.some.injEq, Prod.mk.injEq, true_and,
            and_true]
          omega
        · simp only [List.all_cons, List.all_nil, htail, Bool.and_self]
        · simp only [value, List.foldl_cons, List.foldl_nil, htail]
          omega
      · refine ⟨_, [_, _, _], c.val.toNat / 262144, 0x10000, encode_four (by omega), ?_, ?_, ?_,
          by omega⟩
        · rw [lead?_eq, toNat_ofNat (by omega), if_neg (by omega), if_neg (by omega),
            if_neg (by omega), if_neg (by omega), if_pos (by omega)]
          simp only [List.length_cons, List.length_nil, Option.some.injEq, Prod.mk.injEq, true_and,
            and_true]
          omega
        · simp only [List.all_cons, List.all_nil, htail, Bool.and_self]
        · simp only [value, List.foldl_cons, List.foldl_nil, htail]
          omega

theorem length_encode_le (c : Char) : (String.utf8EncodeChar c).length ≤ maxWidth := by
  rw [String.length_utf8EncodeChar]
  exact c.utf8Size_le_four

/-- **Where the encoding of a character stands**, the character is read. -/
theorem decode_append (c : Char) (rest : List UInt8) :
    decode (String.utf8EncodeChar c ++ rest) =
      some (c.val, (String.utf8EncodeChar c).length) := by
  obtain ⟨b, tail, bits, least, hencode, hlead, htail, hvalue, hleast⟩ := exists_lead_of_encode c
  have hvalid : c.val.toNat.isValidChar := c.valid
  have hformed : wellFormed? (b :: (tail ++ rest)) = some (c.val.toNat, tail.length + 1) := by
    simp only [wellFormed?, hlead, Nat.add_sub_cancel, List.take_left, hvalue]
    exact if_pos ⟨trivial, htail, hleast, hvalid⟩
  rw [hencode, List.cons_append, decode, if_neg (by simp), hformed]
  simp only [UInt32.ofNat_toNat, List.length_cons]

/-- Backing up from its end leads to the start of an encoding. -/
theorem backUp_append {b : UInt8} {tail : List UInt8} (hb : isTail b = false)
    (htail : tail.all isTail = true) (rest : List UInt8) :
    backUp (tail ++ b :: rest) = tail.length + 1 := by
  induction tail with
  | nil =>
    cases rest with
    | nil => rfl
    | cons b' rest => simp [backUp, hb]
  | cons t tail ih =>
    obtain ⟨ht, htail⟩ := Bool.and_eq_true _ _ ▸ htail
    have hne : ∃ b' rest', tail ++ b :: rest = b' :: rest' := by
      cases tail with
      | nil => exact ⟨_, _, rfl⟩
      | cons => exact ⟨_, _, rfl⟩
    obtain ⟨b', rest', heq⟩ := hne
    rw [List.cons_append, heq]
    simp only [backUp, if_pos ht]
    rw [← heq, ih htail, List.length_cons]

/-- **Behind the encoding of a character**, the character is read backwards. -/
theorem decodeLast_append (c : Char) (rest : List UInt8) :
    decodeLast ((String.utf8EncodeChar c).reverse ++ rest) = some c.val := by
  obtain ⟨b, tail, bits, least, hencode, hlead, htail, -, -⟩ := exists_lead_of_encode c
  have hb : isTail b = false := by
    obtain ⟨b', tail', hencode', hb'⟩ := exists_head_encode c
    rw [hencode, List.cons.injEq] at hencode'
    rw [hencode'.1]
    exact hb'
  have hbytes : (String.utf8EncodeChar c).reverse ++ rest = tail.reverse ++ b :: rest := by
    rw [hencode, List.reverse_cons, List.append_assoc]
    rfl
  have hwidth : backUp ((String.utf8EncodeChar c).reverse ++ rest) =
      (String.utf8EncodeChar c).length := by
    rw [hbytes, backUp_append hb (by rwa [List.all_reverse]) rest, hencode, List.length_reverse,
      List.length_cons]
  have hdecode := decode_append c []
  rw [List.append_nil] at hdecode
  unfold decodeLast
  simp only [hwidth]
  rw [← List.length_reverse, List.take_left, List.reverse_reverse, hdecode]
  exact if_pos (List.length_reverse ..).symm

end Utf8

/-! ## Units -/

namespace Utf16

theorem toNat_ofNat {n : Nat} (h : n < 65536) : (UInt16.ofNat n).toNat = n := by
  rw [UInt16.toNat_ofNat', Nat.mod_eq_of_lt (by simpa using h)]

/-- The encoding of a character is one unit, which is no surrogate, or a pair of surrogates. -/
theorem encodeChar_cases (c : Char) :
    (∃ u, encodeChar c = [u] ∧ isHigh u = false ∧ isLow u = false ∧ u.toUInt32 = c.val) ∨
      ∃ u v, encodeChar c = [u, v] ∧ isHigh u = true ∧ isLow v = true ∧ combine u v = c.val := by
  have hvalid : c.val.toNat < 0xD800 ∨ (0xDFFF < c.val.toNat ∧ c.val.toNat < 0x110000) := c.valid
  by_cases h : c.val.toNat < 0x10000
  · refine .inl ⟨_, encodeChar_one h, ?_, ?_, ?_⟩
    · rw [← Bool.not_eq_true, isHigh_iff, toNat_ofNat h]
      omega
    · rw [← Bool.not_eq_true, isLow_iff, toNat_ofNat h]
      omega
    · rw [← UInt32.toNat_inj, UInt16.toNat_toUInt32, toNat_ofNat h]
  · have hhigh : isHigh (UInt16.ofNat (0xD800 + (c.val.toNat - 0x10000) / 0x400)) = true := by
      rw [isHigh_iff, toNat_ofNat (by omega)]
      omega
    have hlow : isLow (UInt16.ofNat (0xDC00 + (c.val.toNat - 0x10000) % 0x400)) = true := by
      rw [isLow_iff, toNat_ofNat (by omega)]
      omega
    refine .inr ⟨_, _, encodeChar_two (by omega), hhigh, hlow, ?_⟩
    rw [← UInt32.toNat_inj, toNat_combine hhigh hlow, toNat_ofNat (by omega),
      toNat_ofNat (by omega)]
    omega

/-- **Where the encoding of a character stands**, the character is read. -/
theorem decode_append (c : Char) (rest : List UInt16) :
    decode (encodeChar c ++ rest) = some (c.val, (encodeChar c).length) := by
  rcases encodeChar_cases c with ⟨u, hencode, hhigh, -, hval⟩ | ⟨u, v, hencode, hhigh, hlow, hval⟩
  · rw [hencode]
    cases rest with
    | nil => simp [decode, hval]
    | cons v rest => simp [decode, hhigh, hval]
  · rw [hencode]
    simp [decode, hhigh, hlow, hval]

/-- **Behind the encoding of a character**, the character is read backwards. -/
theorem decodeLast_append (c : Char) (rest : List UInt16) :
    decodeLast ((encodeChar c).reverse ++ rest) = some c.val := by
  rcases encodeChar_cases c with ⟨u, hencode, -, hlow, hval⟩ | ⟨u, v, hencode, hhigh, hlow, hval⟩
  · rw [hencode]
    cases rest with
    | nil => simp [decodeLast, hval]
    | cons v rest => simp [decodeLast, hlow, hval]
  · rw [hencode]
    simp [decodeLast, hhigh, hlow, hval]

end Utf16

/-! ## Where a sequence ends -/

/-- A sequence ends at an index if the last of what was taken up to there, last one first, starts
with it. -/
theorem Occurrence.reverse_isPrefix_iff {α : Type} {hay : Array α}
    {needle : List α} {m stop : Nat} (hm : needle.length ≤ m) (hstop : stop ≤ hay.size) :
    needle.reverse <+: (hay.extract (stop - m) stop).toList.reverse ↔
      needle.length ≤ stop ∧ needle <+: hay.toList.drop (stop - needle.length) := by
  rw [List.reverse_prefix, Array.toList_extract, List.extract_eq_take_drop,
    List.suffix_iff_eq_drop, List.prefix_iff_eq_take]
  have hlen : ((hay.toList.drop (stop - m)).take (stop - (stop - m))).length =
      stop - (stop - m) := by
    rw [List.length_take, List.length_drop, Array.length_toList]
    omega
  have hsame : needle.length ≤ stop →
      ((hay.toList.drop (stop - m)).take (stop - (stop - m))).drop
          (stop - (stop - m) - needle.length) =
        (hay.toList.drop (stop - needle.length)).take needle.length := by
    intro hle
    rw [List.drop_take, List.drop_drop]
    congr 2 <;> omega
  rw [hlen]
  constructor
  · intro h
    have hle : needle.length ≤ stop := by
      have := congrArg List.length h
      rw [List.length_drop, hlen] at this
      omega
    exact ⟨hle, h.trans (hsame hle)⟩
  · rintro ⟨hle, h⟩
    exact h.trans (hsame hle).symm

/-! ## Texts -/

section Stands

variable {α : Type} {hay : Array α} {encode : Char → List α} {cs l r : List Char} {c : Char}

theorem sum_length_eq (encode : Char → List α) (cs : List Char) :
    (cs.map fun c => (encode c).length).sum = (cs.flatMap encode).length := by
  rw [List.length_flatMap]

/-- What stands behind the first characters of a text. -/
theorem exists_stands_behind (h : hay.toList = cs.flatMap encode) (hcs : cs = l ++ c :: r) {m : Nat}
    (hm : (encode c).length ≤ m) :
    ∃ rest, (hay.extract (l.map fun c => (encode c).length).sum
      ((l.map fun c => (encode c).length).sum + m)).toList = encode c ++ rest := by
  rw [hcs, List.flatMap_append, List.flatMap_cons] at h
  refine ⟨(r.flatMap encode).take (m - (encode c).length), ?_⟩
  rw [sum_length_eq, Array.toList_extract, h, List.extract_eq_take_drop, List.drop_left,
    Nat.add_sub_cancel_left, List.take_append, List.take_of_length_le hm]

/-- What stands before, last one first. -/
theorem exists_stands_before (h : hay.toList = cs.flatMap encode) (hcs : cs = l ++ c :: r) {m : Nat}
    (hm : (encode c).length ≤ m) :
    (l.map fun c => (encode c).length).sum + (encode c).length ≤ hay.size ∧
      ∃ rest, (hay.extract ((l.map fun c => (encode c).length).sum + (encode c).length - m)
        ((l.map fun c => (encode c).length).sum + (encode c).length)).toList.reverse =
          (encode c).reverse ++ rest := by
  have hsplit : hay.toList = l.flatMap encode ++ (encode c ++ r.flatMap encode) := by
    rw [h, hcs, List.flatMap_append, List.flatMap_cons]
  have hsize := congrArg List.length hsplit
  rw [List.length_append, Array.length_toList, List.length_append] at hsize
  rw [sum_length_eq]
  have hstop : (l.flatMap encode).length + (encode c).length ≤ hay.size := by omega
  obtain ⟨rest, hrest⟩ := (Occurrence.reverse_isPrefix_iff hm hstop).mpr (by
    rw [Nat.add_sub_cancel, hsplit, List.drop_left]
    exact ⟨Nat.le_add_left _ _, List.prefix_append _ _⟩)
  exact ⟨hstop, rest, hrest.symm⟩

end Stands

namespace Text

/-- The text is some characters, one behind the other, each of them `size` units long. -/
structure Writes (text : Text) (cs : List Char) (size : Char → Nat) : Prop where
  endPos : text.endPos = (cs.map size).sum
  step : ∀ l c r, cs = l ++ c :: r → text.step (l.map size).sum = some (c.val, size c)
  before : ∀ l c r, cs = l ++ c :: r → text.before ((l.map size).sum + size c) = some c.val

theorem writes_utf8 {bytes : Array UInt8} {cs : List Char}
    (h : bytes.toList = cs.flatMap String.utf8EncodeChar) :
    (utf8 bytes).Writes cs fun c => (String.utf8EncodeChar c).length := by
  refine ⟨?_, ?_, ?_⟩
  · rw [sum_length_eq, ← h]
    rfl
  · intro l c r hcs
    obtain ⟨rest, hrest⟩ := exists_stands_behind h hcs (Utf8.length_encode_le c)
    show Utf8.decode _ = _
    rw [hrest, Utf8.decode_append]
  · intro l c r hcs
    obtain ⟨hsize, rest, hrest⟩ := exists_stands_before h hcs (Utf8.length_encode_le c)
    rw [Text.before, if_neg (show ¬ (utf8 bytes).endPos < _ from Nat.not_lt_of_le hsize)]
    show Utf8.decodeLast _ = _
    rw [hrest, Utf8.decodeLast_append]

theorem writes_utf16 {units : Array UInt16} {cs : List Char}
    (h : units.toList = cs.flatMap Utf16.encodeChar) :
    (utf16 units).Writes cs fun c => (Utf16.encodeChar c).length := by
  have hwidth : ∀ c, (Utf16.encodeChar c).length ≤ Utf16.maxWidth := by
    intro c
    rcases Utf16.encodeChar_cases c with ⟨u, hencode, -⟩ | ⟨u, v, hencode, -⟩ <;>
      simp [hencode, Utf16.maxWidth]
  refine ⟨?_, ?_, ?_⟩
  · rw [sum_length_eq, ← h]
    rfl
  · intro l c r hcs
    obtain ⟨rest, hrest⟩ := exists_stands_behind h hcs (hwidth c)
    show Utf16.decode _ = _
    rw [hrest, Utf16.decode_append]
  · intro l c r hcs
    obtain ⟨hsize, rest, hrest⟩ := exists_stands_before h hcs (hwidth c)
    rw [Text.before, if_neg (show ¬ (utf16 units).endPos < _ from Nat.not_lt_of_le hsize)]
    show Utf16.decodeLast _ = _
    rw [hrest, Utf16.decodeLast_append]

/-- The bytes of a string are the encodings of its characters. -/
theorem toList_toUTF8 (s : String) :
    s.toUTF8.data.toList = s.toList.flatMap String.utf8EncodeChar := by
  show s.toByteArray.data.toList = _
  rw [← String.utf8Encode_toList, List.utf8Encode, List.data_toByteArray]

/-- A string is written in its characters. -/
theorem writes_ofString (s : String) :
    (ofString s).Writes s.toList fun c => (String.utf8EncodeChar c).length :=
  writes_utf8 (toList_toUTF8 s)

/-! ## Offsets between characters -/

theorem before_zero (text : Text) : text.before 0 = none := by
  cases text with
  | utf8 bytes => simp [before, Utf8.decodeLast, Utf8.backUp, Utf8.decode]
  | utf16 units => simp [before, Utf16.decodeLast]

namespace Writes

section Order

variable {text : Text} {cs l r l' r' : List Char} {size : Char → Nat} (h : text.Writes cs size)
include h

/-- No character is empty. -/
theorem size_pos {c : Char} (hcs : cs = l ++ c :: r) : 0 < size c :=
  (step_bounds (h.step l c r hcs)).1

theorem sum_lt_of_length_lt (hcs : cs = l ++ r) (hcs' : cs = l' ++ r')
    (hlt : l.length < l'.length) : (l.map size).sum < (l'.map size).sum := by
  have hprefix : l <+: l' := List.prefix_of_prefix_length_le (hcs ▸ List.prefix_append l r)
    (hcs' ▸ List.prefix_append l' r') (Nat.le_of_lt hlt)
  obtain ⟨m, rfl⟩ := hprefix
  cases m with
  | nil => simp at hlt
  | cons c m =>
    have hpos := h.size_pos (l := l) (c := c) (r := m ++ r') (by rw [hcs']; simp)
    rw [List.map_append, List.sum_append, List.map_cons, List.sum_cons]
    omega

/-- The more characters, the more units. -/
theorem sum_lt_iff (hcs : cs = l ++ r) (hcs' : cs = l' ++ r') :
    (l.map size).sum < (l'.map size).sum ↔ l.length < l'.length := by
  refine ⟨fun hlt => ?_, h.sum_lt_of_length_lt hcs hcs'⟩
  rcases Nat.lt_trichotomy l.length l'.length with hlen | hlen | hlen
  · exact hlen
  · rw [(List.append_inj (hcs.symm.trans hcs') hlen).1] at hlt
    exact absurd hlt (Nat.lt_irrefl _)
  · exact absurd (h.sum_lt_of_length_lt hcs' hcs hlen) (Nat.not_lt_of_gt hlt)

theorem sum_eq_zero_iff (hcs : cs = l ++ r) : (l.map size).sum = 0 ↔ l.length = 0 := by
  have hiff := h.sum_lt_iff (l := []) rfl hcs
  rw [List.map_nil, List.sum_nil, List.length_nil] at hiff
  omega

end Order

variable {text : Text} {cs : List Char} {size : Char → Nat} (h : text.Writes cs size)
  {i j : text.Offset}
include h

/-- There is an offset behind each of the first parts of the characters. -/
theorem sum_le_endPos {l r : List Char} (hcs : cs = l ++ r) : (l.map size).sum ≤ text.endPos := by
  rw [h.endPos, hcs, List.map_append, List.sum_append]
  exact Nat.le_add_right _ _

theorem before_eq {l r : List Char} (hcs : cs = l ++ r) :
    text.before (l.map size).sum = l.getLast?.map Char.val := by
  rcases List.eq_nil_or_concat l with rfl | ⟨l', c, rfl⟩
  · exact before_zero text
  · rw [List.concat_eq_append] at hcs ⊢
    rw [List.append_assoc] at hcs
    have hbefore := h.before l' c r hcs
    rw [List.map_append, List.sum_append, List.map_singleton, List.sum_singleton, hbefore]
    simp

theorem symbolAt_eq {l r : List Char} (hcs : cs = l ++ r) :
    text.symbolAt (l.map size).sum = r.head?.map Char.val := by
  cases r with
  | nil =>
    have hend : text.step (l.map size).sum = none := by
      rw [step_eq_none_iff, h.endPos, hcs, List.append_nil]
    rw [symbolAt, hend]
    rfl
  | cons c r =>
    rw [symbolAt, h.step l c r hcs]
    rfl

/-- What holds between two characters does not depend on how they are encoded. -/
theorem context_eq {l r : List Char} (hcs : cs = l ++ r) : text.context (l.map size).sum =
    Conditions.between (l.getLast?.map Char.val) (r.head?.map Char.val) := by
  rw [context, h.before_eq hcs, h.symbolAt_eq hcs]

/-- At each character the character is read. -/
theorem exists_read {l r : List Char} {c : Char} (hcs : cs = l ++ c :: r)
    (hi : (i : Nat) = (l.map size).sum) :
    ∃ j : text.Offset, text.read? i = some (c.val, j) ∧ (j : Nat) = ((l ++ [c]).map size).sum := by
  have hstep := h.step l c r hcs
  rw [← hi] at hstep
  obtain ⟨j, hread, hj⟩ := exists_read_of_step hstep
  refine ⟨j, hread, ?_⟩
  rw [hj, hi, List.map_append, List.sum_append, List.map_singleton, List.sum_singleton]

/-- Behind the last character nothing is read. -/
theorem read?_end (hi : (i : Nat) = (cs.map size).sum) : text.read? i = none :=
  read?_eq_none_iff.mpr (hi.trans h.endPos.symm)

end Writes

/-- The offset lies between two characters, or before or behind all of them. -/
def Parts (cs : List Char) (size : Char → Nat) (pos : Nat) : Prop :=
  ∃ l r, cs = l ++ r ∧ pos = (l.map size).sum

/-- **Reading goes from character to character.** -/
theorem Writes.parts_of_readsTo {text : Text} {cs : List Char} {size : Char → Nat}
    (h : text.Writes cs size) {i j : text.Offset} (hi : Parts cs size i) (hto : text.ReadsTo i j) :
    Parts cs size j := by
  induction hto with
  | refl => exact hi
  | @tail k j _ hstep ih =>
    obtain ⟨l, r, hcs, hk⟩ := ih
    obtain ⟨s, hread⟩ := hstep
    cases r with
    | nil =>
      rw [List.append_nil] at hcs
      rw [h.read?_end (hcs ▸ hk)] at hread
      cases hread
    | cons c r =>
      obtain ⟨j', hread', hj'⟩ := h.exists_read hcs hk
      rw [hread'] at hread
      cases hread
      exact ⟨l ++ [c], r, by rw [hcs, List.append_assoc]; rfl, hj'⟩

/-- Reading leads from each offset between two characters to all such offsets behind it. -/
theorem Writes.readsTo_of_parts {text : Text} {cs : List Char} {size : Char → Nat}
    (h : text.Writes cs size) {i j : text.Offset} (hi : Parts cs size i) (hj : Parts cs size j)
    (hle : i ≤ j) : text.ReadsTo i j := by
  induction i using Text.offset_induction with
  | step i ih =>
    rcases eq_or_lt_of_le hle with rfl | hlt
    · exact .refl i
    · obtain ⟨l, r, hcs, hpos⟩ := hi
      obtain ⟨l', r', hcs', hpos'⟩ := hj
      have hlength : l.length < l'.length := by
        rw [← h.sum_lt_iff hcs hcs', ← hpos, ← hpos']
        exact hlt
      cases r with
      | nil =>
        have hall := congrArg List.length (hcs.symm.trans hcs')
        rw [List.append_nil, List.length_append] at hall
        omega
      | cons c r =>
        obtain ⟨k, hread, hk⟩ := h.exists_read hcs hpos
        have hcs'' : cs = (l ++ [c]) ++ r := by rw [hcs, List.append_assoc]; rfl
        have hkj : k ≤ j := by
          have hnot := mt (h.sum_lt_iff hcs' hcs'').mp
            (by rw [List.length_append, List.length_singleton]; omega)
          rw [← hpos', ← hk] at hnot
          exact Nat.le_of_not_lt hnot
        exact (ReadsTo.of_read hread).trans
          (ih k (lt_of_read? hread) ⟨l ++ [c], r, hcs'', hk⟩ hkj)

/-- How many bytes a string of some characters has. -/
theorem utf8ByteSize_ofList (cs : List Char) : (String.ofList cs).utf8ByteSize =
    (cs.map fun c => (String.utf8EncodeChar c).length).sum := by
  have hend := (writes_ofString (String.ofList cs)).endPos
  rwa [String.toList_ofList] at hend

/-- The offsets between the characters of a string are the valid ones. -/
theorem isValid_iff_parts {s : String} {pos : Nat} : String.Pos.Raw.isValid s ⟨pos⟩ = true ↔
    Parts s.toList (fun c => (String.utf8EncodeChar c).length) pos := by
  rw [String.Pos.Raw.isValid_eq_true_iff, String.Pos.Raw.isValid_iff_exists_take_toList]
  constructor
  · rintro ⟨k, hk⟩
    exact ⟨s.toList.take k, s.toList.drop k, (List.take_append_drop k _).symm,
      hk.trans (utf8ByteSize_ofList _)⟩
  · rintro ⟨l, r, hcs, hpos⟩
    refine ⟨l.length, ?_⟩
    rw [hcs, List.take_left]
    exact hpos.trans (utf8ByteSize_ofList l).symm

theorem le_endPos_of_isValid {s : String} {pos : Nat}
    (h : String.Pos.Raw.isValid s ⟨pos⟩ = true) : pos ≤ (ofString s).endPos := by
  obtain ⟨l, r, hs, rfl⟩ := isValid_iff_parts.mp h
  exact (writes_ofString s).sum_le_endPos hs

end Text

end Lockstep
