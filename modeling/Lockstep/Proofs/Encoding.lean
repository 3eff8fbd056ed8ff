import Lockstep.Proofs.Leading

/-!
# Characters in encoded texts

A search for characters looks for their bytes or units, and does not decode anything. What is
decoded and what is encoded agree as far as that search needs it.

- `Utf8.take_of_decode`, `Utf16.take_of_decode`: what is decoded as a character is its encoding.
- `Occurrence.next?_eq_some`, `Occurrence.next?_eq_none`: the search finds the least place.
- `Text.occurs_of_spells`: where a text reads as some characters, their encoding stands.
- `Text.readsTo_of_isTail_eq_false`, `Text.readsTo_of_isLow_eq_false`: where reading always comes by.
- `Text.readsTo_of_occurs`: where the encoding of a character stands, a symbol starts.
- `Text.toNat_le_of_read?`: what is read is a code point.
-/

namespace Lockstep

/-! ## Bytes -/

namespace Utf8

/-- Bytes are compared through their numbers, where `omega` can help. -/
theorem lead?_eq (b : UInt8) : lead? b =
    if b.toNat < 0x80 then some (1, b.toNat, 0)
    else if b.toNat < 0xC2 then none
    else if b.toNat < 0xE0 then some (2, b.toNat - 0xC0, 0x80)
    else if b.toNat < 0xF0 then some (3, b.toNat - 0xE0, 0x800)
    else if b.toNat < 0xF5 then some (4, b.toNat - 0xF0, 0x10000)
    else none := by
  have hlit : ∀ n : Nat, n < 256 → (b < UInt8.ofNat n ↔ b.toNat < n) := by
    intro n hn
    rw [UInt8.lt_iff_toNat_lt, UInt8.toNat_ofNat', Nat.mod_eq_of_lt (by simpa using hn)]
  have h80 : b < 0x80 ↔ b.toNat < 0x80 := hlit 0x80 (by decide)
  have hC2 : b < 0xC2 ↔ b.toNat < 0xC2 := hlit 0xC2 (by decide)
  have hE0 : b < 0xE0 ↔ b.toNat < 0xE0 := hlit 0xE0 (by decide)
  have hF0 : b < 0xF0 ↔ b.toNat < 0xF0 := hlit 0xF0 (by decide)
  have hF5 : b < 0xF5 ↔ b.toNat < 0xF5 := hlit 0xF5 (by decide)
  simp only [lead?, h80, hC2, hE0, hF0, hF5]

/-- The four kinds of lead bytes. -/
theorem lead?_cases {b : UInt8} {width bits least : Nat} (h : lead? b = some (width, bits, least)) :
    (b.toNat < 0x80 ∧ width = 1 ∧ bits = b.toNat ∧ least = 0) ∨
      (0xC2 ≤ b.toNat ∧ b.toNat < 0xE0 ∧ width = 2 ∧ bits = b.toNat - 0xC0 ∧ least = 0x80) ∨
      (0xE0 ≤ b.toNat ∧ b.toNat < 0xF0 ∧ width = 3 ∧ bits = b.toNat - 0xE0 ∧ least = 0x800) ∨
      (0xF0 ≤ b.toNat ∧ b.toNat < 0xF5 ∧ width = 4 ∧ bits = b.toNat - 0xF0 ∧ least = 0x10000) := by
  rw [lead?_eq] at h
  split at h
  · simp only [Option.some.injEq, Prod.mk.injEq] at h
    omega
  · split at h
    · cases h
    · split at h
      · simp only [Option.some.injEq, Prod.mk.injEq] at h
        omega
      · split at h
        · simp only [Option.some.injEq, Prod.mk.injEq] at h
          omega
        · split at h
          · simp only [Option.some.injEq, Prod.mk.injEq] at h
            omega
          · cases h

theorem isTail_iff {b : UInt8} : isTail b = true ↔ 0x80 ≤ b.toNat ∧ b.toNat ≤ 0xBF := by
  rw [isTail, Bool.and_eq_true, decide_eq_true_iff, decide_eq_true_iff, UInt8.le_iff_toNat_le,
    UInt8.le_iff_toNat_le]
  exact Iff.rfl

/-- A byte with a given number. -/
theorem eq_ofNat {b : UInt8} {n : Nat} (h : b.toNat = n) : b = UInt8.ofNat n := by
  rw [← h, UInt8.ofNat_toNat]

theorem encode_one {c : Char} (h : c.val.toNat ≤ 0x7F) :
    String.utf8EncodeChar c = [UInt8.ofNat c.val.toNat] := by
  unfold String.utf8EncodeChar
  exact if_pos h

theorem encode_two {c : Char} (hlo : 0x7F < c.val.toNat) (hhi : c.val.toNat ≤ 0x7FF) :
    String.utf8EncodeChar c = [UInt8.ofNat (c.val.toNat / 64 % 0x20 + 0xC0),
      UInt8.ofNat (c.val.toNat % 0x40 + 0x80)] := by
  unfold String.utf8EncodeChar
  simp only
  rw [if_neg (Nat.not_le_of_lt hlo), if_pos hhi]

theorem encode_three {c : Char} (hlo : 0x7FF < c.val.toNat) (hhi : c.val.toNat ≤ 0xFFFF) :
    String.utf8EncodeChar c = [UInt8.ofNat (c.val.toNat / 4096 % 0x10 + 0xE0),
      UInt8.ofNat (c.val.toNat / 64 % 0x40 + 0x80), UInt8.ofNat (c.val.toNat % 0x40 + 0x80)] := by
  unfold String.utf8EncodeChar
  simp only
  rw [if_neg (by omega), if_neg (by omega), if_pos hhi]

theorem encode_four {c : Char} (hlo : 0xFFFF < c.val.toNat) :
    String.utf8EncodeChar c = [UInt8.ofNat (c.val.toNat / 262144 % 0x08 + 0xF0),
      UInt8.ofNat (c.val.toNat / 4096 % 0x40 + 0x80), UInt8.ofNat (c.val.toNat / 64 % 0x40 + 0x80),
      UInt8.ofNat (c.val.toNat % 0x40 + 0x80)] := by
  unfold String.utf8EncodeChar
  simp only
  rw [if_neg (by omega), if_neg (by omega), if_neg (by omega)]

/-- A lead byte and the bytes that continue it are the shortest encoding of their number. -/
theorem cons_eq_encode {b : UInt8} {width bits least : Nat} {tail : List UInt8} {c : Char}
    (hlead : lead? b = some (width, bits, least)) (hlen : tail.length = width - 1)
    (htail : tail.all isTail = true) (hleast : least ≤ value bits tail)
    (hc : c.val.toNat = value bits tail) : b :: tail = String.utf8EncodeChar c := by
  rw [← hc] at hleast
  rcases lead?_cases hlead with ⟨hb, hw, hbits, hl⟩ | ⟨hlo, hhi, hw, hbits, hl⟩ |
    ⟨hlo, hhi, hw, hbits, hl⟩ | ⟨hlo, hhi, hw, hbits, hl⟩
  · rw [hw] at hlen
    obtain rfl : tail = [] := List.length_eq_zero_iff.mp hlen
    have hv : c.val.toNat = b.toNat := hc.trans hbits
    rw [encode_one (by omega), ← eq_ofNat hv.symm]
  · rw [hw] at hlen
    obtain ⟨t, rfl⟩ := List.length_eq_one_iff.mp hlen
    have ht : isTail t = true := by simpa using htail
    have hv : c.val.toNat = bits * 0x40 + t.toNat % 0x40 := hc
    rw [isTail_iff] at ht
    rw [encode_two (by omega) (by omega), ← eq_ofNat (b := b) (by omega),
      ← eq_ofNat (b := t) (by omega)]
  · rw [hw] at hlen
    obtain ⟨t, t', rfl⟩ := List.length_eq_two.mp hlen
    have ht : isTail t = true ∧ isTail t' = true := by simpa using htail
    have hv : c.val.toNat = (bits * 0x40 + t.toNat % 0x40) * 0x40 + t'.toNat % 0x40 := hc
    rw [isTail_iff, isTail_iff] at ht
    rw [encode_three (by omega) (by omega), ← eq_ofNat (b := b) (by omega),
      ← eq_ofNat (b := t) (by omega), ← eq_ofNat (b := t') (by omega)]
  · rw [hw] at hlen
    obtain ⟨t, t', t'', rfl⟩ := List.length_eq_three.mp hlen
    have ht : isTail t = true ∧ isTail t' = true ∧ isTail t'' = true := by simpa using htail
    have hv : c.val.toNat =
        ((bits * 0x40 + t.toNat % 0x40) * 0x40 + t'.toNat % 0x40) * 0x40 + t''.toNat % 0x40 := hc
    rw [isTail_iff, isTail_iff, isTail_iff] at ht
    rw [encode_four (by omega), ← eq_ofNat (b := b) (by omega), ← eq_ofNat (b := t) (by omega),
      ← eq_ofNat (b := t') (by omega), ← eq_ofNat (b := t'') (by omega)]

/-- A well-formed sequence: its first byte leads, and the others continue it. -/
theorem exists_lead_of_wellFormed? {bytes : List UInt8} {n width : Nat}
    (h : wellFormed? bytes = some (n, width)) :
    ∃ b tail bits least, bytes.take width = b :: tail ∧ lead? b = some (width, bits, least) ∧
      tail.length = width - 1 ∧ tail.all isTail = true ∧ least ≤ n ∧ value bits tail = n ∧
      n.isValidChar := by
  have hpos : 0 < width := (width_of_wellFormed? h).1
  cases bytes with
  | nil => cases h
  | cons b rest =>
    simp only [wellFormed?] at h
    split at h
    · cases h
    · next w bits least hlead =>
      split at h
      · next hall =>
        obtain ⟨hlen, htail, hleast, hvalid⟩ := hall
        simp only [Option.some.injEq, Prod.mk.injEq] at h
        obtain ⟨hvalue, hw⟩ := h
        subst hw
        refine ⟨b, rest.take (w - 1), bits, least, ?_, hlead, hlen, htail, ?_, hvalue, ?_⟩
        · obtain ⟨k, rfl⟩ := Nat.exists_eq_add_one_of_ne_zero (Nat.ne_of_gt hpos)
          rfl
        · rw [← hvalue]
          exact hleast
        · rw [← hvalue]
          exact hvalid
      · cases h

/-- A well-formed sequence is the encoding of a character. -/
theorem exists_char_of_wellFormed? {bytes : List UInt8} {n width : Nat}
    (h : wellFormed? bytes = some (n, width)) :
    ∃ c : Char, UInt32.ofNat n = c.val ∧ bytes.take width = String.utf8EncodeChar c := by
  obtain ⟨b, tail, bits, least, htake, hlead, hlen, htail, hleast, hvalue, hvalid⟩ :=
    exists_lead_of_wellFormed? h
  have hbound : n < 2 ^ 32 := by
    rcases hvalid with hlt | ⟨-, hlt⟩
    · exact Nat.lt_trans hlt (by decide)
    · exact Nat.lt_trans hlt (by decide)
  have hval : (UInt32.ofNat n).toNat = n := by
    rw [UInt32.toNat_ofNat', Nat.mod_eq_of_lt hbound]
  have hchar : (UInt32.ofNat n).isValidChar := by
    rw [← hval] at hvalid
    exact hvalid
  refine ⟨⟨UInt32.ofNat n, hchar⟩, rfl, ?_⟩
  rw [htake]
  exact cons_eq_encode hlead hlen htail (by rw [hvalue]; exact hleast) (by rw [hvalue]; exact hval)

/-- What is decoded as a character is its encoding, unless it stands for a byte that belongs to no
sequence. -/
theorem take_of_decode {bytes : List UInt8} {c : Char} {width : Nat}
    (h : decode bytes = some (c.val, width)) (hc : c.val ≠ Symbol.replacement) :
    bytes.take width = String.utf8EncodeChar c := by
  unfold decode at h
  split at h
  · cases h
  · split at h
    · next n w hw =>
      obtain ⟨c', hc', htake⟩ := exists_char_of_wellFormed? hw
      simp only [Option.some.injEq, Prod.mk.injEq] at h
      obtain ⟨hn, rfl⟩ := h
      rw [htake, Char.ext (hc'.symm.trans hn)]
    · simp only [Option.some.injEq, Prod.mk.injEq] at h
      exact absurd h.1.symm hc

/-- What is decoded is a code point. -/
theorem toNat_le_of_decode {bytes : List UInt8} {r : Symbol} {width : Nat}
    (h : decode bytes = some (r, width)) : r.toNat ≤ 0x10FFFF := by
  unfold decode at h
  split at h
  · cases h
  · split at h
    · next n w hw =>
      obtain ⟨c, hc, -⟩ := exists_char_of_wellFormed? hw
      simp only [Option.some.injEq, Prod.mk.injEq] at h
      rw [← h.1, hc]
      rcases c.valid with hlt | ⟨-, hlt⟩ <;> omega
    · simp only [Option.some.injEq, Prod.mk.injEq] at h
      rw [← h.1]
      decide

/-- Within a symbol, behind its first byte, there are only bytes that continue a sequence. -/
theorem isTail_of_decode {bytes : List UInt8} {r : Symbol} {width d : Nat} {b : UInt8}
    (h : decode bytes = some (r, width)) (hpos : 0 < d) (hd : d < width)
    (hb : bytes[d]? = some b) : isTail b = true := by
  unfold decode at h
  split at h
  · cases h
  · split at h
    · next n w hw =>
      obtain ⟨b', tail, bits, least, htake, -, -, htail, -⟩ := exists_lead_of_wellFormed? hw
      simp only [Option.some.injEq, Prod.mk.injEq] at h
      obtain ⟨-, rfl⟩ := h
      have hmem : (bytes.take w)[d]? = some b := by
        rw [List.getElem?_take_of_lt hd]
        exact hb
      obtain ⟨k, rfl⟩ := Nat.exists_eq_add_one_of_ne_zero (Nat.ne_of_gt hpos)
      rw [htake, List.getElem?_cons_succ] at hmem
      exact List.all_eq_true.mp htail b (List.mem_of_getElem? hmem)
    · simp only [Option.some.injEq, Prod.mk.injEq] at h
      omega

/-- No encoding starts with a byte that continues a sequence. -/
theorem exists_head_encode (c : Char) :
    ∃ b tail, String.utf8EncodeChar c = b :: tail ∧ isTail b = false := by
  have hno : ∀ n : Nat, n < 0x80 ∨ 0xC0 ≤ n → n < 0x100 → isTail (UInt8.ofNat n) = false := by
    intro n hn hlt
    rw [← Bool.not_eq_true, isTail_iff, UInt8.toNat_ofNat', Nat.mod_eq_of_lt hlt]
    omega
  by_cases h1 : c.val.toNat ≤ 0x7F
  · exact ⟨_, _, encode_one h1, hno _ (by omega) (by omega)⟩
  · by_cases h2 : c.val.toNat ≤ 0x7FF
    · exact ⟨_, _, encode_two (by omega) h2, hno _ (by omega) (by omega)⟩
    · by_cases h3 : c.val.toNat ≤ 0xFFFF
      · exact ⟨_, _, encode_three (by omega) h3, hno _ (by omega) (by omega)⟩
      · exact ⟨_, _, encode_four (by omega), hno _ (by omega) (by omega)⟩

end Utf8

/-! ## Units -/

namespace Utf16

theorem isLow_iff {u : UInt16} : isLow u = true ↔ 0xDC00 ≤ u.toNat ∧ u.toNat < 0xE000 := by
  rw [isLow, Bool.and_eq_true, decide_eq_true_iff, decide_eq_true_iff, UInt16.le_iff_toNat_le,
    UInt16.lt_iff_toNat_lt]
  exact Iff.rfl

theorem isHigh_iff {u : UInt16} : isHigh u = true ↔ 0xD800 ≤ u.toNat ∧ u.toNat < 0xDC00 := by
  rw [isHigh, Bool.and_eq_true, decide_eq_true_iff, decide_eq_true_iff, UInt16.le_iff_toNat_le,
    UInt16.lt_iff_toNat_lt]
  exact Iff.rfl

/-- A unit with a given number. -/
theorem eq_ofNat {u : UInt16} {n : Nat} (h : u.toNat = n) : u = UInt16.ofNat n := by
  rw [← h, UInt16.ofNat_toNat]

theorem encodeChar_one {c : Char} (h : c.val.toNat < 0x10000) :
    encodeChar c = [UInt16.ofNat c.val.toNat] :=
  if_pos h

theorem encodeChar_two {c : Char} (h : 0x10000 ≤ c.val.toNat) :
    encodeChar c = [UInt16.ofNat (0xD800 + (c.val.toNat - 0x10000) / 0x400),
      UInt16.ofNat (0xDC00 + (c.val.toNat - 0x10000) % 0x400)] :=
  if_neg (Nat.not_lt_of_le h)

/-- The number of a pair of surrogates. -/
theorem toNat_combine {high low : UInt16} (hhigh : isHigh high = true) (hlow : isLow low = true) :
    (combine high low).toNat =
      0x10000 + (high.toNat - 0xD800) * 0x400 + (low.toNat - 0xDC00) := by
  rw [isHigh_iff] at hhigh
  rw [isLow_iff] at hlow
  rw [combine, UInt32.toNat_ofNat', Nat.mod_eq_of_lt]
  omega

/-- What is decoded as a character is its encoding. -/
theorem take_of_decode {units : List UInt16} {c : Char} {width : Nat}
    (h : decode units = some (c.val, width)) : units.take width = encodeChar c := by
  have hsingle : ∀ u : UInt16, u.toUInt32 = c.val → [u] = encodeChar c := by
    intro u hu
    have hval : c.val.toNat = u.toNat := by rw [← hu, UInt16.toNat_toUInt32]
    have hlt : u.toNat < 0x10000 := u.toNat_lt
    rw [encodeChar_one (by omega), ← eq_ofNat hval.symm]
  unfold decode at h
  split at h
  · cases h
  · simp only [Option.some.injEq, Prod.mk.injEq] at h
    obtain ⟨hu, rfl⟩ := h
    exact hsingle _ hu
  · next u v rest =>
    split at h
    · next hpair =>
      simp only [Option.some.injEq, Prod.mk.injEq] at h
      obtain ⟨hu, rfl⟩ := h
      obtain ⟨hhigh, hlow⟩ : isHigh u = true ∧ isLow v = true := by simpa using hpair
      have hval : c.val.toNat = 0x10000 + (u.toNat - 0xD800) * 0x400 + (v.toNat - 0xDC00) := by
        rw [← hu, toNat_combine hhigh hlow]
      rw [isHigh_iff] at hhigh
      rw [isLow_iff] at hlow
      rw [encodeChar_two (by omega), ← eq_ofNat (u := u) (by omega), ← eq_ofNat (u := v) (by omega)]
      rfl
    · simp only [Option.some.injEq, Prod.mk.injEq] at h
      obtain ⟨hu, rfl⟩ := h
      exact hsingle u hu

/-- What is decoded is a code point. -/
theorem toNat_le_of_decode {units : List UInt16} {r : Symbol} {width : Nat}
    (h : decode units = some (r, width)) : r.toNat ≤ 0x10FFFF := by
  have hunit : ∀ u : UInt16, u.toUInt32.toNat ≤ 0x10FFFF := by
    intro u
    have := u.toNat_lt
    rw [UInt16.toNat_toUInt32]
    omega
  unfold decode at h
  split at h
  · cases h
  · simp only [Option.some.injEq, Prod.mk.injEq] at h
    rw [← h.1]
    exact hunit _
  · split at h
    · next u v _ hpair =>
      simp only [Option.some.injEq, Prod.mk.injEq] at h
      obtain ⟨hhigh, hlow⟩ := Bool.and_eq_true_iff.mp hpair
      rw [← h.1, toNat_combine hhigh hlow]
      rw [isHigh_iff] at hhigh
      rw [isLow_iff] at hlow
      omega
    · simp only [Option.some.injEq, Prod.mk.injEq] at h
      rw [← h.1]
      exact hunit _

/-- Within a symbol, behind its first unit, there is only a low surrogate. -/
theorem isLow_of_decode {units : List UInt16} {r : Symbol} {width d : Nat} {u : UInt16}
    (h : decode units = some (r, width)) (hpos : 0 < d) (hd : d < width)
    (hu : units[d]? = some u) : isLow u = true := by
  unfold decode at h
  split at h
  · cases h
  · simp only [Option.some.injEq, Prod.mk.injEq] at h
    omega
  · next v w rest =>
    split at h
    · next hpair =>
      simp only [Option.some.injEq, Prod.mk.injEq] at h
      obtain ⟨-, rfl⟩ := h
      obtain rfl : d = 1 := by omega
      have hw : w = u := by simpa using hu
      rw [← hw]
      exact (Bool.and_eq_true _ _ ▸ hpair).2
    · simp only [Option.some.injEq, Prod.mk.injEq] at h
      omega

/-- No encoding starts with a low surrogate. -/
theorem exists_head_encodeChar (c : Char) :
    ∃ u tail, encodeChar c = u :: tail ∧ isLow u = false := by
  by_cases h : c.val.toNat < 0x10000
  · refine ⟨_, _, encodeChar_one h, ?_⟩
    rw [← Bool.not_eq_true, isLow_iff, UInt16.toNat_ofNat', Nat.mod_eq_of_lt h]
    -- surrogates are no characters
    rcases c.valid with hlt | ⟨hlt, -⟩
    · have hlt' : c.val.toNat < 0xD800 := hlt
      omega
    · have hlt' : 0xDFFF < c.val.toNat := hlt
      omega
  · refine ⟨_, _, encodeChar_two (by omega), ?_⟩
    have hbound : c.val.toNat < 0x110000 := by
      rcases c.valid with hlt | ⟨-, hlt⟩
      · exact Nat.lt_trans hlt (by decide)
      · exact hlt
    rw [← Bool.not_eq_true, isLow_iff, UInt16.toNat_ofNat', Nat.mod_eq_of_lt (by omega)]
    omega

end Utf16

/-! ## Where a sequence stands -/

namespace Occurrence

variable {α : Type} [DecidableEq α]

theorem test_append (hay : Array α) (a b : List α) (i : Nat) :
    test hay (a ++ b) i = (test hay a i && test hay b (i + a.length)) := by
  induction a generalizing i with
  | nil => rfl
  | cons x a ih =>
    show (_ && test hay (a ++ b) (i + 1)) = _
    rw [ih, ← Bool.and_assoc, List.length_cons, Nat.add_assoc, Nat.add_comm 1 a.length]
    rfl

/-- A sequence stands at an index if what lies behind the index starts with it. -/
theorem test_iff_startsWith {hay : Array α} {needle : List α} {i : Nat} :
    test hay needle i = true ↔ needle <+: hay.toList.drop i := by
  induction needle generalizing i with
  | nil => simp [test]
  | cons x needle ih =>
    rw [test, Bool.and_eq_true, ih, beq_iff_eq]
    rcases Nat.lt_or_ge i hay.size with hi | hi
    · have hdrop : hay.toList.drop i = hay[i] :: hay.toList.drop (i + 1) := by
        rw [List.drop_eq_getElem_cons (by simpa using hi), Array.getElem_toList]
      rw [hdrop, List.cons_prefix_cons, Array.getElem?_eq_getElem hi, Option.some.injEq]
      exact and_congr_left fun _ => eq_comm
    · have hdrop : hay.toList.drop i = [] := List.drop_eq_nil_of_le (by simpa using hi)
      rw [hdrop, Array.getElem?_eq_none hi]
      simp

/-- A part of a sequence stands where it was taken from. -/
theorem test_extract (hay : Array α) (i stop n : Nat) :
    test hay ((hay.extract i stop).toList.take n) i = true := by
  rw [test_iff_startsWith, Array.toList_extract, List.extract_eq_take_drop]
  exact (List.take_prefix _ _).trans (List.take_prefix _ _)

/-- The search finds the least place. -/
theorem next?_eq_some {hay : Array α} {needle : List α} {i p : Nat}
    (h : next? hay needle i = some p) :
    i ≤ p ∧ p ≤ hay.size ∧ test hay needle p = true ∧
      ∀ k, i ≤ k → k < p → test hay needle k = false := by
  induction i using next?.induct hay needle with
  | case1 i hi htest =>
    rw [next?, if_pos hi, if_pos htest] at h
    cases h
    exact ⟨le_refl _, hi, htest, fun k hk hlt => absurd hk (Nat.not_le_of_lt hlt)⟩
  | case2 i hi htest ih =>
    rw [next?, if_pos hi, if_neg htest] at h
    obtain ⟨hle, hend, hp, hleast⟩ := ih h
    refine ⟨by omega, hend, hp, fun k hk hlt => ?_⟩
    rcases Nat.eq_or_lt_of_le hk with rfl | hk
    · simpa using htest
    · exact hleast k hk hlt
  | case3 _ hi =>
    rw [next?, if_neg hi] at h
    cases h

/-- The search finds nothing only where there is nothing. -/
theorem next?_eq_none {hay : Array α} {needle : List α} {i : Nat}
    (h : next? hay needle i = none) :
    ∀ k, i ≤ k → k ≤ hay.size → test hay needle k = false := by
  induction i using next?.induct hay needle with
  | case1 i hi htest =>
    rw [next?, if_pos hi, if_pos htest] at h
    cases h
  | case2 i hi htest ih =>
    rw [next?, if_pos hi, if_neg htest] at h
    intro k hk hend
    rcases Nat.eq_or_lt_of_le hk with rfl | hk
    · simpa using htest
    · exact ih h k hk hend
  | case3 _ hi =>
    intro k hk hend
    exact absurd (le_trans hk hend) hi

end Occurrence

/-! ## Characters in a text -/

namespace Text

variable {text : Text} {i j p : text.Offset} {r : Symbol}

/-- What is read is a code point. -/
theorem toNat_le_of_read? (h : text.read? i = some (r, j)) : r.toNat ≤ 0x10FFFF := by
  have hstep := step_of_read? h
  cases text with
  | utf8 bytes => exact Utf8.toNat_le_of_decode hstep
  | utf16 units => exact Utf16.toNat_le_of_decode hstep

/-- The encoding of some characters stands at an offset. -/
def Occurs (text : Text) (chars : List Char) (pos : Nat) : Prop :=
  match text with
  | utf8 bytes => Occurrence.test bytes (chars.flatMap String.utf8EncodeChar) pos = true
  | utf16 units => Occurrence.test units (Utf16.encode chars) pos = true

/-- Where the text reads as these characters, their encoding stands. -/
def Plain (text : Text) (chars : List Char) : Prop :=
  match text with
  | utf8 _ => ∀ c ∈ chars, c.val ≠ Symbol.replacement
  | utf16 _ => True

theorem find?_eq_some {chars : List Char} {pos found : Nat}
    (h : text.find? chars pos = some found) :
    pos ≤ found ∧ found ≤ text.endPos ∧ text.Occurs chars found ∧
      ∀ k, pos ≤ k → k < found → ¬ text.Occurs chars k := by
  cases text with
  | utf8 bytes =>
    obtain ⟨hle, hend, htest, hleast⟩ := Occurrence.next?_eq_some h
    exact ⟨hle, hend, htest, fun k hk hlt => Bool.eq_false_iff.mp (hleast k hk hlt)⟩
  | utf16 units =>
    obtain ⟨hle, hend, htest, hleast⟩ := Occurrence.next?_eq_some h
    exact ⟨hle, hend, htest, fun k hk hlt => Bool.eq_false_iff.mp (hleast k hk hlt)⟩

theorem find?_eq_none {chars : List Char} {pos : Nat} (h : text.find? chars pos = none) :
    ∀ k, pos ≤ k → k ≤ text.endPos → ¬ text.Occurs chars k := by
  cases text with
  | utf8 bytes =>
    exact fun k hk hend => Bool.eq_false_iff.mp (Occurrence.next?_eq_none h k hk hend)
  | utf16 units =>
    exact fun k hk hend => Bool.eq_false_iff.mp (Occurrence.next?_eq_none h k hk hend)

/-- Where the text reads as one character, its encoding stands, and the next symbol comes right
behind. -/
theorem occurs_cons {c : Char} {cs : List Char} (hplain : text.Plain (c :: cs))
    (hread : text.read? i = some (c.val, j)) (hrest : text.Occurs cs j) :
    text.Occurs (c :: cs) i := by
  have hlt : (i : Nat) < j := lt_of_read? hread
  have hstep := step_of_read? hread
  cases text with
  | utf8 bytes =>
    have htake := Utf8.take_of_decode hstep (hplain c (List.mem_cons_self ..))
    have hlen : (String.utf8EncodeChar c).length = (j : Nat) - i := by
      rw [← htake, List.length_take, Nat.min_eq_left (Utf8.width_of_decode hstep).2]
    show Occurrence.test bytes
      (String.utf8EncodeChar c ++ cs.flatMap String.utf8EncodeChar) i = true
    rw [Occurrence.test_append, Bool.and_eq_true, hlen]
    constructor
    · rw [← htake]
      exact Occurrence.test_extract bytes _ _ _
    · rw [Nat.add_sub_cancel' (le_of_lt hlt)]
      exact hrest
  | utf16 units =>
    have htake := Utf16.take_of_decode hstep
    have hlen : (Utf16.encodeChar c).length = (j : Nat) - i := by
      rw [← htake, List.length_take, Nat.min_eq_left (Utf16.width_of_decode hstep).2]
    show Occurrence.test units (Utf16.encodeChar c ++ cs.flatMap Utf16.encodeChar) i = true
    rw [Occurrence.test_append, Bool.and_eq_true, hlen]
    constructor
    · rw [← htake]
      exact Occurrence.test_extract units _ _ _
    · rw [Nat.add_sub_cancel' (le_of_lt hlt)]
      exact hrest

/-- **Where the text reads as some characters**, their encoding stands. -/
theorem occurs_of_spells {chars : List Char} (hplain : text.Plain chars)
    (h : text.Spells chars i) : text.Occurs chars i := by
  induction chars generalizing i with
  | nil =>
    cases text with
    | utf8 bytes => rfl
    | utf16 units => rfl
  | cons c cs ih =>
    obtain ⟨j, hread, hrest⟩ := h
    refine occurs_cons hplain hread (ih ?_ hrest)
    cases text with
    | utf8 bytes => exact fun d hd => hplain d (List.mem_cons_of_mem c hd)
    | utf16 units => trivial

/-- Reading comes by an offset that lies within no symbol. -/
theorem readsTo_of_no_cut (hcut : ∀ k r k', text.read? k = some (r, k') → ¬ (k < p ∧ p < k'))
    (hip : i ≤ p) : text.ReadsTo i p := by
  induction i using offset_induction with
  | step i ih =>
    rcases eq_or_lt_of_le hip with rfl | hlt
    · exact .refl i
    · cases hread : text.read? i with
      | none =>
        have hend : (i : Nat) = text.endPos := read?_eq_none_iff.mp hread
        have hlt' : (i : Nat) < p := hlt
        omega
      | some found =>
        obtain ⟨r, j⟩ := found
        have hjp : j ≤ p := le_of_not_gt fun hpj => hcut i r j hread ⟨hlt, hpj⟩
        exact .trans (.of_read hread) (ih j (lt_of_read? hread) hjp)

/-- A byte that continues no sequence is passed over by none: reading comes by. -/
theorem readsTo_of_isTail_eq_false {bytes : Array UInt8} {i p : (utf8 bytes).Offset} {b : UInt8}
    (hb : bytes[(p : Nat)]? = some b) (hno : Utf8.isTail b = false) (hip : i ≤ p) :
    (utf8 bytes).ReadsTo i p := by
  refine readsTo_of_no_cut (fun k r k' hread hcut => ?_) hip
  have hstep := step_of_read? hread
  have hkp : (k : Nat) < p := hcut.1
  have hpk : (p : Nat) < k' := hcut.2
  have hwidth := (Utf8.width_of_decode hstep).2
  rw [Array.length_toList, Array.size_extract] at hwidth
  have hmem : (bytes.extract k (k + Utf8.maxWidth)).toList[(p : Nat) - k]? = some b := by
    rw [Array.getElem?_toList, Array.getElem?_extract, if_pos (by omega),
      Nat.add_sub_cancel' (le_of_lt hkp)]
    exact hb
  -- a symbol that goes on over `p` has a tail byte there
  have htail := Utf8.isTail_of_decode hstep (by omega) (by omega) hmem
  rw [hno] at htail
  cases htail

/-- The same with units: only a low surrogate can be passed over. -/
theorem readsTo_of_isLow_eq_false {units : Array UInt16} {i p : (utf16 units).Offset} {u : UInt16}
    (hu : units[(p : Nat)]? = some u) (hno : Utf16.isLow u = false) (hip : i ≤ p) :
    (utf16 units).ReadsTo i p := by
  refine readsTo_of_no_cut (fun k r k' hread hcut => ?_) hip
  have hstep := step_of_read? hread
  have hkp : (k : Nat) < p := hcut.1
  have hpk : (p : Nat) < k' := hcut.2
  have hwidth := (Utf16.width_of_decode hstep).2
  rw [Array.length_toList, Array.size_extract] at hwidth
  have hmem : (units.extract k (k + Utf16.maxWidth)).toList[(p : Nat) - k]? = some u := by
    rw [Array.getElem?_toList, Array.getElem?_extract, if_pos (by omega),
      Nat.add_sub_cancel' (le_of_lt hkp)]
    exact hu
  have hlow := Utf16.isLow_of_decode hstep (by omega) (by omega) hmem
  rw [hno] at hlow
  cases hlow

/-- **Where the encoding of a character stands**, reading comes by. -/
theorem readsTo_of_occurs {c : Char} {cs : List Char} (h : text.Occurs (c :: cs) p) (hip : i ≤ p) :
    text.ReadsTo i p := by
  cases text with
  | utf8 bytes =>
    obtain ⟨b, tail, hencode, hno⟩ := Utf8.exists_head_encode c
    have htest : Occurrence.test bytes
        (String.utf8EncodeChar c ++ cs.flatMap String.utf8EncodeChar) p = true := h
    rw [hencode] at htest
    have hb : bytes[(p : Nat)]? = some b := by
      exact eq_of_beq (Bool.and_eq_true _ _ ▸ htest).1
    exact readsTo_of_isTail_eq_false hb hno hip
  | utf16 units =>
    obtain ⟨u, tail, hencode, hno⟩ := Utf16.exists_head_encodeChar c
    have htest : Occurrence.test units
        (Utf16.encodeChar c ++ cs.flatMap Utf16.encodeChar) p = true := h
    rw [hencode] at htest
    have hu : units[(p : Nat)]? = some u := by
      exact eq_of_beq (Bool.and_eq_true _ _ ▸ htest).1
    exact readsTo_of_isLow_eq_false hu hno hip

/-- Reading comes by the next place where some characters stand. -/
theorem readsTo_of_find? {chars : List Char} (h : text.find? chars i = some (p : Nat)) :
    text.ReadsTo i p := by
  obtain ⟨hle, -, hoccurs, hleast⟩ := find?_eq_some h
  cases chars with
  | cons c cs => exact readsTo_of_occurs hoccurs hle
  | nil =>
    -- nothing stands everywhere
    have hstands : text.Occurs [] i := by cases text <;> rfl
    have hnot : ¬ (i : Nat) < p := fun hlt => hleast i (Nat.le_refl _) hlt hstands
    rw [Fin.ext (show (i : Nat) = p by omega)]
    exact .refl p

end Text

end Lockstep
