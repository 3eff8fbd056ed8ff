import Lockstep.Proofs.Decoding

/-!
# Looking back

Looking back from an offset backs up a few bytes or units and decodes from there. The offset that is
found so need not be one that reading comes by: looking back knows nothing of what was read before.
On the way that reading takes from the start of a text, however, well formed or not, it finds the
symbol that was read last.

- `Text.ReadsTo.eq_of_read?`: reading comes to an offset from one other offset only.
- `Utf8.decodeLast_cases`: what looking back finds is replaced, or its encoding stands there.
- `Text.before_of_read?`: behind a symbol that is read, looking back finds it.
- `Text.map_context_offsetsFrom`: the conditions on the way, from the symbols that are read.
- `Text.before_of_readsTo`: looking back agrees with reading.
-/

namespace Lockstep

/-! ## The offset before -/

namespace Text

variable {text : Text} {i p p' q : text.Offset} {r r' : Symbol}

/-- There is one way to read on. -/
theorem ReadsTo.total (h : text.ReadsTo i p) (h' : text.ReadsTo i p') :
    text.ReadsTo p p' ∨ text.ReadsTo p' p := by
  refine Relation.ReflTransGen.total_of_right_unique ?_ h h'
  rintro j k k' ⟨r, hread⟩ ⟨r', hread'⟩
  rw [hread] at hread'
  cases hread'
  rfl

/-- Reading does not come behind a symbol again. -/
theorem ReadsTo.eq_of_readsTo (h : text.ReadsTo p p') (hread : text.read? p = some (r, q))
    (hread' : text.read? p' = some (r', q)) : p = p' := by
  rcases h.cases_head with rfl | ⟨r₁, q₁, hread₁, hto⟩
  · rfl
  · rw [hread] at hread₁
    cases hread₁
    exact absurd (lt_of_read? hread') (not_lt_of_ge hto.le)

/-- Reading comes to an offset from one other offset only. -/
theorem ReadsTo.eq_of_read? (h : text.ReadsTo i p) (h' : text.ReadsTo i p')
    (hread : text.read? p = some (r, q)) (hread' : text.read? p' = some (r', q)) : p = p' := by
  rcases h.total h' with hto | hto
  · exact hto.eq_of_readsTo hread hread'
  · exact (hto.eq_of_readsTo hread' hread).symm

/-- Reading ends at the end of the text. -/
theorem readsTo_last (i : text.Offset) : text.ReadsTo i (Fin.last text.endPos) := by
  refine readsTo_of_no_cut (fun k r k' _ hcut => ?_) (Fin.le_last i)
  exact absurd hcut.2 (not_lt_of_ge (Fin.le_last k'))

end Text

/-! ## Bytes -/

namespace Utf8

/-- What is found by looking back is replaced, or its encoding ends there. -/
theorem decodeLast_cases {reversed : List UInt8} {r : Symbol} (h : decodeLast reversed = some r) :
    r = Symbol.replacement ∨
      ∃ c : Char, r = c.val ∧ (String.utf8EncodeChar c).reverse <+: reversed := by
  unfold decodeLast at h
  simp only at h
  cases hdecode : decode (reversed.take (backUp reversed)).reverse with
  | none =>
    rw [hdecode] at h
    cases h
  | some found =>
    obtain ⟨r', width⟩ := found
    rw [hdecode] at h
    simp only at h
    split at h
    · next hwidth =>
      cases h
      by_cases hc : ∃ c : Char,
          String.utf8EncodeChar c <+: (reversed.take (backUp reversed)).reverse
      · obtain ⟨c, hc⟩ := hc
        have hsame := (decode_of_isPrefix hc).symm.trans hdecode
        simp only [Option.some.injEq, Prod.mk.injEq] at hsame
        obtain ⟨hval, hlen⟩ := hsame
        -- the encoding takes up all that was backed up over
        have hall : String.utf8EncodeChar c = (reversed.take (backUp reversed)).reverse := by
          refine hc.eq_of_length_le ?_
          rw [List.length_reverse, List.length_take, hlen, hwidth]
          exact Nat.min_le_left _ _
        refine .inr ⟨c, hval.symm, ?_⟩
        rw [hall, List.reverse_reverse]
        exact List.take_prefix _ _
      · have hne : (reversed.take (backUp reversed)).reverse ≠ [] := by
          intro hnil
          rw [decode_eq_none_iff.mpr hnil] at hdecode
          cases hdecode
        rw [decode_of_forall_not_isPrefix hne (not_exists.mp hc)] at hdecode
        simp only [Option.some.injEq, Prod.mk.injEq] at hdecode
        exact .inl hdecode.1.symm
    · cases h
      exact .inl rfl

end Utf8

/-! ## Units -/

namespace Utf16

/-- What is read is a pair of surrogates, or one unit alone. -/
theorem decode_cases {units : List UInt16} {r : Symbol} {width : Nat}
    (h : decode units = some (r, width)) :
    (∃ u v, [u, v] <+: units ∧ isHigh u = true ∧ isLow v = true ∧ r = combine u v ∧ width = 2) ∨
      ∃ u, [u] <+: units ∧ r = u.toUInt32 ∧ width = 1 := by
  unfold decode at h
  split at h
  · cases h
  · next u =>
    simp only [Option.some.injEq, Prod.mk.injEq] at h
    exact .inr ⟨u, List.prefix_refl _, h.1.symm, h.2.symm⟩
  · next u v rest =>
    split at h
    · next hpair =>
      simp only [Option.some.injEq, Prod.mk.injEq] at h
      obtain ⟨hhigh, hlow⟩ := Bool.and_eq_true_iff.mp hpair
      exact .inl ⟨u, v, List.prefix_append [u, v] rest, hhigh, hlow, h.1.symm, h.2.symm⟩
    · simp only [Option.some.injEq, Prod.mk.injEq] at h
      exact .inr ⟨u, List.prefix_append [u] (v :: rest), h.1.symm, h.2.symm⟩

theorem decode_of_pair {u v : UInt16} {units : List UInt16} (h : [u, v] <+: units)
    (hhigh : isHigh u = true) (hlow : isLow v = true) :
    decode units = some (combine u v, 2) := by
  obtain ⟨rest, rfl⟩ := h
  simp [decode, hhigh, hlow]

theorem decodeLast_of_pair {u v : UInt16} {reversed : List UInt16} (h : [v, u] <+: reversed)
    (hhigh : isHigh u = true) (hlow : isLow v = true) :
    decodeLast reversed = some (combine u v) := by
  obtain ⟨rest, rfl⟩ := h
  simp [decodeLast, hhigh, hlow]

/-- Looking back over a unit finds the unit, unless a pair of surrogates ends there. -/
theorem decodeLast_of_unit {u : UInt16} {reversed : List UInt16} (h : [u] <+: reversed)
    (hno : ∀ v, [u, v] <+: reversed → ¬ (isHigh v = true ∧ isLow u = true)) :
    decodeLast reversed = some u.toUInt32 := by
  obtain ⟨rest, rfl⟩ := h
  cases rest with
  | nil => rfl
  | cons v rest =>
    have hpair := hno v (List.prefix_append [u, v] rest)
    refine if_neg fun h => hpair ?_
    exact (Bool.and_eq_true_iff.mp h).symm

/-- No unit is both halves of a pair. -/
theorem isLow_eq_false_of_isHigh {u : UInt16} (h : isHigh u = true) : isLow u = false := by
  rw [isHigh_iff] at h
  rw [← Bool.not_eq_true, isLow_iff]
  omega

end Utf16

/-! ## Texts -/

namespace Text

variable {text : Text} {p q : text.Offset} {r : Symbol}

/-- A step reads the units that lie behind the offset. -/
theorem step_utf16 (units : Array UInt16) (pos : Nat) :
    (utf16 units).step pos = Utf16.decode (units.toList.drop pos) := by
  show Utf16.decode _ = _
  rw [Array.toList_extract, List.extract_eq_take_drop, Nat.add_sub_cancel_left]
  rcases units.toList.drop pos with _ | ⟨u, _ | ⟨v, rest⟩⟩ <;> rfl

/-- Behind a symbol that is read in bytes, looking back finds it. -/
theorem before_of_read?_utf8 {bytes : Array UInt8} {p q : (utf8 bytes).Offset} {r : Symbol}
    (hto : (utf8 bytes).ReadsTo 0 p) (hread : (utf8 bytes).read? p = some (r, q)) :
    (utf8 bytes).before q = some r := by
  have hq : (q : Nat) ≤ bytes.size := Nat.le_of_lt_succ q.isLt
  have hlt : (p : Nat) < q := lt_of_read? hread
  have hstep := step_of_read? hread
  rw [step_utf8] at hstep
  have hlast : (utf8 bytes).before q =
      Utf8.decodeLast (bytes.extract (q - Utf8.maxWidth) q).toList.reverse :=
    if_neg (Nat.not_lt_of_le hq)
  have hends := fun c : Char => Occurrence.reverse_isPrefix_iff (Utf8.length_encode_le c) hq
  by_cases hc : ∃ c : Char, String.utf8EncodeChar c <+: bytes.toList.drop p
  · -- an encoded character is found by its end
    obtain ⟨c, hc⟩ := hc
    have hsame := (Utf8.decode_of_isPrefix hc).symm.trans hstep
    simp only [Option.some.injEq, Prod.mk.injEq] at hsame
    obtain ⟨rfl, hlen⟩ := hsame
    have hhere : (q : Nat) - (String.utf8EncodeChar c).length = p := by omega
    obtain ⟨rest, hrest⟩ := (hends c).mpr ⟨by omega, by rwa [hhere]⟩
    rw [hlast, ← hrest, Utf8.decodeLast_append]
  · -- what is replaced is one byte, and no encoding ends behind it
    have hne : bytes.toList.drop p ≠ [] := by
      intro hnil
      rw [hnil] at hstep
      cases hstep
    rw [Utf8.decode_of_forall_not_isPrefix hne (not_exists.mp hc)] at hstep
    simp only [Option.some.injEq, Prod.mk.injEq] at hstep
    obtain ⟨rfl, -⟩ := hstep
    have hne' : (utf8 bytes).before q ≠ none := before_ne_none (Nat.zero_lt_of_lt hlt) hq
    obtain ⟨r', hr'⟩ := Option.ne_none_iff_exists'.mp hne'
    rcases Utf8.decodeLast_cases (hlast.symm.trans hr') with rfl | ⟨c, rfl, hc'⟩
    · exact hr'
    · obtain ⟨hle, hprefix⟩ := (hends c).mp hc'
      -- reading comes by where the encoding starts, and so comes to `q` from there
      obtain ⟨start, hstart⟩ : ∃ start : (utf8 bytes).Offset,
          (start : Nat) = q - (String.utf8EncodeChar c).length := ⟨⟨_, by omega⟩, rfl⟩
      rw [← hstart] at hprefix
      have hstands : (utf8 bytes).Occurs [c] start := by
        refine Occurrence.test_iff_startsWith.mpr ?_
        rwa [List.flatMap_singleton]
      obtain ⟨k, hread', hk⟩ := exists_read_of_step
        ((step_utf8 bytes start).trans (Utf8.decode_of_isPrefix hprefix))
      obtain rfl : k = q := Fin.ext (by omega)
      have hsame : start = p :=
        (readsTo_of_occurs hstands (Fin.zero_le start)).eq_of_read? hto hread' hread
      exact absurd ⟨c, hsame ▸ hprefix⟩ hc

/-- Behind a symbol that is read in units, looking back finds it. -/
theorem before_of_read?_utf16 {units : Array UInt16} {p q : (utf16 units).Offset} {r : Symbol}
    (hto : (utf16 units).ReadsTo 0 p) (hread : (utf16 units).read? p = some (r, q)) :
    (utf16 units).before q = some r := by
  have hq : (q : Nat) ≤ units.size := Nat.le_of_lt_succ q.isLt
  have hlt : (p : Nat) < q := lt_of_read? hread
  have hstep := step_of_read? hread
  rw [step_utf16] at hstep
  have hends := fun (needle : List UInt16) (hneedle : needle.length ≤ Utf16.maxWidth) =>
    Occurrence.reverse_isPrefix_iff hneedle hq
  rw [show (utf16 units).before q =
      Utf16.decodeLast (units.extract (q - Utf16.maxWidth) q).toList.reverse from
    if_neg (Nat.not_lt_of_le hq)]
  rcases Utf16.decode_cases hstep with
    ⟨u, v, hpair, hhigh, hlow, rfl, hwidth⟩ | ⟨u, hunit, rfl, hwidth⟩
  · have hhere : (q : Nat) - 2 = p := by omega
    refine Utf16.decodeLast_of_pair ((hends [u, v] (le_refl 2)).mpr ⟨?_, ?_⟩) hhigh hlow
    · show 2 ≤ (q : Nat)
      omega
    · show [u, v] <+: units.toList.drop ((q : Nat) - 2)
      rwa [hhere]
  · have hhere : (q : Nat) - 1 = p := by omega
    refine Utf16.decodeLast_of_unit ((hends [u] (Nat.le_succ 1)).mpr ⟨?_, ?_⟩) ?_
    · show 1 ≤ (q : Nat)
      omega
    · show [u] <+: units.toList.drop ((q : Nat) - 1)
      rwa [hhere]
    · rintro v hpair ⟨hhigh, hlow⟩
      obtain ⟨hle, hprefix⟩ := (hends [v, u] (le_refl 2)).mp hpair
      -- reading comes by the high surrogate, and so comes to `q` from there
      obtain ⟨start, hstart⟩ : ∃ start : (utf16 units).Offset, (start : Nat) = q - 2 :=
        ⟨⟨(q : Nat) - 2, by omega⟩, rfl⟩
      change [v, u] <+: units.toList.drop ((q : Nat) - 2) at hprefix
      rw [← hstart] at hprefix
      have hunit : units[(start : Nat)]? = some v := by
        obtain ⟨rest, hrest⟩ := hprefix
        rw [← Array.getElem?_toList, ← Nat.add_zero (start : Nat), ← List.getElem?_drop, ← hrest]
        rfl
      obtain ⟨k, hread', hk⟩ := exists_read_of_step
        ((step_utf16 units start).trans (Utf16.decode_of_pair hprefix hhigh hlow))
      have hle' : 2 ≤ (q : Nat) := hle
      obtain rfl : k = q := Fin.ext (by omega)
      have hsame : start = p := (readsTo_of_isLow_eq_false hunit
        (Utf16.isLow_eq_false_of_isHigh hhigh) (Fin.zero_le start)).eq_of_read? hto hread' hread
      rw [← hsame] at hhere
      omega

/-- **Behind a symbol that is read**, looking back finds it. -/
theorem before_of_read? (hto : text.ReadsTo 0 p) (hread : text.read? p = some (r, q)) :
    text.before q = some r := by
  cases text with
  | utf8 bytes => exact before_of_read?_utf8 hto hread
  | utf16 units => exact before_of_read?_utf16 hto hread

/-- **The conditions on the way** are those between one symbol that is read and the next. -/
theorem map_context_offsetsFrom {i : text.Offset} (hto : text.ReadsTo 0 i) :
    (text.offsetsFrom i).map (fun j : text.Offset => text.context j) =
      let symbols := (text.offsetsFrom i).map fun j : text.Offset => text.symbolAt j
      List.zipWith Conditions.between (text.before i :: symbols) symbols := by
  induction i using offset_induction with
  | step i ih =>
    cases hread : text.read? i with
    | none =>
      rw [offsetsFrom_of_end hread]
      rfl
    | some found =>
      obtain ⟨r, j⟩ := found
      have hrest := ih j (lt_of_read? hread) (hto.trans (.of_read hread))
      rw [before_of_read? hto hread, ← symbolAt_of_read? hread] at hrest
      rw [offsetsFrom_of_read hread, List.map_cons, hrest]
      rfl

/-- A step from one offset to another reads what lies between them. -/
theorem read?_of_step {width : Nat} (hstep : text.step p = some (r, width))
    (hq : (p : Nat) + width = q) : text.read? p = some (r, q) := by
  obtain ⟨j, hread, hj⟩ := exists_read_of_step hstep
  rw [hread, Fin.ext (hj.trans hq)]

/-- **Looking back agrees with reading**, in any text, well formed or not. Reading from the start
comes to the end. At every offset it comes to, the start itself apart, exactly one step from an
offset it came to before has ended there, and the symbol of that step is what looking back finds;
so the conditions at the offset are those between that symbol and the next one. Taken together, the
conditions at the offsets on the way are those between nothing and the first symbol, each symbol and
the next, and the last symbol and nothing. -/
theorem before_of_readsTo (text : Text) :
    text.ReadsTo 0 (Fin.last text.endPos) ∧
      (∀ q : text.Offset, text.ReadsTo 0 q →
        (q = 0 ∧ text.before q = none ∧
          text.context q = Conditions.between none (text.symbolAt q)) ∨
        ∃ (p : text.Offset) (r : Symbol) (width : Nat), text.ReadsTo 0 p ∧
          text.step p = some (r, width) ∧ (p : Nat) + width = q ∧
          (∀ (p' : text.Offset) (r' : Symbol) (width' : Nat), text.ReadsTo 0 p' →
            text.step p' = some (r', width') → (p' : Nat) + width' = q → p' = p ∧ r' = r) ∧
          text.before q = some r ∧
          text.context q = Conditions.between (some r) (text.symbolAt q)) ∧
      (text.offsetsFrom 0).map (fun q : text.Offset => text.context q) =
        let symbols := (text.offsetsFrom 0).map fun q : text.Offset => text.symbolAt q
        List.zipWith Conditions.between (none :: symbols) symbols := by
  refine ⟨readsTo_last 0, fun q hq => ?_, ?_⟩
  · rcases Relation.ReflTransGen.cases_tail hq with rfl | ⟨p, hp, r, hread⟩
    · have hnone : text.before ((0 : text.Offset) : Nat) = none := before_zero text
      exact .inl ⟨rfl, hnone, by rw [context, hnone]⟩
    · have hsome := before_of_read? hp hread
      have hlt : (p : Nat) < q := lt_of_read? hread
      refine .inr ⟨p, r, q - p, hp, step_of_read? hread, by omega, ?_, hsome,
        by rw [context, hsome]⟩
      intro p' r' width' hp' hstep' hq'
      have hread' := read?_of_step hstep' hq'
      obtain rfl := ReadsTo.eq_of_read? hp' hp hread' hread
      rw [hread] at hread'
      cases hread'
      exact ⟨rfl, rfl⟩
  · have hzero : text.before ((0 : text.Offset) : Nat) = none := before_zero text
    rw [map_context_offsetsFrom (.refl 0), hzero]

/-- Behind the last byte of a sequence that breaks off. -/
theorem before_of_readsTo_broken :
    let text := utf8 #[0x61, 0xE2, 0x82, 0xF0, 0x9F, 0x98, 0x80, 0x80]
    text.ReadsTo 0 2 ∧ text.step 2 = some (Symbol.replacement, 1) ∧ text.ReadsTo 0 3 ∧
      text.before 3 = some Symbol.replacement ∧
      text.context 3 = Conditions.between (some Symbol.replacement) (some 0x1F600) := by
  intro text
  have hstep : text.step 2 = some (Symbol.replacement, 1) := by decide
  have hto : text.ReadsTo 0 2 :=
    .trans (.of_read (j := 1) (read?_of_step (show _ = some (0x61, 1) by decide) rfl))
      (.of_read (read?_of_step (show _ = some (Symbol.replacement, 1) by decide) rfl))
  have hto' : text.ReadsTo 0 3 := hto.trans (.of_read (read?_of_step hstep rfl))
  have hthree : ((3 : text.Offset) : Nat) = 3 := rfl
  have hnext : text.symbolAt 3 = some 0x1F600 := by decide
  rcases (before_of_readsTo text).2.1 3 hto' with
    ⟨hzero, -⟩ | ⟨p, r, width, -, -, -, honly, hbefore, hcontext⟩
  · exact absurd hzero (by decide)
  · obtain ⟨-, rfl⟩ := honly 2 _ 1 hto hstep rfl
    rw [hthree] at hbefore
    rw [hthree, hnext] at hcontext
    exact ⟨hto, hstep, hto', hbefore, hcontext⟩

/-- Behind two low surrogates, of which the first one belongs to a pair. -/
example : (utf16 #[0xD83D, 0xDE00, 0xDE00]).before 3 = some 0xDE00 := by decide

end Text

end Lockstep
