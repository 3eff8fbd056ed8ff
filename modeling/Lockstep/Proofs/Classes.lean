import Lockstep.Expr.Assembly
import Mathlib.Tactic.ByContra

/-!
# Classes are sets of symbols

Ranges that are written by hand are put into normal form, looked up by a walk and a bisection, and
shortened to other kinds of classes. None of this changes which code points they hold.

- `SymbolRange.Covers`: a symbol lies in some range of a list.
- `SymbolRange.normal_normalize`, `SymbolRange.covers_normalize`: the normal form of ranges.
- `SymbolRange.normal_complement`, `SymbolRange.covers_complement`: what the ranges leave out.
- `SymbolRange.lookUp_eq_true_iff`: looking a symbol up in a normal table.
- `SymbolClass.mem_ofNormal?`: the class of a normal table.
- `Symbol.mem_literalClass`: the class of a literal character.
-/

namespace Lockstep

namespace SymbolRange

/-- The symbol lies in some range of the list. -/
def Covers (ranges : List SymbolRange) (r : Symbol) : Prop := ∃ range ∈ ranges, range.Contains r

instance (ranges : List SymbolRange) (r : Symbol) : Decidable (Covers ranges r) :=
  inferInstanceAs (Decidable (∃ range ∈ ranges, range.Contains r))

variable {range current : SymbolRange} {ranges table : List SymbolRange} {r : Symbol}

theorem covers_nil : ¬ Covers [] r := by
  rintro ⟨range, hrange, -⟩
  cases hrange

theorem covers_cons : Covers (range :: ranges) r ↔ range.Contains r ∨ Covers ranges r := by
  simp only [Covers, List.mem_cons, exists_eq_or_imp]

theorem contains_iff : range.Contains r ↔
    range.lo.toNat ≤ r.toNat ∧ r.toNat ≤ range.hi.toNat := by
  simp only [Contains, UInt32.le_iff_toNat_le]

theorem toNat_min (a b : Symbol) : (min a b).toNat = min a.toNat b.toNat := by
  show (if a ≤ b then a else b).toNat = _
  split
  · next h =>
    have := UInt32.le_iff_toNat_le.mp h
    omega
  · next h =>
    rw [UInt32.le_iff_toNat_le] at h
    omega

theorem toNat_max (a b : Symbol) : (max a b).toNat = max a.toNat b.toNat := by
  show (if a ≤ b then b else a).toNat = _
  split
  · next h =>
    have := UInt32.le_iff_toNat_le.mp h
    omega
  · next h =>
    rw [UInt32.le_iff_toNat_le] at h
    omega

/-- There is another symbol behind each code point. -/
theorem toNat_succ {a : Symbol} (h : a.toNat ≤ 0x10FFFF) : (a + 1).toNat = a.toNat + 1 := by
  rw [UInt32.toNat_add]
  refine Nat.mod_eq_of_lt ?_
  show a.toNat + 1 < 4294967296
  omega

theorem toNat_greatest : Symbol.greatest.toNat = 0x10FFFF := rfl

/-! ## The normal form -/

/-- A range that is neither empty nor reaches past the last code point. -/
def Proper (range : SymbolRange) : Prop :=
  range.lo.toNat ≤ range.hi.toNat ∧ range.hi.toNat ≤ 0x10FFFF

/-- What is left of a range that is cut off. -/
theorem clamp?_eq_some_iff {range' : SymbolRange} : range.clamp? = some range' ↔
    range' = ⟨range.lo, min range.hi Symbol.greatest⟩ ∧ range'.Proper := by
  have hmin := toNat_min range.hi Symbol.greatest
  rw [toNat_greatest] at hmin
  unfold clamp? Proper
  simp only [UInt32.le_iff_toNat_le]
  split
  · next hle =>
    constructor
    · intro h
      cases h
      refine ⟨rfl, hle.2, ?_⟩
      show (min range.hi Symbol.greatest).toNat ≤ 0x10FFFF
      omega
    · rintro ⟨rfl, -⟩
      rfl
  · next hnot =>
    constructor
    · intro h
      cases h
    · rintro ⟨rfl, hle, -⟩
      have hlo : range.lo.toNat ≤ (min range.hi Symbol.greatest).toNat := hle
      exact absurd ⟨by omega, hle⟩ hnot

/-- Cutting ranges off loses no code point. -/
theorem covers_clamp (hr : r.toNat ≤ 0x10FFFF) :
    Covers (ranges.filterMap clamp?) r ↔ Covers ranges r := by
  have hcut : ∀ range : SymbolRange,
      (∃ range', range.clamp? = some range' ∧ range'.Contains r) ↔ range.Contains r := by
    intro range
    have hmin := toNat_min range.hi Symbol.greatest
    rw [toNat_greatest] at hmin
    simp only [clamp?_eq_some_iff, contains_iff, Proper]
    constructor
    · rintro ⟨range', ⟨rfl, -⟩, hlo, hhi⟩
      have hhi : r.toNat ≤ (min range.hi Symbol.greatest).toNat := hhi
      exact ⟨hlo, by omega⟩
    · rintro ⟨hlo, hhi⟩
      refine ⟨_, ⟨rfl, ?_⟩, ?_⟩ <;> dsimp only <;> omega
  constructor
  · rintro ⟨range', hmem, hcontains⟩
    obtain ⟨range, hrange, hclamp⟩ := List.mem_filterMap.mp hmem
    exact ⟨range, hrange, (hcut range).mp ⟨range', hclamp, hcontains⟩⟩
  · rintro ⟨range, hrange, hcontains⟩
    obtain ⟨range', hclamp, hcontains'⟩ := (hcut range).mpr hcontains
    exact ⟨range', List.mem_filterMap.mpr ⟨range, hrange, hclamp⟩, hcontains'⟩

/-- Sorted ranges that can be joined. -/
structure Mergeable (ranges : List SymbolRange) : Prop where
  proper : ∀ range ∈ ranges, range.Proper
  sorted : ranges.Pairwise fun a b => a.lo.toNat ≤ b.lo.toNat

theorem Mergeable.tail (h : Mergeable (range :: ranges)) : Mergeable ranges :=
  ⟨fun other hother => h.proper other (List.mem_cons_of_mem _ hother),
    (List.pairwise_cons.mp h.sorted).2⟩

/-- The range from where the first of two starts to where the last one ends. -/
abbrev join (current range : SymbolRange) : SymbolRange :=
  ⟨current.lo, max current.hi range.hi⟩

theorem Proper.join (hcurrent : current.Proper) (hrange : range.Proper) :
    (current.join range).Proper := by
  have hmax := toNat_max current.hi range.hi
  have hle := hcurrent.1
  have hhi := hcurrent.2
  have hhi' := hrange.2
  constructor <;> simp only [hmax] <;> omega

theorem Mergeable.join (h : Mergeable (current :: range :: ranges)) :
    Mergeable (current.join range :: ranges) := by
  have hcurrent := h.proper current (by simp)
  have hrange := h.proper range (by simp)
  refine ⟨?_, ?_⟩
  · intro other hother
    rcases List.mem_cons.mp hother with rfl | hother
    · exact hcurrent.join hrange
    · exact h.proper other (by simp [hother])
  · refine List.pairwise_cons.mpr ⟨fun other hother => ?_, h.tail.tail.sorted⟩
    exact (List.pairwise_cons.mp h.sorted).1 other (List.mem_cons_of_mem _ hother)

/-- Two ranges that touch are one. -/
theorem contains_join (h : Mergeable (current :: range :: ranges))
    (htouch : range.lo.toNat ≤ current.hi.toNat + 1) :
    (current.join range).Contains r ↔ current.Contains r ∨ range.Contains r := by
  have hle : current.lo.toNat ≤ range.lo.toNat :=
    (List.pairwise_cons.mp h.sorted).1 range List.mem_cons_self
  have hcurrent := (h.proper current (by simp)).1
  have hrange := (h.proper range (by simp)).1
  simp only [contains_iff, toNat_max]
  omega

/-- Joining sorted ranges to one that starts no further right. -/
theorem mergeInto_spec (h : Mergeable (current :: ranges)) :
    Normal (mergeInto current ranges) ∧
      (∀ range ∈ mergeInto current ranges, current.lo.toNat ≤ range.lo.toNat) ∧
      ∀ r, Covers (mergeInto current ranges) r ↔ current.Contains r ∨ Covers ranges r := by
  induction ranges generalizing current with
  | nil =>
    have hcurrent := h.proper current List.mem_cons_self
    refine ⟨⟨?_, ?_, by simp, trivial⟩, ?_, fun r => covers_cons⟩
    · exact UInt32.le_iff_toNat_le.mpr hcurrent.1
    · exact UInt32.le_iff_toNat_le.mpr hcurrent.2
    · intro range hrange
      obtain rfl := List.mem_singleton.mp hrange
      exact Nat.le_refl _
  | cons range ranges ih =>
    have hcurrent := h.proper current List.mem_cons_self
    have hle : current.lo.toNat ≤ range.lo.toNat :=
      (List.pairwise_cons.mp h.sorted).1 range List.mem_cons_self
    have htouch : range.lo ≤ current.hi + 1 ↔ range.lo.toNat ≤ current.hi.toNat + 1 := by
      rw [UInt32.le_iff_toNat_le, toNat_succ hcurrent.2]
    rw [mergeInto]
    split
    -- the two touch, and go on as one range
    · next hle' =>
      obtain ⟨hnormal, hbound, hcovers⟩ := ih h.join
      refine ⟨hnormal, hbound, fun r => ?_⟩
      rw [hcovers, covers_cons, ← or_assoc, contains_join h (htouch.mp hle')]
    -- there is a gap, and the current range is done
    · next hgap =>
      rw [htouch] at hgap
      obtain ⟨hnormal, hbound, hcovers⟩ := ih h.tail
      refine ⟨⟨?_, ?_, ?_, hnormal⟩, ?_, fun r => ?_⟩
      · exact UInt32.le_iff_toNat_le.mpr hcurrent.1
      · exact UInt32.le_iff_toNat_le.mpr hcurrent.2
      · intro next hnext
        have hnext := hbound next hnext
        omega
      · intro other hother
        rcases List.mem_cons.mp hother with rfl | hother
        · exact Nat.le_refl _
        · exact Nat.le_trans hle (hbound other hother)
      · rw [covers_cons, hcovers, covers_cons]

theorem merge_spec (h : Mergeable ranges) :
    Normal (merge ranges) ∧ ∀ r, Covers (merge ranges) r ↔ Covers ranges r := by
  cases ranges with
  | nil => exact ⟨trivial, fun r => Iff.rfl⟩
  | cons range ranges =>
    obtain ⟨hnormal, -, hcovers⟩ := mergeInto_spec h
    exact ⟨hnormal, fun r => (hcovers r).trans covers_cons.symm⟩

theorem mergeable_sorted (ranges : List SymbolRange) :
    Mergeable ((ranges.filterMap clamp?).mergeSort le) := by
  constructor
  · intro range hrange
    obtain ⟨other, -, hclamp⟩ := List.mem_filterMap.mp (List.mem_mergeSort.mp hrange)
    exact (clamp?_eq_some_iff.mp hclamp).2
  · have hle : ∀ a b : SymbolRange, le a b = true ↔
        a.lo.toNat < b.lo.toNat ∨ a.lo.toNat = b.lo.toNat ∧ a.hi.toNat ≤ b.hi.toNat := by
      intro a b
      simp only [le, Bool.or_eq_true, Bool.and_eq_true, decide_eq_true_eq, beq_iff_eq,
        UInt32.lt_iff_toNat_lt, UInt32.le_iff_toNat_le, UInt32.toNat_inj]
    have htrans : ∀ a b c : SymbolRange, le a b = true → le b c = true → le a c = true := by
      intro a b c hab hbc
      rw [hle] at hab hbc ⊢
      omega
    have htotal : ∀ a b : SymbolRange, (le a b || le b a) = true := by
      intro a b
      rw [Bool.or_eq_true, hle, hle]
      omega
    refine (List.pairwise_mergeSort htrans htotal _).imp fun {a b} hab => ?_
    have := (hle a b).mp hab
    omega

/-- **The normal form** of ranges is normal. -/
theorem normal_normalize (ranges : List SymbolRange) : Normal (normalize ranges) :=
  (merge_spec (mergeable_sorted ranges)).1

/-- **The normal form** holds the same code points. -/
theorem covers_normalize (hr : r.toNat ≤ 0x10FFFF) :
    Covers (normalize ranges) r ↔ Covers ranges r := by
  refine ((merge_spec (mergeable_sorted ranges)).2 r).trans (Iff.trans ?_ (covers_clamp hr))
  simp only [Covers, List.mem_mergeSort]

/-! ## The complement -/

theorem Normal.proper (h : Normal table) : ∀ range ∈ table, range.Proper := by
  induction table with
  | nil => simp
  | cons first rest ih =>
    obtain ⟨hle, hgreatest, -, hrest⟩ := h
    refine List.forall_mem_cons.mpr ⟨⟨?_, ?_⟩, ih hrest⟩
    · exact UInt32.le_iff_toNat_le.mp hle
    · exact UInt32.le_iff_toNat_le.mp hgreatest

theorem Normal.pairwise (h : Normal table) :
    table.Pairwise fun a b => a.hi.toNat + 1 < b.lo.toNat := by
  induction table with
  | nil => exact .nil
  | cons first rest ih => exact .cons h.2.2.1 (ih h.2.2.2)

/-- Some ranges are the gaps of a table from a symbol on. -/
structure GapsFrom (next : Symbol) (table gaps : List SymbolRange) : Prop where
  normal : Normal gaps
  behind : ∀ range ∈ gaps, next.toNat ≤ range.lo.toNat
  covers : ∀ r, Covers gaps r ↔ next.toNat ≤ r.toNat ∧ r.toNat ≤ 0x10FFFF ∧ ¬ Covers table r

/-- Behind the last range there is one gap, or none. -/
theorem gapsFrom_nil (next : Symbol) : GapsFrom next [] (gapsFrom next []) := by
  rw [gapsFrom]
  split
  · next hle =>
    refine ⟨⟨hle, UInt32.le_refl _, by simp, trivial⟩, ?_, fun r => ?_⟩
    · intro range hrange
      obtain rfl := List.mem_singleton.mp hrange
      exact Nat.le_refl _
    · rw [covers_cons, contains_iff]
      simp only [toNat_greatest, covers_nil, or_false, not_false_eq_true, and_true]
  · next hgt =>
    rw [UInt32.le_iff_toNat_le, toNat_greatest] at hgt
    refine ⟨trivial, by simp, fun r => ?_⟩
    simp only [covers_nil, not_false_eq_true, and_true, false_iff]
    omega

section Gaps

variable {next : Symbol} {first : SymbolRange} {rest gaps : List SymbolRange}

theorem lt_of_covers_tail (h : Normal (first :: rest)) (hr : Covers rest r) :
    first.hi.toNat < r.toNat := by
  obtain ⟨range, hrange, hcontains⟩ := hr
  have hlo := h.2.2.1 range hrange
  have hle := (contains_iff.mp hcontains).1
  omega

/-- A range that starts where the gaps are to start leaves no gap in front of it. -/
theorem GapsFrom.touch (hgaps : GapsFrom (first.hi + 1) rest gaps) (h : Normal (first :: rest))
    (heq : next.toNat = first.lo.toNat) : GapsFrom next (first :: rest) gaps := by
  have hproper : first.Proper := h.proper first List.mem_cons_self
  have hle := hproper.1
  have hsucc := toNat_succ hproper.2
  refine ⟨hgaps.normal, fun range hrange => ?_, fun r => ?_⟩
  · have hbehind := hgaps.behind range hrange
    omega
  · rw [hgaps.covers, covers_cons, contains_iff, hsucc]
    by_cases hc : Covers rest r
    · simp only [hc, not_true_eq_false, and_false, or_true]
    · simp only [hc, not_false_eq_true, and_true, or_false]
      omega

/-- A range that starts later leaves a gap in front of it. -/
theorem GapsFrom.leave (hgaps : GapsFrom (first.hi + 1) rest gaps) (h : Normal (first :: rest))
    (hlt : next.toNat < first.lo.toNat) :
    GapsFrom next (first :: rest) (⟨next, first.lo - 1⟩ :: gaps) := by
  have hproper : first.Proper := h.proper first List.mem_cons_self
  have hle := hproper.1
  have hhi := hproper.2
  have hsucc := toNat_succ hhi
  have hpred : (first.lo - 1).toNat = first.lo.toNat - 1 := by
    refine UInt32.toNat_sub_of_le _ _ (UInt32.le_iff_toNat_le.mpr ?_)
    show 1 ≤ first.lo.toNat
    omega
  refine ⟨⟨?_, ?_, ?_, hgaps.normal⟩, ?_, fun r => ?_⟩
  · show next ≤ first.lo - 1
    rw [UInt32.le_iff_toNat_le, hpred]
    omega
  · rw [UInt32.le_iff_toNat_le, hpred, toNat_greatest]
    omega
  · intro range hrange
    have hbehind := hgaps.behind range hrange
    rw [hpred]
    omega
  · refine List.forall_mem_cons.mpr ⟨Nat.le_refl _, fun range hrange => ?_⟩
    have hbehind := hgaps.behind range hrange
    omega
  · rw [covers_cons, contains_iff, hpred, hgaps.covers, covers_cons, contains_iff, hsucc]
    by_cases hc : Covers rest r
    · have hbehind := lt_of_covers_tail h hc
      simp only [hc, not_true_eq_false, and_false, or_false, or_true, iff_false]
      omega
    · simp only [hc, not_false_eq_true, and_true, or_false]
      omega

end Gaps

/-- The gaps of a normal table from a symbol on that no range starts before. -/
theorem gapsFrom_spec {next : Symbol} (h : Normal table)
    (hbehind : ∀ range ∈ table, next.toNat ≤ range.lo.toNat) :
    GapsFrom next table (gapsFrom next table) := by
  induction table generalizing next with
  | nil => exact gapsFrom_nil next
  | cons first rest ih =>
    have hsucc := toNat_succ (h.proper first List.mem_cons_self).2
    have hle := hbehind first List.mem_cons_self
    have hgaps : GapsFrom (first.hi + 1) rest (gapsFrom (first.hi + 1) rest) := by
      refine ih h.2.2.2 fun range hrange => ?_
      have hlo := h.2.2.1 range hrange
      omega
    rw [gapsFrom]
    split
    · next hlt => exact hgaps.leave h (UInt32.lt_iff_toNat_lt.mp hlt)
    · next hge =>
      rw [UInt32.lt_iff_toNat_lt] at hge
      exact hgaps.touch h (by omega)

theorem gapsFrom_complement (h : Normal table) : GapsFrom 0 table (complement table) :=
  gapsFrom_spec h fun _ _ => Nat.zero_le _

theorem normal_complement (h : Normal table) : Normal (complement table) :=
  (gapsFrom_complement h).normal

/-- **The complement** holds the code points that the table leaves out. -/
theorem covers_complement (h : Normal table) :
    Covers (complement table) r ↔ r.toNat ≤ 0x10FFFF ∧ ¬ Covers table r := by
  rw [(gapsFrom_complement h).covers, show (0 : Symbol).toNat = 0 from rfl]
  simp only [Nat.zero_le, true_and]

/-! ## Looking a symbol up -/

/-- The walk over the first ranges of a normal table. -/
theorem probe_eq_some {rest : List SymbolRange} (h : Normal (table ++ rest)) {answer : Bool}
    (hprobe : probe r table = some answer) : answer = true ↔ Covers (table ++ rest) r := by
  induction table with
  | nil => cases hprobe
  | cons first table ih =>
    rw [probe] at hprobe
    rw [List.cons_append, covers_cons, contains_iff]
    split at hprobe
    · next hlt =>
      have hlt := UInt32.lt_iff_toNat_lt.mp hlt
      have hnot : ¬ Covers (table ++ rest) r := by
        rintro ⟨range, hrange, hcontains⟩
        have := h.2.2.1 range hrange
        have := (contains_iff.mp hcontains).1
        have := (h.proper first List.mem_cons_self).1
        omega
      cases hprobe
      simp only [hnot, or_false, Bool.false_eq_true, false_iff]
      omega
    · next hge =>
      rw [UInt32.lt_iff_toNat_lt] at hge
      split at hprobe
      · next hle =>
        have hle := UInt32.le_iff_toNat_le.mp hle
        cases hprobe
        simp only [true_iff]
        exact .inl ⟨by omega, hle⟩
      · next hgt =>
        rw [UInt32.le_iff_toNat_le] at hgt
        rw [ih h.2.2.2 hprobe]
        refine ⟨.inr, fun hor => hor.resolve_left ?_⟩
        omega

theorem probe_eq_none (hprobe : probe r table = none) : ¬ Covers table r := by
  induction table with
  | nil => exact covers_nil
  | cons first table ih =>
    rw [probe] at hprobe
    split at hprobe
    · cases hprobe
    · split at hprobe
      · cases hprobe
      · next hgt =>
        rw [covers_cons, not_or]
        exact ⟨fun hcontains => hgt hcontains.2, ih hprobe⟩

/-- One step of the bisection. -/
theorem bisect_of_getElem? {table : Array SymbolRange} {lo hi middle : Nat} (hlt : lo < hi)
    (hmiddle : middle = lo + (hi - lo) / 2) (hrange : table[middle]? = some range) :
    bisect table r lo hi =
      if range.lo ≤ r then if r ≤ range.hi then true else bisect table r (middle + 1) hi
      else bisect table r lo middle := by
  subst hmiddle
  rw [bisect, if_pos hlt]
  dsimp only
  rw [hrange]

section Sorted

variable {table : Array SymbolRange} {k m : Nat} {hk : k < table.size} {hm : m < table.size}

theorem Normal.hi_lt_lo (h : Normal table.toList) (hkm : k < m) :
    table[k].hi.toNat < table[m].lo.toNat := by
  have hpair := List.pairwise_iff_getElem.mp h.pairwise k m (by simpa) (by simpa) hkm
  simp only [Array.getElem_toList] at hpair
  omega

theorem Normal.lo_le_hi (h : Normal table.toList) : table[k].lo.toNat ≤ table[k].hi.toNat :=
  (h.proper _ (Array.getElem_mem_toList hk)).1

/-- What lies above a range is in none up to there. -/
theorem Normal.lt_of_hi_lt (h : Normal table.toList) (hr : table[m].hi.toNat < r.toNat)
    (hcontains : table[k].Contains r) : m < k := by
  have hupper := (contains_iff.mp hcontains).2
  rcases Nat.lt_trichotomy m k with hlt | rfl | hgt
  · exact hlt
  · omega
  · have hbefore : table[k].hi.toNat < table[m].lo.toNat := h.hi_lt_lo hgt
    have hproper : table[m].lo.toNat ≤ table[m].hi.toNat := h.lo_le_hi
    omega

/-- What lies below a range is in none from there on. -/
theorem Normal.lt_of_lt_lo (h : Normal table.toList) (hr : r.toNat < table[m].lo.toNat)
    (hcontains : table[k].Contains r) : k < m := by
  have hlower := (contains_iff.mp hcontains).1
  rcases Nat.lt_trichotomy k m with hlt | rfl | hgt
  · exact hlt
  · omega
  · have hbehind : table[m].hi.toNat < table[k].lo.toNat := h.hi_lt_lo hgt
    have hproper : table[m].lo.toNat ≤ table[m].hi.toNat := h.lo_le_hi
    omega

end Sorted

/-- The bisection of a part of a normal table. -/
theorem bisect_eq_true_iff {table : Array SymbolRange} (h : Normal table.toList) {lo hi : Nat}
    (hhi : hi ≤ table.size) : bisect table r lo hi = true ↔
      ∃ k, ∃ hk : k < table.size, lo ≤ k ∧ k < hi ∧ table[k].Contains r := by
  induction lo, hi using bisect.induct table r with
  | case1 lo hi hlt middle hnone =>
    have hmiddle : lo + (hi - lo) / 2 < table.size := by omega
    have hnone : table[lo + (hi - lo) / 2]? = none := hnone
    rw [Array.getElem?_eq_getElem hmiddle] at hnone
    cases hnone
  | case2 lo hi hlt m range hrange hle hle' =>
    obtain ⟨hmiddle, rfl⟩ := Array.getElem?_eq_some_iff.mp hrange
    rw [bisect_of_getElem? hlt rfl hrange, if_pos hle, if_pos hle']
    simp only [true_iff]
    have hm : m = lo + (hi - lo) / 2 := rfl
    exact ⟨m, hmiddle, by omega, by omega, hle, hle'⟩
  | case3 lo hi hlt m range hrange hle hgt ih =>
    obtain ⟨hmiddle, rfl⟩ := Array.getElem?_eq_some_iff.mp hrange
    rw [bisect_of_getElem? hlt rfl hrange, if_pos hle, if_neg hgt]
    rw [UInt32.le_iff_toNat_le, Nat.not_le] at hgt
    have hm : m = lo + (hi - lo) / 2 := rfl
    refine (ih hhi).trans ⟨?_, ?_⟩
    · rintro ⟨k, hk, hlo, hrest⟩
      exact ⟨k, hk, by omega, hrest⟩
    -- no range up to the middle holds the symbol
    · rintro ⟨k, hk, hlo, hrest, hcontains⟩
      exact ⟨k, hk, h.lt_of_hi_lt hgt hcontains, hrest, hcontains⟩
  | case4 lo hi hlt m range hrange hgt ih =>
    obtain ⟨hmiddle, rfl⟩ := Array.getElem?_eq_some_iff.mp hrange
    rw [bisect_of_getElem? hlt rfl hrange, if_neg hgt]
    rw [UInt32.le_iff_toNat_le, Nat.not_le] at hgt
    have hm : m = lo + (hi - lo) / 2 := rfl
    refine (ih (by omega)).trans ⟨?_, ?_⟩
    · rintro ⟨k, hk, hlo, hrest, hcontains⟩
      exact ⟨k, hk, hlo, by omega, hcontains⟩
    -- no range from the middle on holds it
    · rintro ⟨k, hk, hlo, hrest, hcontains⟩
      exact ⟨k, hk, hlo, h.lt_of_lt_lo hgt hcontains, hcontains⟩
  | case5 lo hi hge =>
    rw [bisect, if_neg hge]
    simp only [Bool.false_eq_true, false_iff]
    rintro ⟨k, -, hlo, hhi, -⟩
    omega

/-- **Looking a symbol up** in a normal table. -/
theorem lookUp_eq_true_iff {table : Array SymbolRange} (h : Normal table.toList) :
    lookUp table r = true ↔ Covers table.toList r := by
  have hsplit : table.toList.take probed ++ table.toList.drop probed = table.toList :=
    List.take_append_drop probed table.toList
  unfold lookUp
  cases hprobe : probe r (table.toList.take probed) with
  | some answer =>
    have hnormal : Normal (table.toList.take probed ++ table.toList.drop probed) := hsplit.symm ▸ h
    have hanswer := probe_eq_some hnormal hprobe
    rw [hsplit] at hanswer
    exact hanswer
  | none =>
    have hbisect : bisect table r 0 table.size = true ↔ _ :=
      bisect_eq_true_iff h (Nat.le_refl table.size)
    dsimp only
    rw [Bool.and_eq_true, decide_eq_true_eq, hbisect]
    constructor
    · rintro ⟨-, k, hk, -, -, hcontains⟩
      exact ⟨table[k], Array.getElem_mem_toList hk, hcontains⟩
    · rintro ⟨range, hrange, hcontains⟩
      refine ⟨?_, ?_⟩
      · -- a short table has been walked over from end to end
        by_contra hshort
        have htake : table.toList.take probed = table.toList :=
          List.take_of_length_le (by rw [Array.length_toList]; omega)
        rw [htake] at hprobe
        exact probe_eq_none hprobe ⟨range, hrange, hcontains⟩
      · obtain ⟨k, hk, rfl⟩ := List.mem_iff_getElem.mp hrange
        rw [Array.length_toList] at hk
        exact ⟨k, hk, Nat.zero_le k, hk, hcontains⟩

end SymbolRange

namespace SymbolClass

open SymbolRange

variable {table : List SymbolRange} {r : Symbol}

/-- Only an empty table has no class. -/
theorem ofNormal?_eq_none_iff : ofNormal? table = none ↔ table = [] := by
  unfold ofNormal?
  split
  · simp
  · split
    · simp
    · split <;> simp
  · next hnil _ =>
    simp only [reduceCtorEq, false_iff]
    exact hnil

/-- **The class of a normal table** holds the code points of the table. -/
theorem mem_ofNormal? {cls : SymbolClass} (h : Normal table) (hcls : ofNormal? table = some cls)
    (hr : r.toNat ≤ 0x10FFFF) : r ∈ cls ↔ Covers table r := by
  have hlookUp : ∀ table : Array SymbolRange, Normal table.toList →
      (r ∈ ranges table ↔ Covers table.toList r) := by
    intro table htable
    exact lookUp_eq_true_iff htable
  unfold ofNormal? at hcls
  split at hcls
  · cases hcls
  · next range =>
    have hsingle : Covers [range] r ↔ range.Contains r := by
      rw [covers_cons, or_iff_left covers_nil]
    split at hcls
    · next heq =>
      cases hcls
      rw [mem_single, hsingle, contains_iff, ← heq, ← UInt32.toNat_inj]
      omega
    · split at hcls
      · next hall =>
        cases hcls
        rw [hsingle, contains_iff, hall.1, hall.2]
        simp only [mem_any, true_iff]
        exact ⟨Nat.zero_le _, hr⟩
      · cases hcls
        exact hlookUp #[range] h
  · cases hcls
    exact hlookUp table.toArray h

end SymbolClass

/-! ## Literals -/

namespace Symbol

/-- What only ever adds behind keeps what there was. -/
theorem exists_foldl_eq_append {α β : Type} {f : List α → β → List α}
    (h : ∀ found b, ∃ rest, f found b = found ++ rest) (bs : List β) (found : List α) :
    ∃ rest, bs.foldl f found = found ++ rest := by
  induction bs generalizing found with
  | nil => exact ⟨[], (List.append_nil found).symm⟩
  | cons b bs ih =>
    obtain ⟨rest, hrest⟩ := h found b
    obtain ⟨rest', hrest'⟩ := ih (f found b)
    refine ⟨rest ++ rest', ?_⟩
    rw [List.foldl_cons, hrest', hrest, List.append_assoc]

/-- A character is one of its variants, and the first one. -/
theorem exists_variants (c : Char) : ∃ rest, variants c = c.val :: rest := by
  have hadd : ∀ (found : List Symbol) (r : Symbol), ∃ rest, addVariant found r = found ++ rest := by
    intro found r
    unfold addVariant
    split
    · exact ⟨[r], rfl⟩
    · exact ⟨[], (List.append_nil found).symm⟩
  unfold variants
  refine exists_foldl_eq_append (fun found i => ?_) (List.range maxVariants) [c.val]
  -- a round looks at one symbol, if there is one, and adds what the case mappings make of it
  cases found[i]? with
  | none => exact ⟨[], (List.append_nil found).symm⟩
  | some r =>
    dsimp only
    unfold addCases
    exact exists_foldl_eq_append hadd _ found

/-- **The class of a literal** is the character, or all its variants. -/
theorem mem_literalClass {c : Char} {fold : Bool} {r : Symbol} :
    r ∈ Assembly.literalClass c fold ↔ r ∈ if fold then variants c else [c.val] := by
  unfold Assembly.literalClass
  dsimp only
  cases fold with
  | false =>
    simp only [Bool.false_eq_true, if_false, List.length_nil, Nat.not_lt_zero,
      SymbolClass.mem_single, List.mem_singleton]
    exact eq_comm
  | true =>
    simp only [if_true]
    split
    · exact SymbolClass.mem_variants
    · next hshort =>
      obtain ⟨rest, hrest⟩ := exists_variants c
      rw [hrest] at hshort ⊢
      have hnil : rest = [] := by
        cases rest with
        | nil => rfl
        | cons => simp at hshort
      rw [hnil, SymbolClass.mem_single, List.mem_singleton]
      exact eq_comm

end Symbol

end Lockstep
