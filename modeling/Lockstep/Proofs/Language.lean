import Lockstep.Proofs.Classes
import Lockstep.Proofs.Encoding
import Lockstep.Proofs.Shapes

/-!
# What expressions match

An expression matches a text between two offsets. Which repetitions are greedy does not matter
here. The shape of the expression matches the same.

- `Expr.Matches`: an expression matches between two offsets.
- `Shape.Matches`: so does a shape.
- `Repeats`: a relation any given number of times.
- `Expr.matches_iff_shape`: an expression matches where its shape does.
-/

namespace Lockstep

/-! ## Repetitions -/

/-- A relation `n` times. -/
def Repeats {α : Type} (R : α → α → Prop) : (n : Nat) → α → α → Prop
  | 0, a, b => a = b
  | n + 1, a, b => ∃ c, R a c ∧ Repeats R n c b

section Repeats

variable {α : Type} {R : α → α → Prop} {n m : Nat} {a b c : α}

theorem repeats_add : Repeats R (m + n) a b ↔ ∃ c, Repeats R m a c ∧ Repeats R n c b := by
  induction m generalizing a with
  | zero => simp [Repeats]
  | succ m ih =>
    rw [Nat.succ_add]
    constructor
    · rintro ⟨c, hc, hrest⟩
      obtain ⟨d, hd, hrest⟩ := ih.mp hrest
      exact ⟨d, ⟨c, hc, hd⟩, hrest⟩
    · rintro ⟨d, ⟨c, hc, hd⟩, hrest⟩
      exact ⟨c, hc, ih.mpr ⟨d, hd, hrest⟩⟩

theorem repeats_one : Repeats R 1 a b ↔ R a b := by
  simp [Repeats]

theorem reflTransGen_iff_repeats : Relation.ReflTransGen R a b ↔ ∃ n, Repeats R n a b := by
  constructor
  · intro h
    induction h using Relation.ReflTransGen.head_induction_on with
    | refl => exact ⟨0, rfl⟩
    | head hstep _ ih =>
      obtain ⟨n, hn⟩ := ih
      exact ⟨n + 1, _, hstep, hn⟩
  · rintro ⟨n, hn⟩
    induction n generalizing a with
    | zero =>
      rw [show a = b from hn]
    | succ n ih =>
      obtain ⟨c, hc, hrest⟩ := hn
      exact .head hc (ih hrest)

end Repeats

/-! ## Matches of expressions -/

/-- An expression matches a text between two offsets. A case-insensitive literal matches each of
the variants of its character. -/
inductive Expr.Matches (text : Text) : Expr → text.Offset → text.Offset → Prop
  | empty (i : text.Offset) : Matches text .empty i i
  | literal {c : Char} {fold : Bool} {r : Symbol} {i j : text.Offset}
    (hread : text.read? i = some (r, j)) (hr : r ∈ if fold then Symbol.variants c else [c.val]) :
    Matches text (.literal c fold) i j
  | textNil (i : text.Offset) : Matches text (.text []) i i
  | textCons {c : Char} {cs : List Char} {i j k : text.Offset}
    (hread : text.read? i = some (c.val, j)) (hrest : Matches text (.text cs) j k) :
    Matches text (.text (c :: cs)) i k
  | oneOf {ranges : List SymbolRange} {r : Symbol} {i j : text.Offset}
    (hread : text.read? i = some (r, j)) (hr : ∃ range ∈ ranges, range.Contains r) :
    Matches text (.oneOf ranges) i j
  | noneOf {ranges : List SymbolRange} {r : Symbol} {i j : text.Offset}
    (hread : text.read? i = some (r, j)) (hr : ∀ range ∈ ranges, ¬ range.Contains r) :
    Matches text (.noneOf ranges) i j
  | any {r : Symbol} {i j : text.Offset} (hread : text.read? i = some (r, j)) :
    Matches text .any i j
  | anyButNewline {r : Symbol} {i j : text.Offset} (hread : text.read? i = some (r, j))
    (hr : r ≠ Symbol.newline) : Matches text .anyButNewline i j
  | assert {cond : Conditions} {i : text.Offset} (hcond : cond ⊆ text.context i) :
    Matches text (.assert cond) i i
  | concatNil (i : text.Offset) : Matches text (.concat []) i i
  | concatCons {e : Expr} {es : List Expr} {i j k : text.Offset} (he : Matches text e i j)
    (hrest : Matches text (.concat es) j k) : Matches text (.concat (e :: es)) i k
  | alternate {e : Expr} {es : List Expr} {i j : text.Offset} (hmem : e ∈ es)
    (he : Matches text e i j) : Matches text (.alternate es) i j
  | starNil {body : Expr} {greedy : Bool} (i : text.Offset) : Matches text (.star body greedy) i i
  | starCons {body : Expr} {greedy : Bool} {i j k : text.Offset} (hbody : Matches text body i j)
    (hrest : Matches text (.star body greedy) j k) : Matches text (.star body greedy) i k
  | plus {body : Expr} {greedy : Bool} {i j k : text.Offset} (hbody : Matches text body i j)
    (hrest : Matches text (.star body greedy) j k) : Matches text (.plus body greedy) i k
  | optionalNone {body : Expr} {greedy : Bool} (i : text.Offset) :
    Matches text (.optional body greedy) i i
  | optionalSome {body : Expr} {greedy : Bool} {i j : text.Offset}
    (hbody : Matches text body i j) : Matches text (.optional body greedy) i j
  | times {body : Expr} {min : Nat} {max : Option Nat} {greedy : Bool} {n : Nat}
    {i j : text.Offset} (hmin : min ≤ n) (hmax : ∀ m, max = some m → n ≤ m)
    (hcopies : Matches text (.concat (List.replicate n body)) i j) :
    Matches text (.times body min max greedy) i j
  | capture {index : UInt32} {body : Expr} {i j : text.Offset} (hbody : Matches text body i j) :
    Matches text (.capture index body) i j

/-! ## Matches of shapes -/

namespace Shape

variable {text : Text}

/-- A shape matches a text between two offsets. -/
def Matches (text : Text) : Shape → text.Offset → text.Offset → Prop
  | never, _, _ => False
  | skip, i, j => i = j
  | read cls, i, j => ∃ r, text.read? i = some (r, j) ∧ r ∈ cls
  | check cond, i, j => i = j ∧ cond ⊆ text.context i
  | save _, i, j => i = j
  | seq first second, i, k => ∃ j, first.Matches text i j ∧ second.Matches text j k
  | choice first second, i, j => first.Matches text i j ∨ second.Matches text i j
  | star _ body, i, j => Relation.ReflTransGen (body.Matches text) i j
  | plus _ body, i, k => ∃ j, body.Matches text i j ∧ Relation.ReflTransGen (body.Matches text) j k
  | optional _ body, i, j => i = j ∨ body.Matches text i j

/-- What becomes the fragment that never matches does not match. -/
theorem not_matches_of_isNever {c : Shape} (h : c.isNever = true) (i j : text.Offset) :
    ¬ c.Matches text i j := by
  induction c generalizing i j with
  | never => exact id
  | skip | read | check | save | star | optional => cases h
  | seq first second hfirst hsecond =>
    rintro ⟨k, hk, hk'⟩
    rcases Bool.or_eq_true_iff.mp h with h | h
    · exact hfirst h i k hk
    · exact hsecond h k j hk'
  | choice first second hfirst hsecond =>
    obtain ⟨h, h'⟩ := Bool.and_eq_true_iff.mp h
    rintro (hm | hm)
    · exact hfirst h i j hm
    · exact hsecond h' i j hm
  | plus greedy body hbody =>
    rintro ⟨k, hk, -⟩
    exact hbody h i k hk

theorem matches_oneOf {table : List SymbolRange} (h : SymbolRange.Normal table)
    {i j : text.Offset} : (oneOf table).Matches text i j ↔
      ∃ r, text.read? i = some (r, j) ∧ SymbolRange.Covers table r := by
  unfold oneOf
  cases hcls : SymbolClass.ofNormal? table with
  | none =>
    rw [SymbolClass.ofNormal?_eq_none_iff.mp hcls]
    constructor
    · exact False.elim
    · rintro ⟨r, -, hr⟩
      exact SymbolRange.covers_nil hr
  | some cls =>
    constructor
    · rintro ⟨r, hread, hr⟩
      have hle := Text.toNat_le_of_read? hread
      exact ⟨r, hread, (SymbolClass.mem_ofNormal? h hcls hle).mp hr⟩
    · rintro ⟨r, hread, hr⟩
      have hle := Text.toNat_le_of_read? hread
      exact ⟨r, hread, (SymbolClass.mem_ofNormal? h hcls hle).mpr hr⟩

/-- Copies behind a part. -/
theorem matches_copies {c : Shape} {count : Nat} {first : Shape} {i k : text.Offset} :
    (copies c count first).Matches text i k ↔
      ∃ j, first.Matches text i j ∧ Repeats (c.Matches text) count j k := by
  induction count generalizing first with
  | zero =>
    constructor
    · exact fun h => ⟨k, h, rfl⟩
    · rintro ⟨j, h, rfl⟩
      exact h
  | succ count ih =>
    rw [copies, ih]
    constructor
    · rintro ⟨m, ⟨j, hj, hm⟩, hrest⟩
      exact ⟨j, hj, m, hm, hrest⟩
    · rintro ⟨j, hj, m, hm, hrest⟩
      exact ⟨m, ⟨j, hj, hm⟩, hrest⟩

/-- What an inner part matches, or the empty text if there is none. -/
def InnerMatches (text : Text) (inner : Option Shape) (i j : text.Offset) : Prop :=
  match inner with
  | none => i = j
  | some c => c.Matches text i j

/-- Nested optional copies: fewer copies than there are, or all of them and the inner part. -/
theorem matches_nest {greedy : Bool} {c : Shape} {count : Nat} {inner : Option Shape}
    {i k : text.Offset} : InnerMatches text (nest greedy c count inner) i k ↔
      (∃ m, m < count ∧ Repeats (c.Matches text) m i k) ∨
        ∃ j, Repeats (c.Matches text) count i j ∧ InnerMatches text inner j k := by
  -- copies come in from the inside, so the inner part changes on the way
  induction count generalizing inner with
  | zero =>
    constructor
    · exact fun h => .inr ⟨i, rfl, h⟩
    · rintro (⟨m, hm, -⟩ | ⟨j, rfl, h⟩)
      · cases hm
      · exact h
  | succ count ih =>
    have hinner : ∀ j, InnerMatches text (some (optional greedy (around c inner))) j k ↔
        j = k ∨ ∃ l, c.Matches text j l ∧ InnerMatches text inner l k := by
      intro j
      cases inner with
      | none =>
        show j = k ∨ c.Matches text j k ↔ j = k ∨ ∃ l, c.Matches text j l ∧ l = k
        simp only [exists_eq_right]
      | some inner => exact Iff.rfl
    rw [nest, ih]
    simp only [hinner]
    constructor
    · rintro (⟨m, hm, h⟩ | ⟨j, hj, rfl | ⟨l, hl, h⟩⟩)
      · exact .inl ⟨m, Nat.lt_succ_of_lt hm, h⟩
      · exact .inl ⟨count, Nat.lt_succ_self count, hj⟩
      · exact .inr ⟨l, repeats_add.mpr ⟨j, hj, repeats_one.mpr hl⟩, h⟩
    · rintro (⟨m, hm, h⟩ | ⟨l, hl, h⟩)
      · rcases Nat.lt_succ_iff_lt_or_eq.mp hm with hm | rfl
        · exact .inl ⟨m, hm, h⟩
        · exact .inr ⟨k, h, .inl rfl⟩
      · obtain ⟨j, hj, hl⟩ := repeats_add.mp hl
        exact .inr ⟨j, hj, .inr ⟨l, repeats_one.mp hl, h⟩⟩

theorem matches_copies_skip {c : Shape} {count : Nat} {i k : text.Offset} :
    (copies c count skip).Matches text i k ↔ Repeats (c.Matches text) count i k := by
  rw [matches_copies]
  constructor
  · rintro ⟨_, rfl, h⟩
    exact h
  · exact fun h => ⟨i, rfl, h⟩

/-- A repetition without bound is some number of copies, and no less than are asked for. -/
theorem matches_times_none {c : Shape} {min : Nat} {greedy : Bool} {i j : text.Offset} :
    (c.times min none greedy).Matches text i j ↔
      ∃ n, min ≤ n ∧ Repeats (c.Matches text) n i j := by
  cases min with
  | zero =>
    show Relation.ReflTransGen (c.Matches text) i j ↔ _
    rw [reflTransGen_iff_repeats]
    simp only [Nat.zero_le, true_and]
  | succ min =>
    constructor
    -- the copies in front, the last one that is asked for, and those behind it
    · rintro ⟨k, hk, l, hl, hrest⟩
      obtain ⟨n, hn⟩ := reflTransGen_iff_repeats.mp hrest
      exact ⟨min + (n + 1), by omega, repeats_add.mpr ⟨k, matches_copies_skip.mp hk, l, hl, hn⟩⟩
    · rintro ⟨n, hmin, hn⟩
      obtain ⟨n, rfl⟩ := Nat.exists_eq_add_of_le (show min + 1 ≤ n from hmin)
      rw [Nat.add_assoc, Nat.add_comm 1 n] at hn
      obtain ⟨k, hk, l, hl, hrest⟩ := repeats_add.mp hn
      exact ⟨k, matches_copies_skip.mpr hk, l, hl, reflTransGen_iff_repeats.mpr ⟨n, hrest⟩⟩

/-- Copies with up to so many more behind them. -/
theorem matches_copies_nest {c : Shape} {min count : Nat} {greedy : Bool} {i j : text.Offset} :
    (∃ k, Repeats (c.Matches text) min i k ∧ InnerMatches text (nest greedy c count none) k j) ↔
      ∃ n, min ≤ n ∧ n ≤ min + count ∧ Repeats (c.Matches text) n i j := by
  simp only [matches_nest]
  constructor
  · rintro ⟨k, hk, ⟨m, hm, h⟩ | ⟨l, hl, rfl⟩⟩
    · exact ⟨min + m, by omega, by omega, repeats_add.mpr ⟨k, hk, h⟩⟩
    · exact ⟨min + count, by omega, le_refl _, repeats_add.mpr ⟨k, hk, hl⟩⟩
  · rintro ⟨n, hmin, hmax, hn⟩
    obtain ⟨m, rfl⟩ := Nat.exists_eq_add_of_le hmin
    obtain ⟨k, hk, hrest⟩ := repeats_add.mp hn
    refine ⟨k, hk, ?_⟩
    rcases Nat.lt_or_eq_of_le (show m ≤ count by omega) with hlt | rfl
    · exact .inl ⟨m, hlt, hrest⟩
    · exact .inr ⟨j, hrest, rfl⟩

/-- A repetition with a bound is some number of copies within its bounds. -/
theorem matches_times_some {c : Shape} {min max : Nat} {greedy : Bool} {i j : text.Offset} :
    (c.times min (some max) greedy).Matches text i j ↔
      ∃ n, min ≤ n ∧ n ≤ max ∧ Repeats (c.Matches text) n i j := by
  rw [times]
  split
  · next hlt =>
    constructor
    · exact False.elim
    · rintro ⟨n, hmin, hmax, -⟩
      omega
  · next hle =>
    have hmax : min + (max - min) = max := by omega
    rw [← hmax, ← matches_copies_nest, hmax]
    cases nest greedy c (max - min) none with
    | none =>
      show (copies c min skip).Matches text i j ↔ ∃ k, Repeats (c.Matches text) min i k ∧ k = j
      rw [matches_copies_skip, exists_eq_right]
    | some rest =>
      show (∃ k, (copies c min skip).Matches text i k ∧ rest.Matches text k j) ↔ _
      simp only [matches_copies_skip]
      exact Iff.rfl

/-- A counted repetition is some number of copies within its bounds. -/
theorem matches_times {c : Shape} {min : Nat} {max : Option Nat} {greedy : Bool}
    {i j : text.Offset} : (c.times min max greedy).Matches text i j ↔
      ∃ n, min ≤ n ∧ (∀ m, max = some m → n ≤ m) ∧ Repeats (c.Matches text) n i j := by
  cases max with
  | none =>
    rw [matches_times_none]
    simp
  | some max =>
    rw [matches_times_some]
    simp

end Shape

namespace Expr

variable {text : Text}

/-- Parts that match one after the other. -/
def Chain (text : Text) : List Shape → text.Offset → text.Offset → Prop
  | [], i, k => i = k
  | c :: cs, i, k => ∃ j, c.Matches text i j ∧ Chain text cs j k

theorem matches_textShape {c : Shape} {chars : List Char} {i k : text.Offset} :
    (textShape c chars).Matches text i k ↔ ∃ j, c.Matches text i j ∧
      Chain text (chars.map fun ch => .read (Assembly.literalClass ch false)) j k := by
  induction chars generalizing c with
  | nil =>
    show c.Matches text i k ↔ ∃ j, c.Matches text i j ∧ j = k
    rw [exists_eq_right]
  | cons ch chars ih =>
    rw [textShape, ih]
    constructor
    · rintro ⟨l, ⟨j, hj, hl⟩, hrest⟩
      exact ⟨j, hj, l, hl, hrest⟩
    · rintro ⟨j, hj, l, hl, hrest⟩
      exact ⟨l, ⟨j, hj, hl⟩, hrest⟩

theorem matches_concatShape {c : Shape} {es : List Expr} {i k : text.Offset} :
    (concatShape c es).Matches text i k ↔
      ∃ j, c.Matches text i j ∧ Chain text (es.map shape) j k := by
  induction es generalizing c with
  | nil =>
    rw [concatShape]
    show c.Matches text i k ↔ ∃ j, c.Matches text i j ∧ j = k
    rw [exists_eq_right]
  | cons e es ih =>
    rw [concatShape, ih]
    constructor
    · rintro ⟨l, ⟨j, hj, hl⟩, hrest⟩
      exact ⟨j, hj, l, hl, hrest⟩
    · rintro ⟨j, hj, l, hl, hrest⟩
      exact ⟨l, ⟨j, hj, hl⟩, hrest⟩

/-- Expressions one after the other match where their shapes do. -/
theorem matches_shape_concat {es : List Expr} {i k : text.Offset} :
    (concat es).shape.Matches text i k ↔ Chain text (es.map shape) i k := by
  cases es with
  | nil =>
    rw [shape]
    exact Iff.rfl
  | cons e es =>
    rw [shape, matches_concatShape]
    exact Iff.rfl

theorem matches_alternateShape {c : Shape} {es : List Expr} {i j : text.Offset} :
    (alternateShape c es).Matches text i j ↔
      c.Matches text i j ∨ ∃ e ∈ es, e.shape.Matches text i j := by
  induction es generalizing c with
  | nil =>
    rw [alternateShape]
    simp
  | cons e es ih =>
    rw [alternateShape, ih]
    show (c.Matches text i j ∨ e.shape.Matches text i j) ∨ _ ↔ _
    rw [or_assoc, List.exists_mem_cons_iff]

theorem matches_shape_alternate {es : List Expr} {i j : text.Offset} :
    (alternate es).shape.Matches text i j ↔ ∃ e ∈ es, e.shape.Matches text i j := by
  cases es with
  | nil =>
    rw [shape]
    simp [Shape.Matches]
  | cons e es =>
    rw [shape, matches_alternateShape, List.exists_mem_cons_iff]

theorem matches_shape_text {chars : List Char} {i k : text.Offset} :
    (Expr.text chars).shape.Matches text i k ↔
      Chain text (chars.map fun ch => .read (Assembly.literalClass ch false)) i k := by
  cases chars with
  | nil =>
    rw [shape]
    exact Iff.rfl
  | cons ch chars =>
    rw [shape, matches_textShape]
    exact Iff.rfl

/-- Copies of one part. -/
theorem chain_replicate {c : Shape} {n : Nat} {i k : text.Offset} :
    Chain text (List.replicate n c) i k ↔ Repeats (c.Matches text) n i k := by
  induction n generalizing i with
  | zero => exact Iff.rfl
  | succ n ih =>
    rw [List.replicate_succ]
    constructor
    · rintro ⟨j, hj, hrest⟩
      exact ⟨j, hj, ih.mp hrest⟩
    · rintro ⟨j, hj, hrest⟩
      exact ⟨j, hj, ih.mpr hrest⟩

/-- What an expression matches, its shape matches. -/
theorem matches_shape_of_matches {e : Expr} {i j : text.Offset} (h : e.Matches text i j) :
    e.shape.Matches text i j := by
  induction h with
  | empty i => exact rfl
  | literal hread hr =>
    rw [shape]
    exact ⟨_, hread, Symbol.mem_literalClass.mpr hr⟩
  | textNil i => exact matches_shape_text.mpr rfl
  | textCons hread _ ih =>
    refine matches_shape_text.mpr ⟨_, ⟨_, hread, ?_⟩, matches_shape_text.mp ih⟩
    exact Symbol.mem_literalClass.mpr (List.mem_singleton.mpr rfl)
  | oneOf hread hr =>
    rw [shape, Shape.matches_oneOf (SymbolRange.normal_normalize _)]
    have hle := Text.toNat_le_of_read? hread
    exact ⟨_, hread, (SymbolRange.covers_normalize hle).mpr hr⟩
  | noneOf hread hr =>
    -- only code points can be read, so that the complement among them is all there is
    have hnormal := SymbolRange.normal_normalize
    rw [shape, Shape.matches_oneOf (SymbolRange.normal_complement (hnormal _))]
    have hle := Text.toNat_le_of_read? hread
    refine ⟨_, hread, (SymbolRange.covers_complement (hnormal _)).mpr ⟨hle, ?_⟩⟩
    rw [SymbolRange.covers_normalize hle]
    rintro ⟨range, hrange, hcontains⟩
    exact hr range hrange hcontains
  | any hread => exact ⟨_, hread, SymbolClass.mem_any _⟩
  | anyButNewline hread hr => exact ⟨_, hread, SymbolClass.mem_anyButNewline.mpr hr⟩
  | assert hcond => exact ⟨rfl, hcond⟩
  | concatNil i => exact matches_shape_concat.mpr rfl
  | concatCons _ _ ihe ihrest =>
    exact matches_shape_concat.mpr ⟨_, ihe, matches_shape_concat.mp ihrest⟩
  | alternate hmem _ ih => exact matches_shape_alternate.mpr ⟨_, hmem, ih⟩
  | starNil i =>
    rw [shape]
    exact .refl
  | starCons _ _ ihbody ihrest =>
    rw [shape] at ihrest ⊢
    exact .head ihbody ihrest
  | plus _ _ ihbody ihrest =>
    rw [shape] at ihrest
    exact ⟨_, ihbody, ihrest⟩
  | optionalNone i =>
    rw [shape]
    exact .inl rfl
  | optionalSome _ ih =>
    rw [shape]
    exact .inr ih
  | @times body min max greedy n i j hmin hmax _ ih =>
    show (body.shape.times min max greedy).Matches text i j
    rw [matches_shape_concat, List.map_replicate, chain_replicate] at ih
    exact Shape.matches_times.mpr ⟨n, hmin, hmax, ih⟩
  | capture _ ih =>
    rw [shape]
    exact ⟨_, ⟨_, rfl, ih⟩, rfl⟩

section Repetition

variable {body : Expr} {R : text.Offset → text.Offset → Prop} {i k : text.Offset}
  (hbody : ∀ i j, R i j → body.Matches text i j)
include hbody

theorem matches_star_of_forall {greedy : Bool} (h : Relation.ReflTransGen R i k) :
    (star body greedy).Matches text i k := by
  induction h using Relation.ReflTransGen.head_induction_on with
  | refl => exact .starNil k
  | head hstep _ ih => exact .starCons (hbody _ _ hstep) ih

theorem matches_replicate_of_forall {n : Nat} (h : Repeats R n i k) :
    (concat (List.replicate n body)).Matches text i k := by
  induction n generalizing i with
  | zero =>
    rw [show i = k from h]
    exact .concatNil k
  | succ n ih =>
    obtain ⟨j, hj, hrest⟩ := h
    exact .concatCons (hbody i j hj) (ih hrest)

end Repetition

mutual

/-- What the shape of an expression matches, the expression matches. -/
theorem matches_of_shape : ∀ (e : Expr) (i j : text.Offset), e.shape.Matches text i j →
    e.Matches text i j
  | empty, i, j, h => by
    rw [show i = j from h]
    exact .empty j
  | never, _, _, h => h.elim
  | literal c fold, i, j, h => by
    rw [shape] at h
    obtain ⟨r, hread, hr⟩ := h
    exact .literal hread (Symbol.mem_literalClass.mp hr)
  | .text chars, i, j, h => by
    rw [matches_shape_text] at h
    induction chars generalizing i with
    | nil =>
      rw [show i = j from h]
      exact .textNil j
    | cons c cs ih =>
      obtain ⟨k, ⟨r, hread, hr⟩, hrest⟩ := h
      have hr : r = c.val := List.mem_singleton.mp (Symbol.mem_literalClass.mp hr)
      exact .textCons (hr ▸ hread) (ih k hrest)
  | oneOf ranges, i, j, h => by
    rw [shape, Shape.matches_oneOf (SymbolRange.normal_normalize _)] at h
    obtain ⟨r, hread, hr⟩ := h
    exact .oneOf hread ((SymbolRange.covers_normalize (Text.toNat_le_of_read? hread)).mp hr)
  | noneOf ranges, i, j, h => by
    have hnormal := SymbolRange.normal_normalize ranges
    rw [shape, Shape.matches_oneOf (SymbolRange.normal_complement hnormal)] at h
    obtain ⟨r, hread, hr⟩ := h
    have hnot := ((SymbolRange.covers_complement hnormal).mp hr).2
    rw [SymbolRange.covers_normalize (Text.toNat_le_of_read? hread)] at hnot
    exact .noneOf hread fun range hrange hcontains => hnot ⟨range, hrange, hcontains⟩
  | any, i, j, h => by
    obtain ⟨r, hread, -⟩ := h
    exact .any hread
  | anyButNewline, i, j, h => by
    obtain ⟨r, hread, hr⟩ := h
    exact .anyButNewline hread (SymbolClass.mem_anyButNewline.mp hr)
  | assert cond, i, j, h => by
    obtain ⟨rfl, hcond⟩ := h
    exact .assert hcond
  | concat es, i, j, h => matches_concat_of_shape es i j (matches_shape_concat.mp h)
  | alternate es, i, j, h => matches_alternate_of_shape es i j (matches_shape_alternate.mp h)
  | star body greedy, i, j, h => by
    rw [shape] at h
    exact matches_star_of_forall (matches_of_shape body) h
  | plus body greedy, i, j, h => by
    rw [shape] at h
    obtain ⟨k, hk, hrest⟩ := h
    exact .plus (matches_of_shape body i k hk)
      (matches_star_of_forall (matches_of_shape body) hrest)
  | optional body greedy, i, j, h => by
    rw [shape] at h
    rcases h with rfl | h
    · exact .optionalNone i
    · exact .optionalSome (matches_of_shape body i j h)
  | times body min max greedy, i, j, h => by
    have h : (body.shape.times min max greedy).Matches text i j := h
    obtain ⟨n, hmin, hmax, hn⟩ := Shape.matches_times.mp h
    exact .times hmin hmax (matches_replicate_of_forall (matches_of_shape body) hn)
  | capture index body, i, j, h => by
    rw [shape] at h
    obtain ⟨k, ⟨l, rfl, h⟩, rfl⟩ := h
    exact .capture (matches_of_shape body i k h)

theorem matches_concat_of_shape : ∀ (es : List Expr) (i j : text.Offset),
    Chain text (es.map shape) i j → (concat es).Matches text i j
  | [], i, j, h => by
    rw [show i = j from h]
    exact .concatNil j
  | e :: es, i, j, h => by
    obtain ⟨k, hk, hrest⟩ := h
    exact .concatCons (matches_of_shape e i k hk) (matches_concat_of_shape es k j hrest)

theorem matches_alternate_of_shape : ∀ (es : List Expr) (i j : text.Offset),
    (∃ e ∈ es, e.shape.Matches text i j) → (alternate es).Matches text i j
  | [], i, j, h => by
    obtain ⟨e, he, -⟩ := h
    cases he
  | e :: es, i, j, h => by
    rcases (List.exists_mem_cons_iff _ _ _).mp h with h | h
    · exact .alternate List.mem_cons_self (matches_of_shape e i j h)
    · cases matches_alternate_of_shape es i j h with
      | alternate hmem he => exact .alternate (List.mem_cons_of_mem _ hmem) he

end

/-- **An expression matches where its shape does.** -/
theorem matches_iff_shape {e : Expr} {i j : text.Offset} :
    e.Matches text i j ↔ e.shape.Matches text i j :=
  ⟨matches_shape_of_matches, matches_of_shape e i j⟩

end Expr

end Lockstep
