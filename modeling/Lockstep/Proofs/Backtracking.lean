import Lockstep.Proofs.Language
import Mathlib.Logic.Function.Iterate

/-!
# Matching by backtracking

A backtracking matcher walks over an expression and goes on, at the end of each way through it, with
what is to follow; if that fails, it tries the next way. Ways are tried in the order in which they
are preferred. Slots are passed along each way, so that what a failing way has written is forgotten.

- `Matcher`: a matcher, and the ways to make one from others.
- `Expr.matcher`: the matcher of an expression.
- `Shape.matcher`: the matcher of a shape.
- `Shape.matcher_of_isNever`: what becomes the fragment that never matches fails.
- `Expr.matcher_eq_shape`: an expression and its shape have the same matcher.
-/

namespace Lockstep

/-- A matcher starts at an offset with some slots. It is told what is to follow at the end of a
match, and yields what the first way comes to on which that succeeds. -/
abbrev Matcher (text : Text) : Type :=
  text.Offset → Slots → (text.Offset → Slots → Option Slots) → Option Slots

namespace Matcher

variable {text : Text}

/-- There is no way. -/
def fail : Matcher text := fun _ _ _ => none

/-- Goes on at once. -/
def skip : Matcher text := fun i slots follow => follow i slots

/-- Reads one symbol, if it is accepted. -/
def read (accepts : Symbol → Bool) : Matcher text := fun i slots follow =>
  match text.read? i with
  | some (r, j) => if accepts r then follow j slots else none
  | none => none

/-- Goes on only where the conditions hold. -/
def check (cond : Conditions) : Matcher text := fun i slots follow =>
  if cond ⊆ text.context i then follow i slots else none

/-- Writes the offset into a slot. -/
def save (slot : Nat) : Matcher text := fun i slots follow =>
  follow i (slots.setIfInBounds slot (some (i : Nat)))

/-- One part and then another. -/
def seq (first second : Matcher text) : Matcher text := fun i slots follow =>
  first i slots fun j slots' => second j slots' follow

/-- One part or another; the ways of the first one are tried first. -/
def choice (first second : Matcher text) : Matcher text := fun i slots follow =>
  (first i slots follow).or (second i slots follow)

/-- The first result of two, in the one order or in the other. -/
def prefer (greedy : Bool) (more leave : Option Slots) : Option Slots :=
  if greedy then more.or leave else leave.or more

/-- A part or nothing. -/
def optional (greedy : Bool) (body : Matcher text) : Matcher text := fun i slots follow =>
  prefer greedy (body i slots follow) (follow i slots)

/-- A part any number of times. A way on which the part has read nothing is given up. -/
def star (greedy : Bool) (body : Matcher text) (i : text.Offset) (slots : Slots)
    (follow : text.Offset → Slots → Option Slots) : Option Slots :=
  prefer greedy
    (body i slots fun j slots' => if i < j then star greedy body j slots' follow else none)
    (follow i slots)
termination_by text.endPos - i
decreasing_by
  have hlt : (i : Nat) < j := by assumption
  omega

/-- Some copies of a part in front of the rest. -/
def copies (copy : Matcher text) (count : Nat) (rest : Matcher text) : Matcher text :=
  (seq copy)^[count] rest

/-- Up to some number of copies of a part, each inside of the one before. -/
def upTo (greedy : Bool) (copy : Matcher text) (count : Nat) : Matcher text :=
  (fun rest => optional greedy (seq copy rest))^[count] skip

/-- From `min` copies of a part to `max`. -/
def times (copy : Matcher text) (min : Nat) (max : Option Nat) (greedy : Bool) : Matcher text :=
  match max with
  | none => copies copy min (star greedy copy)
  | some max => if max < min then fail else copies copy min (upTo greedy copy (max - min))

end Matcher

/-! ## Matchers of expressions and of shapes -/

namespace Expr

mutual

/-- The matcher of an expression. Alternatives are tried from left to right; a greedy repetition
tries its body first, and another one what is to follow. A group writes two slots. -/
def matcher (text : Text) : Expr → Matcher text
  | empty => .skip
  | never => .fail
  | literal c fold => .read fun r => decide (r ∈ if fold then Symbol.variants c else [c.val])
  | .text chars => chars.foldr (fun c rest => .seq (.read fun r => decide (r = c.val)) rest) .skip
  | oneOf ranges => .read fun r => decide (∃ range ∈ ranges, range.Contains r)
  | noneOf ranges => .read fun r => decide (∀ range ∈ ranges, ¬ range.Contains r)
  | any => .read fun _ => true
  | anyButNewline => .read fun r => decide (r ≠ Symbol.newline)
  | assert cond => .check cond
  | concat es => concatMatcher text es
  | alternate es => alternateMatcher text es
  | star body greedy => .star greedy (matcher text body)
  | plus body greedy => .seq (matcher text body) (.star greedy (matcher text body))
  | optional body greedy => .optional greedy (matcher text body)
  | times body min max greedy => .times (matcher text body) min max greedy
  | capture index body =>
    .seq (.save (2 * index.toNat)) (.seq (matcher text body) (.save (2 * index.toNat + 1)))

/-- The matcher of expressions that are to match one after the other. -/
def concatMatcher (text : Text) : List Expr → Matcher text
  | [] => .skip
  | e :: es => .seq (matcher text e) (concatMatcher text es)

/-- The matcher of expressions of which one is to match. -/
def alternateMatcher (text : Text) : List Expr → Matcher text
  | [] => .fail
  | e :: es => .choice (matcher text e) (alternateMatcher text es)

end

end Expr

/-- The matcher of a shape. -/
def Shape.matcher (text : Text) : Shape → Matcher text
  | never => .fail
  | skip => .skip
  | read cls => .read cls.contains
  | check cond => .check cond
  | save slot => .save slot
  | seq first second => .seq (first.matcher text) (second.matcher text)
  | choice first second => .choice (first.matcher text) (second.matcher text)
  | star greedy body => .star greedy (body.matcher text)
  | plus greedy body => .seq (body.matcher text) (.star greedy (body.matcher text))
  | optional greedy body => .optional greedy (body.matcher text)

/-! ## Failing -/

namespace Matcher

variable {text : Text} {body : Matcher text} {greedy : Bool} {i : text.Offset} {slots : Slots}
  {follow : text.Offset → Slots → Option Slots}

@[simp] theorem prefer_none (greedy : Bool) : prefer greedy none none = none := by
  cases greedy <;> rfl

/-- A repetition fails if all that may follow fails. -/
theorem star_eq_none (hbody : ∀ i slots follow', (∀ j slots', follow' j slots' = none) →
      body i slots follow' = none) (h : ∀ j slots', follow j slots' = none) :
    star greedy body i slots follow = none := by
  induction i using Text.offset_induction generalizing slots with
  | step i ih =>
    -- every round leads on, or the way is given up
    have hagain : ∀ j slots',
        (if i < j then star greedy body j slots' follow else none) = none := by
      intro j slots'
      split
      · next hlt => exact ih j hlt
      · rfl
    rw [star, hbody i slots _ hagain, h, prefer_none]

end Matcher

namespace Shape

variable {text : Text} {i : text.Offset} {slots : Slots}
  {follow : text.Offset → Slots → Option Slots}

/-- A matcher fails if all that may follow fails. -/
theorem matcher_eq_none (c : Shape) (h : ∀ j slots', follow j slots' = none) :
    c.matcher text i slots follow = none := by
  induction c generalizing i slots follow with
  | never => rfl
  | skip | save slot => exact h _ _
  | read cls =>
    show Matcher.read cls.contains i slots follow = none
    unfold Matcher.read
    split
    · rw [h, ite_self]
    · rfl
  | check cond =>
    show (if cond ⊆ text.context i then follow i slots else none) = none
    rw [h, ite_self]
  -- what follows the first part is the second one, which fails as well
  | seq first second hfirst hsecond => exact hfirst fun j slots' => hsecond h
  | choice first second hfirst hsecond =>
    show (first.matcher text i slots follow).or (second.matcher text i slots follow) = none
    rw [hfirst h, hsecond h]
    rfl
  | star greedy body hbody => exact Matcher.star_eq_none (fun _ _ _ hfollow => hbody hfollow) h
  | plus greedy body hbody =>
    exact hbody fun j slots' => Matcher.star_eq_none (fun _ _ _ hfollow => hbody hfollow) h
  | optional greedy body hbody =>
    show Matcher.prefer greedy (body.matcher text i slots follow) (follow i slots) = none
    rw [hbody h, h, Matcher.prefer_none]

/-- What becomes the fragment that never matches fails, whatever is to follow. -/
theorem matcher_of_isNever {c : Shape} (hc : c.isNever = true) :
    c.matcher text i slots follow = none := by
  induction c generalizing i slots follow with
  | never => rfl
  | skip | read | check | save | star | optional => cases hc
  | seq first second hfirst hsecond =>
    rcases Bool.or_eq_true_iff.mp hc with hc | hc
    · exact hfirst hc
    · exact matcher_eq_none first fun j slots' => hsecond hc
  | choice first second hfirst hsecond =>
    obtain ⟨hc, hc'⟩ := Bool.and_eq_true_iff.mp hc
    show (first.matcher text i slots follow).or (second.matcher text i slots follow) = none
    rw [hfirst hc, hsecond hc']
    rfl
  | plus greedy body hbody => exact hbody hc

end Shape

/-! ## An expression and its shape -/

namespace Matcher

variable {text : Text}

/-- What is accepted matters only for symbols that can be read. -/
theorem read_congr {accepts accepts' : Symbol → Bool}
    (h : ∀ r : Symbol, r.toNat ≤ 0x10FFFF → accepts r = accepts' r) :
    (read accepts : Matcher text) = read accepts' := by
  funext i slots follow
  unfold read
  split
  · next r j hread => rw [h r (Text.toNat_le_of_read? hread)]
  · rfl

theorem read_false : (read fun _ => false : Matcher text) = fail := by
  funext i slots follow
  unfold read
  split <;> rfl

theorem copies_succ (copy : Matcher text) (count : Nat) (rest : Matcher text) :
    copies copy (count + 1) rest = seq copy (copies copy count rest) :=
  Function.iterate_succ_apply' _ _ _

/-- The last copy may be taken for a part of the rest. -/
theorem copies_seq (copy : Matcher text) (count : Nat) (rest : Matcher text) :
    copies copy count (seq copy rest) = copies copy (count + 1) rest :=
  (Function.iterate_succ_apply _ _ _).symm

end Matcher

namespace Shape

variable {text : Text}

theorem matcher_oneOf {table : List SymbolRange} (h : SymbolRange.Normal table)
    {accepts : Symbol → Bool} (haccepts : ∀ r : Symbol, r.toNat ≤ 0x10FFFF →
      (accepts r = true ↔ SymbolRange.Covers table r)) :
    (oneOf table).matcher text = .read accepts := by
  unfold oneOf
  cases hcls : SymbolClass.ofNormal? table with
  | none =>
    show Matcher.fail = _
    rw [← Matcher.read_false]
    refine Matcher.read_congr fun r hr => ?_
    have hnot := haccepts r hr
    rw [SymbolClass.ofNormal?_eq_none_iff.mp hcls] at hnot
    exact (Bool.eq_false_iff.mpr fun h => SymbolRange.covers_nil (hnot.mp h)).symm
  | some cls =>
    refine Matcher.read_congr fun r hr => Bool.eq_iff_iff.mpr ?_
    rw [haccepts r hr]
    exact SymbolClass.mem_ofNormal? h hcls hr

/-- Copies behind a part. -/
theorem seq_matcher_copies (c : Shape) (count : Nat) (first : Shape) (rest : Matcher text) :
    Matcher.seq ((copies c count first).matcher text) rest =
      .seq (first.matcher text) (.copies (c.matcher text) count rest) := by
  induction count generalizing first with
  | zero => rfl
  | succ count ih =>
    rw [copies, ih, Matcher.copies_succ]
    rfl

/-- The matcher of an inner part; if there is none, it goes on at once. -/
def innerMatcher (text : Text) : (inner : Option Shape) → Matcher text
  | none => .skip
  | some c => c.matcher text

theorem innerMatcher_nest (greedy : Bool) (c : Shape) (count : Nat) (inner : Option Shape) :
    innerMatcher text (nest greedy c count inner) =
      (fun rest => .optional greedy (.seq (c.matcher text) rest))^[count]
        (innerMatcher text inner) := by
  induction count generalizing inner with
  | zero => rfl
  | succ count ih =>
    have hinner : innerMatcher text (some (optional greedy (around c inner))) =
        .optional greedy (.seq (c.matcher text) (innerMatcher text inner)) := by
      cases inner <;> rfl
    rw [nest, ih, hinner, Function.iterate_succ_apply]

theorem matcher_times (c : Shape) (min : Nat) (max : Option Nat) (greedy : Bool) :
    (c.times min max greedy).matcher text = .times (c.matcher text) min max greedy := by
  have hcopies : ∀ count (rest : Matcher text),
      Matcher.seq ((copies c count skip).matcher text) rest =
        .copies (c.matcher text) count rest := fun count rest =>
    seq_matcher_copies c count skip rest
  cases max with
  | none =>
    cases min with
    | zero => rfl
    | succ min =>
      -- the last copy that is asked for is the body of the loop
      show Matcher.seq ((copies c min skip).matcher text)
        (.seq (c.matcher text) (.star greedy (c.matcher text))) = _
      rw [hcopies, Matcher.copies_seq]
      rfl
  | some max =>
    rw [times, Matcher.times]
    split
    · rfl
    · have hupTo : Matcher.upTo greedy (c.matcher text) (max - min) =
          innerMatcher text (nest greedy c (max - min) none) :=
        (innerMatcher_nest greedy c (max - min) none).symm
      rw [← hcopies, hupTo]
      cases nest greedy c (max - min) none <;> rfl

end Shape

namespace Expr

variable {text : Text}

theorem matcher_literalClass (c : Char) (fold : Bool) :
    (Shape.read (Assembly.literalClass c fold)).matcher text =
      .read fun r => decide (r ∈ if fold then Symbol.variants c else [c.val]) := by
  refine Matcher.read_congr fun r _ => Bool.eq_iff_iff.mpr ?_
  rw [decide_eq_true_eq]
  exact Symbol.mem_literalClass

/-- The matcher of one character of a text. -/
theorem matcher_character (c : Char) :
    (Shape.read (Assembly.literalClass c false)).matcher text =
      .read fun r => decide (r = c.val) := by
  rw [matcher_literalClass]
  simp only [Bool.false_eq_true, if_false, List.mem_singleton]

theorem matcher_textShape (first : Shape) (chars : List Char) :
    (textShape first chars).matcher text =
      .seq (first.matcher text) ((Expr.text chars).matcher text) := by
  induction chars generalizing first with
  | nil => rfl
  | cons c chars ih =>
    rw [textShape, ih]
    show Matcher.seq (.seq _ ((Shape.read _).matcher text)) _ = _
    rw [matcher_character, matcher, matcher]
    rfl

mutual

/-- **An expression and its shape** have the same matcher. -/
theorem matcher_eq_shape : ∀ e : Expr, e.matcher text = e.shape.matcher text
  | empty | never | any | assert _ => rfl
  | anyButNewline => by
    refine Matcher.read_congr fun r _ => Bool.eq_iff_iff.mpr ?_
    rw [decide_eq_true_eq]
    exact SymbolClass.mem_anyButNewline.symm
  | literal c fold => by
    rw [shape, matcher_literalClass, matcher]
  | .text [] => by
    rw [shape, matcher]
    rfl
  | .text (c :: chars) => by
    rw [shape, matcher_textShape, matcher_character, matcher, matcher]
    rfl
  | oneOf ranges => by
    rw [shape, Shape.matcher_oneOf (SymbolRange.normal_normalize ranges) fun r hr => ?_, matcher]
    rw [decide_eq_true_eq]
    exact (SymbolRange.covers_normalize hr).symm
  | noneOf ranges => by
    have hnormal := SymbolRange.normal_normalize ranges
    rw [shape, Shape.matcher_oneOf (SymbolRange.normal_complement hnormal) fun r hr => ?_, matcher]
    rw [decide_eq_true_eq, SymbolRange.covers_complement hnormal, SymbolRange.covers_normalize hr]
    simp [SymbolRange.Covers, hr]
  | concat [] => by
    rw [shape, matcher, concatMatcher]
    rfl
  | concat (e :: es) => by
    rw [shape, matcher, concatMatcher, matcher_concatShape es, matcher_eq_shape e]
  | alternate [] => by
    rw [shape, matcher, alternateMatcher]
    rfl
  | alternate (e :: es) => by
    rw [shape, matcher, alternateMatcher, matcher_alternateShape es, matcher_eq_shape e]
  | star body greedy | plus body greedy | optional body greedy | capture index body => by
    rw [shape, matcher, matcher_eq_shape body]
    rfl
  | times body min max greedy => by
    rw [matcher, matcher_eq_shape body, ← Shape.matcher_times, shape]

theorem matcher_concatShape : ∀ (es : List Expr) (first : Shape),
    (concatShape first es).matcher text = .seq (first.matcher text) (concatMatcher text es)
  | [], first => by
    rw [concatShape, concatMatcher]
    rfl
  | e :: es, first => by
    rw [concatShape, matcher_concatShape es, concatMatcher, matcher_eq_shape e]
    rfl

theorem matcher_alternateShape : ∀ (es : List Expr) (first : Shape),
    (alternateShape first es).matcher text = .choice (first.matcher text) (alternateMatcher text es)
  | [], first => by
    rw [alternateShape, alternateMatcher]
    funext i slots follow
    -- a choice of nothing more changes nothing
    exact Option.or_none.symm
  | e :: es, first => by
    rw [alternateShape, matcher_alternateShape es, alternateMatcher, matcher_eq_shape e]
    funext i slots follow
    exact Option.or_assoc

end

end Expr

end Lockstep
