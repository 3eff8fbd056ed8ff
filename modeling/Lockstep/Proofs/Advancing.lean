import Lockstep.Proofs.Language

/-!
# Repetitions that advance

A repetition whose body matches empty could go round without reading anything. Where no body of a
repetition without bound does, each round leads on in the text.

- `Shape.LoopsAdvance`: no body of a fork that leads back matches empty.
- `Expr.LoopsAdvance`: no body of a repetition without bound matches empty.
- `Shape.lt_of_matches`: what does not match empty leads on in the text.
- `Expr.loopsAdvance_shape`: what holds of an expression holds of its shape.
-/

namespace Lockstep

/-! ## Shapes -/

namespace Shape

/-- No body of a fork that leads back matches empty. -/
def LoopsAdvance (text : Text) : Shape → Prop
  | never | skip | read _ | check _ | save _ => True
  | seq first second | choice first second => first.LoopsAdvance text ∧ second.LoopsAdvance text
  | star _ body | plus _ body => (∀ i, ¬ body.Matches text i i) ∧ body.LoopsAdvance text
  | optional _ body => body.LoopsAdvance text

variable {text : Text} {c : Shape}

theorem le_of_repeats {R : text.Offset → text.Offset → Prop} (hR : ∀ i j, R i j → i ≤ j)
    {i j : text.Offset} (h : Relation.ReflTransGen R i j) : i ≤ j := by
  induction h with
  | refl => exact le_refl i
  | tail _ hstep ih => exact le_trans ih (hR _ _ hstep)

/-- Matching leads on in the text. -/
theorem le_of_matches (c : Shape) (i j : text.Offset) (h : c.Matches text i j) : i ≤ j := by
  induction c generalizing i j with
  | never => exact h.elim
  | skip | save => exact le_of_eq h
  | check => exact le_of_eq h.1
  | read cls =>
    obtain ⟨r, hread, -⟩ := h
    exact le_of_lt (Text.lt_of_read? hread)
  | seq first second hfirst hsecond =>
    obtain ⟨k, hk, hrest⟩ := h
    exact le_trans (hfirst i k hk) (hsecond k j hrest)
  | choice first second hfirst hsecond => exact h.elim (hfirst i j) (hsecond i j)
  | star greedy body hbody => exact le_of_repeats hbody h
  | plus greedy body hbody =>
    obtain ⟨k, hk, hrest⟩ := h
    exact le_trans (hbody i k hk) (le_of_repeats hbody hrest)
  | optional greedy body hbody => exact h.elim le_of_eq (hbody i j)

/-- What does not match empty leads on further. -/
theorem lt_of_matches (hempty : ∀ i, ¬ c.Matches text i i) {i j : text.Offset}
    (h : c.Matches text i j) : i < j := by
  refine lt_of_le_of_ne (c.le_of_matches i j h) ?_
  rintro rfl
  exact hempty i h

end Shape

/-! ## Shapes of expressions -/

namespace Shape

variable {text : Text} {c : Shape}

theorem loopsAdvance_oneOf (table : List SymbolRange) : (oneOf table).LoopsAdvance text := by
  unfold oneOf
  cases SymbolClass.ofNormal? table <;> trivial

theorem loopsAdvance_copies (hc : c.LoopsAdvance text) (count : Nat) {first : Shape}
    (hfirst : first.LoopsAdvance text) : (copies c count first).LoopsAdvance text := by
  induction count generalizing first with
  | zero => exact hfirst
  | succ count ih => exact ih ⟨hfirst, hc⟩

theorem loopsAdvance_nest (hc : c.LoopsAdvance text) (greedy : Bool) (count : Nat)
    {inner : Option Shape} (hinner : ∀ d ∈ inner, d.LoopsAdvance text) :
    ∀ d ∈ nest greedy c count inner, d.LoopsAdvance text := by
  induction count generalizing inner with
  | zero => exact hinner
  | succ count ih =>
    refine ih fun d hd => ?_
    obtain rfl : optional greedy (around c inner) = d := Option.some.inj hd
    cases inner with
    | none => exact hc
    | some inner => exact ⟨hc, hinner inner rfl⟩

theorem loopsAdvance_times (hc : c.LoopsAdvance text) {min : Nat} {max : Option Nat} {greedy : Bool}
    (hempty : max = none → ∀ i, ¬ c.Matches text i i) :
    (c.times min max greedy).LoopsAdvance text := by
  have hcopies : ∀ count, (copies c count skip).LoopsAdvance text :=
    fun count => loopsAdvance_copies hc count trivial
  cases max with
  | none =>
    cases min with
    | zero => exact ⟨hempty rfl, hc⟩
    | succ min => exact ⟨hcopies min, hempty rfl, hc⟩
  | some max =>
    have hnest : ∀ d ∈ nest greedy c (max - min) none, d.LoopsAdvance text :=
      loopsAdvance_nest hc greedy (max - min) (by simp)
    rw [times]
    split
    · trivial
    · split
      · next rest hrest => exact ⟨hcopies min, hnest rest hrest⟩
      · exact hcopies min

end Shape

namespace Expr

mutual

/-- No body of a repetition without bound matches empty, wherever in the text. -/
def LoopsAdvance (text : Text) : Expr → Prop
  | empty | never | literal _ _ | .text _ | oneOf _ | noneOf _ | any | anyButNewline | assert _ =>
    True
  | concat es | alternate es => AllLoopsAdvance text es
  | star body _ | plus body _ | times body _ none _ =>
    (∀ i, ¬ body.Matches text i i) ∧ LoopsAdvance text body
  | times body _ (some _) _ | optional body _ | capture _ body => LoopsAdvance text body

/-- The same of several expressions. -/
def AllLoopsAdvance (text : Text) : List Expr → Prop
  | [] => True
  | e :: es => LoopsAdvance text e ∧ AllLoopsAdvance text es

end

variable {text : Text}

theorem loopsAdvance_textShape (chars : List Char) {first : Shape}
    (hfirst : first.LoopsAdvance text) : (textShape first chars).LoopsAdvance text := by
  induction chars generalizing first with
  | nil => exact hfirst
  | cons c chars ih => exact ih ⟨hfirst, trivial⟩

theorem not_matches_shape {e : Expr} (h : ∀ i, ¬ e.Matches text i i) (i : text.Offset) :
    ¬ e.shape.Matches text i i := by
  rw [← matches_iff_shape]
  exact h i

mutual

/-- What holds of the repetitions of an expression holds of those of its shape. -/
theorem loopsAdvance_shape : ∀ e : Expr, e.LoopsAdvance text → e.shape.LoopsAdvance text
  | empty, _ | never, _ | any, _ | anyButNewline, _ | assert _, _ | literal _ _, _ => trivial
  | .text [], _ => trivial
  | .text (c :: chars), _ => by
    rw [shape]
    exact loopsAdvance_textShape chars trivial
  | oneOf ranges, _ | noneOf ranges, _ => by
    rw [shape]
    exact Shape.loopsAdvance_oneOf _
  | concat [], _ | alternate [], _ => by
    rw [shape]
    trivial
  | concat (e :: es), h => by
    obtain ⟨he, hes⟩ := h
    rw [shape]
    exact loopsAdvance_concatShape es hes (loopsAdvance_shape e he)
  | alternate (e :: es), h => by
    obtain ⟨he, hes⟩ := h
    rw [shape]
    exact loopsAdvance_alternateShape es hes (loopsAdvance_shape e he)
  | star body greedy, h | plus body greedy, h => by
    obtain ⟨hempty, hbody⟩ := h
    rw [shape]
    exact ⟨not_matches_shape hempty, loopsAdvance_shape body hbody⟩
  | optional body greedy, h => by
    rw [shape]
    exact loopsAdvance_shape body h
  | times body min none greedy, h => by
    obtain ⟨hempty, hbody⟩ := h
    rw [shape]
    exact Shape.loopsAdvance_times (loopsAdvance_shape body hbody)
      fun _ => not_matches_shape hempty
  | times body min (some max) greedy, h => by
    rw [shape]
    exact Shape.loopsAdvance_times (loopsAdvance_shape body h) nofun
  | capture index body, h => by
    rw [shape]
    exact ⟨⟨trivial, loopsAdvance_shape body h⟩, trivial⟩

theorem loopsAdvance_concatShape : ∀ (es : List Expr), AllLoopsAdvance text es →
    ∀ {first : Shape}, first.LoopsAdvance text → (concatShape first es).LoopsAdvance text
  | [], _, first, hfirst => by
    rw [concatShape]
    exact hfirst
  | e :: es, h, first, hfirst => by
    rw [concatShape]
    exact loopsAdvance_concatShape es h.2 ⟨hfirst, loopsAdvance_shape e h.1⟩

theorem loopsAdvance_alternateShape : ∀ (es : List Expr), AllLoopsAdvance text es →
    ∀ {first : Shape}, first.LoopsAdvance text → (alternateShape first es).LoopsAdvance text
  | [], _, first, hfirst => by
    rw [alternateShape]
    exact hfirst
  | e :: es, h, first, hfirst => by
    rw [alternateShape]
    exact loopsAdvance_alternateShape es h.2 ⟨hfirst, loopsAdvance_shape e h.1⟩

end

end Expr

end Lockstep
