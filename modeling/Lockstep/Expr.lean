import Lockstep.Conditions
import Lockstep.SymbolClass

/-!
# Regular expressions

An expression is a tree; there is no syntax to be read.

- `Expr`: the sixteen forms of an expression.
- `Expr.lazy`: a repetition that prefers fewer copies to more.
- `Expr.group`: a group by its number.
- `Expr.maxRepeat`: the greatest number of copies that a counted repetition may ask for.
-/

namespace Lockstep

/-- A regular expression. Where a repetition is `greedy`, more copies are preferred to fewer. -/
inductive Expr where
  /-- Matches the empty text. -/
  | empty
  /-- Matches nothing. -/
  | never
  /-- Matches one character, and with `fold` also its variants in the other case. -/
  | literal (c : Char) (fold : Bool)
  /-- Matches these characters one after the other. -/
  | text (chars : List Char)
  /-- Matches a symbol that is in some of the ranges. -/
  | oneOf (ranges : List SymbolRange)
  /-- Matches a code point that is in none of the ranges. -/
  | noneOf (ranges : List SymbolRange)
  /-- Matches any symbol. -/
  | any
  /-- Matches any symbol that does not end a line. -/
  | anyButNewline
  /-- Matches the empty text where the conditions hold. -/
  | assert (cond : Conditions)
  /-- Matches what the parts match one after the other. -/
  | concat (parts : List Expr)
  /-- Matches what some part matches; an earlier part is preferred to a later one. -/
  | alternate (parts : List Expr)
  /-- Matches any number of copies. -/
  | star (body : Expr) (greedy : Bool)
  /-- Matches one copy or more. -/
  | plus (body : Expr) (greedy : Bool)
  /-- Matches one copy or none. -/
  | optional (body : Expr) (greedy : Bool)
  /-- Matches `min` copies or more, and no more than `max` if that is given. -/
  | times (body : Expr) (min : Nat) (max : Option Nat) (greedy : Bool)
  /-- Matches what the body matches, and keeps where that was as the group `index`. Group 0 is the
  whole match, and cannot be asked for. -/
  | capture (index : UInt32) (body : Expr)
  deriving Repr, Inhabited

namespace Expr

/-- The greatest number of copies that a counted repetition may ask for. -/
def maxRepeat : Nat := 1000

/-- Makes a repetition prefer fewer copies to more; other expressions stay as they are. -/
def lazy : Expr → Expr
  | star body _ => star body false
  | plus body _ => plus body false
  | optional body _ => optional body false
  | times body min max _ => times body min max false
  | e => e

/-- The group with a number, of which the lowest 32 bits count. -/
abbrev group (index : Nat) (body : Expr) : Expr := capture (.ofNat index) body

end Expr

end Lockstep
