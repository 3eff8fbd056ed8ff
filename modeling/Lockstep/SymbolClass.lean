import Lockstep.Symbol

/-!
# Classes of symbols

What an instruction that reads a symbol is ready to accept.

- `SymbolRange`: the symbols from `lo` to `hi`, both included.
- `SymbolClass`: one symbol, a few, those in a table of ranges, all, or all but the end of a line.
- `SymbolClass.contains`: whether a symbol is in a class.

A table of ranges is looked up in two phases, a walk over its first entries and then a bisection.
Both rely on the table being sorted; a table that is not is looked up by the same two phases.
-/

namespace Lockstep

/-- The symbols from `lo` to `hi`; none if `hi < lo`. -/
structure SymbolRange where
  /-- The least symbol of the range. -/
  lo : Symbol
  /-- The greatest symbol of the range. -/
  hi : Symbol
  deriving DecidableEq, Repr, Inhabited

namespace SymbolRange

/-- The symbol is neither below nor above the range. -/
def Contains (range : SymbolRange) (r : Symbol) : Prop := range.lo ≤ r ∧ r ≤ range.hi

instance (range : SymbolRange) (r : Symbol) : Decidable (range.Contains r) :=
  inferInstanceAs (Decidable (_ ∧ _))

/-! ## Looking a symbol up in a table of ranges -/

/-- Walks over the ranges of a table, and knows the answer at the first range that does not lie
wholly below the symbol. -/
def probe (r : Symbol) : List SymbolRange → Option Bool
  | [] => none
  | range :: rest =>
    if r < range.lo then some false
    else if r ≤ range.hi then some true
    else probe r rest

/-- Bisects the part of a table from `lo` up to `hi`. -/
def bisect (table : Array SymbolRange) (r : Symbol) (lo hi : Nat) : Bool :=
  if lo < hi then
    let middle := lo + (hi - lo) / 2
    match table[middle]? with
    | none => false
    | some range =>
      if range.lo ≤ r then
        if r ≤ range.hi then true else bisect table r (middle + 1) hi
      else
        bisect table r lo middle
  else
    false
termination_by hi - lo

/-- How many ranges are walked over before a table is bisected. -/
def probed : Nat := 5

/-- Whether a table of ranges holds a symbol. The first few ranges are walked over, and a longer
table is bisected if that gave no answer. -/
def lookUp (table : Array SymbolRange) (r : Symbol) : Bool :=
  match probe r (table.toList.take probed) with
  | some answer => answer
  | none => decide (probed < table.size) && bisect table r 0 table.size

end SymbolRange

/-- The symbols that an instruction accepts. -/
inductive SymbolClass where
  /-- One symbol. -/
  | single (r : Symbol)
  /-- A symbol and its variants in the other case. -/
  | variants (rs : List Symbol)
  /-- The symbols in some range of a table. -/
  | ranges (table : Array SymbolRange)
  /-- Every symbol. -/
  | any
  /-- Every symbol that does not end a line. -/
  | anyButNewline
  deriving DecidableEq, Repr, Inhabited

namespace SymbolClass

/-- Whether a symbol is in a class. -/
def contains : SymbolClass → Symbol → Bool
  | single c, r => c == r
  | variants rs, r => rs.contains r
  | ranges table, r => SymbolRange.lookUp table r
  | any, _ => true
  | anyButNewline, r => r != Symbol.newline

instance : Membership Symbol SymbolClass := ⟨fun cls r => cls.contains r = true⟩

instance (r : Symbol) (cls : SymbolClass) : Decidable (r ∈ cls) :=
  inferInstanceAs (Decidable (cls.contains r = true))

@[simp] theorem mem_single {c r : Symbol} : r ∈ single c ↔ c = r := by
  show (c == r) = true ↔ c = r
  simp

@[simp] theorem mem_variants {rs : List Symbol} {r : Symbol} : r ∈ variants rs ↔ r ∈ rs := by
  show rs.contains r = true ↔ r ∈ rs
  simp

@[simp] theorem mem_any (r : Symbol) : r ∈ any := rfl

@[simp] theorem mem_anyButNewline {r : Symbol} : r ∈ anyButNewline ↔ r ≠ Symbol.newline := by
  show (r != Symbol.newline) = true ↔ r ≠ Symbol.newline
  simp

end SymbolClass

end Lockstep
