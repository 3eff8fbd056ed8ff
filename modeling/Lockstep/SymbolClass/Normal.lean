import Lockstep.SymbolClass

/-!
# Normal tables of ranges

Ranges written by hand may overlap, touch, be inverted or reach past the last code point. Before
they become a class they are put into normal form: sorted, disjoint, not adjacent, and within the
code points.

- `SymbolRange.normalize`: the normal table of a list of ranges.
- `SymbolRange.complement`: the code points that a normal table leaves out, again as a normal
  table.
- `SymbolRange.Normal`: what it means for a table to be in normal form.
- `SymbolClass.ofNormal?`: the class of a normal table, if there is anything in it.
-/

namespace Lockstep

namespace SymbolRange

/-- Cuts a range off at the last code point; nothing is left of a range that is inverted or lies
wholly past it. -/
def clamp? (range : SymbolRange) : Option SymbolRange :=
  let clamped : SymbolRange := ⟨range.lo, min range.hi Symbol.greatest⟩
  if range.lo ≤ range.hi ∧ clamped.lo ≤ clamped.hi then some clamped else none

/-- The order of ranges by their lower ends, then by their upper ends. -/
def le (a b : SymbolRange) : Bool := a.lo < b.lo || (a.lo == b.lo && a.hi ≤ b.hi)

/-- Joins each range of a sorted list to `current` as long as it overlaps or touches it, and
starts anew where there is a gap. -/
def mergeInto (current : SymbolRange) : List SymbolRange → List SymbolRange
  | [] => [current]
  | range :: rest =>
    if range.lo ≤ current.hi + 1 then
      mergeInto ⟨current.lo, max current.hi range.hi⟩ rest
    else
      current :: mergeInto range rest

/-- Joins the ranges of a sorted list that overlap or touch. -/
def merge : List SymbolRange → List SymbolRange
  | [] => []
  | range :: rest => mergeInto range rest

/-- The normal table with the same code points as a list of ranges. -/
def normalize (ranges : List SymbolRange) : List SymbolRange :=
  merge ((ranges.filterMap clamp?).mergeSort le)

/-- The gaps of a normal table from `next` up to the last code point. -/
def gapsFrom (next : Symbol) : List SymbolRange → List SymbolRange
  | [] => if next ≤ Symbol.greatest then [⟨next, Symbol.greatest⟩] else []
  | range :: rest =>
    if next < range.lo then ⟨next, range.lo - 1⟩ :: gapsFrom (range.hi + 1) rest
    else gapsFrom (range.hi + 1) rest

/-- The code points that are in no range of a normal table. -/
def complement (table : List SymbolRange) : List SymbolRange := gapsFrom 0 table

/-- A table in normal form: its ranges are not empty, end within the code points, and have a gap
of at least one code point between any two of them. -/
def Normal : List SymbolRange → Prop
  | [] => True
  | range :: rest =>
    range.lo ≤ range.hi ∧ range.hi ≤ Symbol.greatest ∧
      (∀ next ∈ rest, range.hi.toNat + 1 < next.lo.toNat) ∧ Normal rest

end SymbolRange

namespace SymbolClass

/-- The class of a normal table; an empty table has none. A table with one symbol is that symbol,
and one with every code point accepts everything. -/
def ofNormal? : List SymbolRange → Option SymbolClass
  | [] => none
  | [range] =>
    if range.lo = range.hi then some (single range.lo)
    else if range.lo = 0 ∧ range.hi = Symbol.greatest then some any
    else some (ranges #[range])
  | table => some (ranges table.toArray)

end SymbolClass

end Lockstep
