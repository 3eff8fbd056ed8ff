import Lockstep.Expr
import Lockstep.Program.Freeze
import Lockstep.Symbol.CaseMapping
import Lockstep.SymbolClass.Normal

/-!
# From expressions to programs

An expression becomes a program from the inside out. Each part becomes a fragment: some
instructions, the address where they are entered, and the edges that leave them and lead nowhere
yet. Two fragments are joined by letting the edges of the one lead to the entry of the other.

- `Fragment`: a part of a program under construction, or the fragment that never matches.
- `Assembly`: an action on a program under construction, which may fail.
- `Expr.assemble`: the action that adds the fragment of an expression.
- `Expr.compile`, `Expr.compileBinary`: the finished program of an expression, with its forks
  flattened and as they were built.

The instruction at address 0 is `fail`, and the edges of fragments that cannot be part of a match
lead to it.
-/

namespace Lockstep

/-- A part of a program under construction. -/
inductive Fragment where
  /-- Never matches, and takes no instructions. -/
  | never
  /-- Is entered at the address `entry`, and left along the edges `exits`. -/
  | live (entry : Nat) (exits : List Hole)
  deriving DecidableEq, Repr

namespace Fragment

/-- The address where a fragment is entered; at address 0 every program fails. -/
def entry : Fragment → Nat
  | never => 0
  | live entry _ => entry

/-- The edges that leave a fragment. -/
def exits : Fragment → List Hole
  | never => []
  | live _ exits => exits

end Fragment

/-- An action on a program under construction. -/
abbrev Assembly := StateT Builder (Except Error)

namespace Assembly

/-! ## Single instructions -/

/-- Adds an instruction to a program of at most `limit` instructions, and gives its address. -/
def emit (limit : Nat) (i : Instr Edge) : Assembly Nat := fun b =>
  let pc := b.code.size
  if limit < pc + 1 then .error (.programTooLarge (pc + 1) limit) else .ok (pc, b.push i)

/-- Lets all these edges lead to `target`. -/
def link (holes : List Hole) (target : Nat) : Assembly Unit :=
  fun b => .ok ((), b.link holes target)

/-- Lets the program start at `pc`. -/
def startAt (pc : Nat) : Assembly Unit := fun b => .ok ((), b.startAt pc)

/-- The fragment of an instruction with one edge, which leads nowhere yet. -/
def single (limit : Nat) (i : Instr Edge) : Assembly Fragment := do
  let pc ← emit limit i
  return .live pc [⟨pc, 0⟩]

/-- The fragment that reads one symbol of a class. -/
def consume (limit : Nat) (cls : SymbolClass) : Assembly Fragment :=
  single limit (.consume cls none)

/-- The fragment that reads one symbol of a normal table; if that is empty, nothing will do. -/
def oneOf (limit : Nat) (table : List SymbolRange) : Assembly Fragment :=
  match SymbolClass.ofNormal? table with
  | none => return .never
  | some cls => consume limit cls

/-- The class of a literal character. -/
def literalClass (c : Char) (fold : Bool) : SymbolClass :=
  let variants := if fold then Symbol.variants c else []
  if variants.length > 1 then .variants variants else .single c.val

/-- The fragment that reads one character. -/
def literal (limit : Nat) (c : Char) (fold : Bool) : Assembly Fragment :=
  consume limit (literalClass c fold)

/-! ## Joining fragments -/

/-- One fragment and then another. If one of them never matches, the edges of the other come to
nothing. -/
def join : Fragment → Fragment → Assembly Fragment
  | .live entry exits, .live entry' exits' => do
    link exits entry'
    return .live entry exits'
  | first, second => do
    link first.exits 0
    link second.exits 0
    return .never

/-- One fragment or another, the first one preferred; one that never matches is left out. -/
def choose (limit : Nat) : Fragment → Fragment → Assembly Fragment
  | .never, second => return second
  | first, .never => return first
  | .live entry exits, .live entry' exits' => do
    let pc ← emit limit (.fork [some entry, some entry'])
    return .live pc (exits ++ exits')

/-- A fork between a fragment and an edge that leads nowhere yet, and is preferred if the fork is
not `greedy`; gives the address of the fork and the edge. -/
def branch (limit : Nat) (greedy : Bool) (body : Fragment) : Assembly (Nat × Hole) := do
  if greedy then
    let pc ← emit limit (.fork [some body.entry, none])
    return (pc, ⟨pc, 1⟩)
  else
    let pc ← emit limit (.fork [none, some body.entry])
    return (pc, ⟨pc, 0⟩)

/-- A fragment or nothing. -/
def optional (limit : Nat) (greedy : Bool) (body : Fragment) : Assembly Fragment := do
  let (pc, skip) ← branch limit greedy body
  return .live pc (skip :: body.exits)

/-- A fragment any number of times. -/
def star (limit : Nat) (greedy : Bool) (body : Fragment) : Assembly Fragment := do
  let (pc, leave) ← branch limit greedy body
  link body.exits pc
  return .live pc [leave]

/-- A fragment once or more: the loop of `star`, entered through the body. -/
def plus (limit : Nat) (greedy : Bool) : Fragment → Assembly Fragment
  | .never => return .never
  | .live entry exits => do
    let loop ← star limit greedy (.live entry exits)
    return .live entry loop.exits

/-! ## Copies -/

/-- A fragment followed by `count` copies of what `copy` adds. -/
def joinCopies (copy : Assembly Fragment) : (count : Nat) → Fragment → Assembly Fragment
  | 0, first => return first
  | count + 1, first => do
    let next ← copy
    joinCopies copy count (← join first next)

/-- Up to `count` more copies around `inner`, each optional and with the next one inside it. -/
def nestCopies (limit : Nat) (greedy : Bool) (copy : Assembly Fragment) :
    (count : Nat) → (inner : Option Fragment) → Assembly (Option Fragment)
  | 0, inner => return inner
  | count + 1, inner => do
    let outer ← copy
    let body ← match inner with
      | some inner => join outer inner
      | none => pure outer
    nestCopies limit greedy copy count (some (← optional limit greedy body))

/-- Refuses the bounds of a repetition that cannot be met or ask for too much. -/
def checkBounds (min : Nat) (max : Option Nat) : Assembly Unit := do
  if let some max := max then
    if max < min then
      throw (.invalidRepeat min max)
    if Expr.maxRepeat < max then
      throw (.repeatTooLarge max)
  if Expr.maxRepeat < min then
    throw (.repeatTooLarge min)

/-- From `min` copies to `max`: that many copies and then the optional ones; without a `max`, the
last copy that is asked for is a loop. -/
def times (limit : Nat) (copy : Assembly Fragment) (min : Nat) (max : Option Nat) (greedy : Bool) :
    Assembly Fragment := do
  checkBounds min max
  match max, min with
  | none, 0 => star limit greedy (← copy)
  | none, min + 1 =>
    let first ← single limit (.jump none)
    let first ← joinCopies copy min first
    let last ← copy
    join first (← plus limit greedy last)
  | some max, min =>
    let first ← single limit (.jump none)
    let first ← joinCopies copy min first
    match ← nestCopies limit greedy copy (max - min) none with
    | some rest => join first rest
    | none => return first

end Assembly

namespace Expr

open Assembly

/-! ## Expressions -/

/-- Adds the characters of a text to a fragment. -/
def assembleText (limit : Nat) : Fragment → List Char → Assembly Fragment
  | first, [] => return first
  | first, c :: rest => do
    let next ← Assembly.literal limit c false
    assembleText limit (← join first next) rest

mutual

/-- Adds the fragment of an expression to a program of at most `limit` instructions. -/
def assemble (limit : Nat) : Expr → Assembly Fragment
  | empty => single limit (.jump none)
  | never => return .never
  | literal c fold => Assembly.literal limit c fold
  | text [] => single limit (.jump none)
  | text (c :: rest) => do assembleText limit (← Assembly.literal limit c false) rest
  | oneOf ranges => Assembly.oneOf limit (SymbolRange.normalize ranges)
  | noneOf ranges => Assembly.oneOf limit (SymbolRange.complement (SymbolRange.normalize ranges))
  | any => consume limit .any
  | anyButNewline => consume limit .anyButNewline
  | assert cond => single limit (.assert cond none)
  | concat [] => single limit (.jump none)
  | concat (e :: rest) => do assembleConcat limit (← assemble limit e) rest
  | alternate [] => return .never
  | alternate (e :: rest) => do assembleAlternate limit (← assemble limit e) rest
  | star body greedy => do Assembly.star limit greedy (← assemble limit body)
  | plus body greedy => do Assembly.plus limit greedy (← assemble limit body)
  | optional body greedy => do Assembly.optional limit greedy (← assemble limit body)
  | times body min max greedy => Assembly.times limit (assemble limit body) min max greedy
  | capture index body =>
    if index = 0 then
      throw .invalidArgument
    else do
      let opening ← single limit (.save (2 * index.toNat) none)
      let inside ← assemble limit body
      let closing ← single limit (.save (2 * index.toNat + 1) none)
      join (← join opening inside) closing

/-- Adds expressions that are to match one after the other, behind a fragment. -/
def assembleConcat (limit : Nat) : Fragment → List Expr → Assembly Fragment
  | first, [] => return first
  | first, e :: rest => do
    let next ← assemble limit e
    assembleConcat limit (← join first next) rest

/-- Adds expressions of which one is to match, less preferred than a fragment. -/
def assembleAlternate (limit : Nat) : Fragment → List Expr → Assembly Fragment
  | first, [] => return first
  | first, e :: rest => do
    let next ← assemble limit e
    assembleAlternate limit (← choose limit first next) rest

end

/-- The instructions of an expression, with `accept` behind them and `fail` before them. -/
def build (limit : Nat) (e : Expr) : Except Error Builder := do
  let whole : Assembly Unit := do
    let body ← assemble limit e
    let accepting ← emit limit .accept
    link body.exits accepting
    startAt body.entry
  let ((), b) ← whole.run { code := #[.fail] }
  return b

/-- The program of an expression with every fork as it was built, with two arms. -/
def compileBinary (limit : Nat) (e : Expr) : Except Error Program := do
  (← build limit e).freezeBinary

/-- The program of an expression, with its forks flattened. -/
def compile (limit : Nat) (e : Expr) : Except Error Program := do
  (← build limit e).freeze

end Expr

end Lockstep
