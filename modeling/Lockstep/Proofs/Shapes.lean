import Lockstep.Expr.Assembly

/-!
# Shapes of fragments

What an expression becomes can be said without addresses: how its fragment is put together from
single instructions. A finished program has such a shape between two addresses if its instructions
there and their edges are those of the shape.

- `Shape`: how a fragment is put together.
- `Shape.isNever`: the shapes that become the fragment that never matches.
- `Expr.shape`: the shape of an expression.
- `Program.Spans`: a program has a shape between two addresses.
-/

namespace Lockstep

/-- How a fragment is put together. Where a repetition is `greedy`, its body is preferred. -/
inductive Shape where
  /-- No fragment. -/
  | never
  /-- Goes on. -/
  | skip
  /-- Reads one symbol of a class. -/
  | read (cls : SymbolClass)
  /-- Goes on only where the conditions hold. -/
  | check (cond : Conditions)
  /-- Writes the current offset into a capture slot. -/
  | save (slot : Nat)
  /-- One part and then another. -/
  | seq (first second : Shape)
  /-- One part or another, the first one preferred. -/
  | choice (first second : Shape)
  /-- A fork in front of a part that leads back to it. -/
  | star (greedy : Bool) (body : Shape)
  /-- A part with a fork behind it that leads back to the part. -/
  | plus (greedy : Bool) (body : Shape)
  /-- A fork in front of a part that leads past it. -/
  | optional (greedy : Bool) (body : Shape)

namespace Shape

/-- Whether a shape becomes the fragment that never matches. -/
def isNever : Shape → Bool
  | never => true
  | skip | read _ | check _ | save _ | star _ _ | optional _ _ => false
  | seq first second => first.isNever || second.isNever
  | choice first second => first.isNever && second.isNever
  | plus _ body => body.isNever

/-- The shape of what reads one symbol of a normal table. -/
def oneOf (table : List SymbolRange) : Shape :=
  match SymbolClass.ofNormal? table with
  | none => never
  | some cls => read cls

/-- A part with `count` copies of another behind it. -/
def copies (copy : Shape) : (count : Nat) → (first : Shape) → Shape
  | 0, first => first
  | count + 1, first => copies copy count (seq first copy)

/-- A copy with an inner part behind it, if there is one. -/
def around (copy : Shape) : (inner : Option Shape) → Shape
  | none => copy
  | some inner => seq copy inner

/-- Up to `count` more copies around `inner`, each optional and with the next one inside it. -/
def nest (greedy : Bool) (copy : Shape) : (count : Nat) → (inner : Option Shape) → Option Shape
  | 0, inner => inner
  | count + 1, inner => nest greedy copy count (some (optional greedy (around copy inner)))

/-- From `min` copies to `max`; without a `max`, the last copy that is asked for is a loop. There
is no such shape if `max` is less than `min`. -/
def times (copy : Shape) (min : Nat) (max : Option Nat) (greedy : Bool) : Shape :=
  match max, min with
  | none, 0 => star greedy copy
  | none, min + 1 => seq (copies copy min skip) (plus greedy copy)
  | some max, min =>
    if max < min then never
    else
      match nest greedy copy (max - min) none with
      | some rest => seq (copies copy min skip) rest
      | none => copies copy min skip

/-- Up to `max` copies: the others stand behind those that are asked for. -/
theorem times_of_le {copy : Shape} {min max : Nat} (h : min ≤ max) (greedy : Bool) :
    copy.times min (some max) greedy = (copy.nest greedy (max - min) none).elim
      (copy.copies min skip) (seq (copy.copies min skip)) := by
  refine (if_neg (Nat.not_lt.mpr h)).trans ?_
  cases copy.nest greedy (max - min) none <;> rfl

end Shape

namespace Expr

/-- The shape of some characters behind a part. -/
def textShape : Shape → List Char → Shape
  | first, [] => first
  | first, c :: rest => textShape (.seq first (.read (Assembly.literalClass c false))) rest

mutual

/-- The shape of the fragment of an expression. -/
def shape : Expr → Shape
  | empty => .skip
  | never => .never
  | literal c fold => .read (Assembly.literalClass c fold)
  | text [] => .skip
  | text (c :: rest) => textShape (.read (Assembly.literalClass c false)) rest
  | oneOf ranges => .oneOf (SymbolRange.normalize ranges)
  | noneOf ranges => .oneOf (SymbolRange.complement (SymbolRange.normalize ranges))
  | any => .read .any
  | anyButNewline => .read .anyButNewline
  | assert cond => .check cond
  | concat [] => .skip
  | concat (e :: rest) => concatShape (shape e) rest
  | alternate [] => .never
  | alternate (e :: rest) => alternateShape (shape e) rest
  | star body greedy => .star greedy (shape body)
  | plus body greedy => .plus greedy (shape body)
  | optional body greedy => .optional greedy (shape body)
  | times body min max greedy => (shape body).times min max greedy
  | capture index body =>
    .seq (.seq (.save (2 * index.toNat)) (shape body)) (.save (2 * index.toNat + 1))

/-- The shape of expressions that are to match one after the other, behind a part. -/
def concatShape : Shape → List Expr → Shape
  | first, [] => first
  | first, e :: rest => concatShape (.seq first (shape e)) rest

/-- The shape of expressions of which one is to match, less preferred than a part. -/
def alternateShape : Shape → List Expr → Shape
  | first, [] => first
  | first, e :: rest => alternateShape (.choice first (shape e)) rest

end

end Expr

/-- The two arms of a fork in front of the body of a repetition. -/
def Shape.arms {α : Type} (greedy : Bool) (body leave : α) : List α :=
  if greedy then [body, leave] else [leave, body]

/-- A program has a shape between two addresses: it is entered at the first one, and left for the
second one. What never matches is entered where the program fails; a choice between that and
another part is the other part. -/
inductive Program.Spans (P : Program) : Shape → Fin P.size → Fin P.size → Prop where
  | never {c : Shape} {s t : Fin P.size} (hc : c.isNever = true) (hs : P.instr s = .fail) :
    Spans P c s t
  | skip {s t : Fin P.size} (hs : P.instr s = .jump t) : Spans P .skip s t
  | read {cls : SymbolClass} {s t : Fin P.size} (hs : P.instr s = .consume cls t) :
    Spans P (.read cls) s t
  | check {cond : Conditions} {s t : Fin P.size} (hs : P.instr s = .assert cond t) :
    Spans P (.check cond) s t
  | save {slot : Nat} {s t : Fin P.size} (hs : P.instr s = .save slot t) :
    Spans P (.save slot) s t
  | seq {c d : Shape} {s m t : Fin P.size} (hc : Spans P c s m) (hd : Spans P d m t) :
    Spans P (.seq c d) s t
  | choice {c d : Shape} {s x y t : Fin P.size} (hs : P.instr s = .fork [x, y])
    (hc : Spans P c x t) (hd : Spans P d y t) : Spans P (.choice c d) s t
  | first {c d : Shape} {s t : Fin P.size} (hc : Spans P c s t) (hd : d.isNever = true) :
    Spans P (.choice c d) s t
  | second {c d : Shape} {s t : Fin P.size} (hc : c.isNever = true) (hd : Spans P d s t) :
    Spans P (.choice c d) s t
  | star {c : Shape} {greedy : Bool} {s x t : Fin P.size}
    (hs : P.instr s = .fork (Shape.arms greedy x t)) (hc : Spans P c x s) :
    Spans P (.star greedy c) s t
  | plus {c : Shape} {greedy : Bool} {s l t : Fin P.size} (hc : Spans P c s l)
    (hl : P.instr l = .fork (Shape.arms greedy s t)) : Spans P (.plus greedy c) s t
  | optional {c : Shape} {greedy : Bool} {s x t : Fin P.size}
    (hs : P.instr s = .fork (Shape.arms greedy x t)) (hc : Spans P c x t) :
    Spans P (.optional greedy c) s t

end Lockstep
