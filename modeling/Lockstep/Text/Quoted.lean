import Lockstep.Instr
import Lockstep.Symbol.Shapeless

/-!
# Quoted text

A text between double quotes, in which every character can be told from every other: what has a
shape of its own stands as it is, and the rest is escaped.

- `Quoted.escape`: one character.
- `Quoted.quote`: a text, with its quotes.
-/

namespace Lockstep

namespace Quoted

/-- A character between double quotes. -/
def escape (c : Char) : String :=
  match c with
  | '\x00' => "\\0"
  | '\t' => "\\t"
  | '\n' => "\\n"
  | '\r' => "\\r"
  | '"' => "\\\""
  | '\\' => "\\\\"
  | c =>
    if Symbol.isShapeless c.val then "\\u\x7b" ++ Symbol.hexDigits c.val ++ "\x7d" else c.toString

/-- A text between double quotes. -/
def quote (text : String) : String := "\"" ++ String.join (text.toList.map escape) ++ "\""

end Quoted

end Lockstep
