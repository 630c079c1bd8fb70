import TemporalCheck.Formula.Operators
import TemporalCheck.Grammar.Precedence

/-!
The text form of formulas. Binary operators from loose to tight: `<->` (left), `->` (right),
`||` (left), `&&` (left), then `U`, `R` and `W` on one level (right); the operators with one
operand bind tightest.
-/

namespace TemporalCheck

namespace Formula

open Grammar Grammar.Parser

def isLetter (c : Char) : Bool := ('a' ≤ c && c ≤ 'z') || ('A' ≤ c && c ≤ 'Z') || c == '_'

def isDigit (c : Char) : Bool := '0' ≤ c && c ≤ '9'

def isNameChar (c : Char) : Bool := isLetter c || isDigit c || c == '.' || c == '\x27'

def reserved : List String :=
  ["X", "F", "G", "U", "R", "V", "W", "true", "false", "and", "or", "not"]

/-- Splits a text that starts inside `depth` open parentheses after the one that closes them. -/
def closing : Nat → List Char → Option (List Char × List Char)
  | _, [] => none
  | depth, '(' :: cs => (closing (depth + 1) cs).map fun (a, rest) => ('(' :: a, rest)
  | 0, ')' :: cs => some ([')'], cs)
  | depth + 1, ')' :: cs => (closing depth cs).map fun (a, rest) => (')' :: a, rest)
  | depth, c :: cs => (closing depth cs).map fun (a, rest) => (c :: a, rest)

def arguments : List Char → List Char × List Char
  | '(' :: cs =>
    match closing 0 cs with
    | some (a, rest) => ('(' :: a, rest)
    | none => ([], '(' :: cs)
  | cs => ([], cs)

def propositionText (cs : List Char) : Option (List Char × List Char) :=
  let name := cs.takeWhile isNameChar
  if (name.head?.any isLetter) && !reserved.contains (String.ofList name) then
    let (args, rest) := arguments (cs.dropWhile isNameChar)
    some (name ++ args, rest)
  else none

def proposition : Parser Formula := fun c =>
  match propositionText c.rest with
  | some (name, rest) =>
    ⟨some (prop (String.ofList name), ⟨c.offset + name.length, rest⟩), .none⟩
  | none => expected "proposition" c

def endOfWord : Parser Unit := notBefore (oneOf "a character of a name" isNameChar)

def word (s : String) : Parser Unit := do
  symbol s
  endOfWord

def notSign : Parser Unit := symbol "!" <|> symbol "~" <|> word "not"

def orSign : Parser Unit := symbol "||" <|> symbol "|" <|> word "or"

def andSign : Parser Unit := symbol "&&" <|> symbol "&" <|> word "and"

def eventuallySign : Parser Unit := word "F" <|> symbol "<>"

def alwaysSign : Parser Unit := word "G" <|> symbol "[]"

def releaseSign : Parser Unit := do
  symbol "R" <|> symbol "V"
  endOfWord

def primary (expr : Parser Formula) : Parser Formula :=
  (do word "true"; pure top) <|>
  (do word "false"; pure bot) <|>
  proposition <|>
  (do
    symbol "("
    blanks
    let f ← expr
    blanks
    symbol ")"
    pure f)

def applied (sign : Parser Unit) (operand : Parser Formula) (build : Formula → Formula) :
    Parser Formula := do
  sign
  blanks
  let f ← operand
  pure (build f)

def tight : Nat := 5

def operand (expr : Nat → Parser Formula) : Parser Formula :=
  applied notSign (expr tight) neg <|>
  applied (word "X") (expr tight) next <|>
  applied eventuallySign (expr tight) eventually <|>
  applied alwaysSign (expr tight) always <|>
  primary (expr 0)

def between (sign : Parser Unit) : Parser Unit := do
  blanks
  sign
  blanks

def grammar : Precedence Formula where
  operand := operand
  binaries :=
    [.leftToRight 0 (between (symbol "<->")) iff,
     .rightToLeft 1 (between (symbol "->")) implies,
     .leftToRight 2 (between orSign) fun f g => .or [f, g],
     .leftToRight 3 (between andSign) fun f g => .and [f, g],
     .rightToLeft 4 (between (word "U")) .until,
     .rightToLeft 4 (between releaseSign) release,
     .rightToLeft 4 (between (word "W")) weakUntil]

def whole : Parser Formula := do
  blanks
  let f ← grammar.parser
  blanks
  pure f

def parse (text : String) : Except SyntaxError Formula := whole.parse text

end Formula

end TemporalCheck
