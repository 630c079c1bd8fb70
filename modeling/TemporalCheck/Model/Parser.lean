import TemporalCheck.Grammar.Precedence
import TemporalCheck.Model.Action

namespace TemporalCheck

namespace Predicate

open Grammar Grammar.Parser

def isLetter (c : Char) : Bool := ('a' ≤ c && c ≤ 'z') || ('A' ≤ c && c ≤ 'Z') || c == '_'

def isDigit (c : Char) : Bool := '0' ≤ c && c ≤ '9'

def isNameChar (c : Char) : Bool := isLetter c || isDigit c || c == '.'

def letter : Parser Char := oneOf "['a'..='z' | 'A'..='Z' | '_']" isLetter

def nameChars : Parser (List Char) :=
  manyOf "['a'..='z' | 'A'..='Z' | '0'..='9' | '_' | '.']" isNameChar

def digit : Parser Char := oneOf "['0'..='9']" isDigit

def digits : Parser (List Char) := manyOf "['0'..='9']" isDigit

def endOfWord : Parser Unit := notBefore (oneOf "a character of a name" isNameChar)

def trueWord : Parser Unit := do
  symbol "true" <|> symbol "TRUE"
  endOfWord

def falseWord : Parser Unit := do
  symbol "false" <|> symbol "FALSE"
  endOfWord

def name : Parser String :=
  (do
    notBefore (trueWord <|> falseWord)
    let c ← letter
    let cs ← nameChars
    pure (String.ofList (c :: cs))) <|> expected "variable"

def toInt32? (negative : Bool) (ds : List Char) : Option Int32 :=
  let n : Nat := ds.foldl (fun n c => n * 10 + (c.toNat - '0'.toNat)) 0
  if negative then
    if n ≤ 0x80000000 then some (Int32.ofInt (-n)) else none
  else if n < 0x80000000 then some (Int32.ofNat n) else none

def int : Parser Int32 := do
  let sign ← optional (symbol "-")
  let d ← digit
  let ds ← digits
  convert "32 bit integer" (toInt32? sign.isSome) (d :: ds)

def constant : Parser Value :=
  (do trueWord; pure (.bool true)) <|>
  (do falseWord; pure (.bool false)) <|>
  (do
    let n ← int
    pure (.int n))

def term : Parser Term :=
  (do
    let v ← constant
    pure (.value v)) <|>
  (do
    let n ← name
    pure (.named n))

def comparison (sign : String) (build : Term → Term → Predicate) : Parser Predicate := do
  let x ← term
  blanks
  symbol sign
  blanks
  let y ← term
  pure (build x y)

def atom (expr : Parser Predicate) : Parser Predicate :=
  comparison "==" eq <|>
  comparison "!=" ne <|>
  (do trueWord; pure top) <|>
  (do falseWord; pure bot) <|>
  (do
    let n ← name
    pure (isTrue n)) <|>
  (do
    symbol "("
    blanks
    let p ← expr
    blanks
    symbol ")"
    pure p)

def tight : Nat := 4

def operand (expr : Nat → Parser Predicate) : Parser Predicate :=
  (do
    symbol "!"
    blanks
    let p ← expr tight
    pure (neg p)) <|> atom (expr 0)

def between (sign : String) : Parser Unit := do
  blanks
  symbol sign
  blanks

def grammar : Precedence Predicate where
  operand := operand
  binaries :=
    [.rightToLeft 0 (between "->") fun p q => disj [neg p, q],
     .leftToRight 1 (between "||") fun p q => disj [p, q],
     .leftToRight 2 (between "&&") fun p q => conj [p, q]]

def whole : Parser Predicate := do
  blanks
  let p ← grammar.parser
  blanks
  pure p

def parse (text : String) : Except SyntaxError Predicate := whole.parse text

end Predicate

def Term.parse (text : String) : Except Grammar.SyntaxError Term := Predicate.term.parse text

namespace Action

open Grammar Grammar.Parser Predicate

def target : Parser String := do
  blanks
  let n ← name
  blanks
  symbol ":="
  blanks
  pure n

def continues (c : Char) : Bool := c == '=' || c == '!' || c == '&' || c == '|' || c == '-'

def whole : Parser Action :=
  (do
    let n ← target
    symbol "?"
    blanks
    pure { var := n, value := .any }) <|>
  (do
    let n ← target
    let t ← term
    blanks
    notBefore (oneOf "a sign" continues)
    pure { var := n, value := .value t }) <|>
  (do
    let n ← target
    let p ← grammar.parser
    blanks
    pure { var := n, value := .predicate p })

def parse (text : String) : Except SyntaxError Action := whole.parse text

end Action

end TemporalCheck
