import TemporalCheck.OrderedSet
import TemporalCheck.Text

/-!
Parsers with ordered choice. A parser answers with its result and, apart from it, with the
furthest place at which some symbol was missing and the names of all symbols missing there.
The result never depends on what was missing.
-/

namespace TemporalCheck.Grammar

structure Cursor where
  offset : Nat
  rest : List Char
deriving DecidableEq

/-- The names of the symbols missing at the furthest place. -/
structure Missing where
  offset : Nat
  names : OrderedSet String

namespace Missing

def none : Missing := ⟨0, ∅⟩

def join (a b : Missing) : Missing :=
  if a.offset < b.offset then b
  else if b.offset < a.offset then a
  else ⟨a.offset, a.names.union b.names⟩

def describe (m : Missing) : String :=
  match m.names.toList with
  | [] => "<unreported>"
  | [name] => name
  | names => "one of " ++ joinWith ", " names

end Missing

structure Reply (α : Type) where
  result : Option (α × Cursor)
  missing : Missing

def Parser (α : Type) := Cursor → Reply α

namespace Parser

variable {α β : Type}

protected def pure (a : α) : Parser α := fun c => ⟨some (a, c), .none⟩

protected def bind (p : Parser α) (f : α → Parser β) : Parser β := fun c =>
  match p c with
  | ⟨none, m⟩ => ⟨none, m⟩
  | ⟨some (a, c'), m⟩ =>
    let r := f a c'
    ⟨r.result, m.join r.missing⟩

instance : Monad Parser where
  pure := Parser.pure
  bind := Parser.bind

def fail : Parser α := fun _ => ⟨none, .none⟩

protected def orElse (p q : Parser α) : Parser α := fun c =>
  match p c with
  | ⟨some r, m⟩ => ⟨some r, m⟩
  | ⟨none, m⟩ =>
    let r := q c
    ⟨r.result, m.join r.missing⟩

instance : OrElse (Parser α) := ⟨fun p q => p.orElse (q ())⟩

def expected (name : String) : Parser α := fun c => ⟨none, ⟨c.offset, .ofList [name]⟩⟩

def quiet (p : Parser α) : Parser α := fun c => ⟨(p c).result, .none⟩

def notBefore (p : Parser α) : Parser Unit := fun c =>
  match (p c).result with
  | some _ => ⟨none, .none⟩
  | none => ⟨some ((), c), .none⟩

def afterWord? : List Char → List Char → Option (List Char)
  | [], rest => some rest
  | _ :: _, [] => none
  | w :: ws, c :: cs => if w = c then afterWord? ws cs else none

def symbol (s : String) : Parser Unit := fun c =>
  match afterWord? s.toList c.rest with
  | some rest => ⟨some ((), ⟨c.offset + s.toList.length, rest⟩), .none⟩
  | none => ⟨none, ⟨c.offset, .ofList ["\"" ++ s ++ "\""]⟩⟩

def oneOf (name : String) (p : Char → Bool) : Parser Char := fun c =>
  match c.rest with
  | x :: rest =>
    if p x then ⟨some (x, ⟨c.offset + 1, rest⟩), .none⟩ else ⟨none, ⟨c.offset, .ofList [name]⟩⟩
  | [] => ⟨none, ⟨c.offset, .ofList [name]⟩⟩

def manyOf (name : String) (p : Char → Bool) : Parser (List Char) := fun c =>
  let word := c.rest.takeWhile p
  ⟨some (word, ⟨c.offset + word.length, c.rest.dropWhile p⟩),
    ⟨c.offset + word.length, .ofList [name]⟩⟩

def optional (p : Parser α) : Parser (Option α) := fun c =>
  match p c with
  | ⟨some (a, c'), m⟩ => ⟨some (some a, c'), m⟩
  | ⟨none, m⟩ => ⟨some (none, c), m⟩

def convert (name : String) (f : α → Option β) (a : α) : Parser β :=
  match f a with
  | some b => pure b
  | none => expected name

def isBlank (c : Char) : Bool := c == ' ' || c == '\t' || c == '\n' || c == '\r'

def blanks : Parser Unit := fun c =>
  ⟨some ((), ⟨c.offset + (c.rest.takeWhile isBlank).length, c.rest.dropWhile isBlank⟩), .none⟩

end Parser

/-- What was missing where a text could not be read on. Lines and columns count from one. -/
structure SyntaxError where
  line : Nat
  column : Nat
  expected : String
deriving DecidableEq

namespace SyntaxError

def message (e : SyntaxError) : String :=
  "error at " ++ toString e.line ++ ":" ++ toString e.column ++ ": expected " ++ e.expected

def ofMissing (text : List Char) (m : Missing) : SyntaxError :=
  let before := text.take m.offset
  { line := before.count '\n' + 1
    column := (before.reverse.takeWhile (· != '\n')).length + 1
    expected := m.describe }

end SyntaxError

def Parser.parse {α : Type} (p : Parser α) (text : String) : Except SyntaxError α :=
  let cs := text.toList
  let r := p ⟨0, cs⟩
  match r.result with
  | some (a, ⟨_, []⟩) => .ok a
  | some (_, ⟨offset, _ :: _⟩) => .error (.ofMissing cs (r.missing.join ⟨offset, .ofList ["EOF"]⟩))
  | none => .error (.ofMissing cs r.missing)

end TemporalCheck.Grammar
