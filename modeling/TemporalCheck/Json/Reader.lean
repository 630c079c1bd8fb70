import TemporalCheck.Json.Numeral
import TemporalCheck.Json.Quoted

namespace TemporalCheck.Json

def skipBlanks : List Char → List Char :=
  List.dropWhile fun c => c == ' ' || c == '\t' || c == '\n' || c == '\r'

mutual

def value? : Nat → Nat → List Char → Option (Json × List Char)
  | 0, _, _ => none
  | fuel + 1, depth, cs =>
    match skipBlanks cs with
    | 'n' :: 'u' :: 'l' :: 'l' :: rest => some (null, rest)
    | 't' :: 'r' :: 'u' :: 'e' :: rest => some (bool true, rest)
    | 'f' :: 'a' :: 'l' :: 's' :: 'e' :: rest => some (bool false, rest)
    | '"' :: rest => (string? rest).map fun
      | (.ok s, rest) => (str s, rest)
      | (.error flaw, rest) => (flawed flaw, rest)
    | '[' :: rest =>
      let array (vs : List Json) : Json := if depth = 0 then buried false else arr vs
      match skipBlanks rest with
      | ']' :: rest => some (array [], rest)
      | rest => (items? fuel (depth - 1) rest).map fun (vs, rest) => (array vs, rest)
    | '\x7b' :: rest =>
      let object (ms : List (String × Json)) (flaw : Option Flaw) : Json :=
        if depth = 0 then buried true
        else match flaw with
          | none => obj ms
          | some flaw => cut ms flaw
      match skipBlanks rest with
      | '\x7d' :: rest => some (object [] none, rest)
      | rest => (members? fuel (depth - 1) rest).map fun (ms, flaw, rest) => (object ms flaw, rest)
    | rest => (numeral? rest).map fun (x, rest) => (x.value, rest)

def items? : Nat → Nat → List Char → Option (List Json × List Char)
  | 0, _, _ => none
  | fuel + 1, depth, cs => do
    let (v, rest) ← value? fuel depth cs
    match skipBlanks rest with
    | ',' :: rest => (items? fuel depth rest).map fun (vs, rest) => (v :: vs, rest)
    | ']' :: rest => some ([v], rest)
    | _ => none

/-- The members of an object up to its closing brace. If a key has a flaw, only those before it and
the flaw. -/
def members? : Nat → Nat → List Char → Option (List (String × Json) × Option Flaw × List Char)
  | 0, _, _ => none
  | fuel + 1, depth, cs =>
    match skipBlanks cs with
    | '"' :: rest => do
      let (key, rest) ← string? rest
      match skipBlanks rest with
      | ':' :: rest => do
        let (v, rest) ← value? fuel depth rest
        let (ms, flaw, rest) ← match skipBlanks rest with
          | ',' :: rest => members? fuel depth rest
          | '\x7d' :: rest => some ([], none, rest)
          | _ => none
        match key with
        | .ok key => some ((key, v) :: ms, flaw, rest)
        | .error flaw => some ([], some flaw, rest)
      | _ => none
    | _ => none

end

/-- Reads a whole text in which arrays and objects may nest 127 deep, `none` if it breaks the
grammar. -/
def parse? (text : String) : Option Json :=
  let cs := text.toList
  match value? (2 * cs.length + 2) 127 cs with
  | some (v, rest) => if (skipBlanks rest).isEmpty then some v else none
  | none => none

end TemporalCheck.Json
