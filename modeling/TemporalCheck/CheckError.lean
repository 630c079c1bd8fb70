import TemporalCheck.Grammar.Parser

namespace TemporalCheck

inductive CheckError where
  | badProperty (reason : String)
  | evaluation (reason : String)
  | programStep (reason : String)
  | badDirectives (reason : String)
  | cancelled
  | other (reason : String)
deriving DecidableEq

namespace CheckError

def message : CheckError → String
  | badProperty reason => "syntax error in property: " ++ reason
  | evaluation reason => "evaluation failed: " ++ reason
  | programStep reason => "program step failed: " ++ reason
  | badDirectives reason => "bad directives: " ++ reason
  | cancelled => "the run was cancelled"
  | other reason => "Oh No: " ++ reason

def endsRun : CheckError → Bool
  | evaluation _ => true
  | programStep _ => true
  | _ => false

def ofSyntax (e : Grammar.SyntaxError) (text : String) : CheckError :=
  badProperty (e.message ++ " in `" ++ text ++ "`")

end CheckError

/-- What stops a call: an error, or a crash with the text it left, if any. -/
inductive Fault where
  | error (e : CheckError)
  | crash (text : Option String)
deriving DecidableEq

end TemporalCheck
