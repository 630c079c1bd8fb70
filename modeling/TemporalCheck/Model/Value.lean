import TemporalCheck.Digest
import TemporalCheck.OrderedSet
import TemporalCheck.Text

namespace TemporalCheck

inductive Value where
  | bool (b : Bool)
  | int (n : Int32)
deriving DecidableEq

namespace Value

instance : Inhabited Value := ⟨bool false⟩

protected def compare : Value → Value → Ordering
  | bool a, bool b => Ord.compare a b
  | bool _, int _ => .lt
  | int _, bool _ => .gt
  | int m, int n => Ord.compare m n

instance : Ord Value := ⟨Value.compare⟩

instance : Std.TransOrd Value where
  eq_swap {a b} := by
    cases a <;> cases b
    · exact @Std.OrientedCmp.eq_swap Bool compare _ _ _
    · rfl
    · rfl
    · exact @Std.OrientedCmp.eq_swap Int32 compare _ _ _
  isLE_trans {a b c} hab hbc := by
    cases a <;> cases b <;> cases c <;> try contradiction
    · exact @Std.TransCmp.isLE_trans Bool compare _ _ _ _ hab hbc
    · rfl
    · rfl
    · exact @Std.TransCmp.isLE_trans Int32 compare _ _ _ _ hab hbc

instance : Std.LawfulEqOrd Value where
  compare_self {a} := by
    cases a
    · exact @Std.ReflCmp.compare_self Bool compare _ _
    · exact @Std.ReflCmp.compare_self Int32 compare _ _
  eq_of_compare {a b} h := by
    cases a <;> cases b <;> try contradiction
    · exact congrArg bool (@Std.LawfulEqCmp.eq_of_compare Bool compare _ _ _ h)
    · exact congrArg int (@Std.LawfulEqCmp.eq_of_compare Int32 compare _ _ _ h)

def text : Value → String
  | bool b => if b then "true" else "false"
  | int n => toString n.toInt

def describe : Value → String
  | bool b => "Bool(" ++ (bool b).text ++ ")"
  | int n => "Int(" ++ (int n).text ++ ")"

def bytes : Value → List UInt8
  | bool b => [0, if b then 1 else 0]
  | int n => 1 :: littleEndian n.toUInt32

end Value

abbrev ModelState := List Value

namespace ModelState

def text (s : ModelState) : String := "[" ++ joinWith ", " (s.map Value.text) ++ "]"

def describe (s : ModelState) : String :=
  "ModelState([" ++ joinWith ", " (s.map Value.describe) ++ "])"

instance : HasDigest ModelState where
  digest s := { key := s.flatMap Value.bytes }

end ModelState

structure Variable where
  name : String
  domain : List Value
  initial : Value
deriving DecidableEq

namespace Variable

def boolean (name : String) (initial : Bool) : Variable :=
  ⟨name, [.bool false, .bool true], .bool initial⟩

def integer (name : String) (low high initial : Int32) : Variable :=
  let values := (List.range (high.toInt - low.toInt + 1).toNat).map fun (k : Nat) =>
    Value.int (Int32.ofInt (low.toInt + k))
  ⟨name, values, .int initial⟩

end Variable

end TemporalCheck
