import Std.Data.TreeMap
import TemporalCheck.Digest

namespace TemporalCheck

/-- The rows of a table are its states with what is noted at them. The index knows the first state
of each bucket, the overflow the other ones in order, and these count as collisions. -/
structure StateTable (S I : Type) where
  states : Array S := #[]
  info : Array I := #[]
  index : Std.TreeMap UInt64 Nat := ∅
  overflow : Std.TreeMap UInt64 (Array Nat) := ∅
  collisions : Nat := 0
  size_info : info.size = states.size := by rfl

namespace StateTable

variable {S I : Type}

def empty : StateTable S I := {}

instance : Inhabited (StateTable S I) := ⟨empty⟩

def size (t : StateTable S I) : Nat := t.states.size

def get? (t : StateTable S I) (id : Nat) : Option S := t.states[id]?

def info? (t : StateTable S I) (id : Nat) : Option I := t.info[id]?

def modifyInfo (t : StateTable S I) (id : Nat) (f : I → I) : StateTable S I :=
  { t with
    info := t.info.modify id f
    size_info := by rw [Array.size_modify, t.size_info] }

def clear (t : StateTable S I) : StateTable S I :=
  { t with
    states := #[], info := #[], index := ∅, overflow := ∅, collisions := 0, size_info := rfl }

def toList (t : StateTable S I) : List (S × I) := t.states.toList.zip t.info.toList

section

variable [DecidableEq S] [HasDigest S]

def bucket (s : S) : UInt64 := (HasDigest.digest s).bucket

def findIn (t : StateTable S I) (b : UInt64) (s : S) : Option Nat :=
  t.index[b]?.bind fun first =>
    if t.get? first = some s then some first
    else t.overflow[b]?.bind fun others => others.find? fun id => t.get? id = some s

def lookup (t : StateTable S I) (s : S) : Option Nat := t.findIn (bucket s) s

def contains (t : StateTable S I) (s : S) : Bool := (t.lookup s).isSome

def appendRow [Inhabited I] (t : StateTable S I) (s : S) : StateTable S I :=
  { t with
    states := t.states.push s
    info := t.info.push default
    size_info := by rw [Array.size_push, Array.size_push, t.size_info] }

def indexRow (t : StateTable S I) (b : UInt64) (id : Nat) : StateTable S I :=
  match t.index[b]? with
  | none => { t with index := t.index.insert b id }
  | some _ =>
    { t with
      overflow := t.overflow.insert b (((t.overflow[b]?).getD #[]).push id)
      collisions := t.collisions + 1 }

/-- Stores a state with `default` noted, unless it is there. Next to its number stands whether it
is new. -/
def add [Inhabited I] (t : StateTable S I) (s : S) : (Nat × Bool) × StateTable S I :=
  match t.lookup s with
  | some id => ((id, false), t)
  | none => ((t.size, true), (t.appendRow s).indexRow (bucket s) t.size)

def insert [Inhabited I] (t : StateTable S I) (s : S) : Nat × StateTable S I :=
  let ((id, _), t) := t.add s
  (id, t)

def insertAll [Inhabited I] (t : StateTable S I) : List S → List Nat × StateTable S I
  | [] => ([], t)
  | s :: rest =>
    let (id, t) := t.insert s
    let (ids, t) := t.insertAll rest
    (id :: ids, t)

end

end StateTable

end TemporalCheck
