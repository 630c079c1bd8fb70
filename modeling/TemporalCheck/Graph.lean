import TemporalCheck.Program
import TemporalCheck.StateTable

namespace TemporalCheck

structure Graph where
  initial : UInt32
  edges : List (UInt32 × UInt32) := []
  ample : List (UInt32 × List UInt32) := []
  labels : List (UInt32 × String) := []
  constructs : List Construct := []
  options : ProgramOptions := {}
  disposals : Nat := 0

instance : HasDigest UInt32 where
  digest n := { key := littleEndian n }

instance instLawfulBEqLabel : LawfulBEq (UInt32 × String) := inferInstance

namespace Graph

def addEdge (g : Graph) (source target : UInt32) : Graph :=
  { g with edges := g.edges ++ [(source, target)] }

def addLabel (g : Graph) (node : UInt32) (p : String) : Graph :=
  { g with labels := g.labels ++ [(node, p)] }

/-- Offers a set of successors that may stand for all; a later offer replaces an earlier one. -/
def addAmple (g : Graph) (node : UInt32) (targets : List UInt32) : Graph :=
  { g with ample := (node, targets) :: g.ample }

def addConstruct (g : Graph) (c : Construct) : Graph := { g with constructs := g.constructs ++ [c] }

def successorsOf (g : Graph) (node : UInt32) : List UInt32 :=
  (g.edges.filter (·.1 = node)).map (·.2)

def ampleOf (g : Graph) (node : UInt32) : Option (List UInt32) := g.ample.lookup node

def program (labels : List (UInt32 × String)) : Program Graph UInt32 where
  configure options := Task.change fun g => { g with options := options }
  initial := return (← Task.read).initial
  successors node := return (← Task.read).successorsOf node
  ample node := return (← Task.read).ampleOf node
  holds node p := return (node, p) ∈ labels
  constructs := constructs
  dispose := Task.change fun g => { g with disposals := g.disposals + 1 }
  describe node := "Node(" ++ toString node.toNat ++ ")"

end Graph

end TemporalCheck
