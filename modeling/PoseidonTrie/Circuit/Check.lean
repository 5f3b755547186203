import PoseidonTrie.Circuit.System

namespace PoseidonTrie.Circuit

variable {f : PrimeField}

namespace Constraint

def path : Constraint f → Path
  | product path _ _ _ => path
  | hash path _ _ _ => path

/-- The rank-one constraints that this one stands for. -/
def size : Constraint f → Nat
  | product .. => 1
  | hash _ a _ _ => hashInternals a + 1

/-- Whether the product equation is broken. A hash block computes its own output and holds. -/
def isBroken (w : Assignment f) : Constraint f → Bool
  | product _ a b c => a.eval w * b.eval w ≠ c.eval w
  | hash .. => false

end Constraint

namespace System

def auxCount (s : System f) : Nat :=
  s.auxes.size + s.internals

def constraintCount (s : System f) : Nat :=
  s.constraints.foldl (fun n c => n + c.size) 0

/-- The first constraint that the computed values break. -/
def unsatisfied? (s : System f) : Option Path :=
  (s.constraints.find? (·.isBroken s.assignment)).map (·.path)

end System

end PoseidonTrie.Circuit
