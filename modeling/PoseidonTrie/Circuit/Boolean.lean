import PoseidonTrie.Circuit.System

namespace PoseidonTrie.Circuit

variable {f : PrimeField}

def ofBool (f : PrimeField) (b : Bool) : Element f :=
  if b then 1 else 0

/-- An allocated bit. It keeps the value it was given, whatever the system. -/
structure Bit where
  index : Nat
  value : Option Bool

namespace Bit

def lc (b : Bit) : LinComb f :=
  .ofAux b.index

def complement (b : Bit) : LinComb f :=
  [(.one, 1), (.aux b.index, -1)]

def alloc (ns : Path) (value : Option Bool) : Synth f Bit := do
  let (index, _) ← Circuit.alloc (.boolean :: ns) value (ofBool f)
  enforce (.booleanConstraint :: ns) [(.one, 1), (.aux index, -1)] (.ofAux index) []
  return ⟨index, value⟩

/-- A bit that must be zero if `guard` is one. -/
def allocUnless (ns : Path) (value : Option Bool) (guard : Bit) : Synth f Bit := do
  let (index, _) ← Circuit.alloc (.boolean :: ns) value (ofBool f)
  enforce (.booleanConstraint :: ns) [(.one, 1), (.aux guard.index, -1), (.aux index, -1)]
    (.ofAux index) []
  return ⟨index, value⟩

/-- The product of two combinations of bits, whose value is known once both are. -/
def product (result constraint : Path) (value : Option Bool) (a b : LinComb f) : Synth f Bit := do
  let (index, value) ← Circuit.alloc result value (ofBool f)
  enforce constraint a b (.ofAux index)
  return ⟨index, value⟩

def and (ns : Path) (a b : Bit) : Synth f Bit :=
  product (.andResult :: ns) (.andConstraint :: ns)
    (do return (← a.value) && (← b.value)) a.lc b.lc

def andNot (ns : Path) (a b : Bit) : Synth f Bit :=
  product (.andNotResult :: ns) (.andNotConstraint :: ns)
    (do return (← a.value) && !(← b.value)) a.lc b.complement

def nor (ns : Path) (a b : Bit) : Synth f Bit :=
  product (.norResult :: ns) (.norConstraint :: ns)
    (do return !(← a.value) && !(← b.value)) a.complement b.complement

/-- Joins bits to one, from left to right. The first of them is element `k`. -/
def andFrom (ns : Path) (k : Nat) : (joined : Bit) → (rest : List Bit) → Synth f Bit
  | joined, [] => return joined
  | joined, b :: rest => do
    let joined ← and (← enter ns (.andWith k)) joined b
    andFrom ns (k + 1) joined rest

def andAll (ns : Path) (first : Bit) (rest : List Bit) : Synth f Bit :=
  andFrom ns 1 first rest

end Bit

/-- A bit, the complement of one, or a constant. -/
inductive Boolean where
  | is (b : Bit)
  | not (b : Bit)
  | constant (b : Bool)

namespace Boolean

def value : Boolean → Option Bool
  | is b => b.value
  | not b => b.value.map (!·)
  | constant b => some b

def negate : Boolean → Boolean
  | is b => not b
  | not b => is b
  | constant b => constant (!b)

/-- The Boolean as a number, times `k`. -/
def lc (k : Element f) : Boolean → LinComb f
  | constant true => [(.one, k)]
  | constant false => []
  | is b => [(.aux b.index, k)]
  | not b => [(.one, k), (.aux b.index, -k)]

/-- Constants cost nothing. -/
def and (ns : Path) : Boolean → Boolean → Synth f Boolean
  | constant false, _ | _, constant false => return constant false
  | constant true, b => return b
  | a, constant true => return a
  | is a, not b => return is (← Bit.andNot ns a b)
  | not a, is b => return is (← Bit.andNot ns b a)
  | not a, not b => return is (← Bit.nor ns a b)
  | is a, is b => return is (← Bit.and ns a b)

end Boolean

end PoseidonTrie.Circuit
