import PoseidonTrie.Circuit.Choice
import PoseidonTrie.Circuit.Decompose
import PoseidonTrie.Circuit.Report

namespace PoseidonTrie.Circuit

variable {f : PrimeField}

/-- A Boolean to be set up. The value of an allocated one may be unknown. -/
inductive BooleanOperand where
  | is (value : Option Bool)
  | not (value : Option Bool)
  | constant (value : Bool)

/-- The bit behind a negated Boolean holds the complement of its value. -/
def BooleanOperand.setUp (ns : Path) : BooleanOperand → Synth f Boolean
  | is value => .is <$> Bit.alloc ns value
  | not value => .not <$> Bit.alloc ns (value.map (!·))
  | constant value => return .constant value

inductive Gadget where
  | equal
  | pick
  | select
  | nonzero
  | bits (n : Nat)
  | selectors
  | hash (arity : Arity)

inductive Outcome (f : PrimeField) where
  | nothing
  | number (value : Option (Element f))
  | booleans (values : List Boolean)
  | digest (arity : Arity) (value : Option (Element f))

/-- Synthesizes a gadget over operands, or nothing if they are too few. A gadget of so many
operands takes the first. -/
def Gadget.synthesize? (H : Hasher f) (g : Gadget) (nums : List (Num f)) (booleans : List Boolean) :
    Option (Synth f (Outcome f)) :=
  match g, nums, booleans with
  | equal, a :: b :: _, _ => some do
    Circuit.equal [.equal] a b
    return .nothing
  | pick, a :: b :: _, condition :: _ => some do
    return .number (← Circuit.pick (← enter [] .pick) condition a b).value
  | select, _, _ => some do
    return .number (← Circuit.select (← enter [] .select) nums booleans).value
  | nonzero, x :: _, _ => some do
    Circuit.nonzero (← enter [] .nonzero) x
    return .nothing
  | bits n, x :: _, _ => some do
    return .booleans (← Circuit.numBits (← enter [] .bits) x n)
  | selectors, _, _ => some do
    return .booleans (← Circuit.selectors (← enter [] .selectors) booleans)
  | hash a, _, _ => some do
    return .digest a (← Circuit.hashNode H (← enter [] .hash) a nums).value
  | _, _, _ => none

def setUpOperands (nums : List (Option (Element f))) (booleans : List BooleanOperand) :
    Synth f (List (Num f) × List Boolean) := do
  let nums ← nums.zipIdx.mapM fun (x, i) => do Num.alloc (← enter [] (.operand i)) x
  let booleans ← booleans.zipIdx.mapM fun (b, i) => do b.setUp (← enter [] (.operandBit i))
  return (nums, booleans)

/-- Allocates the operands in a fresh system, then synthesizes the gadget. Nothing comes of operands
that are too few, or of a synthesis that returns no error either. -/
def Gadget.try? (H : Hasher f) (g : Gadget) (kind : Kind) (nums : List (Option (Element f)))
    (booleans : List BooleanOperand) : Option (Except SynthesisError (Outcome f × System f)) :=
  match setUpOperands nums booleans (.empty kind) with
  | .error stop => stop.error.map .error
  | .ok ((nums, booleans), system) => do
    match (← g.synthesize? H nums booleans) system with
    | .error stop => stop.error.map .error
    | .ok r => some (.ok r)

end PoseidonTrie.Circuit
