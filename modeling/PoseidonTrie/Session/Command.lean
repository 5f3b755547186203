import PoseidonTrie.Circuit.Report
import PoseidonTrie.Fold.Run

namespace PoseidonTrie

open Circuit

/-- An element, given or looked up by name. -/
inductive Operand (f : PrimeField) where
  | literal (x : Element f)
  | rootOf (trie : String)
  | emptyRootOf (trie : String)
  | variable (name : String)

/-- The nodes on a path, given or from a stored proof. -/
inductive PathOperand (f : PrimeField) where
  | missing
  | rows (rows : List (List (Operand f)))
  | proof (name : String)

/-- A circuit to synthesize, and whether to list it. -/
structure Setup where
  kind : Kind
  dump : Bool

/-- The operands of a path circuit. Children are replaced first, then rows are dropped. -/
structure PathSetup (f : PrimeField) where
  arity : Nat
  height : Nat
  root : Operand f
  key : Operand f
  path : PathOperand f
  edits : List (Nat × Nat × Operand f)
  take : Option Nat

inductive Command (f : PrimeField) where
  | create (trie : String) (arity : Nat) (extent : Extent)
  | info (trie : String)
  | rowSize (trie : String) (row : Nat)
  | withRoot (trie : String) (root : Operand f)
  | drop (trie : String)
  | assign (name : String) (value : Operand f)
  | lookup (trie : String) (key : Operand f)
  | insert (trie : String) (key value : Operand f)
  | proveLookup (trie : String) (key : Operand f) (name : String)
  | proveInsert (trie : String) (key value : Operand f) (name : String)
  | payload (proof : String) (key : Operand f)
  | recomputeRoot (proof : String) (key : Operand f) (fresh : Bool)
  | verify (proof : String) (root key value : Operand f) (fresh : Bool)
  | verifyInsert (proof : String) (oldRoot newRoot key : Operand f) (old : Option (Operand f))
      (new : Operand f) (fresh : Bool)
  | hash (preimage : List (Operand f)) (name : Option String)
  | register (digest : Operand f) (preimage : List (Operand f))
  | invert (digest : Operand f) (arity : Nat)
  | counts
  | synthesizeLookup (trie : String) (root key : Operand f) (setup : Setup)
  | synthesizeInsert (trie : String) (root key value : Operand f) (setup : Setup)
  | lookupPath (operands : PathSetup f) (setup : Setup)
  | insertPath (operands : PathSetup f) (value : Operand f) (setup : Setup)
  | fold (trie : String) (name : String) (pairs : List (Operand f × Operand f)) (batch : Nat)
      (byProver : Bool)
  | blank (name : String) (arity height slots : Nat)
  | dryRun (steps : String) (picked : List Nat) (start : Operand f)
  | synthesizeStep (steps : String) (index : Nat) (state : List (Operand f)) (setup : Setup)

/-- A step without its arity: nodes are rows. -/
structure StepRecord (f : PrimeField) where
  height : Nat
  stateSize : Nat
  oldRoot : Option (Element f)
  newRoot : Option (Element f)
  slots : List (Option (Element f) × Option (Element f) × Option (List (List (Element f)))
    × Option Bool)

def StepRecord.ofStep {f : PrimeField} {n : Nat} (s : Step f n) : StepRecord f :=
  ⟨s.height, s.stateSize, s.oldRoot, s.newRoot, s.slots.map fun slot =>
    (slot.key, slot.value, slot.path.map (·.map (·.toList)), slot.active)⟩

/-- What the outputs of a circuit are. -/
inductive Output (f : PrimeField) where
  | number (value : Option (Element f))
  | numbers (values : List (Option (Element f)))
  | path (leaf : Option (Element f)) (digits : List (List (Option Bool)))
      (nodes : List (List (Option (Element f))))

inductive Reply (f : PrimeField) where
  | flag (b : Bool)
  | size (n : Nat)
  | element (x : Option (Element f))
  | row (xs : Option (List (Element f)))
  | info (height leaves : Nat) (root emptyRoot : Element f)
  | counts (digests preimages : Nat)
  | inserted (changed : Bool) (root : Element f)
  | lookupProof (rows : List (List (Element f)))
  | insertProof (changed : Bool) (root : Element f) (old new : List (List (Element f)))
  | folded (root : Element f) (steps : List (StepRecord f))
  | steps (steps : List (StepRecord f))
  | circuit (output : Output f) (report : Report f)

/-- Why a command is refused. A malformed one names what does not exist. -/
inductive Failure (f : PrimeField) where
  | trie (cause : TrieError f)
  | synthesis (cause : SynthesisError)
  | fold (cause : FoldError f)
  | malformed

end PoseidonTrie
