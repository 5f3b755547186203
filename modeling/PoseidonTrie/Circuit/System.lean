import PoseidonTrie.Circuit.Label
import PoseidonTrie.Poseidon.Hash

/-! Rank-one constraint systems and their synthesis. -/
namespace PoseidonTrie.Circuit

variable {f : PrimeField} {α : Type}

/-- The constant one, or an auxiliary variable by its place in the order of allocation. -/
inductive Var where
  | one
  | aux (i : Nat)
deriving DecidableEq

/-- Values of the auxiliary variables. -/
abbrev Assignment (f : PrimeField) := Nat → Element f

def Var.eval (w : Assignment f) : Var → Element f
  | one => 1
  | aux i => w i

/-- A sum of variables with coefficients. -/
abbrev LinComb (f : PrimeField) := List (Var × Element f)

def LinComb.eval (w : Assignment f) (l : LinComb f) : Element f :=
  l.foldr (fun (v, k) rest => k * v.eval w + rest) 0

def LinComb.ofAux (i : Nat) : LinComb f :=
  [(.aux i, 1)]

/-- A product equation, or a block that makes one variable the hash of others. -/
inductive Constraint (f : PrimeField) where
  | product (path : Path) (a b c : LinComb f)
  | hash (path : Path) (arity : Arity) (inputs : List Nat) (output : Nat)

/-- Whether an assignment satisfies a constraint. -/
def Constraint.Holds (H : Hasher f) (w : Assignment f) : Constraint f → Prop
  | product _ a b c => a.eval w * b.eval w = c.eval w
  | hash _ arity inputs output =>
    ∃ node, Node.ofRow? arity.width (inputs.map w) = some node ∧ w output = H arity node

/-- The variables that a hash block keeps to itself: three for each fifth power. -/
def hashInternals (a : Arity) : Nat :=
  let t := a.width + 1
  3 * (Poseidon.fullRounds * t + Poseidon.partialRounds t)

/-- Test systems compute every value and record every constraint. Shapes compute no value.
Witnesses record nothing but values. -/
inductive Kind where
  | test
  | shape
  | witness
deriving DecidableEq

structure System (f : PrimeField) where
  kind : Kind
  /-- Auxiliary variables in order, those inside hash blocks left out. -/
  auxes : Array (Path × Option (Element f))
  /-- The number of variables left out. -/
  internals : Nat
  constraints : Array (Constraint f)
  /-- Every name taken by a namespace, a variable or a constraint, the latest first. -/
  names : List Path

inductive SynthesisError where
  | assignmentMissing
  | unsatisfiable
deriving DecidableEq

def SynthesisError.message : SynthesisError → String
  | assignmentMissing => "an assignment for a variable could not be computed"
  | unsatisfiable => "unsatisfiable constraint system"

namespace System

def empty (kind : Kind) : System f :=
  ⟨kind, #[], 0, #[], []⟩

/-- The values computed so far. -/
def assignment (s : System f) : Assignment f := fun i =>
  match s.auxes[i]? with
  | some (_, some x) => x
  | _ => 0

def name (s : System f) (path : Path) : System f :=
  if s.kind = .witness then s else { s with names := path :: s.names }

def addVariable (s : System f) (path : Path) (value : Option (Element f)) : System f :=
  { s.name path with auxes := s.auxes.push (path, value) }

def addConstraint (s : System f) (c : Constraint f) : System f :=
  if s.kind = .witness then s else { s with constraints := s.constraints.push c }

end System

/-- Where a synthesis stopped. What it added until then stays in the system. -/
structure Stop (f : PrimeField) where
  /-- None if no error is returned either. -/
  error : Option SynthesisError
  system : System f

/-- What is reported of a stop. Nothing but a selection by as many bits as a word has stops without
an error, and no path circuit makes one. -/
def Stop.reported (stop : Stop f) : SynthesisError :=
  stop.error.getD .unsatisfiable

/-- Synthesis extends a system, or stops on the way. -/
abbrev Synth (f : PrimeField) := StateT (System f) (Except (Stop f))

def fail (e : SynthesisError) : Synth f α := fun s =>
  .error ⟨some e, s⟩

/-- Stops without an error, as taking an element that is not there does. -/
def crash : Synth f α := fun s =>
  .error ⟨none, s⟩

/-- What is known, or the error it was refused with. -/
def ofExcept : Except SynthesisError α → Synth f α
  | .ok x => pure x
  | .error e => fail e

theorem ofExcept_ok (x : α) : (ofExcept (.ok x) : Synth f α) = pure x := rfl

/-- The error that a synthesis returns, if it does. -/
def errorOf (x : Synth f α) (s : System f) : Option SynthesisError :=
  match x s with
  | .ok _ => none
  | .error stop => stop.error

def enter (ns : Path) (l : Label) : Synth f Path := fun s =>
  .ok (l :: ns, s.name (l :: ns))

/-- Allocates a variable for a value. A shape never looks at the value and yields none. -/
def alloc (path : Path) (value : Option α) (embed : α → Element f) : Synth f (Nat × Option α) :=
  fun s =>
    if s.kind = .shape then
      .ok ((s.auxes.size, none), s.addVariable path none)
    else
      match value with
      | none => fail .assignmentMissing s
      | some x => .ok ((s.auxes.size, some x), s.addVariable path (some (embed x)))

def enforce (path : Path) (a b c : LinComb f) : Synth f Unit := fun s =>
  .ok ((), (s.name path).addConstraint (.product path a b c))

structure Num (f : PrimeField) where
  index : Nat
  value : Option (Element f)

namespace Num

def alloc (ns : Path) (value : Option (Element f)) : Synth f (Num f) := do
  let (index, value) ← Circuit.alloc (.num :: ns) value id
  return ⟨index, value⟩

def lc (x : Num f) : LinComb f :=
  .ofAux x.index

end Num

def addHash (path : Path) (a : Arity) (inputs : List Nat) (output : Nat) : Synth f Unit := fun s =>
  .ok ((), { s.addConstraint (.hash path a inputs output) with
    internals := s.internals + hashInternals a })

/-- Hashes a node in circuit. A node of another width is refused. -/
def hashNode (H : Hasher f) (ns : Path) (a : Arity) (children : List (Num f)) :
    Synth f (Num f) := do
  if children.length = a.width then
    let node := (children.mapM Num.value).bind (Node.ofRow? a.width)
    let output ← Num.alloc (← enter ns .hashOutput) (node.map (H a))
    addHash ns a (children.map Num.index) output.index
    return output
  else
    fail .unsatisfiable

end PoseidonTrie.Circuit
