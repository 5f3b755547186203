import PoseidonTrie.Circuit.Choice
import PoseidonTrie.Circuit.Decompose
import PoseidonTrie.Trie.View

/-! Lookups and insertions in circuit. A lookup allocates every node on the key's path and shows
that each hashes to the child chosen above it. An insertion also rebuilds the path from the
leaf up, with every sibling kept. -/
namespace PoseidonTrie.Circuit

variable {f : PrimeField} {a : Arity}

/-- The nodes on a path, root first, with the digit that chooses a child of each. -/
structure AllocatedPath (f : PrimeField) where
  nodes : List (List (Num f))
  digits : List (List Boolean)
  leaf : Num f

/-- The bits of each digit of a key, the most significant digit first. -/
def digitsOf (width height : Nat) (bits : List Boolean) : List (List Boolean) :=
  (List.range height).reverse.map fun i => (bits.drop (i * width)).take width

/-- Allocates the children of a node, whose values are known if the node is. -/
def allocNode (ns : Path) (a : Arity) (level : Nat) (node : Option (Node f a.width)) :
    Synth f (List (Num f)) :=
  (List.finRange a.width).mapM fun (i : Fin a.width) => do
    Num.alloc (← enter ns (.levelChild level i.val)) (node.map (·.child i))

/-- Allocates the nodes from `level` down. `next` is the commitment of the first. -/
def lookupLevels (H : Hasher f) (ns : Path) (a : Arity)
    (witness : Option (List (Node f a.width))) (level : Nat) (next : Num f) :
    (digits : List (List Boolean)) → Synth f (List (List (Num f)) × Num f)
  | [] => return ([], next)
  | digit :: digits => do
    let children ← allocNode ns a level (witness.bind (·[level]?))
    let commitment ← hashNode H (← enter ns (.levelHash level)) a children
    equal (.levelCommitment level :: ns) commitment next
    let next ← select (← enter ns (.levelSelect level)) children digit
    let (rest, leaf) ← lookupLevels H ns a witness (level + 1) next digits
    return (children :: rest, leaf)

/-- Shows that a key leads from a root to some leaf. The witness holds the nodes on the path, and
may be missing when only the shape is needed. -/
def lookupPath (H : Hasher f) (ns : Path) (n : Nat) (root key : Num f) (height : Nat)
    (witness : Option (List (Node f n))) : Synth f (AllocatedPath f) :=
  if h : n = 2 ∨ n = 4 ∨ n = 8 ∨ n = 16 then
    let a : Arity := ⟨n, h⟩
    if height = 0 ∨ fullHeight f a < height then
      fail .unsatisfiable
    else if witness.any (·.length ≠ height) then
      fail .unsatisfiable
    else do
      let bits ← numBits (← enter ns .keyBits) key (height * digitBits n)
      let digits := digitsOf (digitBits n) height bits
      let (nodes, leaf) ← lookupLevels H ns a witness 0 root digits
      return ⟨nodes, digits, leaf⟩
  else
    fail .unsatisfiable

/-- A new number in place of each that is chosen. -/
def pickEach (ns : Path) (level : Nat) (new : Num f) (xs : List (Num f)) (chosen : List Boolean) :
    Synth f (List (Num f)) :=
  (xs.zip chosen).zipIdx.mapM fun ((x, c), i) => do
    pick (← enter ns (.levelNewChild level i)) c new x

/-- Rebuilds the nodes from `level` down over a new value. Yields the new commitment. -/
def insertLevels (H : Hasher f) (ns : Path) (a : Arity) (value : Num f) (level : Nat) :
    (steps : List (List (Num f) × List Boolean)) → Synth f (Num f)
  | [] => return value
  | (children, digit) :: steps => do
    let below ← insertLevels H ns a value (level + 1) steps
    let chosen ← selectors (← enter ns (.levelSelectors level)) digit
    let children ← pickEach ns level below children chosen
    hashNode H (← enter ns (.levelNewHash level)) a children

/-- Shows the insertion of a value under a root. Yields the new root. -/
def insertPath (H : Hasher f) (ns : Path) (n : Nat) (root key value : Num f) (height : Nat)
    (witness : Option (List (Node f n))) : Synth f (Num f) :=
  if h : n = 2 ∨ n = 4 ∨ n = 8 ∨ n = 16 then do
    let path ← lookupPath H (← enter ns .oldPath) n root key height witness
    nonzero (← enter ns .valueIsNonzero) value
    insertLevels H ns ⟨n, h⟩ value 0 (path.nodes.zip path.digits)
  else
    fail .unsatisfiable

end PoseidonTrie.Circuit

namespace PoseidonTrie.View

open Circuit

variable {f : PrimeField} {a : Arity}

/-- The nodes on the key's path under the claimed root, if both are known. -/
def witness (v : View f a) (root key : Num f) :
    Except SynthesisError (Option (List (Node f a.width))) :=
  match root.value, key.value with
  | some r, some k =>
    match (View.mk (v.trie.withRoot r) v.caches).proveLookup k with
    | .ok proof => .ok (some proof.nodes)
    | .error _ => .error .assignmentMissing
  | _, _ => .ok none

/-- Shows a lookup under a claimed root. Yields the payload, zero if there is none. -/
def synthesizeLookup (H : Hasher f) (ns : Path) (v : View f a) (root key : Num f) :
    Synth f (Num f) := do
  let witness ← ofExcept (v.witness root key)
  let path ← lookupPath H ns a.width root key v.trie.height witness
  return path.leaf

/-- Shows an insertion under a claimed root. Yields the new root. -/
def synthesizeInsert (H : Hasher f) (ns : Path) (v : View f a) (root key value : Num f) :
    Synth f (Num f) := do
  let witness ← ofExcept (v.witness root key)
  insertPath H ns a.width root key value v.trie.height witness

end PoseidonTrie.View
