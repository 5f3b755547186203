import PoseidonTrie.Trie.Basic

/-! Merkle proofs. A verifier hashes and needs to know no preimage but those in the proof. -/
namespace PoseidonTrie

variable {f : PrimeField} {a : Arity}

/-- The nodes that a key's path visits, root first. The last one holds the payloads. -/
structure LookupProof (f : PrimeField) (a : Arity) where
  nodes : List (Node f a.width)
deriving DecidableEq

/-- Hashes the path bottom-up from its last node, each digest taking its child's place above. -/
def climb (H : Hasher f) (c : DigestCache f) (node : Node f a.width) :
    (below : List (Node f a.width)) → (path : List (Fin a.width)) → Element f × DigestCache f
  | next :: below, k :: path =>
    let (x, c) := climb H c next below path
    c.hash H a (node.put k x)
  | _, _ => c.hash H a node

namespace LookupProof

def height (p : LookupProof f a) : Nat :=
  p.nodes.length

/-- The payload at the end of a path, zero if there is none. -/
def payloadAt (p : LookupProof f a) (path : List (Fin a.width)) : Element f :=
  match p.nodes.getLast?, path.getLast? with
  | some node, some k => node.child k
  | _, _ => 0

/-- The payload claimed for a key, unless the key has no path at this height. -/
def payload (p : LookupProof f a) (key : Element f) : Option (Element f) :=
  match a.path key p.height with
  | .ok path => some (p.payloadAt path)
  | .error _ => none

def recomputeRoot (H : Hasher f) (p : LookupProof f a) (key : Element f) (c : DigestCache f) :
    Option (Element f) × DigestCache f :=
  match a.path key p.height, p.nodes with
  | .ok path, node :: below =>
    let (root, c) := climb H c node below path
    (some root, c)
  | _, _ => (none, c)

/-- A proof of another payload is refused before anything is hashed. -/
def verify (H : Hasher f) (p : LookupProof f a) (root key value : Element f) (c : DigestCache f) :
    Bool × DigestCache f :=
  if p.payload key = some value then
    let (r, c) := p.recomputeRoot H key c
    (decide (r = some root), c)
  else
    (false, c)

end LookupProof

/-- Two lookups of one key, before and after an insertion. -/
structure InsertProof (f : PrimeField) (a : Arity) where
  old : LookupProof f a
  new : LookupProof f a
deriving DecidableEq

/-- The two nodes differ at most in child `k`. -/
def Node.agreeOff (k : Fin a.width) (old new : Node f a.width) : Bool :=
  (List.finRange a.width).all fun i => i = k || old.child i = new.child i

namespace InsertProof

/-- No level changes a child off the path. -/
def siblingsKept (q : InsertProof f a) (path : List (Fin a.width)) : Bool :=
  (path.zip (q.old.nodes.zip q.new.nodes)).all fun (k, old, new) => Node.agreeOff k old new

/-- Both lookups verify, whatever the other one says, and only the children on the path differ. -/
def verify (H : Hasher f) (q : InsertProof f a) (oldRoot newRoot key : Element f)
    (oldValue : Option (Element f)) (newValue : Element f) (c : DigestCache f) :
    Bool × DigestCache f :=
  if newValue = 0 ∨ q.old.height ≠ q.new.height then
    (false, c)
  else
    match a.path key q.old.height with
    | .error _ => (false, c)
    | .ok path =>
      let (oldOk, c) := q.old.verify H oldRoot key (oldValue.getD 0) c
      let (newOk, c) := q.new.verify H newRoot key newValue c
      (oldOk && newOk && q.siblingsKept path, c)

end InsertProof

end PoseidonTrie
