import Std.Data.HashMap
import Std.Data.DHashMap
import PoseidonTrie.Arity

/-! Digests already computed, and the preimages that digests are known to have. -/
namespace PoseidonTrie

structure Preimage (f : PrimeField) where
  arity : Arity
  node : Node f arity.width
deriving DecidableEq

instance {f : PrimeField} : Hashable (Preimage f) where
  hash p := p.node.toList.foldl (fun h x => mixHash h (hash x)) (hash p.arity)

/-- Digests by preimage. -/
structure DigestCache (f : PrimeField) where
  table : Std.HashMap (Preimage f) (Element f)

/-- Preimages by arity and digest. Only what was registered is known. -/
structure PreimageCache (f : PrimeField) where
  table : Std.DHashMap (Arity × Element f) fun k => Node f k.1.width

variable {f : PrimeField}

namespace DigestCache

def empty : DigestCache f := ⟨∅⟩

def size (c : DigestCache f) : Nat := c.table.size

def find? (c : DigestCache f) (a : Arity) (node : Node f a.width) : Option (Element f) :=
  c.table[(⟨a, node⟩ : Preimage f)]?

/-- The digest of a node, from the cache if it is there. -/
def hash (H : Hasher f) (c : DigestCache f) (a : Arity) (node : Node f a.width) :
    Element f × DigestCache f :=
  match c.find? a node with
  | some d => (d, c)
  | none => (H a node, ⟨c.table.insert ⟨a, node⟩ (H a node)⟩)

end DigestCache

namespace PreimageCache

def empty : PreimageCache f := ⟨∅⟩

def size (c : PreimageCache f) : Nat := c.table.size

def find? (c : PreimageCache f) (a : Arity) (digest : Element f) : Option (Node f a.width) :=
  c.table.get? (a, digest)

/-- Registers a preimage, in place of an earlier one. The digest is taken on trust. -/
def insert (c : PreimageCache f) (a : Arity) (digest : Element f) (node : Node f a.width) :
    PreimageCache f :=
  ⟨c.table.insert (a, digest) node⟩

end PreimageCache

/-- What any number of tries share. -/
structure Caches (f : PrimeField) where
  digests : DigestCache f
  preimages : PreimageCache f

namespace Caches

def empty : Caches f := ⟨.empty, .empty⟩

/-- Hashes a node and registers it under its digest. -/
def register (H : Hasher f) (c : Caches f) (a : Arity) (node : Node f a.width) :
    Element f × Caches f :=
  let (d, digests) := c.digests.hash H a node
  (d, ⟨digests, c.preimages.insert a d node⟩)

end Caches

end PoseidonTrie
