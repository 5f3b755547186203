import PoseidonTrie.Trie.Proof

namespace PoseidonTrie

variable {f : PrimeField} {a : Arity}

/-- Follows a path down from a commitment, through the nodes registered for it. -/
def PreimageCache.descend (c : PreimageCache f) (commitment : Element f) :
    (path : List (Fin a.width)) → Except (TrieError f) (List (Node f a.width))
  | [] => .ok []
  | k :: path =>
    match c.find? a commitment with
    | none => .error (.missingPreimage commitment)
    | some node => (c.descend (node.child k) path).map (node :: ·)

/-- Puts a value at the end of a path and registers the new nodes from the leaves up. Yields the
new root and the new nodes, root first. -/
def Caches.rebuild (H : Hasher f) (c : Caches f) (value : Element f) :
    (steps : List (Fin a.width × Node f a.width)) → Element f × List (Node f a.width) × Caches f
  | [] => (value, [], c)
  | (k, node) :: steps =>
    let (x, nodes, c) := c.rebuild H value steps
    let node := node.put k x
    let (d, c) := c.register H a node
    (d, node :: nodes, c)

/-- A trie with the caches it is read through. -/
structure View (f : PrimeField) (a : Arity) where
  trie : Trie f a
  caches : Caches f

namespace View

def proveLookup (v : View f a) (key : Element f) : Except (TrieError f) (LookupProof f a) := do
  let path ← v.trie.path key
  let nodes ← v.caches.preimages.descend v.trie.root path
  return ⟨nodes⟩

def lookup (v : View f a) (key : Element f) : Except (TrieError f) (Option (Element f)) := do
  let path ← v.trie.path key
  let nodes ← v.caches.preimages.descend v.trie.root path
  let payload := LookupProof.payloadAt ⟨nodes⟩ path
  return if payload = 0 then none else some payload

/-- Puts a value at the end of a path. A value already there changes nothing and writes nothing. -/
def insertAt (H : Hasher f) (v : View f a) (path : List (Fin a.width)) (value : Element f) :
    Except (TrieError f) (InsertProof f a × Bool) × View f a :=
  match v.caches.preimages.descend v.trie.root path with
  | .error e => (.error e, v)
  | .ok nodes =>
    let old : LookupProof f a := ⟨nodes⟩
    if old.payloadAt path = value then
      (.ok (⟨old, old⟩, false), v)
    else
      let (root, nodes, caches) := v.caches.rebuild H value (path.zip nodes)
      (.ok (⟨old, ⟨nodes⟩⟩, true), ⟨v.trie.withRoot root, caches⟩)

/-- Inserts a value and proves it. Also says whether the trie changed. -/
def proveInsert (H : Hasher f) (v : View f a) (key value : Element f) :
    Except (TrieError f) (InsertProof f a × Bool) × View f a :=
  if value = 0 then
    (.error .reservedValue, v)
  else
    match v.trie.path key with
    | .error e => (.error e, v)
    | .ok path => v.insertAt H path value

def insert (H : Hasher f) (v : View f a) (key value : Element f) :
    Except (TrieError f) Bool × View f a :=
  let (r, v) := v.proveInsert H key value
  (r.map (·.2), v)

end View

end PoseidonTrie
