import PoseidonTrie.Cache.Basic
import PoseidonTrie.Trie.KeyPath
import PoseidonTrie.Word

/-! Tries. A trie owns no nodes: it is a root and a height, and its nodes are whatever the shared
caches hold. Zero marks an empty leaf, and all empty subtrees of one height are one node. -/
namespace PoseidonTrie

variable {f : PrimeField} {a : Arity}

structure Trie (f : PrimeField) (a : Arity) where
  root : Element f
  height : Nat
  emptyRoot : Element f
  height_pos : 0 < height
  height_le : height ≤ fullHeight f a

/-- Registers the empty subtrees of the next `height` heights over `below`, lowest first. Yields
the commitment of the last. -/
def Caches.registerEmpty (H : Hasher f) (a : Arity) (c : Caches f) (below : Element f) :
    (height : Nat) → Element f × Caches f
  | 0 => (below, c)
  | n + 1 =>
    let (d, c) := c.register H a (.uniform a.width below)
    c.registerEmpty H a d n

/-- The least height above `height` whose capacity reaches `size`, where `capacity` is that of
`height`. Capacities stop at `wordMax`. -/
def heightFor (width size height capacity : Nat) : Nat :=
  let next := min (capacity * width) wordMax
  if capacity < size ∧ capacity < next then
    heightFor width size (height + 1) next
  else
    height
termination_by size - capacity
decreasing_by omega

namespace Trie

def empty (H : Hasher f) (c : Caches f) (height : Nat) (pos : 0 < height)
    (le : height ≤ fullHeight f a) : Trie f a × Caches f :=
  let (d, c) := c.registerEmpty H a 0 height
  (⟨d, height, d, pos, le⟩, c)

/-- An empty trie with a path for every key. -/
def full (H : Hasher f) (c : Caches f) : Trie f a × Caches f :=
  empty H c (fullHeight f a) (fullHeight_pos f a) (Nat.le_refl _)

def withHeight (H : Hasher f) (c : Caches f) (height : Nat) :
    Except (TrieError f) (Trie f a) × Caches f :=
  if h : 0 < height ∧ height ≤ fullHeight f a then
    let (t, c) := empty H c height h.1 h.2
    (.ok t, c)
  else
    (.error (.capacityExceeded a.width height), c)

/-- An empty trie of the least height with room for `size` entries. -/
def withCapacity (H : Hasher f) (c : Caches f) (size : Nat) :
    Except (TrieError f) (Trie f a) × Caches f :=
  withHeight H c (heightFor a.width size 1 a.width)

/-- The same trie at another root. -/
def withRoot (t : Trie f a) (root : Element f) : Trie f a :=
  { t with root }

/-- The number of nodes in a row, where row 0 holds the leaves. It stops at `wordMax`. -/
def rowSize (t : Trie f a) (row : Nat) : Nat :=
  min (a.width ^ (t.height - row)) wordMax

def leaves (t : Trie f a) : Nat :=
  t.rowSize 0

def path (t : Trie f a) (key : Element f) : Except (TrieError f) (List (Fin a.width)) :=
  a.path key t.height

end Trie

structure AnyTrie (f : PrimeField) where
  arity : Arity
  trie : Trie f arity

/-- What a new trie is to hold. -/
inductive Extent where
  | full
  | height (height : Nat)
  | capacity (size : Nat)

/-- An empty trie of the given extent. -/
def Trie.create (H : Hasher f) (c : Caches f) : Extent → Except (TrieError f) (Trie f a) × Caches f
  | .full => let (t, c) := full H c; (.ok t, c)
  | .height height => withHeight H c height
  | .capacity size => withCapacity H c size

/-- An empty trie of any width. An unsupported one is refused before anything is registered. -/
def AnyTrie.create (H : Hasher f) (c : Caches f) (n : Nat) (extent : Extent) :
    Except (TrieError f) (AnyTrie f) × Caches f :=
  match Arity.require n with
  | .error e => (.error e, c)
  | .ok a =>
    let (t, c) := Trie.create H c extent
    (t.map (⟨a, ·⟩), c)

end PoseidonTrie
