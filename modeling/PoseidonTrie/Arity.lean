import PoseidonTrie.Field.Encoding

/-! The widths a trie node can have, and the nodes themselves. -/
namespace PoseidonTrie

/-- A node width that can be hashed. -/
structure Arity where
  width : Nat
  supported : width = 2 ∨ width = 4 ∨ width = 8 ∨ width = 16
deriving DecidableEq

namespace Arity

instance : Hashable Arity where
  hash a := hash a.width

def ofWidth? (n : Nat) : Option Arity :=
  if h : n = 2 ∨ n = 4 ∨ n = 8 ∨ n = 16 then some ⟨n, h⟩ else none

@[simp] theorem ofWidth?_width (a : Arity) : ofWidth? a.width = some a := by
  simp [ofWidth?, a.supported]

theorem width_of_ofWidth? {n : Nat} {a : Arity} (h : ofWidth? n = some a) : a.width = n := by
  unfold ofWidth? at h
  split at h <;> simp_all
  rw [← h]

theorem one_lt_width (a : Arity) : 1 < a.width := by
  have := a.supported
  omega

end Arity

/-- The bits that one digit of a key path takes: the index of the lowest set bit of the width,
which is 64 for a width with none. -/
def digitBits (n : Nat) : Nat :=
  ((List.range 64).find? n.testBit).getD 64

theorem Arity.two_pow_digitBits (a : Arity) : 2 ^ digitBits a.width = a.width := by
  obtain ⟨n, h⟩ := a
  rcases h with rfl | rfl | rfl | rfl <;> decide

theorem Arity.digitBits_lt (a : Arity) : digitBits a.width < 64 := by
  obtain ⟨n, h⟩ := a
  rcases h with rfl | rfl | rfl | rfl <;> decide

abbrev Node (f : PrimeField) (n : Nat) := Vector (Element f) n

namespace Node

variable {f : PrimeField} {n : Nat}

/-- The node whose children are all `x`. -/
def uniform (n : Nat) (x : Element f) : Node f n :=
  Vector.replicate n x

def child (node : Node f n) (k : Fin n) : Element f :=
  node[k.val]

def put (node : Node f n) (k : Fin n) (x : Element f) : Node f n :=
  node.set k.val x

@[simp] theorem child_put_self (node : Node f n) (k : Fin n) (x : Element f) :
    (node.put k x).child k = x := by
  simp [put, child]

theorem child_put_of_ne (node : Node f n) {j k : Fin n} (h : j ≠ k) (x : Element f) :
    (node.put k x).child j = node.child j :=
  Vector.getElem_set_ne _ _ (fun e => h (Fin.ext e.symm))

@[simp] theorem child_uniform (x : Element f) (k : Fin n) : (uniform n x).child k = x := by
  simp [uniform, child]

theorem ext_child {a b : Node f n} (h : ∀ k, a.child k = b.child k) : a = b :=
  Vector.ext fun i hi => h ⟨i, hi⟩

/-- A row of elements as a node, or nothing if it has another width. -/
def ofRow? (n : Nat) (row : List (Element f)) : Option (Node f n) :=
  if h : row.toArray.size = n then some ⟨row.toArray, h⟩ else none

end Node

/-- A hash of nodes at every arity. -/
abbrev Hasher (f : PrimeField) := (a : Arity) → Node f a.width → Element f

end PoseidonTrie
