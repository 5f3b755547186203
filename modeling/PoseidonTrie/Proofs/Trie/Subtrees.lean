import PoseidonTrie.Proofs.Trie.Resolution

/-! A tree cut at a height. Its upper part is a tree too, whose leaves are the commitments of the
subtrees below the cut, and nothing in a root tells the two apart. -/
namespace PoseidonTrie

variable {f : PrimeField} {a : Arity} {H : Hasher f} {height low : Nat} {c : Caches f}

theorem Arity.digits_add (height low n : Nat) :
    a.digits (height + low) n = a.digits height (n / a.width ^ low) ++ a.digits low n := by
  induction height with
  | zero => rw [Nat.zero_add, Arity.digits_zero, List.nil_append]
  | succ height ih =>
    rw [Nat.succ_add, Arity.digits_succ, Arity.digits_succ, ih, List.cons_append]
    congr 2
    rw [Nat.div_div_eq_div_mul, ← Nat.pow_add, Nat.add_comm]

/-- The commitments of the subtrees of a height, as leaves. -/
def subtreeRoots (H : Hasher f) (a : Arity) (low : Nat) (leaves : Leaves f) : Leaves f := fun i =>
  commit H a low (leaves.under (a.width ^ low) i)

/-- The subtrees below a child are those of the child's own leaves. -/
theorem under_subtreeRoots (height low k : Nat) (leaves : Leaves f) :
    (subtreeRoots H a low leaves).under (a.width ^ height) k =
      subtreeRoots H a low (leaves.under (a.width ^ (height + low)) k) := by
  funext i
  rw [Leaves.under, subtreeRoots, subtreeRoots]
  congr 1
  funext j
  rw [Leaves.under, Leaves.under, Leaves.under]
  congr 1
  rw [Nat.add_mul, Nat.mul_assoc, ← Nat.pow_add, Nat.add_assoc]

/-- The root of a tree is that of its upper part. -/
theorem commit_add (height low : Nat) (leaves : Leaves f) :
    commit H a (height + low) leaves = commit H a height (subtreeRoots H a low leaves) := by
  induction height generalizing leaves with
  | zero =>
    rw [Nat.zero_add, commit_zero, subtreeRoots]
    congr 1
    funext i
    rw [Leaves.under, Nat.zero_mul, Nat.zero_add]
  | succ height ih =>
    rw [Nat.succ_add, commit_succ, commit_succ]
    congr 1
    apply Node.ext_child
    intro k
    rw [child_topNode, child_topNode, ih, under_subtreeRoots]

theorem topNode_add (height low : Nat) (leaves : Leaves f) :
    topNode H a (height + low) leaves = topNode H a height (subtreeRoots H a low leaves) := by
  apply Node.ext_child
  intro k
  rw [child_topNode, child_topNode, commit_add, under_subtreeRoots]

theorem Caches.HasTree.upper {leaves : Leaves f} (ht : c.HasTree H a (height + low) leaves) :
    c.HasTree H a height (subtreeRoots H a low leaves) := by
  induction height generalizing leaves with
  | zero => trivial
  | succ height ih =>
    rw [Nat.succ_add] at ht
    obtain ⟨top, below⟩ := ht
    refine ⟨topNode_add height low leaves ▸ top, fun k => ?_⟩
    rw [under_subtreeRoots]
    exact ih (below k)

end PoseidonTrie
