import PoseidonTrie.Proofs.Cache.Registration
import PoseidonTrie.Proofs.Trie.Commitment
import PoseidonTrie.Trie.View

namespace PoseidonTrie

variable {f : PrimeField} {a : Arity} {H : Hasher f} {height n : Nat} {value : Element f}
  {c : Caches f}

/-- The commitment of a path once a value stands at its end, with every sibling kept. -/
def rebuiltRoot (H : Hasher f) (value : Element f) :
    (steps : List (Fin a.width × Node f a.width)) → Element f
  | [] => value
  | (k, node) :: steps => H a (node.put k (rebuiltRoot H value steps))

/-- The nodes of the path then, topmost first. -/
def rebuiltNodes (H : Hasher f) (value : Element f) :
    (steps : List (Fin a.width × Node f a.width)) → List (Node f a.width)
  | [] => []
  | (k, node) :: steps => node.put k (rebuiltRoot H value steps) :: rebuiltNodes H value steps

/-- Rebuilding registers the new nodes from the leaf up, and nothing else. -/
theorem Caches.rebuild_eq (h : c.digests.Correct H) (steps : List (Fin a.width × Node f a.width)) :
    c.rebuild H value steps =
      (rebuiltRoot H value steps, rebuiltNodes H value steps,
        c.registerAll H (rebuiltNodes H value steps)) := by
  induction steps with
  | nil => rfl
  | cons step steps ih =>
    obtain ⟨k, node⟩ := step
    have root := register_eq (correct_registerAll h (rebuiltNodes H value steps))
      (node.put k (rebuiltRoot H value steps))
    simp only [Caches.rebuild, ih, rebuiltRoot, rebuiltNodes]
    rw [Prod.ext_iff] at root
    rw [root.1]
    rfl

theorem rebuiltRoot_nodesAbove (leaves : Leaves f) (hn : n < a.width ^ height) :
    rebuiltRoot H value ((a.digits height n).zip (nodesAbove H a height leaves n)) =
      commit H a height (Function.update leaves n value) := by
  induction height generalizing leaves n with
  | zero =>
    have : n = 0 := by simpa using hn
    subst this
    rw [commit_zero, Function.update_self]
    rfl
  | succ height ih =>
    obtain ⟨top, hd⟩ := digits_succ_of_lt hn
    rw [hd, nodesAbove, List.zip_cons_cons, rebuiltRoot, ih _ (mod_lt_capacity n), commit_succ,
      topNode_update (k := ⟨_, top⟩) rfl]

theorem rebuiltNodes_nodesAbove (leaves : Leaves f) (hn : n < a.width ^ height) :
    rebuiltNodes H value ((a.digits height n).zip (nodesAbove H a height leaves n)) =
      nodesAbove H a height (Function.update leaves n value) n := by
  induction height generalizing leaves n with
  | zero => rfl
  | succ height ih =>
    obtain ⟨top, hd⟩ := digits_succ_of_lt hn
    rw [hd, nodesAbove, List.zip_cons_cons, rebuiltNodes, ih _ (mod_lt_capacity n),
      rebuiltRoot_nodesAbove _ (mod_lt_capacity n), nodesAbove,
      topNode_update (k := ⟨_, top⟩) rfl, under_update_self]

def noLeaves (f : PrimeField) : Leaves f := fun _ => 0

@[simp] theorem under_noLeaves (size k : Nat) : (noLeaves f).under size k = noLeaves f := rfl

theorem topNode_noLeaves (height : Nat) :
    topNode H a height (noLeaves f) = .uniform a.width (commit H a height (noLeaves f)) := by
  apply Node.ext_child
  intro k
  rw [child_topNode, Node.child_uniform, under_noLeaves]

/-- The nodes of an empty tree, one for each height, topmost first. -/
def emptyNodes (H : Hasher f) (a : Arity) (height : Nat) : List (Node f a.width) :=
  (List.range height).reverse.map fun i => topNode H a i (noLeaves f)

@[simp] theorem length_emptyNodes : (emptyNodes H a height).length = height := by
  simp [emptyNodes]

theorem mem_emptyNodes {i : Nat} (hi : i < height) :
    topNode H a i (noLeaves f) ∈ emptyNodes H a height := by
  simp only [emptyNodes, List.mem_map, List.mem_reverse, List.mem_range]
  exact ⟨i, hi, rfl⟩

/-- From an empty tree of one height to a higher one, a node for each height is registered. -/
theorem Caches.registerEmpty_commit (h : c.digests.Correct H) (from_ n : Nat) :
    c.registerEmpty H a (commit H a from_ (noLeaves f)) n =
      (commit H a (from_ + n) (noLeaves f),
        c.registerAll H ((List.range n).reverse.map fun i => topNode H a (from_ + i) (noLeaves f)))
    := by
  induction n generalizing c from_ with
  | zero => rfl
  | succ n ih =>
    have root := register_eq h (topNode H a from_ (noLeaves f))
    rw [Prod.ext_iff] at root
    have above := ih (correct_register h (topNode H a from_ (noLeaves f))) (from_ + 1)
    simp only [Caches.registerEmpty, ← topNode_noLeaves]
    rw [root.1]
    change Caches.registerEmpty H a _ (commit H a (from_ + 1) (noLeaves f)) n = _
    rw [above, List.range_succ_eq_map, Nat.add_right_comm]
    simp [Caches.registerAll, Function.comp_def, Nat.add_assoc, Nat.add_comm 1]

/-- An empty tree of a height costs one hash for each level. -/
theorem Caches.registerEmpty_eq (h : c.digests.Correct H) (height : Nat) :
    c.registerEmpty H a 0 height =
      (commit H a height (noLeaves f), c.registerAll H (emptyNodes H a height)) := by
  have := registerEmpty_commit (a := a) h 0 height
  simpa [commit_zero, noLeaves, emptyNodes] using this

end PoseidonTrie
