import PoseidonTrie.Proofs.Trie.Chain

/-! Trees whose every node is registered. Without a collision a path down from such a root meets
the tree's own nodes, and a write keeps the whole tree registered. -/
namespace PoseidonTrie

variable {f : PrimeField} {a : Arity} {H : Hasher f} {height n : Nat} {value : Element f}
  {c c' : Caches f} {leaves leaves' : Leaves f}

/-- Every node of the tree over the leaves is registered. -/
def Caches.HasTree (H : Hasher f) (c : Caches f) (a : Arity) :
    (height : Nat) → Leaves f → Prop
  | 0, _ => True
  | height + 1, leaves =>
    c.Has a (topNode H a height leaves) ∧
      ∀ k : Fin a.width, c.HasTree H a height (leaves.under (a.width ^ height) k)

theorem Caches.HasTree.congr (ht : c.HasTree H a height leaves)
    (h : ∀ i < a.width ^ height, leaves i = leaves' i) : c.HasTree H a height leaves' := by
  induction height generalizing leaves leaves' with
  | zero => trivial
  | succ height ih =>
    obtain ⟨htop, hsub⟩ := ht
    refine ⟨topNode_congr h ▸ htop, ?_⟩
    intro k
    exact ih (hsub k) (fun i hi => h _ (under_lt_capacity k.isLt hi))

theorem Caches.HasTree.mono (ht : c.HasTree H a height leaves) (hf : c.Faithful H)
    (hg : c.Grows H c') : c'.HasTree H a height leaves := by
  induction height generalizing leaves with
  | zero => trivial
  | succ height ih => exact ⟨hg.has hf ht.1, fun k => ih (ht.2 k)⟩

/-- All nodes of an empty tree are those of its one path. -/
theorem Caches.hasTree_noLeaves (h : ∀ i < height, c.Has a (topNode H a i (noLeaves f))) :
    c.HasTree H a height (noLeaves f) := by
  induction height with
  | zero => trivial
  | succ height ih =>
    refine ⟨h height (Nat.lt_succ_self height), ?_⟩
    intro k
    exact ih (fun i hi => h i (Nat.lt_succ_of_lt hi))

theorem Caches.HasTree.update (ht : c.HasTree H a height leaves)
    (h : ∀ node ∈ nodesAbove H a height (Function.update leaves n value) n, c.Has a node) :
    c.HasTree H a height (Function.update leaves n value) := by
  induction height generalizing leaves n with
  | zero => trivial
  | succ height ih =>
    obtain ⟨_, hsub⟩ := ht
    refine ⟨h _ (List.mem_cons_self ..), ?_⟩
    intro k
    by_cases hk : k.val = n / a.width ^ height
    · rw [hk, under_update_self, ← hk]
      apply ih (hsub k)
      intro node hnode
      apply h
      rw [nodesAbove, under_update_self, ← hk]
      exact List.mem_cons_of_mem _ hnode
    · apply (hsub k).congr
      intro i hi
      exact (under_update_of_ne leaves value hk hi).symm

theorem Caches.HasTree.has_of_mem
    (ht : c.HasTree H a height leaves) (hn : n < a.width ^ height) {node : Node f a.width}
    (h : node ∈ nodesAbove H a height leaves n) : c.Has a node := by
  induction height generalizing leaves n with
  | zero => simp [nodesAbove] at h
  | succ height ih =>
    obtain ⟨top, _⟩ := digits_succ_of_lt hn
    rcases List.mem_cons.mp h with rfl | h
    · exact ht.1
    · exact ih (ht.2 ⟨_, top⟩) (mod_lt_capacity n) h

theorem Caches.HasTree.descend (ht : c.HasTree H a height leaves) (hf : c.Faithful H)
    (hc : ¬ c.Collides H a) (hn : n < a.width ^ height) :
    c.preimages.descend (commit H a height leaves) (a.digits height n) =
      .ok (nodesAbove H a height leaves n) := by
  apply (chained_nodesAbove leaves hn).descend (by simp)
  exact fun node hnode => hf.find? hc (ht.has_of_mem hn hnode)

end PoseidonTrie
