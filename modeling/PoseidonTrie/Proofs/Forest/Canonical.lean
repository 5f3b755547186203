import PoseidonTrie.Proofs.Forest.Persistence

namespace PoseidonTrie

variable {f : PrimeField} {a : Arity} {H : Hasher f} {c₁ c₂ : Caches f}

namespace Caches

/-- Two different nodes, each registered in one of two pairs of caches, have one digest. -/
def CollideWith (H : Hasher f) (c₁ c₂ : Caches f) (a : Arity) : Prop :=
  ∃ x y, x ≠ y ∧ (c₁.Has a x ∨ c₂.Has a x) ∧ (c₁.Has a y ∨ c₂.Has a y) ∧ H a x = H a y

theorem Collides.left (h : c₁.Collides H a) : CollideWith H c₁ c₂ a := by
  obtain ⟨x, y, hne, hx, hy, he⟩ := h
  exact ⟨x, y, hne, Or.inl hx, Or.inl hy, he⟩

theorem Collides.right (h : c₂.Collides H a) : CollideWith H c₁ c₂ a := by
  obtain ⟨x, y, hne, hx, hy, he⟩ := h
  exact ⟨x, y, hne, Or.inr hx, Or.inr hy, he⟩

/-- Registered trees with one root have the same leaves. Going down, either the topmost nodes are
one node or they collide. -/
theorem HasTree.leaves_eq {height : Nat} {l₁ l₂ : Leaves f} (h₁ : c₁.HasTree H a height l₁)
    (h₂ : c₂.HasTree H a height l₂) (hc : ¬ CollideWith H c₁ c₂ a)
    (heq : commit H a height l₁ = commit H a height l₂) :
    ∀ i < a.width ^ height, l₁ i = l₂ i := by
  induction height generalizing l₁ l₂ with
  | zero =>
    intro i hi
    obtain rfl : i = 0 := by simpa using hi
    exact heq
  | succ height ih =>
    obtain ⟨top₁, below₁⟩ := h₁
    obtain ⟨top₂, below₂⟩ := h₂
    have tops : topNode H a height l₁ = topNode H a height l₂ := by
      by_contra hne
      exact hc ⟨_, _, hne, Or.inl top₁, Or.inr top₂, heq⟩
    intro i hi
    obtain ⟨top, _⟩ := digits_succ_of_lt hi
    have child := congrArg (·.child ⟨_, top⟩) tops
    simp only [child_topNode] at child
    have leaf := ih (below₁ ⟨_, top⟩) (below₂ ⟨_, top⟩) child _ (mod_lt_capacity i)
    simpa only [Leaves.under, Nat.div_add_mod'] using leaf

end Caches

namespace View

variable {v₁ v₂ : View f a} {m₁ m₂ : Contents f}

theorem Holds.root_eq_iff (h₁ : v₁.Holds H m₁) (h₂ : v₂.Holds H m₂)
    (hheight : v₁.trie.height = v₂.trie.height)
    (hc : ¬ Caches.CollideWith H v₁.caches v₂.caches a) :
    v₁.trie.root = v₂.trie.root ↔ m₁ = m₂ := by
  have fits₂ := hheight ▸ h₂.fits
  constructor
  · intro hroot
    have commits : commit H a v₁.trie.height m₁.leaves = commit H a v₁.trie.height m₂.leaves := by
      rw [← h₁.root, hroot, h₂.root, hheight]
    have leaves := h₁.tree.leaves_eq (hheight ▸ h₂.tree) hc commits
    funext key
    by_cases hk : key.val < a.width ^ v₁.trie.height
    · exact h₁.fits.eq_of_leaves fits₂ (leaves _ hk)
    · rw [h₁.fits.eq_none hk, fits₂.eq_none hk]
  · rintro rfl
    rw [h₁.root, h₂.root, hheight]

end View

namespace Forest

/-- A root commits to the whole map. That of every trie in a run is the recursion over all leaves,
a new trie's is the recursion over empty leaves at the cost of one hash for each level, and tries of
one shape in two runs have one root exactly if they hold one map. The alternative is a collision
among the nodes registered. -/
theorem root_run (H : Hasher f) :
    (∀ ops, ∀ m ∈ (run H ops).held, (run H ops).caches.Collides H m.arity ∨
      m.trie.root = commit H m.arity m.trie.height (contentsOf m.history).leaves) ∧
    (∀ (c c' : Caches f) (a : Arity) (extent : Extent) (t : Trie f a), c.digests.Correct H →
      Trie.create H c extent = (.ok t, c') →
        t.root = commit H a t.height (noLeaves f) ∧
          ∃ nodes : List (Node f a.width), nodes.length = t.height ∧ c' = c.registerAll H nodes) ∧
    ∀ ops₁ ops₂, ∀ m₁ ∈ (run H ops₁).held, ∀ m₂ ∈ (run H ops₂).held,
      m₁.arity = m₂.arity → m₁.trie.height = m₂.trie.height →
        Caches.CollideWith H (run H ops₁).caches (run H ops₂).caches m₁.arity ∨
          (m₁.trie.root = m₂.trie.root ↔ contentsOf m₁.history = contentsOf m₂.history) := by
  refine ⟨?_, ?_, ?_⟩
  · intro ops m hm
    exact ((sound_run H ops).held m hm).imp_right (·.root)
  · intro c c' a extent t hc hcreate
    obtain ⟨hroot, hcaches⟩ := Trie.create_ok hc hcreate
    exact ⟨hroot, _, length_emptyNodes, hcaches⟩
  · intro ops₁ ops₂ m₁ hm₁ m₂ hm₂ harity hheight
    have sound₁ := (sound_run H ops₁).held m₁ hm₁
    have sound₂ := (sound_run H ops₂).held m₂ hm₂
    by_cases hc : Caches.CollideWith H (run H ops₁).caches (run H ops₂).caches m₁.arity
    · exact Or.inl hc
    · obtain ⟨a, t₁, history₁⟩ := m₁
      obtain ⟨a', t₂, history₂⟩ := m₂
      simp only at harity hheight hc
      subst harity
      have hv₁ := sound₁.resolve_left (fun h => hc h.left)
      have hv₂ := sound₂.resolve_left (fun h => hc h.right)
      exact Or.inr (hv₁.root_eq_iff hv₂ hheight hc)

theorem root_run_oneLeaf :
    (sapling 1).root = commit weigh .binary 1 (contentsOf [(1, 1)]).leaves ∧
      (sapling 0).root = commit weigh .binary 1 (noLeaves .pallasBase) ∧
      ((sapling 0).root = (sapling 1).root ↔
        contentsOf [] = contentsOf [((1 : Element .pallasBase), 1)]) := by
  obtain ⟨canonical, fresh, injective⟩ := root_run weigh
  have before : (⟨.binary, sapling 0, []⟩ : Member .pallasBase) ∈ (run weigh oneLeaf).held := by
    rw [run_oneLeaf]
    exact List.mem_cons_self ..
  have after : (⟨.binary, sapling 1, [(1, 1)]⟩ : Member .pallasBase) ∈
      (run weigh oneLeaf).held := by
    rw [run_oneLeaf]
    exact List.mem_cons_of_mem _ (List.mem_singleton_self _)
  refine ⟨?_, ?_, ?_⟩
  · exact (canonical oneLeaf _ after).resolve_left not_collides_oneLeaf
  · exact (fresh _ _ _ _ _ DigestCache.correct_empty create_sapling).1
  · refine (injective oneLeaf oneLeaf _ before _ after rfl rfl).resolve_left ?_
    rintro ⟨x, y, hne, hx, hy, he⟩
    exact not_collides_oneLeaf ⟨x, y, hne, or_self_iff.mp hx, or_self_iff.mp hy, he⟩

end Forest

end PoseidonTrie
