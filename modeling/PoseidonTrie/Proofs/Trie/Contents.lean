import PoseidonTrie.Proofs.Trie.Resolution

namespace PoseidonTrie

variable {f : PrimeField} {a : Arity} {H : Hasher f} {key value : Element f}

/-- A finite map from keys to values. -/
abbrev Contents (f : PrimeField) := Element f → Option (Element f)

/-- The map after insertions, of which the newest comes first. -/
def contentsOf (history : List (Element f × Element f)) : Contents f := fun key =>
  history.lookup key

theorem contentsOf_cons (history : List (Element f × Element f)) :
    contentsOf ((key, value) :: history) =
      Function.update (contentsOf history) key (some value) := by
  funext k
  by_cases hk : k = key
  · subst hk
    rw [Function.update_self]
    exact List.lookup_cons_self
  · rw [Function.update_of_ne hk, contentsOf, contentsOf, List.lookup_cons, beq_false_of_ne hk]

namespace Contents

variable {m m' : Contents f} {capacity : Nat}

/-- The value of the key of each number, zero where there is none. -/
def leaves (m : Contents f) : Leaves f := fun n =>
  if h : n < f.modulus then (m ⟨n, h⟩).getD 0 else 0

@[simp] theorem leaves_val (m : Contents f) (key : Element f) :
    m.leaves key.val = (m key).getD 0 := by
  simp [leaves, key.val_lt]

theorem leaves_none : leaves (fun _ => none : Contents f) = noLeaves f := by
  funext n
  simp [leaves, noLeaves]

theorem leaves_update (m : Contents f) (key value : Element f) :
    leaves (Function.update m key (some value)) = Function.update m.leaves key.val value := by
  funext n
  by_cases hn : n = key.val
  · subst hn
    rw [leaves_val, Function.update_self, Function.update_self]
    rfl
  · have hne : ∀ h : n < f.modulus, (⟨n, h⟩ : Element f) ≠ key := by
      rintro h rfl
      exact hn rfl
    rw [Function.update_of_ne hn, leaves, leaves]
    split
    · rw [Function.update_of_ne (hne _)]
    · rfl

/-- Every value is one that can be inserted, at a key below the capacity. -/
def Fits (m : Contents f) (capacity : Nat) : Prop :=
  ∀ key value, m key = some value → value ≠ 0 ∧ key.val < capacity

theorem fits_none : Fits (fun _ => none : Contents f) capacity := by
  intro key value h
  cases h

theorem Fits.update (hm : m.Fits capacity) (hv : value ≠ 0) (hk : key.val < capacity) :
    Fits (Function.update m key (some value)) capacity := by
  intro k v h
  by_cases he : k = key
  · subst he
    rw [Function.update_self] at h
    cases h
    exact ⟨hv, hk⟩
  · rw [Function.update_of_ne he] at h
    exact hm k v h

theorem Fits.eq_none (hm : m.Fits capacity) (hk : ¬ key.val < capacity) : m key = none := by
  cases h : m key with
  | none => rfl
  | some v => exact (hk (hm key v h).2).elim

theorem Fits.getD_eq_zero (hm : m.Fits capacity) : (m key).getD 0 = 0 ↔ m key = none := by
  cases h : m key with
  | none => simp
  | some v => simpa using (hm key v h).1

theorem getD_eq_iff (hv : value ≠ 0) :
    (m key).getD 0 = value ↔ m key = some value := by
  cases h : m key with
  | none => simpa using hv.symm
  | some v => simp

theorem Fits.eq_of_leaves (hm : m.Fits capacity) (hm' : m'.Fits capacity)
    (h : m.leaves key.val = m'.leaves key.val) : m key = m' key := by
  rw [leaves_val, leaves_val] at h
  cases hk : m' key with
  | none =>
    rw [hk] at h
    exact hm.getD_eq_zero.mp h
  | some v =>
    rw [hk] at h
    exact (getD_eq_iff (hm' key v hk).1).mp h

end Contents

/-- A trie whose root commits to a map, with every node of the tree registered. -/
structure View.Holds (H : Hasher f) (v : View f a) (m : Contents f) : Prop where
  root : v.trie.root = commit H a v.trie.height m.leaves
  tree : v.caches.HasTree H a v.trie.height m.leaves
  fits : m.Fits (a.width ^ v.trie.height)

namespace View

variable {v : View f a} {m : Contents f}

theorem path_of_lt (hk : key.val < a.width ^ v.trie.height) :
    v.trie.path key = .ok (a.digits v.trie.height key.val) :=
  Arity.path_of_lt v.trie.height_le hk

theorem Holds.descend (hv : v.Holds H m) (hf : v.caches.Faithful H)
    (hc : ¬ v.caches.Collides H a) (hk : key.val < a.width ^ v.trie.height) :
    v.caches.preimages.descend v.trie.root (a.digits v.trie.height key.val) =
      .ok (nodesAbove H a v.trie.height m.leaves key.val) := by
  rw [hv.root]
  exact hv.tree.descend hf hc hk

theorem Holds.payloadAt (hk : key.val < a.width ^ v.trie.height) :
    LookupProof.payloadAt ⟨nodesAbove H a v.trie.height m.leaves key.val⟩
      (a.digits v.trie.height key.val) = (m key).getD 0 := by
  rw [← Contents.leaves_val]
  apply (chained_nodesAbove m.leaves hk).payloadAt_of_pos (by simp)
  rw [Arity.length_digits]
  exact v.trie.height_pos

theorem Holds.lookup (hv : v.Holds H m) (hf : v.caches.Faithful H)
    (hc : ¬ v.caches.Collides H a) (hk : key.val < a.width ^ v.trie.height) :
    v.lookup key = .ok (m key) := by
  rw [View.lookup, path_of_lt hk]
  change (v.caches.preimages.descend v.trie.root _ >>= _) = _
  rw [hv.descend hf hc hk]
  change Except.ok (if LookupProof.payloadAt _ _ = 0 then none else some _) = _
  rw [Holds.payloadAt hk]
  congr 1
  by_cases hz : (m key).getD 0 = 0
  · rw [if_pos hz, hv.fits.getD_eq_zero.mp hz]
  · rw [if_neg hz]
    cases hm : m key with
    | none => exact (hz (hv.fits.getD_eq_zero.mpr hm)).elim
    | some x => rfl

/-- An insertion updates the map: it answers with the old and the new path, says whether the map
changed, and registers at most the nodes of the new path. -/
theorem Holds.proveInsert (hv : v.Holds H m) (hf : v.caches.Faithful H)
    (hc : ¬ v.caches.Collides H a) (hvalue : value ≠ 0)
    (hk : key.val < a.width ^ v.trie.height) :
    ∃ caches,
      v.proveInsert H key value =
        (.ok (⟨⟨nodesAbove H a v.trie.height m.leaves key.val⟩,
            ⟨nodesAbove H a v.trie.height (Function.update m.leaves key.val value) key.val⟩⟩,
          decide (m key ≠ some value)),
        ⟨v.trie.withRoot (commit H a v.trie.height (Function.update m.leaves key.val value)),
          caches⟩) ∧
      v.caches.Grows H caches ∧
      ∀ node ∈ nodesAbove H a v.trie.height (Function.update m.leaves key.val value) key.val,
        caches.Has a node := by
  rw [View.proveInsert, if_neg hvalue, path_of_lt hk]
  simp only [insertAt]
  rw [hv.descend hf hc hk]
  simp only [Holds.payloadAt hk, Contents.getD_eq_iff hvalue]
  by_cases hsame : m key = some value
  · have stays : Function.update m.leaves key.val value = m.leaves := by
      rw [← Contents.leaves_update, ← hsame, Function.update_eq_self]
    refine ⟨v.caches, ?_, .refl, ?_⟩
    · rw [if_pos hsame, stays, ← hv.root]
      simp [hsame, Trie.withRoot]
    · intro node hnode
      rw [stays] at hnode
      exact hv.tree.has_of_mem hk hnode
  · refine ⟨v.caches.registerAll H
      (nodesAbove H a v.trie.height (Function.update m.leaves key.val value) key.val), ?_, ?_, ?_⟩
    · rw [if_neg hsame, Caches.rebuild_eq hf.correct, rebuiltRoot_nodesAbove _ hk,
        rebuiltNodes_nodesAbove _ hk]
      simp [hsame]
    · exact Caches.grows_registerAll _
    · intro node hnode
      exact (Caches.has_registerAll hf.correct).mpr (Or.inl hnode)

theorem Holds.insert (hv : v.Holds H m) (hf : v.caches.Faithful H)
    (hc : ¬ v.caches.Collides H a) (hvalue : value ≠ 0)
    (hk : key.val < a.width ^ v.trie.height) :
    (v.insert H key value).1 = .ok (decide (m key ≠ some value)) ∧
      (v.insert H key value).2.Holds H (Function.update m key (some value)) := by
  obtain ⟨caches, he, hg, hnew⟩ := hv.proveInsert hf hc hvalue hk
  rw [View.insert, he]
  refine ⟨rfl, ?_, ?_, ?_⟩
  · rw [Contents.leaves_update]
    rfl
  · rw [Contents.leaves_update]
    exact (hv.tree.mono hf hg).update hnew
  · exact hv.fits.update hvalue hk

end View

end PoseidonTrie
