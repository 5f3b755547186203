import PoseidonTrie.Proofs.Trie.Sequence

/-! What insertions write, whatever the caches hold. They register nodes and move the root, and they
change no entry but where a node displaces another under its digest. -/
namespace PoseidonTrie

variable {f : PrimeField} {a b : Arity} {H : Hasher f} {nodes : List (Node f a.width)}

theorem DigestCache.find?_hash {c : DigestCache f} {node : Node f a.width} {other : Node f b.width}
    {d : Element f} (h : c.find? b other = some d) :
    (c.hash H a node).2.find? b other = some d := by
  by_cases same : (⟨a, node⟩ : Preimage f) = ⟨b, other⟩
  · cases same
    rwa [hash_snd_of_find? h]
  · rwa [find?_hash_of_ne same]

namespace Caches

variable {c : Caches f} {node : Node f a.width}

theorem registerAll_append (later earlier : List (Node f a.width)) :
    c.registerAll H (later ++ earlier) = (c.registerAll H earlier).registerAll H later :=
  List.foldr_append

/-- Of nodes that are registered, the last one first, one takes the place of another under its
digest. -/
def Displaces (H : Hasher f) (c : Caches f) (nodes : List (Node f a.width)) : Prop :=
  ∃ later node earlier other, nodes = later ++ node :: earlier ∧ other ≠ node ∧
    (c.registerAll H earlier).preimages.find? a
      ((c.registerAll H earlier).register H a node).1 = some other

theorem Displaces.cons (h : c.Displaces H nodes) : c.Displaces H (node :: nodes) := by
  obtain ⟨later, x, earlier, other, rfl, hne, hfind⟩ := h
  exact ⟨node :: later, x, earlier, other, rfl, hne, hfind⟩

theorem find?_digests_registerAll {x : Node f b.width} {d : Element f}
    (h : c.digests.find? b x = some d) : (c.registerAll H nodes).digests.find? b x = some d := by
  induction nodes with
  | nil => exact h
  | cons node nodes ih => exact DigestCache.find?_hash ih

theorem find?_register {x : Node f b.width} {d : Element f} (h : c.preimages.find? b d = some x)
    (hkeep : ∀ other, c.preimages.find? a (c.register H a node).1 = some other → other = node) :
    (c.register H a node).2.preimages.find? b d = some x := by
  change (c.preimages.insert a (c.register H a node).1 node).find? b d = some x
  by_cases same : a = b ∧ (c.register H a node).1 = d
  · obtain ⟨rfl, rfl⟩ := same
    rw [PreimageCache.find?_insert_self, hkeep x h]
  · rwa [PreimageCache.find?_insert_of_ne (not_and_or.mp same)]

theorem displaces_or_keeps (H : Hasher f) (c : Caches f) (nodes : List (Node f a.width)) :
    c.Displaces H nodes ∨ ∀ b d (x : Node f b.width), c.preimages.find? b d = some x →
      (c.registerAll H nodes).preimages.find? b d = some x := by
  induction nodes with
  | nil => exact .inr fun _ _ _ h => h
  | cons node nodes ih =>
    rcases ih with ih | ih
    · exact .inl ih.cons
    · by_cases hkeep : ∀ other, (c.registerAll H nodes).preimages.find? a
          ((c.registerAll H nodes).register H a node).1 = some other → other = node
      · exact .inr fun b d x h => find?_register (ih b d x h) hkeep
      · simp only [not_forall] at hkeep
        obtain ⟨other, hfind, hne⟩ := hkeep
        exact .inl ⟨[], node, nodes, other, rfl, hne, hfind⟩

/-- Rebuilding registers the nodes that it yields. -/
theorem rebuild_caches (c : Caches f) (value : Element f)
    (steps : List (Fin a.width × Node f a.width)) :
    (c.rebuild H value steps).2.2 = c.registerAll H (c.rebuild H value steps).2.1 := by
  induction steps with
  | nil => rfl
  | cons step steps ih =>
    obtain ⟨k, node⟩ := step
    simp only [rebuild, registerAll, List.foldr_cons] at ih ⊢
    rw [ih]

end Caches

namespace View

variable {v v' : View f a} {key value : Element f} {pairs : List (Element f × Element f)}

/-- The nodes that pairs register when they are inserted in order, up to the first that is refused.
The last one comes first. -/
def written (H : Hasher f) (v : View f a) :
    (pairs : List (Element f × Element f)) → List (Node f a.width)
  | [] => []
  | (key, value) :: pairs =>
    match v.proveInsert H key value with
    | (.error _, _) => []
    | (.ok (proof, changed), v) =>
      v.written H pairs ++ if changed then proof.new.nodes else []

theorem proveInsert_written {proof : InsertProof f a} {changed : Bool}
    (h : v.proveInsert H key value = (.ok (proof, changed), v')) :
    (∃ root, v'.trie = v.trie.withRoot root) ∧
      v'.caches = v.caches.registerAll H (if changed then proof.new.nodes else []) := by
  unfold proveInsert at h
  split at h
  · cases h
  · split at h
    · cases h
    · unfold insertAt at h
      split at h
      · cases h
      · dsimp only at h
        split at h
        · cases h
          exact ⟨⟨v.trie.root, rfl⟩, rfl⟩
        · cases h
          exact ⟨⟨_, rfl⟩, Caches.rebuild_caches ..⟩

theorem insertAll_written (H : Hasher f) (v : View f a) (pairs : List (Element f × Element f)) :
    (∃ root, (v.insertAll H pairs).2.trie = v.trie.withRoot root) ∧
      (v.insertAll H pairs).2.caches = v.caches.registerAll H (v.written H pairs) := by
  induction pairs generalizing v with
  | nil => exact ⟨⟨v.trie.root, rfl⟩, rfl⟩
  | cons pair pairs ih =>
    obtain ⟨key, value⟩ := pair
    cases hp : v.proveInsert H key value with
    | mk r v₁ =>
      cases r with
      | error e =>
        obtain rfl := proveInsert_error hp
        simp only [insertAll, View.insert, written, hp, Except.map]
        exact ⟨⟨v₁.trie.root, rfl⟩, rfl⟩
      | ok r =>
        obtain ⟨proof, changed⟩ := r
        obtain ⟨⟨root, htrie⟩, hcaches⟩ := proveInsert_written hp
        obtain ⟨⟨root', htrie'⟩, hcaches'⟩ := ih v₁
        simp only [insertAll, View.insert, written, hp, Except.map]
        refine ⟨⟨root', ?_⟩, ?_⟩
        · rw [htrie', htrie]
          rfl
        · rw [hcaches', hcaches, ← Caches.registerAll_append]

end View

end PoseidonTrie
