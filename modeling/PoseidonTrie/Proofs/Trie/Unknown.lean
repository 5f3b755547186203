import PoseidonTrie.Proofs.Trie.Descent

/-! Where a path is lost. A path that cannot be followed ends at the first commitment on it whose
preimage is not known, and that commitment is what is reported. -/
namespace PoseidonTrie

variable {f : PrimeField} {a : Arity} {H : Hasher f} {root d : Element f}
  {path above below : List (Fin a.width)} {nodes : List (Node f a.width)}

namespace PreimageCache

variable {c : PreimageCache f}

/-- The first commitment on a path whose preimage is not known. Those above it have preimages, which
lead down to it. -/
def FirstUnknown (c : PreimageCache f) (root : Element f) (path : List (Fin a.width))
    (d : Element f) : Prop :=
  ∃ above below nodes, path = above ++ below ∧ below ≠ [] ∧ c.descend root above = .ok nodes ∧
    pathEnd root (above.zip nodes) = d ∧ c.find? a d = none

theorem descend_append (h : c.descend root above = .ok nodes) :
    c.descend root (above ++ below) =
      (c.descend (pathEnd root (above.zip nodes)) below).map (nodes ++ ·) := by
  induction above generalizing root nodes with
  | nil =>
    cases h
    change c.descend root below = (c.descend root below).map id
    cases c.descend root below <;> rfl
  | cons k above ih =>
    obtain ⟨node, rest, hfind, hrest, rfl⟩ := descend_cons_eq_ok.mp h
    rw [List.cons_append, descend, hfind]
    simp only [ih hrest, List.zip_cons_cons, pathEnd]
    cases c.descend (pathEnd (node.child k) (above.zip rest)) below <;> rfl

theorem descend_eq_missing :
    c.descend root path = .error (.missingPreimage d) ↔ c.FirstUnknown root path d := by
  constructor
  · intro h
    induction path generalizing root with
    | nil => cases h
    | cons k path ih =>
      rw [descend] at h
      cases hfind : c.find? a root with
      | none =>
        rw [hfind] at h
        cases h
        exact ⟨[], k :: path, [], rfl, List.cons_ne_nil _ _, rfl, rfl, hfind⟩
      | some node =>
        rw [hfind] at h
        cases hrest : c.descend (node.child k) path with
        | ok rest => simp [hrest, Except.map] at h
        | error e =>
          simp only [hrest, Except.map] at h
          cases h
          obtain ⟨above, below, nodes, rfl, hne, hdescend, hend, hnone⟩ := ih hrest
          refine ⟨k :: above, below, node :: nodes, rfl, hne, ?_, hend, hnone⟩
          exact descend_cons_eq_ok.mpr ⟨node, nodes, hfind, hdescend, rfl⟩
  · rintro ⟨above, below, nodes, rfl, hne, hdescend, rfl, hnone⟩
    obtain ⟨k, below, rfl⟩ := List.exists_cons_of_ne_nil hne
    rw [descend_append hdescend, descend, hnone]
    rfl

end PreimageCache

namespace View

variable {v v' : View f a} {key value : Element f} {e : TrieError f}

/-- The first commitment on a key's path that has no preimage. -/
def FirstUnknown (v : View f a) (key d : Element f) : Prop :=
  ∃ path, v.trie.path key = .ok path ∧ v.caches.preimages.FirstUnknown v.trie.root path d

theorem proveLookup_eq_missing :
    v.proveLookup key = .error (.missingPreimage d) ↔ v.FirstUnknown key d := by
  rw [proveLookup_eq, FirstUnknown, Trie.path, Arity.path_eq v.trie.height_le]
  split
  · simp only [Except.ok.injEq, exists_eq_left', ← PreimageCache.descend_eq_missing]
    cases v.caches.preimages.descend v.trie.root (a.digits v.trie.height key.val) <;>
      simp [Except.map]
  · simp

/-- A lookup of a key that has a path fails at nothing else. -/
theorem exists_of_proveLookup_eq_error (hk : key.val < a.width ^ v.trie.height)
    (h : v.proveLookup key = .error e) : ∃ d, e = .missingPreimage d ∧ v.FirstUnknown key d := by
  have missing : ∃ d, e = .missingPreimage d := by
    rw [proveLookup_eq, if_pos hk] at h
    cases hd : v.caches.preimages.descend v.trie.root (a.digits v.trie.height key.val) with
    | error e' =>
      rw [hd] at h
      cases h
      exact PreimageCache.descend_eq_error hd
    | ok nodes =>
      rw [hd] at h
      cases h
  obtain ⟨d, rfl⟩ := missing
  exact ⟨d, rfl, proveLookup_eq_missing.mp h⟩

/-- An insertion of a pair that can be inserted fails exactly where a lookup does. -/
theorem proveLookup_of_proveInsert_eq_error (hv : value ≠ 0)
    (hk : key.val < a.width ^ v.trie.height) (h : v.proveInsert H key value = (.error e, v')) :
    v.proveLookup key = .error e := by
  rw [proveInsert, if_neg hv, path_of_lt hk] at h
  rw [proveLookup_eq, if_pos hk]
  simp only [insertAt] at h
  cases hd : v.caches.preimages.descend v.trie.root (a.digits v.trie.height key.val) with
  | error e' =>
    rw [hd] at h
    cases h
    rfl
  | ok nodes =>
    rw [hd] at h
    dsimp only at h
    split at h
    · cases h
    · cases h

end View

end PoseidonTrie
