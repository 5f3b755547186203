import PoseidonTrie.Proofs.Trie.Chain
import PoseidonTrie.Proofs.Trie.Sequence

/-! What lookups and insertions meet under any root at all, through caches that hold only correct
entries. Whatever nodes are found, they are a chain from the root. -/
namespace PoseidonTrie

variable {f : PrimeField} {a : Arity} {H : Hasher f} {root : Element f}
  {path : List (Fin a.width)} {nodes : List (Node f a.width)} {e : TrieError f}

namespace PreimageCache

variable {c : PreimageCache f} {k : Fin a.width}

theorem descend_cons_eq_ok :
    c.descend root (k :: path) = .ok nodes ↔
      ∃ node rest, c.find? a root = some node ∧ c.descend (node.child k) path = .ok rest ∧
        nodes = node :: rest := by
  rw [descend]
  cases hfind : c.find? a root with
  | none => simp
  | some node =>
    cases hrest : c.descend (node.child k) path with
    | error e => simp [hrest, Except.map]
    | ok rest => simp [hrest, Except.map, eq_comm]

theorem length_descend (h : c.descend root path = .ok nodes) : nodes.length = path.length := by
  induction path generalizing root nodes with
  | nil =>
    cases h
    rfl
  | cons k path ih =>
    obtain ⟨node, rest, _, hrest, rfl⟩ := descend_cons_eq_ok.mp h
    rw [List.length_cons, List.length_cons, ih hrest]

/-- Each node found was registered for the child chosen above it, so it hashes to that child. -/
theorem Correct.chained (hc : c.Correct H) (h : c.descend root path = .ok nodes) :
    Chained H root (pathEnd root (path.zip nodes)) (path.zip nodes) := by
  induction path generalizing root nodes with
  | nil => rfl
  | cons k path ih =>
    obtain ⟨node, rest, hfind, hrest, rfl⟩ := descend_cons_eq_ok.mp h
    exact ⟨hc a root node hfind, ih hrest⟩

theorem descend_eq_error (h : c.descend root path = .error e) :
    ∃ d, e = .missingPreimage d := by
  induction path generalizing root with
  | nil => cases h
  | cons k path ih =>
    rw [descend] at h
    cases hfind : c.find? a root with
    | none =>
      rw [hfind] at h
      cases h
      exact ⟨root, rfl⟩
    | some node =>
      rw [hfind] at h
      cases hrest : c.descend (node.child k) path with
      | error e' =>
        simp only [hrest, Except.map] at h
        cases h
        exact ih hrest
      | ok rest => simp [hrest, Except.map] at h

end PreimageCache

namespace View

variable {v v' : View f a} {key value : Element f} {proof : LookupProof f a}

/-- The nodes are those on the key's path, which all are known. -/
structure Finds (v : View f a) (key : Element f) (nodes : List (Node f a.width)) : Prop where
  key_lt : key.val < a.width ^ v.trie.height
  descend : v.caches.preimages.descend v.trie.root (a.digits v.trie.height key.val) = .ok nodes

theorem proveLookup_eq (v : View f a) (key : Element f) :
    v.proveLookup key =
      if key.val < a.width ^ v.trie.height then
        (v.caches.preimages.descend v.trie.root (a.digits v.trie.height key.val)).map (⟨·⟩)
      else
        .error (.keyOutOfRange key v.trie.height) := by
  rw [proveLookup, Trie.path, Arity.path_eq v.trie.height_le]
  split
  · change (v.caches.preimages.descend v.trie.root _ >>= _) = _
    cases v.caches.preimages.descend v.trie.root (a.digits v.trie.height key.val) <;> rfl
  · rfl

theorem proveLookup_eq_ok : v.proveLookup key = .ok proof ↔ v.Finds key proof.nodes := by
  obtain ⟨nodes⟩ := proof
  rw [proveLookup_eq]
  constructor
  · intro h
    split at h
    · rename_i hk
      cases hd : v.caches.preimages.descend v.trie.root (a.digits v.trie.height key.val) with
      | error e =>
        rw [hd] at h
        cases h
      | ok nodes' =>
        rw [hd] at h
        cases h
        exact ⟨hk, hd⟩
    · cases h
  · intro h
    rw [if_pos h.key_lt, h.descend]
    rfl

theorem lookup_eq_ok {payload : Option (Element f)} (h : v.lookup key = .ok payload) :
    ∃ nodes, v.Finds key nodes := by
  rw [View.lookup, Trie.path, Arity.path_eq v.trie.height_le] at h
  split at h
  · rename_i hk
    change (v.caches.preimages.descend v.trie.root _ >>= _) = _ at h
    cases hd : v.caches.preimages.descend v.trie.root (a.digits v.trie.height key.val) with
    | error e =>
      rw [hd] at h
      cases h
    | ok nodes => exact ⟨nodes, hk, hd⟩
  · cases h

/-- A lookup fails on a key without a path, or where a node of the path is not known. -/
theorem proveLookup_eq_error (h : v.proveLookup key = .error e) :
    e = .keyOutOfRange key v.trie.height ∨ ∃ d, e = .missingPreimage d := by
  rw [proveLookup_eq] at h
  split at h
  · cases hd : v.caches.preimages.descend v.trie.root (a.digits v.trie.height key.val) with
    | error e' =>
      rw [hd] at h
      cases h
      exact Or.inr (PreimageCache.descend_eq_error hd)
    | ok nodes =>
      rw [hd] at h
      cases h
  · cases h
    exact Or.inl rfl

/-- An insertion that succeeds was given a value, and found the path that it proves. -/
theorem proveInsert_eq_ok {r : InsertProof f a × Bool}
    (h : v.proveInsert H key value = (.ok r, v')) : value ≠ 0 ∧ v.Finds key r.1.old.nodes := by
  rw [proveInsert] at h
  by_cases hv : value = 0
  · rw [if_pos hv] at h
    cases h
  · rw [if_neg hv, Trie.path, Arity.path_eq v.trie.height_le] at h
    by_cases hk : key.val < a.width ^ v.trie.height
    · rw [if_pos hk] at h
      dsimp only [insertAt] at h
      cases hd : v.caches.preimages.descend v.trie.root (a.digits v.trie.height key.val) with
      | error e =>
        rw [hd] at h
        cases h
      | ok nodes =>
        rw [hd] at h
        dsimp only at h
        split at h
        · cases h
          exact ⟨hv, hk, hd⟩
        · cases h
          exact ⟨hv, hk, hd⟩
    · rw [if_neg hk] at h
      cases h

theorem insert_of_proveInsert {q : InsertProof f a} {changed : Bool}
    (h : v.proveInsert H key value = (.ok (q, changed), v')) :
    v.insert H key value = (.ok changed, v') := by
  rw [View.insert, h]
  rfl

theorem insert_eq_ok {changed : Bool} (h : v.insert H key value = (.ok changed, v')) :
    ∃ q, v.proveInsert H key value = (.ok (q, changed), v') := by
  cases hp : v.proveInsert H key value with
  | mk r v₁ =>
    rw [View.insert, hp] at h
    cases r with
    | error e => simp [Except.map] at h
    | ok r =>
      cases h
      exact ⟨r.1, rfl⟩

namespace Finds

theorem length_eq (h : v.Finds key nodes) : nodes.length = v.trie.height := by
  rw [PreimageCache.length_descend h.descend, Arity.length_digits]

theorem chained (h : v.Finds key nodes) (hc : v.caches.Correct H) :
    Chained H v.trie.root
      (pathEnd v.trie.root ((a.digits v.trie.height key.val).zip nodes))
      ((a.digits v.trie.height key.val).zip nodes) :=
  hc.preimages.chained h.descend

theorem payloadAt_eq (h : v.Finds key nodes) (hc : v.caches.Correct H) :
    LookupProof.payloadAt ⟨nodes⟩ (a.digits v.trie.height key.val) =
      pathEnd v.trie.root ((a.digits v.trie.height key.val).zip nodes) := by
  apply (h.chained hc).payloadAt_of_pos (PreimageCache.length_descend h.descend)
  rw [Arity.length_digits]
  exact v.trie.height_pos

theorem lookup (h : v.Finds key nodes) (hc : v.caches.Correct H) :
    ∃ payload, v.lookup key = .ok payload ∧
      payload.getD 0 = pathEnd v.trie.root ((a.digits v.trie.height key.val).zip nodes) := by
  rw [View.lookup, path_of_lt h.key_lt]
  change ∃ payload, (v.caches.preimages.descend v.trie.root _ >>= _) = _ ∧ _
  rw [h.descend, ← h.payloadAt_eq hc]
  refine ⟨_, rfl, ?_⟩
  split
  · rename_i hz
    exact hz.symm
  · rfl

/-- What an insertion does where the path is found: nothing if it ends at the value, and else its
nodes are rebuilt over the value and registered. -/
theorem proveInsert_eq (h : v.Finds key nodes) (hc : v.caches.Correct H) (hv : value ≠ 0) :
    v.proveInsert H key value =
      if pathEnd v.trie.root ((a.digits v.trie.height key.val).zip nodes) = value then
        (.ok (⟨⟨nodes⟩, ⟨nodes⟩⟩, false), v)
      else
        (.ok (⟨⟨nodes⟩,
          ⟨rebuiltNodes H value ((a.digits v.trie.height key.val).zip nodes)⟩⟩, true),
          ⟨v.trie.withRoot (rebuiltRoot H value ((a.digits v.trie.height key.val).zip nodes)),
            v.caches.registerAll H
              (rebuiltNodes H value ((a.digits v.trie.height key.val).zip nodes))⟩) := by
  rw [View.proveInsert, if_neg hv, path_of_lt h.key_lt]
  simp only [insertAt, h.descend, h.payloadAt_eq hc, Caches.rebuild_eq hc.digests]

/-- The old path is the one found. The new one is what it is rebuilt to, also where that changes
nothing, and its nodes are what is registered if something changes. -/
theorem proveInsert (h : v.Finds key nodes) (hc : v.caches.Correct H) (hv : value ≠ 0) :
    ∃ changed v', v.proveInsert H key value =
        (.ok (⟨⟨nodes⟩,
          ⟨rebuiltNodes H value ((a.digits v.trie.height key.val).zip nodes)⟩⟩, changed), v') ∧
      v'.trie.height = v.trie.height ∧ v'.caches.Correct H ∧
        v'.trie.root = rebuiltRoot H value ((a.digits v.trie.height key.val).zip nodes) ∧
          (changed = false ∧ v' = v ∧
              rebuiltNodes H value ((a.digits v.trie.height key.val).zip nodes) = nodes ∨
            changed = true ∧ v'.caches = v.caches.registerAll H
              (rebuiltNodes H value ((a.digits v.trie.height key.val).zip nodes))) := by
  rw [h.proveInsert_eq hc hv]
  by_cases same : pathEnd v.trie.root ((a.digits v.trie.height key.val).zip nodes) = value
  · have chained := h.chained hc
    rw [same] at chained
    have kept := chained.rebuiltNodes_eq
    rw [List.map_snd_zip (Nat.le_of_eq (PreimageCache.length_descend h.descend))] at kept
    rw [if_pos same, kept, chained.rebuiltRoot_eq]
    exact ⟨_, _, rfl, rfl, hc, rfl, Or.inl ⟨rfl, rfl, rfl⟩⟩
  · rw [if_neg same]
    exact ⟨_, _, rfl, rfl, (Caches.grows_registerAll _).keepsCorrect hc, rfl, Or.inr ⟨rfl, rfl⟩⟩

end Finds

end View

end PoseidonTrie
