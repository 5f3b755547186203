import PoseidonTrie.Proofs.Trie.Binding

/-! Proofs in normal form. A verifier ignores the children on the path above the last node, so a
proof may say anything there. Its normal form says what the verifier recomputes. -/
namespace PoseidonTrie

variable {f : PrimeField} {a : Arity} {H : Hasher f} {key root value : Element f}
  {path : List (Fin a.width)} {nodes : List (Node f a.width)}

/-- Every node but the last has, for its child on the path, the commitment recomputed from below. -/
def normalNodes (H : Hasher f) :
    (nodes : List (Node f a.width)) → (path : List (Fin a.width)) → List (Node f a.width)
  | node :: next :: below, k :: path =>
    node.put k (climb H .empty next below path).1 :: normalNodes H (next :: below) path
  | nodes, _ => nodes

/-- What is recomputed from below is the path rebuilt over its own payload. -/
theorem normalNodes_eq (hlen : nodes.length = path.length) :
    normalNodes H nodes path =
      rebuiltNodes H (LookupProof.payloadAt ⟨nodes⟩ path) (path.zip nodes) := by
  induction path generalizing nodes with
  | nil =>
    obtain rfl := List.length_eq_zero_iff.mp hlen
    rfl
  | cons k path ih =>
    match nodes, path, hlen with
    | [node], [], _ =>
      have last : LookupProof.payloadAt ⟨[node]⟩ [k] = node.child k := rfl
      simp [normalNodes, last, rebuiltNodes, rebuiltRoot]
    | node :: next :: nodes, j :: path, hlen =>
      have count := Nat.succ.inj hlen
      have below := climb_eq (H := H) j next DigestCache.correct_empty (Nat.succ.inj count)
      rw [normalNodes, below, ih count, payloadAt_cons]
      rfl

namespace LookupProof

variable {p : LookupProof f a}

/-- The proof with every node as the key's path has it. -/
def normalize (H : Hasher f) (p : LookupProof f a) (key : Element f) : LookupProof f a :=
  match a.path key p.height with
  | .ok path => ⟨normalNodes H p.nodes path⟩
  | .error _ => p

theorem normalize_of_path (h : a.path key p.height = .ok path) :
    p.normalize H key = ⟨rebuiltNodes H (p.payloadAt path) (path.zip p.nodes)⟩ := by
  rw [normalize, h]
  exact congrArg mk (normalNodes_eq (Arity.length_of_path h).symm)

/-- Normalizing touches nothing that a verifier looks at. -/
theorem matchesOff_normalize (h : a.path key p.height = .ok path) :
    p.MatchesOff path (p.normalize H key) := by
  have length : p.nodes.length = path.length := (Arity.length_of_path h).symm
  rw [normalize_of_path h]
  exact ⟨(length_rebuiltNodes_zip _ length).symm, (getLast?_rebuiltNodes length rfl).symm,
    InsertProof.siblingsKept_rebuilt length⟩

theorem height_normalize : (p.normalize H key).height = p.height := by
  cases h : a.path key p.height with
  | ok path => exact (matchesOff_normalize h).height_eq.symm
  | error e => rw [normalize, h]

/-- The normal form of an accepted proof is what is hashed to verify it. -/
theorem Shows.nodes_normalize (h : p.Shows H root key value path) :
    (p.normalize H key).nodes = p.hashed H key value := by
  rw [normalize_of_path h.path_eq, hashed_of_path h.path_eq, h.payload_eq]

end LookupProof

end PoseidonTrie
