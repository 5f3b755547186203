import PoseidonTrie.Proofs.Trie.Rebuild

namespace PoseidonTrie

variable {f : PrimeField} {a : Arity} {H : Hasher f} {value leaf root : Element f}
  {c : DigestCache f} {k : Fin a.width} {node : Node f a.width} {path : List (Fin a.width)}
  {nodes : List (Node f a.width)}

/-- Every node hashes to the child chosen above it, the first one to the commitment, and the last
choice is the leaf. -/
def Chained (H : Hasher f) (commitment leaf : Element f) :
    (steps : List (Fin a.width × Node f a.width)) → Prop
  | [] => commitment = leaf
  | (k, node) :: steps => H a node = commitment ∧ Chained H (node.child k) leaf steps

/-- Where the choices along a path end, starting from a commitment. -/
def pathEnd (commitment : Element f) :
    (steps : List (Fin a.width × Node f a.width)) → Element f
  | [] => commitment
  | (k, node) :: steps => pathEnd (node.child k) steps

theorem Chained.pathEnd_eq {steps : List (Fin a.width × Node f a.width)}
    (h : Chained H root leaf steps) : pathEnd root steps = leaf := by
  induction steps generalizing root with
  | nil => exact h
  | cons step steps ih => exact ih h.2

namespace Node

@[simp] theorem put_child (node : Node f a.width) (k : Fin a.width) :
    node.put k (node.child k) = node := by
  simp [put, child]

theorem agreeOff_put (node : Node f a.width) (k : Fin a.width) (x : Element f) :
    Node.agreeOff k node (node.put k x) = true := by
  simp only [Node.agreeOff, List.all_eq_true, Bool.or_eq_true, decide_eq_true_eq]
  intro i _
  by_cases hi : i = k
  · exact Or.inl hi
  · exact Or.inr (node.child_put_of_ne hi x).symm

end Node

theorem Chained.rebuiltRoot_eq {steps : List (Fin a.width × Node f a.width)}
    (h : Chained H root leaf steps) : rebuiltRoot H leaf steps = root := by
  induction steps generalizing root with
  | nil => exact h.symm
  | cons step steps ih =>
    obtain ⟨k, node⟩ := step
    obtain ⟨hash, rest⟩ := h
    rw [rebuiltRoot, ih rest, Node.put_child, hash]

theorem Chained.rebuiltNodes_eq {steps : List (Fin a.width × Node f a.width)}
    (h : Chained H root leaf steps) : rebuiltNodes H leaf steps = steps.map (·.2) := by
  induction steps generalizing root with
  | nil => rfl
  | cons step steps ih =>
    obtain ⟨k, node⟩ := step
    rw [rebuiltNodes, ih h.2, h.2.rebuiltRoot_eq, Node.put_child, List.map_cons]

/-- The nodes of a chain are found under their own digests by going down from its root. -/
theorem Chained.descend {c : PreimageCache f} (h : Chained H root leaf (path.zip nodes))
    (hlen : nodes.length = path.length)
    (hfind : ∀ node ∈ nodes, c.find? a (H a node) = some node) :
    c.descend root path = .ok nodes := by
  induction path generalizing root nodes with
  | nil =>
    obtain rfl := List.length_eq_zero_iff.mp hlen
    rfl
  | cons k path ih =>
    match nodes, hlen with
    | node :: nodes, hlen =>
      obtain ⟨hash, h⟩ := h
      have below := ih h (Nat.succ.inj hlen) fun n hn => hfind n (List.mem_cons_of_mem _ hn)
      rw [PreimageCache.descend, ← hash, hfind node (List.mem_cons_self ..)]
      simp only [below]
      rfl

@[simp] theorem length_rebuiltNodes (steps : List (Fin a.width × Node f a.width)) :
    (rebuiltNodes H value steps).length = steps.length := by
  induction steps with
  | nil => rfl
  | cons step steps ih => rw [rebuiltNodes, List.length_cons, List.length_cons, ih]

theorem payloadAt_cons (node next : Node f a.width) (nodes : List (Node f a.width))
    (k j : Fin a.width) (path : List (Fin a.width)) :
    LookupProof.payloadAt ⟨node :: next :: nodes⟩ (k :: j :: path) =
      LookupProof.payloadAt ⟨next :: nodes⟩ (j :: path) := by
  simp [LookupProof.payloadAt]

theorem Chained.payloadAt_eq (h : Chained H root leaf ((k :: path).zip (node :: nodes)))
    (hlen : nodes.length = path.length) :
    LookupProof.payloadAt ⟨node :: nodes⟩ (k :: path) = leaf := by
  induction path generalizing k node nodes root with
  | nil =>
    obtain rfl := List.length_eq_zero_iff.mp hlen
    exact h.2
  | cons j path ih =>
    match nodes, hlen with
    | next :: nodes, hlen =>
      rw [payloadAt_cons]
      exact ih h.2 (Nat.succ.inj hlen)

theorem Chained.payloadAt_of_pos (h : Chained H root leaf (path.zip nodes))
    (hlen : nodes.length = path.length) (pos : 0 < path.length) :
    LookupProof.payloadAt ⟨nodes⟩ path = leaf := by
  match path, nodes, pos, hlen with
  | k :: path, node :: nodes, _, hlen => exact h.payloadAt_eq (Nat.succ.inj hlen)

@[simp] theorem length_nodesAbove {height n : Nat} (leaves : Leaves f) :
    (nodesAbove H a height leaves n).length = height := by
  induction height generalizing leaves n with
  | zero => rfl
  | succ height ih => rw [nodesAbove, List.length_cons, ih]

theorem chained_nodesAbove {height n : Nat} (leaves : Leaves f) (hn : n < a.width ^ height) :
    Chained H (commit H a height leaves) (leaves n)
      ((a.digits height n).zip (nodesAbove H a height leaves n)) := by
  induction height generalizing leaves n with
  | zero =>
    obtain rfl : n = 0 := by simpa using hn
    rfl
  | succ height ih =>
    obtain ⟨top, hd⟩ := digits_succ_of_lt hn
    have below := ih (leaves.under (a.width ^ height) (n / a.width ^ height)) (mod_lt_capacity n)
    rw [Leaves.under, Nat.div_add_mod'] at below
    rw [hd, nodesAbove, List.zip_cons_cons]
    refine ⟨rfl, ?_⟩
    rw [child_topNode]
    exact below

theorem chained_rebuilt (hlen : nodes.length = path.length) :
    Chained H (rebuiltRoot H value (path.zip nodes)) value
      (path.zip (rebuiltNodes H value (path.zip nodes))) := by
  induction path generalizing nodes with
  | nil => rfl
  | cons k path ih =>
    match nodes, hlen with
    | node :: nodes, hlen =>
      refine ⟨rfl, ?_⟩
      rw [Node.child_put_self]
      exact ih (Nat.succ.inj hlen)

/-- Climbing from the last node rebuilds the path over the payload that it has, and hashes the nodes
that this makes. -/
theorem climb_eq (k : Fin a.width) (node : Node f a.width) (hc : c.Correct H)
    (hlen : nodes.length = path.length) :
    climb H c node nodes (k :: path) =
      (rebuiltRoot H (LookupProof.payloadAt ⟨node :: nodes⟩ (k :: path))
          ((k :: path).zip (node :: nodes)),
        c.hashAll H (rebuiltNodes H (LookupProof.payloadAt ⟨node :: nodes⟩ (k :: path))
          ((k :: path).zip (node :: nodes)))) := by
  induction path generalizing k node nodes with
  | nil =>
    obtain rfl := List.length_eq_zero_iff.mp hlen
    have last : LookupProof.payloadAt ⟨[node]⟩ [k] = node.child k := rfl
    rw [climb]
    · rw [hc.hash_eq, last]
      simp [rebuiltRoot, rebuiltNodes, DigestCache.hashAll]
    · intro _ _ _ _ hn
      cases hn
  | cons j path ih =>
    obtain ⟨next, nodes, rfl⟩ := List.exists_cons_of_length_eq_add_one hlen
    have below := ih j next (Nat.succ.inj hlen)
    simp only [climb, below, payloadAt_cons]
    rw [(hc.hashAll _).hash_eq]
    rfl

end PoseidonTrie
