import PoseidonTrie.Proofs.Trie.Chain

/-! What verifiers accept, whatever nodes a proof is made of. A lookup is accepted exactly if its
path, rebuilt over the payload that it has, leads to the root. An insertion leads to the root of the
old path rebuilt over the new value, and no other. -/
namespace PoseidonTrie

variable {f : PrimeField} {a : Arity} {H : Hasher f} {value key root leaf : Element f}
  {c : DigestCache f} {k : Fin a.width} {path : List (Fin a.width)}
  {nodes nodes' : List (Node f a.width)}

theorem Node.put_eq_of_agreeOff {old new : Node f a.width} (h : Node.agreeOff k old new = true)
    (x : Element f) : new.put k x = old.put k x := by
  rw [Node.agreeOff, List.all_eq_true] at h
  apply Node.ext_child
  intro i
  by_cases hi : i = k
  · subst hi
    rw [Node.child_put_self, Node.child_put_self]
  · have same := h i (List.mem_finRange i)
    rw [Node.child_put_of_ne _ hi, Node.child_put_of_ne _ hi]
    simpa [hi, eq_comm] using same

theorem InsertProof.rebuiltRoot_eq (h : InsertProof.siblingsKept ⟨⟨nodes⟩, ⟨nodes'⟩⟩ path = true)
    (hlen : nodes.length = path.length) (hlen' : nodes'.length = path.length) :
    rebuiltRoot H value (path.zip nodes') = rebuiltRoot H value (path.zip nodes) := by
  induction path generalizing nodes nodes' with
  | nil => rfl
  | cons k path ih =>
    match nodes, nodes', hlen, hlen' with
    | node :: nodes, node' :: nodes', hlen, hlen' =>
      simp only [siblingsKept, List.zip_cons_cons, List.all_cons, Bool.and_eq_true] at h
      rw [List.zip_cons_cons, List.zip_cons_cons, rebuiltRoot, rebuiltRoot,
        ih h.2 (Nat.succ.inj hlen) (Nat.succ.inj hlen'), Node.put_eq_of_agreeOff h.1]

theorem InsertProof.siblingsKept_rebuilt (hlen : nodes.length = path.length) :
    InsertProof.siblingsKept ⟨⟨nodes⟩, ⟨rebuiltNodes H value (path.zip nodes)⟩⟩ path = true := by
  rw [siblingsKept]
  induction path generalizing nodes with
  | nil => rfl
  | cons k path ih =>
    match nodes, hlen with
    | node :: nodes, hlen =>
      rw [List.zip_cons_cons, rebuiltNodes, List.zip_cons_cons, List.zip_cons_cons, List.all_cons]
      exact Bool.and_eq_true_iff.mpr ⟨Node.agreeOff_put .., ih (Nat.succ.inj hlen)⟩

theorem length_rebuiltNodes_zip (value : Element f) (hlen : nodes.length = path.length) :
    (rebuiltNodes H value (path.zip nodes)).length = nodes.length := by
  rw [length_rebuiltNodes, List.length_zip, hlen, Nat.min_self]

theorem rebuiltRoot_rebuiltNodes (value' : Element f) (hlen : nodes.length = path.length) :
    rebuiltRoot H value' (path.zip (rebuiltNodes H value (path.zip nodes))) =
      rebuiltRoot H value' (path.zip nodes) :=
  InsertProof.rebuiltRoot_eq (InsertProof.siblingsKept_rebuilt hlen) hlen
    ((length_rebuiltNodes_zip value hlen).trans hlen)

namespace LookupProof

variable {p : LookupProof f a}

/-- The nodes that a verifier of a lookup hashes, each with the digest from below in its place. -/
def hashed (H : Hasher f) (p : LookupProof f a) (key value : Element f) :
    List (Node f a.width) :=
  match a.path key p.height with
  | .ok path => rebuiltNodes H value (path.zip p.nodes)
  | .error _ => []

theorem hashed_of_path (h : a.path key p.height = .ok path) :
    p.hashed H key value = rebuiltNodes H value (path.zip p.nodes) := by
  rw [hashed, h]

/-- What an accepted proof shows of a lookup. -/
structure Shows (H : Hasher f) (p : LookupProof f a) (root key value : Element f)
    (path : List (Fin a.width)) : Prop where
  path_eq : a.path key p.height = .ok path
  pos : 0 < p.height
  payload_eq : p.payloadAt path = value
  root_eq : root = rebuiltRoot H value (path.zip p.nodes)

theorem Shows.length_eq (h : p.Shows H root key value path) : p.nodes.length = path.length :=
  (Arity.length_of_path h.path_eq).symm

/-- Along a path the root is recomputed, and nothing is hashed but the nodes rebuilt. -/
theorem recomputeRoot_eq (hc : c.Correct H) (hpath : a.path key p.height = .ok path)
    (pos : 0 < p.height) :
    p.recomputeRoot H key c =
      (some (rebuiltRoot H (p.payloadAt path) (path.zip p.nodes)),
        c.hashAll H (p.hashed H key (p.payloadAt path))) := by
  rw [hashed_of_path hpath]
  have length : path.length = p.nodes.length := Arity.length_of_path hpath
  obtain ⟨_ | ⟨node, nodes⟩⟩ := p
  · cases pos
  · obtain ⟨k, path, rfl⟩ := List.exists_cons_of_length_eq_add_one length
    simp only [recomputeRoot, hpath, climb_eq k node hc (Nat.succ.inj length).symm]

theorem recomputeRoot_eq_none (h : ∀ path, a.path key p.height = .ok path → p.height = 0) :
    p.recomputeRoot H key c = (none, c) := by
  obtain ⟨nodes⟩ := p
  rw [recomputeRoot]
  cases hpath : a.path key (height ⟨nodes⟩) with
  | error e => rfl
  | ok path =>
    obtain rfl := List.length_eq_zero_iff.mp (h path hpath)
    rfl

theorem correct_recomputeRoot (hc : c.Correct H) : (p.recomputeRoot H key c).2.Correct H := by
  by_cases h : ∃ path, a.path key p.height = .ok path ∧ 0 < p.height
  · obtain ⟨path, hpath, pos⟩ := h
    rw [recomputeRoot_eq hc hpath pos]
    exact hc.hashAll _
  · rw [recomputeRoot_eq_none fun path hpath =>
      Nat.eq_zero_of_not_pos fun pos => h ⟨path, hpath, pos⟩]
    exact hc

theorem correct_verify (hc : c.Correct H) : (p.verify H root key value c).2.Correct H := by
  rw [verify]
  split
  · exact correct_recomputeRoot hc
  · exact hc

/-- A lookup is accepted exactly if its path, rebuilt over the payload, leads to the root. -/
theorem verify_eq_true_iff (hc : c.Correct H) :
    (p.verify H root key value c).1 = true ↔ ∃ path, p.Shows H root key value path := by
  rw [verify]
  constructor
  · intro h
    split at h
    · rename_i hpayload
      cases hpath : a.path key p.height with
      | error e => simp [payload, hpath] at hpayload
      | ok path =>
        rw [payload, hpath] at hpayload
        have paid : p.payloadAt path = value := Option.some.inj hpayload
        have root_eq := of_decide_eq_true h
        -- Without nodes there is no root to compare.
        have pos : 0 < p.height := by
          apply Nat.pos_of_ne_zero
          intro zero
          rw [recomputeRoot_eq_none fun _ _ => zero] at root_eq
          cases root_eq
        rw [recomputeRoot_eq hc hpath pos, paid] at root_eq
        exact ⟨path, hpath, pos, paid, (Option.some.inj root_eq).symm⟩
    · cases h
  · rintro ⟨path, hpath, pos, paid, rfl⟩
    have hpayload : p.payload key = some value := by
      rw [payload, hpath]
      exact congrArg some paid
    rw [if_pos hpayload, recomputeRoot_eq hc hpath pos, paid]
    exact decide_eq_true rfl

/-- A proof whose nodes are a chain shows the lookup of its leaf. -/
theorem shows_of_chained (h : Chained H root leaf (path.zip nodes))
    (hpath : a.path key nodes.length = .ok path) (pos : 0 < nodes.length) :
    LookupProof.Shows H ⟨nodes⟩ root key leaf path := by
  have length : nodes.length = path.length := (Arity.length_of_path hpath).symm
  exact ⟨hpath, pos, h.payloadAt_of_pos length (length ▸ pos), h.rebuiltRoot_eq.symm⟩

/-- The nodes as they are hashed are a chain from the root to the payload. -/
theorem Shows.chained (h : p.Shows H root key value path) :
    Chained H root value (path.zip (p.hashed H key value)) := by
  rw [hashed_of_path h.path_eq, h.root_eq]
  exact chained_rebuilt h.length_eq

theorem Shows.length_hashed (h : p.Shows H root key value path) :
    (p.hashed H key value).length = p.height := by
  rw [hashed_of_path h.path_eq, length_rebuiltNodes_zip value h.length_eq, height]

end LookupProof

namespace InsertProof

variable {q : InsertProof f a} {oldRoot newRoot newValue : Element f}
  {oldValue : Option (Element f)}

theorem correct_verify (hc : c.Correct H) :
    (q.verify H oldRoot newRoot key oldValue newValue c).2.Correct H := by
  rw [verify]
  split
  · exact hc
  · split
    · exact hc
    · exact LookupProof.correct_verify (LookupProof.correct_verify hc)

/-- An insertion is accepted exactly if both its lookups are, along one path whose siblings it
keeps, and there is a value. -/
theorem verify_eq_true_iff (hc : c.Correct H) :
    (q.verify H oldRoot newRoot key oldValue newValue c).1 = true ↔
      newValue ≠ 0 ∧ q.old.height = q.new.height ∧
        ∃ path, q.old.Shows H oldRoot key (oldValue.getD 0) path ∧
          q.new.Shows H newRoot key newValue path ∧ q.siblingsKept path = true := by
  rw [verify]
  constructor
  · intro h
    split at h
    · cases h
    · rename_i hsame
      obtain ⟨nonzero, heights⟩ := not_or.mp hsame
      have heights : q.old.height = q.new.height := not_not.mp heights
      cases hpath : a.path key q.old.height with
      | error e =>
        rw [hpath] at h
        cases h
      | ok path =>
        rw [hpath] at h
        obtain ⟨accepted, kept⟩ := Bool.and_eq_true_iff.mp h
        obtain ⟨oldOk, newOk⟩ := Bool.and_eq_true_iff.mp accepted
        obtain ⟨path₁, old⟩ := (LookupProof.verify_eq_true_iff hc).mp oldOk
        obtain ⟨path₂, new⟩ :=
          (LookupProof.verify_eq_true_iff (LookupProof.correct_verify hc)).mp newOk
        obtain rfl : path = path₁ := Except.ok.inj (hpath.symm.trans old.path_eq)
        obtain rfl : path = path₂ := Except.ok.inj (hpath.symm.trans (heights ▸ new.path_eq))
        exact ⟨nonzero, heights, path, old, new, kept⟩
  · rintro ⟨nonzero, heights, path, old, new, kept⟩
    have same : ¬(newValue = 0 ∨ q.old.height ≠ q.new.height) :=
      not_or.mpr ⟨nonzero, not_not.mpr heights⟩
    have oldOk := (LookupProof.verify_eq_true_iff hc).mpr ⟨path, old⟩
    have correct : (q.old.verify H oldRoot key (oldValue.getD 0) c).2.Correct H :=
      LookupProof.correct_verify hc
    have newOk := (LookupProof.verify_eq_true_iff correct).mpr ⟨path, new⟩
    rw [if_neg same, old.path_eq]
    simp only [oldOk, newOk, kept, Bool.and_self]

/-- What a verifier that accepts an insertion knows of the roots. -/
structure Shows (H : Hasher f) (q : InsertProof f a) (oldRoot newRoot key : Element f)
    (oldValue : Option (Element f)) (newValue : Element f) (path : List (Fin a.width)) : Prop where
  nonzero : newValue ≠ 0
  old : q.old.Shows H oldRoot key (oldValue.getD 0) path
  new_eq : newRoot = rebuiltRoot H newValue (path.zip q.old.nodes)

theorem Shows.path_eq (h : q.Shows H oldRoot newRoot key oldValue newValue path) :
    a.path key q.old.height = .ok path :=
  h.old.path_eq

/-- Both lookups are along one path, and the siblings kept make the new one that of the old. -/
theorem shows_of_verify (hc : c.Correct H)
    (h : (q.verify H oldRoot newRoot key oldValue newValue c).1 = true) :
    ∃ path, q.Shows H oldRoot newRoot key oldValue newValue path := by
  obtain ⟨nonzero, -, path, old, new, kept⟩ := (verify_eq_true_iff hc).mp h
  refine ⟨path, nonzero, old, ?_⟩
  rw [new.root_eq]
  exact rebuiltRoot_eq kept old.length_eq new.length_eq

/-- It does not matter for the new root that the old path is taken as it is hashed. -/
theorem Shows.newRoot_eq (h : q.Shows H oldRoot newRoot key oldValue newValue path) :
    newRoot = rebuiltRoot H newValue (path.zip (q.old.hashed H key (oldValue.getD 0))) := by
  rw [LookupProof.hashed_of_path h.old.path_eq,
    rebuiltRoot_rebuiltNodes newValue h.old.length_eq]
  exact h.new_eq

theorem verify_of_chained (h : Chained H root leaf (path.zip nodes)) (hc : c.Correct H)
    (hold : oldValue.getD 0 = leaf) (hv : value ≠ 0)
    (hpath : a.path key nodes.length = .ok path) (pos : 0 < nodes.length) :
    (InsertProof.verify H ⟨⟨nodes⟩, ⟨rebuiltNodes H value (path.zip nodes)⟩⟩ root
      (rebuiltRoot H value (path.zip nodes)) key oldValue value c).1 = true := by
  have count : nodes.length = path.length := (Arity.length_of_path hpath).symm
  have same := length_rebuiltNodes_zip (H := H) value count
  have old : LookupProof.Shows H ⟨nodes⟩ root key (oldValue.getD 0) path :=
    LookupProof.shows_of_chained (hold ▸ h) hpath pos
  have rebuilt : Chained H (rebuiltRoot H value (path.zip nodes)) value
    (path.zip (rebuiltNodes H value (path.zip nodes))) := chained_rebuilt count
  have new := LookupProof.shows_of_chained rebuilt (same.symm ▸ hpath) (same.symm ▸ pos)
  exact (verify_eq_true_iff hc).mpr ⟨hv, same.symm, path, old, new, siblingsKept_rebuilt count⟩

end InsertProof

end PoseidonTrie
