import PoseidonTrie.Proofs.Circuit.Insertion
import PoseidonTrie.Proofs.Circuit.Lookup
import PoseidonTrie.Proofs.Circuit.Witness
import PoseidonTrie.Proofs.Trie.Normal

/-! What verifiers accept is what can be shown in circuit. A verifier ignores children that a
circuit constrains, and an insertion's verifier compares two paths where a circuit derives the
second. Still the normal form of an accepted proof makes the circuit hold, and a circuit that holds
makes a proof that is accepted. -/
namespace PoseidonTrie.Circuit

variable {f : PrimeField} {a : Arity} {H : Hasher f} {s t : System f} {ns : Path} {height : Nat}
  {root key value : Num f} {r k x leaf newRoot : Element f} {nodes : List (Node f a.width)}
  {path : List (Fin a.width)} {c : DigestCache f}

/-- With the nodes for its witness, the circuit of a lookup holds and yields the leaf. -/
def LookupHolds (H : Hasher f) (ns : Path) (s : System f) (root key : Num f) (height : Nat)
    (nodes : List (Node f a.width)) (leaf : Element f) : Prop :=
  ∃ out t, lookupPath H ns a.width root key height (some nodes) s = .ok (out, t) ∧
    Satisfies H t.assignment (s.since t) ∧ out.leaf.Known t leaf

/-- With the nodes for its witness, the circuit of an insertion holds and yields the new root. -/
def InsertHolds (H : Hasher f) (ns : Path) (s : System f) (root key value : Num f) (height : Nat)
    (nodes : List (Node f a.width)) (newRoot : Element f) : Prop :=
  ∃ out t, insertPath H ns a.width root key value height (some nodes) s = .ok (out, t) ∧
    Satisfies H t.assignment (s.since t) ∧ out.Known t newRoot

/-- A verified path in normal form is one that a circuit can follow, to the payload. -/
theorem leads_normalize {p : LookupProof f a} (h : p.Shows H r k leaf path)
    (le : p.height ≤ fullHeight f a) :
    Leads H p.height r k (p.normalize H k).nodes ∧
      pathEnd r ((a.digits p.height k.val).zip (p.normalize H k).nodes) = leaf := by
  have chained := h.chained
  rw [← h.nodes_normalize] at chained
  obtain ⟨fits, rfl⟩ := Arity.path_eq_ok le h.path_eq
  have ends := chained.pathEnd_eq
  exact ⟨⟨fits, ends.symm ▸ chained⟩, ends⟩

theorem lookupHolds_normalize {p : LookupProof f a} (h : p.Shows H r k leaf path) (ns : Path)
    (hs : s.kind = .test) (hroot : root.Known s r) (hkey : key.Known s k)
    (le : p.height ≤ fullHeight f a) :
    LookupHolds H ns s root key p.height (p.normalize H k).nodes leaf := by
  obtain ⟨leads, ends⟩ := leads_normalize h le
  obtain ⟨out, t, hrun, known, holds⟩ := (computes_lookupPath (H := H) ns hroot hkey h.pos le
    LookupProof.height_normalize).run hs
  have yields := known.leaf
  rw [ends] at yields
  exact ⟨out, t, hrun, holds.mpr leads, yields⟩

theorem insertHolds_normalize {q : InsertProof f a} {old : Option (Element f)}
    (h : q.Shows H r newRoot k old x path) (ns : Path) (hs : s.kind = .test)
    (hroot : root.Known s r) (hkey : key.Known s k) (hvalue : value.Known s x)
    (le : q.old.height ≤ fullHeight f a) :
    InsertHolds H ns s root key value q.old.height (q.old.normalize H k).nodes newRoot := by
  obtain ⟨leads, -⟩ := leads_normalize h.old le
  obtain ⟨out, t, hrun, known, holds⟩ := (computes_insertPath (H := H) ns hroot hkey hvalue
    h.old.pos le LookupProof.height_normalize).run hs
  -- The circuit rebuilds its own path, and the verifier one that differs where it does not matter.
  have rebuilt := h.newRoot_eq
  rw [← h.old.nodes_normalize, (Arity.path_eq_ok le h.path_eq).2] at rebuilt
  rw [← rebuilt] at known
  exact ⟨out, t, hrun, holds.mpr ⟨leads, h.nonzero⟩, known⟩

theorem LookupHolds.accepted (h : LookupHolds H ns s root key height nodes leaf)
    (hs : s.kind = .test) (hroot : root.Known s r) (hkey : key.Known s k) (hc : c.Correct H) :
    ∃ p : LookupProof f a, p.height = height ∧ (p.verify H r k leaf c).1 = true := by
  obtain ⟨out, t, hrun, hsat, hleaf⟩ := h
  obtain ⟨cs, he, forced⟩ := (forces_lookup ..).of_run s out t (by rw [hs]; decide) hrun
  rw [he.since_eq] at hsat
  obtain ⟨path, own, looks, -⟩ := forced _ hsat
  have agrees := agrees_assignment t
  have early := agrees.mono he.auxes
  rw [hroot.eval early, hkey.eval early, hleaf.eval agrees] at looks
  exact ⟨⟨own⟩, looks.length, looks.verify hc⟩

theorem InsertHolds.accepted (h : InsertHolds H ns s root key value height nodes newRoot)
    (hs : s.kind = .test) (hroot : root.Known s r) (hkey : key.Known s k)
    (hvalue : value.Known s x) (hc : c.Correct H) :
    ∃ (q : InsertProof f a) (old : Option (Element f)),
      q.old.height = height ∧ (q.verify H r newRoot k old x c).1 = true := by
  obtain ⟨out, t, hrun, hsat, hnew⟩ := h
  obtain ⟨cs, he, forced⟩ := (forces_insertPath ..).of_run s out t (by rw [hs]; decide) hrun
  rw [he.since_eq] at hsat
  obtain ⟨path, own, leaf, inserts, -⟩ := forced _ hsat
  have agrees := agrees_assignment t
  have early := agrees.mono he.auxes
  rw [hroot.eval early, hkey.eval early, hvalue.eval early, hnew.eval agrees] at inserts
  exact ⟨⟨⟨own⟩, ⟨rebuiltNodes H x (path.zip own)⟩⟩, some leaf, inserts.length,
    inserts.verify hc⟩

/-- The normal form of a lookup proof that a verifier accepts makes the lookup circuit hold, with
the value for its leaf, and that of the old path of an insertion proof makes the insertion circuit
hold, with the new root for its result. So the statements that have an accepted proof are those that
have a circuit that holds. -/
theorem accepted_holds (H : Hasher f) (a : Arity) (ns : Path) (s : System f) (hs : s.kind = .test)
    (root key value : Num f) (r k x : Element f) (hroot : root.Known s r) (hkey : key.Known s k)
    (hvalue : value.Known s x) (height : Nat) (le : height ≤ fullHeight f a) (c : DigestCache f)
    (hc : c.Correct H) :
    (∀ (p : LookupProof f a) (v : Element f), p.height = height →
      (p.verify H r k v c).1 = true →
        LookupHolds H ns s root key height (p.normalize H k).nodes v) ∧
    (∀ (q : InsertProof f a) (newRoot : Element f) (old : Option (Element f)),
      q.old.height = height → (q.verify H r newRoot k old x c).1 = true →
        InsertHolds H ns s root key value height (q.old.normalize H k).nodes newRoot) ∧
    (∀ v, (∃ p : LookupProof f a, p.height = height ∧ (p.verify H r k v c).1 = true) ↔
      ∃ nodes : List (Node f a.width), LookupHolds H ns s root key height nodes v) ∧
    ∀ newRoot, (∃ (q : InsertProof f a) (old : Option (Element f)),
        q.old.height = height ∧ (q.verify H r newRoot k old x c).1 = true) ↔
      ∃ nodes : List (Node f a.width), InsertHolds H ns s root key value height nodes newRoot := by
  have lookups : ∀ (p : LookupProof f a) (v : Element f), p.height = height →
      (p.verify H r k v c).1 = true →
        LookupHolds H ns s root key height (p.normalize H k).nodes v := by
    rintro p v rfl accepted
    obtain ⟨path, shows⟩ := (LookupProof.verify_eq_true_iff hc).mp accepted
    exact lookupHolds_normalize shows ns hs hroot hkey le
  have insertions : ∀ (q : InsertProof f a) (newRoot : Element f) (old : Option (Element f)),
      q.old.height = height → (q.verify H r newRoot k old x c).1 = true →
        InsertHolds H ns s root key value height (q.old.normalize H k).nodes newRoot := by
    rintro q newRoot old rfl accepted
    obtain ⟨path, shows⟩ := InsertProof.shows_of_verify hc accepted
    exact insertHolds_normalize shows ns hs hroot hkey hvalue le
  refine ⟨lookups, insertions, fun v => ⟨?_, ?_⟩, fun newRoot => ⟨?_, ?_⟩⟩
  · rintro ⟨p, hheight, accepted⟩
    exact ⟨_, lookups p v hheight accepted⟩
  · rintro ⟨nodes, holds⟩
    exact holds.accepted hs hroot hkey hc
  · rintro ⟨q, old, hheight, accepted⟩
    exact ⟨_, insertions q newRoot old hheight accepted⟩
  · rintro ⟨nodes, holds⟩
    exact holds.accepted hs hroot hkey hvalue hc

/-- A system with the numbers two, one and one: a root, a key and a value. -/
def rootTwo : System .pallasBase :=
  (((System.empty .test).addVariable [.num, .root] (some (1 + 1))).addVariable [.num, .key]
    (some 1)).addVariable [.num, .value] (some 1)

open LookupProof

/-- A proof with a wrong commitment below the root is accepted, and in normal form it makes the
circuits hold, also that of putting the value that is there already. -/
theorem accepted_holds_belowRoot :
    LookupHolds weigh [.select] rootTwo ⟨0, some (1 + 1)⟩ ⟨1, some 1⟩ 2
        ((belowRoot 0).normalize weigh 1).nodes 1 ∧
      InsertHolds weigh [.insert] rootTwo ⟨0, some (1 + 1)⟩ ⟨1, some 1⟩ ⟨2, some 1⟩ 2
        ((belowRoot 0).normalize weigh 1).nodes (1 + 1) := by
  have le : 2 ≤ fullHeight .pallasBase .binary := by decide
  have correct : DigestCache.Correct weigh (.empty : DigestCache .pallasBase) :=
    DigestCache.correct_empty
  have looked : ((belowRoot 0).verify weigh (1 + 1) 1 1 .empty).1 = true :=
    (verify_eq_true_iff correct).mpr ⟨_, shows_belowRoot⟩
  have put : (InsertProof.verify weigh ⟨belowRoot 0, belowRoot 0⟩ (1 + 1) (1 + 1) 1 (some 1) 1
      .empty).1 = true :=
    (InsertProof.verify_eq_true_iff correct).mpr
      ⟨one_ne_zero, rfl, _, shows_belowRoot, shows_belowRoot, by decide⟩
  obtain ⟨lookups, -⟩ := accepted_holds weigh .binary [.select] rootTwo rfl
    ⟨0, some (1 + 1)⟩ ⟨1, some 1⟩ ⟨2, some 1⟩ (1 + 1) 1 1
    ⟨rfl, _, rfl⟩ ⟨rfl, _, rfl⟩ ⟨rfl, _, rfl⟩ 2 le .empty correct
  obtain ⟨-, insertions, -⟩ := accepted_holds weigh .binary [.insert] rootTwo rfl
    ⟨0, some (1 + 1)⟩ ⟨1, some 1⟩ ⟨2, some 1⟩ (1 + 1) 1 1
    ⟨rfl, _, rfl⟩ ⟨rfl, _, rfl⟩ ⟨rfl, _, rfl⟩ 2 le .empty correct
  exact ⟨lookups _ _ rfl looked, insertions ⟨belowRoot 0, belowRoot 0⟩ _ _ rfl put⟩

end PoseidonTrie.Circuit
