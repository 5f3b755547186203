import PoseidonTrie.Proofs.Forest.Persistence
import PoseidonTrie.Proofs.Trie.Descent
import PoseidonTrie.Proofs.Trie.Verify

/-! What a trie proves, a verifier accepts. This needs correct caches and nothing of collisions.
Only that the trie finds the new path again, once it is registered, rests on the nodes of that
path. -/
namespace PoseidonTrie

variable {f : PrimeField} {a : Arity} {H : Hasher f}

namespace View

variable {v : View f a} {key value : Element f} {nodes : List (Node f a.width)} {c : DigestCache f}

theorem Finds.shows (h : v.Finds key nodes) (hv : v.caches.Correct H) :
    LookupProof.Shows H ⟨nodes⟩ v.trie.root key
      (pathEnd v.trie.root ((a.digits v.trie.height key.val).zip nodes))
      (a.digits v.trie.height key.val) := by
  have length := h.length_eq
  apply LookupProof.shows_of_chained (h.chained hv)
  · rw [length]
    exact path_of_lt h.key_lt
  · rw [length]
    exact v.trie.height_pos

/-- A lookup's proof is accepted for the payload that the lookup reports, and for no other. -/
theorem Finds.verify_iff (h : v.Finds key nodes) (hv : v.caches.Correct H) (hc : c.Correct H) :
    ∃ payload, v.lookup key = .ok payload ∧
      ∀ value, (LookupProof.verify H ⟨nodes⟩ v.trie.root key value c).1 = true ↔
        value = payload.getD 0 := by
  obtain ⟨payload, hlookup, hpayload⟩ := h.lookup hv
  have shows := h.shows hv
  rw [← hpayload] at shows
  refine ⟨payload, hlookup, fun value => ?_⟩
  rw [LookupProof.verify_eq_true_iff hc]
  constructor
  · rintro ⟨path, shows'⟩
    obtain rfl := Except.ok.inj (shows.path_eq.symm.trans shows'.path_eq)
    exact shows'.payload_eq.symm.trans shows.payload_eq
  · rintro rfl
    exact ⟨_, shows⟩

theorem Finds.insert_accepted (h : v.Finds key nodes) (hv : v.caches.Correct H)
    (hc : c.Correct H) (nonzero : value ≠ 0) :
    ∃ old, v.lookup key = .ok old ∧
      (InsertProof.verify H
        ⟨⟨nodes⟩, ⟨rebuiltNodes H value ((a.digits v.trie.height key.val).zip nodes)⟩⟩ v.trie.root
        (rebuiltRoot H value ((a.digits v.trie.height key.val).zip nodes)) key old value c).1 =
          true := by
  obtain ⟨old, hlookup, hold⟩ := h.lookup hv
  have shows := h.shows hv
  exact ⟨old, hlookup,
    InsertProof.verify_of_chained (h.chained hv) hc hold nonzero shows.path_eq shows.pos⟩

/-- Once the new path is registered it is found again under its root, unless its nodes collide. -/
theorem Finds.rebuilt {after : View f a} (h : v.Finds key nodes) (hv : v.caches.Correct H)
    (height : after.trie.height = v.trie.height)
    (root : after.trie.root = rebuiltRoot H value ((a.digits v.trie.height key.val).zip nodes))
    (caches : after.caches = v.caches.registerAll H
      (rebuiltNodes H value ((a.digits v.trie.height key.val).zip nodes))) :
    after.Finds key (rebuiltNodes H value ((a.digits v.trie.height key.val).zip nodes)) ∨
      ∃ x ∈ rebuiltNodes H value ((a.digits v.trie.height key.val).zip nodes),
        ∃ y ∈ rebuiltNodes H value ((a.digits v.trie.height key.val).zip nodes),
          x ≠ y ∧ H a x = H a y := by
  refine or_iff_not_imp_right.mpr fun unique => ⟨height ▸ h.key_lt, ?_⟩
  have length := PreimageCache.length_descend h.descend
  rw [root, height, caches]
  apply (chained_rebuilt length).descend ((length_rebuiltNodes_zip value length).trans length)
  intro node hnode
  apply Caches.find?_registerAll hv.digests _ hnode
  intro x hx y hy hash
  by_contra hne
  exact unique ⟨x, hx, y, hy, hne, hash⟩

/-- What a trie proves is accepted by any verifier with correct digests, a new one included. A
lookup's proof is accepted for the payload that the lookup reports and for no other. An insertion's
proof is accepted for the old and the new root, over what was there before, also if nothing
changes. Its old half is the proof of the lookup before, and its new half that of the lookup
after, unless two of the nodes registered for it collide. -/
theorem proofs_accepted (H : Hasher f) (v : View f a) (hv : v.caches.Correct H) (key : Element f)
    (c : DigestCache f) (hc : c.Correct H) :
    (∀ proof, v.proveLookup key = .ok proof →
      proof.height = v.trie.height ∧
        ∃ payload, v.lookup key = .ok payload ∧
          ∀ value, (proof.verify H v.trie.root key value c).1 = true ↔ value = payload.getD 0) ∧
    ∀ (value : Element f) (q : InsertProof f a) (changed : Bool) (after : View f a),
      v.proveInsert H key value = (.ok (q, changed), after) →
        (∃ old, v.lookup key = .ok old ∧
          (q.verify H v.trie.root after.trie.root key old value c).1 = true) ∧
        v.proveLookup key = .ok q.old ∧
        (after.proveLookup key = .ok q.new ∨
          changed = true ∧ after.caches = v.caches.registerAll H q.new.nodes ∧
            ∃ x ∈ q.new.nodes, ∃ y ∈ q.new.nodes, x ≠ y ∧ H a x = H a y) := by
  refine ⟨?_, ?_⟩
  · intro proof hproof
    have finds := proveLookup_eq_ok.mp hproof
    exact ⟨finds.length_eq, finds.verify_iff hv hc⟩
  · rintro value ⟨⟨nodes⟩, new⟩ changed after hinsert
    have nonzero : value ≠ 0 := (proveInsert_eq_ok hinsert).1
    have finds : v.Finds key nodes := (proveInsert_eq_ok hinsert).2
    obtain ⟨_, _, hinsert', height, _, root, caches⟩ := finds.proveInsert hv nonzero
    obtain ⟨hok, rfl⟩ := Prod.mk.inj (hinsert.symm.trans hinsert')
    obtain ⟨hproof, rfl⟩ := Prod.mk.inj (Except.ok.inj hok)
    obtain ⟨-, rfl⟩ := InsertProof.mk.inj hproof
    refine ⟨root ▸ finds.insert_accepted hv hc nonzero, proveLookup_eq_ok.mpr finds, ?_⟩
    rcases caches with ⟨-, rfl, same⟩ | ⟨rfl, hcaches⟩
    · rw [same]
      exact Or.inl (proveLookup_eq_ok.mpr finds)
    · rcases finds.rebuilt hv height root hcaches with found | collide
      · exact Or.inl (proveLookup_eq_ok.mpr found)
      · exact Or.inr ⟨rfl, hcaches, collide⟩

open Forest

/-- One goes to key one of an empty trie, whose old and new path are accepted and found. -/
theorem proofs_accepted_sapling :
    ∃ (q : InsertProof .pallasBase .binary) (payload : Option (Element .pallasBase)),
      let before : View .pallasBase .binary :=
        ⟨sapling 0, Caches.empty.registerAll weigh oneLeafNodes.tail⟩
      let after : View .pallasBase .binary :=
        ⟨sapling 1, Caches.empty.registerAll weigh oneLeafNodes⟩
      before.proveInsert weigh 1 1 = (.ok (q, true), after) ∧
        before.lookup 1 = .ok payload ∧
        (∀ value, (q.old.verify weigh 0 1 value .empty).1 = true ↔ value = payload.getD 0) ∧
        (q.verify weigh 0 1 1 payload 1 .empty).1 = true ∧
        after.proveLookup 1 = .ok q.new := by
  have correct : (Caches.empty.registerAll weigh oneLeafNodes.tail).Correct weigh :=
    (Caches.grows_registerAll _).keepsCorrect Caches.faithful_empty.toCorrect
  obtain ⟨lookups, insertions⟩ := proofs_accepted weigh
    ⟨sapling 0, Caches.empty.registerAll weigh oneLeafNodes.tail⟩ correct 1 .empty
    DigestCache.correct_empty
  obtain ⟨q, hinsert⟩ := insert_eq_ok insert_sapling
  obtain ⟨⟨payload, hlookup, accepted⟩, hold, hnew⟩ := insertions 1 q true _ hinsert
  obtain ⟨height, payload', hlookup', only⟩ := lookups q.old hold
  obtain rfl := Except.ok.inj (hlookup.symm.trans hlookup')
  refine ⟨q, payload, hinsert, hlookup, only, accepted, hnew.resolve_right ?_⟩
  -- The new path is a single node, which cannot collide.
  rintro ⟨-, -, x, hx, y, hy, hne, -⟩
  obtain ⟨-, heights, -⟩ :=
    (InsertProof.verify_eq_true_iff DigestCache.correct_empty).mp accepted
  obtain ⟨node, single⟩ := List.length_eq_one_iff.mp (heights.symm.trans height)
  rw [single, List.mem_singleton] at hx hy
  exact hne (hx.trans hy.symm)

end View

end PoseidonTrie
