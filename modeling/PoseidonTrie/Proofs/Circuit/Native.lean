import PoseidonTrie.Proofs.Circuit.Witness
import PoseidonTrie.Proofs.Forest.Persistence
import PoseidonTrie.Proofs.Trie.Descent

/-! Synthesis over a trie against the trie itself. Where the trie finds the path of a key under the
claimed root, the circuit holds and computes what a lookup or an insertion does; where it does not,
there is no circuit. -/
namespace PoseidonTrie

open Circuit

variable {f : PrimeField} {a : Arity} {H : Hasher f}

namespace View

/-- The same caches, read from another root. -/
def withRoot (v : View f a) (root : Element f) : View f a :=
  ⟨v.trie.withRoot root, v.caches⟩

variable {v : View f a} {ns : Circuit.Path} {s : System f} {root key value : Num f}
  {r k x : Element f} {nodes : List (Node f a.width)}

theorem witness_eq (hroot : root.Known s r) (hkey : key.Known s k) :
    v.witness root key =
      match (v.withRoot r).proveLookup k with
      | .ok proof => .ok (some proof.nodes)
      | .error _ => .error .assignmentMissing := by
  rw [witness, hroot.value, hkey.value]
  rfl

theorem Finds.witness_eq (h : (v.withRoot r).Finds k nodes) (hroot : root.Known s r)
    (hkey : key.Known s k) : v.witness root key = .ok (some nodes) := by
  rw [View.witness_eq hroot hkey, proveLookup_eq_ok.mpr h]

theorem Finds.leads (h : (v.withRoot r).Finds k nodes) (hc : v.caches.Correct H) :
    Leads H v.trie.height r k nodes :=
  ⟨h.key_lt, h.chained hc⟩

theorem synthesize_of_error {e : TrieError f} (ns : Circuit.Path) (value : Num f)
    (hroot : root.Known s r) (hkey : key.Known s k) (h : (v.withRoot r).proveLookup k = .error e) :
    errorOf (v.synthesizeLookup H ns root key) s = some .assignmentMissing ∧
      errorOf (v.synthesizeInsert H ns root key value) s = some .assignmentMissing := by
  have missing : v.witness root key = .error .assignmentMissing := by
    rw [witness_eq hroot hkey, h]
  rw [synthesizeLookup, synthesizeInsert, missing]
  exact ⟨rfl, rfl⟩

theorem Finds.computes_synthesizeLookup (h : (v.withRoot r).Finds k nodes) (hc : v.caches.Correct H)
    (hroot : root.Known s r) (hkey : key.Known s k) :
    Computes H s (v.synthesizeLookup H ns root key) True fun t leaf =>
      ∃ payload, (v.withRoot r).lookup k = .ok payload ∧ leaf.Known t (payload.getD 0) := by
  obtain ⟨payload, hlookup, hpayload⟩ := h.lookup hc
  rw [synthesizeLookup, h.witness_eq hroot hkey, ofExcept_ok, pure_bind]
  have looked := computes_lookupPath (H := H) ns hroot hkey v.trie.height_pos v.trie.height_le
    h.length_eq
  apply Computes.next (looked.congr (iff_true_intro (h.leads hc)))
  intro t path _ hpath
  refine computes_pure ⟨payload, hlookup, ?_⟩
  rw [hpayload]
  exact hpath.leaf

/-- With a path an insertion holds exactly if there is a value, and yields the root that inserting
it leads to. -/
theorem Finds.computes_synthesizeInsert (h : (v.withRoot r).Finds k nodes) (hc : v.caches.Correct H)
    (hroot : root.Known s r) (hkey : key.Known s k) (hvalue : value.Known s x) :
    Computes H s (v.synthesizeInsert H ns root key value) (x ≠ 0) fun t newRoot =>
      x ≠ 0 → ∃ changed after, (v.withRoot r).insert H k x = (.ok changed, after) ∧
        newRoot.Known t after.trie.root := by
  rw [synthesizeInsert, h.witness_eq hroot hkey, ofExcept_ok, pure_bind]
  have inserted := computes_insertPath (H := H) ns hroot hkey hvalue v.trie.height_pos
    v.trie.height_le h.length_eq
  apply (inserted.congr (and_iff_right (h.leads hc))).mono
  intro t newRoot _ hnew hx
  obtain ⟨changed, after, hprove, _, _, hafter, _⟩ := h.proveInsert hc hx
  refine ⟨changed, after, ?_, ?_⟩
  · rw [View.insert, hprove]
    rfl
  · rw [hafter]
    exact hnew

/-- Zero breaks the check of the value before anything else. -/
theorem Finds.breaks_synthesizeInsert (h : (v.withRoot r).Finds k nodes) (hc : v.caches.Correct H)
    (hroot : root.Known s r) (hkey : key.Known s k) (hvalue : value.Known s 0) :
    Breaks H s (v.synthesizeInsert H ns root key value)
      (.numIsNonzero :: .valueIsNonzero :: ns) := by
  rw [synthesizeInsert, h.witness_eq hroot hkey, ofExcept_ok, pure_bind]
  exact breaks_insertPath ns hroot hkey hvalue v.trie.height_pos v.trie.height_le h.length_eq
    (h.leads hc)

theorem Finds.synthesizeLookup_eq_ok (h : (v.withRoot r).Finds k nodes) (hc : v.caches.Correct H)
    (ns : Circuit.Path) (hs : s.kind = .test) (hroot : root.Known s r) (hkey : key.Known s k) :
    ∃ leaf t payload, v.synthesizeLookup H ns root key s = .ok (leaf, t) ∧
      Satisfies H t.assignment (s.since t) ∧
      (v.withRoot r).lookup k = .ok payload ∧ leaf.Known t (payload.getD 0) := by
  obtain ⟨leaf, t, hrun, ⟨payload, hlookup, hleaf⟩, holds⟩ :=
    (h.computes_synthesizeLookup hc hroot hkey).run hs
  exact ⟨leaf, t, payload, hrun, holds.mpr trivial, hlookup, hleaf⟩

theorem Finds.synthesizeInsert_eq_ok (h : (v.withRoot r).Finds k nodes) (hc : v.caches.Correct H)
    (ns : Circuit.Path) (hs : s.kind = .test) (hroot : root.Known s r) (hkey : key.Known s k)
    (hvalue : value.Known s x) :
    ∃ newRoot t, v.synthesizeInsert H ns root key value s = .ok (newRoot, t) ∧
      (Satisfies H t.assignment (s.since t) ↔ x ≠ 0) ∧
      (x = 0 →
        FirstBroken H t.assignment (s.since t) (.numIsNonzero :: .valueIsNonzero :: ns)) ∧
      (x ≠ 0 → ∃ changed after, (v.withRoot r).insert H k x = (.ok changed, after) ∧
        newRoot.Known t after.trie.root) := by
  obtain ⟨newRoot, t, hrun, hnew, holds⟩ :=
    (h.computes_synthesizeInsert hc hroot hkey hvalue).run hs
  refine ⟨newRoot, t, hrun, holds, ?_, hnew⟩
  rintro rfl
  obtain ⟨_, t', hrun', hbroken⟩ := (h.breaks_synthesizeInsert hc hroot hkey hvalue).run hs
  obtain ⟨-, rfl⟩ := Prod.mk.inj (Except.ok.inj (hrun.symm.trans hrun'))
  exact hbroken

/-- Synthesis computes what the trie does, under its own root or any other. There is no circuit
exactly where the path is not found. Elsewhere a lookup holds and yields the payload, and an
insertion holds exactly if its value is not zero, and then yields the root that the trie's own
insertion leaves. With zero, the check of the value is what is broken first. -/
theorem synthesize_native (H : Hasher f) (v : View f a) (hc : v.caches.Correct H)
    (ns : Circuit.Path) (s : System f) (hs : s.kind = .test) (root key value : Num f)
    (r k x : Element f) (hroot : root.Known s r) (hkey : key.Known s k)
    (hvalue : value.Known s x) :
    (errorOf (v.synthesizeLookup H ns root key) s = some .assignmentMissing ↔
      ∃ e, (v.withRoot r).proveLookup k = .error e) ∧
    (errorOf (v.synthesizeInsert H ns root key value) s = some .assignmentMissing ↔
      ∃ e, (v.withRoot r).proveLookup k = .error e) ∧
    (∀ e, (v.withRoot r).proveLookup k = .error e →
      e = .keyOutOfRange k v.trie.height ∨ ∃ d, e = .missingPreimage d) ∧
    ∀ proof, (v.withRoot r).proveLookup k = .ok proof →
      (∃ leaf t payload, v.synthesizeLookup H ns root key s = .ok (leaf, t) ∧
        Satisfies H t.assignment (s.since t) ∧
        (v.withRoot r).lookup k = .ok payload ∧ leaf.Known t (payload.getD 0)) ∧
      ∃ newRoot t, v.synthesizeInsert H ns root key value s = .ok (newRoot, t) ∧
        (Satisfies H t.assignment (s.since t) ↔ x ≠ 0) ∧
        (x = 0 →
          FirstBroken H t.assignment (s.since t) (.numIsNonzero :: .valueIsNonzero :: ns)) ∧
        (x ≠ 0 → ∃ changed after, (v.withRoot r).insert H k x = (.ok changed, after) ∧
          newRoot.Known t after.trie.root) := by
  cases hp : (v.withRoot r).proveLookup k with
  | error e =>
    obtain ⟨lookup, insert⟩ := synthesize_of_error (H := H) ns value hroot hkey hp
    refine ⟨iff_of_true lookup ⟨e, rfl⟩, iff_of_true insert ⟨e, rfl⟩, ?_, ?_⟩
    · rintro _ ⟨⟩
      exact proveLookup_eq_error (v := v.withRoot r) hp
    · rintro proof ⟨⟩
  | ok proof =>
    have finds := proveLookup_eq_ok.mp hp
    have looked := finds.synthesizeLookup_eq_ok hc ns hs hroot hkey
    have inserted := finds.synthesizeInsert_eq_ok hc ns hs hroot hkey hvalue
    refine ⟨?_, ?_, ?_, fun _ _ => ⟨looked, inserted⟩⟩
    · obtain ⟨leaf, t, _, hrun, _⟩ := looked
      rw [errorOf, hrun]
      exact iff_of_false (by simp) (by simp)
    · obtain ⟨newRoot, t, hrun, _⟩ := inserted
      rw [errorOf, hrun]
      exact iff_of_false (by simp) (by simp)
    · rintro _ ⟨⟩

/-- A system with the numbers zero, one and one: a root, a key and a value. -/
def threeValues : System .pallasBase :=
  (((System.empty .test).addVariable [.num, .root] (some 0)).addVariable [.num, .key]
    (some 1)).addVariable [.num, .value] (some 1)

/-- Under the empty root, and not its own, a trie shows the insertion that led to its own. -/
theorem synthesize_native_threeValues :
    ∃ (newRoot : Num .pallasBase) (t : System .pallasBase),
      synthesizeInsert weigh [.insert]
          ⟨Forest.sapling 1, Caches.empty.registerAll weigh Forest.oneLeafNodes.tail⟩
          ⟨0, some 0⟩ ⟨1, some 1⟩ ⟨2, some 1⟩ threeValues = .ok (newRoot, t) ∧
        Satisfies weigh t.assignment (threeValues.since t) ∧ newRoot.Known t 1 := by
  have correct : (Caches.empty.registerAll weigh Forest.oneLeafNodes.tail).Correct weigh :=
    (Caches.grows_registerAll _).keepsCorrect Caches.faithful_empty.toCorrect
  obtain ⟨-, -, -, native⟩ := synthesize_native weigh
    ⟨Forest.sapling 1, Caches.empty.registerAll weigh Forest.oneLeafNodes.tail⟩ correct
    [.insert] threeValues rfl ⟨0, some 0⟩ ⟨1, some 1⟩ ⟨2, some 1⟩ 0 1 1
    ⟨rfl, _, rfl⟩ ⟨rfl, _, rfl⟩ ⟨rfl, _, rfl⟩
  obtain ⟨q, proved⟩ := insert_eq_ok Forest.insert_sapling
  obtain ⟨-, newRoot, t, hrun, holds, -, hnew⟩ :=
    native q.old (proveLookup_eq_ok.mpr (proveInsert_eq_ok proved).2)
  obtain ⟨changed, after, hafter, known⟩ := hnew (by decide)
  obtain ⟨-, rfl⟩ := Prod.mk.inj (Forest.insert_sapling.symm.trans hafter)
  exact ⟨newRoot, t, hrun, holds.mpr (by decide), known⟩

end View

end PoseidonTrie
