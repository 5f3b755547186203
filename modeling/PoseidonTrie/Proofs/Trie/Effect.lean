import PoseidonTrie.Proofs.Forest.Persistence
import PoseidonTrie.Proofs.Trie.Binding
import PoseidonTrie.Proofs.Trie.Descent

/-! The whole effect of an insertion. It says whether it changed anything. If not, nothing is
touched; else the nodes of the new path are written, and they lead to another root unless one of
them collides with the node that it replaces. -/
namespace PoseidonTrie

variable {f : PrimeField} {a : Arity} {H : Hasher f} {nodes : List (Node f a.width)}

namespace Caches

variable {c c' : Caches f}

/-- The second caches are the first with nodes written to them. Each of the nodes is the preimage of
its digest now, the first one if several share it, and no digest is new but theirs. -/
structure Writes (H : Hasher f) (c c' : Caches f) (nodes : List (Node f a.width)) : Prop where
  preimages : ∀ d, c'.preimages.find? a d =
    (nodes.find? fun node => H a node = d).or (c.preimages.find? a d)
  others : ∀ b d, b ≠ a → c'.preimages.find? b d = c.preimages.find? b d
  digests : ∀ b (x : Node f b.width) d, c'.digests.find? b x = some d ↔
    c.digests.find? b x = some d ∨ (⟨b, x⟩ : Preimage f) ∈ nodes.map (⟨a, ·⟩) ∧ d = H b x

theorem Writes.nil (H : Hasher f) (a : Arity) (c : Caches f) : c.Writes (a := a) H c [] := by
  refine ⟨fun d => ?_, fun b d _ => rfl, fun b x d => ?_⟩
  · rw [List.find?_nil, Option.none_or]
  · simp

theorem Writes.register {node : Node f a.width} (h : c.Writes H c' nodes)
    (hc : c'.digests.Correct H) : c.Writes H (c'.register H a node).2 (node :: nodes) := by
  rw [register_eq hc]
  refine ⟨fun d => ?_, fun b d hne => ?_, fun b x d => ?_⟩
  -- The latest of the nodes with one digest is the first in the list, and the one that is found.
  · rw [List.find?_cons]
    by_cases hd : H a node = d
    · subst hd
      simp only [PreimageCache.find?_insert_self, decide_true, Option.some_or]
    · simp only [PreimageCache.find?_insert_of_ne (Or.inr hd), hd, decide_false, h.preimages]
  · rw [PreimageCache.find?_insert_of_ne (Or.inl hne.symm), h.others b d hne]
  · rw [hc.find?_hash_eq_some, h.digests, List.map_cons, List.mem_cons, or_and_right, or_assoc,
      or_comm (a := _ ∧ _)]

theorem writes_registerAll (hc : c.digests.Correct H) (nodes : List (Node f a.width)) :
    c.Writes H (c.registerAll H nodes) nodes := by
  induction nodes with
  | nil => exact .nil H a c
  | cons node nodes ih => exact ih.register (correct_registerAll hc nodes)

end Caches

namespace View

variable {v : View f a} {key value : Element f} {payload : Option (Element f)}

namespace Finds

theorem lookup_eq_some (h : v.Finds key nodes) (hc : v.caches.Correct H) (hv : value ≠ 0)
    (hl : v.lookup key = .ok payload) :
    payload = some value ↔
      pathEnd v.trie.root ((a.digits v.trie.height key.val).zip nodes) = value := by
  obtain ⟨payload', hl', hend⟩ := h.lookup hc
  obtain rfl : payload = payload' := Except.ok.inj (hl.symm.trans hl')
  rw [← hend]
  cases payload with
  | none => exact iff_of_false nofun hv.symm
  | some x => exact Option.some_inj

/-- A path that is rebuilt over another value has another root, or it collides. -/
theorem rebuiltRoot_ne_or_collide (h : v.Finds key nodes) (hc : v.caches.Correct H)
    (hne : pathEnd v.trie.root ((a.digits v.trie.height key.val).zip nodes) ≠ value) :
    rebuiltRoot H value ((a.digits v.trie.height key.val).zip nodes) ≠ v.trie.root ∨
      CollideAtLevel H
        (rebuiltNodes H value ((a.digits v.trie.height key.val).zip nodes)) nodes := by
  by_cases same : rebuiltRoot H value ((a.digits v.trie.height key.val).zip nodes) = v.trie.root
  · have count := PreimageCache.length_descend h.descend
    have rebuilt : Chained H (rebuiltRoot H value _) value _ := chained_rebuilt count
    rw [same] at rebuilt
    have counts := (length_rebuiltNodes_zip (H := H) value count).trans count
    rcases rebuilt.eq_or_collide (h.chained hc) counts count with collide | ⟨-, hend⟩
    · exact Or.inr collide
    · exact absurd hend.symm hne
  · exact Or.inl same

end Finds

/-- An insertion whose key can be looked up succeeds, and over correct caches it reports no change
exactly if the lookup had the value already. Then the trie and the caches stay as they are, and the
two paths it proves are one. Otherwise the root moves, unless a node of the new path collides with
the one that it replaces, and the caches are what they were with the nodes of the new path, one for
each level, written to them. -/
theorem insert_effect (H : Hasher f) (v : View f a) (hc : v.caches.Correct H)
    (key value : Element f) (hv : value ≠ 0) (payload : Option (Element f))
    (hl : v.lookup key = .ok payload) :
    ∃ q changed after,
      v.insert H key value = (.ok changed, after) ∧
      v.proveInsert H key value = (.ok (q, changed), after) ∧
      v.proveLookup key = .ok q.old ∧
      (changed = false ↔ payload = some value) ∧
      (changed = false → after = v ∧ q.new = q.old) ∧
      (changed = true →
        (after.trie.root ≠ v.trie.root ∨ CollideAtLevel H q.new.nodes q.old.nodes) ∧
        after.trie = v.trie.withRoot after.trie.root ∧
        q.new.nodes.length = v.trie.height ∧
        v.caches.Writes H after.caches q.new.nodes) := by
  obtain ⟨nodes, finds⟩ := lookup_eq_ok hl
  have step := finds.proveInsert_eq hc hv
  have report := finds.lookup_eq_some hc hv hl
  have found := proveLookup_eq_ok.mpr finds
  by_cases same : pathEnd v.trie.root ((a.digits v.trie.height key.val).zip nodes) = value
  · rw [if_pos same] at step
    exact ⟨_, false, v, insert_of_proveInsert step, step, found, iff_of_true rfl (report.mpr same),
      fun _ => ⟨rfl, rfl⟩, fun changed => absurd changed Bool.false_ne_true⟩
  · rw [if_neg same] at step
    have count := PreimageCache.length_descend finds.descend
    refine ⟨_, true, _, insert_of_proveInsert step, step, found,
      iff_of_false Bool.false_ne_true.symm (mt report.mp same),
      fun kept => absurd kept.symm Bool.false_ne_true, fun _ => ⟨?_, rfl, ?_, ?_⟩⟩
    · exact finds.rebuiltRoot_ne_or_collide hc same
    · exact (length_rebuiltNodes_zip value count).trans finds.length_eq
    · exact Caches.writes_registerAll hc.digests _

open Forest

/-- One goes to key one of an empty trie of height one, which writes a single node. -/
theorem insert_effect_sapling :
    let before : View .pallasBase .binary :=
      ⟨sapling 0, Caches.empty.registerAll weigh oneLeafNodes.tail⟩
    ∃ (payload : Option (Element .pallasBase)) (node : Node .pallasBase Arity.binary.width),
      before.lookup 1 = .ok payload ∧ payload ≠ some 1 ∧
        before.caches.Writes weigh (before.insert weigh 1 1).2.caches [node] := by
  intro before
  have correct : before.caches.Correct weigh :=
    (Caches.grows_registerAll _).keepsCorrect Caches.faithful_empty.toCorrect
  obtain ⟨_, proved⟩ := insert_eq_ok insert_sapling
  obtain ⟨payload, hl, -⟩ := (proveInsert_eq_ok proved).2.lookup correct
  obtain ⟨q, changed, after, hinsert, -, -, test, -, effect⟩ :=
    insert_effect weigh before correct 1 1 (by decide) payload hl
  obtain ⟨hchanged, rfl⟩ := Prod.mk.inj (hinsert.symm.trans insert_sapling)
  obtain rfl : changed = true := Except.ok.inj hchanged
  obtain ⟨-, -, height, writes⟩ := effect rfl
  obtain ⟨node, single⟩ := List.length_eq_one_iff.mp height
  rw [single] at writes
  refine ⟨payload, node, hl, fun same => Bool.noConfusion (test.mpr same), ?_⟩
  rw [hinsert]
  exact writes

end View

end PoseidonTrie
