import PoseidonTrie.Proofs.Fold.Slots
import PoseidonTrie.Proofs.Trie.Binding
import PoseidonTrie.Proofs.Trie.Sequence

/-! Slots against insertions that look their nodes up. From the root of a trie whose nodes are all
registered, slots lead to the root that inserting their active pairs leaves, unless a node of a
slot's path is not the trie's own, and then it collides with the one that is. -/
namespace PoseidonTrie

variable {f : PrimeField} {a : Arity} {H : Hasher f}

namespace SlotReading

variable {v : View f a} {history : List (Element f × Element f)} {next last : Element f}
  {r : SlotReading f a} {readings : List (SlotReading f a)}

/-- The pairs that the active slots insert. -/
def pairs (readings : List (SlotReading f a)) : List (Element f × Element f) :=
  (readings.filter (·.active)).map fun r => (r.key, r.value)

/-- All nodes of the slots' paths. -/
def nodesOf (readings : List (SlotReading f a)) : List (Node f a.width) :=
  readings.flatMap (·.nodes)

theorem pairs_cons_active (h : r.active = true) :
    pairs (r :: readings) = (r.key, r.value) :: pairs readings := by
  rw [pairs, List.filter_cons_of_pos h]
  rfl

theorem pairs_cons_inactive (h : r.active = false) : pairs (r :: readings) = pairs readings := by
  rw [pairs, List.filter_cons_of_neg (by simp [h])]
  rfl

theorem Passes.newRoot_eq {m : Contents f} (hv : v.Holds H m)
    (hr : r.Passes H v.trie.height v.trie.root next)
    (hc : ¬ v.caches.CollidesAmong H a r.nodes) :
    r.newRoot H = commit H a v.trie.height (Function.update m.leaves r.key.val r.value) := by
  have chained := hr.inserts.chained
  rw [hr.inserts.path_digits] at chained
  obtain ⟨-, rebuilt⟩ := hv.of_chained hr.inserts.key_lt chained hr.inserts.length hc
  rw [newRoot, hr.inserts.path_digits, rebuilt]

theorem Passes.insert (hr : r.Passes H v.trie.height v.trie.root next) (hactive : r.active = true)
    (hv : v.Holds H (contentsOf history)) (hf : v.caches.Faithful H)
    (hc : ¬ v.caches.CollidesAmong H a r.nodes) :
    (∃ changed, (v.insert H r.key r.value).1 = .ok changed) ∧
      (v.insert H r.key r.value).2.Holds H (contentsOf ((r.key, r.value) :: history)) ∧
        (v.insert H r.key r.value).2.trie.root = next := by
  have unique : ¬ v.caches.Collides H a := fun h => hc (h.among _)
  obtain ⟨hok, hnext⟩ := hv.insert hf unique hr.inserts.nonzero hr.inserts.key_lt
  obtain ⟨_, height⟩ := View.insert_frame hf.correct r.key r.value
  refine ⟨⟨_, hok⟩, ?_, ?_⟩
  · rwa [contentsOf_cons]
  · rw [hr.next_eq, hactive, if_pos rfl, hr.newRoot_eq hv hc, hnext.root, Contents.leaves_update,
      height]

/-- Slots from a trie's root lead where inserting the active pairs does. -/
theorem PassesAll.insertAll (hp : PassesAll H v.trie.height v.trie.root last readings)
    (hv : v.Holds H (contentsOf history)) (hf : v.caches.Faithful H)
    (hc : ¬ (v.insertAll H (pairs readings)).2.caches.CollidesAmong H a (nodesOf readings)) :
    (v.insertAll H (pairs readings)).1 = .ok () ∧
      (v.insertAll H (pairs readings)).2.trie.root = last := by
  induction readings generalizing v history with
  | nil => exact ⟨rfl, hp.symm⟩
  | cons r readings ih =>
    obtain ⟨next, hr, hp⟩ := hp
    have grown := (View.insertAll_frame hf (pairs (r :: readings))).1
    have fresh : ¬ v.caches.CollidesAmong H a r.nodes :=
      fun h => hc ((h.mono hf grown).subset (List.subset_append_left ..))
    have later : nodesOf readings ⊆ nodesOf (r :: readings) := List.subset_append_right ..
    -- Only active slots have a pair that is inserted, and only they move the root.
    cases hactive : r.active with
    | false =>
      have stays : next = v.trie.root := by
        rw [hr.next_eq, hactive]
        rfl
      rw [pairs_cons_inactive hactive] at hc ⊢
      rw [stays] at hp
      exact ih hp hv hf fun h => hc (h.subset later)
    | true =>
      obtain ⟨⟨changed, hok⟩, hnext, moves⟩ := hr.insert hactive hv hf fresh
      obtain ⟨grows, height⟩ := View.insert_frame hf.correct r.key r.value
      rw [pairs_cons_active hactive, View.insertAll_cons hok] at hc ⊢
      rw [← height, ← moves] at hp
      exact ih hp hnext (grows.faithful hf) fun h => hc (h.subset later)

end SlotReading

end PoseidonTrie
