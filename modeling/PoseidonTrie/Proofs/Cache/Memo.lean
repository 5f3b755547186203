import Mathlib.Data.Finset.Card
import Mathlib.Data.Finset.Insert
import PoseidonTrie.Proofs.Cache.Work
import PoseidonTrie.Proofs.Trie.Written

/-! Memoization changes no answer. Over correct digests a computation comes to what it comes to when
everything is hashed anew, and the digests that it leaves are those of what it asked for besides. -/
namespace PoseidonTrie

variable {f : PrimeField} {a b : Arity} {H : Hasher f}

namespace DigestCache

variable {c : DigestCache f} {node : Node f a.width} {ps : List (Preimage f)}

def held (c : DigestCache f) : Finset (Preimage f) :=
  c.table.keys.toFinset

theorem mem_held {p : Preimage f} : p ∈ c.held ↔ ∃ d, c.find? p.arity p.node = some d := by
  rw [held, List.mem_toFinset, Std.HashMap.mem_keys, find?, ← Option.isSome_iff_exists,
    Std.HashMap.isSome_getElem?_iff_mem]

theorem card_held : c.held.card = c.size := by
  have distinct : c.table.keys.Nodup := by
    refine Std.HashMap.distinct_keys.imp fun h e => ?_
    simp [e] at h
  rw [held, List.toFinset_card_of_nodup distinct, Std.HashMap.length_keys, size]

theorem held_hash : (c.hash H a node).2.held = insert ⟨a, node⟩ c.held := by
  ext ⟨b, other⟩
  rw [Finset.mem_insert, mem_held, mem_held]
  by_cases same : (⟨a, node⟩ : Preimage f) = ⟨b, other⟩
  · cases same
    exact iff_of_true ⟨_, find?_hash_self⟩ (.inl rfl)
  · rw [find?_hash_of_ne same, eq_comm, or_iff_right same]

/-- Every entry of the first cache is one of the second. -/
def Within (c c' : DigestCache f) : Prop :=
  ∀ a (node : Node f a.width) d, c.find? a node = some d → c'.find? a node = some d

/-- The cache once nodes are hashed in order. -/
def hashEach (H : Hasher f) (c : DigestCache f) (ps : List (Preimage f)) : DigestCache f :=
  ps.foldl (fun c p => (c.hash H p.arity p.node).2) c

theorem held_hashEach : (c.hashEach H ps).held = c.held ∪ ps.toFinset := by
  induction ps generalizing c with
  | nil => simp [hashEach]
  | cons p ps ih =>
    change ((c.hash H p.arity p.node).2.hashEach H ps).held = _
    rw [ih, held_hash, List.toFinset_cons, Finset.insert_union, Finset.union_insert]

theorem size_hashEach : (c.hashEach H ps).size = (c.held ∪ ps.toFinset).card := by
  rw [← card_held, held_hashEach]

theorem Correct.hashEach (h : c.Correct H) : (c.hashEach H ps).Correct H := by
  induction ps generalizing c with
  | nil => exact h
  | cons p ps ih => exact ih h.hash

theorem within_hashEach : c.Within (c.hashEach H ps) := by
  induction ps generalizing c with
  | nil => exact fun _ _ _ h => h
  | cons p ps ih => exact fun a node d h => ih a node d (find?_hash h)

end DigestCache

namespace Work

variable {α β : Type} {c : Caches f} {known : PreimageCache f}

/-- What it comes to when every digest is hashed anew, and the preimages it leaves. -/
def direct (H : Hasher f) (known : PreimageCache f) : Work f α → α × PreimageCache f
  | done x => (x, known)
  | hash a node next => (next (H a node)).direct H known
  | note r d next => next.direct H (known.insert r.arity d r.node)
  | find a d next => (next (known.find? a d)).direct H known

/-- The nodes whose digests it asks for, in order. -/
def asked (H : Hasher f) (known : PreimageCache f) : Work f α → List (Preimage f)
  | done _ => []
  | hash a node next => ⟨a, node⟩ :: (next (H a node)).asked H known
  | note r d next => next.asked H (known.insert r.arity d r.node)
  | find a d next => (next (known.find? a d)).asked H known

/-- A correct memo answers as the hash does, at every call. -/
theorem run_eq (hc : c.digests.Correct H) (p : Work f α) :
    p.run H c = ((p.direct H c.preimages).1,
      ⟨c.digests.hashEach H (p.asked H c.preimages), (p.direct H c.preimages).2⟩) := by
  induction p generalizing c with
  | done x => rfl
  | hash a node next ih =>
    rw [run, hc.hash_fst, ih _ hc.hash]
    rfl
  | note r d next ih => exact ih hc
  | find a d next ih => exact ih _ hc

theorem noted_congr {memo memo' : DigestCache f} (h : memo.Correct H) (h' : memo'.Correct H)
    (p : Work f α) : p.noted H ⟨memo, known⟩ = p.noted H ⟨memo', known⟩ := by
  induction p generalizing memo memo' known with
  | done x => rfl
  | hash a node next ih =>
    rw [noted, noted, h.hash_fst, h'.hash_fst]
    exact ih _ h.hash h'.hash
  | note r d next ih => exact congrArg (r :: ·) (ih h h')
  | find a d next ih => exact ih _ h h'

end Work

end PoseidonTrie
