import PoseidonTrie.Cache.Basic

namespace PoseidonTrie

variable {f : PrimeField} {a b : Arity} {H : Hasher f}

namespace DigestCache

variable {c : DigestCache f} {node : Node f a.width}

@[simp] theorem find?_empty : (empty : DigestCache f).find? a node = none := by
  simp [find?, empty]

theorem hash_fst : (c.hash H a node).1 = (c.find? a node).getD (H a node) := by
  unfold hash
  split <;> simp_all

theorem hash_snd_of_find? {d : Element f} (h : c.find? a node = some d) :
    (c.hash H a node).2 = c := by
  simp [hash, h]

theorem find?_hash_self :
    (c.hash H a node).2.find? a node = some ((c.find? a node).getD (H a node)) := by
  unfold hash
  split
  · simp_all
  · simp_all [find?]

theorem find?_hash_of_ne {other : Node f b.width}
    (h : (⟨a, node⟩ : Preimage f) ≠ ⟨b, other⟩) :
    (c.hash H a node).2.find? b other = c.find? b other := by
  unfold hash
  split
  · rfl
  · simp [find?, Std.HashMap.getElem?_insert, h]

end DigestCache

namespace PreimageCache

variable {c : PreimageCache f} {d e : Element f} {node : Node f a.width}

@[simp] theorem find?_empty : (empty : PreimageCache f).find? a d = none := by
  simp [find?, empty]

@[simp] theorem find?_insert_self : (c.insert a d node).find? a d = some node := by
  simp [find?, insert]

theorem find?_insert_of_ne (h : a ≠ b ∨ d ≠ e) :
    (c.insert a d node).find? b e = c.find? b e := by
  have : ((a, d) == (b, e)) = false := by
    simp only [beq_eq_false_iff_ne, ne_eq, Prod.mk.injEq]
    rintro ⟨h₁, h₂⟩
    exact h.elim (· h₁) (· h₂)
  simp [find?, insert, Std.DHashMap.get?_insert, this]

end PreimageCache

end PoseidonTrie
