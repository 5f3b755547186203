import Mathlib.Logic.Basic
import PoseidonTrie.Cache.Lemmas

namespace PoseidonTrie

variable {f : PrimeField} {a b : Arity} {H : Hasher f}

/-- Every memoized digest is the hash of its node. -/
def DigestCache.Correct (H : Hasher f) (c : DigestCache f) : Prop :=
  ∀ a node d, c.find? a node = some d → d = H a node

namespace DigestCache

variable {c : DigestCache f} {node : Node f a.width}

theorem correct_empty : (empty : DigestCache f).Correct H := by
  intro a node d h
  simp at h

theorem Correct.getD_find? (h : c.Correct H) : (c.find? a node).getD (H a node) = H a node := by
  cases he : c.find? a node with
  | none => rfl
  | some d => exact h a node d he

theorem Correct.hash_fst (h : c.Correct H) : (c.hash H a node).1 = H a node :=
  DigestCache.hash_fst.trans h.getD_find?

theorem Correct.find?_hash_self (h : c.Correct H) :
    (c.hash H a node).2.find? a node = some (H a node) := by
  rw [DigestCache.find?_hash_self, h.getD_find?]

theorem Correct.find?_hash_eq_some {other : Node f b.width} {d : Element f} (h : c.Correct H) :
    (c.hash H a node).2.find? b other = some d ↔
      c.find? b other = some d ∨ (⟨b, other⟩ : Preimage f) = ⟨a, node⟩ ∧ d = H b other := by
  by_cases same : (⟨a, node⟩ : Preimage f) = ⟨b, other⟩
  · cases same
    rw [h.find?_hash_self, Option.some_inj]
    constructor
    · rintro rfl
      exact .inr ⟨rfl, rfl⟩
    · rintro (known | ⟨-, rfl⟩)
      · exact (h a node d known).symm
      · rfl
  · rw [find?_hash_of_ne same]
    simp [Ne.symm same]

theorem Correct.hash (h : c.Correct H) : (c.hash H a node).2.Correct H := by
  intro b other d hd
  rcases h.find?_hash_eq_some.mp hd with known | ⟨-, rfl⟩
  · exact h b other d known
  · rfl

/-- The cache once nodes are hashed, the last one first. -/
def hashAll (H : Hasher f) (c : DigestCache f) (nodes : List (Node f a.width)) : DigestCache f :=
  nodes.foldr (fun node c => (c.hash H a node).2) c

theorem Correct.hashAll (h : c.Correct H) (nodes : List (Node f a.width)) :
    (c.hashAll H nodes).Correct H := by
  induction nodes with
  | nil => exact h
  | cons node nodes ih => exact ih.hash

theorem Correct.hash_eq (h : c.Correct H) : c.hash H a node = (H a node, (c.hash H a node).2) :=
  Prod.ext h.hash_fst rfl

end DigestCache

/-- Every known preimage hashes to its digest. -/
def PreimageCache.Correct (H : Hasher f) (c : PreimageCache f) : Prop :=
  ∀ a d node, c.find? a d = some node → H a node = d

theorem PreimageCache.Correct.insert {c : PreimageCache f} (h : c.Correct H)
    (node : Node f a.width) : (c.insert a (H a node) node).Correct H := by
  intro b d other hd
  by_cases he : a = b ∧ H a node = d
  · obtain ⟨rfl, rfl⟩ := he
    rw [find?_insert_self] at hd
    cases hd
    rfl
  · rw [find?_insert_of_ne (not_and_or.mp he)] at hd
    exact h b d other hd

namespace Caches

variable {c c' c'' : Caches f} {node other : Node f a.width}

/-- The caches hold only correct entries, wherever these are from. -/
structure Correct (H : Hasher f) (c : Caches f) : Prop where
  digests : c.digests.Correct H
  preimages : c.preimages.Correct H

/-- The node's digest is memoized. Where registering is the only thing that hashes, the memo
lists exactly the nodes that were registered, also those another preimage has displaced. -/
def Has (c : Caches f) (a : Arity) (node : Node f a.width) : Prop :=
  ∃ d, c.digests.find? a node = some d

/-- Two different nodes that were registered have one digest. -/
def Collides (H : Hasher f) (c : Caches f) (a : Arity) : Prop :=
  ∃ x y, x ≠ y ∧ c.Has a x ∧ c.Has a y ∧ H a x = H a y

/-- The caches hold nothing but registrations. -/
structure Faithful (H : Hasher f) (c : Caches f) : Prop where
  correct : c.digests.Correct H
  /-- A known preimage was registered, under its own digest. -/
  sound : ∀ a d node, c.preimages.find? a d = some node → c.Has a node ∧ H a node = d
  /-- The digest of a registered node has a preimage, if perhaps another one. -/
  complete : ∀ a node, c.Has a node → ∃ other, c.preimages.find? a (H a node) = some other

theorem faithful_empty : (empty : Caches f).Faithful H := by
  refine ⟨DigestCache.correct_empty, ?_, ?_⟩
  · intro a d node h
    simp [empty] at h
  · rintro a node ⟨d, h⟩
    simp [empty] at h

theorem register_eq (h : c.digests.Correct H) (node : Node f a.width) :
    c.register H a node =
      (H a node, ⟨(c.digests.hash H a node).2, c.preimages.insert a (H a node) node⟩) := by
  simp only [register, h.hash_fst]

theorem correct_register (h : c.digests.Correct H) (node : Node f a.width) :
    (c.register H a node).2.digests.Correct H := by
  rw [register_eq h]
  exact h.hash

/-- What a registration adds is the one node. -/
theorem has_register {other : Node f b.width} (h : c.digests.Correct H) :
    (c.register H a node).2.Has b other ↔
      (⟨a, node⟩ : Preimage f) = ⟨b, other⟩ ∨ c.Has b other := by
  rw [register_eq h, Has, Has]
  constructor
  · rintro ⟨d, hd⟩
    rcases h.find?_hash_eq_some.mp hd with known | ⟨same, -⟩
    · exact Or.inr ⟨d, known⟩
    · exact Or.inl same.symm
  · rintro (same | ⟨d, known⟩)
    · exact ⟨_, h.find?_hash_eq_some.mpr (Or.inr ⟨same.symm, rfl⟩)⟩
    · exact ⟨d, h.find?_hash_eq_some.mpr (Or.inl known)⟩

theorem has_register_self (h : c.digests.Correct H) : (c.register H a node).2.Has a node :=
  (has_register h).mpr (Or.inl rfl)

theorem Faithful.register (h : c.Faithful H) : (c.register H a node).2.Faithful H := by
  refine ⟨?_, ?_, ?_⟩
  · exact correct_register h.correct node
  · intro b d other hd
    by_cases he : a = b ∧ H a node = d
    · obtain ⟨rfl, rfl⟩ := he
      rw [register_eq h.correct, PreimageCache.find?_insert_self] at hd
      cases hd
      exact ⟨has_register_self h.correct, rfl⟩
    · have hne : a ≠ b ∨ H a node ≠ d := not_and_or.mp he
      have hold : c.preimages.find? b d = some other := by
        rwa [register_eq h.correct, PreimageCache.find?_insert_of_ne hne] at hd
      obtain ⟨hhas, hhash⟩ := h.sound b d other hold
      exact ⟨(has_register h.correct).mpr (Or.inr hhas), hhash⟩
  · intro b other hother
    -- Whatever the new node displaces, something is found under that digest.
    by_cases he : a = b ∧ H a node = H b other
    · obtain ⟨rfl, he⟩ := he
      refine ⟨node, ?_⟩
      rw [register_eq h.correct, ← he, PreimageCache.find?_insert_self]
    · have hne : a ≠ b ∨ H a node ≠ H b other := not_and_or.mp he
      rw [register_eq h.correct, PreimageCache.find?_insert_of_ne hne]
      rcases (has_register h.correct).mp hother with heq | hhas
      · cases heq
        simp at hne
      · exact h.complete b other hhas

theorem Correct.register (h : c.Correct H) : (c.register H a node).2.Correct H := by
  refine ⟨correct_register h.digests node, ?_⟩
  rw [register_eq h.digests]
  exact h.preimages.insert node

theorem Faithful.toCorrect (h : c.Faithful H) : c.Correct H :=
  ⟨h.correct, fun a d node hd => (h.sound a d node hd).2⟩

/-- Without a collision every registered node is found under its digest. -/
theorem Faithful.find? (h : c.Faithful H) (hc : ¬ c.Collides H a) (hn : c.Has a node) :
    c.preimages.find? a (H a node) = some node := by
  obtain ⟨other, ho⟩ := h.complete a node hn
  obtain ⟨hhas, hhash⟩ := h.sound a _ other ho
  by_cases he : other = node
  · rw [ho, he]
  · exact (hc ⟨other, node, he, hhas, hn, hhash⟩).elim

/-- The caches after some more registrations, at any arities. -/
inductive Grows (H : Hasher f) (c : Caches f) : Caches f → Prop
  | refl : Grows H c c
  | register {c' : Caches f} (h : Grows H c c') (a : Arity) (node : Node f a.width) :
    Grows H c (c'.register H a node).2

theorem Grows.trans (h : c.Grows H c') (h' : c'.Grows H c'') : c.Grows H c'' := by
  induction h' with
  | refl => exact h
  | register _ a node ih => exact ih.register a node

theorem Grows.faithful (h : c.Grows H c') (hf : c.Faithful H) : c'.Faithful H := by
  induction h with
  | refl => exact hf
  | register _ a node ih => exact ih.register

theorem Grows.keepsCorrect (h : c.Grows H c') (hc : c.Correct H) : c'.Correct H := by
  induction h with
  | refl => exact hc
  | register _ a node ih => exact ih.register

theorem Grows.has (h : c.Grows H c') (hf : c.Faithful H) (hn : c.Has a node) : c'.Has a node := by
  induction h with
  | refl => exact hn
  | register h b other ih => exact (has_register (h.faithful hf).correct).mpr (Or.inr ih)

theorem Grows.collides (h : c.Grows H c') (hf : c.Faithful H) (hc : c.Collides H a) :
    c'.Collides H a := by
  obtain ⟨x, y, hne, hx, hy, he⟩ := hc
  exact ⟨x, y, hne, h.has hf hx, h.has hf hy, he⟩

/-- Registers nodes, the last one first. -/
def registerAll (H : Hasher f) (c : Caches f) (nodes : List (Node f a.width)) : Caches f :=
  nodes.foldr (fun node c => (c.register H a node).2) c

theorem grows_registerAll (nodes : List (Node f a.width)) : c.Grows H (c.registerAll H nodes) := by
  induction nodes with
  | nil => exact .refl
  | cons node nodes ih => exact ih.register a node

theorem correct_registerAll (h : c.digests.Correct H) (nodes : List (Node f a.width)) :
    (c.registerAll H nodes).digests.Correct H := by
  induction nodes with
  | nil => exact h
  | cons node nodes ih => exact correct_register ih node

theorem has_registerAll (h : c.digests.Correct H) {nodes : List (Node f a.width)} :
    (c.registerAll H nodes).Has a node ↔ node ∈ nodes ∨ c.Has a node := by
  induction nodes with
  | nil => simp [registerAll]
  | cons first nodes ih =>
    have hrest := correct_registerAll h nodes
    have hfirst : (⟨a, first⟩ : Preimage f) = ⟨a, node⟩ ↔ node = first := by
      simp [eq_comm]
    rw [List.mem_cons, or_assoc, ← ih, ← hfirst]
    exact has_register hrest

theorem find?_registerAll (h : c.digests.Correct H) {nodes : List (Node f a.width)}
    (hne : ∀ x ∈ nodes, ∀ y ∈ nodes, H a x = H a y → x = y) (hmem : node ∈ nodes) :
    (c.registerAll H nodes).preimages.find? a (H a node) = some node := by
  induction nodes with
  | nil => cases hmem
  | cons first nodes ih =>
    change ((c.registerAll H nodes).register H a first).2.preimages.find? a _ = _
    rw [register_eq (correct_registerAll h nodes)]
    by_cases he : H a first = H a node
    · rw [hne first (List.mem_cons_self ..) node hmem he]
      exact PreimageCache.find?_insert_self
    · have later : node ∈ nodes := by
        rcases List.mem_cons.mp hmem with rfl | later
        · exact (he rfl).elim
        · exact later
      rw [PreimageCache.find?_insert_of_ne (Or.inr he)]
      exact ih (fun x hx y hy => hne x (List.mem_cons_of_mem _ hx) y (List.mem_cons_of_mem _ hy))
        later

/-- A hash that tells nodes apart does not collide when they are all that is registered. -/
theorem not_collides_registerAll {nodes : List (Node f a.width)}
    (h : ∀ x ∈ nodes, ∀ y ∈ nodes, H a x = H a y → x = y) :
    ¬ (empty.registerAll H nodes).Collides H a := by
  rintro ⟨x, y, hne, hx, hy, he⟩
  have only : ∀ node, (empty.registerAll H nodes).Has a node → node ∈ nodes := by
    intro node hn
    rcases (has_registerAll DigestCache.correct_empty).mp hn with hmem | ⟨d, hd⟩
    · exact hmem
    · simp [empty] at hd
  exact hne (h x (only x hx) y (only y hy) he)

end Caches

end PoseidonTrie
