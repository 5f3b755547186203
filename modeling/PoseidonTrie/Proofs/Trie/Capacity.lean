import Mathlib.Order.Bounds.Basic
import PoseidonTrie.Proofs.Field.Encoding
import PoseidonTrie.Proofs.Trie.Commitment
import PoseidonTrie.Trie.Basic

/-! How large tries are. A trie for so many entries has the least height with room for them,
although the capacities that are compared to find it stop at the largest word, and every number that
a trie has room for is a key with a path. -/
namespace PoseidonTrie

variable {f : PrimeField} {a : Arity} {width size height capacity tall room : Nat}

/-- Levels are added one at a time until the capacity reaches the size, and no capacity exceeds the
largest word. -/
inductive GrowsTo (width size : Nat) : (height capacity tall room : Nat) → Prop
  | enough {height capacity : Nat} (h : size ≤ capacity) :
      GrowsTo width size height capacity height capacity
  | level {height capacity tall room : Nat} (h : capacity < size)
      (next : GrowsTo width size (height + 1) (min (capacity * width) wordMax) tall room) :
      GrowsTo width size height capacity tall room

/-- Where a level adds room and the size is a word, levels are added until one is enough. -/
theorem growsTo_heightFor (hwidth : 1 < width) (hsize : size ≤ wordMax) (pos : 0 < capacity) :
    ∃ room, GrowsTo width size height capacity (heightFor width size height capacity) room := by
  fun_induction heightFor width size height capacity with
  | case1 height capacity next more ih =>
    obtain ⟨room, grows⟩ := ih (Nat.zero_lt_of_lt more.2)
    exact ⟨room, .level more.1 grows⟩
  | case2 height capacity next more =>
    refine ⟨capacity, .enough (Nat.le_of_not_lt fun small => more ⟨small, ?_⟩)⟩
    have doubled : capacity < capacity * width := (Nat.lt_mul_iff_one_lt_right pos).mpr hwidth
    exact lt_min doubled (Nat.lt_of_lt_of_le small hsize)

theorem min_pow_succ (hwidth : 0 < width) :
    min (min (width ^ height) wordMax * width) wordMax = min (width ^ (height + 1)) wordMax := by
  rw [Nat.pow_succ]
  rcases Nat.le_total (width ^ height) wordMax with small | large
  · rw [min_eq_left small]
  · have stopped : wordMax ≤ wordMax * width := Nat.le_mul_of_pos_right _ hwidth
    rw [min_eq_right large, min_eq_right stopped,
      min_eq_right (stopped.trans (Nat.mul_le_mul_right _ large))]

/-- Of the heights from one on, this is the least with room for the size. -/
structure LeastFrom (width size height tall : Nat) : Prop where
  le : height ≤ tall
  room : size ≤ width ^ tall
  least : ∀ n, height ≤ n → n < tall → width ^ n < size

theorem GrowsTo.leastFrom (h : GrowsTo width size height capacity tall room)
    (hwidth : 0 < width) (hsize : size ≤ wordMax)
    (hcapacity : capacity = min (width ^ height) wordMax) :
    LeastFrom width size height tall ∧ room = min (width ^ tall) wordMax := by
  induction h with
  | @enough height capacity h =>
    rw [hcapacity] at h
    exact ⟨⟨Nat.le_refl _, (le_min_iff.mp h).1, fun n hn hlt => absurd hn (Nat.not_le.mpr hlt)⟩,
      hcapacity⟩
  | @level height capacity tall room h _ ih =>
    obtain ⟨above, hroom⟩ := ih (by rw [hcapacity, min_pow_succ hwidth])
    refine ⟨⟨Nat.le_of_succ_le above.le, above.room, fun n hn hlt => ?_⟩, hroom⟩
    rcases Nat.eq_or_lt_of_le hn with rfl | hn
    · -- A capacity below a word has not stopped.
      rw [hcapacity] at h
      exact (min_lt_iff.mp h).resolve_right (Nat.not_lt.mpr hsize)
    · exact above.least n hn hlt

/-- The full height has room for every word, and the least height is no greater. -/
theorem LeastFrom.le_fullHeight (h : LeastFrom a.width size 1 tall) (hsize : size ≤ wordMax) :
    tall ≤ fullHeight f a := by
  refine Nat.le_of_not_lt fun beyond => ?_
  have short : a.width ^ fullHeight f a < size := h.least _ (fullHeight_pos f a) beyond
  have full : f.modulus ≤ a.width ^ fullHeight f a :=
    a.two_pow_digitBits_mul _ ▸ (modulus_le_two_pow f a).1
  have word := Element.wordMax_lt_modulus f
  omega

theorem AnyTrie.create_capacity (H : Hasher f) (c : Caches f) (a : Arity) (hsize : size ≤ wordMax) :
    ∃ (t : Trie f a) (c' : Caches f),
      AnyTrie.create H c a.width (.capacity size) = (.ok ⟨a, t⟩, c') ∧
      GrowsTo a.width size 1 a.width t.height t.leaves ∧ LeastFrom a.width size 1 t.height := by
  obtain ⟨room, grows⟩ := growsTo_heightFor a.one_lt_width hsize a.width_pos
  have first : a.width = min (a.width ^ 1) wordMax := by
    obtain ⟨n, supported⟩ := a
    rcases supported with rfl | rfl | rfl | rfl <;> decide
  obtain ⟨least, rfl⟩ := grows.leastFrom a.width_pos hsize first
  have le : heightFor a.width size 1 a.width ≤ fullHeight f a := least.le_fullHeight hsize
  have pos : 0 < heightFor a.width size 1 a.width := least.le
  refine ⟨(Trie.empty H c _ pos le).1, (Trie.empty H c _ pos le).2, ?_, grows, least⟩
  rw [AnyTrie.create, Arity.require, Arity.ofWidth?_width]
  dsimp only
  rw [Trie.create, Trie.withCapacity, Trie.withHeight, dif_pos ⟨pos, le⟩]
  rfl

theorem Trie.rowSize_eq_mul (t : Trie f a) {row : Nat} (h : row < t.height) :
    t.rowSize row = min (t.rowSize (row + 1) * a.width) wordMax := by
  have next : t.height - row = t.height - (row + 1) + 1 := by omega
  rw [rowSize, rowSize, next, min_pow_succ a.width_pos]

theorem Trie.rowSize_height (t : Trie f a) : t.rowSize t.height = 1 := by
  rw [rowSize, Nat.sub_self]
  rfl

theorem Trie.path_of_lt_leaves (t : Trie f a) {k : UInt64} (h : k.toNat < t.leaves) :
    (Element.ofUInt64 f k).val = k.toNat ∧ ∃ path, t.path (.ofUInt64 f k) = .ok path := by
  have value : (Element.ofUInt64 f k).val = k.toNat := Element.val_ofUInt64 f k
  have below : (Element.ofUInt64 f k).val < a.width ^ t.height :=
    value ▸ lt_of_lt_of_le h (min_le_left _ _)
  exact ⟨value, _, Arity.path_of_lt t.height_le below⟩

/-- An empty trie for any number of entries that a word holds has the least height with room for
them, and there is one at every width that can be hashed, in each field. The levels are counted with
capacities that stop at the largest word, and the counting ends. Any other width is refused, with
nothing registered. Whatever made a trie, a row has a power of the width for its number of nodes, as
far as a word can tell, from one root on down to leaves that are numbered by keys with paths. -/
theorem capacity_exact (H : Hasher f) (c : Caches f) (size : Nat) (hsize : size ≤ wordMax) :
    (∀ n, (∀ a : Arity, a.width ≠ n) →
      AnyTrie.create H c n (.capacity size) = (.error (.unsupportedArity n), c)) ∧
    (∀ a : Arity, ∃ (t : Trie f a) (c' : Caches f),
      AnyTrie.create H c a.width (.capacity size) = (.ok ⟨a, t⟩, c') ∧
        IsLeast {height | 1 ≤ height ∧ size ≤ a.width ^ height} t.height ∧
        GrowsTo a.width size 1 a.width t.height t.leaves ∧ size ≤ t.leaves) ∧
    ∀ (a : Arity) (t : Trie f a),
      (∀ row ≤ t.height, t.rowSize row = min (a.width ^ (t.height - row)) (2 ^ 64 - 1)) ∧
      t.rowSize t.height = 1 ∧
      (∀ row < t.height, t.rowSize row = min (t.rowSize (row + 1) * a.width) wordMax) ∧
      ∀ k : UInt64, k.toNat < t.leaves → (Element.ofUInt64 f k).val = k.toNat ∧
        ∃ path, t.path (.ofUInt64 f k) = .ok path := by
  refine ⟨fun n unsupported => ?_, fun a => ?_, fun a t => ⟨fun _ _ => rfl, t.rowSize_height,
    fun _ => t.rowSize_eq_mul, fun _ => t.path_of_lt_leaves⟩⟩
  · have none : Arity.ofWidth? n = none := by
      cases found : Arity.ofWidth? n with
      | none => rfl
      | some a => exact absurd (Arity.width_of_ofWidth? found) (unsupported a)
    rw [AnyTrie.create, Arity.require, none]
  · obtain ⟨t, c', created, grows, least⟩ := AnyTrie.create_capacity H c a hsize
    refine ⟨t, c', created, ⟨⟨least.le, least.room⟩, fun n hn => ?_⟩, grows, ?_⟩
    · exact Nat.le_of_not_lt fun hlt => Nat.not_le.mpr (least.least n hn.1 hlt) hn.2
    · exact le_min least.room hsize

/-- No power of eight is the largest word. It takes 22 octal levels, and leaves stop there. -/
theorem capacity_exact_largestWord :
    ∃ (t : Trie .pallasBase ⟨8, by decide⟩) (c : Caches .pallasBase),
      AnyTrie.create weigh .empty 8 (.capacity wordMax) = (.ok ⟨_, t⟩, c) ∧
        t.height = 22 ∧ t.leaves = wordMax := by
  obtain ⟨-, created, -⟩ := capacity_exact weigh .empty wordMax (Nat.le_refl _)
  obtain ⟨t, c, create, least, -, room⟩ := created ⟨8, by decide⟩
  have height : t.height = 22 := least.unique ⟨by decide, fun n hn => ?_⟩
  · exact ⟨t, c, create, height, Nat.le_antisymm (min_le_right _ _) room⟩
  · refine Nat.le_of_not_lt fun below => Nat.not_lt.mpr hn.2 ?_
    calc 8 ^ n ≤ 8 ^ 21 := Nat.pow_le_pow_right (by decide) (Nat.le_of_lt_succ below)
      _ < wordMax := by decide

end PoseidonTrie
