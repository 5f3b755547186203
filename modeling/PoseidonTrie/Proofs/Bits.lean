import PoseidonTrie.Trie.KeyPath

namespace PoseidonTrie

variable {f : PrimeField}

@[simp] theorem natOfBits_nil : natOfBits [] = 0 := rfl

theorem natOfBits_cons (b : Bool) (rest : List Bool) :
    natOfBits (b :: rest) = b.toNat + 2 * natOfBits rest := rfl

theorem natOfBits_append (low high : List Bool) :
    natOfBits (low ++ high) = natOfBits low + 2 ^ low.length * natOfBits high := by
  induction low with
  | nil => simp
  | cons b low ih =>
    rw [List.cons_append, natOfBits_cons, natOfBits_cons, ih, List.length_cons, Nat.pow_succ,
      Nat.mul_add, Nat.mul_comm (2 ^ low.length) 2, Nat.mul_assoc]
    omega

theorem natOfBits_replicate_false (n : Nat) : natOfBits (List.replicate n false) = 0 := by
  induction n with
  | zero => rfl
  | succ n ih =>
    rw [List.replicate_succ, natOfBits_cons, ih]
    rfl

theorem natOfBits_drop (bits : List Bool) (n : Nat) :
    natOfBits (bits.drop n) = natOfBits bits / 2 ^ n := by
  induction bits generalizing n with
  | nil => simp
  | cons b rest ih =>
    cases n with
    | zero => simp
    | succ n =>
      have half : natOfBits (b :: rest) / 2 = natOfBits rest := by
        rw [natOfBits_cons]
        cases b <;> simp
        omega
      rw [List.drop_succ_cons, ih, Nat.pow_succ, Nat.mul_comm, ← Nat.div_div_eq_div_mul, half]

theorem natOfBits_take (bits : List Bool) (n : Nat) :
    natOfBits (bits.take n) = natOfBits bits % 2 ^ n := by
  by_cases hn : n ≤ bits.length
  · have split := natOfBits_append (bits.take n) (bits.drop n)
    have bound := natOfBits_lt (bits.take n)
    rw [List.take_append_drop, List.length_take_of_le hn] at split
    rw [List.length_take_of_le hn] at bound
    rw [split, Nat.add_mul_mod_self_left, Nat.mod_eq_of_lt bound]
  · have bound : natOfBits bits < 2 ^ n :=
      Nat.lt_of_lt_of_le (natOfBits_lt bits) (Nat.pow_le_pow_right (by decide) (by omega))
    rw [List.take_of_length_le (by omega), Nat.mod_eq_of_lt bound]

theorem natOfBits_eq_zero_iff (bits : List Bool) : natOfBits bits = 0 ↔ bits.any id = false := by
  induction bits with
  | nil => simp
  | cons b rest ih =>
    rw [natOfBits_cons, List.any_cons, Bool.or_eq_false_iff, ← ih]
    cases b with
    | false =>
      simp only [Bool.toNat_false, id, true_and]
      omega
    | true => simp

theorem natOfBits_injective {bits bits' : List Bool} (hlen : bits.length = bits'.length)
    (h : natOfBits bits = natOfBits bits') : bits = bits' := by
  induction bits generalizing bits' with
  | nil => exact (List.length_eq_zero_iff.mp hlen.symm).symm
  | cons b rest ih =>
    match bits', hlen with
    | b' :: rest', hlen =>
      rw [natOfBits_cons, natOfBits_cons] at h
      have parts : b = b' ∧ natOfBits rest = natOfBits rest' := by
        cases b <;> cases b' <;> simp at h ⊢ <;> omega
      rw [parts.1, ih (Nat.succ.inj hlen) parts.2]

theorem natOfBits_testBit (x n : Nat) : natOfBits ((List.range n).map x.testBit) = x % 2 ^ n := by
  induction n with
  | zero => simp [Nat.mod_one]
  | succ n ih =>
    rw [List.range_succ, List.map_append, natOfBits_append, ih, List.length_map, List.length_range,
      Nat.pow_succ, Nat.mod_mul, ← Nat.toNat_testBit]
    rfl

theorem Element.natOfBits_bits (x : Element f) : natOfBits x.bits = x.val := by
  have wide : f.modulus < 2 ^ 256 := by cases f <;> decide
  rw [Element.bits, natOfBits_testBit]
  exact Nat.mod_eq_of_lt (Nat.lt_trans x.val_lt wide)

end PoseidonTrie
