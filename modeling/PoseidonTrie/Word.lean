namespace PoseidonTrie

-- Powers of numbers are the built-in ones, also where a monoid offers others.
attribute [instance (2000), default_instance 20000] instPowNat

/-- The largest size that a word can hold. -/
def wordMax : Nat := 2 ^ 64 - 1

/-- What a word keeps of a number: the remainder. -/
def lowWord (n : Nat) : Nat := n % (wordMax + 1)

/-- One shifted left in a word. The word drops what the shift has beyond its width. -/
def shiftOne (n : Nat) : Nat := 2 ^ (n % 64)

theorem shiftOne_of_lt {n : Nat} (h : n < 64) : shiftOne n = 2 ^ n := by
  rw [shiftOne, Nat.mod_eq_of_lt h]

theorem shiftOne_le (n : Nat) : shiftOne n ≤ 2 ^ n :=
  Nat.pow_le_pow_right Nat.two_pos (Nat.mod_le n 64)

/-- A wide shift loses the one. -/
theorem shiftOne_eq_iff {n : Nat} : shiftOne n = 2 ^ n ↔ n < 64 := by
  refine ⟨fun h => ?_, shiftOne_of_lt⟩
  have same : n % 64 = n := (Nat.pow_right_inj (by decide)).mp h
  rw [← same]
  exact Nat.mod_lt n (by decide)

theorem lowWord_of_le {n : Nat} (h : n ≤ wordMax) : lowWord n = n :=
  Nat.mod_eq_of_lt (Nat.lt_succ_of_le h)

end PoseidonTrie
