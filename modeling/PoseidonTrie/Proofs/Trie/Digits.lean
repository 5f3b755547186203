import PoseidonTrie.Proofs.Bits

namespace PoseidonTrie

variable {f : PrimeField} {a : Arity}

theorem Arity.width_pos (a : Arity) : 0 < a.width :=
  Nat.lt_trans Nat.zero_lt_one a.one_lt_width

def Arity.binary : Arity :=
  ⟨2, Or.inl rfl⟩

/-- The low `height` digits of a number, most significant first. -/
def Arity.digits (a : Arity) (height n : Nat) : List (Fin a.width) :=
  (List.range height).reverse.map fun i => ⟨n / a.width ^ i % a.width, Nat.mod_lt _ a.width_pos⟩

@[simp] theorem Arity.digits_zero (n : Nat) : a.digits 0 n = [] := rfl

theorem Arity.digits_succ (height n : Nat) :
    a.digits (height + 1) n =
      ⟨n / a.width ^ height % a.width, Nat.mod_lt _ a.width_pos⟩ :: a.digits height n := by
  simp [Arity.digits, List.range_succ]

@[simp] theorem Arity.length_digits (height n : Nat) : (a.digits height n).length = height := by
  simp [Arity.digits]

theorem Arity.digits_mod {low height : Nat} (h : low ≤ height) (n : Nat) :
    a.digits low (n % a.width ^ height) = a.digits low n := by
  unfold Arity.digits
  apply List.map_congr_left
  intro i hi
  have hi : i < low := by simpa using hi
  apply Fin.ext
  have split : a.width ^ height = a.width ^ i * (a.width * a.width ^ (height - i - 1)) := by
    rw [← Nat.pow_succ', ← Nat.pow_add]
    congr 1
    omega
  change n % a.width ^ height / a.width ^ i % a.width = n / a.width ^ i % a.width
  rw [split, Nat.mod_mul_right_div_self, Nat.mod_mul_right_mod]

/-- No path of a trie is so long that counting its bits overflows a word. -/
theorem Arity.digitBits_mul_le {height : Nat} (h : height ≤ fullHeight f a) :
    digitBits a.width * height ≤ wordMax := by
  have full : digitBits a.width * fullHeight f a ≤ wordMax := by
    obtain ⟨n, hn⟩ := a
    rcases hn with rfl | rfl | rfl | rfl <;> cases f <;> decide
  exact Nat.le_trans (Nat.mul_le_mul_left _ h) full

theorem Arity.two_pow_digitBits_mul (a : Arity) (i : Nat) :
    2 ^ (digitBits a.width * i) = a.width ^ i := by
  rw [Nat.pow_mul, a.two_pow_digitBits]

theorem digitAt_val (key : Element f) (width i : Nat) :
    (digitAt key width i).val = key.val / 2 ^ (i * width) % 2 ^ width := by
  change natOfBits ((key.bits.drop (i * width)).take width) = _
  rw [natOfBits_take, natOfBits_drop, key.natOfBits_bits]

/-- Where a word counts the bits of a path, a key has one exactly if it has no bit beyond them. -/
theorem keyPath_eq {n height : Nat} (h : digitBits n * height ≤ wordMax) (key : Element f) :
    keyPath n key height =
      if key.val < 2 ^ (digitBits n * height) then
        .ok ((List.range height).reverse.map (digitAt key (digitBits n)))
      else .error (.keyOutOfRange key height) := by
  have within : (key.bits.drop (pathBits n height)).any id = false ↔
      key.val < 2 ^ (digitBits n * height) := by
    rw [← natOfBits_eq_zero_iff, natOfBits_drop, key.natOfBits_bits, pathBits, lowWord_of_le h]
    exact Nat.div_eq_zero_iff_lt (Nat.two_pow_pos _)
  rw [keyPath]
  cases beyond : (key.bits.drop (pathBits n height)).any id with
  | false => rw [if_neg Bool.false_ne_true, if_pos (within.mp beyond)]
  | true =>
    have large : ¬ key.val < 2 ^ (digitBits n * height) := by
      rw [← within, beyond]
      decide
    rw [if_pos rfl, if_neg large]

theorem Arity.length_of_path {key : Element f} {height : Nat} {path : List (Fin a.width)}
    (h : a.path key height = .ok path) : path.length = height := by
  rw [Arity.path, keyPath] at h
  split at h
  · cases h
  · cases h
    simp

/-- A key has a path exactly if its number is below the capacity, and the path is its digits. -/
theorem Arity.path_eq {height : Nat} (h : height ≤ fullHeight f a) (key : Element f) :
    a.path key height =
      if key.val < a.width ^ height then .ok (a.digits height key.val)
      else .error (.keyOutOfRange key height) := by
  rw [Arity.path, keyPath_eq (a.digitBits_mul_le h), a.two_pow_digitBits_mul]
  split
  · simp only [Except.map, Arity.digits, List.map_map]
    congr 1
    apply List.map_congr_left
    intro i _
    apply Fin.ext
    change (digitAt key (digitBits a.width) i).val = _
    rw [digitAt_val, Nat.mul_comm, a.two_pow_digitBits_mul, a.two_pow_digitBits]
  · rfl

theorem Arity.path_of_lt {height : Nat} (h : height ≤ fullHeight f a) {key : Element f}
    (hkey : key.val < a.width ^ height) : a.path key height = .ok (a.digits height key.val) := by
  rw [Arity.path_eq h, if_pos hkey]

theorem Arity.path_eq_ok {height : Nat} (h : height ≤ fullHeight f a) {key : Element f}
    {path : List (Fin a.width)} (hp : a.path key height = .ok path) :
    key.val < a.width ^ height ∧ path = a.digits height key.val := by
  rw [Arity.path_eq h] at hp
  split at hp
  · exact ⟨‹_›, by injection hp with e; exact e.symm⟩
  · cases hp

end PoseidonTrie
