import Mathlib.Algebra.BigOperators.Fin
import Mathlib.Data.Nat.Digits.Defs
import PoseidonTrie.Proofs.Trie.Digits

/-! Key paths as numerals in the base of their width, for every width and height whose bits a word
can count. A key has a path exactly if its number is small enough, the path spells that number, and
every numeral that spells an element is the path of one key. -/
namespace PoseidonTrie

variable {f : PrimeField} {base n height v : Nat} {key key' : Element f} {digits digits' : List Nat}
  {path : List (Fin (2 ^ digitBits n))}

/-- The number that digits spell in a base, the most significant digit first. -/
def spelled (base : Nat) (digits : List Nat) : Nat :=
  ∑ i : Fin digits.length, digits[i] * base ^ (digits.length - 1 - i)

theorem spelled_cons (d : Nat) (digits : List Nat) :
    spelled base (d :: digits) = d * base ^ digits.length + spelled base digits := by
  change ∑ i : Fin (digits.length + 1), (d :: digits)[i] * base ^ (digits.length - i) = _
  rw [Fin.sum_univ_succ, spelled]
  congr 1
  apply Finset.sum_congr rfl
  intro i _
  have exponent : digits.length - (i.val + 1) = digits.length - 1 - i.val := by omega
  change digits[i.val] * base ^ (digits.length - (i.val + 1)) = digits[i.val] * _
  rw [exponent]

theorem spelled_eq_ofDigits (digits : List Nat) :
    spelled base digits = Nat.ofDigits base digits.reverse := by
  induction digits with
  | nil => rfl
  | cons d digits ih =>
    rw [spelled_cons, ih, List.reverse_cons, Nat.ofDigits_append, Nat.ofDigits_singleton,
      List.length_reverse, Nat.add_comm, Nat.mul_comm]

theorem spelled_lt (hbase : 1 < base) (hd : ∀ d ∈ digits, d < base) :
    spelled base digits < base ^ digits.length := by
  rw [spelled_eq_ofDigits, ← List.length_reverse]
  exact Nat.ofDigits_lt_base_pow_length hbase fun d hmem => hd d (List.mem_reverse.mp hmem)

theorem eq_of_spelled_eq (hbase : 1 < base) (hlen : digits.length = digits'.length)
    (hd : ∀ d ∈ digits, d < base) (hd' : ∀ d ∈ digits', d < base)
    (h : spelled base digits = spelled base digits') : digits = digits' := by
  rw [spelled_eq_ofDigits, spelled_eq_ofDigits] at h
  apply List.reverse_injective
  apply Nat.ofDigits_inj_of_len_eq hbase _ _ _ h
  · rw [List.length_reverse, List.length_reverse, hlen]
  · exact fun d hmem => hd d (List.mem_reverse.mp hmem)
  · exact fun d hmem => hd' d (List.mem_reverse.mp hmem)

theorem ofDigits_lowDigits (base v height : Nat) :
    Nat.ofDigits base ((List.range height).map fun i => v / base ^ i % base) =
      v % base ^ height := by
  induction height with
  | zero => rw [Nat.pow_zero, Nat.mod_one]; rfl
  | succ height ih =>
    rw [List.range_succ, List.map_append, Nat.ofDigits_append, ih, List.length_map,
      List.length_range, List.map_singleton, Nat.ofDigits_singleton, Nat.mod_pow_succ]

/-- A width that is a power of two takes as many bits as its exponent says. -/
theorem digitBits_two_pow {b : Nat} (h : 2 ^ b ≤ wordMax) : digitBits (2 ^ b) = b := by
  have bits : b < 64 := by
    rw [← Nat.pow_lt_pow_iff_right Nat.one_lt_two]
    exact Nat.lt_of_le_of_lt h (by decide)
  have first : (List.range 64).find? (2 ^ b).testBit = some b := by
    rw [List.find?_range_eq_some]
    refine ⟨Nat.testBit_two_pow_self, List.mem_range.mpr bits, ?_⟩
    intro j hj
    rw [Nat.testBit_two_pow_of_ne hj.ne']
    rfl
  rw [digitBits, first, Option.getD_some]

section Paths

variable (h : digitBits n * height ≤ wordMax)
include h

theorem keyPath_of_lt (hkey : key.val < 2 ^ (digitBits n * height)) :
    keyPath n key height = .ok ((List.range height).reverse.map (digitAt key (digitBits n))) := by
  rw [keyPath_eq h, if_pos hkey]

theorem keyPath_of_le (hkey : 2 ^ (digitBits n * height) ≤ key.val) :
    keyPath n key height = .error (.keyOutOfRange key height) := by
  rw [keyPath_eq h, if_neg (Nat.not_lt.mpr hkey)]

theorem keyPath_eq_ok (hp : keyPath n key height = .ok path) :
    key.val < 2 ^ (digitBits n * height) ∧
      path = (List.range height).reverse.map (digitAt key (digitBits n)) := by
  rw [keyPath_eq h] at hp
  split at hp
  · cases hp
    exact ⟨‹_›, rfl⟩
  · cases hp

theorem length_of_keyPath (hp : keyPath n key height = .ok path) : path.length = height := by
  rw [(keyPath_eq_ok h hp).2, List.length_map, List.length_reverse, List.length_range]

theorem spelled_keyPath (hp : keyPath n key height = .ok path) :
    spelled (2 ^ digitBits n) (path.map Fin.val) = key.val := by
  obtain ⟨hkey, rfl⟩ := keyPath_eq_ok h hp
  have values : (List.range height).map (fun i => (digitAt key (digitBits n) i).val) =
      (List.range height).map fun i =>
        key.val / (2 ^ digitBits n) ^ i % 2 ^ digitBits n := by
    apply List.map_congr_left
    intro i _
    rw [digitAt_val, Nat.mul_comm i, Nat.pow_mul]
  rw [spelled_eq_ofDigits, List.map_map, List.map_reverse, List.reverse_reverse]
  change Nat.ofDigits _ ((List.range height).map fun i => (digitAt key (digitBits n) i).val) = _
  rw [values, ofDigits_lowDigits, ← Nat.pow_mul, Nat.mod_eq_of_lt hkey]

theorem key_eq_of_keyPath_eq (hp : keyPath n key height = .ok path)
    (hp' : keyPath n key' height = .ok path) : key = key' := by
  apply Element.ext
  rw [← spelled_keyPath h hp, ← spelled_keyPath h hp']

/-- A numeral that spells an element is the path of the key with that number. -/
theorem keyPath_of_spelled (hbase : 0 < digitBits n) (hlen : digits.length = height)
    (hd : ∀ d ∈ digits, d < 2 ^ digitBits n) (hkey : spelled (2 ^ digitBits n) digits = key.val) :
    ∃ path, keyPath n key height = .ok path ∧ path.map Fin.val = digits := by
  have one_lt : 1 < 2 ^ digitBits n := Nat.one_lt_two_pow hbase.ne'
  have small : key.val < 2 ^ (digitBits n * height) := by
    rw [← hkey, Nat.pow_mul, ← hlen]
    exact spelled_lt one_lt hd
  have hp := keyPath_of_lt h small
  refine ⟨_, hp, ?_⟩
  apply eq_of_spelled_eq one_lt _ _ hd
  · rw [spelled_keyPath h hp, hkey]
  · rw [List.length_map, length_of_keyPath h hp, hlen]
  · intro d hmem
    obtain ⟨d, -, rfl⟩ := List.mem_map.mp hmem
    exact d.isLt

/-- A path of one more level starts with a zero. -/
theorem keyPath_succ (hnext : digitBits n * (height + 1) ≤ wordMax)
    (hp : keyPath n key height = .ok path) :
    keyPath n key (height + 1) = .ok (⟨0, Nat.two_pow_pos _⟩ :: path) := by
  obtain ⟨hkey, rfl⟩ := keyPath_eq_ok h hp
  have wider : key.val < 2 ^ (digitBits n * (height + 1)) :=
    Nat.lt_of_lt_of_le hkey (Nat.pow_le_pow_right Nat.two_pos (Nat.mul_le_mul_left _ (by omega)))
  have top : digitAt key (digitBits n) height = ⟨0, Nat.two_pow_pos _⟩ := by
    apply Fin.ext
    rw [digitAt_val, Nat.mul_comm, Nat.div_eq_of_lt hkey, Nat.zero_mod]
  rw [keyPath_of_lt hnext wider, List.range_succ, List.reverse_append, List.reverse_singleton,
    List.singleton_append, List.map_cons, top]

end Paths

/-- The full height is the least one whose paths tell all elements apart. -/
theorem modulus_le_two_pow (f : PrimeField) (a : Arity) :
    f.modulus ≤ 2 ^ (digitBits a.width * fullHeight f a) ∧
      2 ^ (digitBits a.width * (fullHeight f a - 1)) < f.modulus := by
  obtain ⟨n, hn⟩ := a
  rcases hn with rfl | rfl | rfl | rfl <;> cases f <;> decide

/-- The key with the greatest number. -/
def Element.last (f : PrimeField) : Element f :=
  ⟨f.modulus - 1, Nat.sub_lt f.modulus_pos Nat.one_pos⟩

/-- Whatever the width, a power of two, and the height, as long as a word counts a path's bits: a
key has a path exactly if its number takes no more bits than that. Its path then has a digit for
each level and spells the number, distinct keys have distinct paths, and each numeral of that length
whose number is an element's is the path of just one key. One more level puts a zero in front. For a
width that can be hashed, the full height gives every element a path, and one level less does
not. -/
theorem keyPath_positional (f : PrimeField) {b height : Nat} (positive : 0 < b)
    (width : 2 ^ b ≤ wordMax) (bits : b * height ≤ wordMax) :
    (∀ key : Element f,
      (key.val < 2 ^ (b * height) → ∃ path, keyPath (2 ^ b) key height = .ok path) ∧
      (2 ^ (b * height) ≤ key.val →
        keyPath (2 ^ b) key height = .error (.keyOutOfRange key height))) ∧
    (∀ (key : Element f) path, keyPath (2 ^ b) key height = .ok path →
      path.length = height ∧ (∀ d ∈ path, d.val < 2 ^ b) ∧
      spelled (2 ^ b) (path.map Fin.val) = key.val ∧
      ∀ key' : Element f, keyPath (2 ^ b) key' height = .ok path → key' = key) ∧
    (∀ digits : List Nat, digits.length = height → (∀ d ∈ digits, d < 2 ^ b) →
      spelled (2 ^ b) digits < f.modulus →
      ∃! key : Element f,
        ∃ path, keyPath (2 ^ b) key height = .ok path ∧ path.map Fin.val = digits) ∧
    (∀ (key : Element f) path, keyPath (2 ^ b) key height = .ok path →
      b * (height + 1) ≤ wordMax →
      keyPath (2 ^ b) key (height + 1) = .ok (⟨0, Nat.two_pow_pos _⟩ :: path)) ∧
    ∀ a : Arity,
      (∀ key : Element f, ∃ path, keyPath a.width key (fullHeight f a) = .ok path) ∧
      ∃ key : Element f, keyPath a.width key (fullHeight f a - 1) =
        .error (.keyOutOfRange key (fullHeight f a - 1)) := by
  have exponent : digitBits (2 ^ b) = b := digitBits_two_pow width
  -- The type of a digit names the bits of the width, so bases are compared rather than rewritten.
  have base : 2 ^ digitBits (2 ^ b) = 2 ^ b := by rw [exponent]
  have counted : digitBits (2 ^ b) * height ≤ wordMax := by rwa [exponent]
  refine ⟨fun key => ⟨fun hkey => ?_, fun hkey => ?_⟩, fun key path hp => ⟨?_, ?_, ?_, ?_⟩,
    fun digits hlen hd hspelled => ?_, fun key path hp hnext => ?_, fun a => ⟨fun key => ?_, ?_⟩⟩
  · exact ⟨_, keyPath_of_lt counted (by rwa [exponent])⟩
  · exact keyPath_of_le counted (by rwa [exponent])
  · exact length_of_keyPath counted hp
  · exact fun d _ => Nat.lt_of_lt_of_eq d.isLt base
  · calc spelled (2 ^ b) (path.map Fin.val)
        = spelled (2 ^ digitBits (2 ^ b)) (path.map Fin.val) := congrArg (spelled · _) base.symm
      _ = key.val := spelled_keyPath counted hp
  · exact fun key' hp' => key_eq_of_keyPath_eq counted hp' hp
  · let key : Element f := ⟨spelled (2 ^ b) digits, hspelled⟩
    have number : spelled (2 ^ digitBits (2 ^ b)) digits = key.val := by rw [exponent]
    obtain ⟨path, hp, hpath⟩ := keyPath_of_spelled counted (by rwa [exponent]) hlen
      (by rwa [exponent]) number
    refine ⟨key, ⟨path, hp, hpath⟩, ?_⟩
    rintro key' ⟨path', hp', hpath'⟩
    have same : path' = path :=
      List.map_injective_iff.mpr Fin.val_injective (hpath'.trans hpath.symm)
    rw [same] at hp'
    exact key_eq_of_keyPath_eq counted hp' hp
  · exact keyPath_succ counted (by rwa [exponent]) hp
  · have enough := (modulus_le_two_pow f a).1
    exact ⟨_, keyPath_of_lt (a.digitBits_mul_le (Nat.le_refl _))
      (Nat.lt_of_lt_of_le key.val_lt enough)⟩
  · have short := (modulus_le_two_pow f a).2
    refine ⟨Element.last f, keyPath_of_le (a.digitBits_mul_le (Nat.sub_le _ _)) ?_⟩
    exact Nat.le_sub_one_of_lt short

/-- In two octal digits key 29 is 35, and in three 035. -/
theorem keyPath_octal : ∃ (key : Element .pallasBase) (path : List (Fin (2 ^ digitBits (2 ^ 3)))),
    keyPath (2 ^ 3) key 2 = .ok path ∧ path.map Fin.val = [3, 5] ∧ key.val = 29 ∧
      keyPath (2 ^ 3) key 3 = .ok (⟨0, Nat.two_pow_pos _⟩ :: path) := by
  obtain ⟨-, paths, numerals, above, -⟩ :=
    keyPath_positional .pallasBase (show 0 < 3 by decide) (by decide)
      (show 3 * 2 ≤ wordMax by decide)
  obtain ⟨key, ⟨path, hp, digits⟩, -⟩ := numerals [3, 5] rfl (by decide) (by decide)
  have number : spelled (2 ^ 3) (path.map Fin.val) = key.val := (paths key path hp).2.2.1
  rw [digits] at number
  exact ⟨key, path, hp, digits, number.symm, above key path hp (by decide)⟩

end PoseidonTrie
