import Mathlib.Data.Nat.Digits.Defs
import PoseidonTrie.Proofs.Trie.Positional

/-! Encodings of elements as numerals: bytes and words in base 256, text in base 16. Each is read
back exactly, and nothing that is not an encoding is read. -/
namespace PoseidonTrie.Element

variable {f : PrimeField} {x y : Element f} {bytes bytes' : List UInt8}

theorem natOfBytes_eq_ofDigits (bytes : List UInt8) :
    natOfBytes bytes = Nat.ofDigits 256 (bytes.map UInt8.toNat) := by
  induction bytes with
  | nil => rfl
  | cons b rest ih => rw [List.map_cons, Nat.ofDigits_cons, ← ih]; rfl

theorem natOfBytes_injective (hlen : bytes.length = bytes'.length)
    (h : natOfBytes bytes = natOfBytes bytes') : bytes = bytes' := by
  rw [natOfBytes_eq_ofDigits, natOfBytes_eq_ofDigits] at h
  have byte (bs : List UInt8) : ∀ d ∈ bs.map UInt8.toNat, d < 256 := by
    intro d hd
    obtain ⟨b, -, rfl⟩ := List.mem_map.mp hd
    exact b.toNat_lt
  apply List.map_injective_iff.mpr fun _ _ => UInt8.toNat_inj.mp
  exact Nat.ofDigits_inj_of_len_eq (by decide) (by simpa using hlen) (byte _) (byte _) h

theorem map_toNat_toBytes (x : Element f) :
    x.toBytes.map UInt8.toNat = (List.range 32).map fun i => x.val / 256 ^ i % 256 := by
  rw [toBytes, List.map_map]
  apply List.map_congr_left
  intro i _
  simp [Nat.shiftRight_eq_div_pow, Nat.pow_mul]

theorem length_toBytes (x : Element f) : x.toBytes.length = 32 := by
  simp [toBytes]

theorem val_lt_pow (x : Element f) : x.val < 256 ^ 32 := by
  have wide : f.modulus < 256 ^ 32 := by cases f <;> decide
  exact lt_trans x.val_lt wide

theorem natOfBytes_toBytes (x : Element f) : natOfBytes x.toBytes = x.val := by
  rw [natOfBytes_eq_ofDigits, map_toNat_toBytes, ofDigits_lowDigits, Nat.mod_eq_of_lt x.val_lt_pow]

theorem fromBytes?_of_lt (hlen : bytes.length = f.numBytes) (small : natOfBytes bytes < f.modulus) :
    fromBytes? bytes = some (⟨natOfBytes bytes, small⟩ : Element f) :=
  (if_pos hlen).trans (dif_pos small)

theorem fromBytes?_eq_some (h : fromBytes? bytes = some x) :
    bytes.length = f.numBytes ∧ natOfBytes bytes = x.val := by
  rw [fromBytes?] at h
  split at h
  · split at h
    · cases h
      exact ⟨‹_›, rfl⟩
    · cases h
  · cases h

/-- Nothing but the encoding of an element is read as the element. -/
theorem fromBytes?_eq_some_iff : fromBytes? bytes = some x ↔ bytes = x.toBytes := by
  constructor
  · intro h
    obtain ⟨hlen, number⟩ := fromBytes?_eq_some h
    exact natOfBytes_injective (hlen.trans x.length_toBytes.symm)
      (number.trans x.natOfBytes_toBytes.symm)
  · rintro rfl
    rw [fromBytes?_of_lt x.length_toBytes (x.natOfBytes_toBytes.trans_lt x.val_lt)]
    exact congrArg some (ext x.natOfBytes_toBytes)

/-- What is read is as long as an encoding and denotes a number below the modulus. -/
theorem exists_fromBytes?_iff : (∃ x : Element f, fromBytes? bytes = some x) ↔
    bytes.length = 32 ∧ natOfBytes bytes < f.modulus := by
  constructor
  · rintro ⟨x, h⟩
    obtain ⟨hlen, number⟩ := fromBytes?_eq_some h
    exact ⟨hlen, number.trans_lt x.val_lt⟩
  · rintro ⟨hlen, small⟩
    exact ⟨_, fromBytes?_of_lt hlen small⟩

section Words

theorem wordMax_lt_modulus (f : PrimeField) : wordMax < f.modulus := by
  cases f <;> decide

theorem natOfBytes_append (low high : List UInt8) :
    natOfBytes (low ++ high) = natOfBytes low + 256 ^ low.length * natOfBytes high := by
  rw [natOfBytes_eq_ofDigits, List.map_append, Nat.ofDigits_append, List.length_map,
    ← natOfBytes_eq_ofDigits, ← natOfBytes_eq_ofDigits]

theorem natOfBytes_eq_zero_iff (bytes : List UInt8) :
    natOfBytes bytes = 0 ↔ bytes.any (· != 0) = false := by
  induction bytes with
  | nil => simp [natOfBytes]
  | cons b rest ih =>
    have split : natOfBytes (b :: rest) = b.toNat + 256 * natOfBytes rest := rfl
    have digit : b.toNat = 0 ↔ (b != 0) = false := by
      rw [bne_eq_false_iff_eq, ← UInt8.toNat_inj]
      rfl
    rw [split, List.any_cons, Bool.or_eq_false_iff, ← ih, ← digit, Nat.add_eq_zero_iff,
      Nat.mul_eq_zero, or_iff_right (by decide)]

/-- The low bytes of an element are the remainder of its number. -/
theorem natOfBytes_take_toBytes (x : Element f) :
    natOfBytes (x.toBytes.take 8) = x.val % 2 ^ 64 := by
  have low : (x.toBytes.take 8).map UInt8.toNat =
      (List.range 8).map fun i => x.val / 256 ^ i % 256 := by
    rw [List.map_take, map_toNat_toBytes, ← List.map_take]
    rfl
  rw [natOfBytes_eq_ofDigits, low, ofDigits_lowDigits]

theorem natOfBytes_drop_toBytes (x : Element f) :
    natOfBytes (x.toBytes.drop 8) = x.val / 2 ^ 64 := by
  have split := natOfBytes_append (x.toBytes.take 8) (x.toBytes.drop 8)
  have low : (x.toBytes.take 8).length = 8 := by rw [List.length_take, length_toBytes]; rfl
  rw [List.take_append_drop, natOfBytes_toBytes, natOfBytes_take_toBytes, low] at split
  have := Nat.div_add_mod x.val (2 ^ 64)
  omega

theorem toUInt64?_eq (x : Element f) :
    x.toUInt64? = if x.val < 2 ^ 64 then some (UInt64.ofNat x.val) else none := by
  have high := natOfBytes_eq_zero_iff (x.toBytes.drop 8)
  rw [natOfBytes_drop_toBytes, Nat.div_eq_zero_iff_lt (by decide)] at high
  rw [toUInt64?, natOfBytes_take_toBytes]
  by_cases small : x.val < 2 ^ 64
  · rw [high.mp small, if_neg Bool.false_ne_true, if_pos small, Nat.mod_eq_of_lt small]
  · rw [if_pos (Bool.of_not_eq_false (mt high.mpr small)), if_neg small]

theorem val_ofUInt64 (f : PrimeField) (n : UInt64) : (ofUInt64 f n).val = n.toNat :=
  Nat.mod_eq_of_lt (lt_of_le_of_lt (Nat.le_of_lt_succ n.toNat_lt) (wordMax_lt_modulus f))

theorem toUInt64?_eq_some_iff {n : UInt64} : x.toUInt64? = some n ↔ x = ofUInt64 f n := by
  rw [toUInt64?_eq]
  constructor
  · intro h
    split at h
    · rename_i small
      cases h
      apply ext
      rw [val_ofUInt64, UInt64.toNat_ofNat_of_lt' small]
    · cases h
  · rintro rfl
    rw [val_ofUInt64, if_pos n.toNat_lt, UInt64.ofNat_toNat]

theorem toUInt64?_eq_none_iff : x.toUInt64? = none ↔ 2 ^ 64 ≤ x.val := by
  rw [toUInt64?_eq]
  split
  · rename_i small
    exact iff_of_false (Option.some_ne_none _) (Nat.not_le.mpr small)
  · rename_i large
    exact iff_of_true rfl (Nat.not_lt.mp large)

end Words

section Hexadecimal

/-- The digits of the number in base 16, the most significant first. -/
def nibbles (x : Element f) : List Nat :=
  (List.range 64).reverse.map fun i => x.val / 16 ^ i % 16

theorem hexByte_toUInt8 (n i : Nat) :
    hexByte (UInt8.ofNat (n >>> (8 * i))) =
      [Nat.digitChar (n / 16 ^ (2 * i + 1) % 16), Nat.digitChar (n / 16 ^ (2 * i) % 16)] := by
  have byte : (UInt8.ofNat (n >>> (8 * i))).toNat = n / 256 ^ i % 256 := by
    simp [Nat.shiftRight_eq_div_pow, Nat.pow_mul]
  have square : 256 ^ i = 16 ^ (2 * i) := by rw [Nat.pow_mul]
  have high : n / 16 ^ (2 * i) % 256 / 16 = n / 16 ^ (2 * i + 1) % 16 := by
    rw [Nat.pow_succ, ← Nat.div_div_eq_div_mul]
    omega
  have low : n / 16 ^ (2 * i) % 256 % 16 = n / 16 ^ (2 * i) % 16 := by omega
  rw [hexByte, byte, square, high, low]

theorem flatMap_hexByte (n count : Nat) :
    ((List.range count).map fun i => UInt8.ofNat (n >>> (8 * i))).reverse.flatMap hexByte =
      (List.range (2 * count)).reverse.map fun i => Nat.digitChar (n / 16 ^ i % 16) := by
  induction count with
  | zero => rfl
  | succ count ih =>
    have next : 2 * (count + 1) = 2 * count + 1 + 1 := by omega
    rw [next, List.range_succ, List.range_succ, List.range_succ, List.map_append,
      List.map_singleton, List.reverse_concat, List.flatMap_cons, ih, hexByte_toUInt8,
      List.reverse_concat, List.reverse_concat]
    rfl

theorem toList_hexDigits (x : Element f) :
    x.hexDigits.toList = '0' :: 'x' :: x.nibbles.map Nat.digitChar := by
  rw [hexDigits, String.toList_ofList, toBytes, flatMap_hexByte, nibbles, List.map_map]
  rfl

theorem nibble_lt : ∀ d ∈ x.nibbles, d < 16 := by
  intro d hd
  obtain ⟨i, -, rfl⟩ := List.mem_map.mp hd
  exact Nat.mod_lt _ (by decide)

theorem spelled_nibbles (x : Element f) : spelled 16 x.nibbles = x.val := by
  have wide : x.val < 16 ^ 64 := x.val_lt_pow
  rw [spelled_eq_ofDigits, nibbles, ← List.map_reverse, List.reverse_reverse, ofDigits_lowDigits,
    Nat.mod_eq_of_lt wide]

theorem hexDigits_injective : Function.Injective fun x : Element f => x.hexDigits := by
  intro x y h
  have digit : ∀ d < 16, ∀ e < 16, Nat.digitChar d = Nat.digitChar e → d = e := by decide
  have chars : x.nibbles.map Nat.digitChar = y.nibbles.map Nat.digitChar := by
    have text := congrArg String.toList h
    rw [toList_hexDigits, toList_hexDigits] at text
    exact (List.cons.inj (List.cons.inj text).2).2
  have same : x.nibbles = y.nibbles := by
    apply List.ext_getElem (by simp [nibbles])
    intro i hx hy
    have char := congrArg (·[i]?) chars
    simp only [List.getElem?_map, List.getElem?_eq_getElem hx, List.getElem?_eq_getElem hy,
      Option.map_some, Option.some_inj] at char
    exact digit _ (nibble_lt _ (List.getElem_mem hx)) _ (nibble_lt _ (List.getElem_mem hy)) char
  apply ext
  rw [← spelled_nibbles, same, spelled_nibbles]

end Hexadecimal

/-- Encodings are exact inverses. An element is read from its bytes alone: 32 of them, the least
significant first, which denote a number below the modulus. It is a word exactly if the word embeds
to it, and no word exactly if its number is too large. Its text is its number in base 16 at full
width, after a prefix, and no two elements have the same. -/
theorem encodings_exact (f : PrimeField) :
    (∀ (x : Element f) (bytes : List UInt8), fromBytes? bytes = some x ↔ bytes = x.toBytes) ∧
    (∀ bytes : List UInt8, (∃ x : Element f, fromBytes? bytes = some x) ↔
      bytes.length = 32 ∧ Nat.ofDigits 256 (bytes.map UInt8.toNat) < f.modulus) ∧
    (∀ x : Element f, x.toBytes.length = 32 ∧
      Nat.ofDigits 256 (x.toBytes.map UInt8.toNat) = x.val) ∧
    (∀ (x : Element f) (n : UInt64), x.toUInt64? = some n ↔ x = ofUInt64 f n) ∧
    (∀ x : Element f, x.toUInt64? = none ↔ 2 ^ 64 ≤ x.val) ∧
    (∀ x : Element f, x.hexDigits.length = 66 ∧
      ∃ digits : List Nat, digits.length = 64 ∧ (∀ d ∈ digits, d < 16) ∧
        spelled 16 digits = x.val ∧
        x.hexDigits.toList = '0' :: 'x' :: digits.map Nat.digitChar) ∧
    Function.Injective fun x : Element f => x.hexDigits := by
  refine ⟨fun _ _ => fromBytes?_eq_some_iff, fun bytes => ?_, fun x => ⟨x.length_toBytes, ?_⟩,
    fun _ _ => toUInt64?_eq_some_iff, fun _ => toUInt64?_eq_none_iff, fun x => ⟨?_, ?_⟩,
    hexDigits_injective⟩
  · rw [← natOfBytes_eq_ofDigits]
    exact exists_fromBytes?_iff
  · rw [← natOfBytes_eq_ofDigits, natOfBytes_toBytes]
  · rw [← String.length_toList, toList_hexDigits]
    simp [nibbles]
  · exact ⟨x.nibbles, by simp [nibbles], nibble_lt, x.spelled_nibbles, x.toList_hexDigits⟩

/-- The largest element has bytes that are read back, and is no word. The bytes of the modulus are
not read. -/
theorem encodings_exact_last :
    fromBytes? (Element.last .pallasBase).toBytes = some (Element.last .pallasBase) ∧
      (Element.last .pallasBase).toUInt64? = none ∧
      ¬ ∃ x : Element .pallasBase,
        fromBytes? (1 :: (Element.last .pallasBase).toBytes.tail) = some x := by
  obtain ⟨read, accepted, -, -, word, -⟩ := encodings_exact .pallasBase
  refine ⟨(read _ _).mpr rfl, (word _).mpr (by decide), ?_⟩
  rw [accepted]
  decide

end PoseidonTrie.Element
