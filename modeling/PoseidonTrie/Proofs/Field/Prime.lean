import Mathlib.NumberTheory.LucasPrimality
import PoseidonTrie.Field.Basic

/-! The moduli are prime: the units of each have a generator of full order. -/
namespace PoseidonTrie

namespace Primality

/-- `acc * a ^ n` modulo `m`, up to a multiple of it, where `n` has at most `bits` bits. -/
def powerMod (m : Nat) : (bits acc a n : Nat) → Nat
  | 0, acc, _, _ => acc
  | bits + 1, acc, a, n =>
    powerMod m bits (if n % 2 = 1 then acc * a % m else acc) (a * a % m) (n / 2)

theorem cast_powerMod {m bits acc a n : Nat} (h : n < 2 ^ bits) :
    (powerMod m bits acc a n : ZMod m) = acc * a ^ n := by
  induction bits generalizing acc a n with
  | zero =>
    obtain rfl : n = 0 := by simpa using h
    simp [powerMod]
  | succ bits ih =>
    have half : n / 2 < 2 ^ bits := by
      rw [Nat.pow_succ] at h
      omega
    have square : ((a * a % m : Nat) : ZMod m) = a ^ 2 := by
      rw [ZMod.natCast_mod, Nat.cast_mul, sq]
    rw [powerMod, ih half, square, ← pow_mul]
    by_cases odd : n % 2 = 1
    · have split : n = 1 + 2 * (n / 2) := by omega
      rw [if_pos odd, ZMod.natCast_mod, Nat.cast_mul, mul_assoc, ← pow_succ', add_comm, ← split]
    · have split : n = 2 * (n / 2) := by omega
      rw [if_neg odd, ← split]

/-- A number claimed to be prime, a generator of its units, and the number before it in factors
with their exponents. -/
structure Row where
  number : Nat
  generator : Nat
  factors : List (Nat × Nat)

/-- Whether a power of the generator is one. -/
def Row.isOne (r : Row) (n : Nat) : Bool :=
  powerMod r.number 256 1 r.generator n % r.number = 1 % r.number

theorem Row.isOne_iff {r : Row} {n : Nat} (h : n < 2 ^ 256) :
    r.isOne n = true ↔ (r.generator : ZMod r.number) ^ n = 1 := by
  have power : ((powerMod r.number 256 1 r.generator n : Nat) : ZMod r.number) =
      ((1 : Nat) : ZMod r.number) * r.generator ^ n := cast_powerMod h
  rw [Nat.cast_one, one_mul] at power
  rw [isOne, decide_eq_true_iff, ← power, ← Nat.cast_one (R := ZMod r.number),
    ZMod.natCast_eq_natCast_iff']

/-- A small number without a small divisor. -/
def isSmallPrime (n : Nat) : Bool :=
  2 ≤ n && n < 65536 && (List.range 256).all fun d => d < 2 || n ≤ d || n % d ≠ 0

theorem prime_of_isSmallPrime {n : Nat} (h : isSmallPrime n = true) : n.Prime := by
  simp only [isSmallPrime, Bool.and_eq_true, decide_eq_true_eq, List.all_eq_true, List.mem_range,
    Bool.or_eq_true] at h
  obtain ⟨⟨two_le, small⟩, none⟩ := h
  rw [Nat.prime_def_le_sqrt]
  refine ⟨two_le, ?_⟩
  intro d hd hle hdvd
  have root : Nat.sqrt n < 256 := Nat.sqrt_lt.mpr small
  have below : d < n := lt_of_le_of_lt hle (Nat.sqrt_lt_self two_le)
  rcases none d (by omega) with (hlt | hge) | hmod
  · omega
  · omega
  · exact hmod (Nat.mod_eq_zero_of_dvd hdvd)

/-- The generator has full order: no factor of the number before can be left out. A factor is a
small prime or the number of another row. -/
def Row.passes (known : List Row) (r : Row) : Bool :=
  r.number < 2 ^ 256 && (r.factors.map fun (q, k) => q ^ k).prod + 1 = r.number
    && r.isOne (r.number - 1)
    && r.factors.all fun (q, _) =>
      (isSmallPrime q || known.any (·.number = q)) && !r.isOne ((r.number - 1) / q)

/-- Every row passes with the rows after it. -/
def checked : List Row → Bool
  | [] => true
  | r :: rest => r.passes rest && checked rest

theorem Row.prime_of_passes {known : List Row} {r : Row} (hk : ∀ k ∈ known, k.number.Prime)
    (h : r.passes known = true) : r.number.Prime := by
  simp only [passes, Bool.and_eq_true, decide_eq_true_eq, List.all_eq_true] at h
  obtain ⟨⟨⟨bounded, product⟩, one⟩, factors⟩ := h
  have before : r.number - 1 = (r.factors.map fun (q, k) => q ^ k).prod := by
    rw [← product, Nat.add_sub_cancel]
  -- Any prime that divides the product of the factors is one of them.
  apply lucas_primality r.number r.generator ((isOne_iff (by omega)).mp one)
  intro q hq hdvd
  rw [before] at hdvd
  obtain ⟨_, hmem, hpow⟩ := (Prime.dvd_prod_iff hq.prime).mp hdvd
  obtain ⟨⟨p, k⟩, hfactor, rfl⟩ := List.mem_map.mp hmem
  obtain ⟨known_or_small, notOne⟩ := factors _ hfactor
  have hp : p.Prime := by
    rcases Bool.or_eq_true_iff.mp known_or_small with small | hknown
    · exact prime_of_isSmallPrime small
    · obtain ⟨row, hrow, heq⟩ := List.any_eq_true.mp hknown
      obtain rfl := of_decide_eq_true heq
      exact hk row hrow
  obtain rfl := (Nat.prime_dvd_prime_iff_eq hq hp).mp (hq.dvd_of_dvd_pow hpow)
  intro hone
  have quotient : (r.number - 1) / q < 2 ^ 256 :=
    lt_of_le_of_lt (Nat.div_le_self ..) (by omega)
  rw [(isOne_iff quotient).mpr hone] at notOne
  cases notOne

theorem prime_of_checked {rows : List Row} (h : checked rows = true) :
    ∀ r ∈ rows, r.number.Prime := by
  induction rows with
  | nil => simp
  | cons r rows ih =>
    obtain ⟨passes, rest⟩ := Bool.and_eq_true_iff.mp h
    intro s hs
    rcases List.mem_cons.mp hs with rfl | hs
    · exact Row.prime_of_passes (ih rest) passes
    · exact ih rest s hs

/-- The moduli and the large primes that the test needs on the way. -/
def rows : List Row :=
  [⟨28948022309329048855892746252171976963363056481941647379679742748393362948097, 5,
      [(2, 32), (3, 2), (1709, 1), (24859, 1), (1690502597179744445941507, 1),
        (10427374428728808478656897599072717, 1)]⟩,
    ⟨28948022309329048855892746252171976963363056481941560715954676764349967630337, 5,
      [(2, 32), (3, 1), (463, 1), (539204044132271846773, 1),
        (8999194758858563409123804352480028797519453, 1)]⟩,
    ⟨21888242871839275222246405745257275088548364400416034343698204186575808495617, 5,
      [(2, 28), (3, 2), (13, 1), (29, 1), (983, 1), (11003, 1), (237073, 1), (405928799, 1),
        (1670836401704629, 1), (13818364434197438864469338081, 1)]⟩,
    ⟨8999194758858563409123804352480028797519453, 2,
      [(2, 2), (3, 4), (11, 1), (2531, 1), (115603, 1), (1197907, 1), (22160661629, 1),
        (325086459374267, 1)]⟩,
    ⟨10427374428728808478656897599072717, 2,
      [(2, 2), (294793, 1), (4229279, 1), (399082391, 1), (5239247429827, 1)]⟩,
    ⟨13818364434197438864469338081, 3,
      [(2, 5), (5, 1), (823, 1), (1593227, 1), (65865678001877903, 1)]⟩,
    ⟨1690502597179744445941507, 2,
      [(2, 1), (3, 1), (13, 1), (4129989133, 1), (5247740253619, 1)]⟩,
    ⟨539204044132271846773, 5, [(2, 2), (3, 5), (89, 1), (14923, 1), (417677162933, 1)]⟩,
    ⟨65865678001877903, 5, [(2, 1), (83, 1), (379, 1), (1637, 1), (639533339, 1)]⟩,
    ⟨1670836401704629, 2, [(2, 2), (3, 4), (5156902474397, 1)]⟩,
    ⟨325086459374267, 2, [(2, 1), (509, 1), (413527, 1), (772231, 1)]⟩,
    ⟨5247740253619, 2, [(2, 1), (3, 3), (17, 1), (71, 1), (80513981, 1)]⟩,
    ⟨5239247429827, 2, [(2, 1), (3, 2), (757, 1), (12149, 1), (31649, 1)]⟩,
    ⟨5156902474397, 2, [(2, 2), (107, 1), (12048837557, 1)]⟩,
    ⟨417677162933, 2, [(2, 2), (59, 1), (1973, 1), (897019, 1)]⟩,
    ⟨22160661629, 3, [(2, 2), (7, 1), (19, 1), (41655379, 1)]⟩,
    ⟨12048837557, 2, [(2, 2), (7, 2), (661, 1), (93001, 1)]⟩,
    ⟨4129989133, 5, [(2, 2), (3, 1), (359, 1), (958679, 1)]⟩,
    ⟨639533339, 2, [(2, 1), (229, 1), (853, 1), (1637, 1)]⟩,
    ⟨405928799, 22, [(2, 1), (11, 1), (3691, 1), (4999, 1)]⟩,
    ⟨399082391, 7, [(2, 1), (5, 1), (7, 1), (5701177, 1)]⟩,
    ⟨80513981, 2, [(2, 2), (5, 1), (4025699, 1)]⟩,
    ⟨41655379, 2, [(2, 1), (3, 1), (6942563, 1)]⟩,
    ⟨6942563, 2, [(2, 1), (11, 1), (17, 1), (19, 1), (977, 1)]⟩,
    ⟨5701177, 7, [(2, 3), (3, 2), (13, 1), (6091, 1)]⟩,
    ⟨4229279, 13, [(2, 1), (827, 1), (2557, 1)]⟩,
    ⟨4025699, 2, [(2, 1), (2012849, 1)]⟩,
    ⟨2012849, 3, [(2, 4), (125803, 1)]⟩,
    ⟨1593227, 2, [(2, 1), (19, 1), (41927, 1)]⟩,
    ⟨1197907, 3, [(2, 1), (3, 1), (53, 1), (3767, 1)]⟩,
    ⟨958679, 7, [(2, 1), (7, 1), (68477, 1)]⟩,
    ⟨897019, 2, [(2, 1), (3, 1), (149503, 1)]⟩,
    ⟨772231, 6, [(2, 1), (3, 1), (5, 1), (25741, 1)]⟩,
    ⟨413527, 3, [(2, 1), (3, 1), (41, 3)]⟩,
    ⟨294793, 10, [(2, 3), (3, 1), (71, 1), (173, 1)]⟩,
    ⟨237073, 15, [(2, 4), (3, 1), (11, 1), (449, 1)]⟩,
    ⟨149503, 3, [(2, 1), (3, 1), (24917, 1)]⟩,
    ⟨125803, 3, [(2, 1), (3, 2), (29, 1), (241, 1)]⟩,
    ⟨115603, 2, [(2, 1), (3, 1), (19267, 1)]⟩,
    ⟨93001, 14, [(2, 3), (3, 1), (5, 3), (31, 1)]⟩,
    ⟨68477, 2, [(2, 2), (17, 1), (19, 1), (53, 1)]⟩]

theorem checked_rows : checked rows = true := by
  decide +kernel

end Primality

theorem PrimeField.prime (f : PrimeField) : f.modulus.Prime := by
  obtain ⟨r, hr, heq⟩ : ∃ r ∈ Primality.rows, r.number = f.modulus := by
    cases f <;> decide
  exact heq ▸ Primality.prime_of_checked Primality.checked_rows r hr

end PoseidonTrie
