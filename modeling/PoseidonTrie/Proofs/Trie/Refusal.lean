import PoseidonTrie.Proofs.Forest.Persistence
import PoseidonTrie.Proofs.Trie.Unknown

/-! Why insertions are refused, whatever the caches hold. There are three reasons, tried in one
order, and all of them show before anything is written. -/
namespace PoseidonTrie

variable {f : PrimeField} {a : Arity} {H : Hasher f}

namespace View

variable {v v' : View f a} {key value : Element f} {e : TrieError f}

/-- What an insertion is refused for: a zero value, else a key beyond the capacity, else the first
commitment on the key's path that has no preimage. -/
def Refuses (v : View f a) (key value : Element f) : TrieError f → Prop
  | .reservedValue => value = 0
  | .keyOutOfRange k height =>
    value ≠ 0 ∧ a.width ^ v.trie.height ≤ key.val ∧ k = key ∧ height = v.trie.height
  | .missingPreimage d =>
    value ≠ 0 ∧ key.val < a.width ^ v.trie.height ∧ v.FirstUnknown key d
  | .unsupportedArity _ | .capacityExceeded _ _ => False

theorem refuses_zero : v.Refuses key 0 e ↔ e = .reservedValue := by
  cases e <;> simp [Refuses]

/-- Where a value can be inserted, a lookup fails for the same reasons. -/
theorem proveLookup_eq_error_iff (hv : value ≠ 0) :
    v.proveLookup key = .error e ↔ v.Refuses key value e := by
  constructor
  · intro h
    by_cases hk : key.val < a.width ^ v.trie.height
    · obtain ⟨d, rfl, unknown⟩ := exists_of_proveLookup_eq_error hk h
      exact ⟨hv, hk, unknown⟩
    · rw [proveLookup_eq, if_neg hk] at h
      cases h
      exact ⟨hv, Nat.le_of_not_lt hk, rfl, rfl⟩
  · intro h
    cases e with
    | reservedValue => exact absurd h hv
    | keyOutOfRange k height =>
      obtain ⟨-, hk, rfl, rfl⟩ := h
      rw [proveLookup_eq, if_neg (Nat.not_lt.mpr hk)]
    | missingPreimage d => exact proveLookup_eq_missing.mpr h.2.2
    | unsupportedArity n => exact h.elim
    | capacityExceeded n height => exact h.elim

/-- An insertion goes down the key's path first, and stops where a lookup does. -/
theorem proveInsert_of_proveLookup_eq_error (hv : value ≠ 0) (h : v.proveLookup key = .error e) :
    v.proveInsert H key value = (.error e, v) := by
  rw [proveInsert, if_neg hv]
  rw [proveLookup] at h
  cases hpath : v.trie.path key with
  | error e' =>
    rw [hpath] at h
    cases h
    rfl
  | ok path =>
    rw [hpath] at h
    change (v.caches.preimages.descend v.trie.root path >>= _) = _ at h
    cases hdescend : v.caches.preimages.descend v.trie.root path with
    | error e' =>
      rw [hdescend] at h
      cases h
      simp only [insertAt, hdescend]
    | ok nodes =>
      rw [hdescend] at h
      cases h

theorem proveInsert_of_proveLookup_eq_ok {proof : LookupProof f a} (hv : value ≠ 0)
    (h : v.proveLookup key = .ok proof) :
    ∃ q changed v', v.proveInsert H key value = (.ok (q, changed), v') := by
  obtain ⟨hk, hdescend⟩ := proveLookup_eq_ok.mp h
  rw [proveInsert, if_neg hv, path_of_lt hk]
  simp only [insertAt, hdescend]
  split
  · exact ⟨_, _, _, rfl⟩
  · exact ⟨_, _, _, rfl⟩

/-- A refusal leaves the trie and both caches, and there is one exactly for the reasons given. -/
theorem proveInsert_eq_error_iff :
    v.proveInsert H key value = (.error e, v') ↔ v.Refuses key value e ∧ v' = v := by
  by_cases hv : value = 0
  · subst hv
    have refused : v.proveInsert H key 0 = (.error .reservedValue, v) := if_pos rfl
    rw [refused, refuses_zero, Prod.mk.injEq, Except.error.injEq, eq_comm, eq_comm (a := v)]
  · rw [← proveLookup_eq_error_iff hv]
    cases hfound : v.proveLookup key with
    | error e' =>
      rw [proveInsert_of_proveLookup_eq_error hv hfound, Prod.mk.injEq, Except.error.injEq,
        Except.error.injEq, eq_comm (a := v)]
    | ok proof =>
      obtain ⟨q, changed, v₁, inserted⟩ :=
        proveInsert_of_proveLookup_eq_ok (H := H) hv hfound
      rw [inserted]
      simp

theorem insert_eq_error_iff :
    v.insert H key value = (.error e, v') ↔ v.proveInsert H key value = (.error e, v') := by
  rw [View.insert]
  rcases v.proveInsert H key value with ⟨_ | r, v₁⟩
  · simp [Except.map]
  · simp [Except.map]

theorem exists_proveInsert_eq_ok :
    (∃ q changed v', v.proveInsert H key value = (.ok (q, changed), v')) ↔
      ∀ e, ¬ v.Refuses key value e := by
  constructor
  · rintro ⟨q, changed, v', inserted⟩ e refuses
    rw [proveInsert_eq_error_iff.mpr ⟨refuses, rfl⟩] at inserted
    cases inserted
  · intro h
    rcases hinsert : v.proveInsert H key value with ⟨e | ⟨q, changed⟩, v'⟩
    · exact absurd (proveInsert_eq_error_iff.mp hinsert).1 (h e)
    · exact ⟨q, changed, v', rfl⟩

/-- An insertion, proved or not, either succeeds or is refused, and then nothing has changed,
neither the trie nor the caches. It is refused for one reason only: no value, else no path for the
key, else the first commitment on the path that has no preimage, however wrong those registered are.
A width that is not supported is never the reason, and every digit of a path names a child. -/
theorem insert_atomic (H : Hasher f) (v : View f a) (key value : Element f) :
    (∀ e v', v.proveInsert H key value = (.error e, v') ↔ v.Refuses key value e ∧ v' = v) ∧
    (∀ e v', v.insert H key value = (.error e, v') ↔ v.Refuses key value e ∧ v' = v) ∧
    ((∃ q changed v', v.proveInsert H key value = (.ok (q, changed), v')) ↔
      ∀ e, ¬ v.Refuses key value e) ∧
    ((∃ changed v', v.insert H key value = (.ok changed, v')) ↔
      ∀ e, ¬ v.Refuses key value e) ∧
    Arity.require (f := f) a.width = .ok a ∧
    ∀ path, keyPath a.width key v.trie.height = .ok path →
      path.length = v.trie.height ∧ ∀ k ∈ path, k.val < a.width := by
  refine ⟨fun e v' => proveInsert_eq_error_iff,
    fun e v' => insert_eq_error_iff.trans proveInsert_eq_error_iff,
    exists_proveInsert_eq_ok, ?_, ?_, ?_⟩
  · rw [← exists_proveInsert_eq_ok (H := H)]
    constructor
    · rintro ⟨changed, v', inserted⟩
      obtain ⟨q, proved⟩ := insert_eq_ok inserted
      exact ⟨q, changed, v', proved⟩
    · rintro ⟨q, changed, v', proved⟩
      exact ⟨changed, v', by rw [View.insert, proved]; rfl⟩
  · rw [Arity.require, Arity.ofWidth?_width]
  · intro path hpath
    have cast : a.path key v.trie.height = .ok (path.map (Fin.cast a.two_pow_digitBits)) := by
      rw [Arity.path, hpath]
      rfl
    refine ⟨?_, fun k _ => Nat.lt_of_lt_of_eq k.isLt a.two_pow_digitBits⟩
    rw [← Arity.length_of_path cast, List.length_map]

/-- Nothing goes into a trie whose root is not known, and a zero value is refused before that is
found. -/
theorem insert_atomic_sapling :
    View.insert weigh ⟨Forest.sapling 1, .empty⟩ 1 1 =
        (.error (.missingPreimage 1), ⟨Forest.sapling 1, .empty⟩) ∧
      View.insert weigh ⟨Forest.sapling 1, .empty⟩ 1 0 =
        (.error .reservedValue, ⟨Forest.sapling 1, .empty⟩) ∧
      ∃ path, keyPath Arity.binary.width (1 : Element .pallasBase) 1 = .ok path ∧
        path.length = 1 ∧ ∀ k ∈ path, k.val < Arity.binary.width := by
  have unknown : View.FirstUnknown ⟨Forest.sapling 1, .empty⟩ 1 1 := by
    exact ⟨_, path_of_lt (by decide), [], _, [], rfl, List.cons_ne_nil _ _, rfl, rfl,
      PreimageCache.find?_empty⟩
  obtain ⟨-, refused, -, -, -, digits⟩ := insert_atomic weigh ⟨Forest.sapling 1, .empty⟩ 1 1
  obtain ⟨-, empty, -⟩ := insert_atomic weigh ⟨Forest.sapling 1, .empty⟩ 1 0
  refine ⟨(refused _ _).mpr ⟨⟨by decide, by decide, unknown⟩, rfl⟩,
    (empty _ _).mpr ⟨rfl, rfl⟩, ?_⟩
  have fits := Arity.path_of_lt (Forest.sapling 1).height_le
    (by decide : (1 : Element .pallasBase).val < Arity.binary.width ^ 1)
  cases hpath : keyPath Arity.binary.width (1 : Element .pallasBase) 1 with
  | error e =>
    rw [Arity.path, show (Forest.sapling 1).height = 1 from rfl, hpath] at fits
    cases fits
  | ok path => exact ⟨path, rfl, digits path hpath⟩

end View

end PoseidonTrie
