import PoseidonTrie.Proofs.Fold.Batching
import PoseidonTrie.Proofs.Trie.Unknown
import PoseidonTrie.Proofs.Trie.Written

/-! Folds that fail. Wherever one stops, the trie is put back where it was, and the error is that of
the first pair refused, or of the first path that is lost. -/
namespace PoseidonTrie

variable {f : PrimeField} {a : Arity} {H : Hasher f}

namespace View

variable {v after : View f a} {pairs pairs' : List (Element f × Element f)} {m : Nat}
  {key value : Element f} {e : TrieError f}

/-- Why a pair that cannot be inserted is refused. A value of zero is what counts first. -/
def refusal (v : View f a) (key value : Element f) : TrieError f :=
  if value = 0 then .reservedValue else .keyOutOfRange key v.trie.height

theorem admits_eq_error (h : ¬ Insertable (a.width ^ v.trie.height) (key, value)) :
    v.admits key value = .error (v.refusal key value) := by
  rw [admits, refusal]
  by_cases hv : value = 0
  · rw [if_pos hv, if_pos hv]
  · have far : ¬ key.val < a.width ^ v.trie.height := fun hk => h ⟨hv, hk⟩
    rw [if_neg hv, if_neg hv, Trie.path, Arity.path_eq v.trie.height_le, if_neg far]
    rfl

theorem forM_admits_append (h : ∀ p ∈ pairs, Insertable (a.width ^ v.trie.height) p) :
    ((pairs ++ pairs').forM fun (key, value) => v.admits key value) =
      pairs'.forM fun (key, value) => v.admits key value := by
  induction pairs with
  | nil => rfl
  | cons pair pairs ih =>
    obtain ⟨first, rest⟩ := List.forall_mem_cons.mp h
    change (v.admits pair.1 pair.2 >>= fun _ => _) = _
    rw [(admits_eq_ok pair.1 pair.2).mpr first]
    exact ih rest

theorem fold_eq_refusal {before rest : List (Element f × Element f)} (batch : Nat)
    (hbefore : ∀ p ∈ before, Insertable (a.width ^ v.trie.height) p)
    (h : ¬ Insertable (a.width ^ v.trie.height) (key, value)) :
    v.fold H (before ++ (key, value) :: rest) batch = (.error (v.refusal key value), v) := by
  have refused : ((before ++ (key, value) :: rest).forM fun (key, value) => v.admits key value) =
      .error (v.refusal key value) := by
    rw [forM_admits_append hbefore]
    change (v.admits key value >>= fun _ => _) = _
    rw [admits_eq_error h]
    rfl
  rw [fold, refused]

/-- The insertions that fail are stopped by one pair, before which all went in. -/
theorem insertAll_eq_error (h : (v.insertAll H pairs).1 = .error e) :
    ∃ before key value rest mid, pairs = before ++ (key, value) :: rest ∧
      v.insertAll H before = (.ok (), mid) ∧ mid.proveInsert H key value = (.error e, mid) := by
  induction pairs generalizing v with
  | nil => cases h
  | cons pair pairs ih =>
    rcases proveInsert_cases (H := H) (v := v) pair.1 pair.2 with ⟨e', he⟩ | ⟨r, v₁, hok, -⟩
    · simp only [insertAll, View.insert, he, Except.map] at h
      cases h
      exact ⟨[], pair.1, pair.2, pairs, v, rfl, rfl, he⟩
    · rw [insertAll_cons_of_proveInsert hok] at h
      obtain ⟨before, key, value, rest, mid, rfl, hbefore, herror⟩ := ih h
      refine ⟨pair :: before, key, value, rest, mid, rfl, ?_, herror⟩
      rw [insertAll_cons_of_proveInsert hok, hbefore]

theorem insertAll_append_of_error (h : (v.insertAll H pairs).1 = .error e) :
    v.insertAll H (pairs ++ pairs') = v.insertAll H pairs := by
  induction pairs generalizing v with
  | nil => cases h
  | cons pair pairs ih =>
    rw [List.cons_append]
    rcases proveInsert_cases (H := H) (v := v) pair.1 pair.2 with ⟨e', he⟩ | ⟨r, v₁, hok, -⟩
    · simp only [insertAll, View.insert, he, Except.map]
    · rw [insertAll_cons_of_proveInsert hok] at h
      rw [insertAll_cons_of_proveInsert hok, insertAll_cons_of_proveInsert hok, ih h]

theorem padSlots_eq_error {size : Nat} {slots : List (Slot f a.width)}
    (h : v.padSlots size slots = .error e) : slots.length < size ∧ v.proveLookup 0 = .error e := by
  rw [padSlots] at h
  split at h
  · rename_i few
    cases hproof : v.proveLookup 0 with
    | error e' =>
      rw [hproof] at h
      cases h
      exact ⟨few, rfl⟩
    | ok proof =>
      rw [hproof] at h
      cases h
  · cases h

/-- Packing fails where an insertion does, or after them all at the padding of the last step. -/
theorem packSteps_pieces_eq_error
    (h : v.packSteps H (m + 1) (pieces m pairs) = (.error e, after)) :
    after = (v.insertAll H pairs).2 ∧
      ((v.insertAll H pairs).1 = .error e ∨
        (v.insertAll H pairs).1 = .ok () ∧ after.proveLookup 0 = .error e) := by
  induction pairs using pieces.induct m generalizing v with
  | case1 =>
    rw [pieces] at h
    cases h
  | case2 pair pairs ih =>
    have split : pair :: pairs = (pair :: pairs.take m) ++ pairs.drop m := by
      rw [List.cons_append, List.take_append_drop]
    obtain ⟨hview, hres⟩ := insertSlots_eq (H := H) (v := v) (pair :: pairs.take m)
    rw [pieces_cons, packSteps] at h
    rcases hslots : v.insertSlots H (pair :: pairs.take m) with ⟨e' | slots, v₁⟩
    -- An insertion of this step fails.
    · rw [hslots] at h hview hres
      cases h
      have stopped : (v.insertAll H (pair :: pairs.take m)).1 = .error e := hres.symm
      rw [split, insertAll_append_of_error stopped]
      exact ⟨hview, .inl stopped⟩
    · have inserted := insertSlots_eq_ok.mp ⟨slots, hslots⟩
      have first : (v.insertAll H (pair :: pairs.take m)).1 = .ok () := by rw [inserted]
      simp only [hslots] at h
      cases hpad : v₁.padSlots (m + 1) slots with
      -- The padding fails, so this step is the last.
      | error e' =>
        simp only [hpad] at h
        cases h
        obtain ⟨few, herror⟩ := padSlots_eq_error hpad
        rw [(insertSlots_records hslots).length_eq, List.length_cons, List.length_take] at few
        have last : pairs.drop m = [] := List.drop_of_length_le (by omega)
        rw [split, last, List.append_nil, inserted]
        exact ⟨rfl, .inr ⟨rfl, herror⟩⟩
      | ok padded =>
        simp only [hpad] at h
        rcases hrest : v₁.packSteps H (m + 1) (pieces m (pairs.drop m)) with ⟨e' | rest, v₂⟩
        · simp only [hrest] at h
          cases h
          rw [split, insertAll_append _ _ first, inserted]
          exact ih hrest
        · simp [hrest, Except.map] at h

theorem fold_eq_error {batch : Nat} (hp : ∀ p ∈ pairs, Insertable (a.width ^ v.trie.height) p)
    (h : v.fold H pairs batch = (.error e, after)) :
    after = ⟨v.trie, (v.insertAll H pairs).2.caches⟩ ∧
      ((v.insertAll H pairs).1 = .error e ∨
        (v.insertAll H pairs).1 = .ok () ∧ (v.insertAll H pairs).2.proveLookup 0 = .error e) := by
  obtain ⟨m, hm⟩ := exists_size batch
  obtain ⟨root, htrie⟩ := (insertAll_written H v pairs).1
  rw [fold, (forM_admits_eq_ok pairs).mpr hp, hm] at h
  simp only [Nat.add_sub_cancel] at h
  rcases hpack : v.packSteps H (m + 1) (pieces m pairs) with ⟨e' | steps, packed⟩
  · rw [hpack] at h
    cases h
    obtain ⟨rfl, why⟩ := packSteps_pieces_eq_error hpack
    refine ⟨?_, why⟩
    rw [htrie]
    rfl
  · rw [hpack] at h
    cases h

theorem insertAll_height (H : Hasher f) (v : View f a) (pairs : List (Element f × Element f)) :
    (v.insertAll H pairs).2.trie.height = v.trie.height := by
  obtain ⟨root, htrie⟩ := (insertAll_written H v pairs).1
  rw [htrie]
  rfl

/-- What makes pairs fail that could all be inserted is an unknown preimage. -/
theorem exists_firstUnknown (hp : ∀ p ∈ pairs, Insertable (a.width ^ v.trie.height) p)
    (h : (v.insertAll H pairs).1 = .error e ∨
      (v.insertAll H pairs).1 = .ok () ∧ (v.insertAll H pairs).2.proveLookup 0 = .error e) :
    ∃ d, e = .missingPreimage d ∧
      ((∃ before key value rest mid, pairs = before ++ (key, value) :: rest ∧
          v.insertAll H before = (.ok (), mid) ∧
          mid.proveInsert H key value = (.error e, mid) ∧ mid.FirstUnknown key d) ∨
        ∃ mid, v.insertAll H pairs = (.ok (), mid) ∧ mid.FirstUnknown 0 d) := by
  rcases h with stopped | ⟨inserted, lost⟩
  · obtain ⟨before, key, value, rest, mid, rfl, hbefore, herror⟩ := insertAll_eq_error stopped
    obtain ⟨hv, hk⟩ := hp (key, value) (by simp)
    have height := insertAll_height H v before
    rw [hbefore] at height
    rw [← height] at hk
    obtain ⟨d, rfl, unknown⟩ :=
      exists_of_proveLookup_eq_error hk (proveLookup_of_proveInsert_eq_error hv hk herror)
    exact ⟨d, rfl, .inl ⟨before, key, value, rest, mid, rfl, hbefore, herror, unknown⟩⟩
  · have zero : (0 : Element f).val < a.width ^ (v.insertAll H pairs).2.trie.height :=
      Nat.pow_pos a.width_pos
    obtain ⟨d, rfl, unknown⟩ := exists_of_proveLookup_eq_error zero lost
    exact ⟨d, rfl, .inr ⟨_, Prod.ext inserted rfl, unknown⟩⟩

/-- A fold that fails leaves the trie where it was, and says why. A pair that cannot be inserted is
refused before anything is done, whatever the caches hold. Otherwise some preimage was not known,
for the first pair that does not go in, or, if all do, for the key zero of the padding. What was in
the caches then still is, unless a node that was registered has displaced another. -/
theorem fold_fails (H : Hasher f) (v : View f a) (pairs : List (Element f × Element f))
    (batch : Nat) :
    (∀ before key value rest, pairs = before ++ (key, value) :: rest →
      (∀ p ∈ before, Insertable (a.width ^ v.trie.height) p) →
      ¬ Insertable (a.width ^ v.trie.height) (key, value) →
        v.fold H pairs batch =
          (.error (if value = 0 then .reservedValue else .keyOutOfRange key v.trie.height), v)) ∧
    ∀ e after, v.fold H pairs batch = (.error e, after) →
      after.trie = v.trie ∧
      ((∀ p ∈ pairs, Insertable (a.width ^ v.trie.height) p) →
        (∃ d, e = .missingPreimage d ∧
          ((∃ before key value rest mid, pairs = before ++ (key, value) :: rest ∧
              v.insertAll H before = (.ok (), mid) ∧
              mid.proveInsert H key value = (.error e, mid) ∧ mid.FirstUnknown key d) ∨
            ∃ mid, v.insertAll H pairs = (.ok (), mid) ∧ mid.FirstUnknown 0 d)) ∧
        after.caches = v.caches.registerAll H (v.written H pairs) ∧
        (∀ b (node : Node f b.width) d, v.caches.digests.find? b node = some d →
          after.caches.digests.find? b node = some d) ∧
        (v.caches.Displaces H (v.written H pairs) ∨
          ∀ b d (node : Node f b.width), v.caches.preimages.find? b d = some node →
            after.caches.preimages.find? b d = some node)) := by
  refine ⟨?_, fun e after h => ?_⟩
  · rintro before key value rest rfl hbefore hpair
    exact fold_eq_refusal batch hbefore hpair
  · by_cases hp : ∀ p ∈ pairs, Insertable (a.width ^ v.trie.height) p
    · obtain ⟨rfl, why⟩ := fold_eq_error hp h
      have written := (insertAll_written H v pairs).2
      refine ⟨rfl, fun _ => ⟨exists_firstUnknown hp why, written, ?_, ?_⟩⟩
      · intro b node d hd
        rw [written]
        exact Caches.find?_digests_registerAll hd
      · rw [written]
        exact Caches.displaces_or_keeps ..
    · obtain ⟨e', hrefused⟩ := fold_of_not_insertable (H := H) batch hp
      obtain ⟨-, rfl⟩ := Prod.mk.inj (h.symm.trans hrefused)
      exact ⟨rfl, fun hp' => absurd hp' hp⟩

/-- Nothing goes into a trie whose root is not known, and a pair without a value is refused before
that is found. -/
theorem fold_fails_sapling :
    View.fold weigh ⟨Forest.sapling 1, .empty⟩ [(1, 1), (1, 0)] 1 =
        (.error .reservedValue, ⟨Forest.sapling 1, .empty⟩) ∧
      ∃ e after d, View.fold weigh ⟨Forest.sapling 1, .empty⟩ [(1, 1)] 1 = (.error e, after) ∧
        after.trie = Forest.sapling 1 ∧ e = .missingPreimage d := by
  have fits : ∀ p ∈ [((1 : Element .pallasBase), (1 : Element .pallasBase))],
      Insertable (Arity.binary.width ^ (Forest.sapling 1).height) p := by
    intro p hp
    obtain rfl := List.mem_singleton.mp hp
    exact ⟨by decide, by decide⟩
  obtain ⟨refused, -⟩ := fold_fails weigh ⟨Forest.sapling 1, .empty⟩ [(1, 1), (1, 0)] 1
  refine ⟨refused [(1, 1)] 1 0 [] rfl fits fun h => h.1 rfl, ?_⟩
  rcases hfold : View.fold weigh ⟨Forest.sapling 1, .empty⟩ [(1, 1)] 1 with ⟨e | steps, after⟩
  · obtain ⟨-, fails⟩ := fold_fails weigh ⟨Forest.sapling 1, .empty⟩ [(1, 1)] 1
    obtain ⟨htrie, why⟩ := fails e after hfold
    obtain ⟨⟨d, rfl, -⟩, -⟩ := why fits
    exact ⟨_, _, d, rfl, htrie, rfl⟩
  · obtain ⟨-, inserted, -⟩ := exists_fold_eq_ok.mp ⟨steps, hfold⟩
    rcases proveInsert_cases (H := weigh) (v := ⟨Forest.sapling 1, .empty⟩) 1 1 with
      ⟨e, he⟩ | ⟨r, v₁, hok, -⟩
    · simp [insertAll, View.insert, he, Except.map] at inserted
    · have path := (proveInsert_eq_ok hok).2.descend
      change PreimageCache.descend _ _ (Arity.binary.digits (0 + 1) _) = _ at path
      rw [Arity.digits_succ, PreimageCache.descend] at path
      simp [Caches.empty] at path

end View

end PoseidonTrie
