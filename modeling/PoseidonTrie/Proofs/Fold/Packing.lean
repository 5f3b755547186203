import PoseidonTrie.Fold.Run
import PoseidonTrie.Proofs.Trie.Sequence

namespace PoseidonTrie

variable {f : PrimeField} {a : Arity} {H : Hasher f}

theorem flatten_pieces {α : Type} (size : Nat) (xs : List α) : (pieces size xs).flatten = xs := by
  induction xs using pieces.induct size with
  | case1 => rw [pieces]; rfl
  | case2 x rest ih =>
    rw [pieces, List.flatten_cons, ih, List.cons_append, List.take_append_drop]

namespace View

variable {v : View f a} {pairs : List (Element f × Element f)} {size : Nat}
  {groups : List (List (Element f × Element f))}

theorem insertSlots_eq (pairs : List (Element f × Element f)) :
    (v.insertSlots H pairs).2 = (v.insertAll H pairs).2 ∧
      (v.insertSlots H pairs).1.map (fun _ => ()) = (v.insertAll H pairs).1 := by
  induction pairs generalizing v with
  | nil => exact ⟨rfl, rfl⟩
  | cons pair pairs ih =>
    obtain ⟨key, value⟩ := pair
    cases hp : v.proveInsert H key value with
    | mk r v' =>
      cases r with
      | error e => simp [insertSlots, insertAll, View.insert, hp, Except.map]
      | ok r =>
        obtain ⟨hview, hres⟩ := ih (v := v')
        simp only [insertSlots, insertAll, View.insert, hp, Except.map]
        refine ⟨hview, ?_⟩
        rw [← hres]
        cases (v'.insertSlots H pairs).1 <;> rfl

theorem insertAll_append (xs ys : List (Element f × Element f))
    (h : (v.insertAll H xs).1 = .ok ()) :
    v.insertAll H (xs ++ ys) = (v.insertAll H xs).2.insertAll H ys := by
  induction xs generalizing v with
  | nil => rfl
  | cons pair xs ih =>
    obtain ⟨key, value⟩ := pair
    rw [List.cons_append]
    cases hi : v.insert H key value with
    | mk r v' =>
      cases r with
      | error e => simp [insertAll, hi] at h
      | ok changed =>
        simp only [insertAll, hi] at h ⊢
        exact ih h

theorem packSteps_frame (h : v.caches.Faithful H) (size : Nat)
    (groups : List (List (Element f × Element f))) :
    v.caches.Grows H (v.packSteps H size groups).2.caches ∧
      (v.packSteps H size groups).2.trie.height = v.trie.height := by
  induction groups generalizing v with
  | nil => exact ⟨.refl, rfl⟩
  | cons pairs groups ih =>
    have step := insertAll_frame h pairs
    rw [← (insertSlots_eq pairs).1] at step
    rw [packSteps]
    split
    · rename_i hslots
      rw [hslots] at step
      exact step
    · rename_i hslots
      rw [hslots] at step
      split
      · exact step
      · have rest := ih (step.1.faithful h)
        exact ⟨step.1.trans rest.1, rest.2.trans step.2⟩

/-- The caches only grow once the first group is in. -/
theorem packSteps_grows (h : v.caches.Faithful H) (size : Nat)
    (pairs : List (Element f × Element f)) (groups : List (List (Element f × Element f))) :
    (v.insertAll H pairs).2.caches.Grows H
      (v.packSteps H size (pairs :: groups)).2.caches := by
  have first := (insertAll_frame h pairs).1.faithful h
  rw [← (insertSlots_eq pairs).1] at first ⊢
  rw [packSteps]
  split
  · rename_i hslots
    rw [hslots]
    exact .refl
  · rename_i hslots
    rw [hslots] at first ⊢
    split
    · exact .refl
    · exact (packSteps_frame first size groups).1

/-- The key zero always has a path, so padding succeeds on a trie that holds a map. -/
theorem Holds.padSlots {m : Contents f} (hv : v.Holds H m) (hf : v.caches.Faithful H)
    (hc : ¬ v.caches.Collides H a) (size : Nat) (slots : List (Slot f a.width)) :
    ∃ padded, v.padSlots size slots = .ok padded := by
  unfold View.padSlots
  split
  · have hz : (0 : Element f).val < a.width ^ v.trie.height := Nat.pow_pos a.width_pos
    rw [proveLookup, path_of_lt hz]
    change ∃ padded, Except.map _ (v.caches.preimages.descend v.trie.root _ >>= _) = _
    rw [hv.descend hf hc hz]
    exact ⟨_, rfl⟩
  · exact ⟨slots, rfl⟩

/-- Packing a trie that holds a map leaves what inserting the pairs one by one does. -/
theorem Holds.packSteps {history : List (Element f × Element f)}
    (hv : v.Holds H (contentsOf history)) (hf : v.caches.Faithful H)
    (hp : ∀ p ∈ groups.flatten, Insertable (a.width ^ v.trie.height) p)
    (hc : ¬ (v.packSteps H size groups).2.caches.Collides H a) :
    ∃ steps, v.packSteps H size groups = (.ok steps, (v.insertAll H groups.flatten).2) := by
  induction groups generalizing v history with
  | nil => exact ⟨[], rfl⟩
  | cons pairs groups ih =>
    obtain ⟨hview, hres⟩ := insertSlots_eq (H := H) (v := v) pairs
    have step := insertAll_frame hf pairs
    have hf' := step.1.faithful hf
    rw [List.flatten_cons] at hp ⊢
    have hgroup : ∀ p ∈ pairs, Insertable (a.width ^ v.trie.height) p :=
      fun p hmem => hp p (List.mem_append_left _ hmem)
    -- What collides after this group still does at the end.
    have hc' : ¬ (v.insertAll H pairs).2.caches.Collides H a :=
      fun h => hc ((packSteps_grows hf size pairs groups).collides hf' h)
    obtain ⟨hok, hnext⟩ := hv.insertAll hf hgroup hc'
    rw [insertAll_append pairs groups.flatten hok]
    rw [hok] at hres
    cases hslots : v.insertSlots H pairs with
    | mk r v' =>
      rw [hslots] at hview hres
      subst hview
      cases r with
      | error e => simp [Except.map] at hres
      | ok slots =>
        obtain ⟨padded, hpad⟩ := hnext.padSlots hf' hc' size slots
        simp only [View.packSteps, hslots, hpad] at hc ⊢
        have hrest : ∀ p ∈ groups.flatten,
            Insertable (a.width ^ (v.insertAll H pairs).2.trie.height) p := by
          rw [step.2]
          exact fun p hmem => hp p (List.mem_append_right _ hmem)
        obtain ⟨steps, hsteps⟩ := ih hnext hf' hrest hc
        rw [hsteps]
        exact ⟨_, rfl⟩

theorem admits_eq_ok (key value : Element f) :
    v.admits key value = .ok () ↔ Insertable (a.width ^ v.trie.height) (key, value) := by
  unfold admits Insertable
  by_cases hv : value = 0
  · simp [hv]
  · rw [if_neg hv, Trie.path, Arity.path_eq v.trie.height_le]
    by_cases hk : key.val < a.width ^ v.trie.height
    · simp [hk, hv, Except.map]
    · simp [hk, Except.map]

theorem forM_admits_eq_ok (pairs : List (Element f × Element f)) :
    (pairs.forM fun (key, value) => v.admits key value) = .ok () ↔
      ∀ p ∈ pairs, Insertable (a.width ^ v.trie.height) p := by
  induction pairs with
  | nil => simp [pure, Except.pure]
  | cons pair pairs ih =>
    obtain ⟨key, value⟩ := pair
    rw [List.forall_mem_cons, ← ih, ← admits_eq_ok]
    change (v.admits key value >>= fun _ => _) = _ ↔ _
    cases v.admits key value with
    | error e => simp [bind, Except.bind]
    | ok u => simp [bind, Except.bind]

theorem fold_of_not_insertable (batch : Nat)
    (h : ¬ ∀ p ∈ pairs, Insertable (a.width ^ v.trie.height) p) :
    ∃ e, v.fold H pairs batch = (.error e, v) := by
  rw [← forM_admits_eq_ok] at h
  unfold fold
  split
  · exact ⟨_, rfl⟩
  · rename_i hok
    exact (h hok).elim

theorem fold_frame (h : v.caches.Faithful H) (pairs : List (Element f × Element f)) (batch : Nat) :
    v.caches.Grows H (v.fold H pairs batch).2.caches ∧
      (v.fold H pairs batch).2.trie.height = v.trie.height := by
  unfold fold
  split
  · exact ⟨.refl, rfl⟩
  · have step := packSteps_frame h (max batch 1) (pieces (max batch 1 - 1) pairs)
    simp only
    split
    · rename_i hpack
      rw [hpack] at step
      exact step
    · rename_i hpack
      rw [hpack] at step
      exact step

theorem Holds.fold {history : List (Element f × Element f)} {batch : Nat}
    (hv : v.Holds H (contentsOf history)) (hf : v.caches.Faithful H)
    (hp : ∀ p ∈ pairs, Insertable (a.width ^ v.trie.height) p)
    (hc : ¬ (v.fold H pairs batch).2.caches.Collides H a) :
    ∃ steps, v.fold H pairs batch = (.ok steps, (v.insertAll H pairs).2) := by
  unfold View.fold at hc ⊢
  rw [(forM_admits_eq_ok pairs).mpr hp] at hc ⊢
  simp only at hc ⊢
  have hc' : ¬ (v.packSteps H (max batch 1) (pieces (max batch 1 - 1) pairs)).2.caches.Collides
      H a := by
    intro hcol
    apply hc
    split
    · rename_i hpack
      rwa [hpack] at hcol
    · rename_i hpack
      rwa [hpack] at hcol
  obtain ⟨steps, hpack⟩ := hv.packSteps hf (by rw [flatten_pieces]; exact hp) hc'
  rw [hpack, flatten_pieces]
  exact ⟨steps, rfl⟩

end View

end PoseidonTrie
