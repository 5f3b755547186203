import PoseidonTrie.Proofs.Trie.Contents

namespace PoseidonTrie

variable {f : PrimeField} {a : Arity} {H : Hasher f} {key value : Element f}
  {pairs : List (Element f × Element f)}

/-- A pair that can be inserted, as far as the pair and the capacity tell. -/
def Insertable (capacity : Nat) (pair : Element f × Element f) : Prop :=
  pair.2 ≠ 0 ∧ pair.1.val < capacity

namespace View

variable {v : View f a} {m : Contents f}

/-- Inserts pairs one after another, up to the first that is refused. -/
def insertAll (H : Hasher f) (v : View f a) :
    (pairs : List (Element f × Element f)) → Except (TrieError f) Unit × View f a
  | [] => (.ok (), v)
  | (key, value) :: pairs =>
    match v.insert H key value with
    | (.error e, v) => (.error e, v)
    | (.ok _, v) => v.insertAll H pairs

/-- An insertion is refused and changes nothing, or it registers nodes and keeps the height. -/
theorem proveInsert_cases (key value : Element f) :
    (∃ e, v.proveInsert H key value = (.error e, v)) ∨
      ∃ r v', v.proveInsert H key value = (.ok r, v') ∧ v'.trie.height = v.trie.height ∧
        (v.caches.digests.Correct H → v.caches.Grows H v'.caches) := by
  unfold proveInsert
  split
  · exact Or.inl ⟨_, rfl⟩
  · split
    · exact Or.inl ⟨_, rfl⟩
    · unfold insertAt
      split
      · exact Or.inl ⟨_, rfl⟩
      · simp only
        split
        · exact Or.inr ⟨_, _, rfl, rfl, fun _ => .refl⟩
        · refine Or.inr ⟨_, _, rfl, rfl, ?_⟩
          intro h
          rw [Caches.rebuild_eq h]
          exact Caches.grows_registerAll _

theorem proveInsert_frame (h : v.caches.digests.Correct H) (key value : Element f) :
    v.caches.Grows H (v.proveInsert H key value).2.caches ∧
      (v.proveInsert H key value).2.trie.height = v.trie.height := by
  rcases proveInsert_cases (H := H) (v := v) key value with ⟨e, he⟩ | ⟨r, v', hok, height, grows⟩
  · rw [he]
    exact ⟨.refl, rfl⟩
  · rw [hok]
    exact ⟨grows h, height⟩

theorem insert_frame (h : v.caches.digests.Correct H) (key value : Element f) :
    v.caches.Grows H (v.insert H key value).2.caches ∧
      (v.insert H key value).2.trie.height = v.trie.height :=
  proveInsert_frame h key value

theorem proveInsert_error {e : TrieError f} {v' : View f a}
    (h : v.proveInsert H key value = (.error e, v')) : v' = v := by
  rcases proveInsert_cases (H := H) (v := v) key value with ⟨e', he⟩ | ⟨r, v'', hok, _⟩
  · rw [he] at h
    exact (Prod.mk.inj h).2.symm
  · rw [hok] at h
    cases h

theorem proveInsert_of_not_insertable
    (h : ¬ Insertable (a.width ^ v.trie.height) (key, value)) :
    ∃ e, v.proveInsert H key value = (.error e, v) := by
  unfold proveInsert
  by_cases hv : value = 0
  · exact ⟨_, if_pos hv⟩
  · have hk : ¬ key.val < a.width ^ v.trie.height := fun hk => h ⟨hv, hk⟩
    rw [if_neg hv, Trie.path, Arity.path_eq v.trie.height_le, if_neg hk]
    exact ⟨_, rfl⟩

theorem insertAll_frame (h : v.caches.Faithful H) (pairs : List (Element f × Element f)) :
    v.caches.Grows H (v.insertAll H pairs).2.caches ∧
      (v.insertAll H pairs).2.trie.height = v.trie.height := by
  induction pairs generalizing v with
  | nil => exact ⟨.refl, rfl⟩
  | cons pair pairs ih =>
    obtain ⟨key, value⟩ := pair
    have step := proveInsert_frame h.correct key value
    cases hp : v.proveInsert H key value with
    | mk r v' =>
      rw [hp] at step
      cases r with
      | error e =>
        simp only [insertAll, View.insert, hp, Except.map]
        exact step
      | ok r =>
        have rest := ih (step.1.faithful h)
        simp only [insertAll, View.insert, hp, Except.map]
        exact ⟨step.1.trans rest.1, rest.2.trans step.2⟩

theorem insertAll_cons {changed : Bool} (h : (v.insert H key value).1 = .ok changed) :
    v.insertAll H ((key, value) :: pairs) = (v.insert H key value).2.insertAll H pairs := by
  have first : v.insert H key value = ((v.insert H key value).1, (v.insert H key value).2) := rfl
  rw [h] at first
  rw [insertAll, first]

/-- Insertable pairs go in one after another, and the newest value of each key counts. -/
theorem Holds.insertAll {history : List (Element f × Element f)}
    (hv : v.Holds H (contentsOf history)) (hf : v.caches.Faithful H)
    (hp : ∀ p ∈ pairs, Insertable (a.width ^ v.trie.height) p)
    (hc : ¬ (v.insertAll H pairs).2.caches.Collides H a) :
    (v.insertAll H pairs).1 = .ok () ∧
      (v.insertAll H pairs).2.Holds H (contentsOf (pairs.reverse ++ history)) := by
  induction pairs generalizing v history with
  | nil => exact ⟨rfl, hv⟩
  | cons pair pairs ih =>
    obtain ⟨key, value⟩ := pair
    have hall := (insertAll_frame hf ((key, value) :: pairs)).1
    have hc₀ : ¬ v.caches.Collides H a := fun h => hc (hall.collides hf h)
    have hfits := hp (key, value) (List.mem_cons_self ..)
    obtain ⟨hok, hnext⟩ := hv.insert hf hc₀ hfits.1 hfits.2
    obtain ⟨grows, height⟩ := insert_frame hf.correct key value
    rw [← contentsOf_cons] at hnext
    rw [insertAll_cons hok] at hc ⊢
    have hp' : ∀ p ∈ pairs, Insertable (a.width ^ (v.insert H key value).2.trie.height) p := by
      rw [height]
      exact fun p hmem => hp p (List.mem_cons_of_mem _ hmem)
    have := ih hnext (grows.faithful hf) hp' hc
    simpa using this

end View

end PoseidonTrie
