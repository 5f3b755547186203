import PoseidonTrie.Proofs.Forest.Basic

/-! Tries are persistent maps: whatever happens to the caches, every root ever held keeps its
map, until two registered nodes of its arity collide. -/
namespace PoseidonTrie

variable {f : PrimeField} {a : Arity} {H : Hasher f}

namespace View

variable {v : View f a} {m : Contents f} {history : List (Element f × Element f)}
  {pairs : List (Element f × Element f)}

theorem Holds.mono {c' : Caches f} (hv : v.Holds H m) (hf : v.caches.Faithful H)
    (hg : v.caches.Grows H c') : View.Holds H ⟨v.trie, c'⟩ m :=
  ⟨hv.root, hv.tree.mono hf hg, hv.fits⟩

/-- The caches answer alike for two tries at one root, so their maps are the same. -/
theorem Holds.same_contents {t t' : Trie f a} {c : Caches f} {m' : Contents f} {key : Element f}
    (hv : View.Holds H ⟨t, c⟩ m) (hv' : View.Holds H ⟨t', c⟩ m') (hheight : t.height = t'.height)
    (hroot : t.root = t'.root) (hf : c.Faithful H) (hc : ¬ c.Collides H a)
    (hk : key.val < a.width ^ t.height) : m key = m' key := by
  have read := hv.lookup hf hc hk
  have read' := hv'.lookup hf hc (hheight ▸ hk)
  have same : View.lookup ⟨t, c⟩ key = View.lookup ⟨t', c⟩ key := by
    simp only [View.lookup, Trie.path, hheight, hroot]
  rw [read, read'] at same
  exact Except.ok.inj same

theorem passes_cons {key value : Element f} {changed : Bool}
    (h : (v.insert H key value).1 = .ok changed) :
    v.passes H history ((key, value) :: pairs) =
      ((v.insert H key value).2.trie, (key, value) :: history) ::
        (v.insert H key value).2.passes H ((key, value) :: history) pairs := by
  have first : v.insert H key value = ((v.insert H key value).1, (v.insert H key value).2) := rfl
  rw [h] at first
  rw [passes, first]

theorem Holds.passes (hv : v.Holds H (contentsOf history)) (hf : v.caches.Faithful H)
    (hp : ∀ p ∈ pairs, Insertable (a.width ^ v.trie.height) p)
    (hc : ¬ (v.insertAll H pairs).2.caches.Collides H a) :
    ∀ e ∈ v.passes H history pairs,
      View.Holds H ⟨e.1, (v.insertAll H pairs).2.caches⟩ (contentsOf e.2) := by
  induction pairs generalizing v history with
  | nil => simp [View.passes]
  | cons pair pairs ih =>
    obtain ⟨key, value⟩ := pair
    intro e he
    have hall := (insertAll_frame hf ((key, value) :: pairs)).1
    have hc₀ : ¬ v.caches.Collides H a := fun h => hc (hall.collides hf h)
    have hfits := hp (key, value) (List.mem_cons_self ..)
    obtain ⟨hok, hnext⟩ := hv.insert hf hc₀ hfits.1 hfits.2
    obtain ⟨grows, height⟩ := insert_frame hf.correct key value
    have hf' := grows.faithful hf
    rw [← contentsOf_cons] at hnext
    rw [insertAll_cons hok] at hc ⊢
    rw [passes_cons hok] at he
    rcases List.mem_cons.mp he with rfl | he
    · exact hnext.mono hf' (insertAll_frame hf' pairs).1
    · have hp' : ∀ p ∈ pairs, Insertable (a.width ^ (v.insert H key value).2.trie.height) p := by
        rw [height]
        exact fun p hmem => hp p (List.mem_cons_of_mem _ hmem)
      exact ih hnext hf' hp' hc e he

end View

/-- A creation either yields an empty trie of some height or is refused and registers nothing. -/
theorem Trie.create_cases (H : Hasher f) (a : Arity) (c : Caches f) (extent : Extent) :
    (∃ (height : Nat) (pos : 0 < height) (le : height ≤ fullHeight f a),
      Trie.create H c extent =
        (.ok (Trie.empty H c height pos le).1, (Trie.empty H c height pos le).2)) ∨
      ∃ e, Trie.create (a := a) H c extent = (.error e, c) := by
  have sized : ∀ n, (∃ (pos : 0 < n) (le : n ≤ fullHeight f a),
      Trie.withHeight H c n = (.ok (Trie.empty H c n pos le).1, (Trie.empty H c n pos le).2)) ∨
        ∃ e, Trie.withHeight (a := a) H c n = (.error e, c) := by
    intro n
    by_cases h : 0 < n ∧ n ≤ fullHeight f a
    · exact Or.inl ⟨h.1, h.2, dif_pos h⟩
    · exact Or.inr ⟨_, dif_neg h⟩
  cases extent with
  | full => exact Or.inl ⟨_, fullHeight_pos f a, Nat.le_refl _, rfl⟩
  | height n => exact (sized n).imp_left fun h => ⟨n, h⟩
  | capacity size => exact (sized _).imp_left fun h => ⟨_, h⟩

/-- A new trie commits to no leaves, whatever the caches hold, and one node is hashed for each of
its levels. -/
theorem Trie.create_ok {c c' : Caches f} {extent : Extent} {t : Trie f a}
    (hc : c.digests.Correct H) (h : Trie.create H c extent = (.ok t, c')) :
    t.root = commit H a t.height (noLeaves f) ∧
      c' = c.registerAll H (emptyNodes H a t.height) := by
  rcases Trie.create_cases H a c extent with ⟨height, pos, le, hok⟩ | ⟨e, he⟩
  · rw [hok] at h
    obtain ⟨ht, rfl⟩ := Prod.mk.inj h
    cases ht
    rw [Trie.empty, Caches.registerEmpty_eq hc]
    exact ⟨rfl, rfl⟩
  · rw [he] at h
    cases h

theorem Trie.create_holds {c c' : Caches f} {extent : Extent} {t : Trie f a}
    (hf : c.Faithful H) (h : Trie.create H c extent = (.ok t, c')) :
    c.Grows H c' ∧ View.Holds H ⟨t, c'⟩ (fun _ => none) := by
  obtain ⟨hroot, rfl⟩ := Trie.create_ok hf.correct h
  refine ⟨Caches.grows_registerAll _, ?_, ?_, Contents.fits_none⟩
  · rwa [Contents.leaves_none]
  · rw [Contents.leaves_none]
    apply Caches.hasTree_noLeaves
    intro i hi
    exact (Caches.has_registerAll hf.correct).mpr (Or.inl (mem_emptyNodes hi))

theorem Trie.create_error {c c' : Caches f} {extent : Extent} {e : TrieError f}
    (h : Trie.create (a := a) H c extent = (.error e, c')) : c' = c := by
  rcases Trie.create_cases H a c extent with ⟨height, pos, le, hok⟩ | ⟨e', he⟩
  · rw [hok] at h
    cases h
  · rw [he] at h
    exact (Prod.mk.inj h).2.symm

namespace Member

variable {m : Member f} {c : Caches f} {pairs : List (Element f × Element f)} {α : Type}
  {r : Except (TrieError f) α × View f m.arity} {key value : Element f}

/-- What a member stands for, in some caches: the map its history tells, unless there is a
collision. -/
def Sound (H : Hasher f) (m : Member f) (c : Caches f) : Prop :=
  c.Collides H m.arity ∨ (m.view c).Holds H (contentsOf m.history)

theorem Sound.mono {c' : Caches f} (hm : m.Sound H c) (hf : c.Faithful H) (hg : c.Grows H c') :
    m.Sound H c' := by
  rcases hm with hc | hv
  · exact Or.inl (hg.collides hf hc)
  · exact Or.inr (hv.mono hf hg)

@[simp] theorem arity_after : (m.after pairs r).arity = m.arity := by
  obtain ⟨_ | _, _⟩ := r <;> rfl

theorem sound_after_ok {x : α} (hr : r.1 = .ok x)
    (hv : r.2.Holds H (contentsOf (pairs.reverse ++ m.history))) :
    (m.after pairs r).Sound H r.2.caches := by
  obtain ⟨_ | _, _⟩ := r
  · cases hr
  · exact Or.inr hv

theorem sound_after_error {e : TrieError f} (hr : r = (.error e, m.view c))
    (hm : m.Sound H c) : (m.after pairs r).Sound H r.2.caches := by
  subst hr
  exact hm

/-- An operation that grows the caches keeps its member sound if it does so when the member holds
its map and nothing collides afterwards. -/
theorem Sound.after (hm : m.Sound H c) (hf : c.Faithful H) (hg : c.Grows H r.2.caches)
    (h : (m.view c).Holds H (contentsOf m.history) → ¬ r.2.caches.Collides H m.arity →
      (m.after pairs r).Sound H r.2.caches) :
    (m.after pairs r).Sound H r.2.caches := by
  by_cases hc : r.2.caches.Collides H m.arity
  · exact Or.inl (by rwa [arity_after])
  · rcases hm with hc' | hv
    · exact (hc (hg.collides hf hc')).elim
    · exact h hv hc

theorem Sound.proveInsert (hm : m.Sound H c) (hf : c.Faithful H) (key value : Element f) :
    (m.after [(key, value)] ((m.view c).proveInsert H key value)).Sound H
      ((m.view c).proveInsert H key value).2.caches := by
  have frame := (View.proveInsert_frame (v := m.view c) hf.correct key value).1
  apply hm.after hf frame
  intro hv hc
  have hc₀ : ¬ c.Collides H m.arity := fun h => hc (frame.collides hf h)
  by_cases hp : Insertable (m.arity.width ^ m.trie.height) (key, value)
  · obtain ⟨_, he, _, _⟩ := hv.proveInsert hf hc₀ hp.1 hp.2
    have held := (hv.insert hf hc₀ hp.1 hp.2).2
    rw [← contentsOf_cons] at held
    exact sound_after_ok (Prod.ext_iff.mp he).1 held
  · obtain ⟨e, he⟩ := View.proveInsert_of_not_insertable (v := m.view c) (H := H) hp
    exact sound_after_error he hm

theorem Sound.insert (hm : m.Sound H c) (hf : c.Faithful H) (key value : Element f) :
    (m.after [(key, value)] ((m.view c).insert H key value)).Sound H
      ((m.view c).insert H key value).2.caches := by
  have proved := hm.proveInsert hf key value
  rw [View.insert]
  revert proved
  generalize (m.view c).proveInsert H key value = r
  obtain ⟨_ | _, _⟩ := r <;> exact id

theorem Sound.fold (hm : m.Sound H c) (hf : c.Faithful H) (batch : Nat) :
    (m.after pairs ((m.view c).fold H pairs batch)).Sound H
      ((m.view c).fold H pairs batch).2.caches := by
  have frame := (View.fold_frame (v := m.view c) hf pairs batch).1
  apply hm.after hf frame
  intro hv hc
  by_cases hp : ∀ p ∈ pairs, Insertable (m.arity.width ^ m.trie.height) p
  · obtain ⟨_, he⟩ := hv.fold hf hp hc
    have hc' : ¬ ((m.view c).insertAll H pairs).2.caches.Collides H m.arity := by
      rwa [he] at hc
    have held := (hv.insertAll hf hp hc').2
    rw [he]
    exact sound_after_ok rfl held
  · obtain ⟨e, he⟩ := View.fold_of_not_insertable (v := m.view c) (H := H) batch hp
    exact sound_after_error he hm

theorem Sound.same_contents {e : Member f} (hm : m.Sound H c) (he : e.Sound H c)
    (hsame : m.SameRoot e) (hf : c.Faithful H) (hc : ¬ c.Collides H m.arity)
    (hk : key.val < m.arity.width ^ m.trie.height) :
    contentsOf m.history key = contentsOf e.history key := by
  obtain ⟨a, t, history⟩ := m
  obtain ⟨a', t', history'⟩ := e
  obtain ⟨harity, hheight, hroot⟩ := hsame
  simp only at harity hheight hroot
  subst harity
  have hv := hm.resolve_left hc
  have hv' := he.resolve_left hc
  exact hv.same_contents hv' hheight.symm hroot.symm hf hc hk

end Member

namespace Forest

/-- The caches hold registrations alone, and every trie ever held still has its map in them, unless
nodes of its arity collide. -/
structure Sound (H : Hasher f) (s : Forest f) : Prop where
  faithful : s.caches.Faithful H
  live : ∀ m ∈ s.live, m ∈ s.held
  held : ∀ m ∈ s.held, m.Sound H s.caches

variable {s : Forest f} {m : Member f} {i : Nat} {c : Caches f} {passed : List (Member f)}

theorem sound_empty : (empty : Forest f).Sound H := by
  refine ⟨Caches.faithful_empty, ?_, ?_⟩
  · intro m h
    cases h
  · intro m h
    cases h

theorem Sound.plant (hs : s.Sound H) (hg : s.caches.Grows H c)
    (hm : (m.view c).Holds H (contentsOf m.history)) : (s.plant m c).Sound H := by
  refine ⟨hg.faithful hs.faithful, ?_, ?_⟩
  · intro e he
    rcases List.mem_append.mp he with he | he
    · exact List.mem_append_left _ (hs.live e he)
    · exact List.mem_append_right _ he
  · intro e he
    rcases List.mem_append.mp he with he | he
    · exact (hs.held e he).mono hs.faithful hg
    · obtain rfl := List.mem_singleton.mp he
      exact Or.inr hm

/-- An operation is sound if the trie it leaves, and those passed through, hold their maps. -/
theorem Sound.settle (hs : s.Sound H) (hg : s.caches.Grows H c)
    (hp : ∀ e ∈ passed, e.Sound H c) (hm : m.Sound H c) :
    (s.settle i m c passed).Sound H := by
  refine ⟨hg.faithful hs.faithful, ?_, ?_⟩
  · intro e he
    rcases List.mem_or_eq_of_mem_set he with he | rfl
    · exact List.mem_append_left _ (List.mem_append_left _ (hs.live e he))
    · exact List.mem_append_right _ (List.mem_singleton_self _)
  · intro e he
    rcases List.mem_append.mp he with he | he
    · rcases List.mem_append.mp he with he | he
      · exact (hs.held e he).mono hs.faithful hg
      · exact hp e he
    · obtain rfl := List.mem_singleton.mp he
      exact hm

theorem Sound.reopen {root : Element f} (hs : s.Sound H) :
    (s.act H i m (.reopen root)).Sound H := by
  rw [act]
  cases hfind : s.held.find? fun e => Member.SameRoot ⟨m.arity, m.trie.withRoot root, []⟩ e with
  | none => exact hs
  | some e =>
    have held := List.mem_of_find?_eq_some hfind
    have same := List.find?_some hfind
    obtain ⟨a, t, history⟩ := e
    obtain ⟨harity, hheight, hroot⟩ := of_decide_eq_true same
    simp only at harity hheight hroot
    subst harity
    apply hs.settle .refl (by simp)
    rcases hs.held _ held with hc | hv
    · exact Or.inl hc
    · refine Or.inr ⟨?_, ?_, ?_⟩
      · exact hroot ▸ hheight ▸ hv.root
      · exact hheight ▸ hv.tree
      · exact hheight ▸ hv.fits

theorem Sound.passed_fold (hs : s.Sound H) (hm : m.Sound H s.caches)
    (pairs : List (Element f × Element f)) (batch : Nat) :
    ∀ e ∈ s.passed H m pairs, e.Sound H ((m.view s.caches).fold H pairs batch).2.caches := by
  intro e he
  rw [Forest.passed] at he
  split at he
  · cases he
  · rename_i hok
    have hp := (View.forM_admits_eq_ok pairs).mp hok
    obtain ⟨⟨t, history⟩, hmem, rfl⟩ := List.mem_map.mp he
    have frame := (View.fold_frame (v := m.view s.caches) hs.faithful pairs batch).1
    by_cases hc : ((m.view s.caches).fold H pairs batch).2.caches.Collides H m.arity
    · exact Or.inl hc
    · rcases hm with hc' | hv
      · exact (hc (frame.collides hs.faithful hc')).elim
      · obtain ⟨_, hfold⟩ := hv.fold hs.faithful hp hc
        rw [hfold] at hc ⊢
        exact Or.inr (hv.passes hs.faithful hp hc _ hmem)

theorem sound_act (hs : s.Sound H) (hm : m ∈ s.live) (act : Act f) :
    (s.act H i m act).Sound H := by
  have hm := hs.held m (hs.live m hm)
  cases act with
  | insert key value =>
    have frame := View.proveInsert_frame (v := m.view s.caches) hs.faithful.correct key value
    exact hs.settle frame.1 (by simp) (hm.insert hs.faithful key value)
  | proveInsert key value =>
    have frame := View.proveInsert_frame (v := m.view s.caches) hs.faithful.correct key value
    exact hs.settle frame.1 (by simp) (hm.proveInsert hs.faithful key value)
  | fold pairs batch =>
    have frame := View.fold_frame (v := m.view s.caches) hs.faithful pairs batch
    exact hs.settle frame.1 (hs.passed_fold hm pairs batch) (hm.fold hs.faithful batch)
  | drop => exact ⟨hs.faithful, fun m hm => hs.live m (List.mem_of_mem_eraseIdx hm), hs.held⟩
  | reopen root => exact hs.reopen

theorem sound_create (hs : s.Sound H) (width : Nat) (extent : Extent) :
    (s.step H (.create width extent)).Sound H := by
  rw [step, AnyTrie.create]
  cases Arity.require width with
  | error e => exact hs
  | ok a =>
    cases hcreate : Trie.create (a := a) H s.caches extent with
    | mk r c =>
      simp only [hcreate]
      cases r with
      | error e =>
        obtain rfl := Trie.create_error hcreate
        exact hs
      | ok t =>
        obtain ⟨hg, hv⟩ := Trie.create_holds hs.faithful hcreate
        exact hs.plant (m := ⟨a, t, []⟩) hg hv

theorem sound_step (hs : s.Sound H) (op : Op f) : (s.step H op).Sound H := by
  cases op with
  | create width extent => exact sound_create hs width extent
  | act i act =>
    rw [step]
    cases hm : s.live[i]? with
    | none => exact hs
    | some m => exact sound_act hs (List.mem_of_getElem? hm) act

theorem sound_steps (hs : s.Sound H) (ops : List (Op f)) : (ops.foldl (step H) s).Sound H := by
  induction ops generalizing s with
  | nil => exact hs
  | cons op ops ih => exact ih (sound_step hs op)

/-- Every forest that operations reach from empty caches is sound. -/
theorem sound_run (H : Hasher f) (ops : List (Op f)) : (run H ops).Sound H :=
  sound_steps sound_empty ops

/-- At every point of a run a live trie is the finite map of its history, and two tries ever at one
root have one map. The one alternative is a collision among the nodes registered. -/
theorem lookup_run (H : Hasher f) (ops : List (Op f)) (m : Member f)
    (hm : m ∈ (run H ops).live) :
    (run H ops).caches.Collides H m.arity ∨
      (∀ key : Element f, key.val < m.arity.width ^ m.trie.height →
        (m.view (run H ops).caches).lookup key = .ok (contentsOf m.history key)) ∧
      ∀ e ∈ (run H ops).held, m.SameRoot e →
        ∀ key : Element f, key.val < m.arity.width ^ m.trie.height →
          contentsOf m.history key = contentsOf e.history key := by
  have hs := sound_run H ops
  by_cases hc : (run H ops).caches.Collides H m.arity
  · exact Or.inl hc
  · have sound := hs.held m (hs.live m hm)
    refine Or.inr ⟨?_, ?_⟩
    · intro key hk
      exact (sound.resolve_left hc).lookup hs.faithful hc hk
    · intro e he hsame key hk
      exact sound.same_contents (hs.held e he) hsame hs.faithful hc hk

/-- One leaf is put into a binary trie of height one. -/
def oneLeaf : List (Op .pallasBase) :=
  [.create 2 (.height 1), .act 0 (.insert 1 1)]

/-- The nodes of the trie with the leaf and without it. -/
def oneLeafNodes : List (Node .pallasBase Arity.binary.width) :=
  [(Node.uniform _ 0).put ⟨1, Nat.one_lt_two⟩ 1, .uniform _ 0]

def sapling (root : Element .pallasBase) : Trie .pallasBase .binary :=
  ⟨root, 1, 0, Nat.one_pos, fullHeight_pos _ _⟩

theorem create_sapling :
    Trie.create weigh .empty (.height 1) =
      (.ok (sapling 0), Caches.empty.registerAll weigh oneLeafNodes.tail) := by
  have height : 0 < 1 ∧ 1 ≤ fullHeight .pallasBase .binary := ⟨Nat.one_pos, fullHeight_pos _ _⟩
  simp only [Trie.create, Trie.withHeight, dif_pos height, Trie.empty]
  rw [Caches.registerEmpty_eq DigestCache.correct_empty]
  rfl

theorem insert_sapling :
    View.insert weigh ⟨sapling 0, Caches.empty.registerAll weigh oneLeafNodes.tail⟩ 1 1 =
      (.ok true, ⟨sapling 1, Caches.empty.registerAll weigh oneLeafNodes⟩) := by
  have hpath : (sapling 0).path 1 = .ok [⟨1, Nat.one_lt_two⟩] := by
    rw [Trie.path, Arity.path_of_lt (sapling 0).height_le (by decide)]
    rfl
  have nonzero : (1 : Element .pallasBase) ≠ 0 := by decide
  have correct := Caches.correct_registerAll (H := weigh) (c := (Caches.empty : Caches .pallasBase))
    DigestCache.correct_empty oneLeafNodes.tail
  have hfind : (Caches.empty.registerAll weigh oneLeafNodes.tail).preimages.find? .binary
      (sapling 0).root = some (.uniform _ 0) := by
    rw [oneLeafNodes, List.tail_cons, Caches.registerAll, List.foldr_cons,
      Caches.register_eq DigestCache.correct_empty]
    exact PreimageCache.find?_insert_self
  have absent : LookupProof.payloadAt (a := .binary)
      ⟨[.uniform _ (0 : Element .pallasBase)]⟩ [⟨1, Nat.one_lt_two⟩] ≠ 1 := by decide
  rw [View.insert, View.proveInsert, if_neg nonzero, hpath]
  simp only [View.insertAt, PreimageCache.descend, hfind, Except.map, if_neg absent,
    Caches.rebuild_eq correct]
  rfl

theorem run_oneLeaf :
    run weigh oneLeaf =
      ⟨Caches.empty.registerAll weigh oneLeafNodes,
        [⟨.binary, sapling 1, [(1, 1)]⟩],
        [⟨.binary, sapling 0, []⟩, ⟨.binary, sapling 1, [(1, 1)]⟩]⟩ := by
  have supported : Arity.require (f := .pallasBase) 2 = .ok .binary := rfl
  simp only [oneLeaf, run, List.foldl, step, empty, AnyTrie.create, supported, create_sapling]
  simp [Except.map, plant, act, settle, Member.view, insert_sapling, Member.after]

theorem not_collides_oneLeaf : ¬ (run weigh oneLeaf).caches.Collides weigh .binary := by
  rw [run_oneLeaf]
  exact Caches.not_collides_registerAll (by decide)

theorem lookup_run_oneLeaf :
    ∃ m ∈ (run weigh oneLeaf).live,
      (m.view (run weigh oneLeaf).caches).lookup 1 = .ok (some 1) := by
  have hm : (⟨.binary, sapling 1, [(1, 1)]⟩ : Member .pallasBase) ∈ (run weigh oneLeaf).live := by
    rw [run_oneLeaf]
    exact List.mem_singleton_self _
  have held := (lookup_run weigh oneLeaf _ hm).resolve_left not_collides_oneLeaf
  exact ⟨_, hm, held.1 1 (by decide)⟩

end Forest

end PoseidonTrie
