import PoseidonTrie.Proofs.Forest.Persistence
import PoseidonTrie.Proofs.Forest.Registrations

/-! No dangling parents. Between any two cache calls every entry is right, and a node is registered
only after what its children commit to, since a tree that resolves has all its nodes registered. -/
namespace PoseidonTrie

variable {f : PrimeField} {a b : Arity} {H : Hasher f} {height n : Nat}

namespace Caches

variable {c c' : Caches f} {d : Element f} {node : Node f a.width}

/-- Every entry is correct, and a registered preimage is also memoized. -/
structure Sound (H : Hasher f) (c : Caches f) : Prop where
  digests : c.digests.Correct H
  preimages : ∀ a d node, c.preimages.find? a d = some node → c.Has a node ∧ H a node = d

/-- Some preimage of the digest is registered. -/
def Knows (c : Caches f) (a : Arity) (d : Element f) : Prop :=
  ∃ node, c.preimages.find? a d = some node

/-- What a node refers to is registered, if it tops a tree of height two or more. The one
alternative is a collision among the nodes registered. -/
def Grounds (H : Hasher f) (c : Caches f) (r : Registration f) : Prop :=
  2 ≤ r.height → c.Collides H r.arity ∨ ∀ k, c.Knows r.arity (r.node.child k)

theorem Faithful.toSound (h : c.Faithful H) : c.Sound H :=
  ⟨h.correct, h.sound⟩

theorem Has.hash {other : Node f b.width} (h : c.Has b other) (node : Node f a.width) :
    Has { c with digests := (c.digests.hash H a node).2 } b other := by
  obtain ⟨d, hd⟩ := h
  exact ⟨d, DigestCache.find?_hash hd⟩

/-- The caches are sound also when a node is memoized and not yet registered. -/
theorem Sound.hash (h : c.Sound H) (node : Node f a.width) :
    Sound H { c with digests := (c.digests.hash H a node).2 } := by
  refine ⟨h.digests.hash, fun b d other hd => ?_⟩
  obtain ⟨has, digest⟩ := h.preimages b d other hd
  exact ⟨has.hash node, digest⟩

theorem Grounds.hash {r : Registration f} (h : c.Grounds H r) :
    Grounds H { c with digests := (c.digests.hash H r.arity r.node).2 } r := by
  intro high
  rcases h high with ⟨x, y, hne, hx, hy, same⟩ | known
  · exact .inl ⟨x, y, hne, hx.hash r.node, hy.hash r.node, same⟩
  · exact .inr known

theorem Knows.register (h : c.Knows b d) : (c.register H a node).2.Knows b d := by
  obtain ⟨other, hd⟩ := h
  by_cases same : a = b ∧ (c.register H a node).1 = d
  · obtain ⟨rfl, rfl⟩ := same
    exact ⟨node, PreimageCache.find?_insert_self⟩
  · exact ⟨other, (PreimageCache.find?_insert_of_ne (not_and_or.mp same)).trans hd⟩

theorem knows_register_self : (c.register H a node).2.Knows a (c.register H a node).1 :=
  ⟨node, PreimageCache.find?_insert_self⟩

theorem Knows.mono (h : c.Knows b d) (hg : c.Grows H c') : c'.Knows b d := by
  induction hg with
  | refl => exact h
  | register _ a node ih => exact ih.register

theorem grows_rebuild (value : Element f) (steps : List (Fin a.width × Node f a.width)) :
    c.Grows H (c.rebuild H value steps).2.2 := by
  rw [rebuild_caches]
  exact grows_registerAll _

theorem knows_rebuild {value : Element f} {steps : List (Fin a.width × Node f a.width)}
    (h : steps ≠ []) :
    (c.rebuild H value steps).2.2.Knows a (c.rebuild H value steps).1 := by
  cases steps with
  | nil => exact (h rfl).elim
  | cons step steps => exact knows_register_self

theorem HasTree.knows_children {leaves : Leaves f} (ht : c.HasTree H a height leaves)
    (hf : c.Faithful H) (hn : n < a.width ^ height) :
    ∀ node ∈ (nodesAbove H a height leaves n).dropLast, ∀ k, c.Knows a (node.child k) := by
  induction height generalizing leaves n with
  | zero => simp [nodesAbove]
  | succ height ih =>
    cases height with
    | zero => simp [nodesAbove]
    | succ height =>
      obtain ⟨top, -⟩ := digits_succ_of_lt hn
      intro node hnode k
      rw [nodesAbove, List.dropLast_cons_of_ne_nil (by simp [nodesAbove])] at hnode
      rcases List.mem_cons.mp hnode with rfl | hnode
      · rw [child_topNode, commit_succ]
        exact hf.complete a _ (ht.2 k).1
      · exact ih (ht.2 ⟨_, top⟩) (mod_lt_capacity n) node hnode k

end Caches

/-- The trie stands for the map of some history, unless nodes collide. -/
def Trie.Resolves (H : Hasher f) (t : Trie f a) (c : Caches f) : Prop :=
  ∃ history, Member.Sound H ⟨a, t, history⟩ c

/-- On the way to a key everything is registered that a node above the last refers to. -/
theorem Trie.Resolves.knows_children {t : Trie f a} {c : Caches f} {key : Element f}
    {nodes : List (Node f a.width)} (hr : t.Resolves H c) (hf : c.Faithful H)
    (hk : key.val < a.width ^ t.height)
    (hd : c.preimages.descend t.root (a.digits t.height key.val) = .ok nodes) :
    c.Collides H a ∨ ∀ node ∈ nodes.dropLast, ∀ k, c.Knows a (node.child k) := by
  obtain ⟨history, hm⟩ := hr
  by_cases hc : c.Collides H a
  · exact .inl hc
  · have hv := hm.resolve_left hc
    obtain rfl := Except.ok.inj ((hv.descend hf hc hk).symm.trans hd)
    exact .inr (hv.tree.knows_children hf hk)

theorem Trie.Resolves.proveInsert {t : Trie f a} {c : Caches f} (hr : t.Resolves H c)
    (hf : c.Faithful H) (key value : Element f) :
    (View.proveInsert H ⟨t, c⟩ key value).2.trie.Resolves H
      (View.proveInsert H ⟨t, c⟩ key value).2.caches := by
  obtain ⟨history, hm⟩ := hr
  have after := hm.proveInsert hf key value
  dsimp only [Member.view] at after
  revert after
  generalize View.proveInsert H ⟨t, c⟩ key value = r
  obtain ⟨_ | _, v⟩ := r <;> exact fun after => ⟨_, after⟩

namespace Work

variable {c : Caches f} {t : Trie f a} {α β : Type} {p : Work f α} {key value : Element f}

/-- Between any two calls the caches are sound, and what is registered is grounded. -/
def Clean (H : Hasher f) (c : Caches f) (p : Work f α) : Prop :=
  p.Throughout H (Caches.Sound H) (Caches.Grounds H) c

theorem clean_pure (hc : c.Sound H) (x : α) : (pure x : Work f α).Clean H c := hc

theorem clean_register {r : Registration f} (hf : c.Faithful H) (hg : c.Grounds H r) :
    (register r).Clean H c := by
  have registered : (c.register H r.arity r.node).2.Faithful H := hf.register
  exact ⟨hf.toSound, hf.toSound.hash r.node, hg.hash, registered.toSound⟩

theorem clean_registerEmpty {low : Nat} {below : Element f} (hf : c.Faithful H)
    (hb : low = 0 ∨ c.Knows a below) (n : Nat) : (registerEmpty a low below n).Clean H c := by
  induction n generalizing c low below with
  | zero => exact clean_pure hf.toSound _
  | succ n ih =>
    have grounds : c.Grounds H ⟨⟨a, .uniform a.width below⟩, low + 1⟩ := by
      intro (high : 2 ≤ low + 1)
      have known := hb.resolve_left (by omega)
      exact .inr fun k => by rwa [Node.child_uniform]
    exact (clean_register hf grounds).bind (ih hf.register (.inr Caches.knows_register_self))

theorem clean_create (hf : c.Faithful H) (width : Nat) (extent : Extent) :
    (create width extent).Clean H c := by
  have sized (a : Arity) (height : Nat) : (withHeight (f := f) a height).Clean H c := by
    unfold withHeight
    split
    · rename_i fits
      obtain ⟨pos, le⟩ := fits
      exact ((clean_registerEmpty hf (.inl rfl) height).map _).map _
    · exact clean_pure hf.toSound _
  unfold create
  cases Arity.require (f := f) width with
  | error e => exact clean_pure hf.toSound _
  | ok a =>
    have made : (createTrie (f := f) a extent).Clean H c := by
      cases extent <;> exact sized a _
    exact made.map _

/-- Nodes are rebuilt over what is registered, if the nodes they replace stood on it. -/
theorem clean_rebuild (hf : c.Faithful H) {steps : List (Fin a.width × Node f a.width)}
    (h : c.Collides H a ∨ ∀ step ∈ steps.dropLast, ∀ k, c.Knows a (step.2.child k)) :
    (rebuild value steps).Clean H c := by
  induction steps with
  | nil => exact clean_pure hf.toSound _
  | cons step steps ih =>
    obtain ⟨k, node⟩ := step
    have grows : c.Grows H (c.rebuild H value steps).2.2 := Caches.grows_rebuild value steps
    have below : c.Collides H a ∨ ∀ step ∈ steps.dropLast, ∀ k, c.Knows a (step.2.child k) := by
      refine h.imp_right fun known step hstep => known step ?_
      cases steps with
      | nil => cases hstep
      | cons next rest => exact List.mem_cons_of_mem _ hstep
    -- One child was registered just now, and the others stood under the node that is replaced.
    have grounds : (c.rebuild H value steps).2.2.Grounds H
        ⟨⟨a, node.put k (c.rebuild H value steps).1⟩, steps.length + 1⟩ := by
      intro (high : 2 ≤ steps.length + 1)
      have more : steps ≠ [] := fun h => by simp [h] at high
      refine h.imp (grows.collides hf) fun known (j : Fin a.width) => ?_
      change Caches.Knows _ a ((node.put k _).child j)
      by_cases hj : j = k
      · rw [hj, Node.child_put_self]
        exact Caches.knows_rebuild more
      · rw [Node.child_put_of_ne _ hj]
        refine (known (k, node) ?_ j).mono grows
        rw [List.dropLast_cons_of_ne_nil more]
        exact List.mem_cons_self ..
    refine (ih below).bind ?_
    rw [run_rebuild]
    exact (clean_register (grows.faithful hf) grounds).map _

theorem clean_descend (hc : c.Sound H) (root : Element f) (path : List (Fin a.width)) :
    (descend root path).Clean H c := by
  induction path generalizing root with
  | nil => exact clean_pure hc _
  | cons k path ih =>
    refine ⟨hc, ?_⟩
    cases c.preimages.find? a root with
    | none => exact clean_pure hc _
    | some node => exact (ih _).map _

theorem clean_proveInsert (hf : c.Faithful H) (hr : t.Resolves H c) (key value : Element f) :
    (proveInsert t key value).Clean H c := by
  unfold proveInsert
  split
  · exact clean_pure hf.toSound _
  · rw [Trie.path, Arity.path_eq t.height_le]
    by_cases hk : key.val < a.width ^ t.height
    · rw [if_pos hk]
      refine (clean_descend hf.toSound _ _).bind ?_
      rw [run_descend]
      cases hd : c.preimages.descend t.root (a.digits t.height key.val) with
      | error e => exact clean_pure hf.toSound _
      | ok nodes =>
        dsimp only
        split
        · exact clean_pure hf.toSound _
        · refine Throughout.map (clean_rebuild hf ?_) _
          have count := PreimageCache.length_descend hd
          refine (hr.knows_children hf hk hd).imp_right fun known step hstep => known step.2 ?_
          have snd := List.mem_map_of_mem (f := Prod.snd) hstep
          rwa [List.map_dropLast, List.map_snd_zip (Nat.le_of_eq count)] at snd
    · rw [if_neg hk]
      exact clean_pure hf.toSound _

/-- A trie that resolves is worked on cleanly, and left so that it resolves. -/
structure Keeps (H : Hasher f) (c : Caches f) (p : Work f (α × Trie f a)) : Prop where
  clean : p.Clean H c
  faithful : (p.run H c).2.Faithful H
  resolves : (p.run H c).1.2.Resolves H (p.run H c).2

theorem keeps_pure (hf : c.Faithful H) (hr : t.Resolves H c) (x : α) :
    Keeps H c (pure (x, t)) :=
  ⟨clean_pure hf.toSound _, hf, hr⟩

theorem Keeps.bind {p : Work f (α × Trie f a)} {k : α × Trie f a → Work f (β × Trie f a)}
    (hp : Keeps H c p)
    (hk : ∀ x t c, c.Faithful H → t.Resolves H c → Keeps H c (k (x, t))) :
    Keeps H c (p >>= k) := by
  obtain ⟨clean, faithful, resolves⟩ := hk (p.run H c).1.1 _ _ hp.faithful hp.resolves
  refine ⟨hp.clean.bind clean, ?_, ?_⟩
  · rwa [run_bind]
  · rwa [run_bind]

theorem Keeps.of_read {k : α → Work f (β × Trie f a)} {x : α} (hp : p.Clean H c)
    (hrun : p.run H c = (x, c)) (hk : Keeps H c (k x)) : Keeps H c (p >>= k) := by
  refine ⟨hp.bind ?_, ?_, ?_⟩
  · rw [hrun]
    exact hk.clean
  · rw [run_bind, hrun]
    exact hk.faithful
  · rw [run_bind, hrun]
    exact hk.resolves

theorem keeps_proveInsert (hf : c.Faithful H) (hr : t.Resolves H c) (key value : Element f) :
    Keeps H c (proveInsert t key value) := by
  refine ⟨clean_proveInsert hf hr key value, ?_, ?_⟩
  · rw [run_proveInsert]
    exact (View.proveInsert_frame (v := ⟨t, c⟩) hf.correct key value).1.faithful hf
  · rw [run_proveInsert]
    exact hr.proveInsert hf key value

theorem keeps_insertSlots (hf : c.Faithful H) (hr : t.Resolves H c)
    (pairs : List (Element f × Element f)) : Keeps H c (insertSlots t pairs) := by
  induction pairs generalizing t c with
  | nil => exact keeps_pure hf hr _
  | cons pair pairs ih =>
    refine (keeps_proveInsert hf hr pair.1 pair.2).bind fun r t c hf hr => ?_
    cases r with
    | error e => exact keeps_pure hf hr _
    | ok r => exact (ih hf hr).bind fun _ _ _ hf hr => keeps_pure hf hr _

theorem clean_padSlots (hc : c.Sound H) (size : Nat) (slots : List (Slot f a.width)) :
    (padSlots t size slots).Clean H c := by
  have found : (proveLookup t 0).Clean H c := by
    unfold proveLookup
    cases t.path 0 with
    | error e => exact clean_pure hc _
    | ok path => exact (clean_descend hc _ _).map _
  unfold padSlots
  split
  · exact found.map _
  · exact clean_pure hc _

theorem keeps_packSteps (hf : c.Faithful H) (hr : t.Resolves H c) (size : Nat)
    (groups : List (List (Element f × Element f))) : Keeps H c (packSteps size t groups) := by
  induction groups generalizing t c with
  | nil => exact keeps_pure hf hr _
  | cons pairs groups ih =>
    refine (keeps_insertSlots hf hr pairs).bind fun r t c hf hr => ?_
    cases r with
    | error e => exact keeps_pure hf hr _
    | ok slots =>
      refine .of_read (clean_padSlots hf.toSound size slots) (run_padSlots size slots) ?_
      cases View.padSlots ⟨t, c⟩ size slots with
      | error e => exact keeps_pure hf hr _
      | ok slots => exact (ih hf hr).bind fun _ _ _ hf hr => keeps_pure hf hr _

theorem clean_fold (hf : c.Faithful H) (hr : t.Resolves H c)
    (pairs : List (Element f × Element f)) (batch : Nat) : (fold t pairs batch).Clean H c := by
  unfold fold
  split
  · exact clean_pure hf.toSound _
  · have packed := keeps_packSteps hf hr (max batch 1) (pieces (max batch 1 - 1) pairs)
    refine packed.clean.bind ?_
    split <;> exact clean_pure packed.faithful.toSound _

end Work

namespace Forest

variable {s : Forest f}

theorem clean_work (hs : s.Sound H) (op : Op f) : (s.work op).Clean H s.caches := by
  have unchanged := Work.clean_pure (α := Unit) hs.faithful.toSound ()
  cases op with
  | create width extent => exact (Work.clean_create hs.faithful width extent).map _
  | act i act =>
    rw [work]
    cases hm : s.live[i]? with
    | none => exact unchanged
    | some m =>
      have resolves : m.trie.Resolves H s.caches :=
        ⟨m.history, hs.held m (hs.live m (List.mem_of_getElem? hm))⟩
      have inserts := Work.clean_proveInsert hs.faithful resolves
      cases act with
      | insert key value => exact ((inserts key value).map _).map _
      | proveInsert key value => exact (inserts key value).map _
      | fold pairs batch => exact (Work.clean_fold hs.faithful resolves pairs batch).map _
      | drop => exact unchanged
      | reopen root => exact unchanged

/-- Along every run, also between any two cache calls of an operation, every entry is correct and
every registered preimage is memoized. What an operation registers are the paths that it answers
with, each from the leaf up. A node of height two or more is registered when all its children are,
unless two nodes of its arity that were registered have one digest. -/
theorem closed_run (H : Hasher f) (ops : List (Op f)) (op : Op f) :
    let s := run H ops
    (s.work op).Throughout H (Caches.Sound H) (Caches.Grounds H) s.caches ∧
      (s.work op).noted H s.caches = s.registrations H op ∧
      ((s.work op).run H s.caches).2 = (run H (ops ++ [op])).caches := by
  intro s
  have sound : s.Sound H := sound_run H ops
  refine ⟨clean_work sound op, noted_work sound.faithful.correct op, ?_⟩
  rw [run_work]
  simp only [run, s, List.foldl_append, List.foldl_cons, List.foldl_nil]

end Forest

end PoseidonTrie
