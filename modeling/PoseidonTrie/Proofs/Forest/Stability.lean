import PoseidonTrie.Circuit.Path
import PoseidonTrie.Proofs.Fold.Failure
import PoseidonTrie.Proofs.Forest.Persistence
import PoseidonTrie.Proofs.Trie.Verify

/-! What can be resolved stays so. Over caches with correct entries, whatever is done with them and
with whichever tries, a path that was found is found again, and a path that was lost is lost at the
same commitment until that is registered, unless two nodes of the arity have one digest. -/
namespace PoseidonTrie

variable {f : PrimeField} {a b : Arity} {H : Hasher f}

namespace PreimageCache

variable {c c' : PreimageCache f} {ps : List (Preimage f)} {d root : Element f}
  {x : Node f a.width} {path : List (Fin a.width)} {nodes : List (Node f a.width)}

/-- The cache once preimages are registered under their own digests, the last one first. -/
def insertAll (H : Hasher f) (c : PreimageCache f) (ps : List (Preimage f)) : PreimageCache f :=
  ps.foldr (fun p c => c.insert p.arity (H p.arity p.node) p.node) c

theorem insertAll_append (later earlier : List (Preimage f)) :
    c.insertAll H (later ++ earlier) = (c.insertAll H earlier).insertAll H later :=
  List.foldr_append

/-- A preimage stays unless another one of its arity has its digest. -/
theorem find?_insertAll (h : c.find? a d = some x) (hd : H a x = d)
    (unique : ∀ y, (⟨a, y⟩ : Preimage f) ∈ ps → H a y = H a x → y = x) :
    (c.insertAll H ps).find? a d = some x := by
  induction ps with
  | nil => exact h
  | cons p ps ih =>
    obtain ⟨b, y⟩ := p
    have earlier := ih fun y hy => unique y (List.mem_cons_of_mem _ hy)
    change ((c.insertAll H ps).insert b (H b y) y).find? a d = some x
    by_cases same : b = a ∧ H b y = d
    · obtain ⟨rfl, hy⟩ := same
      rw [unique y (List.mem_cons_self ..) (hy.trans hd.symm), hd]
      exact find?_insert_self
    · rwa [find?_insert_of_ne (not_and_or.mp same)]

theorem descend_mono (h : ∀ d x, c.find? a d = some x → c'.find? a d = some x)
    (hd : c.descend root path = .ok nodes) : c'.descend root path = .ok nodes := by
  induction path generalizing root nodes with
  | nil => exact hd
  | cons k path ih =>
    obtain ⟨node, rest, hfind, hrest, rfl⟩ := descend_cons_eq_ok.mp hd
    exact descend_cons_eq_ok.mpr ⟨node, rest, h root node hfind, ih hrest, rfl⟩

theorem FirstUnknown.mono (hu : c.FirstUnknown root path d)
    (h : ∀ d x, c.find? a d = some x → c'.find? a d = some x) (hd : c'.find? a d = none) :
    c'.FirstUnknown root path d := by
  obtain ⟨above, below, nodes, hpath, hne, hdescend, hend, -⟩ := hu
  exact ⟨above, below, nodes, hpath, hne, descend_mono h hdescend, hend, hd⟩

end PreimageCache

/-- The second caches are the first once preimages were registered, of any arities. Digests may have
been memoized besides. -/
structure Caches.Registers (H : Hasher f) (c c' : Caches f) (ps : List (Preimage f)) : Prop where
  digests : c'.digests.Correct H
  preimages : c'.preimages = c.preimages.insertAll H ps

namespace Caches.Registers

variable {c c' c'' : Caches f} {ps qs : List (Preimage f)}

theorem refl (hc : c.digests.Correct H) : c.Registers H c [] :=
  ⟨hc, rfl⟩

theorem trans (h : c.Registers H c' ps) (h' : c'.Registers H c'' qs) :
    c.Registers H c'' (qs ++ ps) := by
  refine ⟨h'.digests, ?_⟩
  rw [h'.preimages, h.preimages, PreimageCache.insertAll_append]

theorem registerAll (hc : c.digests.Correct H) (nodes : List (Node f a.width)) :
    c.Registers H (c.registerAll H nodes) (nodes.map (⟨a, ·⟩)) := by
  induction nodes with
  | nil => exact .refl hc
  | cons node nodes ih =>
    change c.Registers H ((c.registerAll H nodes).register H a node).2 _
    rw [register_eq ih.digests]
    refine ⟨ih.digests.hash, ?_⟩
    rw [ih.preimages]
    rfl

theorem memo {digests : DigestCache f} (hc : digests.Correct H) :
    c.Registers H { c with digests } [] :=
  ⟨hc, rfl⟩

end Caches.Registers

/-- What is done over shared caches, each time with any trie or proof at all. -/
inductive Use (f : PrimeField) where
  | create (width : Nat) (extent : Extent)
  | insert (m : AnyTrie f) (key value : Element f)
  | proveInsert (m : AnyTrie f) (key value : Element f)
  | fold (m : AnyTrie f) (pairs : List (Element f × Element f)) (batch : Nat)
  | lookup (m : AnyTrie f) (key : Element f)
  | proveLookup (m : AnyTrie f) (key : Element f)
  | synthesizeLookup (m : AnyTrie f) (root key : Circuit.Num f)
  | synthesizeInsert (m : AnyTrie f) (root key value : Circuit.Num f)
  | recomputeRoot (a : Arity) (proof : LookupProof f a) (key : Element f)
  | verify (a : Arity) (proof : LookupProof f a) (root key value : Element f)
  | verifyInsert (a : Arity) (proof : InsertProof f a) (oldRoot newRoot key : Element f)
      (oldValue : Option (Element f)) (newValue : Element f)
  | hash (p : Preimage f)
  | register (p : Preimage f)

namespace Use

variable {c : Caches f}

/-- The caches that it leaves. Lookups and circuits read them and hand none back. -/
def after (H : Hasher f) (c : Caches f) : Use f → Caches f
  | create width extent => (AnyTrie.create H c width extent).2
  | insert m key value => (View.insert H ⟨m.trie, c⟩ key value).2.caches
  | proveInsert m key value => (View.proveInsert H ⟨m.trie, c⟩ key value).2.caches
  | fold m pairs batch => (View.fold H ⟨m.trie, c⟩ pairs batch).2.caches
  | lookup .. | proveLookup .. | synthesizeLookup .. | synthesizeInsert .. => c
  | recomputeRoot _ proof key => { c with digests := (proof.recomputeRoot H key c.digests).2 }
  | verify _ proof root key value =>
    { c with digests := (proof.verify H root key value c.digests).2 }
  | verifyInsert _ proof oldRoot newRoot key oldValue newValue =>
    { c with digests := (proof.verify H oldRoot newRoot key oldValue newValue c.digests).2 }
  | hash p => { c with digests := (c.digests.hash H p.arity p.node).2 }
  | register p => { c with preimages := c.preimages.insert p.arity (H p.arity p.node) p.node }

/-- The preimages that it registers, the last one first. -/
def registered (H : Hasher f) (c : Caches f) : Use f → List (Preimage f)
  | create width extent =>
    match (AnyTrie.create H c width extent).1 with
    | .ok m => (emptyNodes H m.arity m.trie.height).map (⟨m.arity, ·⟩)
    | .error _ => []
  | insert m key value | proveInsert m key value =>
    (View.written H ⟨m.trie, c⟩ [(key, value)]).map (⟨m.arity, ·⟩)
  | fold m pairs _ =>
    match pairs.forM fun (key, value) => View.admits ⟨m.trie, c⟩ key value with
    | .ok _ => (View.written H ⟨m.trie, c⟩ pairs).map (⟨m.arity, ·⟩)
    | .error _ => []
  | register p => [p]
  | _ => []

theorem registers_create (hc : c.digests.Correct H) (width : Nat) (extent : Extent) :
    c.Registers H ((create width extent).after H c) ((create width extent).registered H c) := by
  rw [after, registered, AnyTrie.create]
  cases Arity.require (f := f) width with
  | error e => exact .refl hc
  | ok a =>
    cases hcreate : Trie.create (a := a) H c extent with
    | mk r c' =>
      simp only [hcreate]
      cases r with
      | error e =>
        obtain rfl := Trie.create_error hcreate
        exact .refl hc
      | ok t =>
        obtain ⟨-, rfl⟩ := Trie.create_ok hc hcreate
        exact .registerAll hc _

theorem registers_insert (hc : c.digests.Correct H) (m : AnyTrie f) (key value : Element f) :
    c.Registers H ((insert m key value).after H c) ((insert m key value).registered H c) := by
  have one : (View.insert H ⟨m.trie, c⟩ key value).2 =
      (View.insertAll H ⟨m.trie, c⟩ [(key, value)]).2 := by
    rw [View.insertAll]
    rcases View.insert H ⟨m.trie, c⟩ key value with ⟨_ | _, _⟩ <;> rfl
  rw [after, registered, one, (View.insertAll_written ..).2]
  exact .registerAll hc _

theorem registers_fold (hc : c.digests.Correct H) (m : AnyTrie f)
    (pairs : List (Element f × Element f)) (batch : Nat) :
    c.Registers H ((fold m pairs batch).after H c) ((fold m pairs batch).registered H c) := by
  rw [after, registered]
  by_cases hp : ∀ p ∈ pairs, Insertable (m.arity.width ^ m.trie.height) p
  · have written := (View.insertAll_written H ⟨m.trie, c⟩ pairs).2
    have folded : (View.fold H ⟨m.trie, c⟩ pairs batch).2.caches =
        (View.insertAll H ⟨m.trie, c⟩ pairs).2.caches := by
      rcases hfold : View.fold H ⟨m.trie, c⟩ pairs batch with ⟨e | steps, v⟩
      · rw [(View.fold_eq_error hp hfold).1]
      · rw [(View.exists_fold_eq_ok.mp ⟨steps, hfold⟩).2.1]
    rw [folded, written, (View.forM_admits_eq_ok (v := ⟨m.trie, c⟩) pairs).mpr hp]
    exact .registerAll hc _
  · obtain ⟨e, hrefused⟩ := View.fold_of_not_insertable (H := H) (v := ⟨m.trie, c⟩) batch hp
    rw [← View.forM_admits_eq_ok (v := ⟨m.trie, c⟩)] at hp
    rw [hrefused]
    split
    · rename_i hok
      exact absurd hok hp
    · exact .refl hc

/-- Whatever is done, it registers correct preimages and memoizes correct digests. -/
theorem registers (hc : c.digests.Correct H) (u : Use f) :
    c.Registers H (u.after H c) (u.registered H c) := by
  cases u with
  | create width extent => exact registers_create hc width extent
  | insert m key value => exact registers_insert hc m key value
  | proveInsert m key value => exact registers_insert hc m key value
  | fold m pairs batch => exact registers_fold hc m pairs batch
  | lookup m key => exact .refl hc
  | proveLookup m key => exact .refl hc
  | synthesizeLookup m root key => exact .refl hc
  | synthesizeInsert m root key value => exact .refl hc
  | recomputeRoot a proof key => exact .memo (LookupProof.correct_recomputeRoot hc)
  | verify a proof root key value => exact .memo (LookupProof.correct_verify hc)
  | verifyInsert a proof oldRoot newRoot key oldValue newValue =>
    exact .memo (InsertProof.correct_verify hc)
  | hash p => exact .memo hc.hash
  | register p => exact ⟨hc, rfl⟩

/-- The caches that uses leave, one after another. -/
def afterAll (H : Hasher f) (c : Caches f) (uses : List (Use f)) : Caches f :=
  uses.foldl (after H) c

/-- The preimages that they register, the last one first. -/
def registeredBy (H : Hasher f) (c : Caches f) : (uses : List (Use f)) → List (Preimage f)
  | [] => []
  | u :: uses => registeredBy H (u.after H c) uses ++ u.registered H c

theorem registersAll (hc : c.digests.Correct H) (uses : List (Use f)) :
    c.Registers H (afterAll H c uses) (registeredBy H c uses) := by
  induction uses generalizing c with
  | nil => exact .refl hc
  | cons u uses ih =>
    have first := u.registers hc
    exact first.trans (ih first.digests)

/-- A node that was registered before or along the way. -/
def Meets (H : Hasher f) (c : Caches f) (uses : List (Use f)) (x : Node f a.width) : Prop :=
  (∃ d, c.preimages.find? a d = some x) ∨ (⟨a, x⟩ : Preimage f) ∈ registeredBy H c uses

/-- Two different nodes that were registered have one digest. -/
def Collide (H : Hasher f) (a : Arity) (c : Caches f) (uses : List (Use f)) : Prop :=
  ∃ x y : Node f a.width, x ≠ y ∧ H a x = H a y ∧ Meets H c uses x ∧ Meets H c uses y

/-- Without a collision no preimage of the arity is lost. -/
theorem find?_afterAll {uses : List (Use f)} (hc : c.Correct H) (h : ¬ Collide H a c uses)
    {d : Element f} {x : Node f a.width} (hx : c.preimages.find? a d = some x) :
    (afterAll H c uses).preimages.find? a d = some x := by
  rw [(registersAll hc.digests uses).preimages]
  apply PreimageCache.find?_insertAll hx (hc.preimages a d x hx)
  intro y hy same
  by_contra hne
  exact h ⟨y, x, hne, same, .inr hy, .inl ⟨d, hx⟩⟩

end Use

namespace View

variable {t t' : Trie f a} {c : Caches f}

theorem proveLookup_congr (hroot : t'.root = t.root) (hheight : t'.height = t.height)
    (key : Element f) : View.proveLookup ⟨t', c⟩ key = View.proveLookup ⟨t, c⟩ key := by
  simp only [proveLookup, Trie.path, hroot, hheight]

/-- What a key resolves to under a root is fixed from then on, whatever else is done over the same
caches, with tries of any arity, height and root. A proof stays the same for every trie at the root.
A missing preimage is that of the first commitment on the path that has none, and it stays missing
until it is registered. The one alternative is a collision of two nodes of the arity that were
registered. -/
theorem proveLookup_stable (H : Hasher f) (a : Arity) (t t' : Trie f a) (hroot : t'.root = t.root)
    (hheight : t'.height = t.height) (key : Element f) (c : Caches f) (hc : c.Correct H)
    (uses : List (Use f)) :
    (∀ d, View.proveLookup ⟨t, c⟩ key = .error (.missingPreimage d) →
      View.FirstUnknown ⟨t, c⟩ key d) ∧
    (Use.Collide H a c uses ∨
      (∀ proof, View.proveLookup ⟨t, c⟩ key = .ok proof →
        View.proveLookup ⟨t', Use.afterAll H c uses⟩ key = .ok proof) ∧
      ∀ d, View.proveLookup ⟨t, c⟩ key = .error (.missingPreimage d) →
        (Use.afterAll H c uses).preimages.find? a d = none →
          View.proveLookup ⟨t', Use.afterAll H c uses⟩ key = .error (.missingPreimage d)) := by
  refine ⟨fun d => proveLookup_eq_missing.mp, ?_⟩
  by_cases collide : Use.Collide H a c uses
  · exact .inl collide
  · have kept : ∀ d x, c.preimages.find? a d = some x →
        (Use.afterAll H c uses).preimages.find? a d = some x :=
      fun d x => Use.find?_afterAll hc collide
    rw [proveLookup_congr hroot hheight]
    refine .inr ⟨fun proof h => ?_, fun d h hd => ?_⟩
    · obtain ⟨hk, hdescend⟩ := proveLookup_eq_ok.mp h
      exact proveLookup_eq_ok.mpr ⟨hk, PreimageCache.descend_mono kept hdescend⟩
    · obtain ⟨path, hpath, unknown⟩ := proveLookup_eq_missing.mp h
      exact proveLookup_eq_missing.mpr ⟨path, hpath, unknown.mono kept hd⟩

/-- A path is proved as before after another node was registered. -/
theorem proveLookup_stable_sapling :
    ∃ proof, View.proveLookup
        ⟨Forest.sapling 0, Caches.empty.registerAll weigh Forest.oneLeafNodes.tail⟩ 1 = .ok proof ∧
      View.proveLookup ⟨Forest.sapling 0, Use.afterAll weigh
        (Caches.empty.registerAll weigh Forest.oneLeafNodes.tail)
        [.register ⟨.binary, (Node.uniform _ 0).put ⟨1, Nat.one_lt_two⟩ 1⟩]⟩ 1 = .ok proof := by
  have faithful : (Caches.empty.registerAll weigh Forest.oneLeafNodes.tail).Faithful weigh :=
    (Caches.grows_registerAll _).faithful Caches.faithful_empty
  obtain ⟨q, proved⟩ := insert_eq_ok Forest.insert_sapling
  have found := proveLookup_eq_ok.mpr (proveInsert_eq_ok proved).2
  obtain ⟨-, stable⟩ := proveLookup_stable weigh .binary (Forest.sapling 0) _ rfl rfl 1 _
    faithful.toCorrect [.register ⟨.binary, (Node.uniform _ 0).put ⟨1, Nat.one_lt_two⟩ 1⟩]
  refine ⟨q.old, found, (stable.resolve_left ?_).1 _ found⟩
  have met {x : Node .pallasBase Arity.binary.width} (h : Use.Meets weigh
      (Caches.empty.registerAll weigh Forest.oneLeafNodes.tail)
      [.register ⟨.binary, (Node.uniform _ 0).put ⟨1, Nat.one_lt_two⟩ 1⟩] x) :
      x ∈ Forest.oneLeafNodes := by
    rcases h with ⟨d, hd⟩ | new
    · have has := (faithful.sound _ _ _ hd).1
      rcases (Caches.has_registerAll DigestCache.correct_empty).mp has with mem | ⟨d, hd⟩
      · exact List.mem_of_mem_tail mem
      · simp [Caches.empty] at hd
    · cases List.mem_singleton.mp new
      exact List.mem_cons_self ..
  have unique : ∀ x ∈ Forest.oneLeafNodes, ∀ y ∈ Forest.oneLeafNodes,
      weigh .binary x = weigh .binary y → x = y := by decide
  rintro ⟨x, y, hne, same, hx, hy⟩
  exact hne (unique x (met hx) y (met hy) same)

end View

end PoseidonTrie
