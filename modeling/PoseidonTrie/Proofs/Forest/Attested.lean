import PoseidonTrie.Proofs.Fold.Native
import PoseidonTrie.Proofs.Forest.Persistence
import PoseidonTrie.Proofs.Trie.Verify

/-! Insertions that are attested by proofs alone, whatever data these are made of. From the root of
a trie whose nodes are all registered, proofs that a verifier accepts one after another tell what
inserting their pairs does, unless a node of a proof is not the trie's own, and then it collides
with the one that is. -/
namespace PoseidonTrie

variable {f : PrimeField} {a : Arity} {H : Hasher f}

/-- An insertion as it is claimed, with a proof of it. -/
structure Attested (f : PrimeField) (a : Arity) where
  proof : InsertProof f a
  key : Element f
  oldValue : Option (Element f)
  newValue : Element f
  newRoot : Element f

namespace Contents

variable {m : Contents f} {capacity : Nat} {key : Element f}

/-- Zero stands for no value, and no value is zero. -/
theorem Fits.eq_filter {claimed : Option (Element f)} (hm : m.Fits capacity)
    (h : (m key).getD 0 = claimed.getD 0) : m key = claimed.filter (· ≠ 0) := by
  cases hk : m key with
  | none =>
    rw [hk] at h
    cases claimed with
    | none => rfl
    | some x =>
      obtain rfl : 0 = x := h
      simp [Option.filter]
  | some v =>
    have nonzero := (hm key v hk).1
    rw [hk] at h
    cases claimed with
    | none => exact (nonzero h).elim
    | some x =>
      obtain rfl : v = x := h
      simp [Option.filter, nonzero]

end Contents

namespace View

variable {v v' : View f a} {m : Contents f} {key k value : Element f}

theorem lookup_of_not_lt (hk : ¬ k.val < a.width ^ v.trie.height) :
    v.lookup k = .error (.keyOutOfRange k v.trie.height) := by
  rw [lookup, Trie.path, Arity.path_eq v.trie.height_le, if_neg hk]
  rfl

theorem Holds.lookup_of_ne (hv : v.Holds H m) (hf : v.caches.Faithful H)
    (hc : ¬ v.caches.Collides H a) (hv' : v'.Holds H (Function.update m key (some value)))
    (hf' : v'.caches.Faithful H) (hc' : ¬ v'.caches.Collides H a)
    (height : v'.trie.height = v.trie.height) (hk : k ≠ key) : v'.lookup k = v.lookup k := by
  by_cases hlt : k.val < a.width ^ v.trie.height
  · rw [hv.lookup hf hc hlt, hv'.lookup hf' hc' (height ▸ hlt), Function.update_of_ne hk]
  · rw [lookup_of_not_lt hlt, lookup_of_not_lt (height ▸ hlt), height]

end View

namespace Attested

variable {e : Attested f a} {claims : List (Attested f a)} {v : View f a}

/-- A verifier accepts the insertion as one from a root. Its cache holds correct digests. -/
def Accepted (H : Hasher f) (root : Element f) (e : Attested f a) : Prop :=
  ∃ c : DigestCache f, c.Correct H ∧
    (e.proof.verify H root e.newRoot e.key e.oldValue e.newValue c).1 = true

/-- Insertions into a trie of a height are accepted one after another. -/
def AcceptedFrom (H : Hasher f) (height : Nat) (root : Element f) :
    (claims : List (Attested f a)) → Prop
  | [] => True
  | e :: claims =>
    e.proof.old.height = height ∧ e.Accepted H root ∧ AcceptedFrom H height e.newRoot claims

/-- The nodes that a verifier hashes for one insertion. -/
def hashed (H : Hasher f) (e : Attested f a) : List (Node f a.width) :=
  e.proof.old.hashed H e.key (e.oldValue.getD 0) ++ e.proof.new.hashed H e.key e.newValue

def pair (e : Attested f a) : Element f × Element f :=
  (e.key, e.newValue)

/-- The claims are true of a trie: each insertion succeeds, finds the old value, where zero is none,
leads to the new root, and changes no other key. -/
def Happen (H : Hasher f) (v : View f a) : (claims : List (Attested f a)) → Prop
  | [] => True
  | e :: claims =>
    ∃ changed after, v.insert H e.key e.newValue = (.ok changed, after) ∧
      v.lookup e.key = .ok (e.oldValue.filter (· ≠ 0)) ∧
      after.trie.root = e.newRoot ∧
      (∀ key, key ≠ e.key → after.lookup key = v.lookup key) ∧
      Happen H after claims

/-- An accepted insertion from a trie's root is of a pair that fits, tells the old value, and leads
to the commitment of the updated map. -/
theorem Accepted.of_holds {m : Contents f} (he : e.Accepted H v.trie.root)
    (hheight : e.proof.old.height = v.trie.height) (hv : v.Holds H m)
    (hc : ¬ v.caches.CollidesAmong H a (e.hashed H)) :
    (e.newValue ≠ 0 ∧ e.key.val < a.width ^ v.trie.height) ∧
      m e.key = e.oldValue.filter (· ≠ 0) ∧
        e.newRoot =
          commit H a v.trie.height (Function.update m.leaves e.key.val e.newValue) := by
  obtain ⟨c, correct, accepted⟩ := he
  obtain ⟨path, shows⟩ := InsertProof.shows_of_verify correct accepted
  have chained := shows.old.chained
  have rebuilt := shows.newRoot_eq
  have length := shows.old.length_hashed.trans hheight
  have hpath := shows.path_eq
  rw [hheight] at hpath
  obtain ⟨fits, rfl⟩ := Arity.path_eq_ok v.trie.height_le hpath
  obtain ⟨paid, leads⟩ := hv.of_chained fits chained length fun h =>
    hc (h.subset (List.subset_append_left ..))
  exact ⟨⟨shows.nonzero, fits⟩, hv.fits.eq_filter paid.symm, rebuilt.trans (leads e.newValue)⟩

/-- An accepted insertion from a trie's root goes in, over the old value that is claimed, to the new
root. -/
theorem Accepted.insert {history : List (Element f × Element f)} (he : e.Accepted H v.trie.root)
    (hheight : e.proof.old.height = v.trie.height) (hv : v.Holds H (contentsOf history))
    (hf : v.caches.Faithful H) (hc : ¬ v.caches.CollidesAmong H a (e.hashed H)) :
    (∃ changed, (v.insert H e.key e.newValue).1 = .ok changed) ∧
      v.lookup e.key = .ok (e.oldValue.filter (· ≠ 0)) ∧
        (v.insert H e.key e.newValue).2.trie.root = e.newRoot ∧
          (v.insert H e.key e.newValue).2.Holds H (contentsOf (e.pair :: history)) := by
  have unique : ¬ v.caches.Collides H a := fun h => hc (h.among _)
  obtain ⟨⟨nonzero, fits⟩, told, hroot⟩ := he.of_holds hheight hv hc
  obtain ⟨hok, hnext⟩ := hv.insert hf unique nonzero fits
  obtain ⟨_, height⟩ := View.insert_frame hf.correct e.key e.newValue
  refine ⟨⟨_, hok⟩, ?_, ?_, ?_⟩
  · rw [hv.lookup hf unique fits, told]
  · rw [hnext.root, Contents.leaves_update, height, hroot]
  · rwa [pair, contentsOf_cons]

theorem AcceptedFrom.happen {history : List (Element f × Element f)}
    (h : AcceptedFrom H v.trie.height v.trie.root claims) (hv : v.Holds H (contentsOf history))
    (hf : v.caches.Faithful H)
    (hc : ¬ (v.insertAll H (claims.map pair)).2.caches.CollidesAmong H a
      (claims.flatMap (hashed H))) :
    Happen H v claims := by
  induction claims generalizing v history with
  | nil => trivial
  | cons e claims ih =>
    obtain ⟨hheight, he, h⟩ := h
    rw [List.map_cons, List.flatMap_cons] at hc
    -- Insertions only add to the caches, so what collides before them collides after them.
    have grown := (View.insertAll_frame hf (e.pair :: claims.map pair)).1
    have fresh : ¬ v.caches.CollidesAmong H a (e.hashed H) := fun h =>
      hc ((h.mono hf grown).subset (List.subset_append_left ..))
    have unique : ¬ v.caches.Collides H a := fun h => fresh (h.among _)
    obtain ⟨⟨changed, hok⟩, told, moved, hnext⟩ := he.insert hheight hv hf fresh
    obtain ⟨grows, height⟩ := View.insert_frame hf.correct e.key e.newValue
    have hf' := grows.faithful hf
    rw [pair, View.insertAll_cons hok] at hc
    have unique' : ¬ (v.insert H e.key e.newValue).2.caches.Collides H a := fun h =>
      hc (((View.insertAll_frame hf' (claims.map pair)).1.collides hf' h).among _)
    refine ⟨changed, _, Prod.ext hok rfl, told, moved, ?_, ?_⟩
    · intro key hkey
      rw [pair, contentsOf_cons] at hnext
      exact hv.lookup_of_ne hf unique hnext hf' unique' height hkey
    · rw [← height, ← moved] at h
      exact ih h hnext hf' fun h => hc (h.subset (List.subset_append_right ..))

/-- Proofs accepted one after another from a trie's root tell what inserting the pairs does: each
goes in, over the old value that was claimed, to the new root, and leaves every other key alone. The
one alternative is a collision among the nodes registered and those hashed for the proofs. Collision
or not, an old proof, a key and a new value have one new root, that of the old path rebuilt over the
value. -/
theorem attested_sound (H : Hasher f) :
    (∀ (ops : List (Op f)) (a : Arity) (t : Trie f a) (history : List (Element f × Element f)),
      ⟨a, t, history⟩ ∈ (Forest.run H ops).held →
        ∀ claims : List (Attested f a), AcceptedFrom H t.height t.root claims →
          let start : View f a := ⟨t, (Forest.run H ops).caches⟩
          (start.insertAll H (claims.map pair)).2.caches.CollidesAmong H a
              (claims.flatMap (hashed H)) ∨
            Happen H start claims) ∧
    ∀ (a : Arity) (old new new' : LookupProof f a) (key newValue : Element f)
      (oldRoot oldRoot' newRoot newRoot' : Element f) (oldValue oldValue' : Option (Element f))
      (c c' : DigestCache f), c.Correct H → c'.Correct H →
        (InsertProof.verify H ⟨old, new⟩ oldRoot newRoot key oldValue newValue c).1 = true →
        (InsertProof.verify H ⟨old, new'⟩ oldRoot' newRoot' key oldValue' newValue c').1 = true →
          newRoot = newRoot' ∧ ∃ path, a.path key old.height = .ok path ∧
            newRoot = rebuiltRoot H newValue (path.zip old.nodes) := by
  refine ⟨?_, ?_⟩
  · intro ops a t history hm claims haccepted start
    by_cases hc : (start.insertAll H (claims.map pair)).2.caches.CollidesAmong H a
        (claims.flatMap (hashed H))
    · exact Or.inl hc
    · have hs := Forest.sound_run H ops
      have grows := (View.insertAll_frame (v := start) hs.faithful (claims.map pair)).1
      have unique : ¬ (Forest.run H ops).caches.Collides H a := fun h =>
        hc ((grows.collides hs.faithful h).among _)
      have holds := (hs.held _ hm).resolve_left unique
      exact Or.inr (AcceptedFrom.happen (v := start) haccepted holds hs.faithful hc)
  · intro a old new new' key newValue oldRoot oldRoot' newRoot newRoot' oldValue oldValue' c c'
      correct correct' accepted accepted'
    obtain ⟨path, shows⟩ := InsertProof.shows_of_verify correct accepted
    obtain ⟨path', shows'⟩ := InsertProof.shows_of_verify correct' accepted'
    obtain rfl : path = path' := Except.ok.inj (shows.path_eq.symm.trans shows'.path_eq)
    exact ⟨shows.new_eq.trans shows'.new_eq.symm, path, shows.path_eq, shows.new_eq⟩

open Forest

/-- The insertion of one at key one, where there was nothing. -/
def oneLeafClaim : Attested .pallasBase .binary :=
  ⟨⟨⟨[.uniform _ 0]⟩, ⟨[(Node.uniform _ 0).put ⟨1, Nat.one_lt_two⟩ 1]⟩⟩, 1, some 0, 1, 1⟩

theorem path_oneLeafClaim :
    Arity.binary.path (1 : Element .pallasBase) 1 = .ok [⟨1, Nat.one_lt_two⟩] := by
  have le : 1 ≤ fullHeight .pallasBase .binary := (sapling 0).height_le
  have fits : (1 : Element .pallasBase).val < Arity.binary.width ^ 1 := by decide
  exact (Arity.path_of_lt le fits).trans rfl

theorem accepted_oneLeafClaim : AcceptedFrom weigh 1 0 [oneLeafClaim] := by
  let path : List (Fin Arity.binary.width) := [⟨1, Nat.one_lt_two⟩]
  let nodes : List (Node .pallasBase Arity.binary.width) := [.uniform _ 0]
  have chained : Chained weigh 0 0 (path.zip nodes) := ⟨by decide, rfl⟩
  have root : rebuiltRoot weigh 1 (path.zip nodes) = 1 := by decide
  have told : (some (0 : Element .pallasBase)).getD 0 = 0 := rfl
  have accepted := InsertProof.verify_of_chained chained DigestCache.correct_empty told one_ne_zero
    path_oneLeafClaim Nat.one_pos
  rw [root] at accepted
  exact ⟨rfl, ⟨.empty, DigestCache.correct_empty, accepted⟩, trivial⟩

theorem run_create_sapling :
    run weigh [.create 2 (.height 1)] =
      ⟨Caches.empty.registerAll weigh oneLeafNodes.tail, [⟨.binary, sapling 0, []⟩],
        [⟨.binary, sapling 0, []⟩]⟩ := by
  have supported : Arity.require (f := .pallasBase) 2 = .ok .binary := rfl
  simp only [run, List.foldl, step, empty, AnyTrie.create, supported, create_sapling]
  simp [Except.map, plant]

/-- The nodes hashed for the claim are those that the trie registers, and no two collide. -/
theorem not_collidesAmong_oneLeafClaim :
    ¬ (Caches.empty.registerAll weigh oneLeafNodes).CollidesAmong weigh .binary
      (oneLeafClaim.hashed weigh) := by
  have old : oneLeafClaim.proof.old.hashed weigh 1 0 = oneLeafNodes.tail :=
    (LookupProof.hashed_of_path (p := oneLeafClaim.proof.old) path_oneLeafClaim).trans (by decide)
  have new : oneLeafClaim.proof.new.hashed weigh 1 1 = oneLeafNodes.take 1 :=
    (LookupProof.hashed_of_path (p := oneLeafClaim.proof.new) path_oneLeafClaim).trans (by decide)
  have registered : ∀ node ∈ oneLeafClaim.hashed weigh,
      (Caches.empty.registerAll weigh oneLeafNodes).Has .binary node := by
    intro node hnode
    apply (Caches.has_registerAll DigestCache.correct_empty).mpr
    rcases List.mem_append.mp hnode with hnode | hnode
    · exact Or.inl (List.mem_of_mem_tail (old ▸ hnode))
    · exact Or.inl (List.mem_of_mem_take (new ▸ hnode))
  rintro ⟨x, y, hne, hx, hy, he⟩
  exact Caches.not_collides_registerAll (by decide)
    ⟨x, y, hne, hx.elim id (registered x), hy.elim id (registered y), he⟩

theorem attested_sound_oneLeaf :
    Happen weigh ⟨sapling 0, Caches.empty.registerAll weigh oneLeafNodes.tail⟩ [oneLeafClaim] ∧
      ∃ path, Arity.binary.path (1 : Element .pallasBase) 1 = .ok path ∧
        (1 : Element .pallasBase) = rebuiltRoot weigh 1 (path.zip [.uniform _ 0]) := by
  obtain ⟨history, newRoot⟩ := attested_sound (f := .pallasBase) weigh
  refine ⟨?_, ?_⟩
  · have held : (⟨.binary, sapling 0, []⟩ : Member .pallasBase) ∈
        (run weigh [.create 2 (.height 1)]).held := by
      rw [run_create_sapling]
      exact List.mem_singleton_self _
    have forced := history _ _ _ _ held _ accepted_oneLeafClaim
    rw [run_create_sapling] at forced
    have inserted : View.insertAll weigh
        ⟨sapling 0, Caches.empty.registerAll weigh oneLeafNodes.tail⟩ ([oneLeafClaim].map pair) =
          (.ok (), ⟨sapling 1, Caches.empty.registerAll weigh oneLeafNodes⟩) := by
      change View.insertAll weigh _ [(1, 1)] = _
      rw [View.insertAll, insert_sapling]
      rfl
    apply forced.resolve_left
    rw [inserted, List.flatMap_singleton]
    exact not_collidesAmong_oneLeafClaim
  · obtain ⟨-, ⟨c, correct, accepted⟩, -⟩ := accepted_oneLeafClaim
    exact (newRoot _ _ _ _ _ _ _ _ _ _ _ _ c c correct correct accepted accepted).2

end Attested

end PoseidonTrie
