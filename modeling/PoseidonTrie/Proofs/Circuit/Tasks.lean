import PoseidonTrie.Proofs.Circuit.Kinds

namespace PoseidonTrie

open Circuit

variable {f : PrimeField} {H : Hasher f}

namespace Circuit

variable {k : Kind} {s t u v u' v' : System f} {ns : Path} {n height : Nat}

theorem Fits.follows {witness witness' : Option (List (Node f n))} (h : Fits height witness)
    (same : k ≠ .shape → witness' = witness) (fits : k = .shape → Fits height witness') :
    Fits height witness' := by
  by_cases hk : k = .shape
  · exact fits hk
  · exact same hk ▸ h

end Circuit

namespace View

variable {a : Arity} {v : View f a} {k : Kind} {ns : Circuit.Path} {s : System f}
  {root root' key key' value value' : Num f} {witness : Option (List (Node f a.width))}

theorem fits_witness (h : v.witness root key = .ok witness) : Fits v.trie.height witness := by
  unfold View.witness at h
  split at h
  · split at h
    · rename_i proof hproof
      cases h
      exact fits_some (proveLookup_eq_ok.mp hproof).length_eq
    · cases h
  · cases h
    exact fits_none

theorem witness_follows (h : v.witness root key = .ok witness) (hroot : root.Follows k root')
    (hkey : key.Follows k key') (unknown : k = .shape → root'.value = none) :
    ∃ witness', v.witness root' key' = .ok witness' ∧ (k ≠ .shape → witness' = witness) ∧
      Fits v.trie.height witness' := by
  by_cases hk : k = .shape
  · refine ⟨none, ?_, fun h => absurd hk h, fits_none⟩
    rw [View.witness, unknown hk]
  · refine ⟨witness, ?_, fun _ => rfl, fits_witness h⟩
    rw [← h, View.witness, View.witness, hroot.value hk, hkey.value hk]

theorem synthesizeLookup_eq (h : v.witness root key = .ok witness) :
    v.synthesizeLookup H ns root key = (do
      let path ← lookupPath H ns a.width root key v.trie.height witness
      return path.leaf) := by
  rw [synthesizeLookup, h, ofExcept_ok, pure_bind]

theorem synthesizeInsert_eq (h : v.witness root key = .ok witness) :
    v.synthesizeInsert H ns root key value =
      insertPath H ns a.width root key value v.trie.height witness := by
  rw [synthesizeInsert, h, ofExcept_ok, pure_bind]

/-- There is no circuit without an answer to what the path is. -/
theorem exists_witness {α : Type} {g : Option (List (Node f a.width)) → Synth f α}
    {r : α × System f} (h : (ofExcept (v.witness root key) >>= g) s = .ok r) :
    ∃ witness, v.witness root key = .ok witness := by
  obtain ⟨witness, s', hwitness, -⟩ := bind_eq_ok h
  cases hw : v.witness root key with
  | error e =>
    rw [hw] at hwitness
    cases hwitness
  | ok witness => exact ⟨witness, rfl⟩

end View

namespace Circuit

variable {k : Kind} {s t u v u' v' : System f} {ns : Path} {n height : Nat}

/-- A circuit over numbers and Booleans that a system already has. -/
inductive Task (f : PrimeField) where
  | number (value : Option (Element f))
  | bit (value : Option Bool)
  | equal (x y : Num f)
  | pick (condition : Boolean) (x y : Num f)
  | select (xs : List (Num f)) (bits : List Boolean)
  | nonzero (x : Num f)
  | numBits (x : Num f) (n : Nat)
  | selectors (bits : List Boolean)
  | hash (a : Arity) (children : List (Num f))
  | lookupPath (n : Nat) (root key : Num f) (height : Nat) (witness : Option (List (Node f n)))
  | insertPath (n : Nat) (root key value : Num f) (height : Nat)
      (witness : Option (List (Node f n)))
  | lookup (a : Arity) (v : View f a) (root key : Num f)
  | insert (a : Arity) (v : View f a) (root key value : Num f)
  | step (n : Nat) (step : Step f n) (z : List (Num f))

/-- The numbers and Booleans that a task hands on. -/
structure Yield (f : PrimeField) where
  numbers : List (Num f)
  booleans : List Boolean

structure Yield.Follows (k : Kind) (out out' : Yield f) : Prop where
  numbers : List.Forall₂ (Num.Follows k) out.numbers out'.numbers
  booleans : List.Forall₂ (Boolean.Follows k) out.booleans out'.booleans

namespace Task

def run (H : Hasher f) (ns : Path) : Task f → Synth f (Yield f)
  | number value => do
    return ⟨[← Num.alloc ns value], []⟩
  | bit value => do
    return ⟨[], [.is (← Bit.alloc ns value)]⟩
  | equal x y => do
    Circuit.equal ns x y
    return ⟨[], []⟩
  | pick condition x y => do
    return ⟨[← Circuit.pick ns condition x y], []⟩
  | select xs bits => do
    return ⟨[← Circuit.select ns xs bits], []⟩
  | nonzero x => do
    Circuit.nonzero ns x
    return ⟨[], []⟩
  | numBits x n => do
    return ⟨[], ← Circuit.numBits ns x n⟩
  | selectors bits => do
    return ⟨[], ← Circuit.selectors ns bits⟩
  | hash a children => do
    return ⟨[← hashNode H ns a children], []⟩
  | lookupPath n root key height witness => do
    let path ← Circuit.lookupPath H ns n root key height witness
    return ⟨path.leaf :: path.nodes.flatten, path.digits.flatten⟩
  | insertPath n root key value height witness => do
    return ⟨[← Circuit.insertPath H ns n root key value height witness], []⟩
  | lookup _ v root key => do
    return ⟨[← v.synthesizeLookup H ns root key], []⟩
  | insert _ v root key value => do
    return ⟨[← v.synthesizeInsert H ns root key value], []⟩
  | step _ s z => do
    return ⟨← s.synthesize H ns z, []⟩

/-- The numbers that a task starts from. -/
def numbers : Task f → List (Num f)
  | equal x y | pick _ x y => [x, y]
  | select xs _ | hash _ xs => xs
  | nonzero x | numBits x _ => [x]
  | number _ | bit _ | selectors _ => []
  | lookupPath _ root key _ _ | lookup _ _ root key => [root, key]
  | insertPath _ root key value _ _ | insert _ _ root key value => [root, key, value]
  | step _ _ z => z

def booleans : Task f → List Boolean
  | pick condition _ _ => [condition]
  | select _ bits | selectors bits => bits
  | _ => []

/-- What the task starts from was allocated with the values it has. -/
structure Valued (s : System f) (task : Task f) : Prop where
  numbers : ∀ x ∈ task.numbers, x.Valued s
  booleans : ∀ b ∈ task.booleans, b.Valued s

/-- Only a selection by as many bits as a word has stops without an error. -/
theorem returns_run (ns : Path) (task : Task f)
    (few : ∀ xs bits, task = .select xs bits → bits.length < 64) : Returns (task.run H ns) := by
  have done {α β : Type} {x : Synth f α} {g : α → β} (hx : Returns x) :
      Returns (x >>= fun r => pure (g r)) := hx.bind fun _ => stopsFor_pure _
  cases task with
  | number value => exact done (Num.stopsFor_alloc (mem_returned _) ..)
  | bit value => exact done (Bit.stopsFor_alloc (mem_returned _) ..)
  | equal x y => exact done (stopsFor_enforce ..)
  | pick c x y => exact done (stopsFor_pick (mem_returned _) ..)
  | select xs bits => exact done (returns_select ns xs (few xs bits rfl))
  | nonzero x => exact done (stopsFor_nonzero (mem_returned _) ..)
  | numBits x n => exact done (stopsFor_numBits (mem_returned _) ..)
  | selectors bits => exact done (stopsFor_selectorsFrom (mem_returned _) ..)
  | hash a children => exact done (returns_hashNode ..)
  | lookupPath n root key height witness => exact done (returns_lookupPath ..)
  | insertPath n root key value height witness =>
    exact done (returns_insertPath ..)
  | lookup a v root key => exact done (View.returns_synthesizeLookup ..)
  | insert a v root key value => exact done (View.returns_synthesizeInsert ..)
  | step n step z => exact done (returns_step ..)

/-- Two tasks start from the same places. Outside shapes all else is the same too. In a shape there
may be other nodes and slots, as long as there are as many, and numbers have no values. -/
inductive Follows (k : Kind) : Task f → Task f → Prop
  | number {value value' : Option (Element f)} (same : k ≠ .shape → value' = value) :
      Follows k (.number value) (.number value')
  | bit {value value' : Option Bool} (same : k ≠ .shape → value' = value) :
      Follows k (.bit value) (.bit value')
  | equal {x x' y y' : Num f} (hx : x.Follows k x') (hy : y.Follows k y') :
      Follows k (.equal x y) (.equal x' y')
  | pick {c c' : Boolean} {x x' y y' : Num f} (hc : c.Follows k c') (hx : x.Follows k x')
      (hy : y.Follows k y') : Follows k (.pick c x y) (.pick c' x' y')
  | select {xs xs' : List (Num f)} {bits bits' : List Boolean}
      (hxs : List.Forall₂ (Num.Follows k) xs xs')
      (hbits : List.Forall₂ (Boolean.Follows k) bits bits') :
      Follows k (.select xs bits) (.select xs' bits')
  | nonzero {x x' : Num f} (hx : x.Follows k x') : Follows k (.nonzero x) (.nonzero x')
  | numBits {x x' : Num f} (hx : x.Follows k x') (n : Nat) :
      Follows k (.numBits x n) (.numBits x' n)
  | selectors {bits bits' : List Boolean} (hbits : List.Forall₂ (Boolean.Follows k) bits bits') :
      Follows k (.selectors bits) (.selectors bits')
  | hash (a : Arity) {xs xs' : List (Num f)} (hxs : List.Forall₂ (Num.Follows k) xs xs') :
      Follows k (.hash a xs) (.hash a xs')
  | lookupPath {n height : Nat} {root root' key key' : Num f}
      {witness witness' : Option (List (Node f n))} (hroot : root.Follows k root')
      (hkey : key.Follows k key') (same : k ≠ .shape → witness' = witness)
      (fits : k = .shape → Fits height witness') :
      Follows k (.lookupPath n root key height witness) (.lookupPath n root' key' height witness')
  | insertPath {n height : Nat} {root root' key key' value value' : Num f}
      {witness witness' : Option (List (Node f n))} (hroot : root.Follows k root')
      (hkey : key.Follows k key') (hvalue : value.Follows k value')
      (same : k ≠ .shape → witness' = witness) (fits : k = .shape → Fits height witness') :
      Follows k (.insertPath n root key value height witness)
        (.insertPath n root' key' value' height witness')
  | lookup {a : Arity} (v : View f a) {root root' key key' : Num f} (hroot : root.Follows k root')
      (hkey : key.Follows k key') (unknown : k = .shape → root'.value = none) :
      Follows k (.lookup a v root key) (.lookup a v root' key')
  | insert {a : Arity} (v : View f a) {root root' key key' value value' : Num f}
      (hroot : root.Follows k root') (hkey : key.Follows k key') (hvalue : value.Follows k value')
      (unknown : k = .shape → root'.value = none) :
      Follows k (.insert a v root key value) (.insert a v root' key' value')
  | step {n : Nat} {s s' : Step f n} {z z' : List (Num f)} (height : s'.height = s.height)
      (count : s'.slots.length = s.slots.length) (same : k ≠ .shape → s'.slots = s.slots)
      (fits : k = .shape → s'.Fits) (hz : List.Forall₂ (Num.Follows k) z z') :
      Follows k (.step n s z) (.step n s' z')

variable {task task' : Task f}

/-- What succeeds does the same in a system that follows. -/
theorem Follows.mirrors {r : Yield f × System f} (h : task.Follows k task')
    (hrun : task.run H ns s = .ok r) :
    Mirrors k (task.run H ns) (task'.run H ns) (Yield.Follows k) := by
  have number {x y : Num f} (hxy : x.Follows k y) : Yield.Follows k ⟨[x], []⟩ ⟨[y], []⟩ :=
    ⟨.cons hxy .nil, .nil⟩
  cases h with
  | number same => exact (Num.mirrors_alloc ns same).bind fun _ _ h => mirrors_pure (number h)
  | bit same =>
    exact (Bit.mirrors_alloc ns same).bind fun _ _ h => mirrors_pure ⟨.nil, .cons (.is h) .nil⟩
  | equal hx hy => exact (mirrors_equal ns hx hy).bind fun _ _ _ => mirrors_pure ⟨.nil, .nil⟩
  | pick hc hx hy => exact (mirrors_pick ns hc hx hy).bind fun _ _ h => mirrors_pure (number h)
  -- A run that succeeded shows that what the circuit is built from fits it.
  | select hxs hbits =>
    obtain ⟨out, s', hselect, -⟩ := bind_eq_ok hrun
    obtain ⟨few, hlen⟩ := selectable_of_select hselect
    exact (mirrors_select ns hbits few ⟨hxs, hlen⟩).bind fun _ _ h => mirrors_pure (number h)
  | nonzero hx => exact (mirrors_nonzero ns hx).bind fun _ _ _ => mirrors_pure ⟨.nil, .nil⟩
  | numBits hx n =>
    exact (mirrors_numBits ns hx n).bind fun _ _ h => mirrors_pure ⟨.nil, h.related⟩
  | selectors hbits =>
    exact (mirrors_selectors ns hbits).bind fun _ _ h => mirrors_pure ⟨.nil, h.related⟩
  | hash a hxs =>
    obtain ⟨out, s', hhash, -⟩ := bind_eq_ok hrun
    exact (mirrors_hashNode ns a ⟨hxs, hashNode_eq_ok hhash⟩).bind
      fun _ _ h => mirrors_pure (number h)
  | lookupPath hroot hkey same fits =>
    obtain ⟨out, s', hlookup, -⟩ := bind_eq_ok hrun
    obtain ⟨a, rfl, pos, le, hfits⟩ := lookupPath_eq_ok hlookup
    apply (mirrors_lookupPath ns pos le same hfits (hfits.follows same fits) hroot hkey).bind
    intro path path' hpath
    refine mirrors_pure ⟨.cons hpath.leaf ?_, ?_⟩
    · exact List.rel_flatten (hpath.nodes.imp fun _ _ h => h.related)
    · exact List.rel_flatten (hpath.digits.imp fun _ _ h => h.related)
  | insertPath hroot hkey hvalue same fits =>
    obtain ⟨out, s', hinsert, -⟩ := bind_eq_ok hrun
    obtain ⟨path, hlookup⟩ := insertPath_eq_ok hinsert
    obtain ⟨a, rfl, pos, le, hfits⟩ := lookupPath_eq_ok hlookup
    exact (mirrors_insertPath ns pos le same hfits (hfits.follows same fits) hroot hkey hvalue).bind
      fun _ _ h => mirrors_pure (number h)
  | lookup v hroot hkey unknown =>
    obtain ⟨out, s', hlookup, -⟩ := bind_eq_ok hrun
    obtain ⟨witness, hw⟩ := View.exists_witness hlookup
    obtain ⟨witness', hw', same, fits⟩ := View.witness_follows hw hroot hkey unknown
    rw [run, run, View.synthesizeLookup_eq hw, View.synthesizeLookup_eq hw', bind_assoc, bind_assoc]
    apply (mirrors_lookupPath ns v.trie.height_pos v.trie.height_le same (View.fits_witness hw) fits
      hroot hkey).bind
    intro path path' hpath
    exact mirrors_pure (number hpath.leaf)
  | insert v hroot hkey hvalue unknown =>
    obtain ⟨out, s', hinsert, -⟩ := bind_eq_ok hrun
    obtain ⟨witness, hw⟩ := View.exists_witness hinsert
    obtain ⟨witness', hw', same, fits⟩ := View.witness_follows hw hroot hkey unknown
    rw [run, run, View.synthesizeInsert_eq hw, View.synthesizeInsert_eq hw']
    exact (mirrors_insertPath ns v.trie.height_pos v.trie.height_le same (View.fits_witness hw) fits
      hroot hkey hvalue).bind fun _ _ h => mirrors_pure (number h)
  | @step n step step' z z' height count same fits hz =>
    obtain ⟨out, s', hstep, -⟩ := bind_eq_ok hrun
    match z, z', hz with
    | [], _, _ => cases hstep
    | _ :: _ :: _, _, _ => cases hstep
    | [root], [root'], .cons hroot .nil =>
      exact (Step.mirrors_of_synthesize_eq_ok hstep height count same fits hroot).bind
        fun _ _ h => mirrors_pure ⟨h, .nil⟩

/-- The values that a task computes decide whether its constraints hold. -/
theorem Valued.decides (h : task.Valued s) : Decides H s (task.run H ns) fun _ _ => True := by
  have done {α : Type} {x : Synth f α} {Q : System f → α → Prop} {g : α → Yield f}
      (hx : Decides H s x Q) : Decides H s (x >>= fun a => pure (g a)) fun _ _ => True :=
    hx.bind fun _ _ _ _ => decides_pure trivial
  obtain ⟨numbers, booleans⟩ := h
  cases task with
  | number value => exact done Num.decides_alloc
  | bit value => exact done Bit.decides_alloc
  | equal x y =>
    obtain ⟨⟨_, hx⟩, ⟨_, hy⟩⟩ : x.Valued s ∧ y.Valued s := by simpa [Task.numbers] using numbers
    exact done (computes_equal ns hx hy).decides
  | pick c x y =>
    obtain ⟨hx, hy⟩ : x.Valued s ∧ y.Valued s := by simpa [Task.numbers] using numbers
    exact done (computes_pick_valued ns (booleans c (List.mem_singleton_self c)) hx hy).decides
  | select xs bits => exact done (decides_select booleans numbers)
  | nonzero x =>
    obtain ⟨_, hx⟩ := numbers x (List.mem_singleton_self x)
    exact done (computes_nonzero ns hx).decides
  | numBits x n =>
    obtain ⟨_, hx⟩ := numbers x (List.mem_singleton_self x)
    exact done (computes_numBits ns hx n).decides
  | selectors bits => exact done (computes_selectors ns booleans).decides
  | hash a children => exact done (decides_hashNode numbers)
  | lookupPath n root key height witness =>
    obtain ⟨hroot, hkey⟩ : root.Valued s ∧ key.Valued s := by simpa [Task.numbers] using numbers
    exact done (decides_lookupPath hroot hkey)
  | insertPath n root key value height witness =>
    obtain ⟨hroot, hkey, hvalue⟩ : root.Valued s ∧ key.Valued s ∧ value.Valued s := by
      simpa [Task.numbers] using numbers
    exact done (decides_insertPath hroot hkey hvalue)
  | lookup a v root key =>
    obtain ⟨hroot, hkey⟩ : root.Valued s ∧ key.Valued s := by simpa [Task.numbers] using numbers
    apply Decides.of_ok
    intro _ r hr
    obtain ⟨out, s', hlookup, -⟩ := bind_eq_ok hr
    obtain ⟨witness, hw⟩ := View.exists_witness hlookup
    rw [run, View.synthesizeLookup_eq hw, bind_assoc]
    exact (decides_lookupPath hroot hkey).bind fun _ _ _ _ => decides_pure trivial
  | insert a v root key value =>
    obtain ⟨hroot, hkey, hvalue⟩ : root.Valued s ∧ key.Valued s ∧ value.Valued s := by
      simpa [Task.numbers] using numbers
    apply Decides.of_ok
    intro _ r hr
    obtain ⟨out, s', hinsert, -⟩ := bind_eq_ok hr
    obtain ⟨witness, hw⟩ := View.exists_witness hinsert
    rw [run, View.synthesizeInsert_eq hw]
    exact done (decides_insertPath hroot hkey hvalue)
  | step n step z =>
    match z with
    | [] => exact .of_ok fun _ _ hr => nomatch bind_eq_ok hr
    | _ :: _ :: _ => exact .of_ok fun _ _ hr => nomatch bind_eq_ok hr
    | [root] => exact done (decides_step (numbers root (List.mem_singleton_self root)))

end Task

/-- A task that succeeds in a test system succeeds in a witness and in a shape beside it. All three
stay together: the witness has the same variables in the same order with the same values, and the
shape has the same names and the same constraints. So the values of the witness satisfy the
constraints of the shape exactly if the test system finds nothing broken. -/
theorem run_agree (H : Hasher f) (ns : Path) (s u v : System f) (h : Trio H s u v)
    (task witness shape : Task f) (hwitness : task.Follows .witness witness)
    (hshape : task.Follows .shape shape) (hv : task.Valued s) (out : Yield f) (t : System f)
    (hrun : task.run H ns s = .ok (out, t)) :
    ∃ out' u' out'' v', witness.run H ns u = .ok (out', u') ∧ shape.run H ns v = .ok (out'', v') ∧
      out.Follows .witness out' ∧ out.Follows .shape out'' ∧ Trio H t u' v' ∧
        (Satisfies H u'.assignment v'.constraints.toList ↔ t.unsatisfied? = none) := by
  obtain ⟨out', u', out'', v', hu, hv, follows, follows', trio⟩ :=
    h.run hrun (hwitness.mirrors hrun) (hshape.mirrors hrun) hv.decides
  exact ⟨out', u', out'', v', hu, hv, follows, follows', trio, trio.satisfies_iff⟩

/-- A trie without entries over the caches that hold its one node. -/
def bareSapling : View .pallasBase .binary :=
  ⟨Forest.sapling 0, Caches.empty.registerAll weigh Forest.oneLeafNodes.tail⟩

/-- A root of zero and a key and a value of one, with those values or without. -/
def rootKeyValue (kind : Kind) (value : Element .pallasBase → Option (Element .pallasBase)) :
    System .pallasBase :=
  (((System.empty kind).addVariable [.num, .root] (value 0)).addVariable [.num, .key]
    (value 1)).addVariable [.num, .value] (value 1)

theorem trio_rootKeyValue : Trio weigh (rootKeyValue .test some) (rootKeyValue .witness some)
    (rootKeyValue .shape fun _ => none) :=
  ((Trio.empty.addVariable _ 0).addVariable _ 1).addVariable _ 1

/-- The first value put into a trie satisfies the shape of its insertion. -/
theorem run_agree_sapling :
    ∃ out u out' v,
      (Task.insert .binary bareSapling ⟨0, some 0⟩ ⟨1, some 1⟩ ⟨2, some 1⟩).run weigh []
        (rootKeyValue .witness some) = .ok (out, u) ∧
      (Task.insert .binary bareSapling ⟨0, none⟩ ⟨1, none⟩ ⟨2, none⟩).run weigh []
        (rootKeyValue .shape fun _ => none) = .ok (out', v) ∧
      Satisfies weigh u.assignment v.constraints.toList := by
  have correct : bareSapling.caches.Correct weigh :=
    (Caches.grows_registerAll _).keepsCorrect Caches.faithful_empty.toCorrect
  obtain ⟨q, proved⟩ := View.insert_eq_ok Forest.insert_sapling
  have finds : (bareSapling.withRoot 0).Finds 1 q.old.nodes :=
    (View.proveInsert_eq_ok proved).2
  have hroot : (⟨0, some 0⟩ : Num .pallasBase).Known (rootKeyValue .test some) 0 := ⟨rfl, _, rfl⟩
  have hkey : (⟨1, some 1⟩ : Num .pallasBase).Known (rootKeyValue .test some) 1 := ⟨rfl, _, rfl⟩
  have hvalue : (⟨2, some 1⟩ : Num .pallasBase).Known (rootKeyValue .test some) 1 := ⟨rfl, _, rfl⟩
  have computes : Computes weigh (rootKeyValue .test some)
      (bareSapling.synthesizeInsert weigh [] ⟨0, some 0⟩ ⟨1, some 1⟩ ⟨2, some 1⟩) _ _ :=
    finds.computes_synthesizeInsert correct hroot hkey hvalue
  obtain ⟨newRoot, t, cs, hrun, he, -, hd⟩ := computes.of_run rfl
  have unbroken : t.unsatisfied? = none := by
    rw [System.unsatisfied?_eq (s := rootKeyValue .test some) rfl, System.brokenSince, he.since_eq,
      hd.not_broken_iff.mpr (by decide), Option.map_none]
  have run : (Task.insert .binary bareSapling ⟨0, some 0⟩ ⟨1, some 1⟩ ⟨2, some 1⟩).run weigh []
      (rootKeyValue .test some) = .ok (⟨[newRoot], []⟩, t) := bind_run hrun rfl
  have valued : (Task.insert .binary bareSapling ⟨0, some 0⟩ ⟨1, some 1⟩ ⟨2, some 1⟩).Valued
      (rootKeyValue .test some) := by
    refine ⟨?_, List.forall_mem_nil _⟩
    simpa [Task.numbers] using ⟨⟨_, hroot⟩, ⟨_, hkey⟩, ⟨_, hvalue⟩⟩
  have same (x : Num .pallasBase) : x.Follows .witness x := ⟨rfl, fun _ => rfl⟩
  have forgets (i : Nat) (x : Element .pallasBase) :
      (⟨i, some x⟩ : Num .pallasBase).Follows .shape ⟨i, none⟩ := ⟨rfl, fun h => absurd rfl h⟩
  obtain ⟨out, u, out', v, hu, hv, -, -, trio, agree⟩ := run_agree weigh [] _ _ _ trio_rootKeyValue
    _ _ _ (.insert bareSapling (same _) (same _) (same _) fun h => absurd h (by decide))
    (.insert bareSapling (forgets 0 0) (forgets 1 1) (forgets 2 1) fun _ => rfl)
    valued _ _ run
  refine ⟨out, u, out', v, hu, hv, agree.mpr unbroken⟩

end Circuit

end PoseidonTrie
