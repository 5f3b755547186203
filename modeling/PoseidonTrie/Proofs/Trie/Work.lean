import PoseidonTrie.Proofs.Cache.Work
import PoseidonTrie.Trie.View

/-! What tries and proofs do with the caches, call by call. -/
namespace PoseidonTrie

variable {f : PrimeField} {a : Arity} {H : Hasher f} {c : Caches f}

/-- A result with the trie and the caches it leaves, apart. -/
def View.parts {α : Type} (r : α × View f a) : (α × Trie f a) × Caches f :=
  ((r.1, r.2.trie), r.2.caches)

/-- A result with the digests it leaves, and the same preimages. -/
def Caches.withDigests {α : Type} (c : Caches f) (r : α × DigestCache f) : α × Caches f :=
  (r.1, { c with digests := r.2 })

namespace Work

/-- The empty subtrees of the next heights over `below`, which is one of height `low`. -/
def registerEmpty (a : Arity) (low : Nat) (below : Element f) : (height : Nat) → Work f (Element f)
  | 0 => pure below
  | n + 1 => do
    let d ← register ⟨⟨a, .uniform a.width below⟩, low + 1⟩
    registerEmpty a (low + 1) d n

theorem run_registerEmpty (low n : Nat) (below : Element f) :
    (registerEmpty a low below n).run H c = c.registerEmpty H a below n := by
  induction n generalizing c low below with
  | zero => rfl
  | succ n ih =>
    rw [registerEmpty, run_bind, run_register, ih]
    rfl

def empty (a : Arity) (height : Nat) (pos : 0 < height) (le : height ≤ fullHeight f a) :
    Work f (Trie f a) := do
  let d ← registerEmpty a 0 0 height
  return ⟨d, height, d, pos, le⟩

def withHeight (a : Arity) (height : Nat) : Work f (Except (TrieError f) (Trie f a)) :=
  if h : 0 < height ∧ height ≤ fullHeight f a then
    have ⟨pos, le⟩ := h
    do return .ok (← empty a height pos le)
  else
    pure (.error (.capacityExceeded a.width height))

def createTrie (a : Arity) : Extent → Work f (Except (TrieError f) (Trie f a))
  | .full => withHeight a (fullHeight f a)
  | .height height => withHeight a height
  | .capacity size => withHeight a (heightFor a.width size 1 a.width)

def create (n : Nat) (extent : Extent) : Work f (Except (TrieError f) (AnyTrie f)) :=
  match Arity.require n with
  | .error e => pure (.error e)
  | .ok a => do return (← createTrie a extent).map (⟨a, ·⟩)

theorem run_empty (height : Nat) (pos : 0 < height) (le : height ≤ fullHeight f a) :
    (empty a height pos le).run H c = Trie.empty H c height pos le := by
  simp only [empty, run_bind, run_registerEmpty, run_pure, Trie.empty]

theorem run_withHeight (height : Nat) :
    (withHeight a height).run H c = Trie.withHeight H c height := by
  unfold withHeight Trie.withHeight
  by_cases h : 0 < height ∧ height ≤ fullHeight f a
  · rw [dif_pos h, dif_pos h]
    obtain ⟨pos, le⟩ := h
    simp only [run_bind, run_empty, run_pure]
  · rw [dif_neg h, dif_neg h]
    rfl

theorem run_createTrie (extent : Extent) :
    (createTrie a extent).run H c = Trie.create H c extent := by
  cases extent with
  | full =>
    have fits : 0 < fullHeight f a ∧ fullHeight f a ≤ fullHeight f a :=
      ⟨fullHeight_pos f a, Nat.le_refl _⟩
    rw [createTrie, run_withHeight, Trie.withHeight, dif_pos fits]
    rfl
  | height height => exact run_withHeight height
  | capacity size => exact run_withHeight _

theorem run_create (n : Nat) (extent : Extent) :
    (create n extent).run H c = AnyTrie.create H c n extent := by
  unfold create AnyTrie.create
  cases Arity.require (f := f) n with
  | error e => rfl
  | ok a => simp only [run_bind, run_createTrie, run_pure]

def descend (commitment : Element f) :
    (path : List (Fin a.width)) → Work f (Except (TrieError f) (List (Node f a.width)))
  | [] => pure (.ok [])
  | k :: path => find a commitment fun
    | none => pure (.error (.missingPreimage commitment))
    | some node => do return (← descend (node.child k) path).map (node :: ·)

@[simp] theorem run_descend (root : Element f) (path : List (Fin a.width)) :
    (descend root path).run H c = (c.preimages.descend root path, c) := by
  induction path generalizing root with
  | nil => rfl
  | cons k path ih =>
    rw [descend, run_find, PreimageCache.descend]
    cases c.preimages.find? a root with
    | none => rfl
    | some node => simp only [run_bind, ih, run_pure]

/-- The nodes over `value`, from the leaf up. The one over `steps` has their number as height. -/
def rebuild (value : Element f) :
    (steps : List (Fin a.width × Node f a.width)) → Work f (Element f × List (Node f a.width))
  | [] => pure (value, [])
  | (k, node) :: steps => do
    let (x, nodes) ← rebuild value steps
    let d ← register ⟨⟨a, node.put k x⟩, steps.length + 1⟩
    return (d, node.put k x :: nodes)

@[simp] theorem run_rebuild (value : Element f) (steps : List (Fin a.width × Node f a.width)) :
    (rebuild value steps).run H c =
      (((c.rebuild H value steps).1, (c.rebuild H value steps).2.1),
        (c.rebuild H value steps).2.2) := by
  induction steps with
  | nil => rfl
  | cons step steps ih => simp only [rebuild, run_bind, ih, run_register, run_pure, Caches.rebuild]

section Tries

variable {t : Trie f a}

def proveLookup (t : Trie f a) (key : Element f) :
    Work f (Except (TrieError f) (LookupProof f a)) :=
  match t.path key with
  | .error e => pure (.error e)
  | .ok path => do return (← descend t.root path).map (⟨·⟩)

def lookup (t : Trie f a) (key : Element f) :
    Work f (Except (TrieError f) (Option (Element f))) :=
  match t.path key with
  | .error e => pure (.error e)
  | .ok path => do
    return (← descend t.root path).map fun nodes =>
      let payload := LookupProof.payloadAt ⟨nodes⟩ path
      if payload = 0 then none else some payload

def insertAt (t : Trie f a) (path : List (Fin a.width)) (value : Element f) :
    Work f (Except (TrieError f) (InsertProof f a × Bool) × Trie f a) := do
  match ← descend t.root path with
  | .error e => return (.error e, t)
  | .ok nodes =>
    let old : LookupProof f a := ⟨nodes⟩
    if old.payloadAt path = value then
      return (.ok (⟨old, old⟩, false), t)
    else
      let (root, nodes) ← rebuild value (path.zip nodes)
      return (.ok (⟨old, ⟨nodes⟩⟩, true), t.withRoot root)

def proveInsert (t : Trie f a) (key value : Element f) :
    Work f (Except (TrieError f) (InsertProof f a × Bool) × Trie f a) :=
  if value = 0 then
    pure (.error .reservedValue, t)
  else
    match t.path key with
    | .error e => pure (.error e, t)
    | .ok path => insertAt t path value

def insert (t : Trie f a) (key value : Element f) :
    Work f (Except (TrieError f) Bool × Trie f a) := do
  let (r, t) ← proveInsert t key value
  return (r.map (·.2), t)

@[simp] theorem run_proveLookup (key : Element f) :
    (proveLookup t key).run H c = (View.proveLookup ⟨t, c⟩ key, c) := by
  rw [proveLookup, View.proveLookup]
  cases t.path key with
  | error e => rfl
  | ok path =>
    simp only [run_bind, run_descend, run_pure]
    change _ = (c.preimages.descend t.root path >>= _, c)
    cases c.preimages.descend t.root path <;> rfl

@[simp] theorem run_lookup (key : Element f) :
    (lookup t key).run H c = (View.lookup ⟨t, c⟩ key, c) := by
  rw [lookup, View.lookup]
  cases t.path key with
  | error e => rfl
  | ok path =>
    simp only [run_bind, run_descend, run_pure]
    change _ = (c.preimages.descend t.root path >>= _, c)
    cases c.preimages.descend t.root path <;> rfl

theorem run_insertAt (path : List (Fin a.width)) (value : Element f) :
    (insertAt t path value).run H c = View.parts (View.insertAt H ⟨t, c⟩ path value) := by
  simp only [insertAt, run_bind, run_descend, View.insertAt]
  cases c.preimages.descend t.root path with
  | error e => rfl
  | ok nodes =>
    by_cases same : LookupProof.payloadAt ⟨nodes⟩ path = value
    · simp only [if_pos same]
      rfl
    · simp only [if_neg same, run_bind, run_rebuild]
      rfl

@[simp] theorem run_proveInsert (key value : Element f) :
    (proveInsert t key value).run H c = View.parts (View.proveInsert H ⟨t, c⟩ key value) := by
  unfold proveInsert View.proveInsert
  split
  · rfl
  · cases hpath : t.path key with
    | error e => rfl
    | ok path => exact run_insertAt path value

@[simp] theorem run_insert (key value : Element f) :
    (insert t key value).run H c = View.parts (View.insert H ⟨t, c⟩ key value) := by
  simp only [insert, run_bind, run_proveInsert, View.insert]
  rfl

end Tries

section Proofs

def climb (node : Node f a.width) :
    (below : List (Node f a.width)) → (path : List (Fin a.width)) → Work f (Element f)
  | next :: below, k :: path => do
    let x ← climb next below path
    hash a (node.put k x) pure
  | [], _ => hash a node pure
  | _, [] => hash a node pure

def recomputeRoot (p : LookupProof f a) (key : Element f) : Work f (Option (Element f)) :=
  match a.path key p.height, p.nodes with
  | .ok path, node :: below => do return some (← climb node below path)
  | _, _ => pure none

def verify (p : LookupProof f a) (root key value : Element f) : Work f Bool :=
  if p.payload key = some value then do
    return decide ((← recomputeRoot p key) = some root)
  else
    pure false

def verifyInsert (q : InsertProof f a) (oldRoot newRoot key : Element f)
    (oldValue : Option (Element f)) (newValue : Element f) : Work f Bool :=
  if newValue = 0 ∨ q.old.height ≠ q.new.height then
    pure false
  else
    match a.path key q.old.height with
    | .error _ => pure false
    | .ok path => do
      let oldOk ← verify q.old oldRoot key (oldValue.getD 0)
      let newOk ← verify q.new newRoot key newValue
      return oldOk && newOk && q.siblingsKept path

theorem run_climb (node : Node f a.width) (below : List (Node f a.width))
    (path : List (Fin a.width)) :
    (climb node below path).run H c =
      c.withDigests (PoseidonTrie.climb H c.digests node below path) := by
  induction below generalizing node path with
  | nil => cases path <;> rfl
  | cons next below ih =>
    cases path with
    | nil => rfl
    | cons k path =>
      rw [climb, run_bind, ih]
      rfl

theorem run_recomputeRoot (p : LookupProof f a) (key : Element f) :
    (recomputeRoot p key).run H c = c.withDigests (p.recomputeRoot H key c.digests) := by
  unfold recomputeRoot LookupProof.recomputeRoot
  cases a.path key p.height with
  | error e => rfl
  | ok path =>
    cases p.nodes with
    | nil => rfl
    | cons node below =>
      simp only [run_bind, run_climb]
      rfl

theorem run_verify (p : LookupProof f a) (root key value : Element f) :
    (verify p root key value).run H c = c.withDigests (p.verify H root key value c.digests) := by
  unfold verify LookupProof.verify
  split
  · rw [run_bind, run_recomputeRoot]
    rfl
  · rfl

theorem run_verifyInsert (q : InsertProof f a) (oldRoot newRoot key : Element f)
    (oldValue : Option (Element f)) (newValue : Element f) :
    (verifyInsert q oldRoot newRoot key oldValue newValue).run H c =
      c.withDigests (q.verify H oldRoot newRoot key oldValue newValue c.digests) := by
  unfold verifyInsert InsertProof.verify
  split
  · rfl
  · cases a.path key q.old.height with
    | error e => rfl
    | ok path =>
      simp only [run_bind, run_verify]
      rfl

end Proofs

end Work

end PoseidonTrie
