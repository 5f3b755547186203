import PoseidonTrie.Session.Command

/-! Sessions: named tries, elements, proofs and steps over one pair of caches. -/
namespace PoseidonTrie

open Circuit

structure AnyProof (f : PrimeField) where
  arity : Arity
  proof : LookupProof f arity

structure AnyInsertProof (f : PrimeField) where
  arity : Arity
  proof : InsertProof f arity

structure AnySteps (f : PrimeField) where
  width : Nat
  steps : List (Step f width)

structure Session (f : PrimeField) where
  caches : Caches f
  tries : Std.HashMap String (AnyTrie f)
  elements : Std.HashMap String (Element f)
  lookups : Std.HashMap String (AnyProof f)
  inserts : Std.HashMap String (AnyInsertProof f)
  steps : Std.HashMap String (AnySteps f)

variable {f : PrimeField}

def Session.empty : Session f :=
  ⟨.empty, ∅, ∅, ∅, ∅, ∅⟩

/-- Commands keep what they changed before they failed. -/
abbrev SessionM (f : PrimeField) := ExceptT (Failure f) (StateM (Session f))

namespace SessionM

/-- What a name stands for. -/
def named {α : Type} (table : Session f → Std.HashMap String α) (name : String) :
    SessionM f α := do
  match (table (← get))[name]? with
  | some x => return x
  | none => throw .malformed

/-- A step on the caches that may fail. -/
def onCaches {α : Type} (op : Caches f → Except (TrieError f) α × Caches f) : SessionM f α := do
  let s ← get
  let (r, caches) := op s.caches
  set { s with caches }
  match r with
  | .ok x => return x
  | .error e => throw (.trie e)

/-- A step on a named trie, which is put back whether it fails or not. -/
def onTrie {α : Type} (name : String)
    (op : {a : Arity} → View f a → Except (TrieError f) α × View f a) : SessionM f α := do
  let ⟨a, trie⟩ ← named Session.tries name
  let s ← get
  let (r, v) := op ⟨trie, s.caches⟩
  set { s with caches := v.caches, tries := s.tries.insert name ⟨a, v.trie⟩ }
  match r with
  | .ok x => return x
  | .error e => throw (.trie e)

/-- A step on the digests, or on none if `fresh`. -/
def onDigests {α : Type} (fresh : Bool) (op : DigestCache f → α × DigestCache f) :
    SessionM f α := do
  if fresh then
    return (op .empty).1
  else
    let s ← get
    let (x, digests) := op s.caches.digests
    set { s with caches := { s.caches with digests } }
    return x

def eval : Operand f → SessionM f (Element f)
  | .literal x => return x
  | .rootOf t => return (← named Session.tries t).trie.root
  | .emptyRootOf t => return (← named Session.tries t).trie.emptyRoot
  | .variable name => named Session.elements name

/-- Runs a circuit in a fresh system and reports on it. -/
def synthesize {α : Type} (setup : Setup) (circuit : Synth f α) (output : α → Output f) :
    SessionM f (Reply f) := do
  match circuit (.empty setup.kind) with
  | .ok (x, system) => return .circuit (output x) (system.report setup.dump)
  | .error stop => throw (.synthesis stop.reported)

end SessionM

end PoseidonTrie
