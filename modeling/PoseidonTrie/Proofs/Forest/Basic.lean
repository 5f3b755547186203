import PoseidonTrie.Proofs.Fold.Packing

namespace PoseidonTrie

variable {f : PrimeField}

/-- A trie with the successful insertions that led to its root, the newest first. -/
structure Member (f : PrimeField) where
  arity : Arity
  trie : Trie f arity
  history : List (Element f × Element f)

/-- The two tries have one shape and one root. -/
def Member.SameRoot (m e : Member f) : Prop :=
  e.arity = m.arity ∧ e.trie.height = m.trie.height ∧ e.trie.root = m.trie.root

instance (m e : Member f) : Decidable (m.SameRoot e) :=
  inferInstanceAs (Decidable (_ ∧ _ ∧ _))

def Member.view (m : Member f) (c : Caches f) : View f m.arity :=
  ⟨m.trie, c⟩

/-- The member after an operation on its trie, which counts if it succeeded. -/
def Member.after {α : Type} (m : Member f) (pairs : List (Element f × Element f)) :
    Except (TrieError f) α × View f m.arity → Member f
  | (.ok _, v) => ⟨m.arity, v.trie, pairs.reverse ++ m.history⟩
  | (.error _, v) => ⟨m.arity, v.trie, m.history⟩

/-- The tries that insertions one after another pass through, with their histories. -/
def View.passes {a : Arity} (H : Hasher f) (v : View f a)
    (history : List (Element f × Element f)) :
    (pairs : List (Element f × Element f)) → List (Trie f a × List (Element f × Element f))
  | [] => []
  | (key, value) :: pairs =>
    match v.insert H key value with
    | (.error _, _) => []
    | (.ok _, v) =>
      let history := (key, value) :: history
      (v.trie, history) :: v.passes H history pairs

structure Forest (f : PrimeField) where
  caches : Caches f
  live : List (Member f)
  /-- Every trie at each root it ever held, the oldest first. -/
  held : List (Member f)

/-- What is done with one trie of a forest. -/
inductive Act (f : PrimeField) where
  | insert (key value : Element f)
  | proveInsert (key value : Element f)
  | fold (pairs : List (Element f × Element f)) (batch : Nat)
  | drop
  | reopen (root : Element f)

/-- What is done with a forest. A live trie is named by its place. -/
inductive Op (f : PrimeField) where
  | create (width : Nat) (extent : Extent)
  | act (i : Nat) (act : Act f)

namespace Forest

def empty : Forest f :=
  ⟨.empty, [], []⟩

/-- Adds a trie. -/
def plant (s : Forest f) (m : Member f) (caches : Caches f) : Forest f :=
  ⟨caches, s.live ++ [m], s.held ++ [m]⟩

/-- Puts a trie back after an operation in which it passed through others. -/
def settle (s : Forest f) (i : Nat) (m : Member f) (caches : Caches f)
    (passed : List (Member f)) : Forest f :=
  ⟨caches, s.live.set i m, s.held ++ passed ++ [m]⟩

/-- The roots that a trie passes through while pairs are folded in, none if a pair is refused
beforehand. -/
def passed (H : Hasher f) (s : Forest f) (m : Member f) (pairs : List (Element f × Element f)) :
    List (Member f) :=
  match pairs.forM fun (key, value) => (m.view s.caches).admits key value with
  | .error _ => []
  | .ok _ => ((m.view s.caches).passes H m.history pairs).map fun (t, history) =>
      ⟨m.arity, t, history⟩

/-- One act with the trie at a place. -/
def act (H : Hasher f) (s : Forest f) (i : Nat) (m : Member f) : Act f → Forest f
  | .insert key value =>
    let r := (m.view s.caches).insert H key value
    s.settle i (m.after [(key, value)] r) r.2.caches []
  | .proveInsert key value =>
    let r := (m.view s.caches).proveInsert H key value
    s.settle i (m.after [(key, value)] r) r.2.caches []
  | .fold pairs batch =>
    let r := (m.view s.caches).fold H pairs batch
    s.settle i (m.after pairs r) r.2.caches (s.passed H m pairs)
  | .drop => { s with live := s.live.eraseIdx i }
  | .reopen root =>
    -- Only a root held before is reopened, with the history of the first trie that reached it.
    match s.held.find? fun e => Member.SameRoot ⟨m.arity, m.trie.withRoot root, []⟩ e with
    | none => s
    | some e => s.settle i ⟨m.arity, m.trie.withRoot root, e.history⟩ s.caches []

def step (H : Hasher f) (s : Forest f) : Op f → Forest f
  | .create width extent =>
    match AnyTrie.create H s.caches width extent with
    | (.error _, caches) => { s with caches }
    | (.ok t, caches) => s.plant ⟨t.arity, t.trie, []⟩ caches
  | .act i act =>
    match s.live[i]? with
    | none => s
    | some m => s.act H i m act

/-- The forest after operations from empty caches. -/
def run (H : Hasher f) (ops : List (Op f)) : Forest f :=
  ops.foldl (step H) empty

end Forest

end PoseidonTrie
