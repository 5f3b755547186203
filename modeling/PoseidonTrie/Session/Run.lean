import PoseidonTrie.Session.Basic

namespace PoseidonTrie

open Circuit

namespace SessionM

variable {f : PrimeField}

def info (t : AnyTrie f) : Reply f :=
  .info t.trie.height t.trie.leaves t.trie.root t.trie.emptyRoot

/-- The rows of a path, edited and cut, as nodes. -/
def pathNodes (p : PathSetup f) : SessionM f (Option (List (Node f p.arity))) := do
  let rows? ← match p.path with
    | .missing => pure none
    | .rows rows => some <$> rows.mapM (·.mapM eval)
    | .proof name => some <$> (fun p => p.proof.nodes.map (·.toList)) <$> named Session.lookups name
  let some rows := rows? | return none
  let rows ← p.edits.foldlM (fun rows (level, i, x) => do
    return rows.modify level (·.set i (← eval x))) rows
  match (rows.take (p.take.getD rows.length)).mapM (Node.ofRow? p.arity) with
  | some nodes => return some nodes
  | none => throw .malformed

/-- The circuit that allocates a root and a key. -/
def allocRootKey (root key : Element f) : Synth f (Num f × Num f) := do
  let root ← Num.alloc (← enter [] .root) (some root)
  let key ← Num.alloc (← enter [] .key) (some key)
  return (root, key)

def allocValue (value : Element f) : Synth f (Num f) := do
  Num.alloc (← enter [] .value) (some value)

/-- A lookup proof is known under its name, an insertion proof also as its two lookups. -/
def store {a : Arity} (name : String) (p : LookupProof f a) : SessionM f Unit :=
  modify fun s => { s with lookups := s.lookups.insert name ⟨a, p⟩ }

def rowsOf {a : Arity} (p : LookupProof f a) : List (List (Element f)) :=
  p.nodes.map (·.toList)

/-- Hashes a row of a supported width. -/
def hashRow (H : Hasher f) (row : List (Element f)) : SessionM f (Option (Element f)) :=
  match Arity.ofWidth? row.length with
  | none => return none
  | some a =>
    match Node.ofRow? a.width row with
    | none => return none
    | some node => some <$> onDigests false (·.hash H a node)

/-- Registers a row of a supported width, and says whether it is one. -/
def registerRow (digest : Element f) (row : List (Element f)) : SessionM f Bool :=
  match Arity.ofWidth? row.length with
  | none => return false
  | some a =>
    match Node.ofRow? a.width row with
    | none => return false
    | some node => do
      modify fun s => { s with
        caches := { s.caches with preimages := s.caches.preimages.insert a digest node } }
      return true

/-- A failure to fold is told as such. -/
def foldTrie {α : Type} (t : String)
    (op : {a : Arity} → View f a → Except (TrieError f) α × View f a) : SessionM f α :=
  tryCatch (onTrie t op) fun
    | .trie e => throw (.fold (.trie e))
    | e => throw e

def exec (H : Hasher f) : Command f → SessionM f (Reply f)
  | .create name n extent => do
    let t ← onCaches (AnyTrie.create H · n extent)
    modify fun s => { s with tries := s.tries.insert name t }
    return info t
  | .info name => return info (← named Session.tries name)
  | .rowSize name row => return .size ((← named Session.tries name).trie.rowSize row)
  | .withRoot name root => do
    let root ← eval root
    let ⟨a, t⟩ ← named Session.tries name
    modify fun s => { s with tries := s.tries.insert name ⟨a, t.withRoot root⟩ }
    return info ⟨a, t.withRoot root⟩
  | .drop name => do
    let s ← get
    set { s with tries := s.tries.erase name }
    return .flag (s.tries.contains name)
  | .assign name value => do
    let x ← eval value
    modify fun s => { s with elements := s.elements.insert name x }
    return .element (some x)
  | .lookup name key => do
    let key ← eval key
    return .element (← onTrie name fun v => (v.lookup key, v))
  | .insert name key value => do
    let key ← eval key
    let value ← eval value
    let changed ← onTrie name fun v => v.insert H key value
    return .inserted changed (← named Session.tries name).trie.root
  | .proveLookup t key name => do
    let key ← eval key
    let ⟨a, p⟩ ← onTrie t fun v => ((v.proveLookup key).map (AnyProof.mk _), v)
    store name p
    return .lookupProof (rowsOf (a := a) p)
  | .proveInsert t key value name => do
    let key ← eval key
    let value ← eval value
    let (⟨a, q⟩, changed) ← onTrie t fun v =>
      let (r, v) := v.proveInsert H key value
      (r.map fun (q, changed) => (AnyInsertProof.mk _ q, changed), v)
    modify fun s => { s with inserts := s.inserts.insert name ⟨a, q⟩ }
    store (name ++ ".old") q.old
    store (name ++ ".new") q.new
    return .insertProof changed (← named Session.tries t).trie.root (rowsOf q.old) (rowsOf q.new)
  | .payload name key => do
    let key ← eval key
    return .element ((← named Session.lookups name).proof.payload key)
  | .recomputeRoot name key fresh => do
    let key ← eval key
    let ⟨_, p⟩ ← named Session.lookups name
    return .element (← onDigests fresh (p.recomputeRoot H key))
  | .verify name root key value fresh => do
    let root ← eval root
    let key ← eval key
    let value ← eval value
    let ⟨_, p⟩ ← named Session.lookups name
    return .flag (← onDigests fresh (p.verify H root key value))
  | .verifyInsert name oldRoot newRoot key old new fresh => do
    let oldRoot ← eval oldRoot
    let newRoot ← eval newRoot
    let key ← eval key
    let old ← old.mapM eval
    let new ← eval new
    let ⟨_, q⟩ ← named Session.inserts name
    return .flag (← onDigests fresh (q.verify H oldRoot newRoot key old new))
  | .hash preimage name => do
    let digest ← hashRow H (← preimage.mapM eval)
    match name, digest with
    | some name, some d => modify fun s => { s with elements := s.elements.insert name d }
    | _, _ => pure ()
    return .element digest
  | .register digest preimage => do
    return .flag (← registerRow (← eval digest) (← preimage.mapM eval))
  | .invert digest n => do
    let digest ← eval digest
    let known := (← get).caches.preimages
    return .row ((Arity.ofWidth? n).bind fun a => (known.find? a digest).map (·.toList))
  | .counts => return .counts (← get).caches.digests.size (← get).caches.preimages.size
  | .synthesizeLookup t root key setup => do
    let root ← eval root
    let key ← eval key
    let ⟨_, trie⟩ ← named Session.tries t
    let v := View.mk trie (← get).caches
    synthesize setup (do
      let (root, key) ← allocRootKey root key
      v.synthesizeLookup H [] root key) fun x => .number x.value
  | .synthesizeInsert t root key value setup => do
    let root ← eval root
    let key ← eval key
    let value ← eval value
    let ⟨_, trie⟩ ← named Session.tries t
    let v := View.mk trie (← get).caches
    synthesize setup (do
      let (root, key) ← allocRootKey root key
      let value ← allocValue value
      v.synthesizeInsert H [] root key value) fun x => .number x.value
  | .lookupPath p setup => do
    let root ← eval p.root
    let key ← eval p.key
    let nodes ← pathNodes p
    synthesize setup (do
      let (root, key) ← allocRootKey root key
      Circuit.lookupPath H [] p.arity root key p.height nodes) fun path =>
        .path path.leaf.value (path.digits.map (·.map Boolean.value))
          (path.nodes.map (·.map Num.value))
  | .insertPath p value setup => do
    let root ← eval p.root
    let key ← eval p.key
    let value ← eval value
    let nodes ← pathNodes p
    synthesize setup (do
      let (root, key) ← allocRootKey root key
      let value ← allocValue value
      Circuit.insertPath H [] p.arity root key value p.height nodes) fun x => .number x.value
  | .fold t name pairs batch byProver => do
    let pairs ← pairs.mapM fun (key, value) => do return (← eval key, ← eval value)
    let ⟨n, steps⟩ ← foldTrie t fun v =>
      let (r, v) := if byProver then (Prover.ofBatch batch).steps H v pairs
        else v.fold H pairs batch
      (r.map (AnySteps.mk _), v)
    modify fun s => { s with steps := s.steps.insert name ⟨n, steps⟩ }
    return .folded (← named Session.tries t).trie.root (steps.map .ofStep)
  | .blank name n height slots => do
    let steps : List (Step f n) := [.blank height slots]
    modify fun s => { s with steps := s.steps.insert name ⟨n, steps⟩ }
    return .steps (steps.map .ofStep)
  | .dryRun name picked start => do
    let start ← eval start
    let ⟨_, steps⟩ ← named Session.steps name
    let some steps := picked.mapM (steps[·]?) | throw .malformed
    match PoseidonTrie.dryRun H steps start with
    | .ok root => return .element (some root)
    | .error e => throw (.fold e)
  | .synthesizeStep name index state setup => do
    let state ← state.mapM eval
    let ⟨_, steps⟩ ← named Session.steps name
    let some step := steps[index]? | throw .malformed
    synthesize setup (do
      let z ← state.zipIdx.mapM fun (x, i) => do Num.alloc (← enter [] (.state i)) (some x)
      step.synthesize H [] z) fun out => .numbers (out.map Num.value)

end SessionM

def Session.run {f : PrimeField} (H : Hasher f) (s : Session f) (c : Command f) :
    Except (Failure f) (Reply f) × Session f :=
  (SessionM.exec H c).run.run s

end PoseidonTrie
