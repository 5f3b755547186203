import PoseidonTrie.Circuit.Check
import PoseidonTrie.Fold.Step

namespace PoseidonTrie

open Circuit

variable {f : PrimeField} {a : Arity} {n : Nat}

inductive FoldError (f : PrimeField) where
  | trie (cause : TrieError f)
  | synthesis (cause : SynthesisError)
  | unsatisfied (step : Nat) (path : Path)
deriving DecidableEq

def FoldError.message : FoldError f → String
  | trie e => "Trie error: " ++ e.message
  | synthesis e => "Synthesis error: " ++ e.message
  | unsatisfied step path =>
    "Unsatisfied constraint: step " ++ toString step ++ ": " ++ path.text

/-- A list cut into pieces of `size + 1`. Only the last may be shorter. -/
def pieces {α : Type} (size : Nat) (xs : List α) : List (List α) :=
  match xs with
  | [] => []
  | x :: rest => (x :: rest.take size) :: pieces size (rest.drop size)
termination_by xs.length
decreasing_by
  rw [List.length_drop, List.length_cons]
  omega

namespace View

/-- Whether a pair can be inserted, as far as the pair alone tells. -/
def admits (v : View f a) (key value : Element f) : Except (TrieError f) Unit :=
  if value = 0 then .error .reservedValue else (v.trie.path key).map fun _ => ()

/-- Inserts pairs in order and keeps a slot for each. -/
def insertSlots (H : Hasher f) (v : View f a) :
    List (Element f × Element f) → Except (TrieError f) (List (Slot f a.width)) × View f a
  | [] => (.ok [], v)
  | (key, value) :: pairs =>
    match v.proveInsert H key value with
    | (.error e, v) => (.error e, v)
    | (.ok (proof, _), v) =>
      let slot : Slot f a.width := ⟨some key, some value, some proof.old.nodes, some true⟩
      let (r, v) := v.insertSlots H pairs
      (r.map (slot :: ·), v)

/-- Fills up to `size` slots. Nothing is looked up if none is missing. -/
def padSlots (v : View f a) (size : Nat) (slots : List (Slot f a.width)) :
    Except (TrieError f) (List (Slot f a.width)) :=
  if slots.length < size then
    (v.proveLookup 0).map fun proof =>
      slots ++ List.replicate (size - slots.length) (.padding proof.nodes)
  else
    .ok slots

/-- One step for each group of pairs, padded to `size` slots. -/
def packSteps (H : Hasher f) (size : Nat) (v : View f a) :
    List (List (Element f × Element f)) → Except (TrieError f) (List (Step f a.width)) × View f a
  | [] => (.ok [], v)
  | pairs :: groups =>
    let oldRoot := v.trie.root
    match v.insertSlots H pairs with
    | (.error e, v) => (.error e, v)
    | (.ok slots, v) =>
      match v.padSlots size slots with
      | .error e => (.error e, v)
      | .ok slots =>
        let step : Step f a.width := ⟨v.trie.height, slots, some oldRoot, some v.trie.root⟩
        let (r, v) := v.packSteps H size groups
        (r.map (step :: ·), v)

/-- Inserts pairs and packs them into steps of `batch` slots, where zero counts as one. Every pair
is checked before the first insertion, and a failure leaves the root where it was. -/
def fold (H : Hasher f) (v : View f a) (pairs : List (Element f × Element f)) (batch : Nat) :
    Except (TrieError f) (List (Step f a.width)) × View f a :=
  match pairs.forM fun (key, value) => v.admits key value with
  | .error e => (.error e, v)
  | .ok _ =>
    let size := max batch 1
    match v.packSteps H size (pieces (size - 1) pairs) with
    | (.ok steps, v) => (.ok steps, v)
    | (.error e, after) => (.error e, ⟨after.trie.withRoot v.trie.root, after.caches⟩)

end View

/-- A prover of batches of a fixed size. -/
structure Prover where
  batch : Nat

namespace Prover

def ofBatch (batch : Nat) : Prover :=
  ⟨max batch 1⟩

def steps (H : Hasher f) (p : Prover) (v : View f a) (pairs : List (Element f × Element f)) :
    Except (TrieError f) (List (Step f a.width)) × View f a :=
  v.fold H pairs p.batch

end Prover

namespace Step

/-- Allocates a root and synthesizes one step from it. -/
def trial (H : Hasher f) (s : Step f n) (z : Element f) : Synth f (List (Num f)) := do
  let root ← Num.alloc (← enter [] (.state 0)) (some z)
  s.synthesize H [] [root]

/-- Tries a step from a root in a fresh test system. Yields the next root. -/
def check (H : Hasher f) (i : Nat) (s : Step f n) (z : Element f) :
    Except (FoldError f) (Element f) :=
  match s.trial H z (.empty .test) with
  | .error stop => .error (.synthesis stop.reported)
  | .ok (out, system) =>
    match system.unsatisfied? with
    | some path => .error (.unsatisfied i path)
    | none =>
      match out.head?.bind Num.value with
      | some z => .ok z
      | none => .error (.synthesis .assignmentMissing)

/-- Checks steps in order, of which the first is number `i`. -/
def dryRunFrom (H : Hasher f) (i : Nat) :
    (steps : List (Step f n)) → (z : Element f) → Except (FoldError f) (Element f)
  | [], z => .ok z
  | step :: steps, z => do dryRunFrom H (i + 1) steps (← step.check H i z)

end Step

/-- Checks steps in order, each from the root that the one before ends at. Yields the last root. -/
def dryRun (H : Hasher f) (steps : List (Step f n)) (z : Element f) :
    Except (FoldError f) (Element f) :=
  Step.dryRunFrom H 0 steps z

end PoseidonTrie
