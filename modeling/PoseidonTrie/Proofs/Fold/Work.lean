import PoseidonTrie.Fold.Run
import PoseidonTrie.Proofs.Trie.Work

namespace PoseidonTrie

variable {f : PrimeField} {a : Arity} {H : Hasher f} {c : Caches f} {t : Trie f a}

namespace Work

def insertSlots (t : Trie f a) :
    List (Element f × Element f) →
      Work f (Except (TrieError f) (List (Slot f a.width)) × Trie f a)
  | [] => pure (.ok [], t)
  | (key, value) :: pairs => do
    match ← proveInsert t key value with
    | (.error e, t) => return (.error e, t)
    | (.ok (proof, _), t) =>
      let slot : Slot f a.width := ⟨some key, some value, some proof.old.nodes, some true⟩
      let (r, t) ← insertSlots t pairs
      return (r.map (slot :: ·), t)

def padSlots (t : Trie f a) (size : Nat) (slots : List (Slot f a.width)) :
    Work f (Except (TrieError f) (List (Slot f a.width))) :=
  if slots.length < size then do
    return (← proveLookup t 0).map fun proof =>
      slots ++ List.replicate (size - slots.length) (.padding proof.nodes)
  else
    pure (.ok slots)

def packSteps (size : Nat) (t : Trie f a) :
    List (List (Element f × Element f)) →
      Work f (Except (TrieError f) (List (Step f a.width)) × Trie f a)
  | [] => pure (.ok [], t)
  | pairs :: groups => do
    let oldRoot := t.root
    match ← insertSlots t pairs with
    | (.error e, t) => return (.error e, t)
    | (.ok slots, t) =>
      match ← padSlots t size slots with
      | .error e => return (.error e, t)
      | .ok slots =>
        let step : Step f a.width := ⟨t.height, slots, some oldRoot, some t.root⟩
        let (r, t) ← packSteps size t groups
        return (r.map (step :: ·), t)

/-- The pairs are checked without a call. -/
def fold (t : Trie f a) (pairs : List (Element f × Element f)) (batch : Nat) :
    Work f (Except (TrieError f) (List (Step f a.width)) × Trie f a) :=
  match pairs.forM fun (key, value) => View.admits ⟨t, .empty⟩ key value with
  | .error e => pure (.error e, t)
  | .ok _ => do
    match ← packSteps (max batch 1) t (pieces (max batch 1 - 1) pairs) with
    | (.ok steps, t) => return (.ok steps, t)
    | (.error e, after) => return (.error e, after.withRoot t.root)

@[simp] theorem run_insertSlots (pairs : List (Element f × Element f)) :
    (insertSlots t pairs).run H c = View.parts (View.insertSlots H ⟨t, c⟩ pairs) := by
  induction pairs generalizing t c with
  | nil => rfl
  | cons pair pairs ih =>
    obtain ⟨key, value⟩ := pair
    simp only [insertSlots, run_bind, run_proveInsert, View.insertSlots]
    rcases View.proveInsert H ⟨t, c⟩ key value with ⟨e | r, v⟩
    · rfl
    · simp only [View.parts, run_bind, ih]
      rfl

@[simp] theorem run_padSlots (size : Nat) (slots : List (Slot f a.width)) :
    (padSlots t size slots).run H c = (View.padSlots ⟨t, c⟩ size slots, c) := by
  unfold padSlots View.padSlots
  split
  · rw [run_bind, run_proveLookup]
    rfl
  · rfl

@[simp] theorem run_packSteps (size : Nat) (groups : List (List (Element f × Element f))) :
    (packSteps size t groups).run H c = View.parts (View.packSteps H size ⟨t, c⟩ groups) := by
  induction groups generalizing t c with
  | nil => rfl
  | cons pairs groups ih =>
    simp only [packSteps, run_bind, run_insertSlots, View.packSteps]
    rcases View.insertSlots H ⟨t, c⟩ pairs with ⟨e | slots, v⟩
    · rfl
    · simp only [View.parts, run_bind, run_padSlots]
      cases v.padSlots size slots with
      | error e => rfl
      | ok slots =>
        simp only [run_bind, ih]
        rfl

@[simp] theorem run_fold (pairs : List (Element f × Element f)) (batch : Nat) :
    (fold t pairs batch).run H c = View.parts (View.fold H ⟨t, c⟩ pairs batch) := by
  have checks : (fun (key, value) => View.admits ⟨t, c⟩ key value) =
      fun (key, value) => View.admits ⟨t, .empty⟩ key value := rfl
  rw [fold, View.fold, checks]
  cases pairs.forM fun (key, value) => View.admits ⟨t, .empty⟩ key value with
  | error e => rfl
  | ok _ =>
    simp only [run_bind, run_packSteps]
    rcases View.packSteps H (max batch 1) ⟨t, c⟩ (pieces (max batch 1 - 1) pairs) with
      ⟨e | steps, v⟩ <;> rfl

end Work

end PoseidonTrie
