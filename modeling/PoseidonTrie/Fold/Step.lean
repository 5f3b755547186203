import PoseidonTrie.Circuit.Path

/-! Folding steps. A step applies a fixed number of insertions, and its only public state is the
trie root. -/
namespace PoseidonTrie

open Circuit

variable {f : PrimeField} {n : Nat}

/-- One insertion of a step. Nothing is known of a blank one. -/
structure Slot (f : PrimeField) (n : Nat) where
  key : Option (Element f)
  value : Option (Element f)
  /-- The nodes on the key's path under the root that the slot starts from. -/
  path : Option (List (Node f n))
  /-- An inactive slot passes the root through. -/
  active : Option Bool
deriving DecidableEq

structure Step (f : PrimeField) (n : Nat) where
  height : Nat
  slots : List (Slot f n)
  oldRoot : Option (Element f)
  newRoot : Option (Element f)
deriving DecidableEq

namespace Slot

def blank : Slot f n :=
  ⟨none, none, none, none⟩

/-- A slot that inserts one at key zero, and is not active. -/
def padding (path : List (Node f n)) : Slot f n :=
  ⟨some 0, some 1, some path, some false⟩

/-- Shows one insertion, and passes on the new root if the slot is active. -/
def synthesize (H : Hasher f) (ns : Path) (height : Nat) (s : Slot f n) (root : Num f) :
    Synth f (Num f) := do
  let key ← Num.alloc (← enter ns .key) s.key
  let value ← Num.alloc (← enter ns .value) s.value
  let active ← Bit.alloc (← enter ns .active) s.active
  let newRoot ← insertPath H (← enter ns .insert) n root key value height s.path
  pick (← enter ns .nextRoot) (.is active) newRoot root

/-- Shows slots in order, the first of them at place `i`. -/
def synthesizeFrom (H : Hasher f) (ns : Path) (height i : Nat) :
    (slots : List (Slot f n)) → (root : Num f) → Synth f (Num f)
  | [], root => return root
  | slot :: slots, root => do
    let next ← slot.synthesize H (← enter ns (.slot i)) height root
    synthesizeFrom H ns height (i + 1) slots next

end Slot

namespace Step

/-- The number of public values that a step maps to as many. -/
def stateSize (_ : Step f n) : Nat := 1

/-- A step with a shape and no witness. -/
def blank (height slots : Nat) : Step f n :=
  ⟨height, List.replicate slots .blank, none, none⟩

/-- Shows the slots in order. The state is the root alone. -/
def synthesize (H : Hasher f) (ns : Path) (s : Step f n) (z : List (Num f)) :
    Synth f (List (Num f)) :=
  match z with
  | [root] => do
    let last ← Slot.synthesizeFrom H ns s.height 0 s.slots root
    return [last]
  | _ => fail .unsatisfiable

end Step

end PoseidonTrie
