import PoseidonTrie.Circuit.Boolean
import PoseidonTrie.Word

namespace PoseidonTrie.Circuit

variable {f : PrimeField}

def equal (path : Path) (a b : Num f) : Synth f Unit :=
  enforce path a.lc [(.one, 1)] b.lc

/-- Enforces that a number is not zero by its inverse. Zero is given itself as one, which fails. -/
def nonzero (ns : Path) (x : Num f) : Synth f Unit := do
  let inverse ← Num.alloc (← enter ns .inverse) (x.value.map fun v => v.invert?.getD 0)
  enforce (.numIsNonzero :: ns) x.lc inverse.lc [(.one, 1)]

/-- Number `a` if the condition is true, otherwise `b`: `(b - a) * condition = b - result`. -/
def pick (ns : Path) (condition : Boolean) (a b : Num f) : Synth f (Num f) := do
  let value := condition.value.bind fun c => if c then a.value else b.value
  let result ← Num.alloc (← enter ns .pickResult) value
  enforce (.pick :: ns) [(.aux b.index, 1), (.aux a.index, -1)] (condition.lc 1)
    [(.aux b.index, 1), (.aux result.index, -1)]
  return result

/-- Of each pair of numbers the high one if the bit is set, otherwise the low one. -/
def pickHalf (ns : Path) (round : Nat) (bit : Boolean) (low high : List (Num f)) :
    Synth f (List (Num f)) :=
  (low.zip high).zipIdx.mapM fun ((low, high), j) => do
    pick (← enter ns (.pickAt round j)) bit high low

/-- Halves the numbers by one bit after another, most significant first, and takes the first of
what is left. -/
def selectFrom (ns : Path) (round : Nat) : (bits : List Boolean) → List (Num f) → Synth f (Num f)
  | [], x :: _ => return x
  | [], [] => crash
  | bit :: bits, xs => do
    let half := xs.length / 2
    let next ← pickHalf ns round bit (xs.take half) (xs.drop half)
    selectFrom ns (round + 1) bits next

/-- The number at the index with the given bits, least significant first. There must be exactly
one for each index, as far as a word can count them. -/
def select (ns : Path) (xs : List (Num f)) (bits : List Boolean) : Synth f (Num f) :=
  if xs.length = shiftOne bits.length then
    selectFrom ns 0 bits.reverse xs
  else
    fail .unsatisfiable

/-- Two Booleans for each: whether the bit is unset besides, and whether it is set. All of the first
kind are followed by all of the second. -/
def selectorRound (ns : Path) (i : Nat) (bit : Boolean) (chosen : List Boolean) :
    Synth f (List Boolean) := do
  let pairs ← chosen.zipIdx.mapM fun (c, j) => do
    let unset ← Boolean.and (← enter ns (.bitUnset i j)) c bit.negate
    let set ← Boolean.and (← enter ns (.bitSet i j)) c bit
    return (unset, set)
  return pairs.map (·.1) ++ pairs.map (·.2)

/-- A round for each bit. The first of them is bit `i`. -/
def selectorsFrom (ns : Path) (i : Nat) : (bits chosen : List Boolean) → Synth f (List Boolean)
  | [], chosen => return chosen
  | bit :: bits, chosen => do
    let chosen ← selectorRound ns i bit chosen
    selectorsFrom ns (i + 1) bits chosen

/-- One Boolean for each index. Only the one with the given bits, least significant first,
is true. -/
def selectors (ns : Path) (bits : List Boolean) : Synth f (List Boolean) :=
  selectorsFrom ns 0 bits [.constant true]

end PoseidonTrie.Circuit
