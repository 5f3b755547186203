import PoseidonTrie.Circuit.Boolean

namespace PoseidonTrie.Circuit

variable {f : PrimeField}

/-- The combination of bits with their powers of two, least significant first. -/
def weighted (bits : List Boolean) : LinComb f :=
  bits.zipIdx.flatMap fun (b, i) => b.lc (Element.ofNat f (2 ^ i))

/-- A bit that must be zero if a guard is there and is one. -/
def allocGuarded (ns : Path) (value : Option Bool) : (guard : Option Bit) → Synth f Bit
  | some guard => Bit.allocUnless ns value guard
  | none => Bit.alloc ns value

/-- Joins a run of ones, which ends at bit `i`, to the guard for the bits above it. -/
def joinRun (ns : Path) (i : Nat) (last : Option Bit) : (run : List Bit) → Synth f (Option Bit)
  | [] => return last
  | b :: rest => return some (← Bit.andAll (← enter ns (.runEnding i)) b (rest ++ last.toList))

/-- Bits `pos - 1` down to 0 of a number that is to be at most the largest element, returned
least significant first. `run` holds the bits allocated since that element's last zero, and `last`
is set only if the bits above `run` all equal its own. A bit that would exceed it must be zero. -/
def strictBitsBelow (ns : Path) (value : Option (Element f)) (last : Option Bit) (run : List Bit) :
    (pos : Nat) → Synth f (List Bit)
  | 0 => return []
  | pos + 1 => do
    let i := f.numBits - 1 - pos
    let v := value.map (·.val.testBit pos)
    if (f.modulus - 1).testBit pos then
      let b ← Bit.alloc (← enter ns (.bit i)) v
      return (← strictBitsBelow ns value last (run ++ [b]) pos) ++ [b]
    else
      let last ← joinRun ns i last run
      let b ← allocGuarded (← enter ns (.bit i)) v last
      return (← strictBitsBelow ns value last [] pos) ++ [b]

/-- The bits of the canonical representative, least significant first. -/
def strictBits (ns : Path) (x : Num f) : Synth f (List Boolean) := do
  let bits ← strictBitsBelow ns x.value none [] f.numBits
  let bits := bits.map Boolean.is
  enforce (.unpackingConstraint :: ns) [] [] (weighted bits ++ [(.aux x.index, -1)])
  return bits

/-- The lowest bits of a number, least significant first. -/
def allocBits (ns : Path) (x : Num f) (n : Nat) : Synth f (List Boolean) :=
  (List.range n).mapM fun i => do
    let b ← Bit.alloc (← enter ns (.bit i)) (x.value.map (·.val.testBit i))
    return Boolean.is b

/-- The bits of a number below `2 ^ n`, least significant first. If every element is, they are
canonical and padded with zeros. -/
def numBits (ns : Path) (x : Num f) (n : Nat) : Synth f (List Boolean) := do
  if f.numBits ≤ n then
    let bits ← strictBits (← enter ns .strictBits) x
    return bits ++ List.replicate (n - f.numBits) (.constant false)
  else
    let bits ← allocBits ns x n
    enforce (.packBits :: ns) (weighted bits) [(.one, 1)] x.lc
    return bits

end PoseidonTrie.Circuit
