import PoseidonTrie.Field.Basic

/-! The Grain shift register that round constants are drawn from. -/
namespace PoseidonTrie.Poseidon

/-- Eighty bits, the oldest in bit 0 of `low`, the sixteen newest in `high`. -/
structure Grain where
  low : UInt64
  high : UInt64

namespace Grain

/-- Appends a bit, dropping the oldest. -/
def push (g : Grain) (bit : UInt64) : Grain :=
  ⟨(g.low >>> 1) ||| (g.high <<< 63), (g.high >>> 1) ||| ((bit &&& 1) <<< 15)⟩

/-- Appends a number in `width` bits, most significant first. -/
def pushNat (g : Grain) (n : Nat) : (width : Nat) → Grain
  | 0 => g
  | w + 1 => (g.push (UInt64.ofNat (n >>> w))).pushNat n w

def next (g : Grain) : UInt64 × Grain :=
  let b := g.low
  let bit := ((b >>> 62) ^^^ (b >>> 51) ^^^ (b >>> 38) ^^^ (b >>> 23) ^^^ (b >>> 13) ^^^ b) &&& 1
  (bit, g.push bit)

def skip (g : Grain) : Nat → Grain
  | 0 => g
  | n + 1 => g.next.2.skip n

/-- Bits come in pairs: the second one counts if the first is set. At most `tries` pairs
are drawn. -/
def draw (g : Grain) : (tries : Nat) → UInt64 × Grain
  | 0 => (0, g)
  | n + 1 =>
    let (selected, g) := g.next
    let (bit, g) := g.next
    if selected = 1 then (bit, g) else g.draw n

/-- Continues a number by `width` drawn bits, most significant first. -/
def drawNat (g : Grain) (acc : Nat) : (width : Nat) → Nat × Grain
  | 0 => (acc, g)
  | w + 1 =>
    let (bit, g) := g.draw 256
    g.drawNat (2 * acc + bit.toNat) w

/-- A number that is not below the modulus is drawn again, at most `tries` times. -/
def drawElement (f : PrimeField) (g : Grain) : (tries : Nat) → Element f × Grain
  | 0 => (0, g)
  | n + 1 =>
    let (x, g) := g.drawNat 0 f.numBits
    if h : x < f.modulus then (⟨x, h⟩, g) else g.drawElement f n

def drawElements (f : PrimeField) (g : Grain) (acc : Array (Element f)) :
    (count : Nat) → Array (Element f)
  | 0 => acc
  | n + 1 =>
    let (x, g) := g.drawElement f 256
    g.drawElements f (acc.push x) n

/-- The register for a permutation of the given width and rounds. -/
def init (f : PrimeField) (width fullRounds partialRounds : Nat) : Grain :=
  ((((((((⟨0, 0⟩ : Grain).pushNat 1 2).pushNat 1 4).pushNat f.numBits 12).pushNat width 12).pushNat
    fullRounds 10).pushNat partialRounds 10).pushNat (2 ^ 30 - 1) 30).skip 160

end Grain

end PoseidonTrie.Poseidon
