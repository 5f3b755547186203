import PoseidonTrie.Arity
import PoseidonTrie.Poseidon.Grain

/-! The Poseidon hash of a node. The state holds a domain tag and the node's children, and the
digest is the first child's place after the last round. -/
namespace PoseidonTrie.Poseidon

variable {f : PrimeField} {t : Nat}

def fullRounds : Nat := 8

def partialRounds (t : Nat) : Nat :=
  match t with
  | 3 => 55
  | 5 => 56
  | 9 => 57
  | _ => 59

/-- The keys added in each round, and the rows of the mixing matrix. -/
structure Parameters (f : PrimeField) (t : Nat) where
  keys : List (Vector (Element f) t)
  rows : Vector (Vector (Element f) t) t

namespace Parameters

/-- Entry `i`, `j` of the matrix is the inverse of `i + j + t`. -/
def generate (f : PrimeField) (t : Nat) : Parameters f t :=
  let rounds := fullRounds + partialRounds t
  let keys := (Grain.init f t fullRounds (partialRounds t)).drawElements f #[] (t * rounds)
  let inverses := Array.ofFn fun k : Fin (2 * t) => ((Element.ofNat f (k + t)).invert?).getD 0
  { keys := (List.range rounds).map fun r => Vector.ofFn fun i => keys.getD (r * t + i) 0
    rows := Vector.ofFn fun i => Vector.ofFn fun j => inverses.getD (i + j) 0 }

end Parameters

def quintic (x : Element f) : Element f :=
  let square := x * x
  square * square * x

/-- One product sum, reduced once at the end. -/
def dot (xs ys : Vector (Element f) t) : Element f :=
  Element.ofNat f (Nat.fold t (fun i _ acc => acc + xs[i].val * ys[i].val) 0)

def mix (rows : Vector (Vector (Element f) t) t) (state : Vector (Element f) t) :
    Vector (Element f) t :=
  rows.map fun row => dot row state

/-- A full round raises every place to the fifth power, a partial round only the first. -/
def sbox (full : Bool) (state : Vector (Element f) t) : Vector (Element f) t :=
  if full then
    state.map quintic
  else
    if h : 0 < t then state.set 0 (quintic state[0]) else state

/-- The rounds in order: half of the full ones, the partial ones, the other half. -/
def permute (p : Parameters f t) (state : Vector (Element f) t) : Vector (Element f) t :=
  p.keys.zipIdx.foldl (fun state (key, r) =>
    let full := r < fullRounds / 2 || fullRounds / 2 + partialRounds t ≤ r
    mix p.rows (sbox full (Vector.zipWith (· + ·) state key))) state

/-- The digest of a node, under a tag that names its width. -/
def digest (a : Arity) (p : Parameters f (1 + a.width)) (node : Node f a.width) : Element f :=
  have : 1 < 1 + a.width := by have := a.one_lt_width; omega
  (permute p (#v[Element.ofNat f (2 ^ a.width - 1)] ++ node))[1]

/-- The parameters of the four widths, each generated when first needed. -/
structure Library (f : PrimeField) where
  two : Thunk (Parameters f (1 + 2))
  four : Thunk (Parameters f (1 + 4))
  eight : Thunk (Parameters f (1 + 8))
  sixteen : Thunk (Parameters f (1 + 16))

namespace Library

def make (f : PrimeField) : Library f where
  two := .mk fun _ => .generate f (1 + 2)
  four := .mk fun _ => .generate f (1 + 4)
  eight := .mk fun _ => .generate f (1 + 8)
  sixteen := .mk fun _ => .generate f (1 + 16)

def pallasBase : Library .pallasBase := make _
def vestaBase : Library .vestaBase := make _
def bn254Scalar : Library .bn254Scalar := make _

def ofField : (f : PrimeField) → Library f
  | .pallasBase => pallasBase
  | .vestaBase => vestaBase
  | .bn254Scalar => bn254Scalar

@[noinline] def parameters (l : Library f) (a : Arity) : Parameters f (1 + a.width) :=
  if h : a.width = 2 then h ▸ l.two.get
  else if h : a.width = 4 then h ▸ l.four.get
  else if h : a.width = 8 then h ▸ l.eight.get
  else
    have h : a.width = 16 := by have := a.supported; omega
    h ▸ l.sixteen.get

end Library

/-- Poseidon over every supported field and arity. -/
def hash (f : PrimeField) : Hasher f := fun a node =>
  digest a ((Library.ofField f).parameters a) node

end PoseidonTrie.Poseidon
