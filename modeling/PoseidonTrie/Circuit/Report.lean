import PoseidonTrie.Circuit.Check

/-! Listings of a system, and fingerprints of its shape and its witness. Names inside hashes are
counted but not listed. -/
namespace PoseidonTrie.Circuit

variable {f : PrimeField}

/-- Folds a sequence into one element. -/
def fingerprint (f : PrimeField) (xs : List (Element f)) : Element f :=
  xs.foldl (fun acc x => acc * Element.ofNat f 1000003 + x) 0

/-- The FNV-1a hash of a text's bytes. -/
def textHash (text : String) : UInt64 :=
  text.toUTF8.foldl (fun h b => (h ^^^ b.toUInt64) * 0x100000001b3) 0xcbf29ce484222325

def oneName : String := "ONE"

/-- A variable's name and coefficient. -/
abbrev Term (f : PrimeField) := String × Element f

/-- A product equation with its variables named. -/
structure Row (f : PrimeField) where
  path : String
  a : List (Term f)
  b : List (Term f)
  c : List (Term f)

namespace LinComb

/-- The combination with one nonzero coefficient for each variable, the constant first. -/
def normalize (l : LinComb f) : LinComb f :=
  let rank : Var → Nat
    | .one => 0
    | .aux i => i + 1
  let sorted := l.mergeSort fun x y => rank x.1 ≤ rank y.1
  let merged := sorted.foldr (fun (v, k) rest =>
    match rest with
    | (u, j) :: rest => if u = v then (v, k + j) :: rest else (v, k) :: (u, j) :: rest
    | [] => [(v, k)]) []
  merged.filter (·.2 ≠ 0)

end LinComb

namespace System

/-- The values of the listed variables, in order of allocation. -/
def listedValues (s : System f) : List (String × Element f) :=
  s.auxes.toList.filterMap fun (path, value) =>
    if path.isInternal then none else value.map (path.text, ·)

def witnessFingerprint (s : System f) : Element f :=
  fingerprint f (s.auxes.toList.filterMap fun (path, value) =>
    if path.isInternal then none else value)

/-- Names and combinations of every listed constraint. -/
def shapeFingerprint (s : System f) : Element f :=
  let code (text : String) : Element f := Element.ofUInt64 f (textHash text)
  let codes := s.auxes.map fun (path, _) => code path.text
  let one := code oneName
  let varCode : Var → Element f
    | .one => one
    | .aux i => codes.getD i 0
  let sum (l : LinComb f) : Element f := l.foldl (fun acc (v, k) => acc + k * varCode v) 0
  let start := fingerprint f (one :: (s.auxes.zip codes).toList.filterMap fun (v, c) =>
    if v.1.isInternal then none else some c)
  s.constraints.foldl (fun acc c =>
    match c with
    | .hash .. => acc
    | .product path a b c =>
      acc * Element.ofNat f 1000003 + code path.text + Element.ofNat f 3 * sum a
        + Element.ofNat f 5 * sum b + Element.ofNat f 7 * sum c) start

def rows (s : System f) : List (Row f) :=
  let name : Var → String
    | .one => oneName
    | .aux i => match s.auxes[i]? with
      | some (path, _) => path.text
      | none => ""
  let terms (l : LinComb f) : List (Term f) := l.normalize.map fun (v, k) => (name v, k)
  s.constraints.toList.filterMap fun
    | .hash .. => none
    | .product path a b c => some ⟨path.text, terms a, terms b, terms c⟩

end System

/-- What is told of a system. Shapes have no values, and witnesses nothing but their size. -/
structure Report (f : PrimeField) where
  kind : Kind
  auxCount : Nat
  constraintCount : Nat
  unsatisfied : Option String
  shape : Element f
  witness : Element f
  /-- The listed constraints and values, if asked for. -/
  listing : Option (List (Row f) × List (String × Element f))

def System.report (s : System f) (dump : Bool) : Report f where
  kind := s.kind
  auxCount := s.auxCount
  constraintCount := s.constraintCount
  unsatisfied := if s.kind = .test then s.unsatisfied?.map Path.text else none
  shape := if s.kind = .witness then 0 else s.shapeFingerprint
  witness := if s.kind = .test then s.witnessFingerprint else 0
  listing := if dump then some (s.rows, s.listedValues) else none

end PoseidonTrie.Circuit
