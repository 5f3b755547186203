import PoseidonTrie.Arity

namespace PoseidonTrie

inductive TrieError (f : PrimeField) where
  | missingPreimage (commitment : Element f)
  | reservedValue
  | capacityExceeded (arity height : Nat)
  | unsupportedArity (arity : Nat)
  | keyOutOfRange (key : Element f) (height : Nat)
deriving DecidableEq

def TrieError.message {f : PrimeField} : TrieError f → String
  | missingPreimage d => "no preimage is known for commitment " ++ d.hexDigits
  | reservedValue => "zero is reserved for empty leaves and cannot be inserted"
  | capacityExceeded arity height =>
    "a trie of arity " ++ toString arity ++ " cannot have height " ++ toString height
  | unsupportedArity arity => "unsupported trie arity: " ++ toString arity
  | keyOutOfRange key height =>
    "key " ++ key.hexDigits ++ " does not fit in a trie of height " ++ toString height

def Arity.require {f : PrimeField} (n : Nat) : Except (TrieError f) Arity :=
  match Arity.ofWidth? n with
  | some a => .ok a
  | none => .error (.unsupportedArity n)

end PoseidonTrie
