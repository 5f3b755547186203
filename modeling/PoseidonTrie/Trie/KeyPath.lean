import PoseidonTrie.Trie.Error
import PoseidonTrie.Word

/-! Keys as paths. A key's bits are read a digit at a time, and the most significant digit picks
the root's child. -/
namespace PoseidonTrie

variable {f : PrimeField}

/-- The number whose bits are given, least significant first. -/
def natOfBits (bits : List Bool) : Nat :=
  bits.foldr (fun b rest => b.toNat + 2 * rest) 0

theorem natOfBits_lt (bits : List Bool) : natOfBits bits < 2 ^ bits.length := by
  induction bits with
  | nil => decide
  | cons b rest ih =>
    simp only [natOfBits, List.foldr_cons, List.length_cons, Nat.pow_succ] at ih ⊢
    cases b <;> simp <;> omega

/-- Digit `i` of a key, in `width` bits. Bits past the encoding read as zero. -/
def digitAt (key : Element f) (width i : Nat) : Fin (2 ^ width) :=
  let slice := (key.bits.drop (i * width)).take width
  ⟨natOfBits slice, Nat.lt_of_lt_of_le (natOfBits_lt slice)
    (Nat.pow_le_pow_right (by decide) (List.length_take_le _ _))⟩

/-- The number of key bits that a path of a height tells apart, as a word counts them. -/
def pathBits (n height : Nat) : Nat :=
  lowWord (digitBits n * height)

/-- The digits of a key from the root down. A key with a bit beyond them has no path. -/
def keyPath (n : Nat) (key : Element f) (height : Nat) :
    Except (TrieError f) (List (Fin (2 ^ digitBits n))) :=
  if (key.bits.drop (pathBits n height)).any id then
    .error (.keyOutOfRange key height)
  else
    .ok ((List.range height).reverse.map (digitAt key (digitBits n)))

def Arity.path (a : Arity) (key : Element f) (height : Nat) :
    Except (TrieError f) (List (Fin a.width)) :=
  (keyPath a.width key height).map (·.map (Fin.cast a.two_pow_digitBits))

/-- The height at which every key has a path. -/
def fullHeight (f : PrimeField) (a : Arity) : Nat :=
  f.numBits / digitBits a.width + if f.numBits % digitBits a.width = 0 then 0 else 1

def fullHeight? (f : PrimeField) (n : Nat) : Except (TrieError f) Nat :=
  (Arity.require n).map (fullHeight f)

theorem fullHeight_pos (f : PrimeField) (a : Arity) : 0 < fullHeight f a := by
  obtain ⟨n, h⟩ := a
  rcases h with rfl | rfl | rfl | rfl <;> cases f <;> decide

end PoseidonTrie
