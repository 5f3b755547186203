import PoseidonTrie.Word

/-! The prime fields a trie is keyed and committed over, and arithmetic on their elements. -/
namespace PoseidonTrie

/-- The supported fields. Each is wider than 64 bits and narrower than 256. -/
inductive PrimeField where
  | pallasBase
  | vestaBase
  | bn254Scalar
deriving DecidableEq

namespace PrimeField

def modulus : PrimeField → Nat
  | pallasBase => 0x40000000000000000000000000000000224698fc094cf91b992d30ed00000001
  | vestaBase => 0x40000000000000000000000000000000224698fc0994a8dd8c46eb2100000001
  | bn254Scalar => 0x30644e72e131a029b85045b68181585d2833e84879b9709143e1f593f0000001

/-- The length of the modulus in binary. -/
def numBits (f : PrimeField) : Nat :=
  f.modulus.log2 + 1

def numBytes (_ : PrimeField) : Nat :=
  32

theorem one_lt_modulus (f : PrimeField) : 1 < f.modulus := by
  cases f <;> decide

theorem modulus_pos (f : PrimeField) : 0 < f.modulus :=
  Nat.lt_trans Nat.zero_lt_one f.one_lt_modulus

end PrimeField

/-- A field element, held as its canonical representative. -/
structure Element (f : PrimeField) where
  val : Nat
  val_lt : val < f.modulus
deriving DecidableEq

namespace Element

variable {f : PrimeField}

instance : Hashable (Element f) where
  hash x := hash x.val

@[ext] theorem ext {x y : Element f} (h : x.val = y.val) : x = y := by
  cases x; cases y; simp_all

def ofNat (f : PrimeField) (n : Nat) : Element f :=
  ⟨n % f.modulus, Nat.mod_lt _ f.modulus_pos⟩

instance (priority := high) : Zero (Element f) := ⟨⟨0, f.modulus_pos⟩⟩
instance (priority := high) : One (Element f) := ⟨⟨1, f.one_lt_modulus⟩⟩
instance : Inhabited (Element f) := ⟨0⟩
instance (priority := high) : Add (Element f) := ⟨fun x y => ofNat f (x.val + y.val)⟩
instance (priority := high) : Mul (Element f) := ⟨fun x y => ofNat f (x.val * y.val)⟩
instance (priority := high) : Neg (Element f) := ⟨fun x => ofNat f (f.modulus - x.val)⟩
instance (priority := high) : Sub (Element f) := ⟨fun x y => ofNat f (x.val + (f.modulus - y.val))⟩

@[simp] theorem val_zero : (0 : Element f).val = 0 := rfl
@[simp] theorem val_one : (1 : Element f).val = 1 := rfl
@[simp] theorem val_ofNat (n : Nat) : (ofNat f n).val = n % f.modulus := rfl
theorem val_add (x y : Element f) : (x + y).val = (x.val + y.val) % f.modulus := rfl
theorem val_mul (x y : Element f) : (x * y).val = x.val * y.val % f.modulus := rfl
theorem val_neg (x : Element f) : (-x).val = (f.modulus - x.val) % f.modulus := rfl
theorem val_sub (x y : Element f) :
    (x - y).val = (x.val + (f.modulus - y.val)) % f.modulus := rfl

/-- An integer reduced into the field. -/
def ofInt (f : PrimeField) : Int → Element f
  | .ofNat n => ofNat f n
  | .negSucc n => -ofNat f (n + 1)

def power (x : Element f) : Nat → Element f
  | 0 => 1
  | n + 1 =>
    let root := power x ((n + 1) / 2)
    if (n + 1) % 2 = 0 then root * root else root * root * x
termination_by n => n
decreasing_by omega

/-- The inverse by Fermat's little theorem. Zero has none. -/
def invert? (x : Element f) : Option (Element f) :=
  if x = 0 then none else some (x.power (f.modulus - 2))

end Element

end PoseidonTrie
