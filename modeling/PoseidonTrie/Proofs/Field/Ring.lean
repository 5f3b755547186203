import Mathlib.Data.ZMod.Basic
import Mathlib.FieldTheory.Finite.Basic
import PoseidonTrie.Proofs.Field.Prime

/-! Elements are an integral domain: they compute as the integers modulo a prime do. What is not
zero has an inverse. -/
namespace PoseidonTrie.Element

variable {f : PrimeField}

/-- The residue class of an element. -/
def residue (x : Element f) : ZMod f.modulus :=
  x.val

theorem residue_injective : Function.Injective (residue : Element f → ZMod f.modulus) := by
  intro x y h
  rw [residue, residue, ZMod.natCast_eq_natCast_iff', Nat.mod_eq_of_lt x.val_lt,
    Nat.mod_eq_of_lt y.val_lt] at h
  exact Element.ext h

@[simp] theorem residue_ofNat (n : Nat) : (ofNat f n).residue = n :=
  ZMod.natCast_mod n f.modulus

@[simp] theorem residue_zero : (0 : Element f).residue = 0 :=
  Nat.cast_zero

@[simp] theorem residue_one : (1 : Element f).residue = 1 :=
  Nat.cast_one

@[simp] theorem residue_add (x y : Element f) : (x + y).residue = x.residue + y.residue := by
  change (ofNat f (x.val + y.val)).residue = _
  rw [residue_ofNat, Nat.cast_add]
  rfl

@[simp] theorem residue_mul (x y : Element f) : (x * y).residue = x.residue * y.residue := by
  change (ofNat f (x.val * y.val)).residue = _
  rw [residue_ofNat, Nat.cast_mul]
  rfl

@[simp] theorem residue_neg (x : Element f) : (-x).residue = -x.residue := by
  change (ofNat f (f.modulus - x.val)).residue = _
  rw [residue_ofNat, Nat.cast_sub x.val_lt.le, ZMod.natCast_self, zero_sub]
  rfl

@[simp] theorem residue_sub (x y : Element f) : (x - y).residue = x.residue - y.residue := by
  change (ofNat f (x.val + (f.modulus - y.val))).residue = _
  rw [residue_ofNat, Nat.cast_add, Nat.cast_sub y.val_lt.le, ZMod.natCast_self, zero_sub,
    ← sub_eq_add_neg]
  rfl

instance : CommRing (Element f) where
  add_assoc x y z := residue_injective (by simp [add_assoc])
  zero_add x := residue_injective (by simp)
  add_zero x := residue_injective (by simp)
  add_comm x y := residue_injective (by simp [add_comm])
  left_distrib x y z := residue_injective (by simp [mul_add])
  right_distrib x y z := residue_injective (by simp [add_mul])
  zero_mul x := residue_injective (by simp)
  mul_zero x := residue_injective (by simp)
  mul_assoc x y z := residue_injective (by simp [mul_assoc])
  one_mul x := residue_injective (by simp)
  mul_one x := residue_injective (by simp)
  mul_comm x y := residue_injective (by simp [mul_comm])
  neg_add_cancel x := residue_injective (by simp)
  sub_eq_add_neg x y := residue_injective (by simp [sub_eq_add_neg])
  nsmul := nsmulRec
  zsmul := zsmulRec

instance : NoZeroDivisors (Element f) where
  eq_zero_or_eq_zero_of_mul_eq_zero {x y} h := by
    have : Fact f.modulus.Prime := ⟨f.prime⟩
    have product : x.residue * y.residue = 0 := by
      rw [← residue_mul, h, residue_zero]
    rcases mul_eq_zero.mp product with hx | hy
    · exact Or.inl (residue_injective (hx.trans residue_zero.symm))
    · exact Or.inr (residue_injective (hy.trans residue_zero.symm))

instance : Nontrivial (Element f) :=
  ⟨0, 1, fun h => Nat.zero_ne_one (congrArg val h)⟩

theorem ofNat_add (m n : Nat) : ofNat f (m + n) = ofNat f m + ofNat f n :=
  residue_injective (by simp)

theorem residue_power (x : Element f) (n : Nat) : (x.power n).residue = x.residue ^ n := by
  induction n using Nat.strong_induction_on with
  | h n ih =>
    cases n with
    | zero => rw [power, residue_one, pow_zero]
    | succ n =>
      rw [power]
      have root := ih ((n + 1) / 2) (by omega)
      split
      · rename_i even
        rw [residue_mul, root, ← pow_add]
        congr 1
        omega
      · rename_i odd
        rw [residue_mul, residue_mul, root, ← pow_add, ← pow_succ]
        congr 1
        omega

/-- What is not zero has the inverse that Fermat's little theorem gives it. -/
theorem mul_invert? {x : Element f} (hx : x ≠ 0) : x * x.invert?.getD 0 = 1 := by
  have : Fact f.modulus.Prime := ⟨f.prime⟩
  have unit : x.residue ≠ 0 := fun h => hx (residue_injective (h.trans residue_zero.symm))
  have exponent : f.modulus - 2 + 1 = f.modulus - 1 := by
    have := f.prime.two_le
    omega
  apply residue_injective
  rw [invert?, if_neg hx, Option.getD_some, residue_mul, residue_power, ← pow_succ', exponent,
    ZMod.pow_card_sub_one_eq_one unit, residue_one]

end PoseidonTrie.Element
