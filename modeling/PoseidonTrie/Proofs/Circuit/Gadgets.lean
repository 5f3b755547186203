import PoseidonTrie.Circuit.Choice
import PoseidonTrie.Proofs.Circuit.Forces
import PoseidonTrie.Proofs.Field.Ring

/-! What the small gadgets force: bits are bits, Boolean operations are those of their values, and
a number picked, compared, inverted or hashed is what it should be. -/
namespace PoseidonTrie.Circuit

variable {f : PrimeField} {H : Hasher f} {w : Assignment f} {x y : Bool}

namespace LinComb

@[simp] theorem eval_nil : LinComb.eval w [] = 0 := rfl

@[simp] theorem eval_cons (v : Var) (k : Element f) (l : LinComb f) :
    LinComb.eval w ((v, k) :: l) = k * v.eval w + LinComb.eval w l := rfl

theorem eval_append (l l' : LinComb f) :
    LinComb.eval w (l ++ l') = LinComb.eval w l + LinComb.eval w l' := by
  induction l with
  | nil => rw [List.nil_append, eval_nil, zero_add]
  | cons term l ih => rw [List.cons_append, eval_cons, eval_cons, ih, add_assoc]

@[simp] theorem eval_ofAux (i : Nat) : LinComb.eval w (.ofAux i) = w i := by
  simp [ofAux, Var.eval]

end LinComb

@[simp] theorem Var.eval_one : Var.eval w .one = 1 := rfl

@[simp] theorem Var.eval_aux (i : Nat) : Var.eval w (.aux i) = w i := rfl

@[simp] theorem ofBool_true : ofBool f true = 1 := rfl

@[simp] theorem ofBool_false : ofBool f false = 0 := rfl

theorem ofBool_and : ofBool f x * ofBool f y = ofBool f (x && y) := by
  cases x <;> cases y <;> simp

/-- A number that its complement times itself makes zero is a bit. -/
theorem exists_ofBool {b : Element f} (h : (1 - b) * b = 0) : ∃ v, b = ofBool f v := by
  rcases mul_eq_zero.mp h with h | h
  · exact ⟨true, (sub_eq_zero.mp h).symm⟩
  · exact ⟨false, h⟩

namespace Bit

/-- The assignment gives the bit a value. -/
def Reads (w : Assignment f) (b : Bit) (v : Bool) : Prop :=
  w b.index = ofBool f v

variable {a b : Bit}

theorem Reads.lc (h : b.Reads w x) : LinComb.eval w b.lc = ofBool f x := by
  rw [Bit.lc, LinComb.eval_ofAux, h]

theorem Reads.complement (h : b.Reads w x) :
    LinComb.eval w b.complement = ofBool f (!x) := by
  have value : LinComb.eval w b.complement = 1 - w b.index := by
    simp [Bit.complement, sub_eq_add_neg]
  rw [value, h]
  cases x <;> simp

theorem forces_alloc (ns : Path) (value : Option Bool) :
    Forces H (Bit.alloc ns value) fun w b => ∃ v, b.Reads w v := by
  apply Forces.bind (Circuit.forces_alloc ..)
  rintro ⟨index, _⟩
  apply Forces.bind (forces_enforce ..)
  intro _
  apply forces_pure
  intro w h _
  apply exists_ofBool
  simpa [sub_eq_add_neg] using h

/-- Beside a guard that is one, a bit is zero. -/
theorem forces_allocUnless (ns : Path) (value : Option Bool) (guard : Bit) :
    Forces H (Bit.allocUnless ns value guard) fun w b =>
      ∀ g, guard.Reads w g → ∃ v, b.Reads w v ∧ (g = true → v = false) := by
  apply Forces.bind (Circuit.forces_alloc ..)
  rintro ⟨index, _⟩
  apply Forces.bind (forces_enforce ..)
  intro _
  apply forces_pure
  intro w h _ g hg
  simp only [LinComb.eval_cons, LinComb.eval_nil, LinComb.eval_ofAux, Var.eval_one, Var.eval_aux,
    show w guard.index = ofBool f g from hg] at h
  cases g with
  | false =>
    obtain ⟨v, hv⟩ := exists_ofBool (b := w index) (by simpa [sub_eq_add_neg] using h)
    exact ⟨v, hv, fun hf => nomatch hf⟩
  | true =>
    have square : w index * w index = 0 := by simpa using h
    exact ⟨false, mul_self_eq_zero.mp square, fun _ => rfl⟩

theorem forces_product (result constraint : Path) (value : Option Bool) (l l' : LinComb f) :
    Forces H (product result constraint value l l') fun w b =>
      ∀ x y, LinComb.eval w l = ofBool f x → LinComb.eval w l' = ofBool f y →
        b.Reads w (x && y) := by
  apply Forces.bind (Circuit.forces_alloc ..)
  rintro ⟨index, _⟩
  apply Forces.bind (forces_enforce ..)
  intro _
  apply forces_pure
  intro w h _ x y hx hy
  rw [hx, hy, ofBool_and, LinComb.eval_ofAux] at h
  exact h.symm

theorem forces_and (ns : Path) (a b : Bit) :
    Forces H (Bit.and (f := f) ns a b) fun w r =>
      ∀ x y, a.Reads w x → b.Reads w y → r.Reads w (x && y) :=
  (forces_product ..).mono fun _ _ h x y hx hy => h x y hx.lc hy.lc

theorem forces_andNot (ns : Path) (a b : Bit) :
    Forces H (Bit.andNot (f := f) ns a b) fun w r =>
      ∀ x y, a.Reads w x → b.Reads w y → r.Reads w (x && !y) :=
  (forces_product ..).mono fun _ _ h x y hx hy => h x (!y) hx.lc hy.complement

theorem forces_nor (ns : Path) (a b : Bit) :
    Forces H (Bit.nor (f := f) ns a b) fun w r =>
      ∀ x y, a.Reads w x → b.Reads w y → r.Reads w (!x && !y) :=
  (forces_product ..).mono fun _ _ h x y hx hy => h (!x) (!y) hx.complement hy.complement

theorem forces_andFrom (ns : Path) (k : Nat) (first : Bit) (rest : List Bit) :
    Forces H (Bit.andFrom (f := f) ns k first rest) fun w r =>
      ∀ x ys, first.Reads w x → List.Forall₂ (Bit.Reads w) rest ys →
        r.Reads w (x && ys.all id) := by
  induction rest generalizing k first with
  | nil =>
    apply forces_pure
    intro w x ys hx hys
    cases hys
    simpa using hx
  | cons b rest ih =>
    apply Forces.bind (forces_enter ..)
    intro ns'
    apply Forces.bind (forces_and ns' first b)
    intro joined
    apply (ih (k + 1) joined).mono
    intro w r hrest hjoin _ x ys hx hys
    cases hys with
    | cons hy hys =>
      rw [List.all_cons, ← Bool.and_assoc]
      exact hrest _ _ (hjoin x _ hx hy) hys

theorem forces_andAll (ns : Path) (first : Bit) (rest : List Bit) :
    Forces H (Bit.andAll (f := f) ns first rest) fun w r =>
      ∀ x ys, first.Reads w x → List.Forall₂ (Bit.Reads w) rest ys →
        r.Reads w (x && ys.all id) :=
  forces_andFrom ns 1 first rest

end Bit

namespace Boolean

/-- The assignment gives the Boolean a value. -/
def Reads (w : Assignment f) : Boolean → Bool → Prop
  | is b, x => b.Reads w x
  | not b, x => b.Reads w !x
  | constant c, x => c = x

variable {a b : Boolean}

theorem Reads.negate (h : b.Reads w x) : b.negate.Reads w !x := by
  cases b with
  | is b =>
    change b.Reads w !!x
    rwa [Bool.not_not]
  | not b => exact h
  | constant c => exact congrArg _ h

theorem Reads.lc (h : b.Reads w x) (k : Element f) :
    LinComb.eval w (b.lc k) = k * ofBool f x := by
  cases b with
  | is b =>
    have value : w b.index = ofBool f x := h
    simp [Boolean.lc, value]
  | not b =>
    have value : w b.index = ofBool f !x := h
    cases x <;> simp [Boolean.lc, value]
  | constant c =>
    obtain rfl : c = x := h
    cases c <;> simp [Boolean.lc]

theorem forces_and (ns : Path) (a b : Boolean) :
    Forces H (Boolean.and (f := f) ns a b) fun w r =>
      ∀ x y, a.Reads w x → b.Reads w y → r.Reads w (x && y) := by
  unfold Boolean.and
  split
  · apply forces_pure
    rintro w x y rfl _
    rfl
  · apply forces_pure
    rintro w x y _ rfl
    exact (Bool.and_false x).symm
  · apply forces_pure
    rintro w x y rfl hy
    exact hy
  · apply forces_pure
    rintro w x y hx rfl
    rwa [Bool.and_true]
  · apply Forces.bind (Bit.forces_andNot ..)
    intro r
    apply forces_pure
    intro w h x y hx hy
    have both := h x (!y) hx hy
    rwa [Bool.not_not] at both
  · apply Forces.bind (Bit.forces_andNot ..)
    intro r
    apply forces_pure
    intro w h x y hx hy
    have both := h y (!x) hy hx
    rwa [Bool.not_not, Bool.and_comm] at both
  · apply Forces.bind (Bit.forces_nor ..)
    intro r
    apply forces_pure
    intro w h x y hx hy
    have both := h (!x) (!y) hx hy
    rwa [Bool.not_not, Bool.not_not] at both
  · apply Forces.bind (Bit.forces_and ..)
    intro r
    apply forces_pure
    intro w h x y hx hy
    exact h x y hx hy

end Boolean

end PoseidonTrie.Circuit
