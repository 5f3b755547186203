import PoseidonTrie.Circuit.Decompose
import PoseidonTrie.Proofs.Bits
import PoseidonTrie.Proofs.Circuit.Gadgets

/-! The bits of a number are forced to be those of its canonical representative, whether they are
too few to reach the modulus or held below it one by one. -/
namespace PoseidonTrie

variable {f : PrimeField}

namespace PrimeField

theorem modulus_lt (f : PrimeField) : f.modulus < 2 ^ f.numBits :=
  Nat.lt_log2_self

theorem two_pow_le_modulus {n : Nat} (h : n < f.numBits) : 2 ^ n ≤ f.modulus :=
  (Nat.pow_le_pow_right Nat.two_pos (Nat.le_of_lt_succ h)).trans
    (Nat.log2_self_le f.modulus_pos.ne')

theorem testBit_top (f : PrimeField) : (f.modulus - 1).testBit (f.numBits - 1) = true := by
  cases f <;> decide +kernel

end PrimeField

namespace Circuit

variable {H : Hasher f} {w : Assignment f}

theorem ofNat_mul_ofBool (n : Nat) (x : Bool) :
    Element.ofNat f n * ofBool f x = Element.ofNat f (n * x.toNat) := by
  cases x with
  | false =>
    rw [ofBool_false, mul_zero, Bool.toNat_false, Nat.mul_zero]
    rfl
  | true => rw [ofBool_true, mul_one, Bool.toNat_true, Nat.mul_one]

theorem eval_weightedFrom (k : Nat) {bits : List Boolean} {vs : List Bool}
    (h : List.Forall₂ (Boolean.Reads w) bits vs) :
    LinComb.eval w ((bits.zipIdx k).flatMap fun (b, i) => b.lc (Element.ofNat f (2 ^ i))) =
      Element.ofNat f (2 ^ k * natOfBits vs) := by
  induction h generalizing k with
  | nil => rfl
  | @cons b v bits vs hb _ ih =>
    rw [List.zipIdx_cons, List.flatMap_cons, LinComb.eval_append, ih, hb.lc, ofNat_mul_ofBool,
      ← Element.ofNat_add, natOfBits_cons, Nat.pow_succ]
    congr 1
    rw [Nat.mul_add, Nat.mul_assoc]

theorem eval_weighted {bits : List Boolean} {vs : List Bool}
    (h : List.Forall₂ (Boolean.Reads w) bits vs) :
    LinComb.eval w (weighted bits) = Element.ofNat f (natOfBits vs) := by
  have := eval_weightedFrom 0 h
  rwa [Nat.pow_zero, Nat.one_mul] at this

theorem val_of_eq_ofNat {x : Element f} {n : Nat} (h : x = Element.ofNat f n)
    (hn : n < f.modulus) : x.val = n := by
  rw [h, Element.val_ofNat, Nat.mod_eq_of_lt hn]

/-- What stands for the bits above, if anything does, has a value. -/
def ReadsGuard (w : Assignment f) : Option Bit → Bool → Prop
  | none, x => x = true
  | some b, x => b.Reads w x

/-- The bits allocated down to a place denote at most what the bits of `m` down to it do, and
`last` with `run` tells whether they are the same. -/
structure Bounded (w : Assignment f) (m n : Nat) (last : Option Bit) (run : List Bit)
    (pos : Nat) : Prop where
  le : n ≤ m >>> pos
  tight : ∃ x xs, ReadsGuard w last x ∧ List.Forall₂ (Bit.Reads w) run xs ∧
    ((x && xs.all id) = true ↔ n = m >>> pos)
  /-- Nothing is known of the bits above only at the start, and `m` starts with a one. -/
  start : last = none → run = [] → 0 < pos → m.testBit (pos - 1) = true

theorem shiftRight_eq (m pos : Nat) :
    m >>> pos = 2 * (m >>> (pos + 1)) + (m.testBit pos).toNat := by
  rw [Nat.shiftRight_succ, Nat.testBit, Nat.one_and_eq_mod_two]
  have := Nat.mod_two_eq_zero_or_one (m >>> pos)
  rcases this with h | h <;> simp [h] <;> omega

namespace Bounded

variable {m n pos : Nat} {last : Option Bit} {run : List Bit} {b : Bit} {v : Bool}

/-- Under a one of `m` any bit may follow. -/
theorem under_one (h : Bounded w m n last run (pos + 1)) (hm : m.testBit pos = true)
    (hb : b.Reads w v) : Bounded w m (2 * n + v.toNat) last (run ++ [b]) pos := by
  obtain ⟨x, xs, hx, hxs, hiff⟩ := h.tight
  have shift := shiftRight_eq m pos
  rw [hm, Bool.toNat_true] at shift
  have le := h.le
  refine ⟨?_, ⟨x, xs ++ [v], hx, List.rel_append hxs (.cons hb .nil), ?_⟩, ?_⟩
  · cases v <;> simp <;> omega
  · rw [List.all_append, ← Bool.and_assoc, Bool.and_eq_true_iff, hiff]
    cases v <;> simp <;> omega
  · intro _ hrun
    simp at hrun

/-- Under a zero of `m` a bit may follow that is zero if the bits above are those of `m`. -/
theorem under_zero {g : Bool} (h : Bounded w m n last run (pos + 1))
    (hm : m.testBit pos = false) (htight : g = true ↔ n = m >>> (pos + 1))
    (hv : g = true → v = false) {last' : Option Bit} (hlast : ReadsGuard w last' g)
    (hsome : last' ≠ none) :
    Bounded w m (2 * n + v.toNat) last' [] pos := by
  have shift := shiftRight_eq m pos
  rw [hm, Bool.toNat_false, Nat.add_zero] at shift
  have le := h.le
  refine ⟨?_, ⟨g, [], hlast, .nil, ?_⟩, ?_⟩
  · cases g with
    | false =>
      have : n ≠ m >>> (pos + 1) := fun he => nomatch htight.mpr he
      cases v <;> simp <;> omega
    | true =>
      rw [hv rfl]
      simp
      omega
  · rw [List.all_nil, Bool.and_true, htight]
    cases g with
    | false =>
      have : n ≠ m >>> (pos + 1) := fun he => nomatch htight.mpr he
      cases v <;> simp <;> omega
    | true =>
      rw [hv rfl]
      simp
      omega
  · intro hnone
    exact (hsome hnone).elim

end Bounded

/-- Where a run of ones ends, its bits are joined to what stands for the bits above. -/
theorem forces_joinRun (ns : Path) (i : Nat) (last : Option Bit) (run : List Bit) :
    Forces H (joinRun (f := f) ns i last run) fun w last' =>
      ∀ x xs, ReadsGuard w last x → List.Forall₂ (Bit.Reads w) run xs →
        ReadsGuard w last' (x && xs.all id) ∧ (last' = none → last = none ∧ run = []) := by
  cases run with
  | nil =>
    apply forces_pure
    intro w x xs hx hxs
    cases hxs
    rw [List.all_nil, Bool.and_true]
    exact ⟨hx, fun hnone => ⟨hnone, rfl⟩⟩
  | cons b rest =>
    apply Forces.bind (forces_enter ..)
    intro ns'
    apply Forces.bind (Bit.forces_andAll ..)
    intro r
    apply forces_pure
    intro w hr _ x xs hx hxs
    refine ⟨?_, fun hnone => nomatch hnone⟩
    cases hxs with
    | @cons _ y _ ys hy hys =>
      cases last with
      | none =>
        obtain rfl : x = true := hx
        have joined := hr y ys hy (by simpa using hys)
        simpa [ReadsGuard] using joined
      | some g =>
        -- The guard comes last in the conjunction and first in what is stated.
        have joined := hr y (ys ++ [x]) hy (List.rel_append hys (.cons hx .nil))
        have order : (y && (ys ++ [x]).all id) = (x && (y :: ys).all id) := by
          rw [List.all_append, List.all_cons]
          cases x <;> cases y <;> simp
        rwa [order] at joined

theorem forces_allocGuarded (ns : Path) (value : Option Bool) (last : Option Bit) :
    Forces H (allocGuarded (f := f) ns value last) fun w b =>
      ∀ g, ReadsGuard w last g → last ≠ none → ∃ v, b.Reads w v ∧ (g = true → v = false) := by
  cases last with
  | some guard => exact (Bit.forces_allocUnless ..).mono fun _ _ h g hg _ => h g hg
  | none => exact (Bit.forces_alloc ..).mono fun _ _ _ _ _ hne => (hne rfl).elim

/-- Bits for the places below some place, which complete the number above it to an element. -/
def Completes (w : Assignment f) (n pos : Nat) (bits : List Bit) : Prop :=
  ∃ vs, List.Forall₂ (Bit.Reads w) bits vs ∧ vs.length = pos ∧
    n * 2 ^ pos + natOfBits vs ≤ f.modulus - 1

theorem Completes.snoc {n pos : Nat} {bits : List Bit} {b : Bit} {v : Bool}
    (h : Completes w (2 * n + v.toNat) pos bits) (hb : b.Reads w v) :
    Completes w n (pos + 1) (bits ++ [b]) := by
  obtain ⟨vs, hvs, hlen, hle⟩ := h
  refine ⟨vs ++ [v], List.rel_append hvs (.cons hb .nil), by simp [hlen], ?_⟩
  have number : n * 2 ^ (pos + 1) + natOfBits (vs ++ [v]) =
      (2 * n + v.toNat) * 2 ^ pos + natOfBits vs := by
    rw [natOfBits_append, hlen, natOfBits_cons, natOfBits_nil, Nat.pow_succ]
    ring
  rwa [number]

theorem forces_strictBitsBelow (ns : Path) (value : Option (Element f)) (last : Option Bit)
    (run : List Bit) (pos : Nat) :
    Forces H (strictBitsBelow ns value last run pos) fun w bits =>
      ∀ n, Bounded w (f.modulus - 1) n last run pos → Completes w n pos bits := by
  induction pos generalizing last run with
  | zero =>
    apply forces_pure
    intro w n h
    refine ⟨[], .nil, rfl, ?_⟩
    simpa using h.le
  | succ pos ih =>
    rw [strictBitsBelow]
    -- A one of the bound leaves its bit free and goes on with the run. A zero ends the run, and
    -- what its bits are joined to guards the bit.
    cases hm : (f.modulus - 1).testBit pos with
    | true =>
      rw [if_pos rfl]
      apply Forces.bind (forces_enter ..)
      intro ns'
      apply Forces.bind (Bit.forces_alloc ..)
      intro b
      apply Forces.bind (ih last (run ++ [b]))
      intro bits
      apply forces_pure
      rintro w hbits ⟨v, hv⟩ _ n h
      exact (hbits _ (h.under_one hm hv)).snoc hv
    | false =>
      rw [if_neg Bool.false_ne_true]
      apply Forces.bind (forces_joinRun ..)
      intro last'
      apply Forces.bind (forces_enter ..)
      intro ns'
      apply Forces.bind (forces_allocGuarded ..)
      intro b
      apply Forces.bind (ih last' [])
      intro bits
      apply forces_pure
      intro w hbits hb _ hjoin n h
      obtain ⟨x, xs, hx, hxs, htight⟩ := h.tight
      obtain ⟨hlast, hnone⟩ := hjoin x xs hx hxs
      have hsome : last' ≠ none := by
        intro he
        obtain ⟨hl, hr⟩ := hnone he
        have := h.start hl hr (Nat.succ_pos pos)
        rw [Nat.add_sub_cancel, hm] at this
        cases this
      obtain ⟨v, hv, hzero⟩ := hb _ hlast hsome
      exact (hbits _ (h.under_zero hm htight hzero hlast hsome)).snoc hv

theorem bounded_start : Bounded w (f.modulus - 1) 0 none [] f.numBits := by
  have none : (f.modulus - 1) >>> f.numBits = 0 := by
    apply Nat.shiftRight_eq_zero
    exact lt_of_le_of_lt (Nat.sub_le ..) f.modulus_lt
  refine ⟨Nat.zero_le _, ⟨true, [], rfl, .nil, ?_⟩, fun _ _ _ => f.testBit_top⟩
  exact iff_of_true rfl none.symm

/-- Unpacked strictly, a number has the bits of its canonical representative. -/
theorem forces_strictBits (ns : Path) (x : Num f) :
    Forces H (strictBits ns x) fun w bits =>
      ∃ vs, List.Forall₂ (Boolean.Reads w) bits vs ∧ vs.length = f.numBits ∧
        (w x.index).val = natOfBits vs := by
  apply Forces.bind (forces_strictBitsBelow ..)
  intro bits
  apply Forces.bind (forces_enforce ..)
  intro _
  apply forces_pure
  intro w hsum hbits
  obtain ⟨vs, hvs, hlen, hle⟩ := hbits 0 bounded_start
  have read : List.Forall₂ (Boolean.Reads w) (bits.map .is) vs := List.forall₂_map_left_iff.mpr hvs
  rw [LinComb.eval_append, eval_weighted read] at hsum
  have number : w x.index = Element.ofNat f (natOfBits vs) := by
    simp only [LinComb.eval_nil, LinComb.eval_cons, Var.eval_aux, mul_zero, add_zero, neg_mul,
      one_mul] at hsum
    exact (add_neg_eq_zero.mp hsum.symm).symm
  have small : natOfBits vs < f.modulus := by
    have := f.modulus_pos
    omega
  exact ⟨vs, read, hlen, val_of_eq_ofNat number small⟩

theorem exists_reads {α : Type} {xs : List α} {bits : List Boolean}
    (h : List.Forall₂ (fun _ b => ∃ v, Boolean.Reads w b v) xs bits) :
    ∃ vs, List.Forall₂ (Boolean.Reads w) bits vs ∧ vs.length = xs.length := by
  induction h with
  | nil => exact ⟨[], .nil, rfl⟩
  | cons hb _ ih =>
    obtain ⟨v, hv⟩ := hb
    obtain ⟨vs, hvs, hlen⟩ := ih
    exact ⟨v :: vs, .cons hv hvs, by simp [hlen]⟩

theorem forces_allocBits (ns : Path) (x : Num f) (n : Nat) :
    Forces H (allocBits ns x n) fun w bits =>
      ∃ vs, List.Forall₂ (Boolean.Reads w) bits vs ∧ vs.length = n := by
  apply (Forces.mapM (S := fun _ w b => ∃ v, Boolean.Reads w b v) _ ?_).mono
  · intro w bits h
    obtain ⟨vs, hvs, hlen⟩ := exists_reads h
    exact ⟨vs, hvs, by rw [hlen, List.length_range]⟩
  · intro i _
    apply Forces.bind (forces_enter ..)
    intro ns'
    apply Forces.bind (Bit.forces_alloc ..)
    intro b
    exact forces_pure fun w h _ => h

/-- The bits of a number denote its canonical representative, which is therefore small enough for
them. -/
theorem forces_numBits (ns : Path) (x : Num f) (n : Nat) :
    Forces H (numBits ns x n) fun w bits =>
      ∃ vs, List.Forall₂ (Boolean.Reads w) bits vs ∧ vs.length = n ∧
        (w x.index).val = natOfBits vs := by
  unfold numBits
  split
  · rename_i hn
    apply Forces.bind (forces_enter ..)
    intro ns'
    apply Forces.bind (forces_strictBits ..)
    intro bits
    apply forces_pure
    rintro w ⟨vs, hvs, hlen, hval⟩ _
    refine ⟨vs ++ List.replicate (n - f.numBits) false, ?_, ?_, ?_⟩
    · apply List.rel_append hvs
      rw [List.forall₂_iff_get]
      refine ⟨by simp, ?_⟩
      intro i h₁ h₂
      simp [Boolean.Reads]
    · rw [List.length_append, List.length_replicate, hlen, Nat.add_sub_cancel' hn]
    · rw [natOfBits_append, natOfBits_replicate_false, Nat.mul_zero, Nat.add_zero, hval]
  · rename_i hn
    apply Forces.bind (forces_allocBits ..)
    intro bits
    apply Forces.bind (forces_enforce ..)
    intro _
    apply forces_pure
    rintro w hsum ⟨vs, hvs, hlen⟩
    rw [eval_weighted hvs] at hsum
    have number : w x.index = Element.ofNat f (natOfBits vs) := by
      simpa [Num.lc] using hsum.symm
    have small : natOfBits vs < f.modulus :=
      lt_of_lt_of_le (natOfBits_lt vs) (hlen ▸ f.two_pow_le_modulus (Nat.lt_of_not_le hn))
    exact ⟨vs, hvs, hlen, val_of_eq_ofNat number small⟩

end Circuit

end PoseidonTrie
