import PoseidonTrie.Proofs.Circuit.Decompose
import PoseidonTrie.Proofs.Circuit.Values

namespace PoseidonTrie.Circuit

variable {f : PrimeField} {H : Hasher f} {w : Assignment f} {s t : System f} {v : Element f}
  {m n pos : Nat} {last : Option Bit} {run : List Bit}

theorem ofNat_val (v : Element f) : Element.ofNat f v.val = v :=
  Element.ext (Nat.mod_eq_of_lt v.val_lt)

theorem ofNat_lowBits_eq_iff (v : Element f) (n : Nat) :
    Element.ofNat f (natOfBits ((List.range n).map v.val.testBit)) = v ↔ v.val < 2 ^ n := by
  rw [natOfBits_testBit]
  constructor
  · intro h
    have small : v.val % 2 ^ n < f.modulus := lt_of_le_of_lt (Nat.mod_le ..) v.val_lt
    have whole : v.val % 2 ^ n = v.val := (val_of_eq_ofNat h.symm small).symm
    rw [← whole]
    exact Nat.mod_lt _ (Nat.pow_pos Nat.two_pos)
  · intro h
    rw [Nat.mod_eq_of_lt h, ofNat_val]

theorem eval_weighted_known {bits : List Boolean} {vs : List Bool}
    (h : List.Forall₂ (Boolean.Known s) bits vs) (hw : Agrees w s) :
    LinComb.eval w (weighted bits) = Element.ofNat f (natOfBits vs) :=
  eval_weighted (h.imp fun _ _ hb => hb.reads hw)

/-- What stands for the bits above, if anything does, is known. -/
def KnownGuard (s : System f) : Option Bit → Bool → Prop
  | none, x => x = true
  | some b, x => b.Known s x

theorem KnownGuard.mono {x : Bool} (h : KnownGuard s last x) (hg : s.Grows t) :
    KnownGuard t last x := by
  cases last with
  | none => exact h
  | some b => exact Bit.Known.mono h hg

/-- `last` with `run` is true only if the bits of `n` down to a place are those of `m`. -/
def Tracks (s : System f) (m n : Nat) (last : Option Bit) (run : List Bit) (pos : Nat) : Prop :=
  ∃ x xs, KnownGuard s last x ∧ List.Forall₂ (Bit.Known s) run xs ∧
    ((x && xs.all id) = true → n >>> pos = m >>> pos)

namespace Tracks

variable {b : Bit}

/-- Under a one of `m` the run goes on. -/
theorem under_one (h : Tracks s m n last run (pos + 1)) (hm : m.testBit pos = true)
    (hg : s.Grows t) (hb : b.Known t (n.testBit pos)) : Tracks t m n last (run ++ [b]) pos := by
  obtain ⟨x, xs, hx, hxs, htight⟩ := h
  refine ⟨x, xs ++ [n.testBit pos], hx.mono hg, ?_, ?_⟩
  · exact List.rel_append (hxs.imp fun _ _ h => h.mono hg) (.cons hb .nil)
  · rw [List.all_append, ← Bool.and_assoc, Bool.and_eq_true_iff]
    rintro ⟨above, here⟩
    have same : n.testBit pos = true := by simpa using here
    rw [shiftRight_eq n, shiftRight_eq m, htight above, same, hm]

/-- Under a zero of `m` a number that is not larger has a zero too, if it has been the same so
far. -/
theorem zero_of_tight (hle : n ≤ m) (hm : m.testBit pos = false)
    (h : n >>> (pos + 1) = m >>> (pos + 1)) : n.testBit pos = false := by
  have shifted : n >>> pos ≤ m >>> pos := by
    rw [Nat.shiftRight_eq_div_pow, Nat.shiftRight_eq_div_pow]
    exact Nat.div_le_div_right hle
  rw [shiftRight_eq n, shiftRight_eq m, h, hm, Bool.toNat_false] at shifted
  cases hb : n.testBit pos with
  | false => rfl
  | true =>
    rw [hb, Bool.toNat_true] at shifted
    omega

end Tracks

theorem computes_joinRun (ns : Path) (i : Nat) {x : Bool} {xs : List Bool}
    (hlast : KnownGuard s last x) (hrun : List.Forall₂ (Bit.Known s) run xs) :
    Computes H s (joinRun ns i last run) True fun t last' =>
      KnownGuard t last' (x && xs.all id) := by
  cases hrun with
  | nil => exact computes_pure (by simpa using hlast)
  | @cons b y rest ys hb hrest =>
    apply Computes.next (computes_enter ..)
    intro t ns' ht _
    have hb := hb.mono ht
    have hrest : List.Forall₂ (Bit.Known t) rest ys := hrest.imp fun _ _ h => h.mono ht
    have joined : Computes H t (Bit.andAll ns' b (rest ++ last.toList)) True
        fun u r => r.Known u (x && (y :: ys).all id) := by
      cases last with
      | none =>
        obtain rfl : x = true := hlast
        simpa using Bit.computes_andAll ns' hb hrest
      | some g =>
        have order : (x && (y :: ys).all id) = (y && (ys ++ [x]).all id) := by
          rw [List.all_append, List.all_cons]
          cases x <;> cases y <;> simp
        rw [order]
        have hg : g.Known t x := Bit.Known.mono hlast ht
        exact Bit.computes_andAll ns' hb (List.rel_append hrest (.cons hg .nil))
    apply Computes.next joined
    intro u r _ hr
    exact computes_pure hr

theorem computes_allocGuarded (ns : Path) {x y : Bool} (hlast : KnownGuard s last y)
    (hx : y = true → x = false) :
    Computes H s (allocGuarded ns (some x) last) True fun t b => b.Known t x := by
  cases last with
  | none => exact Bit.computes_alloc ns x
  | some guard => exact Bit.computes_allocUnless ns hlast hx

theorem computes_strictBitsBelow (ns : Path) (v : Element f)
    (h : Tracks s (f.modulus - 1) v.val last run pos) :
    Computes H s (strictBitsBelow ns (some v) last run pos) True fun t bits =>
      List.Forall₂ (Bit.Known t) bits ((List.range pos).map v.val.testBit) := by
  have le : v.val ≤ f.modulus - 1 := Nat.le_sub_one_of_lt v.val_lt
  induction pos generalizing last run s with
  | zero => exact computes_pure .nil
  | succ pos ih =>
    have bits_succ : (List.range (pos + 1)).map v.val.testBit =
        (List.range pos).map v.val.testBit ++ [v.val.testBit pos] := by
      rw [List.range_succ, List.map_append, List.map_singleton]
    rw [strictBitsBelow, bits_succ]
    cases hm : (f.modulus - 1).testBit pos with
    | true =>
      rw [if_pos rfl]
      apply Computes.next (computes_enter ..)
      intro t₁ ns₁ h₁ _
      apply Computes.next (Bit.computes_alloc ..)
      intro t₂ b h₂ hb
      apply Computes.next (ih (h.under_one hm (h₁.trans h₂) hb))
      intro t₃ bits h₃ hbits
      exact computes_pure (List.rel_append hbits (.cons (hb.mono h₃) .nil))
    | false =>
      rw [if_neg Bool.false_ne_true]
      obtain ⟨x, xs, hx, hxs, htight⟩ := h
      have zero : (x && xs.all id) = true → v.val.testBit pos = false := fun hg =>
        Tracks.zero_of_tight le hm (htight hg)
      apply Computes.next (computes_joinRun _ _ hx hxs)
      intro t₁ last' h₁ hlast'
      apply Computes.next (computes_enter ..)
      intro t₂ ns₂ h₂ _
      apply Computes.next (computes_allocGuarded _ (hlast'.mono h₂) zero)
      intro t₃ b h₃ hb
      -- The run starts anew, and the guard tells whether all bits so far are those of the bound.
      have tracks : Tracks t₃ (f.modulus - 1) v.val last' [] pos := by
        refine ⟨_, [], hlast'.mono (h₂.trans h₃), .nil, ?_⟩
        rw [List.all_nil, Bool.and_true]
        intro hg
        rw [shiftRight_eq v.val, shiftRight_eq (f.modulus - 1), htight hg, zero hg, hm]
      apply Computes.next (ih tracks)
      intro t₄ bits h₄ hbits
      exact computes_pure (List.rel_append hbits (.cons (hb.mono h₄) .nil))

theorem tracks_start (v : Element f) :
    Tracks s (f.modulus - 1) v.val none [] f.numBits := by
  refine ⟨true, [], rfl, .nil, fun _ => ?_⟩
  have below : v.val < 2 ^ f.numBits := lt_trans v.val_lt f.modulus_lt
  have bound : f.modulus - 1 < 2 ^ f.numBits := lt_of_le_of_lt (Nat.sub_le ..) f.modulus_lt
  rw [Nat.shiftRight_eq_zero _ _ below, Nat.shiftRight_eq_zero _ _ bound]

theorem computes_strictBits (ns : Path) {x : Num f} (hx : x.Known s v) :
    Computes H s (strictBits ns x) True fun t bits =>
      List.Forall₂ (Boolean.Known t) bits ((List.range f.numBits).map v.val.testBit) := by
  rw [strictBits, hx.value]
  apply Computes.next (computes_strictBitsBelow ns v (tracks_start v))
  intro t bits ht hbits
  have known : List.Forall₂ (Boolean.Known t) (bits.map Boolean.is)
      ((List.range f.numBits).map v.val.testBit) := List.forall₂_map_left_iff.mpr hbits
  refine computes_enforced _ _ _ _ (fun w hw => ?_) fun u hu => known.imp fun _ _ h => h.mono hu
  have whole := (ofNat_lowBits_eq_iff v f.numBits).mpr (lt_trans v.val_lt f.modulus_lt)
  have number : w x.index = v := (hx.mono ht).eval hw
  rw [LinComb.eval_append, eval_weighted_known known hw, whole]
  simp [number]

theorem computes_allocBits (ns : Path) {x : Num f} (hx : x.Known s v) (n : Nat) :
    Computes H s (allocBits ns x n) True fun t bits =>
      List.Forall₂ (Boolean.Known t) bits ((List.range n).map v.val.testBit) := by
  rw [allocBits, hx.value]
  apply (Computes.mapM (S := fun t i b => Boolean.Known t b (v.val.testBit i)) _
    (fun _ _ _ _ hg h => h.mono hg) ?_).mono
  · intro t bits _ h
    exact List.forall₂_map_right_iff.mpr h.flip
  · intro i _ t _
    apply Computes.next (computes_enter ..)
    intro u ns' _ _
    apply Computes.next (Bit.computes_alloc ..)
    intro u' b _ hb
    exact computes_pure hb

theorem lowBits_of_le (v : Element f) (hn : f.numBits ≤ n) :
    (List.range n).map v.val.testBit =
      (List.range f.numBits).map v.val.testBit ++ List.replicate (n - f.numBits) false := by
  apply List.ext_getElem
  · simp [Nat.add_sub_cancel' hn]
  · intro i h₁ h₂
    by_cases hi : i < f.numBits
    · simp [hi]
    · have wide : v.val < 2 ^ i :=
        lt_of_lt_of_le (lt_trans v.val_lt f.modulus_lt)
          (Nat.pow_le_pow_right Nat.two_pos (Nat.le_of_not_lt hi))
      simp [List.getElem_append, hi, Nat.testBit_lt_two_pow wide]

/-- Unpacking yields the low bits of a number, and holds exactly if they are all of it. -/
theorem computes_numBits (ns : Path) {x : Num f} (hx : x.Known s v) (n : Nat) :
    Computes H s (numBits ns x n) (v.val < 2 ^ n) fun t bits =>
      List.Forall₂ (Boolean.Known t) bits ((List.range n).map v.val.testBit) := by
  unfold numBits
  split
  · rename_i hn
    have wide : v.val < 2 ^ f.numBits := lt_trans v.val_lt f.modulus_lt
    apply Computes.congr (P := True) _
      (iff_of_true trivial (lt_of_lt_of_le wide (Nat.pow_le_pow_right Nat.two_pos hn)))
    apply Computes.next (computes_enter ..)
    intro t ns' ht _
    apply Computes.next (computes_strictBits ns' (hx.mono ht))
    intro u bits _ hbits
    rw [lowBits_of_le v hn]
    have zeros : List.Forall₂ (Boolean.Known u)
        (List.replicate (n - f.numBits) (.constant false)) (List.replicate (n - f.numBits) false) :=
      List.forall₂_iff_get.mpr ⟨by simp, fun i h₁ h₂ => by simp [Boolean.Known]⟩
    exact computes_pure (List.rel_append hbits zeros)
  · apply Computes.next (computes_allocBits ns hx n)
    intro t bits ht hbits
    apply Computes.followed (computes_enforce (P := v.val < 2 ^ n) _ _ _ _ fun w hw => ?_)
    · intro u _ hu _
      exact computes_pure (hbits.imp fun _ _ h => h.mono hu)
    · rw [eval_weighted_known hbits hw, Num.eval_lc, (hx.mono ht).eval hw,
        ← ofNat_lowBits_eq_iff v n]
      simp

end PoseidonTrie.Circuit
