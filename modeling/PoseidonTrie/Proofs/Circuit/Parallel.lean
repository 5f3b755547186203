import PoseidonTrie.Circuit.Path
import PoseidonTrie.Proofs.Circuit.Choice
import PoseidonTrie.Proofs.Circuit.Mirror

/-! Gadgets side by side. Over numbers and Booleans of the same places each gadget does the same in
a system that follows another: a value decides no branch, only constants do. -/
namespace PoseidonTrie.Circuit

variable {f : PrimeField} {H : Hasher f} {k : Kind} {α β : Type}

/-- Lists of some length, element by element. -/
structure Alike (R : α → β → Prop) (n : Nat) (xs : List α) (ys : List β) : Prop where
  related : List.Forall₂ R xs ys
  length_eq : xs.length = n

theorem Alike.length_eq' {R : α → β → Prop} {n : Nat} {xs : List α} {ys : List β}
    (h : Alike R n xs ys) : ys.length = n :=
  h.related.length_eq.symm.trans h.length_eq

/-- The second number has the place of the first, and its value too unless it is in a shape. -/
structure Num.Follows (k : Kind) (x y : Num f) : Prop where
  index : y.index = x.index
  value : k ≠ .shape → y.value = x.value

namespace Num

variable {x y : Num f}

theorem Follows.lc (h : x.Follows k y) : y.lc = x.lc := by
  rw [Num.lc, Num.lc, h.index]

theorem mirrors_alloc (ns : Path) {v v' : Option (Element f)} (h : k ≠ .shape → v' = v) :
    Mirrors k (Num.alloc ns v) (Num.alloc ns v') (Follows k) := by
  apply Mirrors.bind (Circuit.mirrors_alloc h)
  rintro ⟨i, x⟩ ⟨i', x'⟩ ⟨hindex, hvalue⟩
  exact mirrors_pure ⟨hindex, hvalue⟩

theorem Follows.map_index {xs ys : List (Num f)} (h : List.Forall₂ (Follows k) xs ys) :
    ys.map Num.index = xs.map Num.index := by
  induction h with
  | nil => rfl
  | cons hx _ ih => rw [List.map_cons, List.map_cons, hx.index, ih]

theorem Follows.mapM_value {xs ys : List (Num f)} (h : List.Forall₂ (Follows k) xs ys)
    (hk : k ≠ .shape) : ys.mapM Num.value = xs.mapM Num.value := by
  induction h with
  | nil => rfl
  | cons hx _ ih => rw [List.mapM_cons, List.mapM_cons, hx.value hk, ih]

end Num

/-- The same of bits. -/
structure Bit.Follows (k : Kind) (a b : Bit) : Prop where
  index : b.index = a.index
  value : k ≠ .shape → b.value = a.value

namespace Bit

variable {a a' b b' : Bit}

theorem Follows.lc (h : a.Follows k b) : (b.lc : LinComb f) = a.lc := by
  rw [Bit.lc, Bit.lc, h.index]

theorem Follows.complement (h : a.Follows k b) : (b.complement : LinComb f) = a.complement := by
  rw [Bit.complement, Bit.complement, h.index]

theorem mirrors_alloc (ns : Path) {v v' : Option Bool} (h : k ≠ .shape → v' = v) :
    Mirrors k (Bit.alloc ns v : Synth f Bit) (Bit.alloc ns v') (Follows k) := by
  apply Mirrors.bind (Circuit.mirrors_alloc h)
  rintro ⟨i, x⟩ ⟨i', x'⟩ ⟨rfl, -⟩
  exact mirrors_enforced _ _ _ _ ⟨rfl, h⟩

theorem mirrors_allocUnless (ns : Path) {v v' : Option Bool} (h : k ≠ .shape → v' = v)
    (hb : b.Follows k b') :
    Mirrors k (Bit.allocUnless ns v b : Synth f Bit) (Bit.allocUnless ns v' b') (Follows k) := by
  rw [Bit.allocUnless, Bit.allocUnless, hb.index]
  apply Mirrors.bind (Circuit.mirrors_alloc h)
  rintro ⟨i, x⟩ ⟨i', x'⟩ ⟨rfl, -⟩
  exact mirrors_enforced _ _ _ _ ⟨rfl, h⟩

theorem mirrors_product (result constraint : Path) {v v' : Option Bool} (l m : LinComb f)
    (h : k ≠ .shape → v' = v) :
    Mirrors k (product result constraint v l m) (product result constraint v' l m) (Follows k) := by
  apply Mirrors.bind (Circuit.mirrors_alloc h)
  rintro ⟨i, x⟩ ⟨i', x'⟩ ⟨rfl, hvalue⟩
  exact mirrors_enforced _ _ _ _ ⟨rfl, hvalue⟩

variable (ns : Path) (ha : a.Follows k a') (hb : b.Follows k b')

include ha hb

theorem mirrors_and : Mirrors k (and ns a b : Synth f Bit) (and ns a' b') (Follows k) := by
  rw [and, and, ha.lc, hb.lc]
  exact mirrors_product _ _ _ _ fun hk => by rw [ha.value hk, hb.value hk]

theorem mirrors_andNot : Mirrors k (andNot ns a b : Synth f Bit) (andNot ns a' b') (Follows k) := by
  rw [andNot, andNot, ha.lc, hb.complement]
  exact mirrors_product _ _ _ _ fun hk => by rw [ha.value hk, hb.value hk]

theorem mirrors_nor : Mirrors k (nor ns a b : Synth f Bit) (nor ns a' b') (Follows k) := by
  rw [nor, nor, ha.complement, hb.complement]
  exact mirrors_product _ _ _ _ fun hk => by rw [ha.value hk, hb.value hk]

omit ha hb in
theorem mirrors_andFrom (i : Nat) (ha : a.Follows k a') {rest rest' : List Bit}
    (hrest : List.Forall₂ (Follows k) rest rest') :
    Mirrors k (andFrom ns i a rest : Synth f Bit) (andFrom ns i a' rest') (Follows k) := by
  induction hrest generalizing i a a' with
  | nil => exact mirrors_pure ha
  | cons hb _ ih =>
    apply Mirrors.enter
    apply Mirrors.bind (mirrors_and _ ha hb)
    intro joined joined' hjoined
    exact ih (i + 1) hjoined

omit hb in
theorem mirrors_andAll {rest rest' : List Bit} (hrest : List.Forall₂ (Follows k) rest rest') :
    Mirrors k (andAll ns a rest : Synth f Bit) (andAll ns a' rest') (Follows k) :=
  mirrors_andFrom ns 1 ha hrest

end Bit

/-- Both Booleans are bits, complements of bits or one constant. -/
inductive Boolean.Follows (k : Kind) : Boolean → Boolean → Prop
  | is {a b : Bit} (h : a.Follows k b) : Follows k (.is a) (.is b)
  | not {a b : Bit} (h : a.Follows k b) : Follows k (.not a) (.not b)
  | constant (c : Bool) : Follows k (.constant c) (.constant c)

namespace Boolean

variable {a a' b b' : Boolean}

theorem Follows.lc (h : a.Follows k b) (c : Element f) : b.lc c = a.lc c := by
  cases h with
  | is h => simp only [Boolean.lc, h.index]
  | not h => simp only [Boolean.lc, h.index]
  | constant c => rfl

theorem Follows.value (h : a.Follows k b) (hk : k ≠ .shape) : b.value = a.value := by
  cases h with
  | is h => exact h.value hk
  | not h => simp only [Boolean.value, h.value hk]
  | constant c => rfl

theorem Follows.negate (h : a.Follows k b) : a.negate.Follows k b.negate := by
  cases h with
  | is h => exact .not h
  | not h => exact .is h
  | constant c => exact .constant !c

theorem mirrors_is {x y : Synth f Bit} (h : Mirrors k x y (Bit.Follows k)) :
    Mirrors k (do return is (← x)) (do return is (← y)) (Follows k) :=
  h.bind fun _ _ hab => mirrors_pure (.is hab)

/-- Which gate a conjunction takes, if any, is told by its sides alone. -/
theorem mirrors_and (ns : Path) (ha : a.Follows k a') (hb : b.Follows k b') :
    Mirrors k (and ns a b : Synth f Boolean) (and ns a' b') (Follows k) := by
  cases ha with
  | is ha =>
    cases hb with
    | is hb => exact mirrors_is (Bit.mirrors_and ns ha hb)
    | not hb => exact mirrors_is (Bit.mirrors_andNot ns ha hb)
    | constant c => cases c with
      | false => exact mirrors_pure (.constant false)
      | true => exact mirrors_pure (.is ha)
  | not ha =>
    cases hb with
    | is hb => exact mirrors_is (Bit.mirrors_andNot ns hb ha)
    | not hb => exact mirrors_is (Bit.mirrors_nor ns ha hb)
    | constant c => cases c with
      | false => exact mirrors_pure (.constant false)
      | true => exact mirrors_pure (.not ha)
  | constant c => cases c with
    | false => exact mirrors_pure (.constant false)
    | true =>
      cases hb with
      | is hb => exact mirrors_pure (.is hb)
      | not hb => exact mirrors_pure (.not hb)
      | constant c => cases c <;> exact mirrors_pure (.constant _)

end Boolean

section Choice

variable {x x' y y' : Num f} {condition condition' : Boolean} {bits bits' : List Boolean}
  {xs ys : List (Num f)}

theorem mirrors_equal (path : Path) (hx : x.Follows k x') (hy : y.Follows k y') :
    Mirrors k (equal path x y) (equal path x' y') fun _ _ => True := by
  rw [equal, equal, hx.lc, hy.lc]
  exact mirrors_enforce ..

theorem mirrors_nonzero (ns : Path) (hx : x.Follows k x') :
    Mirrors k (nonzero ns x) (nonzero ns x') fun _ _ => True := by
  apply Mirrors.enter
  apply Mirrors.bind (Num.mirrors_alloc _ fun hk => by rw [hx.value hk])
  intro inverse inverse' hinverse
  rw [hx.lc, hinverse.lc]
  exact mirrors_enforce ..

theorem mirrors_pick (ns : Path) (hc : condition.Follows k condition') (hx : x.Follows k x')
    (hy : y.Follows k y') :
    Mirrors k (pick ns condition x y) (pick ns condition' x' y') (Num.Follows k) := by
  apply Mirrors.enter
  apply Mirrors.bind (Num.mirrors_alloc _ fun hk => by rw [hc.value hk, hx.value hk, hy.value hk])
  intro r r' hr
  rw [hx.index, hy.index, hr.index, hc.lc]
  exact mirrors_enforced _ _ _ _ hr

/-- The numbers are paired as far as the shorter half goes. -/
theorem mirrors_pickHalf (ns : Path) (round : Nat) {n : Nat} {low low' high high' : List (Num f)}
    (hc : condition.Follows k condition') (hlow : Alike (Num.Follows k) n low low')
    (hhigh : List.Forall₂ (Num.Follows k) high high') (hlen : n ≤ high.length) :
    Mirrors k (pickHalf ns round condition low high) (pickHalf ns round condition' low' high')
      (Alike (Num.Follows k) n) := by
  apply (Mirrors.mapM ((forall₂_zipIdx (forall₂_zip hlow.related hhigh) 0).imp ?_)).mono
  · rintro us vs ⟨related, count⟩
    refine ⟨related, ?_⟩
    rw [count, List.length_zipIdx, List.length_zip, hlow.length_eq, Nat.min_eq_left hlen]
  · rintro ⟨⟨l, h⟩, j⟩ ⟨⟨l', h'⟩, _⟩ ⟨⟨hl, hh⟩, rfl⟩
    exact .enter (mirrors_pick _ hc hh hl)

theorem mirrors_selectFrom (ns : Path) (round : Nat)
    (hbits : List.Forall₂ (Boolean.Follows k) bits bits')
    (hxs : Alike (Num.Follows k) (2 ^ bits.length) xs ys) :
    Mirrors k (selectFrom ns round bits xs) (selectFrom ns round bits' ys) (Num.Follows k) := by
  induction hbits generalizing round xs ys with
  | nil =>
    match xs, ys, hxs with
    | [x], [y], ⟨.cons hxy .nil, _⟩ => exact mirrors_pure hxy
  | @cons bit bit' bits bits' hbit _ ih =>
    have count : xs.length = 2 ^ bits.length * 2 := by
      rw [hxs.length_eq, List.length_cons, Nat.pow_succ]
    rw [selectFrom, selectFrom, ← hxs.related.length_eq]
    have low : (xs.take (xs.length / 2)).length = 2 ^ bits.length := by
      rw [List.length_take]
      omega
    have high : 2 ^ bits.length ≤ (xs.drop (xs.length / 2)).length := by
      rw [List.length_drop]
      omega
    apply Mirrors.bind (mirrors_pickHalf ns round hbit ⟨List.forall₂_take _ hxs.related, low⟩
      (List.forall₂_drop _ hxs.related) high)
    intro next next' hnext
    exact ih (round + 1) hnext

theorem mirrors_select (ns : Path) (hbits : List.Forall₂ (Boolean.Follows k) bits bits')
    (few : bits.length < 64) (hxs : Alike (Num.Follows k) (2 ^ bits.length) xs ys) :
    Mirrors k (select ns xs bits) (select ns ys bits') (Num.Follows k) := by
  have same := hbits.length_eq
  have selectable : Selectable xs bits := ⟨few, hxs.length_eq⟩
  have selectable' : Selectable ys bits' := ⟨same ▸ few, same ▸ hxs.length_eq'⟩
  rw [selectable.select_eq, selectable'.select_eq]
  apply mirrors_selectFrom ns 0 (List.rel_reverse hbits)
  rwa [List.length_reverse]

theorem mirrors_selectorRound (ns : Path) (i : Nat) {n : Nat} {chosen chosen' : List Boolean}
    (hc : condition.Follows k condition') (hchosen : Alike (Boolean.Follows k) n chosen chosen') :
    Mirrors k (selectorRound ns i condition chosen : Synth f _)
      (selectorRound ns i condition' chosen') (Alike (Boolean.Follows k) (n * 2)) := by
  apply Mirrors.bind (R := Alike (fun p q => p.1.Follows k q.1 ∧ p.2.Follows k q.2) n)
  · apply (Mirrors.mapM ((forall₂_zipIdx hchosen.related 0).imp ?_)).mono
    · rintro us vs ⟨related, hlen⟩
      refine ⟨related, ?_⟩
      rw [hlen, List.length_zipIdx, hchosen.length_eq]
    · rintro ⟨c, j⟩ ⟨c', _⟩ ⟨hcc, rfl⟩
      apply Mirrors.enter
      apply Mirrors.bind (Boolean.mirrors_and _ hcc hc.negate)
      intro unset unset' hunset
      apply Mirrors.enter
      apply Mirrors.bind (Boolean.mirrors_and _ hcc hc)
      intro set set' hset
      exact mirrors_pure ⟨hunset, hset⟩
  · rintro pairs pairs' ⟨related, hlen⟩
    refine mirrors_pure ⟨?_, ?_⟩
    · exact List.rel_append (List.rel_map (fun _ _ h => h.1) related)
        (List.rel_map (fun _ _ h => h.2) related)
    · rw [List.length_append, List.length_map, List.length_map, hlen, Nat.mul_two]

theorem mirrors_selectorsFrom (ns : Path) (i : Nat) {n : Nat} {chosen chosen' : List Boolean}
    (hbits : List.Forall₂ (Boolean.Follows k) bits bits')
    (hchosen : Alike (Boolean.Follows k) n chosen chosen') :
    Mirrors k (selectorsFrom ns i bits chosen : Synth f _) (selectorsFrom ns i bits' chosen')
      (Alike (Boolean.Follows k) (n * 2 ^ bits.length)) := by
  induction hbits generalizing i n chosen chosen' with
  | nil => exact mirrors_pure (by simpa using hchosen)
  | cons hbit _ ih =>
    rw [selectorsFrom, selectorsFrom, List.length_cons, Nat.pow_succ', ← Nat.mul_assoc]
    exact (mirrors_selectorRound ns i hbit hchosen).bind fun _ _ h => ih (i + 1) h

theorem mirrors_selectors (ns : Path) (hbits : List.Forall₂ (Boolean.Follows k) bits bits') :
    Mirrors k (selectors ns bits : Synth f _) (selectors ns bits')
      (Alike (Boolean.Follows k) (2 ^ bits.length)) := by
  have start : Alike (Boolean.Follows k) 1 [.constant true] [.constant true] :=
    ⟨.cons (.constant true) .nil, rfl⟩
  have run := mirrors_selectorsFrom (f := f) ns 0 hbits start
  rwa [Nat.one_mul] at run

theorem mirrors_pickEach (ns : Path) (level : Nat) {n : Nat} {chosen chosen' : List Boolean}
    (hx : x.Follows k x') (hxs : Alike (Num.Follows k) n xs ys)
    (hchosen : Alike (Boolean.Follows k) n chosen chosen') :
    Mirrors k (pickEach ns level x xs chosen) (pickEach ns level x' ys chosen')
      (Alike (Num.Follows k) n) := by
  apply (Mirrors.mapM ((forall₂_zipIdx (forall₂_zip hxs.related hchosen.related) 0).imp ?_)).mono
  · rintro out out' ⟨related, hlen⟩
    refine ⟨related, ?_⟩
    rw [hlen, List.length_zipIdx, List.length_zip, hxs.length_eq, hchosen.length_eq, Nat.min_self]
  · rintro ⟨⟨sibling, c⟩, i⟩ ⟨⟨sibling', c'⟩, _⟩ ⟨⟨hsibling, hc⟩, rfl⟩
    exact .enter (mirrors_pick _ hc hx hsibling)

end Choice

theorem mirrors_hashNode (ns : Path) (a : Arity) {children children' : List (Num f)}
    (h : Alike (Num.Follows k) a.width children children') :
    Mirrors k (hashNode H ns a children) (hashNode H ns a children') (Num.Follows k) := by
  rw [hashNode, hashNode, if_pos h.length_eq, if_pos h.length_eq']
  apply Mirrors.enter
  apply Mirrors.bind (Num.mirrors_alloc _ fun hk => by rw [Num.Follows.mapM_value h.related hk])
  intro output output' houtput
  rw [Num.Follows.map_index h.related, houtput.index]
  apply Mirrors.bind (mirrors_addHash ..)
  intro _ _ _
  exact mirrors_pure houtput

section Decompose

variable {x x' : Num f} {v v' : Option (Element f)} {run run' : List Bit}

/-- Bits that are there on both sides or on neither. -/
def FollowsGuard (k : Kind) : Option Bit → Option Bit → Prop :=
  Option.Rel (Bit.Follows k)

variable {last last' : Option Bit}

theorem mirrors_allocGuarded (ns : Path) {v v' : Option Bool} (h : k ≠ .shape → v' = v)
    (hlast : FollowsGuard k last last') :
    Mirrors k (allocGuarded ns v last : Synth f Bit) (allocGuarded ns v' last')
      (Bit.Follows k) := by
  cases hlast with
  | some hb => exact Bit.mirrors_allocUnless ns h hb
  | none => exact Bit.mirrors_alloc ns h

theorem mirrors_joinRun (ns : Path) (i : Nat) (hlast : FollowsGuard k last last')
    (hrun : List.Forall₂ (Bit.Follows k) run run') :
    Mirrors k (joinRun ns i last run : Synth f _) (joinRun ns i last' run') (FollowsGuard k) := by
  cases hrun with
  | nil => exact mirrors_pure hlast
  | cons hb hrest =>
    have above : List.Forall₂ (Bit.Follows k) last.toList last'.toList := by
      cases hlast with
      | some hb => exact .cons hb .nil
      | none => exact .nil
    apply Mirrors.enter
    apply Mirrors.bind (Bit.mirrors_andAll _ hb (List.rel_append hrest above))
    intro b b' hb
    exact mirrors_pure (.some hb)

/-- Only the largest element's bits decide which bits are guarded. -/
theorem mirrors_strictBitsBelow (ns : Path) (pos : Nat) (h : k ≠ .shape → v' = v)
    (hlast : FollowsGuard k last last') (hrun : List.Forall₂ (Bit.Follows k) run run') :
    Mirrors k (strictBitsBelow ns v last run pos) (strictBitsBelow ns v' last' run' pos)
      (Alike (Bit.Follows k) pos) := by
  induction pos generalizing last last' run run' with
  | zero => exact mirrors_pure ⟨.nil, rfl⟩
  | succ pos ih =>
    have bit : k ≠ .shape → v'.map (·.val.testBit pos) = v.map (·.val.testBit pos) :=
      fun hk => by rw [h hk]
    have append {b b' : Bit} {bits bits' : List Bit} (hbits : Alike (Bit.Follows k) pos bits bits')
        (hb : b.Follows k b') : Alike (Bit.Follows k) (pos + 1) (bits ++ [b]) (bits' ++ [b']) :=
      ⟨List.rel_append hbits.related (.cons hb .nil), by simp [hbits.length_eq]⟩
    rw [strictBitsBelow, strictBitsBelow]
    cases (f.modulus - 1).testBit pos with
    | true =>
      rw [if_pos rfl, if_pos rfl]
      apply Mirrors.enter
      apply Mirrors.bind (Bit.mirrors_alloc _ bit)
      intro b b' hb
      apply Mirrors.bind (ih hlast (List.rel_append hrun (.cons hb .nil)))
      intro bits bits' hbits
      exact mirrors_pure (append hbits hb)
    | false =>
      rw [if_neg Bool.false_ne_true, if_neg Bool.false_ne_true]
      apply Mirrors.bind (mirrors_joinRun ns _ hlast hrun)
      intro last last' hlast
      apply Mirrors.enter
      apply Mirrors.bind (mirrors_allocGuarded _ bit hlast)
      intro b b' hb
      apply Mirrors.bind (ih hlast .nil)
      intro bits bits' hbits
      exact mirrors_pure (append hbits hb)

theorem Boolean.Follows.weighted {bits bits' : List Boolean}
    (h : List.Forall₂ (Boolean.Follows k) bits bits') :
    (weighted bits' : LinComb f) = weighted bits := by
  rw [Circuit.weighted, Circuit.weighted, List.flatMap_def, List.flatMap_def]
  apply congrArg List.flatten
  apply map_eq_of_forall₂ (g := fun p : Boolean × Nat => p.1.lc (Element.ofNat f (2 ^ p.2)))
  apply (forall₂_zipIdx h 0).imp
  rintro ⟨b, i⟩ ⟨b', _⟩ ⟨hb, rfl⟩
  exact hb.lc _

theorem mirrors_strictBits (ns : Path) (hx : x.Follows k x') :
    Mirrors k (strictBits ns x) (strictBits ns x') (Alike (Boolean.Follows k) f.numBits) := by
  apply Mirrors.bind (mirrors_strictBitsBelow ns _ (fun hk => hx.value hk) .none .nil)
  rintro bits bits' ⟨related, hlen⟩
  have booleans : List.Forall₂ (Boolean.Follows k) (bits.map .is) (bits'.map .is) :=
    List.rel_map (fun _ _ => .is) related
  dsimp only
  rw [Boolean.Follows.weighted booleans, hx.index]
  exact mirrors_enforced _ _ _ _ ⟨booleans, by rw [List.length_map, hlen]⟩

theorem mirrors_allocBits (ns : Path) (hx : x.Follows k x') (n : Nat) :
    Mirrors k (allocBits ns x n) (allocBits ns x' n) (Alike (Boolean.Follows k) n) := by
  apply (Mirrors.mapM_self (List.range n) ?_).mono
  · rintro bits bits' ⟨related, hlen⟩
    exact ⟨related, by rw [hlen, List.length_range]⟩
  · intro i _
    apply Mirrors.enter
    apply Mirrors.bind (Bit.mirrors_alloc _ fun hk => by rw [hx.value hk])
    intro b b' hb
    exact mirrors_pure (.is hb)

theorem mirrors_numBits (ns : Path) (hx : x.Follows k x') (n : Nat) :
    Mirrors k (numBits ns x n) (numBits ns x' n) (Alike (Boolean.Follows k) n) := by
  rw [numBits, numBits]
  split
  · rename_i hn
    apply Mirrors.enter
    apply Mirrors.bind (mirrors_strictBits _ hx)
    rintro bits bits' ⟨related, hlen⟩
    refine mirrors_pure ⟨List.rel_append related (List.forall₂_same.mpr fun b hb => ?_), ?_⟩
    · rw [List.eq_of_mem_replicate hb]
      exact .constant false
    · rw [List.length_append, List.length_replicate, hlen]
      omega
  · apply Mirrors.bind (mirrors_allocBits ns hx n)
    intro bits bits' hbits
    rw [Boolean.Follows.weighted hbits.related, hx.lc]
    exact mirrors_enforced _ _ _ _ hbits

end Decompose

end PoseidonTrie.Circuit
