import PoseidonTrie.Proofs.Circuit.Choice
import PoseidonTrie.Proofs.Circuit.Computes

/-! What the gadgets compute. From known values every number and Boolean they yield is known, and
nothing but a comparison or an inverse can be broken. -/
namespace PoseidonTrie

variable {f : PrimeField}

theorem Node.ofRow?_toList {n : Nat} (node : Node f n) : Node.ofRow? n node.toList = some node := by
  simp [Node.ofRow?, Vector.toList]

namespace Circuit

variable {H : Hasher f} {w : Assignment f} {s t : System f} {α β : Type}

namespace Num

/-- The number has a value, and its variable was allocated with it. -/
structure Known (s : System f) (x : Num f) (v : Element f) : Prop where
  value : x.value = some v
  assigned : s.Assigned x.index v

/-- The number has some value that its variable was allocated with. -/
def Valued (s : System f) (x : Num f) : Prop :=
  ∃ v, x.Known s v

variable {x : Num f} {v : Element f}

theorem Known.mono (h : x.Known s v) (hg : s.Grows t) : x.Known t v :=
  ⟨h.value, h.assigned.mono hg⟩

theorem Valued.mono (h : x.Valued s) (hg : s.Grows t) : x.Valued t :=
  h.imp fun _ h => h.mono hg

theorem Known.eval (h : x.Known s v) (hw : Agrees w s) : x.eval w = v :=
  hw _ _ h.assigned

theorem map_eval_of_known {xs : List (Num f)} {vs : List (Element f)}
    (h : List.Forall₂ (Num.Known s) xs vs) (hw : Agrees w s) : xs.map (Num.eval w) = vs := by
  induction h with
  | nil => rfl
  | cons hx _ ih => rw [List.map_cons, hx.eval hw, ih]

theorem Valued.known (h : x.Valued t) (hv : ∀ w, Agrees w t → x.eval w = v) : x.Known t v := by
  obtain ⟨v', h⟩ := h
  obtain rfl : v' = v := (h.eval (agrees_assignment t)).symm.trans (hv _ (agrees_assignment t))
  exact h

theorem computes_alloc (ns : Path) (v : Element f) :
    Computes H s (Num.alloc ns (some v)) True fun t x => x.Known t v := by
  apply Computes.next (Circuit.computes_alloc ..)
  rintro t ⟨i, _⟩ _ ⟨rfl, assigned⟩
  exact computes_pure ⟨rfl, assigned⟩

end Num

namespace Bit

/-- The bit has a value, and its variable was allocated with it. -/
structure Known (s : System f) (b : Bit) (v : Bool) : Prop where
  value : b.value = some v
  assigned : s.Assigned b.index (ofBool f v)

variable {a b : Bit} {x y : Bool}

theorem Known.mono (h : b.Known s x) (hg : s.Grows t) : b.Known t x :=
  ⟨h.value, h.assigned.mono hg⟩

theorem Known.reads (h : b.Known s x) (hw : Agrees w s) : b.Reads w x :=
  hw _ _ h.assigned

theorem computes_alloc (ns : Path) (x : Bool) :
    Computes H s (Bit.alloc ns (some x)) True fun t b => b.Known t x := by
  apply Computes.next (Circuit.computes_alloc ..)
  rintro t ⟨i, _⟩ _ ⟨-, assigned⟩
  refine computes_enforced _ _ _ _ (fun w hw => ?_) fun u hu => ⟨rfl, assigned.mono hu⟩
  have value : w i = ofBool f x := hw _ _ assigned
  cases x <;> simp [value]

/-- Beside a guard a bit must not be one if the guard is. -/
theorem computes_allocUnless (ns : Path) {guard : Bit} (hguard : guard.Known s y)
    (hx : y = true → x = false) :
    Computes H s (Bit.allocUnless ns (some x) guard) True fun t b => b.Known t x := by
  apply Computes.next (Circuit.computes_alloc ..)
  rintro t ⟨i, _⟩ ht ⟨-, assigned⟩
  refine computes_enforced _ _ _ _ (fun w hw => ?_) fun u hu => ⟨rfl, assigned.mono hu⟩
  have value : w i = ofBool f x := hw _ _ assigned
  have above : w guard.index = ofBool f y := (hguard.mono ht).reads hw
  cases y with
  | false => cases x <;> simp [value, above]
  | true => simp [value, hx rfl]

theorem computes_product (result constraint : Path) {l l' : LinComb f}
    (hl : ∀ w, Agrees w s → l.eval w = ofBool f x)
    (hl' : ∀ w, Agrees w s → l'.eval w = ofBool f y) :
    Computes H s (Bit.product result constraint (some (x && y)) l l') True fun t b =>
      b.Known t (x && y) := by
  apply Computes.next (Circuit.computes_alloc ..)
  rintro t ⟨i, _⟩ ht ⟨rfl, assigned⟩
  refine computes_enforced _ _ _ _ (fun w hw => ?_) fun u hu => ⟨rfl, assigned.mono hu⟩
  have value : w i = ofBool f (x && y) := hw _ _ assigned
  rw [hl w (hw.mono ht), hl' w (hw.mono ht), LinComb.eval_ofAux, value, ofBool_and]

theorem computes_and (ns : Path) (ha : a.Known s x) (hb : b.Known s y) :
    Computes H s (Bit.and ns a b) True fun t r => r.Known t (x && y) := by
  rw [Bit.and, ha.value, hb.value]
  exact computes_product _ _ (fun w hw => (ha.reads hw).lc) (fun w hw => (hb.reads hw).lc)

theorem computes_andNot (ns : Path) (ha : a.Known s x) (hb : b.Known s y) :
    Computes H s (Bit.andNot ns a b) True fun t r => r.Known t (x && !y) := by
  rw [Bit.andNot, ha.value, hb.value]
  exact computes_product _ _ (fun w hw => (ha.reads hw).lc) (fun w hw => (hb.reads hw).complement)

theorem computes_nor (ns : Path) (ha : a.Known s x) (hb : b.Known s y) :
    Computes H s (Bit.nor ns a b) True fun t r => r.Known t (!x && !y) := by
  rw [Bit.nor, ha.value, hb.value]
  exact computes_product _ _ (fun w hw => (ha.reads hw).complement)
    (fun w hw => (hb.reads hw).complement)

theorem computes_andFrom (ns : Path) (k : Nat) {first : Bit} {rest : List Bit} {ys : List Bool}
    (hfirst : first.Known s x) (hrest : List.Forall₂ (Bit.Known s) rest ys) :
    Computes H s (Bit.andFrom ns k first rest) True fun t r => r.Known t (x && ys.all id) := by
  induction rest generalizing k first x ys s with
  | nil =>
    cases hrest
    exact computes_pure (by simpa using hfirst)
  | cons b rest ih =>
    cases hrest with
    | @cons _ y _ ys hb hrest =>
      apply Computes.next (computes_enter ..)
      intro t ns' ht _
      apply Computes.next (computes_and ns' (hfirst.mono ht) (hb.mono ht))
      intro u r hu hr
      rw [List.all_cons, ← Bool.and_assoc]
      exact ih (k + 1) hr (hrest.imp fun _ _ h => h.mono (ht.trans hu))

theorem computes_andAll (ns : Path) {first : Bit} {rest : List Bit} {ys : List Bool}
    (hfirst : first.Known s x) (hrest : List.Forall₂ (Bit.Known s) rest ys) :
    Computes H s (Bit.andAll ns first rest) True fun t r => r.Known t (x && ys.all id) :=
  computes_andFrom ns 1 hfirst hrest

end Bit

namespace Boolean

/-- The Boolean has a value, and its bit, if it has one, was allocated to fit. -/
def Known (s : System f) : Boolean → Bool → Prop
  | is b, x => b.Known s x
  | not b, x => b.Known s !x
  | constant c, x => c = x

/-- The Boolean has some value of which this is so. -/
def Valued (s : System f) (b : Boolean) : Prop :=
  ∃ x, b.Known s x

variable {a b : Boolean} {x y : Bool}

theorem Known.mono (h : b.Known s x) (hg : s.Grows t) : b.Known t x := by
  cases b with
  | is b => exact Bit.Known.mono h hg
  | not b => exact Bit.Known.mono h hg
  | constant c => exact h

theorem Valued.mono (h : b.Valued s) (hg : s.Grows t) : b.Valued t :=
  h.imp fun _ h => h.mono hg

theorem Known.value (h : b.Known s x) : b.value = some x := by
  cases b with
  | is b => exact Bit.Known.value h
  | not b => simp [Boolean.value, Bit.Known.value h]
  | constant c => exact congrArg some h

theorem Known.reads (h : b.Known s x) (hw : Agrees w s) : b.Reads w x := by
  cases b with
  | is b => exact Bit.Known.reads h hw
  | not b => exact Bit.Known.reads h hw
  | constant c => exact h

theorem Known.negate (h : b.Known s x) : b.negate.Known s !x := by
  cases b with
  | is b =>
    change b.Known s !!x
    rwa [Bool.not_not]
  | not b => exact h
  | constant c => exact congrArg _ h

/-- A conjunction is known with both its sides, whichever gate it takes. -/
theorem computes_and (ns : Path) (ha : a.Known s x) (hb : b.Known s y) :
    Computes H s (Boolean.and ns a b) True fun t r => r.Known t (x && y) := by
  unfold Boolean.and
  split
  · obtain rfl := ha
    exact computes_pure rfl
  · obtain rfl := hb
    exact computes_pure (Bool.and_false x).symm
  · obtain rfl := ha
    exact computes_pure hb
  · obtain rfl := hb
    exact computes_pure (by rwa [Bool.and_true])
  · apply Computes.next (Bit.computes_andNot ns ha hb)
    intro t r _ hr
    rw [Bool.not_not] at hr
    exact computes_pure hr
  · apply Computes.next (Bit.computes_andNot ns hb ha)
    intro t r _ hr
    rw [Bool.not_not, Bool.and_comm] at hr
    exact computes_pure hr
  · apply Computes.next (Bit.computes_nor ns ha hb)
    intro t r _ hr
    rw [Bool.not_not, Bool.not_not] at hr
    exact computes_pure hr
  · apply Computes.next (Bit.computes_and ns ha hb)
    intro t r _ hr
    exact computes_pure hr

end Boolean

section Choice

variable {a b : Num f} {va vb : Element f} {condition : Boolean} {c : Bool}

theorem computes_equal (path : Path) (ha : a.Known s va) (hb : b.Known s vb) :
    Computes H s (equal path a b) (va = vb) fun _ _ => True := by
  apply computes_enforce
  intro w hw
  simp [ha.eval hw, hb.eval hw]

/-- The inverse that is given for a number, zero for zero, makes its product one or not. -/
theorem eval_inverse {inverse : Num f} (ha : a.Known s va)
    (hinverse : inverse.Known s (va.invert?.getD 0)) (hw : Agrees w s) :
    LinComb.eval w a.lc * LinComb.eval w inverse.lc = LinComb.eval w [(.one, 1)] ↔ va ≠ 0 := by
  rw [Num.eval_lc, Num.eval_lc, ha.eval hw, hinverse.eval hw]
  simp only [LinComb.eval_cons, LinComb.eval_nil, Var.eval_one, mul_one, add_zero]
  constructor
  · rintro h rfl
    simp at h
  · exact Element.mul_invert?

theorem computes_nonzero (ns : Path) (ha : a.Known s va) :
    Computes H s (nonzero ns a) (va ≠ 0) fun _ _ => True := by
  apply Computes.next (computes_enter ..)
  intro t ns' ht _
  rw [ha.value, Option.map_some]
  apply Computes.next (Num.computes_alloc ..)
  intro u inverse hu hinverse
  apply computes_enforce
  exact fun w hw => eval_inverse (ha.mono (ht.trans hu)) hinverse hw

theorem breaks_nonzero (ns : Path) (ha : a.Known s 0) :
    Breaks H s (nonzero ns a) (.numIsNonzero :: ns) := by
  apply Computes.breaks (computes_enter ..)
  intro t ns' ht _
  rw [ha.value, Option.map_some]
  apply Computes.breaks (Num.computes_alloc ..)
  intro u inverse hu hinverse
  apply breaks_enforce
  exact fun w hw h => (eval_inverse (ha.mono (ht.trans hu)) hinverse hw).mp h rfl

theorem computes_pick (ns : Path) (hc : condition.Known s c) (ha : a.Known s va)
    (hb : b.Known s vb) :
    Computes H s (pick ns condition a b) True fun t r => r.Known t (if c then va else vb) := by
  have value : (condition.value.bind fun c => if c then a.value else b.value) =
      some (if c then va else vb) := by
    rw [hc.value, ha.value, hb.value]
    cases c <;> rfl
  apply Computes.next (computes_enter ..)
  intro t ns' ht _
  rw [value]
  apply Computes.next (Num.computes_alloc ..)
  intro u r hu hr
  have later : s.Grows u := ht.trans hu
  refine computes_enforced _ _ _ _ (fun w hw => ?_) fun v hv => hr.mono hv
  have evalA : w a.index = va := (ha.mono later).eval hw
  have evalB : w b.index = vb := (hb.mono later).eval hw
  have evalR : w r.index = if c then va else vb := hr.eval hw
  rw [((hc.mono later).reads hw).lc]
  cases c <;> simp [evalA, evalB, evalR]

theorem computes_pick_valued (ns : Path) (hc : condition.Valued s) (ha : a.Valued s)
    (hb : b.Valued s) :
    Computes H s (pick ns condition a b) True fun t r => r.Valued t := by
  obtain ⟨_, hc⟩ := hc
  obtain ⟨_, ha⟩ := ha
  obtain ⟨_, hb⟩ := hb
  exact (computes_pick ns hc ha hb).mono fun _ _ _ h => ⟨_, h⟩

end Choice

theorem computes_hashNode (ns : Path) (a : Arity) {children : List (Num f)}
    {node : Node f a.width} (h : List.Forall₂ (Num.Known s) children node.toList) :
    Computes H s (hashNode H ns a children) True fun t r => r.Known t (H a node) := by
  have width : children.length = a.width := by simpa using h.length_eq
  have values : children.mapM Num.value = some node.toList := by
    generalize node.toList = row at h
    clear width
    induction h with
    | nil => rfl
    | cons hx _ ih => simp [hx.value, ih]
  rw [hashNode, if_pos width, values, Option.bind_some, Node.ofRow?_toList]
  dsimp only [Option.map_some]
  apply Computes.next (computes_enter ..)
  intro t ns' ht _
  apply Computes.next (Num.computes_alloc ..)
  intro u output hu houtput
  apply Computes.next (computes_addHash _ _ _ _ fun w hw => ?_)
  · intro v _ hv _
    exact computes_pure (houtput.mono hv)
  · have row : (children.map Num.index).map w = node.toList := by
      rw [List.map_map]
      exact Num.map_eval_of_known h (hw.mono (ht.trans hu))
    exact ⟨node, by rw [row, Node.ofRow?_toList], houtput.eval hw⟩

end Circuit

end PoseidonTrie
