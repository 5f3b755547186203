import PoseidonTrie.Proofs.Bits
import PoseidonTrie.Proofs.Circuit.Gadgets

/-! What comparing, choosing and hashing numbers forces. Digits given by bits select the child of
their number, and their selectors are true at that number alone. -/
namespace PoseidonTrie

variable {f : PrimeField}

theorem Node.ofRow?_eq_some {n : Nat} {row : List (Element f)} {node : Node f n}
    (h : Node.ofRow? n row = some node) : node.toList = row := by
  unfold Node.ofRow? at h
  split at h
  · cases h
    rfl
  · cases h

namespace Circuit

variable {H : Hasher f} {w : Assignment f} {α β γ δ : Type}

section Lists

variable {R : α → β → Prop} {xs : List α} {ys : List β}

theorem forall₂_of_zipIdx {k : Nat}
    (h : List.Forall₂ (fun p b => R p.1 b) (xs.zipIdx k) ys) : List.Forall₂ R xs ys := by
  rw [← List.zipIdx_map_fst k xs]
  exact List.forall₂_map_left_iff.mpr h

theorem map_eq_of_forall₂ {g : α → γ} {k : β → γ} (h : List.Forall₂ (fun a b => k b = g a) xs ys) :
    ys.map k = xs.map g := by
  induction h with
  | nil => rfl
  | cons hab _ ih => rw [List.map_cons, List.map_cons, hab, ih]

end Lists

def Num.eval (w : Assignment f) (x : Num f) : Element f :=
  w x.index

theorem Num.forces_alloc (ns : Path) (value : Option (Element f)) :
    Forces H (Num.alloc ns value) fun _ _ => True := by
  apply Forces.bind (Circuit.forces_alloc ..)
  rintro ⟨index, _⟩
  exact forces_pure fun _ _ => trivial

@[simp] theorem Num.eval_lc (x : Num f) : LinComb.eval w x.lc = x.eval w :=
  LinComb.eval_ofAux _

theorem forces_equal (path : Path) (a b : Num f) :
    Forces H (equal path a b) fun w _ => a.eval w = b.eval w := by
  apply (forces_enforce ..).mono
  intro w _ h
  simpa using h

theorem forces_nonzero (ns : Path) (x : Num f) :
    Forces H (nonzero ns x) fun w _ => x.eval w ≠ 0 := by
  apply Forces.bind (forces_enter ..)
  intro ns'
  apply Forces.bind (Num.forces_alloc ..)
  intro inverse
  apply (forces_enforce ..).mono
  intro w _ h _ _ hz
  simp [hz] at h

theorem forces_pick (ns : Path) (condition : Boolean) (a b : Num f) :
    Forces H (pick ns condition a b) fun w r =>
      ∀ x, condition.Reads w x → r.eval w = if x then a.eval w else b.eval w := by
  apply Forces.bind (forces_enter ..)
  intro ns'
  apply Forces.bind (Num.forces_alloc ..)
  intro r
  apply Forces.bind (forces_enforce ..)
  intro _
  apply forces_pure
  intro w h _ _ x hx
  rw [hx.lc] at h
  simp only [LinComb.eval_cons, LinComb.eval_nil, Var.eval_aux, one_mul, add_zero, neg_mul] at h
  cases x with
  | false =>
    rw [ofBool_false, mul_zero, ← sub_eq_add_neg] at h
    exact (sub_eq_zero.mp h.symm).symm
  | true =>
    rw [ofBool_true, mul_one] at h
    exact (neg_injective (add_left_cancel h)).symm

theorem forces_hashNode (ns : Path) (a : Arity) (children : List (Num f)) :
    Forces H (hashNode H ns a children) fun w r =>
      ∃ node : Node f a.width, node.toList = children.map (Num.eval w) ∧ r.eval w = H a node := by
  unfold hashNode
  split
  · apply Forces.bind (forces_enter ..)
    intro ns'
    apply Forces.bind (Num.forces_alloc ..)
    intro output
    apply Forces.bind (forces_addHash ..)
    intro _
    apply forces_pure
    rintro w ⟨node, hrow, hout⟩ _ _
    refine ⟨node, ?_, hout⟩
    rw [Node.ofRow?_eq_some hrow, List.map_map]
    rfl
  · exact forces_fail _

/-- One round of picks keeps one of two halves. -/
theorem forces_pickHalf (ns : Path) (round : Nat) (bit : Boolean) (low high : List (Num f)) :
    Forces H (pickHalf ns round bit low high) fun w next =>
      ∀ x, bit.Reads w x → low.length = high.length →
        next.map (Num.eval w) = (if x then high else low).map (Num.eval w) := by
  apply (Forces.mapM (S := fun p w r => ∀ x, bit.Reads w x →
    r.eval w = if x then p.1.2.eval w else p.1.1.eval w) _ ?_).mono
  · intro w next h x hx hlen
    have picked := forall₂_of_zipIdx
      (R := fun p r => r.eval w = if x then p.2.eval w else p.1.eval w) (h.imp fun _ _ h => h x hx)
    rw [map_eq_of_forall₂ picked]
    cases x with
    | false =>
      have kept := congrArg (List.map (Num.eval w)) (List.map_fst_zip hlen.le)
      rwa [List.map_map] at kept
    | true =>
      have kept := congrArg (List.map (Num.eval w)) (List.map_snd_zip hlen.ge)
      rwa [List.map_map] at kept
  · rintro ⟨⟨l, h⟩, j⟩ _
    apply Forces.bind (forces_enter ..)
    intro ns'
    exact (forces_pick ns' bit h l).mono fun _ _ hp _ => hp

/-- The bit on top of an index chooses a half, and those below it the place in that half. -/
theorem getElem?_half {xs : List α} {v : Bool} {vs : List Bool}
    (half : xs.length / 2 = 2 ^ vs.length) :
    (if v then xs.drop (xs.length / 2) else xs.take (xs.length / 2))[natOfBits vs.reverse]? =
      xs[natOfBits (v :: vs).reverse]? := by
  have bound := natOfBits_lt vs.reverse
  rw [List.length_reverse] at bound
  rw [List.reverse_cons, natOfBits_append, List.length_reverse, half]
  cases v with
  | false => simp [natOfBits_cons, bound]
  | true => simp [natOfBits_cons, List.getElem?_drop, Nat.add_comm]

/-- The number left by halving after halving is at the index that the bits give. -/
theorem forces_selectFrom (ns : Path) (round : Nat) (bits : List Boolean) (xs : List (Num f)) :
    Forces H (selectFrom ns round bits xs) fun w r =>
      ∀ vs, List.Forall₂ (Boolean.Reads w) bits vs → xs.length = 2 ^ bits.length →
        (xs.map (Num.eval w))[natOfBits vs.reverse]? = some (r.eval w) := by
  induction bits generalizing round xs with
  | nil =>
    match xs with
    | [] => exact forces_crash
    | x :: _ =>
      apply forces_pure
      intro w vs hvs _
      cases hvs
      rfl
  | cons bit bits ih =>
    rw [selectFrom]
    apply Forces.bind (forces_pickHalf ..)
    intro next
    apply (ih (round + 1) next).mono
    intro w r hrest hpick vs hvs hlen
    rw [List.length_cons, Nat.pow_succ] at hlen
    have half : xs.length / 2 = 2 ^ bits.length := by omega
    have low : (xs.take (xs.length / 2)).length = 2 ^ bits.length := by
      rw [List.length_take]
      omega
    have high : (xs.drop (xs.length / 2)).length = 2 ^ bits.length := by
      rw [List.length_drop]
      omega
    cases hvs with
    | @cons _ v _ vs hv hvs =>
      have kept := hpick v hv (low.trans high.symm)
      have length : next.length = 2 ^ bits.length := by
        have := congrArg List.length kept
        rw [List.length_map, List.length_map] at this
        rw [this]
        cases v
        · exact low
        · exact high
      rw [hvs.length_eq] at half
      rw [← hrest vs hvs length, kept, List.getElem?_map, List.getElem?_map, getElem?_half half]

theorem length_pickHalf {ns : Path} {round : Nat} {bit : Boolean} {xs next : List (Num f)}
    {s t : System f}
    (h : pickHalf ns round bit (xs.take (xs.length / 2)) (xs.drop (xs.length / 2)) s =
      .ok (next, t)) :
    next.length = xs.length / 2 := by
  rw [length_of_mapM h, List.length_zipIdx, List.length_zip, List.length_take, List.length_drop]
  omega

/-- Something is left after all halvings only if there were as many numbers as the bits tell
apart. -/
theorem le_of_selectFrom {ns : Path} {round : Nat} {bits : List Boolean} {xs : List (Num f)}
    {s : System f} {r : Num f × System f} (h : selectFrom ns round bits xs s = .ok r) :
    2 ^ bits.length ≤ xs.length := by
  induction bits generalizing round xs s with
  | nil =>
    match xs, h with
    | _ :: _, _ => exact Nat.succ_le_succ (Nat.zero_le _)
  | cons bit bits ih =>
    obtain ⟨next, t, hnext, hrest⟩ := bind_eq_ok h
    have enough := ih hrest
    rw [length_pickHalf hnext] at enough
    rw [List.length_cons, Nat.pow_succ]
    omega

/-- There is a number for each index, and a word can count them. -/
def Selectable (xs : List (Num f)) (bits : List Boolean) : Prop :=
  bits.length < 64 ∧ xs.length = 2 ^ bits.length

theorem Selectable.select_eq {xs : List (Num f)} {bits : List Boolean} (h : Selectable xs bits)
    (ns : Path) : select ns xs bits = selectFrom ns 0 bits.reverse xs := by
  obtain ⟨few, hlen⟩ := h
  rw [select, if_pos (by rw [shiftOne_of_lt few, hlen])]

/-- Where a word cannot count the numbers, the guard lets too few of them through. -/
theorem selectable_of_select {ns : Path} {bits : List Boolean} {xs : List (Num f)} {s : System f}
    {r : Num f × System f} (h : select ns xs bits s = .ok r) : Selectable xs bits := by
  unfold select at h
  split at h
  · rename_i counted
    have enough := le_of_selectFrom h
    rw [List.length_reverse, counted] at enough
    have all : shiftOne bits.length = 2 ^ bits.length := (shiftOne_le _).antisymm enough
    exact ⟨shiftOne_eq_iff.mp all, counted.trans all⟩
  · cases h

theorem forces_select (ns : Path) (xs : List (Num f)) (bits : List Boolean) :
    Forces H (select ns xs bits) fun w r =>
      ∀ vs, List.Forall₂ (Boolean.Reads w) bits vs →
        (xs.map (Num.eval w))[natOfBits vs]? = some (r.eval w) := by
  refine ⟨?_⟩
  intro s r t hs hrun
  have selectable := selectable_of_select hrun
  rw [selectable.select_eq] at hrun
  obtain ⟨cs, he, forced⟩ := (forces_selectFrom ns 0 bits.reverse xs).of_run s r t hs hrun
  refine ⟨cs, he, fun w hw vs hvs => ?_⟩
  have found := forced w hw vs.reverse (List.forall₂_reverse_iff.mpr hvs)
    (by rw [selectable.2, List.length_reverse])
  rwa [List.reverse_reverse] at found

/-- The numbers below `2 ^ n` told from one of them. -/
def oneHot (n k : Nat) : List Bool :=
  (List.range (2 ^ n)).map fun i => decide (i = k)

theorem length_oneHot (n k : Nat) : (oneHot n k).length = 2 ^ n := by
  simp [oneHot]

theorem zipWith_oneHot {n k : Nat} {ys : List α} (hlen : ys.length = 2 ^ n) (x : α) :
    List.zipWith (fun y c => if c then x else y) ys (oneHot n k) = ys.set k x := by
  apply List.ext_getElem
  · simp [oneHot, hlen]
  · intro i h₁ h₂
    simp only [List.getElem_zipWith, oneHot, List.getElem_map, List.getElem_range,
      List.getElem_set, decide_eq_true_eq]
    exact if_congr eq_comm rfl rfl

/-- A bit on top of a number doubles what it is told from. -/
theorem oneHot_succ {n k : Nat} (hk : k < 2 ^ n) (v : Bool) :
    (oneHot n k).map (· && !v) ++ (oneHot n k).map (· && v) =
      oneHot (n + 1) (k + 2 ^ n * v.toNat) := by
  rw [oneHot, oneHot, Nat.pow_succ, Nat.mul_two, List.range_add, List.map_append, List.map_map,
    List.map_map, List.map_map]
  congr 1
  · apply List.map_congr_left
    intro i hi
    have := List.mem_range.mp hi
    cases v <;> simp
    omega
  · apply List.map_congr_left
    intro i hi
    have := List.mem_range.mp hi
    cases v <;> simp
    · omega
    · omega

theorem reads_pairs {v : Bool} {chosen : List Boolean} {pairs : List (Boolean × Boolean)}
    {cs : List Bool}
    (h : List.Forall₂ (fun c r => ∀ x, c.Reads w x →
      r.1.Reads w (x && !v) ∧ r.2.Reads w (x && v)) chosen pairs)
    (hcs : List.Forall₂ (Boolean.Reads w) chosen cs) :
    List.Forall₂ (Boolean.Reads w) (pairs.map (·.1)) (cs.map (· && !v)) ∧
      List.Forall₂ (Boolean.Reads w) (pairs.map (·.2)) (cs.map (· && v)) := by
  induction h generalizing cs with
  | nil =>
    cases hcs
    exact ⟨.nil, .nil⟩
  | cons hr _ ih =>
    cases hcs with
    | cons hc hcs =>
      obtain ⟨unset, set⟩ := ih hcs
      exact ⟨.cons (hr _ hc).1 unset, .cons (hr _ hc).2 set⟩

theorem forces_selectorRound (ns : Path) (i : Nat) (bit : Boolean) (chosen : List Boolean) :
    Forces H (selectorRound (f := f) ns i bit chosen) fun w next =>
      ∀ v cs, bit.Reads w v → List.Forall₂ (Boolean.Reads w) chosen cs →
        List.Forall₂ (Boolean.Reads w) next (cs.map (· && !v) ++ cs.map (· && v)) := by
  apply Forces.bind (Forces.mapM (S := fun p w r => ∀ v c, bit.Reads w v → p.1.Reads w c →
    r.1.Reads w (c && !v) ∧ r.2.Reads w (c && v)) _ ?_)
  · intro pairs
    apply forces_pure
    intro w h v cs hv hcs
    have read := forall₂_of_zipIdx
      (R := fun c r => ∀ x, c.Reads w x → r.1.Reads w (x && !v) ∧ r.2.Reads w (x && v))
      (h.imp fun _ _ h x hx => h v x hv hx)
    obtain ⟨unset, set⟩ := reads_pairs read hcs
    exact List.rel_append unset set
  · rintro ⟨c, j⟩ _
    apply Forces.bind (forces_enter ..)
    intro ns'
    apply Forces.bind (Boolean.forces_and ..)
    intro unset
    apply Forces.bind (forces_enter ..)
    intro ns''
    apply Forces.bind (Boolean.forces_and ..)
    intro set
    apply forces_pure
    intro w hset _ hunset _ v x hv hx
    exact ⟨hunset x (!v) hx hv.negate, hset x v hx hv⟩

theorem forces_selectorsFrom (ns : Path) (i : Nat) (bits chosen : List Boolean) :
    Forces H (selectorsFrom (f := f) ns i bits chosen) fun w r =>
      ∀ n k vs, List.Forall₂ (Boolean.Reads w) chosen (oneHot n k) → k < 2 ^ n →
        List.Forall₂ (Boolean.Reads w) bits vs →
          List.Forall₂ (Boolean.Reads w) r (oneHot (n + vs.length) (k + 2 ^ n * natOfBits vs)) := by
  induction bits generalizing i chosen with
  | nil =>
    apply forces_pure
    intro w n k vs hchosen _ hvs
    cases hvs
    simpa using hchosen
  | cons bit bits ih =>
    apply Forces.bind (forces_selectorRound ns i bit chosen)
    intro next
    apply (ih (i + 1) next).mono
    intro w r hrest hnext n k vs hchosen hk hvs
    cases hvs with
    | @cons _ v _ vs hv hvs =>
      -- The new bit is above all that the selectors told apart before.
      have split := hnext v _ hv hchosen
      rw [oneHot_succ hk] at split
      have bound : k + 2 ^ n * v.toNat < 2 ^ (n + 1) := by
        rw [Nat.pow_succ]
        cases v <;> simp <;> omega
      have result := hrest _ _ vs split bound hvs
      rw [List.length_cons, natOfBits_cons]
      have width : n + 1 + vs.length = n + (vs.length + 1) := by omega
      have number : k + 2 ^ n * v.toNat + 2 ^ (n + 1) * natOfBits vs =
          k + 2 ^ n * (v.toNat + 2 * natOfBits vs) := by
        rw [Nat.pow_succ, Nat.mul_add, Nat.mul_assoc, Nat.add_assoc]
      rwa [width, number] at result

theorem forces_selectors (ns : Path) (bits : List Boolean) :
    Forces H (selectors (f := f) ns bits) fun w r =>
      ∀ vs, List.Forall₂ (Boolean.Reads w) bits vs →
        List.Forall₂ (Boolean.Reads w) r (oneHot vs.length (natOfBits vs)) := by
  apply (forces_selectorsFrom ns 0 bits [.constant true]).mono
  intro w r h vs hvs
  have start : List.Forall₂ (Boolean.Reads w) [.constant true] (oneHot 0 0) :=
    .cons rfl .nil
  simpa using h 0 0 vs start Nat.one_pos hvs

end Circuit

end PoseidonTrie
