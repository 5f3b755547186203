import PoseidonTrie.Circuit.Path
import PoseidonTrie.Proofs.Circuit.Choice
import PoseidonTrie.Proofs.Circuit.Decompose
import PoseidonTrie.Proofs.Trie.Chain

/-! What the path circuits force. A lookup forces a chain of nodes along the key's digits, and an
insertion forces the root of that chain rebuilt over the new value. -/
namespace PoseidonTrie.Circuit

variable {f : PrimeField} {a : Arity} {H : Hasher f} {w : Assignment f}

/-- The assignment gives a row of numbers the children of a node. -/
def ReadsNode (w : Assignment f) (row : List (Num f)) (node : Node f a.width) : Prop :=
  node.toList = row.map (Num.eval w)

/-- The assignment gives bits that denote a digit, as many as digits have. -/
def ReadsDigit (w : Assignment f) (bits : List Boolean) (k : Fin a.width) : Prop :=
  ∃ vs, List.Forall₂ (Boolean.Reads w) bits vs ∧ 2 ^ vs.length = a.width ∧ natOfBits vs = k.val

theorem forall₂_range_map {α β γ : Type} {R : β → γ → Prop} (xs : List α) (g : α → β) (k : α → γ)
    (h : ∀ x ∈ xs, R (g x) (k x)) : List.Forall₂ R (xs.map g) (xs.map k) := by
  induction xs with
  | nil => exact .nil
  | cons x xs ih =>
    exact .cons (h x (List.mem_cons_self ..)) (ih fun y hy => h y (List.mem_cons_of_mem _ hy))

/-- The digits cut from the bits of a number are the digits of its path, however bits stand for
their values. -/
theorem forall₂_digitsOf {R : Boolean → Bool → Prop} {height : Nat} {bits : List Boolean}
    {vs : List Bool} (h : List.Forall₂ R bits vs) (hlen : vs.length = height * digitBits a.width) :
    List.Forall₂ (fun bits (k : Fin a.width) =>
        ∃ vs, List.Forall₂ R bits vs ∧ 2 ^ vs.length = a.width ∧ natOfBits vs = k.val)
      (digitsOf (digitBits a.width) height bits) (a.digits height (natOfBits vs)) := by
  apply forall₂_range_map
  intro i hi
  have hi : i < height := by simpa using hi
  refine ⟨(vs.drop (i * digitBits a.width)).take (digitBits a.width), ?_, ?_, ?_⟩
  · exact List.forall₂_take _ (List.forall₂_drop _ h)
  · have enough : digitBits a.width ≤ (vs.drop (i * digitBits a.width)).length := by
      have : (i + 1) * digitBits a.width ≤ height * digitBits a.width :=
        Nat.mul_le_mul_right _ hi
      rw [Nat.add_mul, Nat.one_mul] at this
      rw [List.length_drop, hlen]
      omega
    rw [List.length_take_of_le enough, a.two_pow_digitBits]
  · rw [natOfBits_take, natOfBits_drop, Nat.mul_comm i, a.two_pow_digitBits_mul,
      a.two_pow_digitBits]

theorem child_of_select {row : List (Num f)} {node : Node f a.width} {bits : List Boolean}
    {k : Fin a.width} {next : Num f} (hnode : ReadsNode w row node) (hk : ReadsDigit w bits k)
    (h : ∀ vs, List.Forall₂ (Boolean.Reads w) bits vs →
      (row.map (Num.eval w))[natOfBits vs]? = some (next.eval w)) :
    node.child k = next.eval w := by
  obtain ⟨vs, hvs, _, hnum⟩ := hk
  have found := h vs hvs
  rw [← hnode, hnum] at found
  simpa [Node.child] using found

theorem forces_allocNode (ns : Path) (level : Nat) (node : Option (Node f a.width)) :
    Forces H (allocNode ns a level node) fun _ _ => True := by
  apply (Forces.mapM (S := fun _ _ _ => True) _ ?_).mono fun _ _ _ => trivial
  intro i _
  apply Forces.bind (forces_enter ..)
  intro ns'
  exact (Num.forces_alloc ..).mono fun _ _ _ _ => trivial

theorem forces_lookupLevels (ns : Path) (witness : Option (List (Node f a.width))) (level : Nat)
    (next : Num f) (digits : List (List Boolean)) :
    Forces H (lookupLevels H ns a witness level next digits) fun w out =>
      ∀ ks, List.Forall₂ (ReadsDigit (a := a) w) digits ks →
        ∃ nodes : List (Node f a.width), List.Forall₂ (ReadsNode w) out.1 nodes ∧
          nodes.length = ks.length ∧ Chained H (next.eval w) (out.2.eval w) (ks.zip nodes) := by
  induction digits generalizing level next with
  | nil =>
    apply forces_pure
    intro w ks hks
    cases hks
    exact ⟨[], .nil, rfl, rfl⟩
  | cons digit digits ih =>
    rw [lookupLevels]
    apply Forces.bind (forces_allocNode ..)
    intro children
    apply Forces.bind (forces_enter ..)
    intro ns'
    apply Forces.bind (forces_hashNode ..)
    intro commitment
    apply Forces.bind (forces_equal ..)
    intro _
    apply Forces.bind (forces_enter ..)
    intro ns''
    apply Forces.bind (forces_select ..)
    intro below
    apply Forces.bind (ih (level + 1) below)
    rintro ⟨rest, leaf⟩
    apply forces_pure
    rintro w hrest hselect _ hequal ⟨node, hnode, hhash⟩ _ _ ks hks
    cases hks with
    | @cons _ k _ ks hk hks =>
      obtain ⟨nodes, hnodes, hlen, hchain⟩ := hrest ks hks
      refine ⟨node :: nodes, .cons hnode hnodes, by simp [hlen], ?_, ?_⟩
      · rw [← hhash, hequal]
      · rw [child_of_select hnode hk hselect]
        exact hchain

/-- A lookup forces a key with a path and a chain from the root along it. -/
theorem forces_lookupPath (ns : Path) (a : Arity) (root key : Num f) (height : Nat)
    (witness : Option (List (Node f a.width))) :
    Forces H (lookupPath H ns a.width root key height witness) fun w out =>
      ∃ (ks : List (Fin a.width)) (nodes : List (Node f a.width)),
        (0 < height ∧ height ≤ fullHeight f a) ∧ a.path (key.eval w) height = .ok ks ∧
          nodes.length = height ∧ List.Forall₂ (ReadsNode w) out.nodes nodes ∧
          List.Forall₂ (ReadsDigit w) out.digits ks ∧
          Chained H (root.eval w) (out.leaf.eval w) (ks.zip nodes) := by
  unfold lookupPath
  rw [dif_pos a.supported]
  dsimp only
  split
  · exact forces_fail _
  · rename_i hheight
    split
    · exact forces_fail _
    · apply Forces.bind (forces_enter ..)
      intro ns'
      apply Forces.bind (forces_numBits ..)
      intro bits
      apply Forces.bind (forces_lookupLevels ..)
      rintro ⟨rows, leaf⟩
      apply forces_pure
      rintro w hlevels ⟨vs, hvs, hlen, hval⟩ _
      have hle : height ≤ fullHeight f a := Nat.le_of_not_lt fun h => hheight (Or.inr h)
      have fits : (key.eval w).val < a.width ^ height := by
        have := natOfBits_lt vs
        rwa [hlen, Nat.mul_comm, a.two_pow_digitBits_mul, ← hval] at this
      have hdigits : List.Forall₂ (ReadsDigit w) (digitsOf (digitBits a.width) height bits)
          (a.digits height (natOfBits vs)) := forall₂_digitsOf hvs hlen
      obtain ⟨nodes, hnodes, hcount, hchain⟩ := hlevels _ hdigits
      rw [← hval] at hdigits hchain hcount
      rw [Arity.length_digits] at hcount
      exact ⟨_, nodes, ⟨by omega, hle⟩, Arity.path_of_lt hle fits, hcount, hnodes, hdigits, hchain⟩

theorem toList_put (node : Node f a.width) (k : Fin a.width) (x : Element f) :
    (node.put k x).toList = node.toList.set k x :=
  Vector.toList_set ..

theorem forces_pickEach (ns : Path) (level : Nat) (below : Num f) (row : List (Num f))
    (chosen : List Boolean) :
    Forces H (pickEach ns level below row chosen) fun w out =>
      ∀ cs, List.Forall₂ (Boolean.Reads w) chosen cs →
        out.map (Num.eval w) =
          List.zipWith (fun y c => if c then below.eval w else y) (row.map (Num.eval w)) cs := by
  apply (Forces.mapM (S := fun p w r => ∀ x, p.1.2.Reads w x →
    r.eval w = if x then below.eval w else p.1.1.eval w) _ ?_).mono
  · intro w out h cs hcs
    have picked := forall₂_of_zipIdx (R := fun (p : Num f × Boolean) (r : Num f) =>
      ∀ x, p.2.Reads w x → r.eval w = if x then below.eval w else p.1.eval w) h
    clear h
    induction row generalizing chosen out cs with
    | nil =>
      cases picked
      rfl
    | cons sibling row ih =>
      cases hcs with
      | nil =>
        cases picked
        rfl
      | cons hc hcs =>
        cases picked with
        | cons hr picked =>
          rw [List.map_cons, List.map_cons, List.zipWith_cons_cons, hr _ hc, ih _ _ _ hcs picked]
  · rintro ⟨⟨sibling, c⟩, i⟩ _
    apply Forces.bind (forces_enter ..)
    intro ns'
    exact (forces_pick ns' c below sibling).mono fun _ _ h _ => h

theorem forces_pickEachAt (ns : Path) (level : Nat) (new : Num f) (xs : List (Num f))
    (chosen : List Boolean) :
    Forces H (pickEach ns level new xs chosen) fun w row =>
      ∀ n k, xs.length = 2 ^ n → List.Forall₂ (Boolean.Reads w) chosen (oneHot n k) →
        row.map (Num.eval w) = (xs.map (Num.eval w)).set k (new.eval w) := by
  apply (forces_pickEach ..).mono
  intro w row h n k hlen hchosen
  rw [h _ hchosen, zipWith_oneHot (by rwa [List.length_map])]

theorem forces_insertLevels (ns : Path) (value : Num f) (level : Nat)
    (steps : List (List (Num f) × List Boolean)) :
    Forces H (insertLevels H ns a value level steps) fun w out =>
      ∀ (nodes : List (Node f a.width)) ks, List.Forall₂ (ReadsNode w) (steps.map (·.1)) nodes →
        List.Forall₂ (ReadsDigit w) (steps.map (·.2)) ks →
          out.eval w = rebuiltRoot H (value.eval w) (ks.zip nodes) := by
  induction steps generalizing level with
  | nil =>
    apply forces_pure
    intro w nodes ks hnodes hks
    cases hnodes
    cases hks
    rfl
  | cons step steps ih =>
    obtain ⟨row, digit⟩ := step
    rw [insertLevels]
    -- What is below is rebuilt first.
    apply Forces.bind (ih (level + 1))
    intro below
    apply Forces.bind (forces_enter ..)
    intro ns'
    apply Forces.bind (forces_selectors ..)
    intro chosen
    apply Forces.bind (forces_pickEachAt ..)
    intro children
    apply Forces.bind (forces_enter ..)
    intro ns''
    apply (forces_hashNode ..).mono
    rintro w out ⟨new, hnew, hout⟩ _ hreplace hselect _ hbelow nodes ks hnodes hks
    cases hnodes with
    | @cons _ node _ nodes hnode hnodes =>
      cases hks with
      | @cons _ k _ ks hk hks =>
        obtain ⟨vs, hvs, hwidth, hnum⟩ := hk
        have count : row.length = 2 ^ vs.length := by
          simpa [hwidth] using (congrArg List.length hnode).symm
        have replaced := hreplace _ _ count (hselect vs hvs)
        rw [← hnew, ← hnode, hnum, ← toList_put, hbelow nodes ks hnodes hks] at replaced
        rw [hout, List.zip_cons_cons, rebuiltRoot, Vector.toList_inj.mp replaced]

end PoseidonTrie.Circuit
