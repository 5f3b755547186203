import PoseidonTrie.Proofs.Circuit.Path

/-! Which variables synthesis allocates, and their names. With them, what a lookup forces is told of
the numbers that are named for the children of its nodes. -/
namespace PoseidonTrie

variable {f : PrimeField} {a : Arity} {H : Hasher f}

/-- A path of nodes to a key under one root, which ends at a leaf. -/
structure LooksUpAlong (H : Hasher f) (height : Nat) (root key leaf : Element f)
    (path : List (Fin a.width)) (nodes : List (Node f a.width)) : Prop where
  pos : 0 < height
  le : height ≤ fullHeight f a
  path_eq : a.path key height = .ok path
  length : nodes.length = height
  chained : Chained H root leaf (path.zip nodes)

namespace Circuit

variable {w : Assignment f} {s s' t u : System f} {ns : Path} {α : Type}

/-- A variable that one system has beyond another, with its name. -/
def Allocated (s t : System f) (i : Nat) (path : Path) : Prop :=
  s.auxes.size ≤ i ∧ ∃ value, t.auxes[i]? = some (path, value)

theorem Allocated.mono {i : Nat} {path : Path} (h : Allocated s t i path)
    (hs : s'.auxes.toList <+: s.auxes.toList) (ht : t.auxes.toList <+: u.auxes.toList) :
    Allocated s' u i path := by
  obtain ⟨hle, value, hvalue⟩ := h
  refine ⟨Nat.le_trans hs.length_le hle, value, ?_⟩
  obtain ⟨rest, hrest⟩ := ht
  rw [← Array.getElem?_toList] at hvalue ⊢
  rw [← hrest, List.getElem?_append_left (List.getElem?_eq_some_iff.mp hvalue).1, hvalue]

theorem Forces.extends {x : Synth f α} {Q : Assignment f → α → Prop} (hx : Forces H x Q)
    (hs : s.kind ≠ .witness) {r : α} (h : x s = .ok (r, t)) :
    t.kind ≠ .witness ∧ s.auxes.toList <+: t.auxes.toList := by
  obtain ⟨cs, he, _⟩ := hx.of_run s r t hs h
  exact ⟨he.kind ▸ hs, he.auxes⟩

theorem allocated_alloc {path : Path} {value value' : Option α} {embed : α → Element f} {i : Nat}
    (h : Circuit.alloc path value embed s = .ok ((i, value'), t)) : Allocated s t i path := by
  unfold Circuit.alloc at h
  split at h
  · cases h
    exact ⟨Nat.le_refl _, none, by simp [System.addVariable]⟩
  · cases value with
    | none => cases h
    | some x =>
      cases h
      exact ⟨Nat.le_refl _, some (embed x), by simp [System.addVariable]⟩

theorem Num.allocated_alloc {value : Option (Element f)} {x : Num f}
    (h : Num.alloc ns value s = .ok (x, t)) : Allocated s t x.index (.num :: ns) := by
  obtain ⟨⟨i, v⟩, s', halloc, h⟩ := bind_eq_ok h
  cases h
  exact Circuit.allocated_alloc halloc

theorem Bit.allocated_alloc {value : Option Bool} {b : Bit}
    (h : Bit.alloc ns value s = .ok (b, t)) : Allocated s t b.index (.boolean :: ns) := by
  obtain ⟨⟨i, v⟩, s', halloc, h⟩ := bind_eq_ok h
  obtain ⟨_, t', henforce, h⟩ := bind_eq_ok h
  cases h
  have named : (s'.name (.booleanConstraint :: ns)).auxes = s'.auxes := by
    unfold System.name
    split <;> rfl
  have kept : t.auxes = s'.auxes := by
    cases henforce
    unfold System.addConstraint
    split
    · exact named
    · exact named
  obtain ⟨hle, v', hv'⟩ := Circuit.allocated_alloc halloc
  exact ⟨hle, v', kept ▸ hv'⟩

theorem allocated_mapM {xs : List α} {g : α → Synth f (Num f)} {name : α → Path}
    {ys : List (Num f)} (hg : ∀ i, Forces H (g i) fun _ _ => True)
    (hname : ∀ i s x t, g i s = .ok (x, t) → Allocated s t x.index (name i))
    (hs : s.kind ≠ .witness) (h : xs.mapM g s = .ok (ys, t)) :
    List.Forall₂ (fun i y => Allocated s t y.index (name i)) xs ys := by
  induction xs generalizing s ys with
  | nil =>
    cases h
    exact .nil
  | cons i xs ih =>
    rw [List.mapM_cons] at h
    obtain ⟨y, s₁, hfirst, h⟩ := bind_eq_ok h
    obtain ⟨rest, s₂, hrest, h⟩ := bind_eq_ok h
    cases h
    obtain ⟨hs₁, first⟩ := (hg i).extends hs hfirst
    obtain ⟨-, later⟩ := (Forces.mapM xs fun i _ => hg i).extends hs₁ hrest
    refine .cons ((hname i s y s₁ hfirst).mono List.prefix_rfl later) ?_
    exact (ih hs₁ hrest).imp fun _ _ h => h.mono first List.prefix_rfl

theorem allocated_allocNode {level : Nat} {node : Option (Node f a.width)} {row : List (Num f)}
    (hs : s.kind ≠ .witness) (h : allocNode ns a level node s = .ok (row, t)) :
    List.Forall₂ (fun (i : Fin a.width) x =>
        Allocated s t x.index (.num :: .levelChild level i :: ns))
      (List.finRange a.width) row := by
  apply allocated_mapM (H := fun _ _ => 0) (fun i => ?_) (fun i s x t h => ?_) hs h
  · exact Forces.bind (forces_enter ..) fun ns' => (Num.forces_alloc ..).mono fun _ _ h _ => h
  · obtain ⟨ns', s', henter, h⟩ := bind_eq_ok h
    cases henter
    exact (Num.allocated_alloc h).mono (extends_name _).auxes List.prefix_rfl

theorem allocated_lookupLevels {witness : Option (List (Node f a.width))} {level : Nat}
    {next : Num f} {digits : List (List Boolean)} {out : List (List (Num f)) × Num f}
    (hs : s.kind ≠ .witness)
    (h : lookupLevels H ns a witness level next digits s = .ok (out, t)) :
    ∀ l row, out.1[l]? = some row → List.Forall₂
      (fun (i : Fin a.width) x => Allocated s t x.index (.num :: .levelChild (level + l) i :: ns))
      (List.finRange a.width) row := by
  induction digits generalizing level next s out with
  | nil =>
    cases h
    intro l row hrow
    simp at hrow
  | cons digit digits ih =>
    rw [lookupLevels] at h
    obtain ⟨children, s₁, hchildren, h⟩ := bind_eq_ok h
    obtain ⟨ns₁, s₂, henter, h⟩ := bind_eq_ok h
    obtain ⟨commitment, s₃, hhash, h⟩ := bind_eq_ok h
    obtain ⟨_, s₄, hequal, h⟩ := bind_eq_ok h
    obtain ⟨ns₂, s₅, henter', h⟩ := bind_eq_ok h
    obtain ⟨below, s₆, hselect, h⟩ := bind_eq_ok h
    obtain ⟨⟨rest, leaf⟩, s₇, hrest, h⟩ := bind_eq_ok h
    cases h
    obtain ⟨hs₁, first⟩ := (forces_allocNode (H := H) ..).extends hs hchildren
    obtain ⟨hs₂, more₂⟩ := (forces_enter (H := H) ..).extends hs₁ henter
    obtain ⟨hs₃, more₃⟩ := (forces_hashNode ..).extends hs₂ hhash
    obtain ⟨hs₄, more₄⟩ := (forces_equal (H := H) ..).extends hs₃ hequal
    obtain ⟨hs₅, more₅⟩ := (forces_enter (H := H) ..).extends hs₄ henter'
    obtain ⟨hs₆, more₆⟩ := (forces_select (H := H) ..).extends hs₅ hselect
    obtain ⟨_, more₇⟩ := (forces_lookupLevels ..).extends hs₆ hrest
    have between : s₁.auxes.toList <+: s₆.auxes.toList :=
      more₂.trans (more₃.trans (more₄.trans (more₅.trans more₆)))
    intro l row hrow
    cases l with
    | zero =>
      cases hrow
      exact (allocated_allocNode hs hchildren).imp
        fun _ _ h => h.mono List.prefix_rfl (between.trans more₇)
    | succ l =>
      have below := ih hs₆ hrest l row hrow
      rw [Nat.add_right_comm] at below
      exact below.imp fun _ _ h => h.mono (first.trans between) List.prefix_rfl

theorem allocated_lookupPath {root key : Num f} {height : Nat}
    {witness : Option (List (Node f a.width))} {out : AllocatedPath f} (hs : s.kind ≠ .witness)
    (h : lookupPath H ns a.width root key height witness s = .ok (out, t)) :
    ∀ l row, out.nodes[l]? = some row → List.Forall₂
      (fun (i : Fin a.width) x => Allocated s t x.index (.num :: .levelChild l i :: ns))
      (List.finRange a.width) row := by
  unfold lookupPath at h
  rw [dif_pos a.supported] at h
  dsimp only at h
  split at h
  · cases h
  · split at h
    · cases h
    · obtain ⟨ns₁, s₁, henter, h⟩ := bind_eq_ok h
      obtain ⟨bits, s₂, hbits, h⟩ := bind_eq_ok h
      obtain ⟨⟨rows, leaf⟩, s₃, hlevels, h⟩ := bind_eq_ok h
      cases h
      obtain ⟨hs₁, more₁⟩ := (forces_enter (H := H) ..).extends hs henter
      obtain ⟨hs₂, more₂⟩ := (forces_numBits (H := H) ..).extends hs₁ hbits
      intro l row hrow
      have named := allocated_lookupLevels hs₂ hlevels l row hrow
      rw [Nat.zero_add] at named
      exact named.imp fun _ _ h => h.mono (more₁.trans more₂) List.prefix_rfl

/-- The numbers allocated for the children of a path are its nodes. -/
def AssignsPath (w : Assignment f) (s t : System f) (ns : Path) (nodes : List (Node f a.width)) :
    Prop :=
  ∀ l node, nodes[l]? = some node → ∀ i : Fin a.width,
    ∃ j, Allocated s t j (.num :: .levelChild l i :: ns) ∧ w j = node.child i

theorem AssignsPath.mono {nodes : List (Node f a.width)} (h : AssignsPath w s t ns nodes)
    (hs : s'.auxes.toList <+: s.auxes.toList) (ht : t.auxes.toList <+: u.auxes.toList) :
    AssignsPath w s' u ns nodes := by
  intro l node hnode i
  obtain ⟨j, hj, hw⟩ := h l node hnode i
  exact ⟨j, hj.mono hs ht, hw⟩

theorem assignsPath_of_rows {rows : List (List (Num f))} {nodes : List (Node f a.width)}
    (hread : List.Forall₂ (ReadsNode w) rows nodes)
    (hname : ∀ l row, rows[l]? = some row → List.Forall₂
      (fun (i : Fin a.width) x => Allocated s t x.index (.num :: .levelChild l i :: ns))
      (List.finRange a.width) row) :
    AssignsPath w s t ns nodes := by
  intro l node hnode i
  obtain ⟨hl, rfl⟩ := List.getElem?_eq_some_iff.mp hnode
  obtain ⟨hlen, hreads⟩ := List.forall₂_iff_get.mp hread
  have hl' : l < rows.length := hlen ▸ hl
  have row : nodes[l].toList = rows[l].map (Num.eval w) := hreads l hl' hl
  obtain ⟨hwidth, hnames⟩ := List.forall₂_iff_get.mp (hname l _ (List.getElem?_eq_getElem hl'))
  rw [List.length_finRange] at hwidth
  have hi : i.val < rows[l].length := hwidth ▸ i.isLt
  have named := hnames i.val (by simp) hi
  simp only [List.get_eq_getElem, List.getElem_finRange] at named
  refine ⟨_, named, ?_⟩
  have child : nodes[l].toList[i.val]? = some (nodes[l].child i) := by simp [Node.child]
  rw [row, List.getElem?_map, List.getElem?_eq_getElem hi] at child
  exact Option.some.inj child

/-- A lookup forces a path to the key under the root, in the numbers that are named for its
children, and digits that spell the path. -/
theorem forces_lookup (ns : Path) (a : Arity) (root key : Num f) (height : Nat)
    (witness : Option (List (Node f a.width))) :
    ForcesBetween H (lookupPath H ns a.width root key height witness) fun s t w out =>
      ∃ (path : List (Fin a.width)) (nodes : List (Node f a.width)),
        LooksUpAlong H height (root.eval w) (key.eval w) (out.leaf.eval w) path nodes ∧
          List.Forall₂ (ReadsDigit w) out.digits path ∧
            List.Forall₂ (ReadsNode w) out.nodes nodes ∧ AssignsPath w s t ns nodes := by
  apply ((forces_lookupPath ..).between fun s out t hs h => allocated_lookupPath hs h).mono
  rintro s t w out ⟨⟨path, nodes, ⟨pos, le⟩, hpath, hlen, hnodes, hdigits, hchain⟩, named⟩
  exact ⟨path, nodes, ⟨pos, le, hpath, hlen, hchain⟩, hdigits, hnodes,
    assignsPath_of_rows hnodes named⟩

end Circuit

end PoseidonTrie
