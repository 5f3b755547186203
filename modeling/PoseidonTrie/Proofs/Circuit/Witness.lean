import PoseidonTrie.Proofs.Circuit.Indexed

/-! What the path circuits compute from a path of nodes, whatever nodes these are. A lookup holds
exactly if they chain from the root along the key's digits. An insertion needs a value besides, and
then yields the root of the path rebuilt over it. -/
namespace PoseidonTrie.Circuit

variable {f : PrimeField} {a : Arity} {H : Hasher f} {w : Assignment f} {s t : System f}
  {x v : Element f} {nodes : List (Node f a.width)} {ks : List (Fin a.width)}

theorem Node.toList_eq_map (node : Node f a.width) :
    node.toList = (List.finRange a.width).map node.child := by
  apply List.ext_getElem
  · simp
  · intro i h₁ h₂
    simp [Node.child]

/-- The numbers of a row have the children of a node. -/
def KnownNode (s : System f) (row : List (Num f)) (node : Node f a.width) : Prop :=
  List.Forall₂ (Num.Known s) row node.toList

namespace KnownNode

variable {row : List (Num f)} {node : Node f a.width}

theorem mono (h : KnownNode s row node) (hg : s.Grows t) : KnownNode t row node :=
  h.imp fun _ _ h => h.mono hg

theorem length_eq (h : KnownNode s row node) : row.length = a.width := by
  simpa using List.Forall₂.length_eq h

end KnownNode

/-- Bits with values that denote a digit, as many as digits have. -/
def KnownDigit (s : System f) (bits : List Boolean) (k : Fin a.width) : Prop :=
  ∃ vs, List.Forall₂ (Boolean.Known s) bits vs ∧ 2 ^ vs.length = a.width ∧ natOfBits vs = k.val

namespace KnownDigit

variable {bits : List Boolean} {k : Fin a.width}

theorem mono (h : KnownDigit s bits k) (hg : s.Grows t) : KnownDigit t bits k := by
  obtain ⟨vs, hvs, hlen, hk⟩ := h
  exact ⟨vs, hvs.imp fun _ _ h => h.mono hg, hlen, hk⟩

theorem selectable (h : KnownDigit s bits k) {row : List (Num f)} (hrow : row.length = a.width) :
    Selectable row bits := by
  obtain ⟨vs, hvs, hlen, _⟩ := h
  have count : 2 ^ bits.length = a.width := by rw [hvs.length_eq, hlen]
  have few : bits.length = digitBits a.width :=
    Nat.pow_right_injective (Nat.le_refl 2) (count.trans a.two_pow_digitBits.symm)
  exact ⟨few ▸ a.digitBits_lt, hrow.trans count.symm⟩

end KnownDigit

/-- The bits of a key below the capacity make its digits. -/
theorem knownDigits_digitsOf {height : Nat} {bits : List Boolean}
    (h : List.Forall₂ (Boolean.Known s) bits
      ((List.range (height * digitBits a.width)).map v.val.testBit)) :
    List.Forall₂ (KnownDigit s) (digitsOf (digitBits a.width) height bits)
      (a.digits height v.val) := by
  have digits : List.Forall₂ (KnownDigit s) (digitsOf (digitBits a.width) height bits)
      (a.digits height (natOfBits _)) := forall₂_digitsOf h (by simp)
  rwa [natOfBits_testBit, Nat.mul_comm, a.two_pow_digitBits_mul,
    Arity.digits_mod (Nat.le_refl height)] at digits

theorem computes_allocNode (ns : Path) (level : Nat) (node : Node f a.width) :
    Computes H s (allocNode ns a level (some node)) True fun t row => KnownNode t row node := by
  apply (Computes.mapM (S := fun t i x => Num.Known t x (node.child i)) _
    (fun _ _ _ _ hg h => h.mono hg) ?_).mono
  · intro t row _ h
    rw [KnownNode, Node.toList_eq_map]
    exact List.forall₂_map_right_iff.mpr h.flip
  · intro i _ t _
    apply Computes.next (computes_enter ..)
    intro u ns' _ _
    exact Num.computes_alloc ns' _

theorem computes_selectChild (ns : Path) {row : List (Num f)} {node : Node f a.width}
    {bits : List Boolean} {k : Fin a.width} (hrow : KnownNode s row node)
    (hbits : KnownDigit s bits k) :
    Computes H s (select ns row bits) True fun t next => next.Known t (node.child k) := by
  have selectable := hbits.selectable hrow.length_eq
  obtain ⟨vs, hvs, -, hk⟩ := hbits
  apply (computes_selectAt ns hrow hvs selectable).mono
  rintro t next _ ⟨x, found, known⟩
  obtain rfl : node.child k = x := by simpa [hk, Node.child] using found
  exact known

/-- Levels from one down hold exactly if the nodes given for them chain from its commitment. -/
theorem computes_lookupLevels (ns : Path) (all : List (Node f a.width)) {level : Nat}
    {next : Num f} {digits : List (List Boolean)} (hnext : next.Known s x)
    (hdigits : List.Forall₂ (KnownDigit s) digits ks) (hnodes : all.drop level = nodes)
    (hlen : nodes.length = ks.length) :
    Computes H s (lookupLevels H ns a (some all) level next digits)
      (Chained H x (pathEnd x (ks.zip nodes)) (ks.zip nodes)) fun t out =>
        List.Forall₂ (KnownNode t) out.1 nodes ∧ out.2.Known t (pathEnd x (ks.zip nodes)) := by
  induction digits generalizing level next s x nodes ks with
  | nil =>
    cases hdigits
    obtain rfl := List.length_eq_zero_iff.mp hlen
    exact (computes_pure ⟨.nil, hnext⟩).congr (iff_of_true trivial rfl)
  | cons digit digits ih =>
    match ks, nodes, hdigits, hlen with
    | k :: ks, node :: nodes, .cons hdigit hdigits, hlen =>
      -- Nodes are read by their level, so what is left of them is what comes after it.
      have here : all[level]? = some node := by
        rw [← List.head?_drop, hnodes, List.head?_cons]
      have below : all.drop (level + 1) = nodes := by
        rw [← List.tail_drop, hnodes, List.tail_cons]
      rw [lookupLevels, Option.bind_some, here]
      apply Computes.next (computes_allocNode ns level node)
      intro t₁ row h₁ hrow
      apply Computes.next (computes_enter ..)
      intro t₂ ns₂ h₂ _
      apply Computes.next (computes_hashNode ns₂ a (hrow.mono h₂))
      intro t₃ commitment h₃ hcommitment
      have early := h₁.trans (h₂.trans h₃)
      apply Computes.bind (computes_equal _ hcommitment (hnext.mono early))
      intro t₄ _ h₄ _
      apply Computes.next (computes_enter ..)
      intro t₅ ns₅ h₅ _
      have since := h₂.trans (h₃.trans (h₄.trans h₅))
      apply Computes.next (computes_selectChild ns₅ (hrow.mono since)
        (hdigit.mono (h₁.trans since)))
      intro t₆ child h₆ hchild
      have lower : List.Forall₂ (KnownDigit t₆) digits ks :=
        hdigits.imp fun _ _ h => h.mono (h₁.trans (since.trans h₆))
      apply Computes.followed (ih hchild lower below (Nat.succ.inj hlen))
      rintro t₇ ⟨rest, leaf⟩ h₇ ⟨hrest, hleaf⟩
      exact computes_pure ⟨.cons (hrow.mono (since.trans (h₆.trans h₇))) hrest, hleaf⟩

/-- What a lookup circuit yields for a key, given the nodes of some path. -/
structure KnownPath (s : System f) (root key : Element f) (height : Nat)
    (nodes : List (Node f a.width)) (out : AllocatedPath f) : Prop where
  rows : List.Forall₂ (KnownNode s) out.nodes nodes
  digits : List.Forall₂ (KnownDigit s) out.digits (a.digits height key.val)
  leaf : out.leaf.Known s (pathEnd root ((a.digits height key.val).zip nodes))

theorem KnownPath.mono {root key : Element f} {height : Nat} {out : AllocatedPath f}
    (h : KnownPath s root key height nodes out) (hg : s.Grows t) :
    KnownPath t root key height nodes out :=
  ⟨h.rows.imp fun _ _ h => h.mono hg, h.digits.imp fun _ _ h => h.mono hg, h.leaf.mono hg⟩

/-- The key has a path, and the nodes given for it chain from the root. -/
def Leads (H : Hasher f) (height : Nat) (root key : Element f) (nodes : List (Node f a.width)) :
    Prop :=
  key.val < a.width ^ height ∧
    Chained H root (pathEnd root ((a.digits height key.val).zip nodes))
      ((a.digits height key.val).zip nodes)

theorem Leads.root_eq {height : Nat} {root root' key : Element f}
    (h : Leads H height root key nodes) (h' : Leads H height root' key nodes) (pos : 0 < height)
    (hlen : nodes.length = height) : root = root' := by
  obtain ⟨n, rfl⟩ : ∃ n, height = n + 1 := ⟨height - 1, by omega⟩
  match nodes, hlen with
  | node :: nodes, hlen =>
    obtain ⟨-, chained⟩ := h
    obtain ⟨-, chained'⟩ := h'
    rw [Arity.digits_succ] at chained chained'
    exact chained.1.symm.trans chained'.1

section Path

variable {height : Nat} {root key value : Num f} {r k : Element f}

theorem computes_lookupPath (ns : Path) (hroot : root.Known s r) (hkey : key.Known s k)
    (pos : 0 < height) (le : height ≤ fullHeight f a) (hlen : nodes.length = height) :
    Computes H s (lookupPath H ns a.width root key height (some nodes)) (Leads H height r k nodes)
      fun t out => KnownPath t r k height nodes out := by
  have inRange : ¬ (height = 0 ∨ fullHeight f a < height) := by omega
  have fits : ¬ Option.any (fun nodes => decide (nodes.length ≠ height)) (some nodes) = true := by
    simp [hlen]
  rw [lookupPath, dif_pos a.supported]
  dsimp only
  rw [if_neg inRange, if_neg fits]
  apply Computes.next (computes_enter ..)
  intro t₁ ns₁ h₁ _
  have capacity : 2 ^ (height * digitBits a.width) = a.width ^ height := by
    rw [Nat.mul_comm, a.two_pow_digitBits_mul]
  rw [Leads, ← capacity]
  apply Computes.bind (computes_numBits ns₁ (hkey.mono h₁) _)
  intro t₂ bits h₂ hbits
  have hdigits := knownDigits_digitsOf hbits
  have count : nodes.length = (a.digits height k.val).length := by rw [hlen, Arity.length_digits]
  apply Computes.followed (computes_lookupLevels ns nodes (hroot.mono (h₁.trans h₂)) hdigits
    List.drop_zero count)
  rintro t₃ ⟨rows, leaf⟩ h₃ ⟨hrows, hleaf⟩
  exact computes_pure ⟨hrows, hdigits.imp fun _ _ h => h.mono h₃, hleaf⟩

theorem computes_rebuildNode (ns : Path) (level : Nat) {below : Num f} {row : List (Num f)}
    {chosen : List Boolean} {node : Node f a.width} {d : Fin a.width} {n : Nat}
    (hbelow : below.Known s x) (hrow : KnownNode s row node) (hn : 2 ^ n = a.width)
    (hchosen : List.Forall₂ (Boolean.Known s) chosen (oneHot n d.val)) :
    Computes H s (pickEach ns level below row chosen) True
      fun t out => KnownNode t out (node.put d x) := by
  have width : row.length = 2 ^ n := hrow.length_eq.trans hn.symm
  apply (computes_pickEachAt ns level hrow width hchosen hbelow).mono
  intro t out _ known
  rwa [KnownNode, toList_put]

theorem computes_insertLevels (ns : Path) {level : Nat} {rows : List (List (Num f))}
    {digits : List (List Boolean)} (hvalue : value.Known s v)
    (hrows : List.Forall₂ (KnownNode s) rows nodes)
    (hdigits : List.Forall₂ (KnownDigit s) digits ks) (hlen : nodes.length = ks.length) :
    Computes H s (insertLevels H ns a value level (rows.zip digits)) True fun t out =>
      out.Known t (rebuiltRoot H v (ks.zip nodes)) := by
  induction rows generalizing level digits ks nodes with
  | nil =>
    cases hrows
    obtain rfl := List.length_eq_zero_iff.mp hlen.symm
    cases hdigits
    exact computes_pure hvalue
  | cons row rows ih =>
    match nodes, ks, digits, hrows, hdigits, hlen with
    | node :: nodes, k :: ks, digit :: digits, .cons hrow hrows, .cons hdigit hdigits, hlen =>
      rw [List.zip_cons_cons, insertLevels]
      apply Computes.next (ih hrows hdigits (Nat.succ.inj hlen))
      intro t₁ below h₁ hbelow
      apply Computes.next (computes_enter ..)
      intro t₂ ns₂ h₂ _
      have early := h₁.trans h₂
      obtain ⟨vs, hvs, width, hnum⟩ := hdigit.mono early
      apply Computes.next (computes_selectorsAt ns₂ hvs)
      intro t₃ chosen h₃ hchosen
      rw [hnum] at hchosen
      apply Computes.next (computes_rebuildNode ns level (hbelow.mono (h₂.trans h₃))
        (hrow.mono (early.trans h₃)) width hchosen)
      intro t₄ row' h₄ hrow'
      apply Computes.next (computes_enter ..)
      intro t₅ ns₅ h₅ _
      exact computes_hashNode ns₅ a (hrow'.mono h₅)

/-- The path of a lookup is rebuilt over a value. -/
theorem KnownPath.computes_insertLevels {path : AllocatedPath f} (ns : Path)
    (h : KnownPath s r k height nodes path) (hvalue : value.Known s v)
    (hlen : nodes.length = height) :
    Computes H s (insertLevels H ns a value 0 (path.nodes.zip path.digits)) True fun t newRoot =>
      newRoot.Known t (rebuiltRoot H v ((a.digits height k.val).zip nodes)) := by
  have count : nodes.length = (a.digits height k.val).length := by rw [hlen, Arity.length_digits]
  exact Circuit.computes_insertLevels ns hvalue h.rows h.digits count

/-- An insertion holds exactly if its path does and its value is not zero. -/
theorem computes_insertPath (ns : Path) (hroot : root.Known s r) (hkey : key.Known s k)
    (hvalue : value.Known s v) (pos : 0 < height) (le : height ≤ fullHeight f a)
    (hlen : nodes.length = height) :
    Computes H s (insertPath H ns a.width root key value height (some nodes))
      (Leads H height r k nodes ∧ v ≠ 0) fun t newRoot =>
        newRoot.Known t (rebuiltRoot H v ((a.digits height k.val).zip nodes)) := by
  rw [insertPath, dif_pos a.supported]
  apply Computes.next (computes_enter ..)
  intro t₁ ns₁ h₁ _
  apply Computes.bind (computes_lookupPath ns₁ (hroot.mono h₁) (hkey.mono h₁) pos le hlen)
  intro t₂ path h₂ hpath
  apply Computes.next (computes_enter ..)
  intro t₃ ns₃ h₃ _
  have early := h₁.trans (h₂.trans h₃)
  apply Computes.followed (computes_nonzero ns₃ (hvalue.mono early))
  intro t₄ _ h₄ _
  exact (hpath.mono (h₃.trans h₄)).computes_insertLevels ns (hvalue.mono (early.trans h₄)) hlen

/-- Where the path holds, an insertion of zero breaks the check of the value first. -/
theorem breaks_insertPath (ns : Path) (hroot : root.Known s r) (hkey : key.Known s k)
    (hvalue : value.Known s 0) (pos : 0 < height) (le : height ≤ fullHeight f a)
    (hlen : nodes.length = height) (hleads : Leads H height r k nodes) :
    Breaks H s (insertPath H ns a.width root key value height (some nodes))
      (.numIsNonzero :: .valueIsNonzero :: ns) := by
  rw [insertPath, dif_pos a.supported]
  apply Computes.breaks (computes_enter ..)
  intro t₁ ns₁ h₁ _
  have looked := computes_lookupPath (H := H) ns₁ (hroot.mono h₁) (hkey.mono h₁) pos le hlen
  apply Computes.breaks (looked.congr (iff_true_intro hleads))
  intro t₂ path h₂ hpath
  apply Computes.breaks (computes_enter ..)
  rintro t₃ ns₃ h₃ rfl
  have early := h₁.trans (h₂.trans h₃)
  apply Breaks.bind (breaks_nonzero _ (hvalue.mono early))
  intro t₄ _ h₄
  exact (hpath.mono (h₃.trans h₄)).computes_insertLevels ns (hvalue.mono (early.trans h₄)) hlen

end Path

end PoseidonTrie.Circuit
