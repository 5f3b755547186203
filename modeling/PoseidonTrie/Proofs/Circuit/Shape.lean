import PoseidonTrie.Fold.Step
import PoseidonTrie.Proofs.Circuit.Parallel
import PoseidonTrie.Proofs.Trie.Commitment

/-! The shape of the path circuits and of steps. It is fixed by the width, the height and the number
of slots: no witness changes it, and a step without one already has it. -/
namespace PoseidonTrie

variable {f : PrimeField} {a : Arity} {H : Hasher f} {n : Nat}

namespace Circuit

variable {k : Kind} {s t : System f} {height : Nat} {root root' key key' value value' : Num f}
  {witness witness' : Option (List (Node f n))}

/-- If there are nodes, there is one for each level. -/
def Fits (height : Nat) (witness : Option (List (Node f n))) : Prop :=
  ∀ nodes ∈ witness, nodes.length = height

theorem fits_none : Fits height (none : Option (List (Node f n))) := by
  simp [Fits]

theorem fits_some {nodes : List (Node f n)} (h : nodes.length = height) :
    Fits height (some nodes) := by
  simpa [Fits] using h

/-- The width can be hashed, the height has paths, and the nodes fit it. -/
def Buildable (height : Nat) (witness : Option (List (Node f n))) : Prop :=
  ∃ a : Arity, a.width = n ∧ 0 < height ∧ height ≤ fullHeight f a ∧ Fits height witness

theorem fits_iff : Fits height witness ↔ ¬ witness.any (·.length ≠ height) = true := by
  cases witness <;> simp [Fits]

/-- The numbers of a path are in the same places, in rows and digits of one size. -/
structure AllocatedPath.Follows (k : Kind) (a : Arity) (p q : AllocatedPath f) : Prop where
  nodes : List.Forall₂ (Alike (Num.Follows k) a.width) p.nodes q.nodes
  digits : List.Forall₂ (Alike (Boolean.Follows k) (digitBits a.width)) p.digits q.digits
  leaf : p.leaf.Follows k q.leaf

theorem follows_digitsOf {width : Nat} {bits bits' : List Boolean}
    (h : Alike (Boolean.Follows k) (height * width) bits bits') :
    List.Forall₂ (Alike (Boolean.Follows k) width) (digitsOf width height bits)
      (digitsOf width height bits') := by
  rw [digitsOf, digitsOf, List.forall₂_map_left_iff, List.forall₂_map_right_iff, List.forall₂_same]
  intro i hi
  refine ⟨List.forall₂_take _ (List.forall₂_drop _ h.related), ?_⟩
  have below : i + 1 ≤ height := by simpa using hi
  have room : (i + 1) * width ≤ height * width := Nat.mul_le_mul_right width below
  rw [Nat.succ_mul] at room
  rw [List.length_take, List.length_drop, h.length_eq]
  omega

theorem mirrors_allocNode (ns : Path) (level : Nat) {node node' : Option (Node f a.width)}
    (hnode : k ≠ .shape → node' = node) :
    Mirrors k (allocNode ns a level node) (allocNode ns a level node')
      (Alike (Num.Follows k) a.width) := by
  apply (Mirrors.mapM_self (List.finRange a.width) ?_).mono
  · rintro row row' ⟨related, hlen⟩
    exact ⟨related, by rw [hlen, List.length_finRange]⟩
  · intro i _
    exact .enter (Num.mirrors_alloc _ fun hk => by rw [hnode hk])

/-- Whatever nodes are given, and if any, each level is allocated alike. -/
theorem mirrors_lookupLevels (ns : Path) {witness witness' : Option (List (Node f a.width))}
    (level : Nat) {next next' : Num f} {digits digits' : List (List Boolean)}
    (hw : k ≠ .shape → witness' = witness) (hnext : next.Follows k next')
    (hdigits : List.Forall₂ (Alike (Boolean.Follows k) (digitBits a.width)) digits digits') :
    Mirrors k (lookupLevels H ns a witness level next digits)
      (lookupLevels H ns a witness' level next' digits') fun out out' =>
        List.Forall₂ (Alike (Num.Follows k) a.width) out.1 out'.1 ∧ out.2.Follows k out'.2 := by
  induction hdigits generalizing level next next' with
  | nil => exact mirrors_pure ⟨.nil, hnext⟩
  | @cons digit digit' _ _ hdigit _ ih =>
    rw [lookupLevels, lookupLevels]
    apply Mirrors.bind (mirrors_allocNode ns level fun hk => by rw [hw hk])
    intro row row' hrow
    apply Mirrors.enter
    apply Mirrors.bind (mirrors_hashNode _ a hrow)
    intro commitment commitment' hcommitment
    apply Mirrors.bind (mirrors_equal _ hcommitment hnext)
    intro _ _ _
    have width : a.width = 2 ^ digit.length := by rw [hdigit.length_eq, a.two_pow_digitBits]
    have few : digit.length < 64 := hdigit.length_eq ▸ a.digitBits_lt
    apply Mirrors.enter
    apply Mirrors.bind (mirrors_select _ hdigit.related few (width ▸ hrow))
    intro child child' hchild
    apply Mirrors.bind (ih (level + 1) hchild)
    rintro ⟨rest, leaf⟩ ⟨rest', leaf'⟩ ⟨hrest, hleaf⟩
    exact mirrors_pure ⟨.cons hrow hrest, hleaf⟩

section Path

variable {witness witness' : Option (List (Node f a.width))} (ns : Path)
  (pos : 0 < height) (le : height ≤ fullHeight f a) (hw : k ≠ .shape → witness' = witness)
  (fits : Fits height witness) (fits' : Fits height witness')
  (hroot : root.Follows k root') (hkey : key.Follows k key')

include pos le hw fits fits' hroot hkey

theorem mirrors_lookupPath :
    Mirrors k (lookupPath H ns a.width root key height witness)
      (lookupPath H ns a.width root' key' height witness') (AllocatedPath.Follows k a) := by
  have inRange : ¬ (height = 0 ∨ fullHeight f a < height) := by omega
  rw [lookupPath, lookupPath, dif_pos a.supported, dif_pos a.supported]
  dsimp only
  rw [if_neg inRange, if_neg inRange, if_neg (fits_iff.mp fits), if_neg (fits_iff.mp fits')]
  apply Mirrors.enter
  apply Mirrors.bind (mirrors_numBits _ hkey _)
  intro bits bits' hbits
  have hdigits := follows_digitsOf hbits
  apply Mirrors.bind (mirrors_lookupLevels ns 0 hw hroot hdigits)
  rintro ⟨nodes, leaf⟩ ⟨nodes', leaf'⟩ ⟨hnodes, hleaf⟩
  exact mirrors_pure ⟨hnodes, hdigits, hleaf⟩

omit pos le hw fits fits' hroot hkey in
theorem mirrors_insertLevels (level : Nat) (hvalue : value.Follows k value')
    {rows rows' : List (List (Num f))} {digits digits' : List (List Boolean)}
    (hrows : List.Forall₂ (Alike (Num.Follows k) a.width) rows rows')
    (hdigits : List.Forall₂ (Alike (Boolean.Follows k) (digitBits a.width)) digits digits') :
    Mirrors k (insertLevels H ns a value level (rows.zip digits))
      (insertLevels H ns a value' level (rows'.zip digits')) (Num.Follows k) := by
  induction hrows generalizing level digits digits' with
  | nil => exact mirrors_pure hvalue
  | cons hrow _ ih =>
    cases hdigits with
    | nil => exact mirrors_pure hvalue
    | cons hdigit hdigits =>
      rw [List.zip_cons_cons, List.zip_cons_cons, insertLevels, insertLevels]
      apply Mirrors.bind (ih (level + 1) hdigits)
      intro below below' hbelow
      apply Mirrors.enter
      apply Mirrors.bind (mirrors_selectors _ hdigit.related)
      intro chosen chosen' hchosen
      rw [hdigit.length_eq, a.two_pow_digitBits] at hchosen
      apply Mirrors.bind (mirrors_pickEach ns level hbelow hrow hchosen)
      intro row row' hrow
      exact .enter (mirrors_hashNode _ a hrow)

theorem mirrors_insertPath (hvalue : value.Follows k value') :
    Mirrors k (insertPath H ns a.width root key value height witness)
      (insertPath H ns a.width root' key' value' height witness') (Num.Follows k) := by
  rw [insertPath, insertPath, dif_pos a.supported, dif_pos a.supported]
  apply Mirrors.enter
  apply Mirrors.bind (mirrors_lookupPath _ pos le hw fits fits' hroot hkey)
  intro path path' hpath
  apply Mirrors.enter
  apply Mirrors.bind (mirrors_nonzero _ hvalue)
  intro _ _ _
  exact mirrors_insertLevels ns 0 hvalue hpath.nodes hpath.digits

end Path

theorem lookupPath_eq_error {ns : Path} (h : ¬ Buildable height witness) :
    errorOf (lookupPath H ns n root key height witness) s = some .unsatisfiable := by
  unfold lookupPath
  split
  · rename_i supported
    dsimp only
    split
    · rfl
    · split
      · rfl
      · rename_i range fits
        rw [not_or, Nat.not_lt] at range
        exact absurd ⟨⟨n, supported⟩, rfl, Nat.pos_of_ne_zero range.1, range.2, fits_iff.mpr fits⟩ h
  · rfl

theorem lookupPath_eq_ok {ns : Path} {r : AllocatedPath f × System f}
    (h : lookupPath H ns n root key height witness s = .ok r) : Buildable height witness := by
  by_contra hb
  have refused : errorOf (lookupPath H ns n root key height witness) s = some .unsatisfiable :=
    lookupPath_eq_error hb
  rw [errorOf, h] at refused
  cases refused

theorem insertPath_eq_error {ns : Path} (h : ¬ Buildable height witness) :
    errorOf (insertPath H ns n root key value height witness) s = some .unsatisfiable := by
  unfold insertPath
  split
  · rw [errorOf_enter]
    exact errorOf_bind (lookupPath_eq_error h)
  · rfl

theorem insertPath_eq_ok {ns : Path} {r : Num f × System f}
    (h : insertPath H ns n root key value height witness s = .ok r) :
    ∃ out, lookupPath H (.oldPath :: ns) n root key height witness (s.name (.oldPath :: ns)) =
      .ok out := by
  unfold insertPath at h
  split at h
  · obtain ⟨ns', s', henter, h⟩ := bind_eq_ok h
    cases henter
    obtain ⟨path, s', hpath, -⟩ := bind_eq_ok h
    exact ⟨_, hpath⟩
  · cases h

end Circuit

open Circuit

variable {k : Kind} {s : System f} {height : Nat} {root root' : Num f}

/-- Slots of any values are alike, if the paths they have are as long. -/
theorem Slot.mirrors_synthesize (ns : Circuit.Path) (pos : 0 < height)
    (le : height ≤ fullHeight f a) {slot slot' : Slot f a.width} (hslot : k ≠ .shape → slot' = slot)
    (fits : Fits height slot.path) (fits' : Fits height slot'.path) (hroot : root.Follows k root') :
    Mirrors k (slot.synthesize H ns height root) (slot'.synthesize H ns height root')
      (Num.Follows k) := by
  apply Mirrors.enter
  apply Mirrors.bind (Num.mirrors_alloc _ fun hk => by rw [hslot hk])
  intro key key' hkey
  apply Mirrors.enter
  apply Mirrors.bind (Num.mirrors_alloc _ fun hk => by rw [hslot hk])
  intro value value' hvalue
  apply Mirrors.enter
  apply Mirrors.bind (Bit.mirrors_alloc _ fun hk => by rw [hslot hk])
  intro active active' hactive
  apply Mirrors.enter
  apply Mirrors.bind (mirrors_insertPath _ pos le (fun hk => by rw [hslot hk]) fits fits' hroot hkey
    hvalue)
  intro newRoot newRoot' hnew
  exact .enter (mirrors_pick _ (.is hactive) hnew hroot)

theorem Slot.synthesize_eq_ok {ns : Circuit.Path} {slot : Slot f n} {r : Num f × System f}
    (h : slot.synthesize H ns height root s = .ok r) : Buildable height slot.path := by
  obtain ⟨ns₁, s₁, -, h⟩ := bind_eq_ok h
  obtain ⟨key, s₂, -, h⟩ := bind_eq_ok h
  obtain ⟨ns₂, s₃, -, h⟩ := bind_eq_ok h
  obtain ⟨value, s₄, -, h⟩ := bind_eq_ok h
  obtain ⟨ns₃, s₅, -, h⟩ := bind_eq_ok h
  obtain ⟨active, s₆, -, h⟩ := bind_eq_ok h
  obtain ⟨ns₄, s₇, -, h⟩ := bind_eq_ok h
  obtain ⟨newRoot, s₈, hinsert, -⟩ := bind_eq_ok h
  obtain ⟨out, hlookup⟩ := insertPath_eq_ok hinsert
  exact lookupPath_eq_ok hlookup

theorem Slot.mirrors_synthesizeFrom (ns : Circuit.Path) (pos : 0 < height)
    (le : height ≤ fullHeight f a) (i : Nat) {slots slots' : List (Slot f a.width)}
    (h : List.Forall₂ (fun slot slot' => (k ≠ .shape → slot' = slot) ∧
      Fits height slot.path ∧ Fits height slot'.path) slots slots') (hroot : root.Follows k root') :
    Mirrors k (synthesizeFrom H ns height i slots root) (synthesizeFrom H ns height i slots' root')
      (Num.Follows k) := by
  induction h generalizing i root root' with
  | nil => exact mirrors_pure hroot
  | cons hslot _ ih =>
    obtain ⟨same, fits, fits'⟩ := hslot
    apply Mirrors.enter
    apply Mirrors.bind (mirrors_synthesize _ pos le same fits fits' hroot)
    intro next next' hnext
    exact ih (i + 1) hnext

/-- Slots succeed only where all their paths can be built. -/
theorem Slot.synthesizeFrom_eq_ok {ns : Circuit.Path} {i : Nat} {slots : List (Slot f n)}
    {r : Num f × System f} (h : synthesizeFrom H ns height i slots root s = .ok r) :
    ∀ slot ∈ slots, Buildable height slot.path := by
  induction slots generalizing i root s with
  | nil => simp
  | cons slot slots ih =>
    obtain ⟨ns', s₁, -, h⟩ := bind_eq_ok h
    obtain ⟨next, s₂, hslot, h⟩ := bind_eq_ok h
    exact List.forall_mem_cons.mpr ⟨Slot.synthesize_eq_ok hslot, ih h⟩

namespace Step

/-- Every path that the step has is as long as its height. -/
def Fits (s : Step f n) : Prop :=
  ∀ slot ∈ s.slots, Circuit.Fits s.height slot.path

theorem fits_blank (height slots : Nat) : (blank height slots : Step f n).Fits := by
  intro slot hslot
  obtain rfl := List.eq_of_mem_replicate hslot
  exact fits_none

theorem mirrors_synthesize (ns : Circuit.Path) {step step' : Step f a.width} (pos : 0 < step.height)
    (le : step.height ≤ fullHeight f a) (height : step'.height = step.height)
    (count : step'.slots.length = step.slots.length)
    (hslots : k ≠ .shape → step'.slots = step.slots) (fits : step.Fits) (fits' : step'.Fits)
    (hroot : root.Follows k root') :
    Mirrors k (step.synthesize H ns [root]) (step'.synthesize H ns [root'])
      (List.Forall₂ (Num.Follows k)) := by
  have slots : List.Forall₂ (fun slot slot' => (k ≠ .shape → slot' = slot) ∧
      Circuit.Fits step.height slot.path ∧ Circuit.Fits step.height slot'.path)
      step.slots step'.slots := by
    refine List.forall₂_iff_get.mpr ⟨count.symm, fun i h h' => ⟨fun hk => ?_, ?_, ?_⟩⟩
    · simp only [List.get_eq_getElem, hslots hk]
    · exact fits _ (List.get_mem ..)
    · exact height ▸ fits' _ (List.get_mem ..)
  rw [synthesize, synthesize, height]
  apply Mirrors.bind (Slot.mirrors_synthesizeFrom ns pos le 0 slots hroot)
  intro out out' hout
  exact mirrors_pure (.cons hout .nil)

theorem synthesize_eq_ok {ns : Circuit.Path} {step : Step f n} {r : List (Num f) × System f}
    (h : step.synthesize H ns [root] s = .ok r) :
    ∀ slot ∈ step.slots, Buildable step.height slot.path := by
  obtain ⟨out, s₁, h, -⟩ := bind_eq_ok h
  exact Slot.synthesizeFrom_eq_ok h

theorem synthesize_nil {ns : Circuit.Path} {step : Step f n} (h : step.slots = []) :
    step.synthesize H ns [root] = pure [root] := by
  rw [synthesize, h]
  rfl

/-- A step that succeeds is like any other of its height with as many slots that fit. -/
theorem mirrors_of_synthesize_eq_ok {ns : Circuit.Path} {step step' : Step f n}
    {r : List (Num f) × System f} (h : step.synthesize H ns [root] s = .ok r)
    (height : step'.height = step.height) (count : step'.slots.length = step.slots.length)
    (same : k ≠ .shape → step'.slots = step.slots) (fits : k = .shape → step'.Fits)
    (hroot : root.Follows k root') :
    Mirrors k (step.synthesize H ns [root]) (step'.synthesize H ns [root'])
      (List.Forall₂ (Num.Follows k)) := by
  -- Without slots the height is never looked at, so it may be any.
  by_cases hslots : step.slots = []
  · have hslots' : step'.slots = [] := by
      rwa [hslots, List.length_nil, List.length_eq_zero_iff] at count
    rw [synthesize_nil hslots, synthesize_nil hslots']
    exact mirrors_pure (.cons hroot .nil)
  · obtain ⟨slot, hslot⟩ := List.exists_mem_of_ne_nil _ hslots
    have every := synthesize_eq_ok h
    obtain ⟨a, rfl, pos, le, -⟩ := every slot hslot
    have hfits : step.Fits := fun slot hslot => (every slot hslot).elim fun _ h => h.2.2.2
    have hfits' : step'.Fits := by
      by_cases hk : k = .shape
      · exact fits hk
      · intro slot hslot
        rw [height]
        exact hfits slot (same hk ▸ hslot)
    exact mirrors_synthesize ns pos le height count same hfits hfits' hroot

end Step

namespace Circuit

variable {α β : Type} {R : α → β → Prop} {x : Synth f α} {y : Synth f β}

/-- Two runs succeed and leave the same variables, by name, and the same constraints. -/
def SameShape (r : Except (Stop f) (α × System f)) (r' : Except (Stop f) (β × System f)) : Prop :=
  ∃ a t b u, r = .ok (a, t) ∧ r' = .ok (b, u) ∧ u.paths = t.paths ∧ u.internals = t.internals ∧
    u.constraints = t.constraints

theorem Mirrors.sameShape (h : Mirrors .shape x y R) (hs : s.kind = .shape) :
    SameShape (x s) (y s) := by
  obtain ⟨a, t, b, u, hx, hy, ht, hu, htu, -⟩ := h.of_run s s (.refl s) hs (.inl hs)
  have constraints :=
    htu.constraints ((ht.trans hs).trans_ne (by decide)) (hu.trans_ne (by decide))
  exact ⟨a, t, b, u, hx, hy, htu.paths, htu.internals, constraints⟩

end Circuit

/-- In a shape, no values change what is synthesized: not those of slots or their paths, nor of the
numbers they start from, nor whether they are there. A blank step has that shape too, exactly if it
has no slot or its width can be hashed and its height has paths. -/
theorem synthesize_shape (H : Hasher f) (ns : Circuit.Path) (s : System f) (hs : s.kind = .shape) :
    (∀ (a : Arity) (height : Nat), 0 < height → height ≤ fullHeight f a →
      (∀ (step step' : Step f a.width) (root root' : Num f), step.height = height →
        step'.height = height → step'.slots.length = step.slots.length → step.Fits → step'.Fits →
        root'.index = root.index →
          SameShape (step.synthesize H ns [root] s) (step'.synthesize H ns [root'] s)) ∧
      ∀ (witness witness' : Option (List (Node f a.width))) (root root' key key' : Num f),
        Fits height witness → Fits height witness' → root'.index = root.index →
        key'.index = key.index →
          SameShape (lookupPath H ns a.width root key height witness s)
            (lookupPath H ns a.width root' key' height witness' s) ∧
          ∀ value value' : Num f, value'.index = value.index →
            SameShape (insertPath H ns a.width root key value height witness s)
              (insertPath H ns a.width root' key' value' height witness' s)) ∧
    ∀ (n height slots : Nat) (root : Num f),
      (∃ r, (Step.blank height slots : Step f n).synthesize H ns [root] s = .ok r) ↔
        slots = 0 ∨ ∃ a : Arity, a.width = n ∧ 0 < height ∧ height ≤ fullHeight f a := by
  have follows {x y : Num f} (h : y.index = x.index) : x.Follows .shape y :=
    ⟨h, fun hk => absurd rfl hk⟩
  refine ⟨fun a height pos le => ⟨?_, ?_⟩, fun n height slots root => ⟨?_, ?_⟩⟩
  · rintro step step' root root' rfl height' count fits fits' hroot
    exact (Step.mirrors_synthesize ns pos le height' count (fun hk => absurd rfl hk) fits fits'
      (follows hroot)).sameShape hs
  · intro witness witness' root root' key key' fits fits' hroot hkey
    have any : Kind.shape ≠ .shape → witness' = witness := fun hk => absurd rfl hk
    refine ⟨?_, fun value value' hvalue => ?_⟩
    · exact (mirrors_lookupPath ns pos le any fits fits' (follows hroot)
        (follows hkey)).sameShape hs
    · exact (mirrors_insertPath ns pos le any fits fits' (follows hroot) (follows hkey)
        (follows hvalue)).sameShape hs
  · rintro ⟨r, hr⟩
    refine or_iff_not_imp_left.mpr fun some => ?_
    have slot : (Slot.blank : Slot f n) ∈ (Step.blank height slots).slots :=
      List.mem_replicate.mpr ⟨some, rfl⟩
    obtain ⟨a, width, pos, le, -⟩ := Step.synthesize_eq_ok hr _ slot
    exact ⟨a, width, pos, le⟩
  · rintro (rfl | ⟨a, rfl, pos, le⟩)
    · rw [Step.synthesize_nil rfl]
      exact ⟨_, rfl⟩
    · have blank := Step.fits_blank (f := f) (n := a.width) height slots
      have levels : 0 < (Step.blank height slots : Step f a.width).height := pos
      obtain ⟨out, t, -, -, hrun, -⟩ := (Step.mirrors_synthesize (H := H) ns levels le rfl rfl
        (fun _ => rfl) blank blank (follows (Eq.refl root.index))).sameShape hs
      exact ⟨_, hrun⟩

/-- A slot with values, and a blank one. -/
theorem synthesize_shape_blank :
    SameShape
      ((Step.blank 1 1 : Step .pallasBase 2).synthesize weigh [] [⟨0, none⟩]
        ((System.empty .shape).addVariable [.num, .root] none))
      ((⟨1, [⟨some 1, some 1, some [.uniform 2 0], some true⟩], some 0, some 1⟩ :
        Step .pallasBase 2).synthesize weigh [] [⟨0, none⟩]
          ((System.empty .shape).addVariable [.num, .root] none)) := by
  have shape : ((System.empty .shape).addVariable [.num, .root] none : System .pallasBase).kind =
      .shape := rfl
  obtain ⟨alike, -⟩ := synthesize_shape weigh [] _ shape
  obtain ⟨steps, -⟩ := alike .binary 1 Nat.one_pos (fullHeight_pos ..)
  refine steps (.blank 1 1) _ _ _ rfl rfl rfl (Step.fits_blank 1 1) ?_ rfl
  intro slot hslot
  obtain rfl := List.mem_singleton.mp hslot
  exact fits_some rfl

end PoseidonTrie
