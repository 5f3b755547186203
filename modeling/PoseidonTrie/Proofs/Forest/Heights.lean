import PoseidonTrie.Proofs.Trie.Completeness
import PoseidonTrie.Proofs.Trie.Subtrees
import PoseidonTrie.Proofs.Trie.Unknown

/-! Proofs of another height than the trie's. A verifier takes the height from the proof, and leaves
are hashed as commitments are. So a shorter proof shows the commitment of a subtree as a value, and
a longer one goes on below a leaf as if its value were a commitment. -/
namespace PoseidonTrie

variable {f : PrimeField} {a : Arity} {H : Hasher f}

theorem pathEnd_append (root : Element f) (above below : List (Fin a.width × Node f a.width)) :
    pathEnd root (above ++ below) = pathEnd (pathEnd root above) below := by
  induction above generalizing root with
  | nil => rfl
  | cons step above ih => exact ih _

namespace View

variable {t view : Trie f a} {caches : Caches f} {m : Contents f} {key value : Element f}
  {nodes : List (Node f a.width)} {c : DigestCache f} {low : Nat}

/-- A proof that was found is accepted for what its path ends at, and for nothing else. -/
theorem Finds.value_eq {v : View f a} (h : v.Finds key nodes) (hv : v.caches.Correct H)
    (hc : c.Correct H)
    (haccept : (LookupProof.verify H ⟨nodes⟩ v.trie.root key value c).1 = true) :
    value = pathEnd v.trie.root ((a.digits v.trie.height key.val).zip nodes) := by
  obtain ⟨payload, hlookup, accepts⟩ := h.verify_iff hv hc
  obtain ⟨payload', hlookup', ends⟩ := h.lookup hv
  obtain rfl := Except.ok.inj (hlookup.symm.trans hlookup')
  exact ((accepts value).mp haccept).trans ends

/-- In a tree of more height, a path ends at the commitment of a subtree. -/
theorem Holds.pathEnd_of_lower (hv : View.Holds H ⟨t, caches⟩ m) (hf : caches.Faithful H)
    (hc : ¬ caches.Collides H a) (hroot : view.root = t.root)
    (hheight : t.height = view.height + low) (hfinds : View.Finds ⟨view, caches⟩ key nodes) :
    pathEnd view.root ((a.digits view.height key.val).zip nodes) =
      commit H a low (m.leaves.under (a.width ^ low) key.val) := by
  have tree : caches.HasTree H a (view.height + low) m.leaves := hheight ▸ hv.tree
  have upper : view.root = commit H a view.height (subtreeRoots H a low m.leaves) := by
    rw [hroot, hv.root, hheight, commit_add]
  have found := tree.upper.descend hf hc hfinds.key_lt
  rw [← upper] at found
  obtain rfl := Except.ok.inj (found.symm.trans hfinds.descend)
  rw [upper]
  exact (chained_nodesAbove _ hfinds.key_lt).pathEnd_eq

/-- A path of more height than the tree begins with the tree's own, and goes on from the value that
this leads to. -/
theorem Holds.nodes_of_higher (hv : View.Holds H ⟨t, caches⟩ m) (hf : caches.Faithful H)
    (hc : ¬ caches.Collides H a) (hroot : view.root = t.root)
    (hheight : view.height = t.height + low) (hfinds : View.Finds ⟨view, caches⟩ key nodes) :
    key.val / a.width ^ low < a.width ^ t.height ∧
      ∃ rest, nodes = nodesAbove H a t.height m.leaves (key.val / a.width ^ low) ++ rest ∧
        caches.preimages.descend (m.leaves (key.val / a.width ^ low)) (a.digits low key.val) =
          .ok rest := by
  have hk : key.val < a.width ^ view.height := hfinds.key_lt
  rw [hheight, Nat.pow_add, Nat.mul_comm] at hk
  have upper := Nat.div_lt_of_lt_mul hk
  have root : t.root = commit H a t.height m.leaves := hv.root
  have found : caches.preimages.descend (commit H a t.height m.leaves)
      (a.digits t.height (key.val / a.width ^ low)) = .ok _ := hv.tree.descend hf hc upper
  have descend := hfinds.descend
  simp only [hheight, Arity.digits_add, hroot, root] at descend
  rw [PreimageCache.descend_append found, (chained_nodesAbove m.leaves upper).pathEnd_eq] at descend
  refine ⟨upper, ?_⟩
  cases hrest : caches.preimages.descend (m.leaves (key.val / a.width ^ low))
      (a.digits low key.val) with
  | error e => simp [hrest, Except.map] at descend
  | ok rest =>
    rw [hrest] at descend
    exact ⟨rest, (Except.ok.inj descend).symm, rfl⟩

/-- What is beyond the tree's own path is a proof under the value that the path leads to. -/
theorem Holds.verify_rest (hv : View.Holds H ⟨t, caches⟩ m) (hf : caches.Faithful H)
    (hc : ¬ caches.Collides H a) (hroot : view.root = t.root) (pos : 0 < low)
    (hheight : view.height = t.height + low) (hfinds : View.Finds ⟨view, caches⟩ key nodes)
    (hcorrect : c.Correct H)
    (hvalue : value = pathEnd view.root ((a.digits view.height key.val).zip nodes)) :
    ∃ upper lower : Element f,
      upper.val = key.val / a.width ^ low ∧ lower.val = key.val % a.width ^ low ∧
      View.proveLookup ⟨t, caches⟩ upper = .ok ⟨nodes.take t.height⟩ ∧
      View.lookup ⟨t, caches⟩ upper = .ok (m upper) ∧
      (LookupProof.verify H ⟨nodes.drop t.height⟩ ((m upper).getD 0) lower value c).1 = true := by
  obtain ⟨fits, rest, rfl, hrest⟩ := hv.nodes_of_higher hf hc hroot hheight hfinds
  -- Quotient and remainder are no greater than the key, so they are elements.
  let upper : Element f :=
    ⟨key.val / a.width ^ low, Nat.lt_of_le_of_lt (Nat.div_le_self ..) key.val_lt⟩
  let lower : Element f :=
    ⟨key.val % a.width ^ low, Nat.lt_of_le_of_lt (Nat.mod_le ..) key.val_lt⟩
  have digits : a.digits low key.val = a.digits low lower.val :=
    (Arity.digits_mod (Nat.le_refl low) _).symm
  have paid : m.leaves (key.val / a.width ^ low) = (m upper).getD 0 := Contents.leaves_val m upper
  have own := (chained_nodesAbove (H := H) m.leaves fits).pathEnd_eq
  have ends : value = pathEnd ((m upper).getD 0) ((a.digits low lower.val).zip rest) := by
    rw [hvalue, hheight, Arity.digits_add, List.zip_append (by simp), pathEnd_append, hroot,
      hv.root, own, paid, digits]
  rw [digits, paid] at hrest
  have length : rest.length = low := by
    rw [PreimageCache.length_descend hrest, Arity.length_digits]
  have low_le : low ≤ fullHeight f a :=
    Nat.le_trans (Nat.le_add_left low t.height) (hheight ▸ view.height_le)
  have hpath : a.path lower rest.length = .ok (a.digits low lower.val) := by
    rw [length]
    exact Arity.path_of_lt low_le (mod_lt_capacity key.val)
  have shows := LookupProof.shows_of_chained (hf.toCorrect.preimages.chained hrest) hpath
    (length ▸ pos)
  refine ⟨upper, lower, rfl, rfl, ?_, hv.lookup hf hc fits, ?_⟩
  · rw [List.take_left' (length_nodesAbove _)]
    exact proveLookup_eq_ok.mpr ⟨fits, hv.descend hf hc fits⟩
  · rw [List.drop_left' (length_nodesAbove _), ends]
    exact (LookupProof.verify_eq_true_iff hcorrect).mpr ⟨_, shows⟩

/-- What a proof of any height shows of a trie, if the trie's root and the caches led to it. A proof
of the trie's own height shows the payload that a lookup reports. A shorter one shows the commitment
of the subtree that its digits lead to. A longer one shows that payload of the trie to which its
first digits lead, and below it, as if it were a root, its own value at the others. The one
alternative is a collision among the nodes registered. -/
theorem verify_anyHeight (H : Hasher f) (ops : List (Op f)) (a : Arity) (t view : Trie f a)
    (history : List (Element f × Element f)) (ht : ⟨a, t, history⟩ ∈ (Forest.run H ops).held)
    (hroot : view.root = t.root) (key value : Element f) (proof : LookupProof f a)
    (c : DigestCache f) (hc : c.Correct H) :
    let caches := (Forest.run H ops).caches
    View.proveLookup ⟨view, caches⟩ key = .ok proof →
    (proof.verify H t.root key value c).1 = true →
      caches.Collides H a ∨
      (view.height = t.height →
        ∃ payload, View.lookup ⟨t, caches⟩ key = .ok payload ∧ value = payload.getD 0) ∧
      (∀ low, t.height = view.height + low →
        value = commit H a low ((contentsOf history).leaves.under (a.width ^ low) key.val)) ∧
      ∀ low, 0 < low → view.height = t.height + low →
        ∃ upper lower payload,
          upper.val = key.val / a.width ^ low ∧ lower.val = key.val % a.width ^ low ∧
          View.proveLookup ⟨t, caches⟩ upper = .ok ⟨proof.nodes.take t.height⟩ ∧
          View.lookup ⟨t, caches⟩ upper = .ok payload ∧
          (LookupProof.verify H ⟨proof.nodes.drop t.height⟩ (payload.getD 0) lower value c).1 =
            true := by
  intro caches hproof haccept
  obtain ⟨nodes⟩ := proof
  have sound := Forest.sound_run H ops
  have hf : caches.Faithful H := sound.faithful
  have finds : View.Finds ⟨view, caches⟩ key nodes := proveLookup_eq_ok.mp hproof
  rw [← hroot] at haccept
  have shown := finds.value_eq hf.toCorrect hc haccept
  refine or_iff_not_imp_left.mpr fun unique => ?_
  have hv : View.Holds H ⟨t, caches⟩ (contentsOf history) :=
    (sound.held _ ht).resolve_left unique
  refine ⟨fun same => ?_, fun low hlow => ?_, fun low pos hlow => ?_⟩
  · refine ⟨_, hv.lookup hf unique (same ▸ finds.key_lt), ?_⟩
    have uncut : t.height = view.height + 0 := same.symm
    rw [shown, hv.pathEnd_of_lower hf unique hroot uncut finds, commit_zero,
      ← Contents.leaves_val, Leaves.under]
    simp
  · rw [shown, hv.pathEnd_of_lower hf unique hroot hlow finds]
  · obtain ⟨upper, lower, hupper, hlower, found, paid, rest⟩ :=
      hv.verify_rest hf unique hroot pos hlow finds hc shown
    exact ⟨upper, lower, _, hupper, hlower, found, paid, rest⟩

end View

namespace Forest

/-- A hash that tells small binary nodes apart, and sends none of them to zero. -/
def tally : Hasher .pallasBase := fun a node => weigh a node + 1

/-- One binary trie of height two, with nothing in it. -/
def bareGround : List (Op .pallasBase) :=
  [.create 2 (.height 2)]

def bareTree : Trie .pallasBase .binary :=
  ⟨.ofNat _ 4, 2, .ofNat _ 4, by decide, by decide⟩

def bareNodes : List (Node .pallasBase Arity.binary.width) :=
  [.uniform _ 1, .uniform _ 0]

/-- A trie of height one, reopened at the root of the other. -/
def stump : Trie .pallasBase .binary :=
  ⟨.ofNat _ 4, 1, 1, by decide, by decide⟩

theorem create_bareTree :
    Trie.create tally .empty (.height 2) =
      (.ok bareTree, Caches.empty.registerAll tally bareNodes) := by
  have height : 0 < 2 ∧ 2 ≤ fullHeight .pallasBase .binary := by decide
  simp only [Trie.create, Trie.withHeight, dif_pos height, Trie.empty]
  rw [Caches.registerEmpty_eq DigestCache.correct_empty]
  rfl

theorem run_bareGround :
    run tally bareGround =
      ⟨Caches.empty.registerAll tally bareNodes,
        [⟨.binary, bareTree, []⟩], [⟨.binary, bareTree, []⟩]⟩ := by
  have supported : Arity.require (f := .pallasBase) 2 = .ok .binary := rfl
  simp only [bareGround, run, List.foldl, step, empty, AnyTrie.create, supported, create_bareTree]
  rfl

theorem held_bareTree :
    (⟨.binary, bareTree, []⟩ : Member .pallasBase) ∈ (run tally bareGround).held := by
  rw [run_bareGround]
  exact List.mem_singleton_self _

theorem not_collides_bareGround : ¬ (run tally bareGround).caches.Collides tally .binary := by
  rw [run_bareGround]
  exact Caches.not_collides_registerAll (by decide)

theorem proveLookup_stump :
    View.proveLookup ⟨stump, (run tally bareGround).caches⟩ 0 = .ok ⟨[.uniform _ 1]⟩ := by
  rw [run_bareGround]
  refine View.proveLookup_eq_ok.mpr ⟨by decide, PreimageCache.descend_cons_eq_ok.mpr ?_⟩
  have unique : ∀ x ∈ bareNodes, ∀ y ∈ bareNodes, tally .binary x = tally .binary y → x = y := by
    decide
  have found := Caches.find?_registerAll (c := .empty) DigestCache.correct_empty unique
    (List.mem_cons_self ..)
  exact ⟨_, [], found, rfl, rfl⟩

/-- The commitment of an empty subtree is accepted as the value of the first key. -/
theorem verify_stump :
    (LookupProof.verify tally (a := .binary) ⟨[.uniform _ 1]⟩ bareTree.root 0 1 .empty).1 =
      true := by
  apply (LookupProof.verify_eq_true_iff DigestCache.correct_empty).mpr
  have fits : (0 : Element .pallasBase).val < Arity.binary.width ^ 1 := by decide
  exact ⟨_, Arity.path_of_lt stump.height_le fits, by decide, rfl, by decide⟩

end Forest

namespace View

open Forest

/-- A proof that a verifier accepts for a trie's root need not show what the trie holds, if it has
another height. -/
theorem exists_verify_ne_lookup :
    ¬ ∀ (H : Hasher .pallasBase) (ops : List (Op .pallasBase)) (a : Arity)
      (t view : Trie .pallasBase a)
      (history : List (Element .pallasBase × Element .pallasBase)),
      ⟨a, t, history⟩ ∈ (run H ops).held → view.root = t.root → view.height ≠ t.height →
        ∀ (key value : Element .pallasBase) (proof : LookupProof .pallasBase a)
          (c : DigestCache .pallasBase), c.Correct H →
          let caches := (run H ops).caches
          View.proveLookup ⟨view, caches⟩ key = .ok proof →
          (proof.verify H t.root key value c).1 = true →
            caches.Collides H a ∨
              ∃ payload, View.lookup ⟨t, caches⟩ key = .ok payload ∧ value = payload.getD 0 := by
  intro bound
  obtain ⟨payload, hlookup, paid⟩ := (bound tally bareGround .binary bareTree stump [] held_bareTree
    rfl (by decide) 0 1 _ .empty DigestCache.correct_empty proveLookup_stump
    verify_stump).resolve_left not_collides_bareGround
  have sound := sound_run tally bareGround
  have holds := (sound.held _ held_bareTree).resolve_left not_collides_bareGround
  have fits : (0 : Element .pallasBase).val < Arity.binary.width ^ bareTree.height := by decide
  have nothing := holds.lookup sound.faithful not_collides_bareGround fits
  obtain rfl := Except.ok.inj (hlookup.symm.trans nothing)
  exact absurd paid (by decide)

/-- What the short proof shows is the commitment of the subtree below the first digit. -/
theorem verify_anyHeight_stump :
    (1 : Element .pallasBase) =
      commit tally .binary 1 ((contentsOf []).leaves.under (Arity.binary.width ^ 1) 0) := by
  obtain ⟨-, lower, -⟩ := (verify_anyHeight tally bareGround .binary bareTree stump []
    held_bareTree rfl 0 1 _ .empty DigestCache.correct_empty proveLookup_stump
    verify_stump).resolve_left not_collides_bareGround
  exact lower 1 rfl

end View

end PoseidonTrie
