import PoseidonTrie.Proofs.Circuit.Allocation
import PoseidonTrie.Proofs.Trie.Verify

/-! Insertion circuits are sound against any prover: whatever an assignment that satisfies one
says, it holds a path to the key and the root that the insertion leads to. -/
namespace PoseidonTrie

variable {f : PrimeField} {a : Arity} {H : Hasher f}

/-- A path of nodes to a key under one root, and the root once a value is put at its end. -/
structure InsertsAlong (H : Hasher f) (height : Nat) (root key value newRoot leaf : Element f)
    (path : List (Fin a.width)) (nodes : List (Node f a.width)) : Prop where
  pos : 0 < height
  le : height ≤ fullHeight f a
  path_eq : a.path key height = .ok path
  length : nodes.length = height
  chained : Chained H root leaf (path.zip nodes)
  nonzero : value ≠ 0
  rebuilt : newRoot = rebuiltRoot H value (path.zip nodes)

namespace InsertsAlong

variable {height : Nat} {root key value newRoot leaf : Element f} {path : List (Fin a.width)}
  {nodes : List (Node f a.width)}

theorem key_lt (h : InsertsAlong H height root key value newRoot leaf path nodes) :
    key.val < a.width ^ height :=
  (Arity.path_eq_ok h.le h.path_eq).1

theorem path_digits (h : InsertsAlong H height root key value newRoot leaf path nodes) :
    path = a.digits height key.val :=
  (Arity.path_eq_ok h.le h.path_eq).2

theorem verify (h : InsertsAlong H height root key value newRoot leaf path nodes)
    {c : DigestCache f} (hc : c.Correct H) :
    (InsertProof.verify H ⟨⟨nodes⟩, ⟨rebuiltNodes H value (path.zip nodes)⟩⟩ root newRoot key
      (some leaf) value c).1 = true := by
  rw [h.rebuilt]
  exact InsertProof.verify_of_chained h.chained hc rfl h.nonzero (h.length.symm ▸ h.path_eq)
    (h.length.symm ▸ h.pos)

end InsertsAlong

namespace Circuit

theorem forces_insertPath (ns : Path) (a : Arity) (root key value : Num f) (height : Nat)
    (witness : Option (List (Node f a.width))) :
    ForcesBetween H (insertPath H ns a.width root key value height witness) fun s t w newRoot =>
      ∃ (path : List (Fin a.width)) (nodes : List (Node f a.width)) (leaf : Element f),
        InsertsAlong H height (root.eval w) (key.eval w) (value.eval w) (newRoot.eval w) leaf path
          nodes ∧
        AssignsPath w s t (.oldPath :: ns) nodes := by
  unfold insertPath
  rw [dif_pos a.supported]
  apply ForcesBetween.bind (forces_enter ..).lift
  intro ns'
  apply ForcesBetween.bind (forces_lookup ..)
  intro lookup
  apply ForcesBetween.bind (forces_enter ..).lift
  intro ns''
  apply ForcesBetween.bind (forces_nonzero ..).lift
  intro _
  apply (forces_insertLevels ..).lift.mono
  rintro s₄ t w newRoot hinsert s₃ more₃ more₄ hnonzero s₂ more₂ _ rfl s₁ more₁ _
    ⟨path, nodes, looks, hdigits, hnodes, assigns⟩ s₀ more₀ _ rfl
  have counts : lookup.nodes.length = lookup.digits.length := by
    rw [hnodes.length_eq, hdigits.length_eq, looks.length, Arity.length_of_path looks.path_eq]
  have rebuilt := hinsert nodes path (by rwa [List.map_fst_zip counts.le])
    (by rwa [List.map_snd_zip counts.ge])
  refine ⟨path, nodes, lookup.leaf.eval w, ⟨looks.pos, looks.le, looks.path_eq, looks.length,
    looks.chained, hnonzero, rebuilt⟩, ?_⟩
  exact assigns.mono more₀ (more₂.trans (more₃.trans more₄))

/-- An assignment that satisfies what an insertion circuit adds to a system assigns a path to the
key under the root, and the new root is the one that the insertion leads to. A proof made of the
path is accepted. -/
theorem insertPath_sound (H : Hasher f) (a : Arity) (ns : Path) (root key value : Num f)
    (height : Nat) (witness : Option (List (Node f a.width))) (s t : System f) (newRoot : Num f)
    (hs : s.kind ≠ .witness)
    (h : insertPath H ns a.width root key value height witness s = .ok (newRoot, t))
    (w : Assignment f) (hw : Satisfies H w (s.since t)) :
    ∃ (path : List (Fin a.width)) (nodes : List (Node f a.width)) (leaf : Element f),
      InsertsAlong H height (root.eval w) (key.eval w) (value.eval w) (newRoot.eval w) leaf path
        nodes ∧
      AssignsPath w s t (.oldPath :: ns) nodes ∧
      (key.eval w).val < a.width ^ height ∧
      ∀ c : DigestCache f, c.Correct H →
        (InsertProof.verify H ⟨⟨nodes⟩, ⟨rebuiltNodes H (value.eval w) (path.zip nodes)⟩⟩
          (root.eval w) (newRoot.eval w) (key.eval w) (some leaf) (value.eval w) c).1 = true := by
  obtain ⟨cs, he, forced⟩ := (forces_insertPath ..).of_run s newRoot t hs h
  rw [he.since_eq] at hw
  obtain ⟨path, nodes, leaf, inserts, assigns⟩ := forced w hw
  exact ⟨path, nodes, leaf, inserts, assigns, inserts.key_lt, fun c hc => inserts.verify hc⟩

/-- A system with three numbers: a root, a key and a value. -/
def threeNumbers : System .pallasBase :=
  (((System.empty .shape).addVariable [.num, .root] none).addVariable [.num, .key] none).addVariable
    [.num, .value] none

/-- The value one goes to the key one of an empty binary trie of height one. -/
def insertOne : Assignment .pallasBase := fun i =>
  if i ∈ [1, 2, 3, 8, 10, 11] then 1 else 0

theorem satisfies_insertOne :
    ∃ newRoot t,
      insertPath weigh [.insert] Arity.binary.width ⟨0, none⟩ ⟨1, none⟩ ⟨2, none⟩ 1 none
          threeNumbers = .ok (newRoot, t) ∧
        Satisfies weigh insertOne (threeNumbers.since t) :=
  ⟨_, _, rfl, by decide +kernel⟩

theorem insertPath_sound_insertOne :
    ∃ (newRoot : Element .pallasBase) (path : List (Fin Arity.binary.width)) (leaf : _)
      (nodes : List (Node .pallasBase Arity.binary.width)),
      InsertsAlong weigh 1 0 1 1 newRoot leaf path nodes := by
  obtain ⟨newRoot, t, h, hw⟩ := satisfies_insertOne
  have recording : threeNumbers.kind ≠ .witness := by decide
  obtain ⟨path, nodes, leaf, inserts, _⟩ :=
    insertPath_sound weigh .binary _ _ _ _ _ _ _ _ _ recording h insertOne hw
  exact ⟨newRoot.eval insertOne, path, leaf, nodes, inserts⟩

end Circuit

end PoseidonTrie
