import PoseidonTrie.Proofs.Circuit.Allocation
import PoseidonTrie.Proofs.Forest.Persistence
import PoseidonTrie.Proofs.Trie.Binding
import PoseidonTrie.Proofs.Trie.Descent

/-! Lookup circuits are sound against any prover. Whatever an assignment that satisfies one says, it
holds a proof of the key under the root that every verifier accepts. So a trie at that root has the
payload that is shown, or nodes of the two paths collide. -/
namespace PoseidonTrie

variable {f : PrimeField} {a : Arity} {H : Hasher f}

namespace LooksUpAlong

variable {height : Nat} {root key leaf : Element f} {path : List (Fin a.width)}
  {nodes : List (Node f a.width)} {v : View f a}

/-- The proof made of the path is accepted by any cache of digests. -/
theorem verify (h : LooksUpAlong H height root key leaf path nodes) {c : DigestCache f}
    (hc : c.Correct H) : (LookupProof.verify H ⟨nodes⟩ root key leaf c).1 = true := by
  apply (LookupProof.verify_eq_true_iff hc).mpr
  exact ⟨path, LookupProof.shows_of_chained h.chained (h.length.symm ▸ h.path_eq)
    (h.length.symm ▸ h.pos)⟩

/-- A trie at the root, if it finds the key at all, finds the same leaf or collides. -/
theorem lookup_eq (h : LooksUpAlong H v.trie.height v.trie.root key leaf path nodes)
    (hv : v.caches.Correct H) {payload : Option (Element f)}
    (hlookup : v.lookup key = .ok payload) :
    payload.getD 0 = leaf ∨
      ∃ proof, v.proveLookup key = .ok proof ∧ CollideAtLevel H nodes proof.nodes := by
  obtain ⟨own, finds⟩ := View.lookup_eq_ok hlookup
  obtain ⟨payload', hlookup', paid⟩ := finds.lookup hv
  obtain rfl := Except.ok.inj (hlookup.symm.trans hlookup')
  obtain ⟨-, rfl⟩ := Arity.path_eq_ok h.le h.path_eq
  have count := Arity.length_digits (a := a) v.trie.height key.val
  rcases h.chained.eq_or_collide (finds.chained hv) (h.length.trans count.symm)
    (finds.length_eq.trans count.symm) with hc | ⟨-, hleaf⟩
  · exact Or.inr ⟨⟨own⟩, View.proveLookup_eq_ok.mpr finds, hc⟩
  · exact Or.inl (paid.trans hleaf.symm)

/-- A trie that holds a map at the root does find the key, and the leaf is what it maps to. -/
theorem lookup_holds {m : Contents f}
    (h : LooksUpAlong H v.trie.height v.trie.root key leaf path nodes) (hv : v.Holds H m)
    (hf : v.caches.Faithful H) (hc : ¬ v.caches.CollidesAmong H a nodes) :
    v.lookup key = .ok (m key) ∧ (m key).getD 0 = leaf := by
  have unique : ¬ v.caches.Collides H a := fun h => hc (h.among _)
  obtain ⟨fits, rfl⟩ := Arity.path_eq_ok h.le h.path_eq
  obtain ⟨paid, -⟩ := hv.of_chained fits h.chained h.length hc
  exact ⟨hv.lookup hf unique fits, paid.symm⟩

end LooksUpAlong

namespace Circuit

/-- An assignment that satisfies what a lookup circuit adds to a system assigns digits that spell
the key's path, and a proof of the key under the root that is accepted with the leaf for payload. A
trie at that root whose lookup succeeds reports this leaf, unless its path and the one assigned
collide at some level. One that was ever held over shared caches also has its whole path, unless two
nodes collide among those registered and those assigned. -/
theorem lookupPath_sound (H : Hasher f) (a : Arity) (ns : Path) (root key : Num f) (height : Nat)
    (witness : Option (List (Node f a.width))) (s t : System f) (out : AllocatedPath f)
    (hs : s.kind ≠ .witness)
    (h : lookupPath H ns a.width root key height witness s = .ok (out, t))
    (w : Assignment f) (hw : Satisfies H w (s.since t)) :
    ∃ (path : List (Fin a.width)) (nodes : List (Node f a.width)),
      a.path (key.eval w) height = .ok path ∧
      List.Forall₂ (ReadsDigit w) out.digits path ∧
      nodes.length = height ∧
      AssignsPath w s t ns nodes ∧
      (∀ c : DigestCache f, c.Correct H →
        (LookupProof.verify H ⟨nodes⟩ (root.eval w) (key.eval w) (out.leaf.eval w) c).1 = true) ∧
      (∀ v : View f a, v.caches.Correct H → v.trie.height = height → v.trie.root = root.eval w →
        ∀ payload, v.lookup (key.eval w) = .ok payload →
          payload.getD 0 = out.leaf.eval w ∨
            ∃ proof, v.proveLookup (key.eval w) = .ok proof ∧
              CollideAtLevel H nodes proof.nodes) ∧
      ∀ (ops : List (Op f)) (trie : Trie f a) (history : List (Element f × Element f)),
        ⟨a, trie, history⟩ ∈ (Forest.run H ops).held → trie.height = height →
          trie.root = root.eval w →
            let caches := (Forest.run H ops).caches
            caches.CollidesAmong H a nodes ∨
              View.lookup ⟨trie, caches⟩ (key.eval w) = .ok (contentsOf history (key.eval w)) ∧
                (contentsOf history (key.eval w)).getD 0 = out.leaf.eval w := by
  obtain ⟨cs, he, forced⟩ := (forces_lookup ..).of_run s out t hs h
  rw [he.since_eq] at hw
  obtain ⟨path, nodes, looks, digits, -, assigns⟩ := forced w hw
  refine ⟨path, nodes, looks.path_eq, digits, looks.length, assigns, fun c hc => looks.verify hc,
    ?_, ?_⟩
  · rintro v hv rfl hroot payload hlookup
    rw [← hroot] at looks
    exact looks.lookup_eq hv hlookup
  · rintro ops trie history hm rfl hroot caches
    rw [← hroot] at looks
    by_cases hc : caches.CollidesAmong H a nodes
    · exact Or.inl hc
    · have sound := Forest.sound_run H ops
      have holds := (sound.held _ hm).resolve_left fun h => hc (h.among _)
      exact Or.inr (looks.lookup_holds (v := ⟨trie, caches⟩) holds sound.faithful hc)

/-- A system with two numbers: a root and a key. -/
def twoNumbers : System .pallasBase :=
  ((System.empty .shape).addVariable [.num, .root] none).addVariable [.num, .key] none

/-- The value one is at the key one of a binary trie of height one, with nothing beside it. -/
def lookupOne : Assignment .pallasBase := fun i =>
  if i = 3 then 0 else 1

theorem satisfies_lookupOne :
    ∃ out t,
      lookupPath weigh [.insert] Arity.binary.width ⟨0, none⟩ ⟨1, none⟩ 1 none twoNumbers =
          .ok (out, t) ∧
        out.leaf.eval lookupOne = 1 ∧ Satisfies weigh lookupOne (twoNumbers.since t) :=
  ⟨_, _, rfl, by decide +kernel, by decide +kernel⟩

open Forest

/-- The leaf shown is what the trie with one leaf holds at that key. -/
theorem lookupPath_sound_lookupOne :
    ∃ (path : List (Fin Arity.binary.width)) (nodes : List (Node .pallasBase Arity.binary.width)),
      Arity.binary.path (1 : Element .pallasBase) 1 = .ok path ∧
        (LookupProof.verify weigh ⟨nodes⟩ 1 1 1 .empty).1 = true ∧
          ((run weigh oneLeaf).caches.CollidesAmong weigh .binary nodes ∨
            View.lookup ⟨sapling 1, (run weigh oneLeaf).caches⟩ 1 = .ok (some 1)) := by
  obtain ⟨out, t, h, hleaf, hw⟩ := satisfies_lookupOne
  have recording : twoNumbers.kind ≠ .witness := by decide
  have held : (⟨.binary, sapling 1, [(1, 1)]⟩ : Member .pallasBase) ∈ (run weigh oneLeaf).held := by
    rw [run_oneLeaf]
    exact List.mem_cons_of_mem _ (List.mem_singleton_self _)
  obtain ⟨path, nodes, hpath, -, -, -, accepted, -, history⟩ :=
    lookupPath_sound weigh .binary _ _ _ _ _ _ _ _ recording h lookupOne hw
  rw [hleaf] at accepted
  have told := history oneLeaf (sapling 1) [(1, 1)] held rfl rfl
  exact ⟨path, nodes, hpath, accepted _ DigestCache.correct_empty, told.imp_right And.left⟩

end Circuit

end PoseidonTrie
