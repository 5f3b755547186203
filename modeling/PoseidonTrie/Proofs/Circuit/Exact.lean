import PoseidonTrie.Proofs.Circuit.Accepted
import PoseidonTrie.Proofs.Circuit.Shape

/-! Exactly which paths the circuits accept, out of all lists of nodes. The conditions are told
level by level: the first node hashes to the root, and each later one to the child that the key's
digit chooses above it. -/
namespace PoseidonTrie

variable {f : PrimeField} {a : Arity} {H : Hasher f} {root : Element f} {k : Fin a.width}
  {node : Node f a.width} {path : List (Fin a.width)} {nodes : List (Node f a.width)}

/-- The first node hashes to the root, and every other one to the child that the path chooses of the
node before it. -/
structure Linked (H : Hasher f) (root : Element f) (path : List (Fin a.width))
    (nodes : List (Node f a.width)) : Prop where
  top : ∀ node, nodes[0]? = some node → H a node = root
  below : ∀ (level : Nat) (k : Fin a.width) (upper lower : Node f a.width),
    path[level]? = some k → nodes[level]? = some upper → nodes[level + 1]? = some lower →
      H a lower = upper.child k

theorem linked_nil (H : Hasher f) (root : Element f) (path : List (Fin a.width)) :
    Linked H root path [] :=
  ⟨nofun, nofun⟩

theorem linked_cons :
    Linked H root (k :: path) (node :: nodes) ↔
      H a node = root ∧ Linked H (node.child k) path nodes := by
  constructor
  · rintro ⟨top, below⟩
    refine ⟨top node rfl, ⟨?_, ?_⟩⟩
    · exact fun next h => below 0 k node next rfl rfl h
    · exact fun level => below (level + 1)
  · rintro ⟨hash, top, below⟩
    refine ⟨?_, ?_⟩
    · rintro _ ⟨⟩
      exact hash
    -- Below the first node stands the top of the rest.
    · intro level
      cases level with
      | zero =>
        rintro _ _ lower ⟨⟩ ⟨⟩ h
        exact top lower h
      | succ level => exact below level

theorem chained_iff_linked (hlen : nodes.length = path.length) :
    Chained H root (pathEnd root (path.zip nodes)) (path.zip nodes) ↔ Linked H root path nodes := by
  induction path generalizing root nodes with
  | nil =>
    obtain rfl := List.length_eq_zero_iff.mp hlen
    exact iff_of_true rfl (linked_nil H root [])
  | cons k path ih =>
    match nodes, hlen with
    | node :: nodes, hlen =>
      rw [linked_cons, ← ih (Nat.succ.inj hlen)]
      rfl

namespace Circuit

variable {s : System f} {height : Nat} {r k x : Element f} {key value : Num f}

theorem leads_iff_linked (le : height ≤ fullHeight f a) (hlen : nodes.length = height) :
    Leads H height r k nodes ↔ ∃ path, a.path k height = .ok path ∧ Linked H r path nodes := by
  have count : nodes.length = (a.digits height k.val).length := by rw [hlen, Arity.length_digits]
  rw [Leads, chained_iff_linked count]
  constructor
  · rintro ⟨fits, linked⟩
    exact ⟨_, Arity.path_of_lt le fits, linked⟩
  · rintro ⟨path, hpath, linked⟩
    obtain ⟨fits, rfl⟩ := Arity.path_eq_ok le hpath
    exact ⟨fits, linked⟩

/-- Whatever nodes are given for its path, as many as the height says, a lookup can be synthesized
over known numbers, and its constraints hold exactly if the key has a path, the first node hashes to
the root and each other node to the child chosen above it. An insertion holds exactly if besides its
value is not zero, and yields the root that its nodes are rebuilt to. With another number of nodes,
a height without paths or a width that cannot be hashed, both are refused. -/
theorem paths_exact (H : Hasher f) (ns : Path) (s : System f) (hs : s.kind = .test)
    (root key value : Num f) (r k x : Element f) (hroot : root.Known s r) (hkey : key.Known s k)
    (hvalue : value.Known s x) :
    (∀ (a : Arity) (height : Nat) (nodes : List (Node f a.width)), 0 < height →
      height ≤ fullHeight f a → nodes.length = height →
        (∃ out t, lookupPath H ns a.width root key height (some nodes) s = .ok (out, t) ∧
          (Satisfies H t.assignment (s.since t) ↔
            ∃ path, a.path k height = .ok path ∧ Linked H r path nodes)) ∧
        ∃ out t, insertPath H ns a.width root key value height (some nodes) s = .ok (out, t) ∧
          (Satisfies H t.assignment (s.since t) ↔
            (∃ path, a.path k height = .ok path ∧ Linked H r path nodes) ∧ x ≠ 0) ∧
          ∀ path, a.path k height = .ok path →
            out.Known t (rebuiltRoot H x (path.zip nodes))) ∧
    ∀ (n height : Nat) (nodes : List (Node f n)), ¬ Buildable height (some nodes) →
      errorOf (lookupPath H ns n root key height (some nodes)) s = some .unsatisfiable ∧
        errorOf (insertPath H ns n root key value height (some nodes)) s =
          some .unsatisfiable := by
  refine ⟨fun a height nodes pos le hlen => ⟨?_, ?_⟩, fun n height nodes h => ⟨?_, ?_⟩⟩
  · rw [← leads_iff_linked le hlen]
    obtain ⟨out, t, hrun, -, holds⟩ :=
      (computes_lookupPath (H := H) ns hroot hkey pos le hlen).run hs
    exact ⟨out, t, hrun, holds⟩
  · rw [← leads_iff_linked le hlen]
    obtain ⟨out, t, hrun, known, holds⟩ :=
      (computes_insertPath (H := H) ns hroot hkey hvalue pos le hlen).run hs
    refine ⟨out, t, hrun, holds, fun path hpath => ?_⟩
    obtain ⟨-, rfl⟩ := Arity.path_eq_ok le hpath
    exact known
  · exact lookupPath_eq_error h
  · exact insertPath_eq_error h

open LookupProof

/-- Of two paths that differ below the root, one is linked to it and accepted, and the other one is
neither. No node can be hashed at width three. -/
theorem paths_exact_belowRoot :
    (∃ out t, lookupPath weigh [] 2 ⟨0, some (1 + 1)⟩ ⟨1, some 1⟩ 2 (some (belowRoot 1).nodes)
        rootTwo = .ok (out, t) ∧ Satisfies weigh t.assignment (rootTwo.since t)) ∧
      (∃ out t, lookupPath weigh [] 2 ⟨0, some (1 + 1)⟩ ⟨1, some 1⟩ 2 (some (belowRoot 0).nodes)
        rootTwo = .ok (out, t) ∧ ¬ Satisfies weigh t.assignment (rootTwo.since t)) ∧
      errorOf (lookupPath weigh [] 3 ⟨0, some (1 + 1)⟩ ⟨1, some 1⟩ 2
        (some [.uniform 3 0, .uniform 3 0])) rootTwo = some .unsatisfiable := by
  have le : 2 ≤ fullHeight .pallasBase .binary := by decide
  obtain ⟨accepts, refuses⟩ := paths_exact weigh [] rootTwo rfl ⟨0, some (1 + 1)⟩ ⟨1, some 1⟩
    ⟨2, some 1⟩ (1 + 1) 1 1 ⟨rfl, _, rfl⟩ ⟨rfl, _, rfl⟩ ⟨rfl, _, rfl⟩
  obtain ⟨⟨out, t, hrun, holds⟩, -⟩ := accepts .binary 2 (belowRoot 1).nodes Nat.two_pos le rfl
  obtain ⟨⟨out', t', hrun', holds'⟩, -⟩ := accepts .binary 2 (belowRoot 0).nodes Nat.two_pos le rfl
  refine ⟨⟨out, t, hrun, holds.mpr ⟨_, path_one, ?_⟩⟩, ⟨out', t', hrun', ?_⟩,
    (refuses 3 2 _ ?_).1⟩
  · rw [← chained_iff_linked rfl]
    exact ⟨by decide, by decide, rfl⟩
  · rw [holds']
    rintro ⟨path, -, linked⟩
    have top := linked.top _ rfl
    revert top
    decide
  · rintro ⟨⟨n, supported⟩, rfl, -⟩
    revert supported
    decide

end Circuit

end PoseidonTrie
