import PoseidonTrie.Proofs.Trie.Contents
import PoseidonTrie.Proofs.Trie.Verify

/-! Roots bind what is opened under them. Along one path two chains of one length from one root are
one chain, or two of their nodes at one level collide. So the accepted proofs of a key and height
are alike, up to the children that verification replaces. -/
namespace PoseidonTrie

variable {f : PrimeField} {a : Arity} {H : Hasher f} {key root value value' leaf leaf' : Element f}
  {k : Fin a.width} {path : List (Fin a.width)} {x y : Node f a.width}
  {nodes nodes' xs ys : List (Node f a.width)}

/-- Two different nodes at one level have one digest. -/
def CollideAtLevel (H : Hasher f) (xs ys : List (Node f a.width)) : Prop :=
  ∃ (level : Nat) (x y : Node f a.width),
    xs[level]? = some x ∧ ys[level]? = some y ∧ x ≠ y ∧ H a x = H a y

theorem CollideAtLevel.head (hne : x ≠ y) (hash : H a x = H a y) :
    CollideAtLevel H (x :: xs) (y :: ys) :=
  ⟨0, x, y, rfl, rfl, hne, hash⟩

theorem CollideAtLevel.cons (h : CollideAtLevel H xs ys) (x y : Node f a.width) :
    CollideAtLevel H (x :: xs) (y :: ys) := by
  obtain ⟨level, x', y', hx, hy, hne, hash⟩ := h
  exact ⟨level + 1, x', y', hx, hy, hne, hash⟩

theorem not_collideAtLevel_self (xs : List (Node f a.width)) : ¬ CollideAtLevel H xs xs := by
  rintro ⟨level, x, y, hx, hy, hne, -⟩
  exact hne (Option.some.inj (hx.symm.trans hy))

/-- Chains of one length from one root along one path are one chain, or they collide. Going down,
either the nodes are the same, and so are their children on the path, or they collide here. -/
theorem Chained.eq_or_collide (h : Chained H root leaf (path.zip xs))
    (h' : Chained H root leaf' (path.zip ys)) (hlen : xs.length = path.length)
    (hlen' : ys.length = path.length) :
    CollideAtLevel H xs ys ∨ xs = ys ∧ leaf = leaf' := by
  induction path generalizing root xs ys with
  | nil =>
    obtain rfl := List.length_eq_zero_iff.mp hlen
    obtain rfl := List.length_eq_zero_iff.mp hlen'
    exact Or.inr ⟨rfl, h.symm.trans h'⟩
  | cons k path ih =>
    match xs, ys, hlen, hlen' with
    | x :: xs, y :: ys, hlen, hlen' =>
      obtain ⟨hash, h⟩ := h
      obtain ⟨hash', h'⟩ := h'
      -- Both nodes have the same digest here, whatever is below them.
      by_cases hne : x = y
      · subst hne
        rcases ih h h' (Nat.succ.inj hlen) (Nat.succ.inj hlen') with hc | ⟨rfl, hleaf⟩
        · exact Or.inl (hc.cons x x)
        · exact Or.inr ⟨rfl, hleaf⟩
      · exact Or.inl (.head hne (hash.trans hash'.symm))

theorem Node.agreeOff_of_put_eq {old new : Node f a.width} {u v : Element f}
    (h : old.put k u = new.put k v) : Node.agreeOff k old new = true := by
  simp only [Node.agreeOff, List.all_eq_true, Bool.or_eq_true, decide_eq_true_eq]
  intro i _
  by_cases hi : i = k
  · exact Or.inl hi
  · right
    rw [← Node.child_put_of_ne old hi u, h, Node.child_put_of_ne new hi v]

theorem InsertProof.siblingsKept_of_rebuiltNodes_eq
    (h : rebuiltNodes H value (path.zip nodes) = rebuiltNodes H value' (path.zip nodes')) :
    InsertProof.siblingsKept ⟨⟨nodes⟩, ⟨nodes'⟩⟩ path = true := by
  induction path generalizing nodes nodes' with
  | nil => rfl
  | cons k path ih =>
    match nodes, nodes' with
    | [], _ => rfl
    | _ :: _, [] => rfl
    | node :: nodes, node' :: nodes' =>
      rw [List.zip_cons_cons, List.zip_cons_cons, rebuiltNodes, rebuiltNodes] at h
      obtain ⟨top, below⟩ := List.cons.inj h
      rw [siblingsKept, List.zip_cons_cons, List.zip_cons_cons, List.all_cons]
      exact Bool.and_eq_true_iff.mpr ⟨Node.agreeOff_of_put_eq top, ih below⟩

namespace LookupProof

variable {p q : LookupProof f a} {c : DigestCache f}

theorem getLast?_rebuiltNodes (hlen : nodes.length = path.length)
    (h : LookupProof.payloadAt ⟨nodes⟩ path = value) :
    (rebuiltNodes H value (path.zip nodes)).getLast? = nodes.getLast? := by
  induction path generalizing nodes with
  | nil =>
    obtain rfl := List.length_eq_zero_iff.mp hlen
    rfl
  | cons k path ih =>
    match nodes, path, hlen with
    | [node], [], _ =>
      have last : node.child k = value := h
      rw [← last]
      simp [rebuiltNodes, rebuiltRoot]
    | node :: next :: nodes, j :: path, hlen =>
      rw [payloadAt_cons] at h
      have below := ih (Nat.succ.inj hlen) h
      rw [List.getLast?_cons_cons, ← below]
      rfl

/-- Two proofs of one height have the same last node, and at every other level the same children
off the path. -/
structure MatchesOff (path : List (Fin a.width)) (p q : LookupProof f a) : Prop where
  height_eq : p.height = q.height
  last_eq : p.nodes.getLast? = q.nodes.getLast?
  siblings : InsertProof.siblingsKept ⟨p, q⟩ path = true

/-- Proofs of one lookup, perhaps with different payloads, hash the same nodes or collide. -/
theorem Shows.hashed_eq_or_collide (hp : p.Shows H root key value path)
    (hq : q.Shows H root key value' path) :
    CollideAtLevel H (p.hashed H key value) (q.hashed H key value') ∨
      p.hashed H key value = q.hashed H key value' ∧ value = value' :=
  hp.chained.eq_or_collide hq.chained (hp.length_hashed.trans hp.length_eq)
    (hq.length_hashed.trans hq.length_eq)

/-- So they match off the path, or collide. -/
theorem Shows.matches_or_collide (hp : p.Shows H root key value path)
    (hq : q.Shows H root key value' path) :
    CollideAtLevel H (p.hashed H key value) (q.hashed H key value') ∨
      value = value' ∧ p.MatchesOff path q := by
  have heights : p.height = q.height := hp.length_eq.trans hq.length_eq.symm
  rcases hp.hashed_eq_or_collide hq with hc | ⟨same, hvalue⟩
  · exact Or.inl hc
  · rw [hashed_of_path hp.path_eq, hashed_of_path hq.path_eq] at same
    refine Or.inr ⟨hvalue, heights, ?_, InsertProof.siblingsKept_of_rebuiltNodes_eq same⟩
    rw [← getLast?_rebuiltNodes hp.length_eq hp.payload_eq, same,
      getLast?_rebuiltNodes hq.length_eq hq.payload_eq]

theorem MatchesOff.shows (h : p.MatchesOff path q) (hp : p.Shows H root key value path) :
    q.Shows H root key value path := by
  have count : q.nodes.length = path.length := h.height_eq.symm.trans hp.length_eq
  refine ⟨h.height_eq ▸ hp.path_eq, h.height_eq ▸ hp.pos, ?_, ?_⟩
  · rw [payloadAt, ← h.last_eq]
    exact hp.payload_eq
  · rw [InsertProof.rebuiltRoot_eq h.siblings hp.length_eq count]
    exact hp.root_eq

/-- An accepted proof is bound to its root and key. Verifying it hashes exactly its nodes with the
recomputed children in place. Any other proof of its height that is accepted has the same payload,
the same last node and the same children off the path, or two of the nodes hashed at one level
collide; and any proof that matches it so far is accepted. -/
theorem verify_binding (H : Hasher f) (p q : LookupProof f a) (root key value : Element f)
    (c : DigestCache f) (hc : c.Correct H) (hp : (p.verify H root key value c).1 = true)
    (hheight : q.height = p.height) :
    (p.recomputeRoot H key c).2 = c.hashAll H (p.hashed H key value) ∧
      ∃ path, a.path key p.height = .ok path ∧
        (∀ (value' : Element f) (c' : DigestCache f), c'.Correct H →
          (q.verify H root key value' c').1 = true →
            CollideAtLevel H (p.hashed H key value) (q.hashed H key value') ∨
              value = value' ∧ p.MatchesOff path q) ∧
        (p.MatchesOff path q → ∀ c' : DigestCache f, c'.Correct H →
          (q.verify H root key value c').1 = true) := by
  obtain ⟨path, shows⟩ := (verify_eq_true_iff hc).mp hp
  refine ⟨?_, path, shows.path_eq, ?_, ?_⟩
  · rw [recomputeRoot_eq hc shows.path_eq shows.pos, shows.payload_eq]
  · intro value' c' hc' hq
    obtain ⟨path', shows'⟩ := (verify_eq_true_iff hc').mp hq
    obtain rfl : path = path' :=
      Except.ok.inj (shows.path_eq.symm.trans (hheight ▸ shows'.path_eq))
    exact shows.matches_or_collide shows'
  · intro h c' hc'
    exact (verify_eq_true_iff hc').mpr ⟨path, h.shows shows⟩

/-- The path to one at key one of a binary trie of height two, with any commitment for the node
below the root. -/
def belowRoot (x : Element .pallasBase) : LookupProof .pallasBase .binary :=
  ⟨[(Node.uniform _ 0).put ⟨0, Nat.two_pos⟩ x, (Node.uniform _ 0).put ⟨1, Nat.one_lt_two⟩ 1]⟩

theorem path_one :
    Arity.binary.path (1 : Element .pallasBase) 2 =
      .ok [⟨0, Nat.two_pos⟩, ⟨1, Nat.one_lt_two⟩] := by
  have le : 2 ≤ fullHeight .pallasBase .binary := by decide
  have fits : (1 : Element .pallasBase).val < Arity.binary.width ^ 2 := by decide
  exact (Arity.path_of_lt le fits).trans rfl

theorem shows_belowRoot :
    (belowRoot 0).Shows weigh (1 + 1) 1 1 [⟨0, Nat.two_pos⟩, ⟨1, Nat.one_lt_two⟩] :=
  ⟨path_one, Nat.two_pos, rfl, by decide⟩

/-- The commitment that a proof states for the node below the root does not matter, and it is all
that two proofs can differ in. -/
theorem verify_binding_belowRoot :
    ((belowRoot 1).verify weigh (1 + 1) 1 1 .empty).1 = true ∧
      (belowRoot 0).MatchesOff [⟨0, Nat.two_pos⟩, ⟨1, Nat.one_lt_two⟩] (belowRoot 1) := by
  have accepted := (verify_eq_true_iff DigestCache.correct_empty).mpr ⟨_, shows_belowRoot⟩
  obtain ⟨-, path, hpath, bound, overwritten⟩ := verify_binding weigh (belowRoot 0) (belowRoot 1)
    (1 + 1) 1 1 .empty DigestCache.correct_empty accepted rfl
  obtain rfl := Except.ok.inj (path_one.symm.trans hpath)
  have also : ((belowRoot 1).verify weigh (1 + 1) 1 1 .empty).1 = true :=
    overwritten ⟨rfl, rfl, by decide⟩ .empty DigestCache.correct_empty
  have hashed : (belowRoot 0).hashed weigh 1 1 = (belowRoot 1).hashed weigh 1 1 := by
    rw [hashed_of_path (p := belowRoot 0) path_one, hashed_of_path (p := belowRoot 1) path_one]
    decide
  rw [hashed] at bound
  have same := (bound 1 .empty DigestCache.correct_empty also).resolve_left
    (not_collideAtLevel_self _)
  exact ⟨also, same.2⟩

end LookupProof

namespace Caches

variable {c c' : Caches f} {nodes nodes' : List (Node f a.width)}

/-- Two different nodes, each registered or in a list, have one digest. -/
def CollidesAmong (H : Hasher f) (c : Caches f) (a : Arity) (nodes : List (Node f a.width)) :
    Prop :=
  ∃ x y, x ≠ y ∧ (c.Has a x ∨ x ∈ nodes) ∧ (c.Has a y ∨ y ∈ nodes) ∧ H a x = H a y

theorem Collides.among (h : c.Collides H a) (nodes : List (Node f a.width)) :
    c.CollidesAmong H a nodes := by
  obtain ⟨x, y, hne, hx, hy, he⟩ := h
  exact ⟨x, y, hne, Or.inl hx, Or.inl hy, he⟩

theorem CollidesAmong.mono (h : c.CollidesAmong H a nodes) (hf : c.Faithful H)
    (hg : c.Grows H c') : c'.CollidesAmong H a nodes := by
  obtain ⟨x, y, hne, hx, hy, he⟩ := h
  exact ⟨x, y, hne, hx.imp_left (hg.has hf), hy.imp_left (hg.has hf), he⟩

theorem CollidesAmong.subset (h : c.CollidesAmong H a nodes) (hsub : nodes ⊆ nodes') :
    c.CollidesAmong H a nodes' := by
  obtain ⟨x, y, hne, hx, hy, he⟩ := h
  exact ⟨x, y, hne, hx.imp_right (@hsub x), hy.imp_right (@hsub y), he⟩

/-- What chains from a registered tree's root is the tree's own, or collides with it. -/
theorem HasTree.eq_of_chained {height n : Nat} {leaves : Leaves f}
    (ht : c.HasTree H a height leaves) (hn : n < a.width ^ height)
    (hchain : Chained H (commit H a height leaves) leaf ((a.digits height n).zip nodes))
    (hlen : nodes.length = height) (hc : ¬ c.CollidesAmong H a nodes) :
    nodes = nodesAbove H a height leaves n ∧ leaf = leaves n := by
  have count := Arity.length_digits (a := a) height n
  have own := chained_nodesAbove (H := H) leaves hn
  refine (hchain.eq_or_collide own (hlen.trans count.symm) ?_).resolve_left ?_
  · rw [length_nodesAbove, count]
  · rintro ⟨level, x, y, hx, hy, hne, hash⟩
    have registered := ht.has_of_mem hn (List.mem_of_getElem? hy)
    exact hc ⟨x, y, hne, Or.inr (List.mem_of_getElem? hx), Or.inl registered, hash⟩

end Caches

/-- What chains from a trie's root along a key ends at what the key maps to, and any value put there
leads to the commitment of the updated map, unless a node collides with the trie's own. -/
theorem View.Holds.of_chained {v : View f a} {m : Contents f} (hv : v.Holds H m)
    (fits : key.val < a.width ^ v.trie.height)
    (hchain : Chained H v.trie.root leaf ((a.digits v.trie.height key.val).zip nodes))
    (hlen : nodes.length = v.trie.height) (hc : ¬ v.caches.CollidesAmong H a nodes) :
    leaf = (m key).getD 0 ∧ ∀ value,
      rebuiltRoot H value ((a.digits v.trie.height key.val).zip nodes) =
        commit H a v.trie.height (Function.update m.leaves key.val value) := by
  rw [hv.root] at hchain
  obtain ⟨rfl, paid⟩ := hv.tree.eq_of_chained fits hchain hlen hc
  refine ⟨paid.trans (Contents.leaves_val m key), fun value => ?_⟩
  exact rebuiltRoot_nodesAbove _ fits

end PoseidonTrie
