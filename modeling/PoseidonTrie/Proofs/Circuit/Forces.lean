import Mathlib.Data.List.Forall2
import PoseidonTrie.Circuit.System

/-! What circuits force. Synthesis only adds to a system, and it forces a fact if every assignment
that satisfies the constraints it adds has the fact, whoever made the assignment. -/
namespace PoseidonTrie.Circuit

variable {f : PrimeField} {H : Hasher f} {w : Assignment f} {α β : Type}
  {s t u : System f} {cs ds : List (Constraint f)}

instance (H : Hasher f) (w : Assignment f) : (c : Constraint f) → Decidable (c.Holds H w)
  | .product _ a b c => inferInstanceAs (Decidable (a.eval w * b.eval w = c.eval w))
  | .hash _ a inputs output =>
    match h : Node.ofRow? a.width (inputs.map w) with
    | none => isFalse fun ⟨_, hnode, _⟩ => nomatch h.symm.trans hnode
    | some node =>
      decidable_of_iff (w output = H a node)
        ⟨fun hout => ⟨node, h, hout⟩,
          fun ⟨_, hnode, hout⟩ => Option.some.inj (h.symm.trans hnode) ▸ hout⟩

/-- The assignment satisfies all constraints of a list. -/
def Satisfies (H : Hasher f) (w : Assignment f) (cs : List (Constraint f)) : Prop :=
  ∀ c ∈ cs, c.Holds H w

instance : Decidable (Satisfies H w cs) :=
  inferInstanceAs (Decidable (∀ c ∈ cs, c.Holds H w))

/-- The constraints that a system has beyond those of an earlier one. -/
def System.since (s t : System f) : List (Constraint f) :=
  t.constraints.toList.drop s.constraints.size

/-- The second system is the first after some allocations and constraints. -/
structure System.Extends (s t : System f) (cs : List (Constraint f)) : Prop where
  kind : t.kind = s.kind
  constraints : t.constraints.toList = s.constraints.toList ++ cs
  auxes : s.auxes.toList <+: t.auxes.toList

namespace System.Extends

theorem refl : s.Extends s [] :=
  ⟨rfl, (List.append_nil _).symm, List.prefix_rfl⟩

theorem trans (h : s.Extends t cs) (h' : t.Extends u ds) : s.Extends u (cs ++ ds) := by
  refine ⟨h'.kind.trans h.kind, ?_, h.auxes.trans h'.auxes⟩
  rw [h'.constraints, h.constraints, List.append_assoc]

theorem since_eq (h : s.Extends t cs) : s.since t = cs := by
  rw [System.since, h.constraints, ← Array.length_toList, List.drop_left]

end System.Extends

theorem extends_name (path : Path) : s.Extends (s.name path) [] := by
  unfold System.name
  split
  · exact .refl
  · exact ⟨rfl, (List.append_nil _).symm, List.prefix_rfl⟩

theorem extends_addVariable (path : Path) (value : Option (Element f)) :
    s.Extends (s.addVariable path value) [] := by
  have named : s.Extends (s.name path) [] := extends_name path
  refine ⟨named.kind, named.constraints, ?_⟩
  rw [System.addVariable, Array.toList_push]
  exact List.prefix_append _ _

theorem extends_addConstraint (hs : s.kind ≠ .witness) (c : Constraint f) :
    s.Extends (s.addConstraint c) [c] := by
  rw [System.addConstraint, if_neg hs]
  exact ⟨rfl, Array.toList_push, List.prefix_rfl⟩

/-- Where a synthesis succeeds in a system that records constraints, it adds some, and any
assignment that satisfies them has a property with the result. -/
structure Forces (H : Hasher f) (x : Synth f α) (Q : Assignment f → α → Prop) : Prop where
  of_run : ∀ s a t, s.kind ≠ .witness → x s = .ok (a, t) →
    ∃ cs, s.Extends t cs ∧ ∀ w, Satisfies H w cs → Q w a

section Rules

variable {x : Synth f α} {g : α → Synth f β} {P Q : Assignment f → α → Prop}
  {R : Assignment f → β → Prop}

theorem bind_eq_ok {b : β} (h : (x >>= g) s = .ok (b, t)) :
    ∃ a s', x s = .ok (a, s') ∧ g a s' = .ok (b, t) := by
  change (x s >>= fun r => g r.1 r.2) = _ at h
  cases hx : x s with
  | error e =>
    rw [hx] at h
    cases h
  | ok r =>
    rw [hx] at h
    exact ⟨r.1, r.2, rfl, h⟩

theorem bind_eq_of_ok {a : α} (h : x s = .ok (a, t)) : (x >>= g) s = g a t := by
  change (x s >>= fun r => g r.1 r.2) = _
  rw [h]
  rfl

theorem bind_eq_error {stop : Stop f} (h : x s = .error stop) : (x >>= g) s = .error stop := by
  change (x s >>= fun r => g r.1 r.2) = _
  rw [h]
  rfl

theorem errorOf_bind {e : SynthesisError} (h : errorOf x s = some e) :
    errorOf (x >>= g) s = some e := by
  unfold errorOf at h
  split at h
  · cases h
  · rename_i stop hx
    rw [errorOf, bind_eq_error hx]
    exact h

theorem length_of_mapM {xs : List α} {ys : List β} (h : xs.mapM g s = .ok (ys, t)) :
    ys.length = xs.length := by
  induction xs generalizing s ys with
  | nil =>
    cases h
    rfl
  | cons a xs ih =>
    rw [List.mapM_cons] at h
    obtain ⟨b, s₁, -, h⟩ := bind_eq_ok h
    obtain ⟨bs, s₂, hrest, h⟩ := bind_eq_ok h
    cases h
    rw [List.length_cons, List.length_cons, ih hrest]

theorem errorOf_enter {ns : Path} {l : Label} {k : Path → Synth f β} :
    errorOf (enter ns l >>= k) s = errorOf (k (l :: ns)) (s.name (l :: ns)) := rfl

theorem forces_pure {a : α} (h : ∀ w, Q w a) : Forces H (pure a) Q := by
  refine ⟨?_⟩
  intro s b t _ hrun
  cases hrun
  exact ⟨[], .refl, fun w _ => h w⟩

theorem forces_fail (e : SynthesisError) : Forces H (fail e) Q := by
  refine ⟨?_⟩
  intro s a t _ hrun
  cases hrun

theorem forces_crash : Forces H crash Q := by
  refine ⟨?_⟩
  intro s a t _ hrun
  cases hrun

theorem Forces.mono (hx : Forces H x P) (h : ∀ w a, P w a → Q w a) : Forces H x Q := by
  refine ⟨?_⟩
  intro s a t hs hrun
  obtain ⟨cs, he, hw⟩ := hx.of_run s a t hs hrun
  exact ⟨cs, he, fun w hcs => h w a (hw w hcs)⟩

/-- One synthesis after another. What the first forces is known in the second. -/
theorem Forces.bind (hx : Forces H x P) (hg : ∀ a, Forces H (g a) fun w b => P w a → R w b) :
    Forces H (x >>= g) R := by
  refine ⟨?_⟩
  intro s b u hs hrun
  obtain ⟨a, t, hfirst, hsecond⟩ := bind_eq_ok hrun
  obtain ⟨cs, he, hw⟩ := hx.of_run s a t hs hfirst
  obtain ⟨ds, he', hw'⟩ := (hg a).of_run t b u (he.kind ▸ hs) hsecond
  refine ⟨cs ++ ds, he.trans he', ?_⟩
  intro w hcs
  have first : Satisfies H w cs := fun c hc => hcs c (List.mem_append_left _ hc)
  have second : Satisfies H w ds := fun c hc => hcs c (List.mem_append_right _ hc)
  exact hw' w second (hw w first)

theorem Forces.mapM {S : α → Assignment f → β → Prop} (xs : List α)
    (hg : ∀ a ∈ xs, Forces H (g a) (S a)) :
    Forces H (xs.mapM g) fun w ys => List.Forall₂ (fun a b => S a w b) xs ys := by
  induction xs with
  | nil => exact forces_pure fun w => .nil
  | cons a xs ih =>
    rw [List.mapM_cons]
    apply Forces.bind (hg a (List.mem_cons_self ..))
    intro b
    apply Forces.bind (ih fun a' h => hg a' (List.mem_cons_of_mem _ h))
    intro ys
    apply forces_pure
    intro w hys hb
    exact .cons hb hys

/-- What a synthesis forces of an assignment and of the systems that it runs between. -/
structure ForcesBetween (H : Hasher f) (x : Synth f α)
    (Q : System f → System f → Assignment f → α → Prop) : Prop where
  of_run : ∀ s a t, s.kind ≠ .witness → x s = .ok (a, t) →
    ∃ cs, s.Extends t cs ∧ ∀ w, Satisfies H w cs → Q s t w a

theorem Forces.between {S : System f → System f → α → Prop} (hx : Forces H x Q)
    (h : ∀ s a t, s.kind ≠ .witness → x s = .ok (a, t) → S s t a) :
    ForcesBetween H x fun s t w a => Q w a ∧ S s t a := by
  refine ⟨?_⟩
  intro s a t hs hrun
  obtain ⟨cs, he, hw⟩ := hx.of_run s a t hs hrun
  exact ⟨cs, he, fun w hcs => ⟨hw w hcs, h s a t hs hrun⟩⟩

theorem Forces.lift (hx : Forces H x Q) : ForcesBetween H x fun _ _ w a => Q w a :=
  ⟨hx.of_run⟩

theorem ForcesBetween.bind {S : System f → System f → Assignment f → α → Prop}
    {T : System f → System f → Assignment f → β → Prop} (hx : ForcesBetween H x S)
    (hg : ∀ a, ForcesBetween H (g a) fun s t w b =>
      ∀ r, r.auxes.toList <+: s.auxes.toList → s.auxes.toList <+: t.auxes.toList →
        S r s w a → T r t w b) :
    ForcesBetween H (x >>= g) T := by
  refine ⟨?_⟩
  intro r b t hr hrun
  obtain ⟨a, s, hfirst, hsecond⟩ := bind_eq_ok hrun
  obtain ⟨cs, he, hw⟩ := hx.of_run r a s hr hfirst
  obtain ⟨ds, he', hw'⟩ := (hg a).of_run s b t (he.kind ▸ hr) hsecond
  refine ⟨cs ++ ds, he.trans he', ?_⟩
  intro w hcs
  have first : Satisfies H w cs := fun c hc => hcs c (List.mem_append_left _ hc)
  have second : Satisfies H w ds := fun c hc => hcs c (List.mem_append_right _ hc)
  exact hw' w second r he.auxes he'.auxes (hw w first)

theorem ForcesBetween.mono {S T : System f → System f → Assignment f → α → Prop}
    (hx : ForcesBetween H x S) (h : ∀ s t w a, S s t w a → T s t w a) : ForcesBetween H x T := by
  refine ⟨?_⟩
  intro s a t hs hrun
  obtain ⟨cs, he, hw⟩ := hx.of_run s a t hs hrun
  exact ⟨cs, he, fun w hcs => h s t w a (hw w hcs)⟩

end Rules

theorem forces_enter (ns : Path) (l : Label) :
    Forces H (enter ns l) fun _ ns' => ns' = l :: ns := by
  refine ⟨?_⟩
  intro s a t _ hrun
  cases hrun
  exact ⟨[], extends_name _, fun _ _ => rfl⟩

theorem forces_alloc (path : Path) (value : Option α) (embed : α → Element f) :
    Forces H (alloc path value embed) fun _ _ => True := by
  refine ⟨?_⟩
  intro s a t _ hrun
  unfold alloc at hrun
  split at hrun
  · cases hrun
    exact ⟨[], extends_addVariable .., fun _ _ => trivial⟩
  · split at hrun
    · cases hrun
    · cases hrun
      exact ⟨[], extends_addVariable .., fun _ _ => trivial⟩

theorem forces_enforce (path : Path) (a b c : LinComb f) :
    Forces H (enforce path a b c) fun w _ => a.eval w * b.eval w = c.eval w := by
  refine ⟨?_⟩
  intro s _ t hs hrun
  cases hrun
  have named : s.Extends (s.name path) [] := extends_name path
  refine ⟨_, named.trans (extends_addConstraint (named.kind ▸ hs) _), ?_⟩
  intro w hw
  exact hw _ (List.mem_singleton_self _)

theorem forces_addHash (path : Path) (a : Arity) (inputs : List Nat) (output : Nat) :
    Forces H (addHash path a inputs output) fun w _ =>
      ∃ node, Node.ofRow? a.width (inputs.map w) = some node ∧ w output = H a node := by
  refine ⟨?_⟩
  intro s _ t hs hrun
  cases hrun
  have added := extends_addConstraint hs (.hash path a inputs output)
  refine ⟨_, ⟨added.kind, added.constraints, added.auxes⟩, ?_⟩
  intro w hw
  exact hw _ (List.mem_singleton_self _)

end PoseidonTrie.Circuit
