import PoseidonTrie.Proofs.Circuit.Computes

/-! One synthesis beside another. What a system records never depends on its values, so from a
system to one that follows it, the second synthesis takes the same names and records the same
constraints as the first. It may lack only what its kind leaves out. -/
namespace PoseidonTrie.Circuit

variable {f : PrimeField} {k : Kind} {α β γ δ : Type} {s t : System f}

namespace System

/-- The names of the variables, in order of allocation. -/
def paths (s : System f) : List Path :=
  s.auxes.toList.map (·.1)

/-- The second system has the same names, variables and constraints as the first, as far as both
their kinds record them, and the same values unless it is a shape. -/
structure Follows (s t : System f) : Prop where
  kind : t.kind ≠ .shape → s.kind ≠ .shape
  paths : t.paths = s.paths
  internals : t.internals = s.internals
  values : t.kind ≠ .shape → t.auxes = s.auxes
  constraints : s.kind ≠ .witness → t.kind ≠ .witness → t.constraints = s.constraints

theorem name_eq (s : System f) (path : Path) : ∃ names, s.name path = { s with names } := by
  unfold name
  split
  · exact ⟨s.names, rfl⟩
  · exact ⟨path :: s.names, rfl⟩

theorem addConstraint_eq (s : System f) (c : Constraint f) :
    ∃ constraints, s.addConstraint c = { s with constraints } := by
  unfold addConstraint
  split
  · exact ⟨s.constraints, rfl⟩
  · exact ⟨s.constraints.push c, rfl⟩

theorem kind_addConstraint (s : System f) (c : Constraint f) :
    (s.addConstraint c).kind = s.kind := by
  obtain ⟨cs, hs⟩ := s.addConstraint_eq c
  rw [hs]

theorem kind_addVariable (s : System f) (path : Path) (x : Option (Element f)) :
    (s.addVariable path x).kind = s.kind :=
  kind_name path

theorem constraints_addConstraint (hs : s.kind ≠ .witness) (c : Constraint f) :
    (s.addConstraint c).constraints = s.constraints.push c := by
  rw [addConstraint, if_neg hs]

namespace Follows

theorem refl (s : System f) : s.Follows s :=
  ⟨id, rfl, rfl, fun _ => rfl, fun _ _ => rfl⟩

theorem size_eq (h : s.Follows t) : t.auxes.size = s.auxes.size := by
  have count := congrArg List.length h.paths
  simpa [System.paths] using count

theorem name (h : s.Follows t) (path : Path) : (s.name path).Follows (t.name path) := by
  obtain ⟨names, hs⟩ := s.name_eq path
  obtain ⟨names', ht⟩ := t.name_eq path
  rw [hs, ht]
  exact ⟨h.kind, h.paths, h.internals, h.values, h.constraints⟩

theorem addVariable (h : s.Follows t) (path : Path) {x y : Option (Element f)}
    (hv : t.kind ≠ .shape → y = x) : (s.addVariable path x).Follows (t.addVariable path y) := by
  obtain ⟨names, hs⟩ := s.name_eq path
  obtain ⟨names', ht⟩ := t.name_eq path
  rw [System.addVariable, System.addVariable, hs, ht]
  refine ⟨h.kind, ?_, h.internals, fun hk => ?_, h.constraints⟩
  · have before : t.auxes.toList.map (·.1) = s.auxes.toList.map (·.1) := h.paths
    simp [System.paths, before]
  · change t.auxes.push _ = s.auxes.push _
    rw [h.values hk, hv hk]

theorem addConstraint (h : s.Follows t) (c : Constraint f) :
    (s.addConstraint c).Follows (t.addConstraint c) := by
  obtain ⟨cs, hs⟩ := s.addConstraint_eq c
  obtain ⟨cs', ht⟩ := t.addConstraint_eq c
  refine ⟨?_, ?_, ?_, ?_, ?_⟩
  · rw [hs, ht]
    exact h.kind
  · rw [hs, ht]
    exact h.paths
  · rw [hs, ht]
    exact h.internals
  · rw [hs, ht]
    exact h.values
  · intro hs' ht'
    have sRecords : s.kind ≠ .witness := by rwa [hs] at hs'
    have tRecords : t.kind ≠ .witness := by rwa [ht] at ht'
    rw [constraints_addConstraint sRecords, constraints_addConstraint tRecords,
      h.constraints sRecords tRecords]

end Follows

end System

/-- From a system to one of some kind that follows it, the second synthesis succeeds where the first
does, the systems still follow, and the results are related. Where the first is a shape too, both
succeed. -/
structure Mirrors (k : Kind) (x : Synth f α) (y : Synth f β) (R : α → β → Prop) : Prop where
  of_run : ∀ s t, s.Follows t → t.kind = k → (s.kind = .shape ∨ ∃ r, x s = .ok r) →
    ∃ a s' b t', x s = .ok (a, s') ∧ y t = .ok (b, t') ∧ s'.kind = s.kind ∧ t'.kind = k ∧
      s'.Follows t' ∧ R a b

section Rules

variable {x : Synth f α} {y : Synth f β} {R R' : α → β → Prop} {S : γ → δ → Prop}

theorem mirrors_pure {a : α} {b : β} (h : R a b) :
    Mirrors k (pure a : Synth f α) (pure b) R :=
  ⟨fun s t hst ht _ => ⟨a, s, b, t, rfl, rfl, rfl, ht, hst, h⟩⟩

theorem Mirrors.mono (hx : Mirrors k x y R) (h : ∀ a b, R a b → R' a b) : Mirrors k x y R' := by
  refine ⟨fun s t hst ht hok => ?_⟩
  obtain ⟨a, s', b, t', hx, hy, hs', ht', hst', hr⟩ := hx.of_run s t hst ht hok
  exact ⟨a, s', b, t', hx, hy, hs', ht', hst', h a b hr⟩

/-- One synthesis after another, on both sides. -/
theorem Mirrors.bind {g : α → Synth f γ} {g' : β → Synth f δ} (hx : Mirrors k x y R)
    (hg : ∀ a b, R a b → Mirrors k (g a) (g' b) S) : Mirrors k (x >>= g) (y >>= g') S := by
  refine ⟨fun s t hst ht hok => ?_⟩
  have first : s.kind = .shape ∨ ∃ r, x s = .ok r := by
    refine hok.imp_right ?_
    rintro ⟨⟨c, u⟩, hrun⟩
    obtain ⟨a, s', hx, -⟩ := bind_eq_ok hrun
    exact ⟨_, hx⟩
  obtain ⟨a, s', b, t', hx, hy, hs', ht', hst', hr⟩ := hx.of_run s t hst ht first
  have second : s'.kind = .shape ∨ ∃ r, g a s' = .ok r := by
    rcases hok with hs | ⟨⟨c, u⟩, hrun⟩
    · exact .inl (hs'.trans hs)
    · obtain ⟨a', s'', hx', hg'⟩ := bind_eq_ok hrun
      obtain ⟨rfl, rfl⟩ := run_inj hx' hx
      exact .inr ⟨_, hg'⟩
  obtain ⟨c, s'', d, t'', hc, hd, hs'', ht'', hst'', hcd⟩ :=
    (hg a b hr).of_run s' t' hst' ht' second
  exact ⟨c, s'', d, t'', bind_run hx hc, bind_run hy hd, hs''.trans hs', ht'', hst'', hcd⟩

theorem Mirrors.mapM {g : α → Synth f γ} {g' : β → Synth f δ} {xs : List α} {ys : List β}
    (h : List.Forall₂ (fun a b => Mirrors k (g a) (g' b) S) xs ys) :
    Mirrors k (xs.mapM g) (ys.mapM g') fun us vs =>
      List.Forall₂ S us vs ∧ us.length = xs.length := by
  induction h with
  | nil => exact mirrors_pure ⟨.nil, rfl⟩
  | cons hab _ ih =>
    rw [List.mapM_cons, List.mapM_cons]
    apply Mirrors.bind hab
    intro u v huv
    apply Mirrors.bind ih
    rintro us vs ⟨hus, hlen⟩
    exact mirrors_pure ⟨.cons huv hus, congrArg (· + 1) hlen⟩

theorem Mirrors.mapM_self {g : α → Synth f γ} {g' : α → Synth f δ} (xs : List α)
    (h : ∀ a ∈ xs, Mirrors k (g a) (g' a) S) :
    Mirrors k (xs.mapM g) (xs.mapM g') fun us vs => List.Forall₂ S us vs ∧ us.length = xs.length :=
  .mapM (List.forall₂_same.mpr h)

theorem forall₂_zipIdx {P : α → β → Prop} {xs : List α} {ys : List β} (h : List.Forall₂ P xs ys)
    (i : Nat) :
    List.Forall₂ (fun p q => P p.1 q.1 ∧ q.2 = p.2) (xs.zipIdx i) (ys.zipIdx i) := by
  induction h generalizing i with
  | nil => exact .nil
  | cons hab _ ih => exact .cons ⟨hab, rfl⟩ (ih (i + 1))

theorem forall₂_zip {P : α → β → Prop} {Q : γ → δ → Prop} {xs : List α} {ys : List β}
    {us : List γ} {vs : List δ} (h : List.Forall₂ P xs ys) (h' : List.Forall₂ Q us vs) :
    List.Forall₂ (fun p q => P p.1 q.1 ∧ Q p.2 q.2) (xs.zip us) (ys.zip vs) := by
  induction h generalizing us vs with
  | nil => exact .nil
  | cons hab _ ih =>
    cases h' with
    | nil => exact .nil
    | cons huv h' => exact .cons ⟨hab, huv⟩ (ih h')

theorem Mirrors.enter {g : Path → Synth f α} {g' : Path → Synth f β} {ns : Path} {l : Label}
    (h : Mirrors k (g (l :: ns)) (g' (l :: ns)) R) :
    Mirrors k (enter ns l >>= g) (enter ns l >>= g') R := by
  refine Mirrors.bind (R := fun a b => a = l :: ns ∧ b = l :: ns) ⟨fun s t hst ht _ => ?_⟩ ?_
  · exact ⟨_, _, _, _, rfl, rfl, kind_name _, (kind_name _).trans ht, hst.name _, rfl, rfl⟩
  · rintro _ _ ⟨rfl, rfl⟩
    exact h

section Alloc

variable {path : Path} {v v' : Option α} {embed : α → Element f}

theorem alloc_of_shape (hs : s.kind = .shape) :
    alloc path v embed s = .ok ((s.auxes.size, none), s.addVariable path none) := by
  unfold alloc
  rw [if_pos hs]

theorem alloc_some (hs : s.kind ≠ .shape) (x : α) :
    alloc path (some x) embed s =
      .ok ((s.auxes.size, some x), s.addVariable path (some (embed x))) := by
  rw [alloc, if_neg hs]

theorem exists_of_alloc_eq_ok {r : (Nat × Option α) × System f} (hs : s.kind ≠ .shape)
    (h : alloc path v embed s = .ok r) : ∃ x, v = some x := by
  cases v with
  | none =>
    rw [alloc, if_neg hs] at h
    cases h
  | some x => exact ⟨x, rfl⟩

/-- Where allocation succeeds, it adds a variable and, outside shapes, its value. -/
theorem exists_alloc_eq_ok (hok : s.kind = .shape ∨ ∃ r, alloc path v embed s = .ok r) :
    ∃ x y, alloc path v embed s = .ok ((s.auxes.size, x), s.addVariable path y) ∧
      (s.kind ≠ .shape → x = v ∧ y = v.map embed) := by
  by_cases hs : s.kind = .shape
  · exact ⟨none, none, alloc_of_shape hs, fun h => absurd hs h⟩
  · obtain ⟨r, hr⟩ := hok.resolve_left hs
    obtain ⟨x, rfl⟩ := exists_of_alloc_eq_ok hs hr
    exact ⟨some x, some (embed x), alloc_some hs x, fun _ => ⟨rfl, rfl⟩⟩

theorem mirrors_alloc (h : k ≠ .shape → v' = v) :
    Mirrors k (alloc path v embed) (alloc path v' embed) fun r r' =>
      r'.1 = r.1 ∧ (k ≠ .shape → r'.2 = r.2) := by
  refine ⟨fun s t hst ht hok => ?_⟩
  have valued (hk : k ≠ .shape) : t.kind ≠ .shape ∧ s.kind ≠ .shape :=
    ⟨ht.trans_ne hk, hst.kind (ht.trans_ne hk)⟩
  -- Outside shapes both sides have the same value, so neither can miss it alone.
  have second : t.kind = .shape ∨ ∃ r, alloc path v' embed t = .ok r := by
    by_cases hk : k = .shape
    · exact .inl (ht.trans hk)
    · obtain ⟨tValued, sValued⟩ := valued hk
      obtain ⟨r, hr⟩ := hok.resolve_left sValued
      obtain ⟨x, rfl⟩ := exists_of_alloc_eq_ok sValued hr
      rw [h hk]
      exact .inr ⟨_, alloc_some tValued x⟩
  obtain ⟨x, y, hx, xValue⟩ := exists_alloc_eq_ok hok
  obtain ⟨x', y', hx', xValue'⟩ := exists_alloc_eq_ok second
  have same (hk : k ≠ .shape) : x' = x ∧ y' = y := by
    obtain ⟨tValued, sValued⟩ := valued hk
    obtain ⟨rfl, rfl⟩ := xValue sValued
    obtain ⟨rfl, rfl⟩ := xValue' tValued
    rw [h hk]
    exact ⟨rfl, rfl⟩
  refine ⟨_, _, _, _, hx, hx', s.kind_addVariable .., (t.kind_addVariable ..).trans ht, ?_,
    hst.size_eq, fun hk => (same hk).1⟩
  exact hst.addVariable path fun hk => (same (ht.symm.trans_ne hk)).2

end Alloc

theorem mirrors_enforce (path : Path) (a b c : LinComb f) :
    Mirrors k (enforce path a b c) (enforce path a b c) fun _ _ => True := by
  refine ⟨fun s t hst ht _ => ?_⟩
  have kept (u : System f) : ((u.name path).addConstraint (.product path a b c)).kind = u.kind :=
    (System.kind_addConstraint ..).trans (kind_name path)
  exact ⟨_, _, _, _, rfl, rfl, kept s, (kept t).trans ht, (hst.name path).addConstraint _, trivial⟩

theorem mirrors_enforced {a : α} {b : β} (path : Path) (l m n : LinComb f) (h : R a b) :
    Mirrors k (do enforce path l m n; return a) (do enforce path l m n; return b) R := by
  apply Mirrors.bind (mirrors_enforce ..)
  intro _ _ _
  exact mirrors_pure h

theorem mirrors_addHash (path : Path) (a : Arity) (inputs : List Nat) (output : Nat) :
    Mirrors k (addHash path a inputs output : Synth f Unit) (addHash path a inputs output)
      fun _ _ => True := by
  refine ⟨fun s t hst ht _ => ?_⟩
  have added := hst.addConstraint (.hash path a inputs output)
  refine ⟨_, _, _, _, rfl, rfl, s.kind_addConstraint _, (t.kind_addConstraint _).trans ht, ?_,
    trivial⟩
  refine ⟨added.kind, added.paths, ?_, added.values, added.constraints⟩
  exact congrArg (· + hashInternals a) hst.internals

end Rules

end PoseidonTrie.Circuit
