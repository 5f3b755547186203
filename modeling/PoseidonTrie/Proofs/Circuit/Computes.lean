import PoseidonTrie.Circuit.Check
import PoseidonTrie.Proofs.Circuit.Forces

/-! What synthesis computes once every value is there. In a test system it succeeds, what it yields
is known, and whether the constraints it adds hold is decided by the values alone. -/
namespace PoseidonTrie.Circuit

variable {f : PrimeField} {H : Hasher f} {w : Assignment f} {α β : Type}
  {s t u : System f} {cs ds : List (Constraint f)} {P P' : Prop}

/-- The second system has the variables of the first, and perhaps more. -/
def System.Grows (s t : System f) : Prop :=
  s.auxes.toList <+: t.auxes.toList

theorem System.Grows.refl : s.Grows s :=
  List.prefix_rfl

theorem System.Grows.trans (h : s.Grows t) (h' : t.Grows u) : s.Grows u :=
  List.IsPrefix.trans h h'

/-- A variable was allocated with a value. -/
def System.Assigned (s : System f) (i : Nat) (x : Element f) : Prop :=
  ∃ path, s.auxes[i]? = some (path, some x)

theorem System.Assigned.mono {i : Nat} {x : Element f} (h : s.Assigned i x) (hg : s.Grows t) :
    t.Assigned i x := by
  obtain ⟨path, hpath⟩ := h
  obtain ⟨rest, hrest⟩ := hg
  refine ⟨path, ?_⟩
  rw [← Array.getElem?_toList] at hpath ⊢
  rw [← hrest, List.getElem?_append_left (List.getElem?_eq_some_iff.mp hpath).1, hpath]

/-- The assignment gives every variable the value it was allocated with. -/
def Agrees (w : Assignment f) (t : System f) : Prop :=
  ∀ i x, t.Assigned i x → w i = x

theorem Agrees.mono (h : Agrees w t) (hg : s.Grows t) : Agrees w s :=
  fun i x hx => h i x (hx.mono hg)

theorem agrees_assignment (t : System f) : Agrees t.assignment t := by
  rintro i x ⟨path, hpath⟩
  simp [System.assignment, hpath]

/-- With the values of a system, constraints hold exactly under a condition. No hash block is ever
what breaks them. -/
structure Decided (H : Hasher f) (t : System f) (cs : List (Constraint f)) (P : Prop) : Prop where
  iff : ∀ w, Agrees w t → (Satisfies H w cs ↔ P)
  blocks : ∀ w, Agrees w t → ∀ c ∈ cs, c.isBroken w = false → c.Holds H w

namespace Decided

theorem nil : Decided H t [] True := by
  refine ⟨fun w _ => ?_, fun w _ c hc => ?_⟩
  · simp [Satisfies]
  · cases hc

theorem append (h : Decided H t cs P) (hg : t.Grows u) (h' : Decided H u ds P') :
    Decided H u (cs ++ ds) (P ∧ P') := by
  refine ⟨fun w hw => ?_, fun w hw c hc => ?_⟩
  · rw [← h.iff w (hw.mono hg), ← h'.iff w hw]
    exact List.forall_mem_append
  · rcases List.mem_append.mp hc with hc | hc
    · exact h.blocks w (hw.mono hg) c hc
    · exact h'.blocks w hw c hc

theorem product {path : Path} {a b c : LinComb f}
    (h : ∀ w, Agrees w t → (a.eval w * b.eval w = c.eval w ↔ P)) :
    Decided H t [.product path a b c] P := by
  refine ⟨fun w hw => ?_, fun w _ d hd hbroken => ?_⟩
  · rw [← h w hw]
    exact List.forall_mem_singleton
  · obtain rfl := List.mem_singleton.mp hd
    simpa [Constraint.isBroken, Constraint.Holds] using hbroken

theorem hash {path : Path} {a : Arity} {inputs : List Nat} {output : Nat}
    (h : ∀ w, Agrees w t → (Constraint.hash path a inputs output).Holds H w) :
    Decided H t [.hash path a inputs output] True := by
  refine ⟨fun w hw => ?_, fun w hw d hd _ => ?_⟩
  · exact iff_true_intro (List.forall_mem_singleton.mpr (h w hw))
  · obtain rfl := List.mem_singleton.mp hd
    exact h w hw

theorem not_broken_iff (h : Decided H t cs P) :
    cs.find? (·.isBroken t.assignment) = none ↔ P := by
  have agrees := agrees_assignment t
  rw [← h.iff _ agrees, List.find?_eq_none]
  constructor
  · intro hnone c hc
    exact h.blocks _ agrees c hc (by simpa using hnone c hc)
  · intro hall c hc
    have holds := hall c hc
    cases c with
    | product path a b c => simpa [Constraint.isBroken, Constraint.Holds] using holds
    | hash path a inputs output => simp [Constraint.isBroken]

end Decided

/-- The first constraint beyond those of an earlier system that the computed values break. -/
def System.brokenSince (s t : System f) : Option Path :=
  ((s.since t).find? (·.isBroken t.assignment)).map (·.path)

theorem System.unsatisfied?_eq (h : s.constraints = #[]) : t.unsatisfied? = s.brokenSince t := by
  simp [System.unsatisfied?, System.brokenSince, System.since, h]

/-- From a test system, synthesis succeeds with a result of some property, and the constraints it
adds hold with the computed values exactly under a condition. -/
structure Computes (H : Hasher f) (s : System f) (x : Synth f α) (P : Prop)
    (Q : System f → α → Prop) : Prop where
  of_run : s.kind = .test → ∃ a t cs, x s = .ok (a, t) ∧ s.Extends t cs ∧ Q t a ∧ Decided H t cs P

section Rules

variable {x : Synth f α} {g : α → Synth f β} {Q Q' : System f → α → Prop}
  {R : System f → β → Prop}

theorem bind_run {a : α} {b : β} (hx : x s = .ok (a, t)) (hg : g a t = .ok (b, u)) :
    (x >>= g) s = .ok (b, u) :=
  (bind_eq_of_ok hx).trans hg

theorem run_inj {a a' : α} (h : x s = .ok (a, t)) (h' : x s = .ok (a', u)) : a = a' ∧ t = u :=
  Prod.mk.inj (Except.ok.inj (h.symm.trans h'))

theorem computes_pure {a : α} (h : Q s a) : Computes H s (pure a) True Q :=
  ⟨fun _ => ⟨a, s, [], rfl, .refl, h, .nil⟩⟩

theorem Computes.mono (hx : Computes H s x P Q) (h : ∀ t a, s.Grows t → Q t a → Q' t a) :
    Computes H s x P Q' := by
  refine ⟨fun hs => ?_⟩
  obtain ⟨a, t, cs, hrun, he, hq, hd⟩ := hx.of_run hs
  exact ⟨a, t, cs, hrun, he, h t a he.auxes hq, hd⟩

theorem Computes.congr (hx : Computes H s x P Q) (h : P ↔ P') : Computes H s x P' Q :=
  propext h ▸ hx

/-- One synthesis after another, each with its own condition. -/
theorem Computes.bind (hx : Computes H s x P Q)
    (hg : ∀ t a, s.Grows t → Q t a → Computes H t (g a) P' R) :
    Computes H s (x >>= g) (P ∧ P') R := by
  refine ⟨fun hs => ?_⟩
  obtain ⟨a, t, cs, hrun, he, hq, hd⟩ := hx.of_run hs
  obtain ⟨b, u, ds, hrun', he', hr, hd'⟩ := (hg t a he.auxes hq).of_run (he.kind.trans hs)
  exact ⟨b, u, cs ++ ds, bind_run hrun hrun', he.trans he', hr, hd.append he'.auxes hd'⟩

/-- The same when the first adds nothing that can be broken. -/
theorem Computes.next (hx : Computes H s x True Q)
    (hg : ∀ t a, s.Grows t → Q t a → Computes H t (g a) P' R) :
    Computes H s (x >>= g) P' R :=
  (hx.bind hg).congr (iff_of_eq (true_and P'))

theorem Computes.followed (hx : Computes H s x P Q)
    (hg : ∀ t a, s.Grows t → Q t a → Computes H t (g a) True R) :
    Computes H s (x >>= g) P R :=
  (hx.bind hg).congr (iff_of_eq (and_true P))

/-- A synthesis for each element of a list, none of which adds anything that can be broken. -/
theorem Computes.mapM {S : System f → α → β → Prop} (xs : List α)
    (grow : ∀ t u a b, t.Grows u → S t a b → S u a b)
    (hg : ∀ a ∈ xs, ∀ t, s.Grows t → Computes H t (g a) True fun u b => S u a b) :
    Computes H s (xs.mapM g) True fun t ys => List.Forall₂ (S t) xs ys := by
  induction xs generalizing s with
  | nil => exact computes_pure .nil
  | cons a xs ih =>
    rw [List.mapM_cons]
    apply Computes.next (hg a (List.mem_cons_self ..) s .refl)
    intro t b ht hb
    apply Computes.next (ih fun a' h u hu => hg a' (List.mem_cons_of_mem _ h) u (ht.trans hu))
    intro u ys hu hys
    exact computes_pure (.cons (grow t u a b hu hb) hys)

theorem Computes.mapM_forall {S : System f → β → Prop} (xs : List α)
    (grow : ∀ t u b, t.Grows u → S t b → S u b)
    (hg : ∀ a ∈ xs, ∀ t, s.Grows t → Computes H t (g a) True S) :
    Computes H s (xs.mapM g) True fun t ys => (∀ y ∈ ys, S t y) ∧ ys.length = xs.length := by
  apply (Computes.mapM (S := fun t _ b => S t b) xs (fun t u _ => grow t u) hg).mono
  intro t ys _ hys
  refine ⟨?_, hys.length_eq.symm⟩
  induction hys with
  | nil => simp
  | cons hb _ ih =>
    exact List.forall_mem_cons.mpr ⟨hb, ih fun a h => hg a (List.mem_cons_of_mem _ h)⟩

theorem Computes.forced {F : Assignment f → α → Prop} (hx : Computes H s x True Q)
    (hf : Forces H x F) :
    Computes H s x True fun t a => Q t a ∧ ∀ w, Agrees w t → F w a := by
  refine ⟨fun hs => ?_⟩
  obtain ⟨a, t, cs, hrun, he, hq, hd⟩ := hx.of_run hs
  obtain ⟨ds, he', hforced⟩ := hf.of_run s a t (by rw [hs]; decide) hrun
  obtain rfl : cs = ds := he.since_eq.symm.trans he'.since_eq
  exact ⟨a, t, cs, hrun, he, ⟨hq, fun w hw => hforced w ((hd.iff w hw).mpr trivial)⟩, hd⟩

end Rules

theorem Computes.run {x : Synth f α} {Q : System f → α → Prop} (hx : Computes H s x P Q)
    (hs : s.kind = .test) :
    ∃ a t, x s = .ok (a, t) ∧ Q t a ∧ (Satisfies H t.assignment (s.since t) ↔ P) := by
  obtain ⟨a, t, cs, hrun, he, hq, hd⟩ := hx.of_run hs
  exact ⟨a, t, hrun, hq, he.since_eq ▸ hd.iff _ (agrees_assignment t)⟩

/-- The first constraint that the assignment does not satisfy has a name. -/
def FirstBroken (H : Hasher f) (w : Assignment f) (cs : List (Constraint f)) (path : Path) : Prop :=
  ∃ before c after, cs = before ++ c :: after ∧ Satisfies H w before ∧ ¬ c.Holds H w ∧ c.path = path

theorem FirstBroken.after {path : Path} (h : FirstBroken H w ds path) (hcs : Satisfies H w cs) :
    FirstBroken H w (cs ++ ds) path := by
  obtain ⟨before, c, rest, rfl, hbefore, hc, hpath⟩ := h
  exact ⟨cs ++ before, c, rest, (List.append_assoc ..).symm,
    List.forall_mem_append.mpr ⟨hcs, hbefore⟩, hc, hpath⟩

theorem FirstBroken.before {path : Path} (h : FirstBroken H w cs path)
    (ds : List (Constraint f)) : FirstBroken H w (cs ++ ds) path := by
  obtain ⟨before, c, rest, rfl, hbefore, hc, hpath⟩ := h
  exact ⟨before, c, rest ++ ds, List.append_assoc .., hbefore, hc, hpath⟩

/-- From a test system, synthesis succeeds, but breaks a constraint of some name first. -/
structure Breaks (H : Hasher f) (s : System f) (x : Synth f α) (path : Path) : Prop where
  of_run : s.kind = .test → ∃ a t cs, x s = .ok (a, t) ∧ s.Extends t cs ∧
    ∀ w, Agrees w t → FirstBroken H w cs path

theorem Breaks.run {x : Synth f α} {path : Path} (hx : Breaks H s x path) (hs : s.kind = .test) :
    ∃ a t, x s = .ok (a, t) ∧ FirstBroken H t.assignment (s.since t) path := by
  obtain ⟨a, t, cs, hrun, he, hbroken⟩ := hx.of_run hs
  exact ⟨a, t, hrun, he.since_eq ▸ hbroken _ (agrees_assignment t)⟩

section Breaking

variable {x : Synth f α} {g : α → Synth f β} {Q : System f → α → Prop}
  {R : System f → β → Prop} {path : Path}

/-- Where nothing is broken at first, the rest tells what is. -/
theorem Computes.breaks (hx : Computes H s x True Q)
    (hg : ∀ t a, s.Grows t → Q t a → Breaks H t (g a) path) : Breaks H s (x >>= g) path := by
  refine ⟨fun hs => ?_⟩
  obtain ⟨a, t, cs, hrun, he, hq, hd⟩ := hx.of_run hs
  obtain ⟨b, u, ds, hrun', he', hbroken⟩ := (hg t a he.auxes hq).of_run (he.kind.trans hs)
  refine ⟨b, u, cs ++ ds, bind_run hrun hrun', he.trans he', ?_⟩
  intro w hw
  exact (hbroken w hw).after ((hd.iff w (hw.mono he'.auxes)).mpr trivial)

theorem Breaks.bind (hx : Breaks H s x path)
    (hg : ∀ t a, s.Grows t → Computes H t (g a) P R) : Breaks H s (x >>= g) path := by
  refine ⟨fun hs => ?_⟩
  obtain ⟨a, t, cs, hrun, he, hbroken⟩ := hx.of_run hs
  obtain ⟨b, u, ds, hrun', he', _, _⟩ := (hg t a he.auxes).of_run (he.kind.trans hs)
  refine ⟨b, u, cs ++ ds, bind_run hrun hrun', he.trans he', ?_⟩
  intro w hw
  exact (hbroken w (hw.mono he'.auxes)).before ds

end Breaking

theorem kind_name (path : Path) : (s.name path).kind = s.kind := by
  unfold System.name
  split <;> rfl

theorem computes_enter (ns : Path) (l : Label) :
    Computes H s (enter ns l) True fun _ ns' => ns' = l :: ns :=
  ⟨fun _ => ⟨_, _, [], rfl, extends_name _, rfl, .nil⟩⟩

theorem computes_alloc (path : Path) (x : α) (embed : α → Element f) :
    Computes H s (alloc path (some x) embed) True fun t r =>
      r.2 = some x ∧ t.Assigned r.1 (embed x) := by
  refine ⟨fun hs => ?_⟩
  have valued : s.kind ≠ .shape := by rw [hs]; decide
  refine ⟨(s.auxes.size, some x), s.addVariable path (some (embed x)), [], ?_,
    extends_addVariable .., ⟨rfl, path, ?_⟩, .nil⟩
  · rw [alloc, if_neg valued]
  · simp [System.addVariable]

theorem computes_enforce (path : Path) (a b c : LinComb f)
    (h : ∀ w, Agrees w s → (a.eval w * b.eval w = c.eval w ↔ P)) :
    Computes H s (enforce path a b c) P fun _ _ => True := by
  refine ⟨fun hs => ?_⟩
  have recording : (s.name path).kind ≠ .witness := by rw [kind_name, hs]; decide
  have added := (extends_name path).trans
    (extends_addConstraint recording (.product path a b c))
  exact ⟨(), _, _, rfl, added, trivial, .product fun w hw => h w (hw.mono added.auxes)⟩

/-- A constraint that holds does nothing to the result after it. -/
theorem computes_enforced {Q : System f → α → Prop} {r : α} (path : Path) (a b c : LinComb f)
    (h : ∀ w, Agrees w s → a.eval w * b.eval w = c.eval w) (hr : ∀ t, s.Grows t → Q t r) :
    Computes H s (do enforce path a b c; return r) True Q := by
  apply Computes.next (computes_enforce path a b c fun w hw => iff_true_intro (h w hw))
  intro t _ ht _
  exact computes_pure (hr t ht)

theorem breaks_enforce (path : Path) (a b c : LinComb f)
    (h : ∀ w, Agrees w s → a.eval w * b.eval w ≠ c.eval w) :
    Breaks H s (enforce path a b c) path := by
  refine ⟨fun hs => ?_⟩
  have recording : (s.name path).kind ≠ .witness := by rw [kind_name, hs]; decide
  have added := (extends_name path).trans
    (extends_addConstraint recording (.product path a b c))
  refine ⟨(), _, _, rfl, added, fun w hw => ⟨[], _, [], rfl, ?_, h w (hw.mono added.auxes), rfl⟩⟩
  intro c hc
  cases hc

theorem computes_addHash (path : Path) (a : Arity) (inputs : List Nat) (output : Nat)
    (h : ∀ w, Agrees w s → (Constraint.hash path a inputs output).Holds H w) :
    Computes H s (addHash path a inputs output) True fun _ _ => True := by
  refine ⟨fun hs => ?_⟩
  have recording : s.kind ≠ .witness := by rw [hs]; decide
  have added := extends_addConstraint recording (.hash path a inputs output)
  refine ⟨(), _, _, rfl, ⟨added.kind, added.constraints, added.auxes⟩, trivial, .hash ?_⟩
  exact fun w hw => h w (hw.mono added.auxes)

end PoseidonTrie.Circuit
