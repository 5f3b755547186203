import PoseidonTrie.Proofs.Circuit.Native
import PoseidonTrie.Proofs.Circuit.Shape

/-! The kinds of system against each other. What succeeds in a test system succeeds in a witness
with the same values and in a shape with the same constraints. So the values of the one satisfy the
constraints of the other exactly if the test system finds nothing broken. -/
namespace PoseidonTrie

open Circuit

variable {f : PrimeField} {a : Arity} {H : Hasher f} {n height : Nat}

namespace Circuit

variable {s t u v u' v' : System f} {α β γ : Type} {P : Prop} {root key value : Num f}

/-- A test system, and a witness and a shape that have kept up with it. -/
structure Trio (H : Hasher f) (s u v : System f) : Prop where
  test : s.kind = .test
  witness : u.kind = .witness
  shape : v.kind = .shape
  values : u.auxes = s.auxes
  paths : v.paths = s.paths
  internals : u.internals = s.internals ∧ v.internals = s.internals
  constraints : v.constraints = s.constraints
  /-- The values decide whether the constraints hold, and no hash block breaks them. -/
  decided : ∃ P, Decided H s s.constraints.toList P

namespace Trio

theorem empty : Trio H (.empty .test) (.empty .witness) (.empty .shape) :=
  ⟨rfl, rfl, rfl, rfl, rfl, ⟨rfl, rfl⟩, rfl, True, .nil⟩

theorem witness_follows (h : Trio H s u v) : s.Follows u := by
  refine ⟨fun _ => h.test.trans_ne (by decide), ?_, h.internals.1, fun _ => h.values,
    fun _ hu => absurd h.witness hu⟩
  rw [System.paths, System.paths, h.values]

theorem shape_follows (h : Trio H s u v) : s.Follows v :=
  ⟨fun hv => absurd h.shape hv, h.paths, h.internals.2, fun hv => absurd h.shape hv,
    fun _ _ => h.constraints⟩

/-- The test system is extended by constraints that its values decide, and the others follow it. -/
theorem extend {cs : List (Constraint f)} (h : Trio H s u v) (he : s.Extends t cs)
    (hd : Decided H t cs P) (hu : u'.kind = .witness) (hv : v'.kind = .shape) (htu : t.Follows u')
    (htv : t.Follows v') : Trio H t u' v' := by
  obtain ⟨P', before⟩ := h.decided
  have test : t.kind = .test := he.kind.trans h.test
  have values := htu.values (hu.trans_ne (by decide))
  have constraints := htv.constraints (test.trans_ne (by decide)) (hv.trans_ne (by decide))
  refine ⟨test, hu, hv, values, htv.paths, ⟨htu.internals, htv.internals⟩, constraints, P' ∧ P, ?_⟩
  rw [he.constraints]
  exact before.append he.auxes hd

theorem addVariable (h : Trio H s u v) (path : Path) (x : Element f) :
    Trio H (s.addVariable path (some x)) (u.addVariable path (some x))
      (v.addVariable path none) :=
  h.extend (extends_addVariable path (some x)) .nil ((u.kind_addVariable ..).trans h.witness)
    ((v.kind_addVariable ..).trans h.shape) (h.witness_follows.addVariable path fun _ => rfl)
    (h.shape_follows.addVariable path fun hv => absurd h.shape hv)

/-- The values of the witness satisfy the constraints of the shape exactly if the test system finds
nothing broken. -/
theorem satisfies_iff (h : Trio H s u v) :
    Satisfies H u.assignment v.constraints.toList ↔ s.unsatisfied? = none := by
  obtain ⟨P, decided⟩ := h.decided
  have same : u.assignment = s.assignment := by
    unfold System.assignment
    rw [h.values]
  rw [h.constraints, same, decided.iff _ (agrees_assignment s), System.unsatisfied?,
    Option.map_eq_none_iff, ← Array.find?_toList, decided.not_broken_iff]

end Trio

/-- Where synthesis succeeds in a test system, the values it computes decide whether the constraints
it adds hold, and its result has some property. -/
structure Decides (H : Hasher f) (s : System f) (x : Synth f α) (Q : System f → α → Prop) :
    Prop where
  of_run : s.kind = .test → ∀ a t, x s = .ok (a, t) →
    ∃ cs P, s.Extends t cs ∧ Decided H t cs P ∧ Q t a

section Rules

variable {x : Synth f α} {g : α → Synth f β} {Q Q' : System f → α → Prop} {R : System f → β → Prop}

theorem Computes.decides (hx : Computes H s x P Q) : Decides H s x Q := by
  refine ⟨fun hs a t hrun => ?_⟩
  obtain ⟨a', t', cs, hrun', he, hq, hd⟩ := hx.of_run hs
  obtain ⟨rfl, rfl⟩ := run_inj hrun hrun'
  exact ⟨cs, P, he, hd, hq⟩

theorem Decides.of_ok (h : s.kind = .test → ∀ r, x s = .ok r → Decides H s x Q) :
    Decides H s x Q :=
  ⟨fun hs a t hrun => (h hs _ hrun).of_run hs a t hrun⟩

theorem Decides.mono (hx : Decides H s x Q) (h : ∀ t a, Q t a → Q' t a) : Decides H s x Q' := by
  refine ⟨fun hs a t hrun => ?_⟩
  obtain ⟨cs, P, he, hd, hq⟩ := hx.of_run hs a t hrun
  exact ⟨cs, P, he, hd, h t a hq⟩

theorem Decides.bind (hx : Decides H s x Q)
    (hg : ∀ t a, s.Grows t → Q t a → Decides H t (g a) R) : Decides H s (x >>= g) R := by
  refine ⟨fun hs b u hrun => ?_⟩
  obtain ⟨a, t, hfirst, hsecond⟩ := bind_eq_ok hrun
  obtain ⟨cs, P, he, hd, hq⟩ := hx.of_run hs a t hfirst
  obtain ⟨ds, P', he', hd', hr⟩ := (hg t a he.auxes hq).of_run (he.kind.trans hs) b u hsecond
  exact ⟨cs ++ ds, P ∧ P', he.trans he', hd.append he'.auxes hd', hr⟩

theorem decides_pure {a : α} (h : Q s a) : Decides H s (pure a) Q :=
  (computes_pure h).decides

theorem decides_enter (ns : Path) (l : Label) :
    Decides H s (enter ns l) fun _ ns' => ns' = l :: ns :=
  (computes_enter ns l).decides

theorem Trio.run {x : Synth f α} {y : Synth f β} {z : Synth f γ} {R : α → β → Prop}
    {R' : α → γ → Prop} {r : α} (h : Trio H s u v) (hrun : x s = .ok (r, t))
    (hy : Mirrors .witness x y R) (hz : Mirrors .shape x z R') (hd : Decides H s x Q) :
    ∃ b u' c v', y u = .ok (b, u') ∧ z v = .ok (c, v') ∧ R r b ∧ R' r c ∧ Trio H t u' v' := by
  obtain ⟨a, t', b, u', hx, hy, -, hu', follows, hr⟩ :=
    hy.of_run s u h.witness_follows h.witness (.inr ⟨_, hrun⟩)
  obtain ⟨rfl, rfl⟩ := run_inj hrun hx
  obtain ⟨a, t', c, v', hx, hz, -, hv', follows', hr'⟩ :=
    hz.of_run s v h.shape_follows h.shape (.inr ⟨_, hrun⟩)
  obtain ⟨rfl, rfl⟩ := run_inj hrun hx
  obtain ⟨cs, P', he, decided, -⟩ := hd.of_run h.test r t hrun
  exact ⟨b, u', c, v', hy, hz, hr, hr', h.extend he decided hu' hv' follows follows'⟩

end Rules

section Gadgets

variable {ns : Path} {x y : Num f} {condition : Boolean} {bits : List Boolean} {xs : List (Num f)}

theorem Num.decides_alloc {v : Option (Element f)} :
    Decides H s (Num.alloc ns v) fun t x => x.Valued t := by
  apply Decides.of_ok
  intro hs r hr
  obtain ⟨⟨i, v'⟩, s', halloc, -⟩ := bind_eq_ok hr
  obtain ⟨x, rfl⟩ := exists_of_alloc_eq_ok (hs.trans_ne (by decide)) halloc
  exact (Num.computes_alloc ns x).decides.mono fun _ _ h => ⟨x, h⟩

theorem Bit.decides_alloc {v : Option Bool} :
    Decides H s (Bit.alloc ns v) fun t b => (Boolean.is b).Valued t := by
  apply Decides.of_ok
  intro hs r hr
  obtain ⟨⟨i, v'⟩, s', halloc, -⟩ := bind_eq_ok hr
  obtain ⟨x, rfl⟩ := exists_of_alloc_eq_ok (hs.trans_ne (by decide)) halloc
  exact (Bit.computes_alloc ns x).decides.mono fun _ _ h => ⟨x, h⟩

theorem hashNode_eq_ok {r : Num f × System f} (h : hashNode H ns a xs s = .ok r) :
    xs.length = a.width := by
  unfold hashNode at h
  split at h
  · assumption
  · cases h

theorem decides_select (hbits : ∀ b ∈ bits, b.Valued s) (hxs : ∀ x ∈ xs, x.Valued s) :
    Decides H s (select ns xs bits) fun t r => r.Valued t :=
  .of_ok fun _ _ hr => (computes_select ns hbits hxs (selectable_of_select hr)).decides

theorem exists_knownNode (hxs : ∀ x ∈ xs, x.Valued s) (hlen : xs.length = a.width) :
    ∃ node : Node f a.width, KnownNode s xs node := by
  have known : List.Forall₂ (Num.Known s) xs (xs.map (Num.eval s.assignment)) :=
    Num.known_of_map_eval hxs rfl
  refine ⟨⟨(xs.map (Num.eval s.assignment)).toArray, by simp [hlen]⟩, ?_⟩
  simpa [KnownNode, Vector.toList] using known

theorem decides_hashNode (hxs : ∀ x ∈ xs, x.Valued s) :
    Decides H s (hashNode H ns a xs) fun t r => r.Valued t := by
  apply Decides.of_ok
  intro _ r hr
  obtain ⟨node, hnode⟩ := exists_knownNode (a := a) hxs (hashNode_eq_ok hr)
  exact (computes_hashNode ns a hnode).decides.mono fun _ _ h => ⟨_, h⟩

end Gadgets

section Path

variable {ns : Path} {witness : Option (List (Node f n))}

theorem kind_numBits {x : Num f} {m : Nat} {bits : List Boolean} (hs : s.kind = .test)
    (h : numBits ns x m s = .ok (bits, t)) : t.kind = .test := by
  obtain ⟨cs, he, -⟩ := (forces_numBits (H := fun _ _ => 0) ns x m).of_run s bits t
    (hs.trans_ne (by decide)) h
  exact he.kind.trans hs

theorem exists_of_lookupLevels_eq_ok {witness : Option (List (Node f a.width))} {level : Nat}
    {next : Num f} {digit : List Boolean} {digits : List (List Boolean)}
    {r : (List (List (Num f)) × Num f) × System f} (hs : s.kind ≠ .shape)
    (h : lookupLevels H ns a witness level next (digit :: digits) s = .ok r) :
    ∃ nodes, witness = some nodes := by
  rw [lookupLevels] at h
  obtain ⟨children, s₁, hchildren, -⟩ := bind_eq_ok h
  have some : List.finRange a.width ≠ [] := by
    have := a.one_lt_width
    simpa [List.finRange_eq_nil_iff] using by omega
  obtain ⟨i, is, hcons⟩ := List.exists_cons_of_ne_nil some
  rw [allocNode, hcons, List.mapM_cons] at hchildren
  obtain ⟨first, s₂, hfirst, -⟩ := bind_eq_ok hchildren
  obtain ⟨ns', s₃, henter, hfirst⟩ := bind_eq_ok hfirst
  cases henter
  obtain ⟨⟨index, v⟩, s₄, halloc, -⟩ := bind_eq_ok hfirst
  obtain ⟨x, hx⟩ := exists_of_alloc_eq_ok (by rwa [kind_name]) halloc
  cases witness with
  | none => cases hx
  | some nodes => exact ⟨nodes, rfl⟩

theorem exists_of_lookupPath_eq_ok {r : AllocatedPath f × System f} (hs : s.kind = .test)
    (h : lookupPath H ns n root key height witness s = .ok r) : ∃ nodes, witness = some nodes := by
  obtain ⟨a, rfl, pos, le, fits⟩ := lookupPath_eq_ok h
  have inRange : ¬ (height = 0 ∨ fullHeight f a < height) := by omega
  rw [lookupPath, dif_pos a.supported] at h
  dsimp only at h
  rw [if_neg inRange, if_neg (fits_iff.mp fits)] at h
  obtain ⟨ns₁, s₁, henter, h⟩ := bind_eq_ok h
  cases henter
  obtain ⟨bits, s₂, hbits, h⟩ := bind_eq_ok h
  obtain ⟨out, s₃, hlevels, -⟩ := bind_eq_ok h
  have test : s₂.kind = .test := kind_numBits (by rwa [kind_name]) hbits
  obtain ⟨m, rfl⟩ : ∃ m, height = m + 1 := ⟨height - 1, by omega⟩
  rw [digitsOf, List.range_succ, List.reverse_concat, List.map_cons] at hlevels
  exact exists_of_lookupLevels_eq_ok (test.trans_ne (by decide)) hlevels

theorem decides_lookupPath (hroot : root.Valued s) (hkey : key.Valued s) :
    Decides H s (lookupPath H ns n root key height witness) fun _ _ => True := by
  apply Decides.of_ok
  intro hs r hr
  obtain ⟨a, rfl, pos, le, fits⟩ := lookupPath_eq_ok hr
  obtain ⟨nodes, rfl⟩ := exists_of_lookupPath_eq_ok hs hr
  obtain ⟨x, hroot⟩ := hroot
  obtain ⟨y, hkey⟩ := hkey
  exact (computes_lookupPath ns hroot hkey pos le (fits _ rfl)).decides.mono fun _ _ _ => trivial

theorem decides_insertPath (hroot : root.Valued s) (hkey : key.Valued s) (hvalue : value.Valued s) :
    Decides H s (insertPath H ns n root key value height witness) fun t r => r.Valued t := by
  apply Decides.of_ok
  intro hs r hr
  obtain ⟨out, hlookup⟩ := insertPath_eq_ok hr
  obtain ⟨a, rfl, pos, le, fits⟩ := lookupPath_eq_ok hlookup
  obtain ⟨nodes, rfl⟩ := exists_of_lookupPath_eq_ok (by rwa [kind_name]) hlookup
  obtain ⟨x, hroot⟩ := hroot
  obtain ⟨y, hkey⟩ := hkey
  obtain ⟨v, hvalue⟩ := hvalue
  exact (computes_insertPath ns hroot hkey hvalue pos le (fits _ rfl)).decides.mono
    fun _ _ h => ⟨_, h⟩

end Path

theorem decides_slot {ns : Path} {slot : Slot f n} (hroot : root.Valued s) :
    Decides H s (slot.synthesize H ns height root) fun t r => r.Valued t := by
  apply (decides_enter ..).bind
  intro t₁ ns₁ h₁ _
  apply Num.decides_alloc.bind
  intro t₂ key h₂ hkey
  apply (decides_enter ..).bind
  intro t₃ ns₃ h₃ _
  apply Num.decides_alloc.bind
  intro t₄ value h₄ hvalue
  apply (decides_enter ..).bind
  intro t₅ ns₅ h₅ _
  apply Bit.decides_alloc.bind
  intro t₆ active h₆ hactive
  apply (decides_enter ..).bind
  intro t₇ ns₇ h₇ _
  have late₄ := h₅.trans (h₆.trans h₇)
  have late₂ := h₃.trans (h₄.trans late₄)
  have root₇ := hroot.mono (h₁.trans (h₂.trans late₂))
  apply (decides_insertPath root₇ (hkey.mono late₂) (hvalue.mono late₄)).bind
  intro t₈ newRoot h₈ hnew
  apply (decides_enter ..).bind
  intro t₉ ns₉ h₉ _
  have end₇ := h₈.trans h₉
  exact (computes_pick_valued ns₉ (hactive.mono (h₇.trans end₇)) (hnew.mono h₉)
    (root₇.mono end₇)).decides

theorem decides_slotsFrom {ns : Path} (k : Nat) {slots : List (Slot f n)} (hroot : root.Valued s) :
    Decides H s (Slot.synthesizeFrom H ns height k slots root) fun t r => r.Valued t := by
  induction slots generalizing k root s with
  | nil => exact decides_pure hroot
  | cons slot slots ih =>
    apply (decides_enter ..).bind
    intro t ns' ht _
    apply (decides_slot (hroot.mono ht)).bind
    intro u next _ hnext
    exact ih (k + 1) hnext

theorem decides_step {ns : Path} {step : Step f n} (hroot : root.Valued s) :
    Decides H s (step.synthesize H ns [root]) fun t out => ∀ r ∈ out, r.Valued t := by
  apply (decides_slotsFrom 0 hroot).bind
  intro t out _ hout
  exact decides_pure (by simpa using hout)

end Circuit

end PoseidonTrie
