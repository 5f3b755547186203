import PoseidonTrie.Proofs.Circuit.Witness
import PoseidonTrie.Proofs.Fold.Batching
import PoseidonTrie.Proofs.Fold.Slots

/-! Dry runs of the steps that folds yield, of any number of tries and in any order. The slots of
such a step pass from its own first root to its last, so a run is accepted exactly if the roots of
its steps meet. Nothing needs the hash to be free of collisions. -/
namespace PoseidonTrie

open Circuit

variable {f : PrimeField} {a : Arity} {H : Hasher f} {height : Nat} {z z' last : Element f}
  {s t : System f}

namespace SlotReading

variable {r : SlotReading f a} {readings : List (SlotReading f a)}

/-- The slot with these values. -/
def slot (r : SlotReading f a) : Slot f a.width :=
  ⟨some r.key, some r.value, some r.nodes, some r.active⟩

/-- The root that the slot passes on. -/
def nextRoot (H : Hasher f) (root : Element f) (r : SlotReading f a) : Element f :=
  if r.active then r.newRoot H else root

/-- The slot has as many nodes as its key has digits. -/
structure Shaped (height : Nat) (r : SlotReading f a) : Prop where
  path_eq : r.path = a.digits height r.key.val
  length_eq : r.nodes.length = height

/-- What the circuits of slots hold under, one after another. -/
def HoldFrom (H : Hasher f) (height : Nat) (root : Element f) :
    (readings : List (SlotReading f a)) → Prop
  | [] => True
  | r :: readings =>
    (Leads H height root r.key r.nodes ∧ r.value ≠ 0) ∧
      HoldFrom H height (r.nextRoot H root) readings

theorem Passes.shaped (h : r.Passes H height z z') : r.Shaped height :=
  ⟨h.inserts.path_digits, h.inserts.length⟩

theorem Passes.leads (h : r.Passes H height z z') : Leads H height z r.key r.nodes := by
  have chained := h.inserts.chained
  rw [h.inserts.path_digits] at chained
  refine ⟨h.inserts.key_lt, ?_⟩
  rwa [chained.pathEnd_eq]

theorem PassesAll.shaped (h : PassesAll H height z last readings) :
    ∀ r ∈ readings, r.Shaped height := by
  induction readings generalizing z with
  | nil => simp
  | cons r readings ih =>
    obtain ⟨next, hr, h⟩ := h
    exact List.forall_mem_cons.mpr ⟨hr.shaped, ih h⟩

theorem PassesAll.holdFrom (h : PassesAll H height z last readings) :
    HoldFrom H height z readings ∧ readings.foldl (nextRoot H) z = last := by
  induction readings generalizing z with
  | nil => exact ⟨trivial, h.symm⟩
  | cons r readings ih =>
    obtain ⟨next, hr, h⟩ := h
    obtain rfl : next = r.nextRoot H z := hr.next_eq
    obtain ⟨holds, ends⟩ := ih h
    exact ⟨⟨⟨hr.leads, hr.inserts.nonzero⟩, holds⟩, ends⟩

end SlotReading

open SlotReading

/-- A slot with values passes on its root, and holds exactly if it has a path and a value. -/
theorem computes_slot (ns : Circuit.Path) {root : Num f} {r : SlotReading f a}
    (hroot : root.Known s z) (pos : 0 < height) (le : height ≤ fullHeight f a)
    (hr : r.Shaped height) :
    Computes H s (r.slot.synthesize H ns height root)
      (Leads H height z r.key r.nodes ∧ r.value ≠ 0) fun t next =>
        next.Known t (r.nextRoot H z) := by
  rw [slot, Slot.synthesize]
  apply Computes.next (computes_enter ..)
  intro t₁ ns₁ h₁ _
  apply Computes.next (Num.computes_alloc ..)
  intro t₂ key h₂ hkey
  apply Computes.next (computes_enter ..)
  intro t₃ ns₃ h₃ _
  apply Computes.next (Num.computes_alloc ..)
  intro t₄ value h₄ hvalue
  apply Computes.next (computes_enter ..)
  intro t₅ ns₅ h₅ _
  apply Computes.next (Bit.computes_alloc ..)
  intro t₆ active h₆ hactive
  apply Computes.next (computes_enter ..)
  intro t₇ ns₇ h₇ _
  have late₄ := h₅.trans (h₆.trans h₇)
  have late₂ := h₃.trans (h₄.trans late₄)
  have late₀ := h₁.trans (h₂.trans late₂)
  apply Computes.followed (computes_insertPath ns₇ (hroot.mono late₀) (hkey.mono late₂)
    (hvalue.mono late₄) pos le hr.length_eq)
  intro t₈ newRoot h₈ hnew
  apply Computes.next (computes_enter ..)
  intro t₉ ns₉ h₉ _
  have end₇ := h₈.trans h₉
  have condition : Boolean.Known t₉ (.is active) r.active :=
    Bit.Known.mono hactive (h₇.trans end₇)
  rw [← hr.path_eq] at hnew
  exact computes_pick ns₉ condition (hnew.mono h₉) (hroot.mono (late₀.trans end₇))

theorem computes_slotsFrom (ns : Circuit.Path) (k : Nat) {root : Num f}
    {readings : List (SlotReading f a)} (hroot : root.Known s z) (pos : 0 < height)
    (le : height ≤ fullHeight f a) (hr : ∀ r ∈ readings, r.Shaped height) :
    Computes H s (Slot.synthesizeFrom H ns height k (readings.map slot) root)
      (HoldFrom H height z readings) fun t out =>
        out.Known t (readings.foldl (nextRoot H) z) := by
  induction readings generalizing k root z s with
  | nil => exact computes_pure hroot
  | cons r readings ih =>
    obtain ⟨hr, hrest⟩ := List.forall_mem_cons.mp hr
    apply Computes.next (computes_enter ..)
    intro t ns' ht _
    apply Computes.bind (computes_slot ns' (hroot.mono ht) pos le hr)
    intro u next _ hnext
    exact ih (k + 1) hnext hrest

namespace Step

variable {step : Step f a.width} {steps : List (Step f a.width)} {P : Prop}

/-- The step's slots pass its old root to its new one. -/
structure Honest (H : Hasher f) (step : Step f a.width) (z z' : Element f) : Prop where
  oldRoot : step.oldRoot = some z
  newRoot : step.newRoot = some z'
  pos : 0 < step.height
  le : step.height ≤ fullHeight f a
  slots : ∃ r readings, step.slots = (r :: readings).map slot ∧
    PassesAll H step.height z z' (r :: readings)

theorem check_of_computes (i : Nat)
    (h : Computes H (.empty .test) (step.trial H z) P
      fun t out => ∃ x : Num f, out = [x] ∧ x.Known t last) :
    (P → step.check H i z = .ok last) ∧
      (¬ P → ∃ path, step.check H i z = .error (.unsatisfied i path)) := by
  obtain ⟨out, t, cs, hrun, he, ⟨x, rfl, hx⟩, hd⟩ := h.of_run rfl
  have listed : t.unsatisfied? = (cs.find? (·.isBroken t.assignment)).map (·.path) := by
    rw [System.unsatisfied?_eq (s := .empty .test) rfl, System.brokenSince, he.since_eq]
  rw [check]
  simp only [hrun, listed]
  constructor
  · intro holds
    rw [hd.not_broken_iff.mpr holds]
    simp [hx.value]
  · intro fails
    cases hfind : cs.find? (·.isBroken t.assignment) with
    | none => exact (fails (hd.not_broken_iff.mp hfind)).elim
    | some c => exact ⟨c.path, rfl⟩

theorem computes_trial {readings : List (SlotReading f a)}
    (hslots : step.slots = readings.map slot) (pos : 0 < step.height)
    (le : step.height ≤ fullHeight f a) (hr : ∀ r ∈ readings, r.Shaped step.height) :
    Computes H (.empty .test) (step.trial H z) (HoldFrom H step.height z readings) fun t out =>
      ∃ x : Num f, out = [x] ∧ x.Known t (readings.foldl (nextRoot H) z) := by
  apply Computes.next (computes_enter ..)
  intro t₁ ns₁ _ _
  apply Computes.next (Num.computes_alloc ..)
  intro t₂ root _ hroot
  rw [synthesize, hslots]
  apply Computes.followed (computes_slotsFrom [] 0 hroot pos le hr)
  intro t₃ out _ hout
  exact computes_pure ⟨out, rfl, hout⟩

namespace Honest

/-- From its old root a step leads to its new one. -/
theorem check_eq_ok (h : step.Honest H z z') (i : Nat) : step.check H i z = .ok z' := by
  obtain ⟨r, readings, hslots, hpasses⟩ := h.slots
  obtain ⟨holds, ends⟩ := hpasses.holdFrom
  have computes := computes_trial (H := H) (z := z) hslots h.pos h.le hpasses.shaped
  rw [ends] at computes
  exact (check_of_computes i computes).1 holds

/-- From any other root the first slot's path does not hold. -/
theorem check_eq_error {y : Element f} (h : step.Honest H z z') (hne : y ≠ z) (i : Nat) :
    ∃ path, step.check H i y = .error (.unsatisfied i path) := by
  obtain ⟨r, readings, hslots, hpasses⟩ := h.slots
  have computes := computes_trial (H := H) (z := y) hslots h.pos h.le hpasses.shaped
  apply (check_of_computes i computes).2
  rintro ⟨⟨leads, -⟩, -⟩
  obtain ⟨next, hr, -⟩ := hpasses
  exact hne (leads.root_eq hr.leads h.pos hr.inserts.length)

end Honest

/-- Steps whose roots meet are accepted. -/
theorem dryRunFrom_eq_ok (hs : ∀ s ∈ steps, ∃ z z', s.Honest H z z') (h : Chain z steps z')
    (k : Nat) : dryRunFrom H k steps z = .ok z' := by
  induction steps generalizing k z with
  | nil =>
    obtain rfl : z' = z := h
    rfl
  | cons step steps ih =>
    obtain ⟨hold, next, hnew, h⟩ := h
    obtain ⟨⟨y, y', honest⟩, hs⟩ := List.forall_mem_cons.mp hs
    obtain rfl : y = z := Option.some.inj (honest.oldRoot.symm.trans hold)
    obtain rfl : y' = next := Option.some.inj (honest.newRoot.symm.trans hnew)
    rw [dryRunFrom, honest.check_eq_ok k]
    exact ih hs h (k + 1)

/-- Other steps are refused at the first whose old root is not the one reached. -/
theorem dryRunFrom_eq_error (hs : ∀ s ∈ steps, ∃ z z', s.Honest H z z')
    (h : ¬ ∃ z', Chain z steps z') (k : Nat) :
    ∃ i s r path, steps[i]? = some s ∧ Chain z (steps.take i) r ∧ s.oldRoot ≠ some r ∧
      dryRunFrom H k steps z = .error (.unsatisfied (k + i) path) := by
  induction steps generalizing k z with
  | nil => exact (h ⟨z, rfl⟩).elim
  | cons step steps ih =>
    obtain ⟨⟨y, y', honest⟩, hs⟩ := List.forall_mem_cons.mp hs
    rw [dryRunFrom]
    -- Either the roots meet here and part further on, or this step is the one.
    by_cases hz : z = y
    · subst hz
      have rest : ¬ ∃ z', Chain y' steps z' := fun ⟨z', hz'⟩ =>
        h ⟨z', honest.oldRoot, y', honest.newRoot, hz'⟩
      obtain ⟨i, s, r, path, hi, hchain, hr, hrun⟩ := ih hs rest (k + 1)
      refine ⟨i + 1, s, r, path, hi, ⟨honest.oldRoot, y', honest.newRoot, hchain⟩, hr, ?_⟩
      have place : k + 1 + i = k + (i + 1) := by omega
      rw [place] at hrun
      rw [honest.check_eq_ok k]
      exact hrun
    · obtain ⟨path, hcheck⟩ := honest.check_eq_error hz k
      have off : step.oldRoot ≠ some z := by
        rw [honest.oldRoot]
        exact fun he => hz (Option.some.inj he).symm
      refine ⟨0, step, z, path, rfl, rfl, off, ?_⟩
      rw [hcheck]
      rfl

end Step

namespace View

variable {v after : View f a} {pairs : List (Element f × Element f)}
  {slots padded : List (Slot f a.width)} {steps : List (Step f a.width)} {size : Nat}

theorem Finds.passes {key value : Element f} {nodes : List (Node f a.width)}
    (h : v.Finds key nodes) (hc : v.caches.Correct H) (hv : value ≠ 0) (active : Bool) :
    ∃ r : SlotReading f a, r.slot = ⟨some key, some value, some nodes, some active⟩ ∧
      r.Passes H v.trie.height v.trie.root (if active then
        rebuiltRoot H value ((a.digits v.trie.height key.val).zip nodes) else v.trie.root) :=
  ⟨⟨key, value, active, a.digits v.trie.height key.val, nodes, _⟩, rfl,
    ⟨v.trie.height_pos, v.trie.height_le, path_of_lt h.key_lt, h.length_eq, h.chained hc, hv, rfl⟩,
    rfl⟩

theorem insertSlots_passes (hc : v.caches.Correct H)
    (h : v.insertSlots H pairs = (.ok slots, after)) :
    after.trie.height = v.trie.height ∧ after.caches.Correct H ∧
      ∃ readings : List (SlotReading f a), slots = readings.map slot ∧
        PassesAll H v.trie.height v.trie.root after.trie.root readings := by
  induction pairs generalizing v slots with
  | nil =>
    cases h
    exact ⟨rfl, hc, [], rfl, rfl⟩
  | cons pair pairs ih =>
    obtain ⟨r, v₁, rest, hprove, hrest, rfl⟩ := insertSlots_cons_eq_ok.mp h
    obtain ⟨hv, hfinds⟩ := proveInsert_eq_ok hprove
    obtain ⟨_, v₁', hprove', height, hc₁, hroot, _⟩ := hfinds.proveInsert hc hv
    obtain ⟨-, rfl⟩ := Prod.mk.inj (hprove.symm.trans hprove')
    obtain ⟨height', hc', readings, rfl, hpasses⟩ := ih hc₁ hrest
    obtain ⟨reading, hslot, hreading⟩ := hfinds.passes hc hv true
    refine ⟨height'.trans height, hc', reading :: readings, ?_, v₁.trie.root, ?_, ?_⟩
    · rw [List.map_cons, hslot]
      rfl
    · rw [hroot]
      exact hreading
    · rw [← height]
      exact hpasses

theorem padSlots_passes {readings : List (SlotReading f a)} (hc : v.caches.Correct H)
    (hpasses : PassesAll H v.trie.height z v.trie.root readings)
    (h : v.padSlots size (readings.map slot) = .ok padded) :
    size ≤ padded.length ∧ ∃ readings : List (SlotReading f a), padded = readings.map slot ∧
      PassesAll H v.trie.height z v.trie.root readings := by
  obtain ⟨hle, rfl⟩ | ⟨hlt, proof, hproof, rfl⟩ := padSlots_eq_ok.mp h
  · exact ⟨hle, readings, rfl, hpasses⟩
  · have one : (1 : Element f) ≠ 0 := one_ne_zero
    obtain ⟨r, hslot, hr⟩ := (proveLookup_eq_ok.mp hproof).passes hc one false
    have padding : ∀ n, PassesAll H v.trie.height v.trie.root v.trie.root (List.replicate n r) := by
      intro n
      induction n with
      | zero => rfl
      | succ n ih => exact ⟨v.trie.root, hr, ih⟩
    refine ⟨?_, readings ++ List.replicate (size - (readings.map slot).length) r, ?_,
      hpasses.append (padding _)⟩
    · rw [List.length_append, List.length_replicate]
      omega
    · rw [List.map_append, List.map_replicate, hslot]
      rfl

theorem packSteps_honest {groups : List (List (Element f × Element f))} (hc : v.caches.Correct H)
    (pos : 0 < size) (h : v.packSteps H size groups = (.ok steps, after)) :
    ∀ s ∈ steps, ∃ z z', s.Honest H z z' := by
  induction groups generalizing v steps with
  | nil =>
    cases h
    simp
  | cons pairs groups ih =>
    obtain ⟨slots, v₁, padded, rest, hslots, hpad, hrest, rfl⟩ := packSteps_cons_eq_ok.mp h
    obtain ⟨height, hc₁, readings, rfl, hpasses⟩ := insertSlots_passes hc hslots
    rw [← height] at hpasses
    obtain ⟨full, readings', hpadded, hpasses⟩ := padSlots_passes hc₁ hpasses hpad
    refine List.forall_mem_cons.mpr ⟨⟨v.trie.root, v₁.trie.root, rfl, rfl, v₁.trie.height_pos,
      v₁.trie.height_le, ?_⟩, ih hc₁ hrest⟩
    match readings' with
    | [] =>
      rw [hpadded] at full
      exact absurd full (Nat.not_le.mpr pos)
    | r :: readings' => exact ⟨r, readings', hpadded, hpasses⟩

theorem fold_honest {batch : Nat} (hc : v.caches.Correct H)
    (h : v.fold H pairs batch = (.ok steps, after)) : ∀ s ∈ steps, ∃ z z', s.Honest H z z' := by
  obtain ⟨m, hm⟩ := exists_size batch
  exact packSteps_honest hc (Nat.succ_pos m) ((fold_eq_ok hm).mp h).2

end View

namespace Step

/-- One of the steps that some fold yields, over caches that hold only correct entries. -/
def Produced (H : Hasher f) (s : Step f a.width) : Prop :=
  ∃ (v : View f a) (pairs : _) (batch : Nat) (steps : _) (after : View f a),
    v.caches.Correct H ∧ v.fold H pairs batch = (.ok steps, after) ∧ s ∈ steps

theorem Produced.honest {s : Step f a.width} (h : s.Produced H) : ∃ z z', s.Honest H z z' := by
  obtain ⟨v, pairs, batch, steps, after, hc, hfold, hs⟩ := h
  exact View.fold_honest hc hfold s hs

/-- A dry run of steps, however they were picked from folds, accepts exactly those whose roots meet,
and yields the last root. Otherwise it names the first step whose old root is not the one reached.
So the steps of one fold lead from its start to its end, and from no other root anywhere. -/
theorem dryRun_produced (H : Hasher f) (a : Arity) :
    (∀ steps : List (Step f a.width), (∀ s ∈ steps, s.Produced H) → ∀ z,
      (∀ z', Chain z steps z' → dryRun H steps z = .ok z') ∧
      ((¬ ∃ z', Chain z steps z') →
        ∃ i s r path, steps[i]? = some s ∧ Chain z (steps.take i) r ∧ s.oldRoot ≠ some r ∧
          dryRun H steps z = .error (.unsatisfied i path))) ∧
    ∀ (v : View f a) pairs batch steps after, v.caches.Correct H →
      v.fold H pairs batch = (.ok steps, after) →
        dryRun H steps v.trie.root = .ok after.trie.root ∧
        ∀ z, z ≠ v.trie.root → pairs ≠ [] →
          ∃ path, dryRun H steps z = .error (.unsatisfied 0 path) := by
  refine ⟨?_, ?_⟩
  · intro steps hs z
    have honest := fun s hmem => (hs s hmem).honest
    refine ⟨fun z' h => dryRunFrom_eq_ok honest h 0, fun h => ?_⟩
    obtain ⟨i, s, r, path, hi, hchain, hr, hrun⟩ := dryRunFrom_eq_error honest h 0
    rw [Nat.zero_add] at hrun
    exact ⟨i, s, r, path, hi, hchain, hr, hrun⟩
  · intro v pairs batch steps after hc hfold
    have honest := View.fold_honest hc hfold
    have packs := View.fold_packs hfold
    refine ⟨dryRunFrom_eq_ok honest packs.chain 0, ?_⟩
    intro z hz hpairs
    match steps, honest, packs with
    | [], _, packs => exact (hpairs (packs.eq_nil)).elim
    | step :: steps, honest, packs =>
      obtain ⟨⟨y, y', first⟩, -⟩ := List.forall_mem_cons.mp honest
      obtain rfl : y = v.trie.root := Option.some.inj (first.oldRoot.symm.trans packs.chain.1)
      obtain ⟨path, hcheck⟩ := first.check_eq_error hz 0
      refine ⟨path, ?_⟩
      change dryRunFrom H 0 (step :: steps) z = _
      rw [dryRunFrom, hcheck]
      rfl

/-- The steps of one insertion lead from zero to one, and are refused from one. -/
theorem dryRun_produced_oneLeaf :
    ∃ steps : List (Step .pallasBase Arity.binary.width), (∀ s ∈ steps, s.Produced weigh) ∧
      dryRun weigh steps 0 = .ok 1 ∧
        ∃ path, dryRun weigh steps 1 = .error (.unsatisfied 0 path) := by
  obtain ⟨steps, hfold⟩ := View.exists_fold_sapling
  have correct : (Caches.empty.registerAll weigh Forest.oneLeafNodes.tail).Correct weigh :=
    (Caches.grows_registerAll _).keepsCorrect Caches.faithful_empty.toCorrect
  have produced : ∀ s ∈ steps, s.Produced weigh :=
    fun s hs => ⟨_, _, _, steps, _, correct, hfold, hs⟩
  obtain ⟨picked, whole⟩ := dryRun_produced weigh .binary
  obtain ⟨accepted, -⟩ := picked steps produced 0
  obtain ⟨-, refused⟩ := whole _ _ _ _ _ correct hfold
  refine ⟨steps, produced, accepted 1 (View.fold_packs hfold).chain, ?_⟩
  exact refused 1 (by decide) (List.cons_ne_nil _ _)

end Step

end PoseidonTrie
