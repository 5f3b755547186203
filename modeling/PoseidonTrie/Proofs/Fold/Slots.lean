import PoseidonTrie.Fold.Step
import PoseidonTrie.Proofs.Circuit.Insertion

/-! What the circuit of a folding step forces of its slots: each one, active or not, holds a path
under the running root, and the root runs on past the active ones alone. -/
namespace PoseidonTrie

open Circuit

variable {f : PrimeField} {a : Arity} {H : Hasher f} {height : Nat} {w : Assignment f}
  {s t u s' : System f} {ns : Circuit.Path}

/-- What the variables of one slot are assigned. -/
structure SlotReading (f : PrimeField) (a : Arity) where
  key : Element f
  value : Element f
  active : Bool
  path : List (Fin a.width)
  nodes : List (Node f a.width)
  leaf : Element f

namespace SlotReading

/-- The root once the slot's value is put at the end of its path. -/
def newRoot (H : Hasher f) (r : SlotReading f a) : Element f :=
  rebuiltRoot H r.value (r.path.zip r.nodes)

/-- The slot holds an insertion under a root, and passes on the next root if it is active. -/
structure Passes (H : Hasher f) (height : Nat) (root next : Element f) (r : SlotReading f a) :
    Prop where
  inserts : InsertsAlong H height root r.key r.value (r.newRoot H) r.leaf r.path r.nodes
  next_eq : next = if r.active then r.newRoot H else root

/-- The variables allocated between two systems under the slot's names have its values. -/
structure AssignedBy (w : Assignment f) (s t : System f) (ns : Circuit.Path)
    (r : SlotReading f a) : Prop where
  key : ∃ j, Allocated s t j (.num :: .key :: ns) ∧ w j = r.key
  value : ∃ j, Allocated s t j (.num :: .value :: ns) ∧ w j = r.value
  active : ∃ j, Allocated s t j (.boolean :: .active :: ns) ∧ w j = ofBool f r.active
  nodes : AssignsPath w s t (.oldPath :: .insert :: ns) r.nodes

theorem AssignedBy.mono {r : SlotReading f a} (h : r.AssignedBy w s t ns)
    (hs : s'.auxes.toList <+: s.auxes.toList) (ht : t.auxes.toList <+: u.auxes.toList) :
    r.AssignedBy w s' u ns := by
  obtain ⟨key, hkey, hk⟩ := h.key
  obtain ⟨value, hvalue, hv⟩ := h.value
  obtain ⟨active, hactive, ha⟩ := h.active
  exact ⟨⟨key, hkey.mono hs ht, hk⟩, ⟨value, hvalue.mono hs ht, hv⟩,
    ⟨active, hactive.mono hs ht, ha⟩, h.nodes.mono hs ht⟩

/-- Slots one after another, from one root to another. -/
def PassesAll (H : Hasher f) (height : Nat) (root last : Element f) :
    (readings : List (SlotReading f a)) → Prop
  | [] => last = root
  | r :: readings => ∃ next, r.Passes H height root next ∧ PassesAll H height next last readings

theorem PassesAll.append {root middle last : Element f} {rs rs' : List (SlotReading f a)}
    (h : PassesAll H height root middle rs) (h' : PassesAll H height middle last rs') :
    PassesAll H height root last (rs ++ rs') := by
  induction rs generalizing root with
  | nil =>
    obtain rfl : middle = root := h
    exact h'
  | cons r rs ih =>
    obtain ⟨next, hr, hrs⟩ := h
    exact ⟨next, hr, ih hrs⟩

end SlotReading

open SlotReading

/-- One slot, whatever it is given as its witness. -/
theorem forces_slot (ns : Circuit.Path) (height : Nat) (slot : Slot f a.width) (root : Num f) :
    ForcesBetween H (slot.synthesize H ns height root) fun s t w next =>
      ∃ r : SlotReading f a, r.AssignedBy w s t ns ∧
        r.Passes H height (root.eval w) (next.eval w) := by
  apply ForcesBetween.bind (forces_enter ..).lift
  intro ns₁
  apply ForcesBetween.bind ((Num.forces_alloc ..).between fun _ _ _ _ h => Num.allocated_alloc h)
  intro key
  apply ForcesBetween.bind (forces_enter ..).lift
  intro ns₂
  apply ForcesBetween.bind ((Num.forces_alloc ..).between fun _ _ _ _ h => Num.allocated_alloc h)
  intro value
  apply ForcesBetween.bind (forces_enter ..).lift
  intro ns₃
  apply ForcesBetween.bind ((Bit.forces_alloc ..).between fun _ _ _ _ h => Bit.allocated_alloc h)
  intro active
  apply ForcesBetween.bind (forces_enter ..).lift
  intro ns₄
  apply ForcesBetween.bind (forces_insertPath ..)
  intro newRoot
  apply ForcesBetween.bind (forces_enter ..).lift
  intro ns₅
  apply (forces_pick ..).lift.mono
  -- The systems in between, from the last back to the first, each with the variables it adds.
  rintro s₉ t w next hpick s₈ _ _ - s₇ _ late₈ ⟨path, nodes, leaf, inserts, assigns⟩
    s₆ early₇ _ rfl s₅ early₆ late₆ ⟨⟨x, hx⟩, hactive⟩ s₄ early₅ _ rfl
    s₃ early₄ late₄ ⟨-, hvalue⟩ s₂ early₃ _ rfl s₁ early₂ late₂ ⟨-, hkey⟩ s₀ early₁ _ rfl
  have early₃ := early₁.trans (early₂.trans early₃)
  have early₅ := early₃.trans (early₄.trans early₅)
  have early₇ := early₅.trans (early₆.trans early₇)
  refine ⟨⟨key.eval w, value.eval w, x, path, nodes, leaf⟩, ⟨?_, ?_, ?_, ?_⟩, ?_, ?_⟩
  · exact ⟨_, hkey.mono early₁ late₂, rfl⟩
  · exact ⟨_, hvalue.mono early₃ late₄, rfl⟩
  · exact ⟨_, hactive.mono early₅ late₆, hx⟩
  · exact assigns.mono early₇ late₈
  · exact { inserts with rebuilt := rfl }
  · rw [hpick x hx, inserts.rebuilt]
    rfl

/-- The readings of a step's slots, from any place in the count. -/
def AssignsSlots (w : Assignment f) (s t : System f) (ns : Circuit.Path) (k : Nat)
    (readings : List (SlotReading f a)) : Prop :=
  ∀ (i : Nat) (r : SlotReading f a), readings[i]? = some r →
    r.AssignedBy w s t (.slot (k + i) :: ns)

theorem forces_slotsFrom (ns : Circuit.Path) (height k : Nat) (slots : List (Slot f a.width))
    (root : Num f) :
    ForcesBetween H (Slot.synthesizeFrom H ns height k slots root) fun s t w last =>
      ∃ readings : List (SlotReading f a), readings.length = slots.length ∧
        AssignsSlots w s t ns k readings ∧
          PassesAll H height (root.eval w) (last.eval w) readings := by
  induction slots generalizing k root with
  | nil =>
    apply (forces_pure (Q := fun w last => last.eval w = root.eval w) fun _ => rfl).lift.mono
    intro s t w last h
    exact ⟨[], rfl, fun i r hr => by simp at hr, h⟩
  | cons slot slots ih =>
    apply ForcesBetween.bind (forces_enter ..).lift
    intro ns'
    apply ForcesBetween.bind (forces_slot ..)
    intro next
    apply (ih (k + 1) next).mono
    rintro s t w last ⟨readings, hlen, hassigned, hpasses⟩ s₁ since late ⟨r, hr, hpass⟩
    rintro s₀ early _ rfl
    refine ⟨r :: readings, by simp [hlen], ?_, next.eval w, hpass, hpasses⟩
    intro i r' hr'
    cases i with
    | zero =>
      obtain rfl : r = r' := by simpa using hr'
      exact hr.mono early late
    | succ i =>
      have below := hassigned i r' (by simpa using hr')
      rw [Nat.add_right_comm] at below
      exact below.mono (early.trans since) List.prefix_rfl

theorem forces_step (ns : Circuit.Path) (step : Step f a.width) (root : Num f) :
    ForcesBetween H (step.synthesize H ns [root]) fun s t w out =>
      ∃ (last : Num f) (readings : List (SlotReading f a)), out = [last] ∧
        readings.length = step.slots.length ∧ AssignsSlots w s t ns 0 readings ∧
          PassesAll H step.height (root.eval w) (last.eval w) readings := by
  apply ForcesBetween.bind (forces_slotsFrom ..)
  intro last
  apply (forces_pure (Q := fun _ out => out = [last]) fun _ => rfl).lift.mono
  rintro s t w out rfl s₀ early late ⟨readings, hlen, hassigned, hpasses⟩
  refine ⟨last, readings, rfl, hlen, ?_, hpasses⟩
  intro i r hr
  exact (hassigned i r hr).mono List.prefix_rfl late

end PoseidonTrie
