import Mathlib.Data.Set.Insert
import PoseidonTrie.Fold.Run
import PoseidonTrie.Proofs.Circuit.Choice

/-! Why synthesis stops. Gadgets stop for a missing value and nothing else, but for selections and
hashes of the wrong size. Where a word cannot count the numbers, a selection may stop without an
error. Path circuits and steps select by digits, so they always return. -/
namespace PoseidonTrie

variable {f : PrimeField} {H : Hasher f} {n : Nat}

namespace Circuit

variable {α β : Type} {s : System f} {E : Set (Option SynthesisError)}

/-- All stops are for causes of a set, where none is a stop without an error. -/
structure StopsFor (E : Set (Option SynthesisError)) (x : Synth f α) : Prop where
  of_error : ∀ s stop, x s = .error stop → stop.error ∈ E

section Rules

variable {x : Synth f α} {g : α → Synth f β} {ns : Path} {l : Label}

theorem stopsFor_of_ok (h : ∀ s, ∃ r, x s = .ok r) : StopsFor E x := by
  refine ⟨fun s stop hrun => ?_⟩
  obtain ⟨r, hr⟩ := h s
  cases hr.symm.trans hrun

theorem stopsFor_pure (a : α) : StopsFor E (pure a : Synth f α) :=
  stopsFor_of_ok fun _ => ⟨_, rfl⟩

theorem stopsFor_fail {e : SynthesisError} (h : some e ∈ E) : StopsFor E (fail e : Synth f α) := by
  refine ⟨fun s stop hrun => ?_⟩
  cases hrun
  exact h

/-- What comes second has only the results of the first to deal with. -/
theorem StopsFor.bind_of_ok (hx : StopsFor E x)
    (hg : ∀ s a t, x s = .ok (a, t) → StopsFor E (g a)) : StopsFor E (x >>= g) := by
  refine ⟨fun s stop hrun => ?_⟩
  cases hfirst : x s with
  | error stop' =>
    cases (bind_eq_error hfirst).symm.trans hrun
    exact hx.of_error s stop hfirst
  | ok r =>
    rw [bind_eq_of_ok hfirst] at hrun
    exact (hg s r.1 r.2 hfirst).of_error r.2 stop hrun

theorem StopsFor.bind (hx : StopsFor E x) (hg : ∀ a, StopsFor E (g a)) : StopsFor E (x >>= g) :=
  hx.bind_of_ok fun _ a _ _ => hg a

theorem StopsFor.mapM (xs : List α) (hg : ∀ a, StopsFor E (g a)) : StopsFor E (xs.mapM g) := by
  induction xs with
  | nil => exact stopsFor_pure []
  | cons a xs ih =>
    rw [List.mapM_cons]
    exact (hg a).bind fun b => ih.bind fun bs => stopsFor_pure (b :: bs)

theorem StopsFor.enter {g : Path → Synth f α} (h : StopsFor E (g (l :: ns))) :
    StopsFor E (enter ns l >>= g) :=
  ⟨fun _ stop hrun => h.of_error _ stop hrun⟩

theorem StopsFor.errorOf_ne {e : SynthesisError} (hx : StopsFor E x) (h : some e ∉ E) :
    errorOf x s ≠ some e := by
  intro he
  unfold errorOf at he
  split at he
  · cases he
  · rename_i stop hrun
    exact h (he ▸ hx.of_error s stop hrun)

theorem stopsFor_enforce (path : Path) (a b c : LinComb f) : StopsFor E (enforce path a b c) :=
  stopsFor_of_ok fun _ => ⟨_, rfl⟩

end Rules

section Gadgets

variable (missing : some .assignmentMissing ∈ E) (ns : Path)

include missing

theorem stopsFor_alloc (value : Option α) (embed : α → Element f) :
    StopsFor E (alloc ns value embed) := by
  refine ⟨fun s stop hrun => ?_⟩
  unfold alloc at hrun
  split at hrun
  · cases hrun
  · split at hrun
    · cases hrun
      exact missing
    · cases hrun

theorem Num.stopsFor_alloc (value : Option (Element f)) : StopsFor E (Num.alloc ns value) :=
  (Circuit.stopsFor_alloc missing ..).bind fun _ => stopsFor_pure _

theorem Bit.stopsFor_alloc (value : Option Bool) : StopsFor E (Bit.alloc ns value : Synth f Bit) :=
  (Circuit.stopsFor_alloc missing ..).bind fun _ =>
    (stopsFor_enforce ..).bind fun _ => stopsFor_pure _

theorem Bit.stopsFor_product (constraint : Path) (value : Option Bool) (a b : LinComb f) :
    StopsFor E (Bit.product ns constraint value a b) :=
  (Circuit.stopsFor_alloc missing ..).bind fun _ =>
    (stopsFor_enforce ..).bind fun _ => stopsFor_pure _

theorem Bit.stopsFor_andFrom (k : Nat) (joined : Bit) (rest : List Bit) :
    StopsFor E (Bit.andFrom ns k joined rest : Synth f Bit) := by
  induction rest generalizing k joined with
  | nil => exact stopsFor_pure joined
  | cons b rest ih => exact .enter ((Bit.stopsFor_product missing ..).bind fun _ => ih ..)

theorem Boolean.stopsFor_and (a b : Boolean) : StopsFor E (Boolean.and ns a b : Synth f _) := by
  unfold Boolean.and
  split
  iterate 4 exact stopsFor_pure _
  iterate 4 exact (Bit.stopsFor_product missing ..).bind fun _ => stopsFor_pure _

theorem stopsFor_nonzero (x : Num f) : StopsFor E (nonzero ns x) :=
  .enter ((Num.stopsFor_alloc missing ..).bind fun _ => stopsFor_enforce ..)

theorem stopsFor_pick (condition : Boolean) (a b : Num f) : StopsFor E (pick ns condition a b) :=
  .enter ((Num.stopsFor_alloc missing ..).bind fun _ =>
    (stopsFor_enforce ..).bind fun _ => stopsFor_pure _)

theorem stopsFor_pickHalf (round : Nat) (bit : Boolean) (low high : List (Num f)) :
    StopsFor E (pickHalf ns round bit low high) :=
  .mapM _ fun _ => .enter (stopsFor_pick missing ..)

/-- Halving numbers as many as the bits tell apart leaves one. -/
theorem stopsFor_selectFrom (round : Nat) (bits : List Boolean) (xs : List (Num f))
    (h : xs.length = 2 ^ bits.length ∨ none ∈ E) : StopsFor E (selectFrom ns round bits xs) := by
  induction bits generalizing round xs with
  | nil =>
    match xs, h with
    | x :: _, _ => exact stopsFor_pure x
    | [], .inr h =>
      refine ⟨fun s stop hrun => ?_⟩
      cases hrun
      exact h
  | cons bit bits ih =>
    apply StopsFor.bind_of_ok (stopsFor_pickHalf missing ns round bit _ _)
    intro s next t hnext
    refine ih (round + 1) next (h.imp_left fun hlen => ?_)
    rw [List.length_cons, Nat.pow_succ] at hlen
    rw [length_pickHalf hnext, hlen, Nat.mul_div_cancel _ Nat.two_pos]

theorem stopsFor_selectorRound (i : Nat) (bit : Boolean) (chosen : List Boolean) :
    StopsFor E (selectorRound ns i bit chosen : Synth f _) := by
  apply StopsFor.bind (.mapM _ fun p => ?_) fun _ => stopsFor_pure _
  apply StopsFor.enter
  apply StopsFor.bind (Boolean.stopsFor_and missing ..)
  intro unset
  exact .enter ((Boolean.stopsFor_and missing ..).bind fun _ => stopsFor_pure _)

theorem stopsFor_selectorsFrom (i : Nat) (bits chosen : List Boolean) :
    StopsFor E (selectorsFrom ns i bits chosen : Synth f _) := by
  induction bits generalizing i chosen with
  | nil => exact stopsFor_pure chosen
  | cons bit bits ih => exact (stopsFor_selectorRound missing ns i bit chosen).bind fun _ => ih ..

theorem stopsFor_pickEach (level : Nat) (new : Num f) (xs : List (Num f)) (chosen : List Boolean) :
    StopsFor E (pickEach ns level new xs chosen) :=
  .mapM _ fun _ => .enter (stopsFor_pick missing ..)

theorem stopsFor_allocGuarded (value : Option Bool) (guard : Option Bit) :
    StopsFor E (allocGuarded ns value guard : Synth f Bit) := by
  cases guard with
  | none => exact Bit.stopsFor_alloc missing ..
  | some guard =>
    exact (Circuit.stopsFor_alloc missing ..).bind fun _ =>
      (stopsFor_enforce ..).bind fun _ => stopsFor_pure _

theorem stopsFor_joinRun (i : Nat) (last : Option Bit) (run : List Bit) :
    StopsFor E (joinRun ns i last run : Synth f _) := by
  cases run with
  | nil => exact stopsFor_pure last
  | cons b rest =>
    exact .enter ((Bit.stopsFor_andFrom missing ..).bind fun _ => stopsFor_pure _)

theorem stopsFor_strictBitsBelow (value : Option (Element f)) (last : Option Bit) (run : List Bit)
    (pos : Nat) : StopsFor E (strictBitsBelow ns value last run pos) := by
  induction pos generalizing last run with
  | zero => exact stopsFor_pure []
  | succ pos ih =>
    rw [strictBitsBelow]
    split
    · apply StopsFor.enter
      apply StopsFor.bind (Bit.stopsFor_alloc missing ..)
      intro b
      exact (ih ..).bind fun _ => stopsFor_pure _
    · apply StopsFor.bind (stopsFor_joinRun missing ..)
      intro last
      apply StopsFor.enter
      apply StopsFor.bind (stopsFor_allocGuarded missing ..)
      intro b
      exact (ih ..).bind fun _ => stopsFor_pure _

theorem stopsFor_numBits (x : Num f) (m : Nat) : StopsFor E (numBits ns x m) := by
  unfold numBits
  split
  · apply StopsFor.enter
    refine StopsFor.bind ?_ fun _ => stopsFor_pure _
    apply StopsFor.bind (stopsFor_strictBitsBelow missing ..)
    intro bits
    exact (stopsFor_enforce ..).bind fun _ => stopsFor_pure _
  · apply StopsFor.bind (.mapM _ fun i => ?_)
    · intro bits
      exact (stopsFor_enforce ..).bind fun _ => stopsFor_pure _
    · exact .enter ((Bit.stopsFor_alloc missing ..).bind fun _ => stopsFor_pure _)

end Gadgets

/-- Nothing is refused once the guard has let the numbers through. -/
theorem select_refused_iff {ns : Path} {xs : List (Num f)} {bits : List Boolean} :
    errorOf (select ns xs bits) s = some .unsatisfiable ↔ xs.length ≠ shiftOne bits.length := by
  constructor
  · intro h counted
    rw [select, if_pos counted] at h
    have stops : StopsFor {none, some .assignmentMissing} (selectFrom ns 0 bits.reverse xs) :=
      stopsFor_selectFrom (by simp) ns 0 _ xs (.inr (by simp))
    exact stops.errorOf_ne (by simp) h
  · intro hlen
    rw [select, if_neg hlen]
    rfl

theorem selectFrom_nil (ns : Path) (round : Nat) (bits : List Boolean) :
    selectFrom ns round bits [] s = .error ⟨none, s⟩ := by
  induction bits generalizing round with
  | nil => rfl
  | cons bit bits ih =>
    rw [selectFrom, List.take_nil, List.drop_nil]
    exact ih (round + 1)

/-- A word counts one index for a multiple of its width. The only number is let through, but lost in
the first halving. -/
theorem select_singleton {ns : Path} {x : Num f} {bits : List Boolean} (pos : 0 < bits.length)
    (wide : bits.length % 64 = 0) : select ns [x] bits s = .error ⟨none, s⟩ := by
  rw [select, shiftOne, wide, if_pos (by rfl)]
  cases h : bits.reverse with
  | nil =>
    rw [List.reverse_eq_nil_iff.mp h] at pos
    exact absurd pos (Nat.lt_irrefl 0)
  | cons bit bits =>
    rw [selectFrom, List.length_singleton, Nat.div_eq_of_lt Nat.one_lt_two, List.take_zero]
    exact selectFrom_nil ns 1 bits

/-- An error is returned wherever the synthesis stops. -/
abbrev Returns (x : Synth f α) : Prop :=
  StopsFor (Set.range some) x

theorem mem_returned (e : SynthesisError) : some e ∈ Set.range some :=
  ⟨e, rfl⟩

theorem Returns.reported {x : Synth f α} {stop : Stop f} (hx : Returns x) (h : x s = .error stop) :
    stop.error = some stop.reported := by
  obtain ⟨e, he⟩ := hx.of_error s stop h
  rw [Stop.reported, ← he]
  rfl

section Paths

variable (ns : Path)

theorem returns_select (xs : List (Num f)) {bits : List Boolean} (few : bits.length < 64) :
    Returns (select ns xs bits) := by
  unfold select
  split
  · rename_i counted
    rw [shiftOne_of_lt few] at counted
    apply stopsFor_selectFrom (mem_returned _)
    exact .inl (by rw [counted, List.length_reverse])
  · exact stopsFor_fail (mem_returned _)

theorem returns_hashNode (a : Arity) (children : List (Num f)) :
    Returns (hashNode H ns a children) := by
  unfold hashNode
  split
  · apply StopsFor.enter
    apply StopsFor.bind (Num.stopsFor_alloc (mem_returned _) ..)
    intro output
    exact (stopsFor_of_ok fun _ => ⟨_, rfl⟩).bind fun _ => stopsFor_pure _
  · exact stopsFor_fail (mem_returned _)

theorem returns_lookupLevels {a : Arity} (witness : Option (List (Node f a.width))) (level : Nat)
    (next : Num f) {digits : List (List Boolean)} (few : ∀ digit ∈ digits, digit.length < 64) :
    Returns (lookupLevels H ns a witness level next digits) := by
  induction digits generalizing level next with
  | nil => exact stopsFor_pure _
  | cons digit digits ih =>
    obtain ⟨first, rest⟩ := List.forall_mem_cons.mp few
    rw [lookupLevels]
    apply StopsFor.bind (.mapM _ fun _ => .enter (Num.stopsFor_alloc (mem_returned _) ..))
    intro children
    apply StopsFor.enter
    apply StopsFor.bind (returns_hashNode ..)
    intro commitment
    apply StopsFor.bind (stopsFor_enforce ..)
    intro _
    apply StopsFor.enter
    apply StopsFor.bind (returns_select _ _ first)
    intro child
    exact (ih (level + 1) child rest).bind fun _ => stopsFor_pure _

theorem returns_lookupPath (root key : Num f) (height : Nat)
    (witness : Option (List (Node f n))) :
    Returns (lookupPath H ns n root key height witness) := by
  unfold lookupPath
  split
  · rename_i supported
    dsimp only
    split
    · exact stopsFor_fail (mem_returned _)
    · split
      · exact stopsFor_fail (mem_returned _)
      · apply StopsFor.enter
        apply StopsFor.bind (stopsFor_numBits (mem_returned _) ..)
        intro bits
        have few : ∀ digit ∈ digitsOf (digitBits n) height bits, digit.length < 64 := by
          intro digit hdigit
          obtain ⟨i, -, rfl⟩ := List.mem_map.mp hdigit
          exact lt_of_le_of_lt (List.length_take_le ..) (Arity.digitBits_lt ⟨n, supported⟩)
        exact (returns_lookupLevels ns _ _ _ few).bind fun _ => stopsFor_pure _
  · exact stopsFor_fail (mem_returned _)

theorem returns_insertLevels (a : Arity) (value : Num f) (level : Nat)
    (steps : List (List (Num f) × List Boolean)) :
    Returns (insertLevels H ns a value level steps) := by
  induction steps generalizing level with
  | nil => exact stopsFor_pure value
  | cons step steps ih =>
    rw [insertLevels]
    apply StopsFor.bind (ih (level + 1))
    intro below
    apply StopsFor.enter
    apply StopsFor.bind (stopsFor_selectorsFrom (mem_returned _) ..)
    intro chosen
    apply StopsFor.bind (stopsFor_pickEach (mem_returned _) ..)
    intro children
    exact .enter (returns_hashNode ..)

theorem returns_insertPath (root key value : Num f) (height : Nat)
    (witness : Option (List (Node f n))) :
    Returns (insertPath H ns n root key value height witness) := by
  unfold insertPath
  split
  · apply StopsFor.enter
    apply StopsFor.bind (returns_lookupPath ..)
    intro path
    apply StopsFor.enter
    apply StopsFor.bind (stopsFor_nonzero (mem_returned _) ..)
    intro _
    exact returns_insertLevels ..
  · exact stopsFor_fail (mem_returned _)

theorem returns_slot (height : Nat) (slot : Slot f n) (root : Num f) :
    Returns (slot.synthesize H ns height root) := by
  apply StopsFor.enter
  apply StopsFor.bind (Num.stopsFor_alloc (mem_returned _) ..)
  intro key
  apply StopsFor.enter
  apply StopsFor.bind (Num.stopsFor_alloc (mem_returned _) ..)
  intro value
  apply StopsFor.enter
  apply StopsFor.bind (Bit.stopsFor_alloc (mem_returned _) ..)
  intro active
  apply StopsFor.enter
  apply StopsFor.bind (returns_insertPath ..)
  intro newRoot
  exact .enter (stopsFor_pick (mem_returned _) ..)

theorem returns_slotsFrom (height i : Nat) (slots : List (Slot f n)) (root : Num f) :
    Returns (Slot.synthesizeFrom H ns height i slots root) := by
  induction slots generalizing i root with
  | nil => exact stopsFor_pure root
  | cons slot slots ih =>
    apply StopsFor.enter
    apply StopsFor.bind (returns_slot ..)
    intro next
    exact ih (i + 1) next

theorem returns_step (step : Step f n) (z : List (Num f)) :
    Returns (step.synthesize H ns z) := by
  match z with
  | [root] => exact (returns_slotsFrom ..).bind fun _ => stopsFor_pure _
  | [] | _ :: _ :: _ => exact stopsFor_fail (mem_returned _)

end Paths

theorem returns_ofExcept {r : Except SynthesisError α} {g : α → Synth f β}
    (hg : ∀ a, Returns (g a)) : Returns (ofExcept r >>= g) := by
  cases r with
  | ok a => exact hg a
  | error e =>
    refine ⟨fun s stop hrun => ?_⟩
    cases hrun
    exact ⟨e, rfl⟩

end Circuit

open Circuit

variable {a : Arity}

theorem View.returns_synthesizeLookup (ns : Circuit.Path) (v : View f a) (root key : Num f) :
    Returns (v.synthesizeLookup H ns root key) :=
  returns_ofExcept fun _ => (returns_lookupPath ..).bind fun _ => stopsFor_pure _

theorem View.returns_synthesizeInsert (ns : Circuit.Path) (v : View f a)
    (root key value : Num f) : Returns (v.synthesizeInsert H ns root key value) :=
  returns_ofExcept fun _ => returns_insertPath ..

/-- A check that cannot try its step tells the error of the trial. -/
theorem Step.check_of_trial {step : Step f n} {z : Element f} {stop : Stop f} (i : Nat)
    (h : step.trial H z (.empty .test) = .error stop) :
    ∃ e, stop.error = some e ∧ step.check H i z = .error (.synthesis e) := by
  have returns : Returns (step.trial H z) :=
    .enter ((Num.stopsFor_alloc (mem_returned _) ..).bind fun _ => returns_step ..)
  refine ⟨stop.reported, returns.reported h, ?_⟩
  rw [check, h]

end PoseidonTrie
