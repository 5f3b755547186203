import Mathlib.Data.Set.List
import PoseidonTrie.Fold.Run
import PoseidonTrie.Proofs.Circuit.Distinct
import PoseidonTrie.Proofs.Circuit.Tasks
import PoseidonTrie.Proofs.Fold.DryRun

/-! No synthesis takes a name twice, so in the trial of a step every name stands for one thing, and
what a trial finds broken is one constraint. -/
namespace PoseidonTrie

open Circuit

variable {f : PrimeField} {H : Hasher f} {a : Arity} {n : Nat}

theorem Slot.takesOnce_synthesize (ns : Circuit.Path) (height : Nat) (slot : Slot f n)
    (root : Num f) :
    TakesOnce (Below ns Set.univ) (slot.synthesize H ns height root) := by
  apply (TakesOnce.first (M := {.value} ∪ ({.active} ∪ ({.insert} ∪ {.nextRoot})))
    (Num.takesOnce_enter rfl _) _ (by simp)).widen (Set.subset_univ _)
  intro key
  apply (Num.takesOnce_enter rfl _).first _ (by simp)
  intro value
  apply ((Bit.takesOnce_alloc ..).enter rfl).first _ (by simp)
  intro active
  apply ((takesOnce_insertPath ..).enter rfl).first _ (by simp)
  intro newRoot
  exact (takesOnce_pick ..).enter rfl

theorem Slot.takesOnce_synthesizeFrom (ns : Circuit.Path) (height i : Nat)
    (slots : List (Slot f n)) (root : Num f) :
    TakesOnce (Below ns (FromRound i)) (synthesizeFrom H ns height i slots root) := by
  induction slots generalizing i root with
  | nil => exact takesOnce_pure root
  | cons slot slots ih =>
    exact ((Slot.takesOnce_synthesize ..).enter rfl).firstRound rfl (ih (i + 1))

namespace Step

theorem takesOnce_synthesize (ns : Circuit.Path) (step : Step f n) (z : List (Num f)) :
    TakesOnce (Below ns (FromRound 0)) (step.synthesize H ns z) := by
  match z with
  | [root] => exact (Slot.takesOnce_synthesizeFrom ns step.height 0 step.slots root).done
  | [] | _ :: _ :: _ => exact takesOnce_fail _

theorem takesOnce_trial (step : Step f n) (z : Element f) :
    TakesOnce (Below [] ({.state 0} ∪ FromRound 0)) (step.trial H z) :=
  (Num.takesOnce_enter rfl _).first (fun _ => takesOnce_synthesize ..) (by simp [Label.round?])

end Step

namespace View

theorem takesOnce_synthesizeLookup (ns : Circuit.Path) (v : View f a) (root key : Num f) :
    TakesOnce (Below ns ({.keyBits} ∪ FromRound 0)) (v.synthesizeLookup H ns root key) :=
  takesOnce_ofExcept fun _ => (takesOnce_lookupPath ..).done

theorem takesOnce_synthesizeInsert (ns : Circuit.Path) (v : View f a) (root key value : Num f) :
    TakesOnce (Below ns ({.oldPath} ∪ ({.valueIsNonzero} ∪ FromRound 0)))
      (v.synthesizeInsert H ns root key value) :=
  takesOnce_ofExcept fun _ => takesOnce_insertPath ..

end View

namespace Circuit

variable {ns path : Path} {s t : System f} {taken : List Taken}

/-- The name is a namespace or inside it, and in namespaces of hashes only outputs have names. -/
def Within (ns path : Path) : Prop :=
  ∃ inner, path = inner ++ ns ∧ Sealed inner

theorem Below.within {L : Set Label} (h : Below ns L path) : Within ns path := by
  obtain ⟨inner, l, -, rfl, closed⟩ := h
  exact ⟨inner ++ [l], by simp, closed⟩

theorem within_self (ns : Path) : Within ns ns :=
  ⟨[], rfl, fun inner l outer h => by simp at h⟩

theorem Task.takesOnce_run (ns : Path) (task : Task f) :
    TakesOnce (Within ns) (task.run H ns) := by
  have inside {α β : Type} {L : Set Label} {x : Synth f α} {g : α → β}
      (hx : TakesOnce (Below ns L) x) : TakesOnce (Within ns) (x >>= fun r => pure (g r)) :=
    hx.done.mono fun _ => Below.within
  cases task with
  | number value => exact inside (Num.takesOnce_alloc ns value).below
  | bit value => exact inside (Bit.takesOnce_alloc ns value)
  | equal x y => exact (takesOnce_equal ns x y).done.mono fun _ h => h ▸ within_self ns
  | pick c x y => exact inside (takesOnce_pick ns c x y)
  | select xs bits => exact inside (takesOnce_select ns xs bits)
  | nonzero x => exact inside (takesOnce_nonzero ns x)
  | numBits x n => exact inside (takesOnce_numBits ns x n)
  | selectors bits => exact inside (takesOnce_selectors ns bits)
  | hash a children =>
    apply (takesOnce_hashNode ns a children).done.mono
    rintro path (rfl | rfl)
    · exact ⟨[.hashOutput], rfl, sealed_singleton _⟩
    · exact ⟨[.num, .hashOutput], rfl, sealed_concat (sealed_singleton .num) nofun⟩
  | lookupPath n root key height witness => exact inside (takesOnce_lookupPath ..)
  | insertPath n root key value height witness => exact inside (takesOnce_insertPath ..)
  | lookup a v root key => exact inside (View.takesOnce_synthesizeLookup ..)
  | insert a v root key value => exact inside (View.takesOnce_synthesizeInsert ..)
  | step n step z => exact inside (Step.takesOnce_synthesize ..)

theorem nodup_texts {names : List Path} (h : names.Nodup) : (names.map Path.text).Nodup :=
  h.map Path.text_injective

/-- One constraint alone has the text of a name, and it is broken. -/
def System.Identifies (t : System f) (path : Path) : Prop :=
  ∃ before c after, t.constraints.toList = before ++ c :: after ∧ c.equation? = some path ∧
    c.isBroken t.assignment = true ∧
    ∀ d ∈ before ++ after, ∀ other, d.equation? = some other → other.text ≠ path.text

theorem System.identifies_of_unsatisfied? (once : t.equations.Nodup)
    (h : t.unsatisfied? = some path) : t.Identifies path := by
  obtain ⟨c, hfind, hpath⟩ := Option.map_eq_some_iff.mp h
  rw [← Array.find?_toList] at hfind
  obtain ⟨broken, before, after, split, -⟩ := List.find?_eq_some_iff_append.mp hfind
  have equation : c.equation? = some path := by
    cases c with
    | product => exact congrArg some hpath
    | hash => cases broken
  refine ⟨before, c, after, split, equation, broken, fun d hd other hother same => ?_⟩
  obtain rfl := Path.text_injective same
  rw [System.equations, split, List.filterMap_append, List.filterMap_cons_some equation] at once
  have others := (List.nodup_middle.mp once).notMem
  rw [← List.filterMap_append] at others
  exact others (List.mem_filterMap.mpr ⟨d, hd, hother⟩)

end Circuit

namespace Step

/-- A trial in a fresh system takes no name twice, and leaves no name but those it takes. -/
theorem once_of_trial {k : Kind} (hk : k ≠ .witness) (step : Step f n) (z : Element f) :
    ((System.empty k).after (step.trial H z)).names.Nodup ∧
      ∃ taken, (System.empty k).Takes ((System.empty k).after (step.trial H z)) taken ∧
        (taken.map (·.2)).Nodup := by
  obtain ⟨taken, htakes, once, -⟩ := (takesOnce_trial (H := H) step z).of_run (.empty k) hk
  refine ⟨?_, taken, htakes, once⟩
  rw [htakes.names]
  simpa [System.empty] using once

/-- A check that finds something broken tells one constraint of the trial. -/
theorem identifies_of_check {i j : Nat} {step : Step f n} {z : Element f} {path : Circuit.Path}
    (h : step.check H i z = .error (.unsatisfied j path)) :
    j = i ∧ ∃ out t, step.trial H z (.empty .test) = .ok (out, t) ∧ t.Identifies path := by
  unfold check at h
  split at h
  · cases h
  · rename_i out t hrun
    split at h
    · rename_i found hfound
      cases h
      obtain ⟨-, taken, htakes, once⟩ := once_of_trial (H := H) (k := .test) (by decide) step z
      rw [after_eq_of_ok hrun] at htakes
      refine ⟨rfl, out, t, hrun, System.identifies_of_unsatisfied? ?_ hfound⟩
      rw [htakes.equations]
      exact once.sublist (List.filter_sublist.map _)
    · split at h
      · cases h
      · cases h

/-- The steps before the one that is told of pass their checks. -/
theorem identifies_of_dryRunFrom {k i : Nat} {steps : List (Step f n)} {z : Element f}
    {path : Circuit.Path}
    (h : dryRunFrom H k steps z = .error (.unsatisfied i path)) :
    ∃ j step z' out t, i = k + j ∧ steps[j]? = some step ∧
      step.trial H z' (.empty .test) = .ok (out, t) ∧ t.Identifies path := by
  induction steps generalizing k z with
  | nil => cases h
  | cons step steps ih =>
    rw [dryRunFrom] at h
    cases hcheck : step.check H k z with
    | error e =>
      rw [hcheck] at h
      cases h
      obtain ⟨rfl, out, t, hrun, identifies⟩ := identifies_of_check hcheck
      exact ⟨0, step, z, out, t, rfl, rfl, hrun, identifies⟩
    | ok next =>
      rw [hcheck] at h
      obtain ⟨j, step', z', out, t, rfl, found, rest⟩ := ih h
      exact ⟨j + 1, step', z', out, t, by omega, found, rest⟩

/-- Every slot of the step has its values. -/
def Filled (step : Step f n) : Prop :=
  ∀ slot ∈ step.slots,
    slot.key.isSome ∧ slot.value.isSome ∧ slot.path.isSome ∧ slot.active.isSome

theorem exists_readings {step : Step f a.width} (fits : step.Fits) (filled : step.Filled) :
    ∃ readings : List (SlotReading f a), step.slots = readings.map SlotReading.slot ∧
      ∀ r ∈ readings, r.Shaped step.height := by
  -- A list of members of a range is itself a list that is mapped.
  have known : step.slots ∈ Set.range
      (List.map fun r : { r : SlotReading f a // r.Shaped step.height } => r.val.slot) := by
    rw [Set.range_list_map]
    intro slot hslot
    obtain ⟨hkey, hvalue, hpath, hactive⟩ := filled slot hslot
    obtain ⟨key, hkey⟩ := Option.isSome_iff_exists.mp hkey
    obtain ⟨value, hvalue⟩ := Option.isSome_iff_exists.mp hvalue
    obtain ⟨nodes, hpath⟩ := Option.isSome_iff_exists.mp hpath
    obtain ⟨active, hactive⟩ := Option.isSome_iff_exists.mp hactive
    have shaped : SlotReading.Shaped step.height
        ⟨key, value, active, a.digits step.height key.val, nodes, 0⟩ :=
      ⟨rfl, fits slot hslot nodes hpath⟩
    refine ⟨⟨_, shaped⟩, ?_⟩
    change (⟨some key, some value, some nodes, some active⟩ : Slot f a.width) = slot
    rw [← hkey, ← hvalue, ← hpath, ← hactive]
  obtain ⟨readings, hreadings⟩ := known
  refine ⟨readings.map (·.val), ?_, ?_⟩
  · rw [← hreadings, List.map_map]
    rfl
  · intro r hr
    obtain ⟨r, -, rfl⟩ := List.mem_map.mp hr
    exact r.property

/-- A trial stops for nothing but a missing value, and a shape looks at none. -/
theorem exists_trial {k : Kind} (hk : k ≠ .witness) {step : Step f a.width} (z : Element f)
    (pos : 0 < step.height) (le : step.height ≤ fullHeight f a) (fits : step.Fits)
    (filled : k = .test → step.Filled) :
    ∃ out t, step.trial H z (.empty k) = .ok (out, t) := by
  cases k with
  | test =>
    obtain ⟨readings, hslots, shaped⟩ := exists_readings fits (filled rfl)
    obtain ⟨out, t, -, hrun, -⟩ :=
      (computes_trial (H := H) (z := z) hslots pos le shaped).of_run rfl
    exact ⟨out, t, hrun⟩
  | shape =>
    have alike : Mirrors .shape (step.trial H z) (step.trial H z)
        (List.Forall₂ (Num.Follows .shape)) := by
      apply Mirrors.enter
      apply Mirrors.bind (Num.mirrors_alloc _ fun _ => rfl)
      intro root root' hroot
      exact mirrors_synthesize [] pos le rfl rfl (fun _ => rfl) fits fits hroot
    obtain ⟨out, t, -, -, hrun, -⟩ := alike.of_run (.empty .shape) _ (.refl _) rfl (.inl rfl)
    exact ⟨out, t, hrun⟩
  | witness => exact absurd rfl hk

end Step

/-- No synthesis takes a name twice. The text of a label is not empty and has no slash, and whatever
circuit is synthesized in a namespace, as one of its parts or as a whole step, and wherever it
stops, the namespaces it opened, its variables and its equations have texts that are pairwise
different, inside the namespace and not the text of the constant. In the namespace of a hash nothing
has a name but the output, so other names there would be the hash's own. A circuit that stops
returns an error, but for a selection by as many bits as a word has. In the trial of a step all
names there are differ like this, and a check of the step tells the error that the trial stops for.
When a dry run finds something broken, its text stands for one constraint of the trial of one step.
If the paths of a step fit its height, only a missing value can stop its trial, so it takes all its
names in a shape, and in a test where every value is there. -/
theorem names_distinct (H : Hasher f) :
    (∀ l : Label, l.text ≠ "" ∧ '/' ∉ l.text.toList) ∧
    (∀ (ns : Circuit.Path) (task : Task f) (s : System f), s.kind ≠ .witness →
      ∃ taken, s.Takes (s.after (task.run H ns)) taken ∧
        (taken.map fun name => name.2.text).Nodup ∧
          ∀ path ∈ taken.map (·.2), Within ns path ∧ path.text ≠ oneName) ∧
    (∀ (ns : Circuit.Path) (task : Task f) (s : System f) (stop : Stop f),
      task.run H ns s = .error stop → stop.error = none →
        ∃ xs bits, task = .select xs bits ∧ 64 ≤ bits.length) ∧
    (∀ (n : Nat) (step : Step f n) (z : Element f) (kind : Kind), kind ≠ .witness →
      let left := (System.empty kind).after (step.trial H z)
      (left.names.map Path.text).Nodup ∧
        ∃ taken, (System.empty kind).Takes left taken ∧
          (taken.map fun name => name.2.text).Nodup) ∧
    (∀ (n : Nat) (step : Step f n) (z : Element f) (i : Nat) (stop : Stop f),
      step.trial H z (.empty .test) = .error stop →
        ∃ e, stop.error = some e ∧ step.check H i z = .error (.synthesis e)) ∧
    (∀ (n : Nat) (steps : List (Step f n)) (z : Element f) (i : Nat) (path : Circuit.Path),
      dryRun H steps z = .error (.unsatisfied i path) →
        ∃ step z' out t, steps[i]? = some step ∧ step.trial H z' (.empty .test) = .ok (out, t) ∧
          t.Identifies path) ∧
    ∀ (a : Arity) (step : Step f a.width) (z : Element f) (kind : Kind), kind ≠ .witness →
      0 < step.height → step.height ≤ fullHeight f a → step.Fits →
        (kind = .test → step.Filled) →
          ∃ out t, step.trial H z (.empty kind) = .ok (out, t) ∧ (t.names.map Path.text).Nodup := by
  have texts {taken : List Taken} (h : (taken.map (·.2)).Nodup) :
      (taken.map fun name => name.2.text).Nodup := by
    have differ := nodup_texts h
    rwa [List.map_map] at differ
  refine ⟨fun l => ⟨l.text_ne_empty, l.slash_not_mem_text⟩, ?_, ?_, ?_,
    fun n step z i stop h => Step.check_of_trial i h, ?_, ?_⟩
  · intro ns task s hs
    obtain ⟨taken, htakes, once, within⟩ := (Task.takesOnce_run (H := H) ns task).of_run s hs
    exact ⟨taken, htakes, texts once, fun path hpath => ⟨within path hpath, path.text_ne_oneName⟩⟩
  · intro ns task s stop hrun crashed
    by_contra other
    have few : ∀ xs bits, task = .select xs bits → bits.length < 64 := fun xs bits same =>
      Nat.lt_of_not_le fun many => other ⟨xs, bits, same, many⟩
    obtain ⟨e, he⟩ := (Task.returns_run ns task few).of_error s stop hrun
    rw [crashed] at he
    cases he
  · intro n step z kind hk
    obtain ⟨names, taken, htakes, once⟩ := Step.once_of_trial (H := H) hk step z
    exact ⟨nodup_texts names, taken, htakes, texts once⟩
  · intro n steps z i path h
    obtain ⟨j, step, z', out, t, rfl, found, rest⟩ := Step.identifies_of_dryRunFrom h
    rw [Nat.zero_add]
    exact ⟨step, z', out, t, found, rest⟩
  · intro a step z kind hk pos le fits filled
    obtain ⟨out, t, hrun⟩ := Step.exists_trial (H := H) hk z pos le fits filled
    have once := (Step.once_of_trial (H := H) hk step z).1
    rw [after_eq_of_ok hrun] at once
    exact ⟨out, t, hrun, nodup_texts once⟩

/-- One insertion is refused from another root. The commitment on its only level is told of, and no
other constraint has that text. A step without values stops at its first key, which it has opened
the namespace of, and a check tells of the missing value. -/
theorem names_distinct_oneSlot :
    let step : Step .pallasBase 2 :=
      ⟨1, [⟨some 1, some 1, some [.uniform 2 0], some true⟩], some 0, some 1⟩
    (∃ z out t, step.trial weigh z (.empty .test) = .ok (out, t) ∧ (t.names.map Path.text).Nodup ∧
      t.Identifies [.levelCommitment 0, .oldPath, .insert, .slot 0]) ∧
      (∃ stop, (Step.blank 1 1 : Step .pallasBase 2).trial weigh 1 (.empty .test) = .error stop ∧
        [.key, .slot 0] ∈ stop.system.names ∧ (stop.system.names.map Path.text).Nodup) ∧
      (Step.blank 1 1 : Step .pallasBase 2).check weigh 0 1 =
        .error (.synthesis .assignmentMissing) ∧
      (∀ kind ∈ [Kind.test, .shape], ∃ out t, step.trial weigh 1 (.empty kind) = .ok (out, t) ∧
        (t.names.map Path.text).Nodup) ∧
      ∃ taken, (System.empty .test).Takes ((System.empty .test).after
          ((Task.number (some (1 : Element .pallasBase))).run weigh [.key])) taken ∧
        (taken.map fun name => name.2.text).Nodup := by
  intro step
  obtain ⟨-, tasks, -, trials, checks, told, whole⟩ := names_distinct (f := .pallasBase) weigh
  have refused : dryRun weigh [step] 1 =
      .error (.unsatisfied 0 [.levelCommitment 0, .oldPath, .insert, .slot 0]) := by
    decide +kernel
  refine ⟨?_, ?_, ?_, ?_, ?_⟩
  · obtain ⟨_, z, out, t, found, hrun, identifies⟩ := told 2 [step] 1 0 _ refused
    obtain rfl := Option.some.inj found
    have once := (trials 2 step z .test (by decide)).1
    rw [after_eq_of_ok hrun] at once
    exact ⟨z, out, t, hrun, once, identifies⟩
  · exact ⟨_, rfl, by decide, (trials 2 (.blank 1 1) 1 .test (by decide)).1⟩
  · obtain ⟨_, ⟨⟩, checked⟩ := checks 2 (.blank 1 1) 1 0 _ rfl
    exact checked
  · have only : ∀ slot ∈ step.slots, slot = ⟨some 1, some 1, some [.uniform 2 0], some true⟩ :=
      fun slot hslot => List.mem_singleton.mp hslot
    intro kind hkind
    refine whole .binary step 1 kind ?_ Nat.one_pos (fullHeight_pos ..) ?_ ?_
    · rintro rfl
      simp at hkind
    · intro slot hslot
      rw [only slot hslot]
      exact fits_some rfl
    · intro _ slot hslot
      rw [only slot hslot]
      decide
  · obtain ⟨taken, htakes, once, -⟩ := tasks [.key] (.number (some 1)) (.empty .test) (by decide)
    exact ⟨taken, htakes, once⟩

end PoseidonTrie
