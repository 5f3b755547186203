import PoseidonTrie.Proofs.Fold.Native
import PoseidonTrie.Proofs.Forest.Persistence

/-! Runs of folding steps. Each step has a system and an assignment of its own, and the root is all
that one step and the next have in common. -/
namespace PoseidonTrie

open Circuit SlotReading

variable {f : PrimeField} {a : Arity} {H : Hasher f} {height : Nat}

/-- A step's circuit with an assignment that satisfies it, whoever made the assignment. -/
structure StepRun (H : Hasher f) (a : Arity) (height : Nat) where
  step : Step f a.width
  ns : Circuit.Path
  input : List (Num f)
  output : List (Num f)
  before : System f
  after : System f
  assignment : Assignment f
  height_eq : step.height = height
  recording : before.kind ≠ .witness
  synthesized : step.synthesize H ns input before = .ok (output, after)
  satisfied : Satisfies H assignment (before.since after)

namespace StepRun

/-- The public values that the step is given. -/
def start (run : StepRun H a height) : List (Element f) :=
  run.input.map (Num.eval run.assignment)

/-- The public values that the step yields. -/
def finish (run : StepRun H a height) : List (Element f) :=
  run.output.map (Num.eval run.assignment)

/-- Every step is given what the one before yields. -/
def Connects (z : List (Element f)) :
    (runs : List (StepRun H a height)) → (z' : List (Element f)) → Prop
  | [], z' => z' = z
  | run :: runs, z' => run.start = z ∧ Connects run.finish runs z'

/-- What the variables of a step's slots are assigned, and the roots that the slots lead between. -/
structure Reads (run : StepRun H a height) (root last : Element f)
    (readings : List (SlotReading f a)) : Prop where
  start_eq : run.start = [root]
  finish_eq : run.finish = [last]
  length : readings.length = run.step.slots.length
  assigned : AssignsSlots run.assignment run.before run.after run.ns 0 readings
  passes : PassesAll H height root last readings

/-- The state of a step that can be synthesized is one root. -/
theorem input_eq (run : StepRun H a height) : ∃ root, run.input = [root] := by
  have h := run.synthesized
  match hin : run.input with
  | [root] => exact ⟨root, rfl⟩
  | [] =>
    rw [hin] at h
    cases h
  | _ :: _ :: _ =>
    rw [hin] at h
    cases h

theorem exists_reads (run : StepRun H a height) :
    ∃ root last readings, run.Reads root last readings := by
  obtain ⟨root, hroot⟩ := run.input_eq
  have h := run.synthesized
  rw [hroot] at h
  obtain ⟨cs, he, forced⟩ := (forces_step ..).of_run _ _ _ run.recording h
  have satisfied := run.satisfied
  rw [he.since_eq] at satisfied
  obtain ⟨last, readings, hout, hlen, hassigned, hpasses⟩ := forced _ satisfied
  rw [run.height_eq] at hpasses
  refine ⟨root.eval run.assignment, last.eval run.assignment, readings, ?_, ?_, hlen, hassigned,
    hpasses⟩
  · rw [start, hroot]
    rfl
  · rw [finish, hout]
    rfl

/-- The slots of all steps, one step after another, lead from the first root to the last. -/
theorem Connects.exists_reads {root : Element f} {runs : List (StepRun H a height)}
    {z : List (Element f)} (h : Connects [root] runs z) :
    ∃ (last : Element f) (readings : List (List (SlotReading f a))), z = [last] ∧
      List.Forall₂ (fun run rs => ∃ root last, run.Reads root last rs) runs readings ∧
        PassesAll H height root last readings.flatten := by
  induction runs generalizing root with
  | nil => exact ⟨root, [], h, .nil, rfl⟩
  | cons run runs ih =>
    obtain ⟨hstart, h⟩ := h
    obtain ⟨root', next, rs, hreads⟩ := run.exists_reads
    obtain rfl : root' = root := List.singleton_inj.mp (hreads.start_eq.symm.trans hstart)
    rw [hreads.finish_eq] at h
    obtain ⟨last, readings, hz, hall, hpasses⟩ := ih h
    exact ⟨last, rs :: readings, hz, .cons ⟨_, _, hreads⟩ hall, hreads.passes.append hpasses⟩

/-- In a run of satisfied steps every slot's variables are assigned a path under the running root,
and the active slots alone move the root. If the first root is one that a trie of the height once
had, the last is what inserting the active pairs leaves. The alternative is a collision among the
nodes registered and those of the assigned paths. -/
theorem connects_sound (H : Hasher f) (a : Arity) (height : Nat) (root : Element f)
    (runs : List (StepRun H a height)) (z : List (Element f)) (h : Connects [root] runs z) :
    ∃ (last : Element f) (readings : List (List (SlotReading f a))), z = [last] ∧
      List.Forall₂ (fun run rs => ∃ root last, run.Reads root last rs) runs readings ∧
      PassesAll H height root last readings.flatten ∧
      ∀ (ops : List (Op f)) (t : Trie f a) (history : List (Element f × Element f)),
        ⟨a, t, history⟩ ∈ (Forest.run H ops).held → t.height = height → t.root = root →
          let inserted :=
            View.insertAll H ⟨t, (Forest.run H ops).caches⟩ (pairs readings.flatten)
          inserted.2.caches.CollidesAmong H a (nodesOf readings.flatten) ∨
            inserted.1 = .ok () ∧ inserted.2.trie.root = last := by
  obtain ⟨last, readings, hz, hreads, hpasses⟩ := h.exists_reads
  refine ⟨last, readings, hz, hreads, hpasses, ?_⟩
  rintro ops t history hm rfl rfl inserted
  by_cases hc : inserted.2.caches.CollidesAmong H a (nodesOf readings.flatten)
  · exact Or.inl hc
  · have hs := Forest.sound_run H ops
    have grows := (View.insertAll_frame (v := ⟨t, (Forest.run H ops).caches⟩) hs.faithful
      (pairs readings.flatten)).1
    have unique : ¬ (Forest.run H ops).caches.Collides H a :=
      fun h => hc ((grows.collides hs.faithful h).among _)
    have held := (hs.held _ hm).resolve_left unique
    exact Or.inr (hpasses.insertAll (v := ⟨t, (Forest.run H ops).caches⟩) held hs.faithful hc)

/-- A step with one slot, and a system with a root to start it from. -/
def oneSlot : Step .pallasBase Arity.binary.width :=
  .blank 1 1

def oneRoot : System .pallasBase :=
  (System.empty .shape).addVariable [.num, .state 0] none

/-- The slot puts the value one at the key one of an empty trie. -/
def putsOne : Assignment .pallasBase := fun i =>
  if i ∈ [1, 2, 3, 4, 9, 11, 12, 13] then 1 else 0

/-- The slot is not active, and shows the same pair under the root that has it. -/
def keepsOne : Assignment .pallasBase := fun i =>
  if i ∈ [0, 1, 2, 4, 6, 7, 8, 9, 11, 12, 13] then 1 else 0

theorem satisfies_oneSlot :
    ∃ after, oneSlot.synthesize weigh [] [⟨0, none⟩] oneRoot = .ok ([⟨13, none⟩], after) ∧
      Satisfies weigh putsOne (oneRoot.since after) ∧
        Satisfies weigh keepsOne (oneRoot.since after) :=
  ⟨_, rfl, by decide +kernel, by decide +kernel⟩

theorem connects_sound_oneSlot :
    ∃ (runs : List (StepRun weigh .binary 1)) (readings : List (List (SlotReading _ .binary))),
      runs.map finish = [[1], [1]] ∧ PassesAll weigh 1 0 1 readings.flatten ∧
        let inserted :=
          View.insertAll weigh ⟨Forest.sapling 0, (Forest.run weigh Forest.oneLeaf).caches⟩
            (pairs readings.flatten)
        inserted.2.caches.CollidesAmong weigh .binary (nodesOf readings.flatten) ∨
          inserted.1 = .ok () ∧ inserted.2.trie.root = 1 := by
  obtain ⟨after, hrun, puts, keeps⟩ := satisfies_oneSlot
  have recording : oneRoot.kind ≠ .witness := by decide
  let run (w : Assignment .pallasBase) (hw : Satisfies weigh w (oneRoot.since after)) :
      StepRun weigh .binary 1 :=
    ⟨oneSlot, [], [⟨0, none⟩], [⟨13, none⟩], oneRoot, after, w, rfl, recording, hrun, hw⟩
  let runs := [run putsOne puts, run keepsOne keeps]
  have connects : Connects [0] runs [1] := ⟨rfl, rfl, rfl⟩
  obtain ⟨last, readings, hlast, _, passes, native⟩ :=
    connects_sound weigh .binary 1 0 runs [1] connects
  obtain rfl := List.singleton_inj.mp hlast
  have held : (⟨.binary, Forest.sapling 0, []⟩ : Member .pallasBase) ∈
      (Forest.run weigh Forest.oneLeaf).held := by
    rw [Forest.run_oneLeaf]
    exact List.mem_cons_self ..
  exact ⟨runs, readings, rfl, passes,
    native Forest.oneLeaf (Forest.sapling 0) [] held rfl rfl⟩

end StepRun

end PoseidonTrie
