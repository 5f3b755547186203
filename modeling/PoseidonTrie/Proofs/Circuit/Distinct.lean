import PoseidonTrie.Circuit.Path
import PoseidonTrie.Proofs.Circuit.Indexed
import PoseidonTrie.Proofs.Circuit.Names

namespace PoseidonTrie.Circuit

variable {f : PrimeField} {H : Hasher f} {a : Arity} {n : Nat} {ns : Path}

theorem takesOnce_allocGuarded (ns : Path) (value : Option Bool) (guard : Option Bit) :
    TakesOnce (Below ns Bit.labels) (allocGuarded (f := f) ns value guard) := by
  cases guard with
  | none => exact Bit.takesOnce_alloc ns value
  | some guard => exact Bit.takesOnce_allocUnless ns value guard

theorem takesOnce_joinRun (ns : Path) (i : Nat) (last : Option Bit) (run : List Bit) :
    TakesOnce (Below ns {.runEnding i}) (joinRun (f := f) ns i last run) := by
  cases run with
  | nil => exact takesOnce_pure _
  | cons b rest => exact ((Bit.takesOnce_andFrom _ 1 b _).enter rfl).firstDone

/-- Bits are named from the most significant one on, so those left have the larger numbers. -/
theorem takesOnce_strictBitsBelow (ns : Path) (value : Option (Element f)) (last : Option Bit)
    (run : List Bit) {pos : Nat} (hpos : pos ≤ f.numBits) :
    TakesOnce (Below ns (FromRound (f.numBits - pos))) (strictBitsBelow ns value last run pos) := by
  induction pos generalizing last run with
  | zero => exact takesOnce_pure _
  | succ pos ih =>
    have place : f.numBits - 1 - pos = f.numBits - (pos + 1) := by omega
    have next : f.numBits - pos = f.numBits - (pos + 1) + 1 := by omega
    have below (b : Bit) (last : Option Bit) (run : List Bit) :
        TakesOnce (Below ns (FromRound (f.numBits - (pos + 1) + 1)))
          (do return (← strictBitsBelow ns value last run pos) ++ [b]) :=
      next ▸ (ih last run (Nat.le_of_succ_le hpos)).done
    unfold strictBitsBelow
    dsimp only
    rw [place]
    split
    · exact ((Bit.takesOnce_alloc ..).enter rfl).firstRound rfl fun b => below b last _
    · apply ((takesOnce_joinRun ..).andThen
        (fun last => ((takesOnce_allocGuarded ..).enter rfl).first (fun b => below b last [])
          (by simp [Label.round?])) (by simp [Label.round?])).widen
      rintro l (rfl | rfl | hl)
      · exact ⟨_, rfl, Nat.le_refl _⟩
      · exact ⟨_, rfl, Nat.le_refl _⟩
      · exact fromRound_succ_subset hl

theorem takesOnce_strictBits (ns : Path) (x : Num f) :
    TakesOnce (Below ns Set.univ) (strictBits ns x) := by
  have bits := takesOnce_strictBitsBelow ns x.value none [] (Nat.le_refl f.numBits)
  exact (bits.last (fun _ => (takesOnce_enforce ..).below.done) (by simp [Label.round?])).widen
    (Set.subset_univ _)

theorem takesOnce_allocBits (ns : Path) (x : Num f) (n : Nat) :
    TakesOnce (Below ns {l | ∃ i ∈ List.range n, l = .bit i}) (allocBits ns x n) := by
  apply TakesOnce.mapM (K := fun i => {.bit i})
  · intro i _
    exact ((Bit.takesOnce_alloc ..).enter rfl).firstDone
  · exact List.nodup_range.imp fun h => by simpa using h

theorem takesOnce_numBits (ns : Path) (x : Num f) (n : Nat) :
    TakesOnce (Below ns Set.univ) (numBits ns x n) := by
  unfold numBits
  split
  · exact ((takesOnce_strictBits ..).enter rfl).firstDone.widen (Set.subset_univ _)
  · exact ((takesOnce_allocBits ..).last (fun _ => (takesOnce_enforce ..).below.done)
      (by simp)).widen (Set.subset_univ _)

theorem takesOnce_equal (path : Path) (x y : Num f) : TakesOnce (· = path) (equal path x y) :=
  takesOnce_enforce ..

theorem takesOnce_allocNode (ns : Path) (level : Nat) (node : Option (Node f a.width)) :
    TakesOnce (Below ns {l | ∃ i ∈ List.finRange a.width, l = .levelChild level i.val})
      (allocNode ns a level node) := by
  apply TakesOnce.mapM (K := fun i : Fin a.width => {.levelChild level i.val})
  · exact fun i _ => Num.takesOnce_enter rfl _
  · exact (List.nodup_finRange _).imp fun h => by simpa [Fin.val_inj] using h

theorem takesOnce_lookupLevels (ns : Path) (witness : Option (List (Node f a.width))) (level : Nat)
    (next : Num f) (digits : List (List Boolean)) :
    TakesOnce (Below ns (FromRound level)) (lookupLevels H ns a witness level next digits) := by
  induction digits generalizing level next with
  | nil => exact takesOnce_pure _
  | cons digit digits ih =>
    apply (TakesOnce.andThen (M := {.levelHash level} ∪ ({.levelCommitment level} ∪
      ({.levelSelect level} ∪ FromRound (level + 1)))) (takesOnce_allocNode ..) _ _).widen
    · rintro l (⟨i, -, rfl⟩ | rfl | rfl | rfl | hl)
      · exact ⟨level, rfl, Nat.le_refl _⟩
      · exact ⟨level, rfl, Nat.le_refl _⟩
      · exact ⟨level, rfl, Nat.le_refl _⟩
      · exact ⟨level, rfl, Nat.le_refl _⟩
      · exact fromRound_succ_subset hl
    · intro children
      apply (takesOnce_hash ..).first _ (by simp [Label.round?])
      intro commitment
      apply (takesOnce_equal ..).below.andThen _ (by simp [Label.round?])
      intro _
      apply ((takesOnce_select ..).enter rfl).first _ (by simp [Label.round?])
      intro child
      exact (ih (level + 1) child).done
    · rintro l ⟨i, -, rfl⟩
      simp [Label.round?]

theorem takesOnce_lookupPath (ns : Path) (n : Nat) (root key : Num f) (height : Nat)
    (witness : Option (List (Node f n))) :
    TakesOnce (Below ns ({.keyBits} ∪ FromRound 0))
      (lookupPath H ns n root key height witness) := by
  unfold lookupPath
  split
  · dsimp only
    split
    · exact takesOnce_fail _
    · split
      · exact takesOnce_fail _
      · exact ((takesOnce_numBits ..).enter rfl).first (fun _ => (takesOnce_lookupLevels ..).done)
          (by simp [Label.round?])
  · exact takesOnce_fail _

theorem takesOnce_pickEach (ns : Path) (level : Nat) (new : Num f) (xs : List (Num f))
    (chosen : List Boolean) :
    TakesOnce (Below ns {l | ∃ i, l = .levelNewChild level i})
      (pickEach ns level new xs chosen) := by
  apply (TakesOnce.mapM (K := fun p => {.levelNewChild level p.2}) _ ?_ ?_).widen
  · rintro l ⟨p, -, hl⟩
    exact ⟨p.2, hl⟩
  · rintro ⟨⟨x, c⟩, i⟩ _
    exact (takesOnce_pick ..).enter rfl
  · exact (pairwise_zipIdx _ 0).imp fun h => by simpa using h

theorem takesOnce_insertLevels (ns : Path) (value : Num f) (level : Nat)
    (steps : List (List (Num f) × List Boolean)) :
    TakesOnce (Below ns (FromRound level)) (insertLevels H ns a value level steps) := by
  induction steps generalizing level with
  | nil => exact takesOnce_pure _
  | cons step steps ih =>
    have here : ∀ l ∈ {l : Label | l.round? = some level}, l.round? = some level := fun _ hl => hl
    -- The levels below are rebuilt first.
    have apart : ∀ l ∈ FromRound (level + 1), l ∉ {l : Label | l.round? = some level} :=
      fun l later hl => notMem_fromRound here l hl later
    apply ((ih (level + 1)).andThen (fun below => ?_) apart).widen
      (Set.union_subset fromRound_succ_subset (subset_fromRound here))
    apply (TakesOnce.first (M := {l | ∃ i, l = .levelNewChild level i} ∪ {.levelNewHash level})
      ((takesOnce_selectors ..).enter rfl) _ (by simp)).widen
    · rintro l (rfl | ⟨i, rfl⟩ | rfl)
      · rfl
      · rfl
      · rfl
    · intro chosen
      exact (takesOnce_pickEach ..).last (fun _ => takesOnce_hash ..) (by simp)

theorem takesOnce_insertPath (ns : Path) (n : Nat) (root key value : Num f) (height : Nat)
    (witness : Option (List (Node f n))) :
    TakesOnce (Below ns ({.oldPath} ∪ ({.valueIsNonzero} ∪ FromRound 0)))
      (insertPath H ns n root key value height witness) := by
  unfold insertPath
  split
  · apply ((takesOnce_lookupPath ..).enter rfl).first
    · intro path
      exact ((takesOnce_nonzero ..).enter rfl).first (fun _ => takesOnce_insertLevels ..)
        (by simp [Label.round?])
    · simp [Label.round?]
  · exact takesOnce_fail _

end PoseidonTrie.Circuit
