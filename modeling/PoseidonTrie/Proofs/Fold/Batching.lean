import PoseidonTrie.Proofs.Forest.Persistence
import PoseidonTrie.Proofs.Trie.Descent

/-! Batches against single insertions, whatever the root and the caches. A fold does what inserting
its pairs one by one does, and its steps keep a record of that: a slot for each pair, each with the
path that the insertion met, and padding at the very end. -/
namespace PoseidonTrie

variable {f : PrimeField} {a : Arity} {H : Hasher f}

/-- A slot that inserts a pair along a path. -/
def Slot.inserting {n : Nat} (key value : Element f) (nodes : List (Node f n)) : Slot f n :=
  ⟨some key, some value, some nodes, some true⟩

/-- Every step starts from the root that the one before ends at. -/
def Step.Chain {n : Nat} (z : Element f) : (steps : List (Step f n)) → (z' : Element f) → Prop
  | [], z' => z' = z
  | s :: steps, z' => s.oldRoot = some z ∧ ∃ next, s.newRoot = some next ∧ Chain next steps z'

namespace View

variable {v v₁ after : View f a} {pairs pairs' : List (Element f × Element f)}
  {pair : Element f × Element f} {slots slots' padded : List (Slot f a.width)}
  {steps : List (Step f a.width)} {size m : Nat}

theorem insertAll_cons_of_proveInsert {r : InsertProof f a × Bool}
    (h : v.proveInsert H pair.1 pair.2 = (.ok r, v₁)) :
    v.insertAll H (pair :: pairs) = v₁.insertAll H pairs := by
  simp only [insertAll, View.insert, h, Except.map]

theorem insertAll_append_eq_ok :
    v.insertAll H (pairs ++ pairs') = (.ok (), after) ↔
      ∃ v₁, v.insertAll H pairs = (.ok (), v₁) ∧ v₁.insertAll H pairs' = (.ok (), after) := by
  induction pairs generalizing v with
  | nil =>
    constructor
    · exact fun h => ⟨v, rfl, h⟩
    · rintro ⟨v₁, ⟨⟩, h⟩
      exact h
  | cons pair pairs ih =>
    rw [List.cons_append]
    rcases proveInsert_cases (H := H) (v := v) pair.1 pair.2 with ⟨e, he⟩ | ⟨r, v₁, hok, _⟩
    · simp [insertAll, View.insert, he, Except.map]
    · rw [insertAll_cons_of_proveInsert hok, insertAll_cons_of_proveInsert hok, ih]

theorem insertSlots_cons_eq_ok :
    v.insertSlots H (pair :: pairs) = (.ok slots, after) ↔
      ∃ r v₁ rest, v.proveInsert H pair.1 pair.2 = (.ok r, v₁) ∧
        v₁.insertSlots H pairs = (.ok rest, after) ∧
          slots = .inserting pair.1 pair.2 r.1.old.nodes :: rest := by
  obtain ⟨key, value⟩ := pair
  rw [insertSlots]
  constructor
  · intro h
    rcases hp : v.proveInsert H key value with ⟨_ | r, v₁⟩
    · rw [hp] at h
      cases h
    · rcases hrest : v₁.insertSlots H pairs with ⟨_ | rest, v₂⟩
      · simp [hp, hrest, Except.map] at h
      · simp only [hp, hrest, Except.map] at h
        cases h
        exact ⟨r, v₁, rest, rfl, hrest, rfl⟩
  · rintro ⟨r, v₁, rest, hp, hrest, rfl⟩
    simp only [hp, hrest]
    rfl

theorem insertSlots_eq_ok :
    (∃ slots, v.insertSlots H pairs = (.ok slots, after)) ↔
      v.insertAll H pairs = (.ok (), after) := by
  obtain ⟨hview, hres⟩ := insertSlots_eq (H := H) (v := v) pairs
  rw [Prod.ext_iff, ← hview, ← hres]
  rcases v.insertSlots H pairs with ⟨_ | slots, v₁⟩
  · simp [Except.map]
  · simp [Except.map]

theorem padSlots_eq_ok :
    v.padSlots size slots = .ok padded ↔
      (size ≤ slots.length ∧ padded = slots) ∨
        (slots.length < size ∧ ∃ proof, v.proveLookup 0 = .ok proof ∧
          padded = slots ++ List.replicate (size - slots.length) (.padding proof.nodes)) := by
  rw [padSlots]
  by_cases hlt : slots.length < size
  · have few : ¬ size ≤ slots.length := Nat.not_le.mpr hlt
    cases hproof : v.proveLookup 0 with
    | error e => simp [Except.map, hlt, few]
    | ok proof => simp [Except.map, hlt, few, eq_comm]
  · simp [hlt, eq_comm, Nat.le_of_not_lt hlt]

theorem packSteps_cons_eq_ok {groups : List (List (Element f × Element f))} :
    v.packSteps H size (pairs :: groups) = (.ok steps, after) ↔
      ∃ slots v₁ padded rest, v.insertSlots H pairs = (.ok slots, v₁) ∧
        v₁.padSlots size slots = .ok padded ∧ v₁.packSteps H size groups = (.ok rest, after) ∧
          steps = ⟨v₁.trie.height, padded, some v.trie.root, some v₁.trie.root⟩ :: rest := by
  rw [packSteps]
  constructor
  · intro h
    rcases hslots : v.insertSlots H pairs with ⟨_ | slots, v₁⟩
    · rw [hslots] at h
      cases h
    · cases hpad : v₁.padSlots size slots with
      | error e => simp [hslots, hpad] at h
      | ok padded =>
        rcases hrest : v₁.packSteps H size groups with ⟨_ | rest, v₂⟩
        · simp [hslots, hpad, hrest, Except.map] at h
        · simp only [hslots, hpad, hrest, Except.map] at h
          cases h
          exact ⟨slots, v₁, padded, rest, rfl, hpad, hrest, rfl⟩
  · rintro ⟨slots, v₁, padded, rest, hslots, hpad, hrest, rfl⟩
    simp only [hslots, hpad, hrest]
    rfl

/-- The slots of pairs inserted in order: one for each, with the nodes on the path of its key just
before it goes in. -/
structure Records (H : Hasher f) (v : View f a) (pairs : List (Element f × Element f))
    (slots : List (Slot f a.width)) : Prop where
  length_eq : slots.length = pairs.length
  slot : ∀ i pair, pairs[i]? = some pair →
    ∃ proof, (v.insertAll H (pairs.take i)).2.proveLookup pair.1 = .ok proof ∧
      slots[i]? = some (.inserting pair.1 pair.2 proof.nodes)

namespace Records

theorem nil : Records H v [] [] :=
  ⟨rfl, fun i pair h => by simp at h⟩

theorem append (h : Records H v pairs slots) (hins : v.insertAll H pairs = (.ok (), v₁))
    (h' : Records H v₁ pairs' slots') : Records H v (pairs ++ pairs') (slots ++ slots') := by
  refine ⟨?_, ?_⟩
  · rw [List.length_append, List.length_append, h.length_eq, h'.length_eq]
  · intro i pair hpair
    by_cases hi : i < pairs.length
    · rw [List.getElem?_append_left hi] at hpair
      obtain ⟨proof, hproof, hslot⟩ := h.slot i pair hpair
      refine ⟨proof, ?_, ?_⟩
      · rwa [List.take_append_of_le_length (Nat.le_of_lt hi)]
      · rwa [List.getElem?_append_left (h.length_eq ▸ hi)]
    · have hle : pairs.length ≤ i := Nat.le_of_not_lt hi
      rw [List.getElem?_append_right hle] at hpair
      obtain ⟨proof, hproof, hslot⟩ := h'.slot _ pair hpair
      have first : (v.insertAll H pairs).1 = .ok () := by rw [hins]
      refine ⟨proof, ?_, ?_⟩
      · rw [List.take_append, List.take_of_length_le hle, insertAll_append _ _ first, hins]
        exact hproof
      · rwa [List.getElem?_append_right (h.length_eq ▸ hle), h.length_eq]

end Records

theorem insertSlots_records (h : v.insertSlots H pairs = (.ok slots, after)) :
    Records H v pairs slots := by
  induction pairs generalizing v slots with
  | nil =>
    cases h
    exact .nil
  | cons pair pairs ih =>
    obtain ⟨r, v₁, rest, hprove, hrest, rfl⟩ := insertSlots_cons_eq_ok.mp h
    have one : Records H v [pair] [.inserting pair.1 pair.2 r.1.old.nodes] := by
      refine ⟨rfl, ?_⟩
      rintro (_ | i) p hp
      · obtain rfl : pair = p := by simpa using hp
        exact ⟨r.1.old, proveLookup_eq_ok.mpr (proveInsert_eq_ok hprove).2, rfl⟩
      · simp at hp
    have inserted : v.insertAll H [pair] = (.ok (), v₁) := insertAll_cons_of_proveInsert hprove
    exact one.append inserted (ih hrest)

/-- Steps that insert pairs in order from one root to another. Padding shows the key zero under the
last root, and there is less of it than a step holds. -/
structure Packs (H : Hasher f) (v after : View f a) (pairs : List (Element f × Element f))
    (size : Nat) (steps : List (Step f a.width)) : Prop where
  full : ∀ s ∈ steps, s.slots.length = size
  slots : ∃ active k nodes,
    steps.flatMap (·.slots) = active ++ List.replicate k (.padding nodes) ∧
      Records H v pairs active ∧ k < size ∧ (0 < k → after.proveLookup 0 = .ok ⟨nodes⟩)
  chain : Step.Chain v.trie.root steps after.trie.root

theorem Packs.cons {rest : List (Step f a.width)} (hslots : v.insertSlots H pairs = (.ok slots, v₁))
    (hlen : slots.length = size) (h : Packs H v₁ after pairs' size rest) :
    Packs H v after (pairs ++ pairs') size
      (⟨v₁.trie.height, slots, some v.trie.root, some v₁.trie.root⟩ :: rest) := by
  obtain ⟨active, k, nodes, hflat, hrecords, hk, hpadding⟩ := h.slots
  refine ⟨List.forall_mem_cons.mpr ⟨hlen, h.full⟩,
    ⟨slots ++ active, k, nodes, ?_, ?_, hk, hpadding⟩, rfl, v₁.trie.root, rfl, h.chain⟩
  · rw [List.flatMap_cons, hflat, List.append_assoc]
  · exact (insertSlots_records hslots).append (insertSlots_eq_ok.mp ⟨_, hslots⟩) hrecords

theorem Packs.last {proof : LookupProof f a} (hslots : v.insertSlots H pairs = (.ok slots, after))
    (hlen : 0 < slots.length ∧ slots.length < size) (hproof : after.proveLookup 0 = .ok proof) :
    Packs H v after pairs size
      [⟨after.trie.height,
        slots ++ List.replicate (size - slots.length) (.padding proof.nodes),
        some v.trie.root, some after.trie.root⟩] := by
  refine ⟨?_, ⟨slots, size - slots.length, proof.nodes, ?_, insertSlots_records hslots, ?_, ?_⟩,
    rfl, after.trie.root, rfl, rfl⟩
  · intro s hs
    obtain rfl := List.mem_singleton.mp hs
    rw [List.length_append, List.length_replicate]
    omega
  · rw [List.flatMap_singleton]
  · omega
  · exact fun _ => hproof

theorem pieces_cons {α : Type} (m : Nat) (x : α) (xs : List α) :
    pieces m (x :: xs) = (x :: xs.take m) :: pieces m (xs.drop m) := by
  rw [pieces]

theorem length_insertSlots_take (hle : m ≤ pairs.length)
    (h : v.insertSlots H (pair :: pairs.take m) = (.ok slots, v₁)) : slots.length = m + 1 := by
  rw [(insertSlots_records h).length_eq, List.length_cons, List.length_take_of_le hle]

/-- Nothing is padded while there are pairs for a whole step. -/
theorem packSteps_pieces_of_le (hle : m ≤ pairs.length) :
    v.packSteps H (m + 1) (pieces m (pair :: pairs)) = (.ok steps, after) ↔
      ∃ slots v₁ rest, v.insertSlots H (pair :: pairs.take m) = (.ok slots, v₁) ∧
        v₁.packSteps H (m + 1) (pieces m (pairs.drop m)) = (.ok rest, after) ∧
          steps = ⟨v₁.trie.height, slots, some v.trie.root, some v₁.trie.root⟩ :: rest := by
  rw [pieces_cons, packSteps_cons_eq_ok]
  constructor
  · rintro ⟨slots, v₁, padded, rest, hslots, hpad, hrest, rfl⟩
    obtain ⟨-, rfl⟩ | ⟨few, -⟩ := padSlots_eq_ok.mp hpad
    · exact ⟨padded, v₁, rest, hslots, hrest, rfl⟩
    · rw [length_insertSlots_take hle hslots] at few
      exact (Nat.lt_irrefl _ few).elim
  · rintro ⟨slots, v₁, rest, hslots, hrest, rfl⟩
    have whole : m + 1 ≤ slots.length := Nat.le_of_eq (length_insertSlots_take hle hslots).symm
    exact ⟨slots, v₁, slots, rest, hslots, padSlots_eq_ok.mpr (Or.inl ⟨whole, rfl⟩), hrest, rfl⟩

/-- Pairs for less than a step are padded, for which key zero needs a path at the end. -/
theorem packSteps_pieces_of_lt (hlt : pairs.length < m) :
    v.packSteps H (m + 1) (pieces m (pair :: pairs)) = (.ok steps, after) ↔
      ∃ slots proof, v.insertSlots H (pair :: pairs) = (.ok slots, after) ∧
        after.proveLookup 0 = .ok proof ∧
          steps = [⟨after.trie.height,
            slots ++ List.replicate (m + 1 - slots.length) (.padding proof.nodes),
            some v.trie.root, some after.trie.root⟩] := by
  have hle : pairs.length ≤ m := Nat.le_of_lt hlt
  rw [pieces_cons, List.take_of_length_le hle, List.drop_of_length_le hle, pieces,
    packSteps_cons_eq_ok]
  constructor
  · rintro ⟨slots, v₁, padded, rest, hslots, hpad, hrest, rfl⟩
    cases hrest
    obtain ⟨enough, -⟩ | ⟨-, proof, hproof, rfl⟩ := padSlots_eq_ok.mp hpad
    · rw [(insertSlots_records hslots).length_eq, List.length_cons] at enough
      omega
    · exact ⟨slots, proof, hslots, hproof, rfl⟩
  · rintro ⟨slots, proof, hslots, hproof, rfl⟩
    have short : slots.length < m + 1 := by
      rw [(insertSlots_records hslots).length_eq]
      exact Nat.succ_lt_succ hlt
    exact ⟨slots, after, _, [], hslots, padSlots_eq_ok.mpr (Or.inr ⟨short, proof, hproof, rfl⟩),
      rfl, rfl⟩

theorem packSteps_packs (h : v.packSteps H (m + 1) (pieces m pairs) = (.ok steps, after)) :
    Packs H v after pairs (m + 1) steps := by
  induction pairs using pieces.induct m generalizing v steps with
  | case1 =>
    rw [pieces] at h
    cases h
    exact ⟨by simp, ⟨[], 0, [], rfl, .nil, Nat.succ_pos m,
      fun pos => absurd pos (Nat.lt_irrefl 0)⟩, rfl⟩
  | case2 pair pairs ih =>
    by_cases hle : m ≤ pairs.length
    · obtain ⟨slots, v₁, rest, hslots, hrest, rfl⟩ := (packSteps_pieces_of_le hle).mp h
      have packed := Packs.cons hslots (length_insertSlots_take hle hslots) (ih hrest)
      rwa [List.cons_append, List.take_append_drop] at packed
    · have hlt : pairs.length < m := Nat.lt_of_not_le hle
      obtain ⟨slots, proof, hslots, hproof, rfl⟩ := (packSteps_pieces_of_lt hlt).mp h
      apply Packs.last hslots _ hproof
      rw [(insertSlots_records hslots).length_eq]
      exact ⟨Nat.succ_pos _, Nat.succ_lt_succ hlt⟩

/-- Packing succeeds exactly if the insertions do, and key zero has a path where the last step is
not full. -/
theorem packSteps_pieces_eq_ok :
    (∃ steps, v.packSteps H (m + 1) (pieces m pairs) = (.ok steps, after)) ↔
      v.insertAll H pairs = (.ok (), after) ∧
        (¬ m + 1 ∣ pairs.length → ∃ proof, after.proveLookup 0 = .ok proof) := by
  induction pairs using pieces.induct m generalizing v with
  | case1 =>
    rw [pieces]
    simp [packSteps, insertAll]
  | case2 pair pairs ih =>
    by_cases hle : m ≤ pairs.length
    -- A whole step first, which changes nothing about what is left over at the end.
    · have split : pair :: pairs = (pair :: pairs.take m) ++ pairs.drop m := by
        rw [List.cons_append, List.take_append_drop]
      have count : (pair :: pairs).length = (pairs.drop m).length + (m + 1) := by
        rw [List.length_cons, List.length_drop]
        omega
      simp only [packSteps_pieces_of_le hle]
      rw [count, Nat.dvd_add_left (Nat.dvd_refl _), split, insertAll_append_eq_ok]
      constructor
      · rintro ⟨steps, slots, v₁, rest, hslots, hrest, -⟩
        obtain ⟨hins, hzero⟩ := ih.mp ⟨rest, hrest⟩
        exact ⟨⟨v₁, insertSlots_eq_ok.mp ⟨slots, hslots⟩, hins⟩, hzero⟩
      · rintro ⟨⟨v₁, hfirst, hins⟩, hzero⟩
        obtain ⟨slots, hslots⟩ := insertSlots_eq_ok.mpr hfirst
        obtain ⟨rest, hrest⟩ := ih.mpr ⟨hins, hzero⟩
        exact ⟨_, slots, v₁, rest, hslots, hrest, rfl⟩
    -- The last step, which is not full.
    · have hlt : pairs.length < m := Nat.lt_of_not_le hle
      have short : ¬ m + 1 ∣ (pair :: pairs).length := by
        intro hdvd
        have : m + 1 ≤ pairs.length + 1 := Nat.le_of_dvd (Nat.succ_pos _) hdvd
        omega
      simp only [packSteps_pieces_of_lt hlt]
      rw [← insertSlots_eq_ok]
      constructor
      · rintro ⟨steps, slots, proof, hslots, hproof, -⟩
        exact ⟨⟨slots, hslots⟩, fun _ => ⟨proof, hproof⟩⟩
      · rintro ⟨⟨slots, hslots⟩, hzero⟩
        obtain ⟨proof, hproof⟩ := hzero short
        exact ⟨_, slots, proof, hslots, hproof, rfl⟩

theorem Packs.count (h : Packs H v after pairs size steps) :
    steps.length = (pairs.length + size - 1) / size := by
  obtain ⟨active, k, nodes, hflat, hrecords, hk, -⟩ := h.slots
  have total : steps.length * size = pairs.length + k := by
    have counted := congrArg List.length hflat
    rw [List.length_flatMap, List.map_congr_left h.full, List.map_const', List.sum_replicate_nat,
      List.length_append, List.length_replicate, hrecords.length_eq] at counted
    exact counted
  symm
  apply Nat.div_eq_of_lt_le
  · omega
  · rw [Nat.add_mul, Nat.one_mul]
    omega

theorem Packs.eq_nil (h : Packs H v after pairs size []) : pairs = [] := by
  obtain ⟨active, k, nodes, hflat, hrecords, -⟩ := h.slots
  have none : active = [] := (List.append_eq_nil_iff.mp hflat.symm).1
  exact List.length_eq_zero_iff.mp (hrecords.length_eq.symm.trans (by rw [none, List.length_nil]))

theorem fold_eq_ok {batch : Nat} (hm : max batch 1 = m + 1) :
    v.fold H pairs batch = (.ok steps, after) ↔
      (∀ p ∈ pairs, Insertable (a.width ^ v.trie.height) p) ∧
        v.packSteps H (m + 1) (pieces m pairs) = (.ok steps, after) := by
  rw [← forM_admits_eq_ok, fold, hm]
  simp only [Nat.add_sub_cancel]
  split
  · rename_i refused
    simp [refused]
  · rename_i admitted
    rw [admitted]
    rcases hpack : v.packSteps H (m + 1) (pieces m pairs) with ⟨_ | _, v₁⟩
    · simp
    · simp

theorem exists_size (batch : Nat) : ∃ m, max batch 1 = m + 1 :=
  ⟨max batch 1 - 1, by omega⟩

theorem exists_fold_eq_ok {batch : Nat} :
    (∃ steps, v.fold H pairs batch = (.ok steps, after)) ↔
      (∀ p ∈ pairs, Insertable (a.width ^ v.trie.height) p) ∧
        v.insertAll H pairs = (.ok (), after) ∧
          (¬ max batch 1 ∣ pairs.length → ∃ proof, after.proveLookup 0 = .ok proof) := by
  obtain ⟨m, hm⟩ := exists_size batch
  simp only [fold_eq_ok hm]
  rw [exists_and_left, packSteps_pieces_eq_ok, hm]

theorem fold_packs {batch : Nat} (h : v.fold H pairs batch = (.ok steps, after)) :
    Packs H v after pairs (max batch 1) steps := by
  obtain ⟨m, hm⟩ := exists_size batch
  rw [hm]
  exact packSteps_packs ((fold_eq_ok hm).mp h).2

/-- A fold refines insertions one by one, for every size of batch. It succeeds exactly if every pair
can be inserted, the insertions succeed in order, and key zero has a path afterwards where the last
step is not full. Then it leaves what they do, root and caches, and its steps record them. -/
theorem fold_refines (H : Hasher f) (v : View f a) (pairs : List (Element f × Element f))
    (batch : Nat) :
    ((∃ steps, (v.fold H pairs batch).1 = .ok steps) ↔
      (∀ p ∈ pairs, Insertable (a.width ^ v.trie.height) p) ∧
        (v.insertAll H pairs).1 = .ok () ∧
          (¬ max batch 1 ∣ pairs.length →
            ∃ proof, (v.insertAll H pairs).2.proveLookup 0 = .ok proof)) ∧
    ∀ steps after, v.fold H pairs batch = (.ok steps, after) →
      after = (v.insertAll H pairs).2 ∧
        steps.length = (pairs.length + max batch 1 - 1) / max batch 1 ∧
          Packs H v after pairs (max batch 1) steps := by
  refine ⟨?_, ?_⟩
  · constructor
    · rintro ⟨steps, h⟩
      obtain ⟨fits, hins, hzero⟩ := exists_fold_eq_ok.mp ⟨steps, Prod.ext h rfl⟩
      rw [hins]
      exact ⟨fits, rfl, hzero⟩
    · rintro ⟨fits, hins, hzero⟩
      obtain ⟨steps, h⟩ := exists_fold_eq_ok.mpr ⟨fits, Prod.ext hins rfl, hzero⟩
      exact ⟨steps, congrArg Prod.fst h⟩
  · intro steps after h
    obtain ⟨-, hins, -⟩ := exists_fold_eq_ok.mp ⟨steps, h⟩
    exact ⟨(congrArg Prod.snd hins).symm, (fold_packs h).count, fold_packs h⟩

/-- One pair goes into an empty trie, in a step of two slots. -/
theorem exists_fold_sapling :
    ∃ steps, View.fold weigh ⟨Forest.sapling 0,
        Caches.empty.registerAll weigh Forest.oneLeafNodes.tail⟩ [(1, 1)] 2 =
      (.ok steps, ⟨Forest.sapling 1, Caches.empty.registerAll weigh Forest.oneLeafNodes⟩) := by
  apply exists_fold_eq_ok.mpr
  refine ⟨?_, ?_, fun _ => ?_⟩
  · intro p hp
    obtain rfl := List.mem_singleton.mp hp
    exact ⟨by decide, by decide⟩
  · rw [insertAll, Forest.insert_sapling]
    rfl
  · have hs := Forest.sound_run weigh Forest.oneLeaf
    have unique := Forest.not_collides_oneLeaf
    have faithful := hs.faithful
    have held := hs.held
    rw [Forest.run_oneLeaf] at unique faithful held
    have member := held _ (List.mem_cons_of_mem _ (List.mem_singleton_self _))
    have fits : (0 : Element .pallasBase).val < Arity.binary.width ^ (Forest.sapling 1).height := by
      decide
    have path := View.Holds.descend (member.resolve_left unique) faithful unique fits
    exact ⟨⟨_⟩, proveLookup_eq_ok.mpr ⟨fits, path⟩⟩

/-- With two slots in a step, one pair is followed by padding. -/
theorem fold_refines_oneLeaf :
    ∃ steps, (View.fold weigh ⟨Forest.sapling 0,
        Caches.empty.registerAll weigh Forest.oneLeafNodes.tail⟩ [(1, 1)] 2).1 = .ok steps ∧
      steps.length = 1 ∧ ∀ s ∈ steps, s.slots.length = 2 := by
  obtain ⟨steps, hfold⟩ := exists_fold_sapling
  obtain ⟨-, hcount, packs⟩ := (fold_refines weigh _ _ _).2 steps _ hfold
  exact ⟨steps, congrArg Prod.fst hfold, hcount, packs.full⟩

end View

end PoseidonTrie
