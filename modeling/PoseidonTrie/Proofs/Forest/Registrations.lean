import PoseidonTrie.Proofs.Fold.Failure
import PoseidonTrie.Proofs.Fold.Work
import PoseidonTrie.Proofs.Forest.Basic
import PoseidonTrie.Proofs.Trie.Rebuild

namespace PoseidonTrie

variable {f : PrimeField} {a : Arity} {H : Hasher f}

namespace View

variable {v : View f a} {pairs pairs' : List (Element f × Element f)}

/-- The new paths of pairs that are inserted in order, up to the first that is refused. A pair that
changes nothing has none. -/
def newPaths (H : Hasher f) (v : View f a) :
    (pairs : List (Element f × Element f)) → List (List (Node f a.width))
  | [] => []
  | (key, value) :: pairs =>
    match v.proveInsert H key value with
    | (.error _, _) => []
    | (.ok (proof, changed), v) =>
      (if changed then [proof.new.nodes] else []) ++ v.newPaths H pairs

theorem newPaths_append (h : (v.insertAll H pairs).1 = .ok ()) :
    v.newPaths H (pairs ++ pairs') =
      v.newPaths H pairs ++ (v.insertAll H pairs).2.newPaths H pairs' := by
  induction pairs generalizing v with
  | nil => rfl
  | cons pair pairs ih =>
    rw [List.cons_append]
    rcases hp : v.proveInsert H pair.1 pair.2 with ⟨e | r, v'⟩
    · simp [insertAll, View.insert, hp, Except.map] at h
    · rw [insertAll_cons_of_proveInsert hp] at h ⊢
      simp only [newPaths, hp, ih h, List.append_assoc]

theorem newPaths_append_of_error {e : TrieError f} (h : (v.insertAll H pairs).1 = .error e) :
    v.newPaths H (pairs ++ pairs') = v.newPaths H pairs := by
  induction pairs generalizing v with
  | nil => cases h
  | cons pair pairs ih =>
    rw [List.cons_append]
    rcases hp : v.proveInsert H pair.1 pair.2 with ⟨e | r, v'⟩
    · simp only [newPaths, hp]
    · rw [insertAll_cons_of_proveInsert hp] at h
      simp only [newPaths, hp, ih h]

/-- What inserting the pairs registers, each path from the leaf up. -/
def registrations (H : Hasher f) (v : View f a) (pairs : List (Element f × Element f)) :
    List (Registration f) :=
  (v.newPaths H pairs).flatMap (Registration.upward a)

end View

theorem Registration.upward_emptyNodes (height : Nat) :
    Registration.upward a (emptyNodes H a height) =
      (List.range height).map fun i => ⟨⟨a, topNode H a i (noLeaves f)⟩, i + 1⟩ := by
  induction height with
  | zero => rfl
  | succ height ih =>
    have top : emptyNodes H a (height + 1) =
        topNode H a height (noLeaves f) :: emptyNodes H a height := by
      simp [emptyNodes, List.range_succ]
    rw [top, Registration.upward, ih, length_emptyNodes, List.range_succ, List.map_append]
    rfl

namespace Work

variable {c : Caches f} {t : Trie f a} {pairs : List (Element f × Element f)}

theorem noted_registerEmpty (hc : c.digests.Correct H) (low n : Nat) :
    (registerEmpty a low (commit H a low (noLeaves f)) n).noted H c =
      (List.range n).map fun i => ⟨⟨a, topNode H a (low + i) (noLeaves f)⟩, low + i + 1⟩ := by
  induction n generalizing c low with
  | zero => rfl
  | succ n ih =>
    have above := ih (Caches.correct_register hc (topNode H a low (noLeaves f))) (low + 1)
    rw [registerEmpty, noted_bind, noted_register, run_register, ← topNode_noLeaves]
    have digest : (c.register H a (topNode H a low (noLeaves f))).1 =
        commit H a (low + 1) (noLeaves f) := by
      rw [Caches.register_eq hc, commit_succ]
    rw [digest, above, List.range_succ_eq_map]
    simp [Function.comp_def, Nat.add_assoc, Nat.add_comm 1]

theorem noted_withHeight (hc : c.digests.Correct H) (height : Nat) :
    (withHeight a height).noted H c =
      match ((withHeight a height).run H c).1 with
      | .ok t => Registration.upward a (emptyNodes H a t.height)
      | .error _ => [] := by
  unfold withHeight
  by_cases h : 0 < height ∧ height ≤ fullHeight f a
  · rw [dif_pos h]
    obtain ⟨pos, le⟩ := h
    have noted : (registerEmpty a 0 0 height).noted H c = _ := noted_registerEmpty hc 0 height
    simp only [empty, noted_bind, noted, noted_pure, run_bind, run_pure,
      Registration.upward_emptyNodes, List.append_nil, Nat.zero_add]
  · rw [dif_neg h]
    rfl

theorem noted_create (hc : c.digests.Correct H) (width : Nat) (extent : Extent) :
    (create width extent).noted H c =
      match (AnyTrie.create H c width extent).1 with
      | .ok m => Registration.upward m.arity (emptyNodes H m.arity m.trie.height)
      | .error _ => [] := by
  rw [← run_create, create]
  cases Arity.require (f := f) width with
  | error e => rfl
  | ok a =>
    have made : (createTrie a extent).noted H c =
        match ((createTrie a extent).run H c).1 with
        | .ok t => Registration.upward a (emptyNodes H a t.height)
        | .error _ => [] := by
      cases extent <;> exact noted_withHeight hc _
    simp only [noted_bind, made, noted_pure, List.append_nil, run_bind, run_pure]
    cases ((createTrie a extent).run H c).1 <;> rfl

@[simp] theorem noted_descend (root : Element f) (path : List (Fin a.width)) :
    (descend root path).noted H c = [] := by
  induction path generalizing root with
  | nil => rfl
  | cons k path ih =>
    rw [descend, noted_find]
    cases c.preimages.find? a root with
    | none => rfl
    | some node => simp only [noted_bind, ih, noted_pure, List.append_nil]

theorem length_rebuild (value : Element f) (steps : List (Fin a.width × Node f a.width)) :
    (c.rebuild H value steps).2.1.length = steps.length := by
  induction steps with
  | nil => rfl
  | cons step steps ih => exact congrArg (· + 1) ih

theorem noted_rebuild (value : Element f) (steps : List (Fin a.width × Node f a.width)) :
    (rebuild value steps).noted H c = Registration.upward a (c.rebuild H value steps).2.1 := by
  induction steps with
  | nil => rfl
  | cons step steps ih =>
    simp only [rebuild, noted_bind, ih, run_rebuild, noted_register, noted_pure, Caches.rebuild,
      Registration.upward, length_rebuild, List.append_nil]

theorem noted_insertAt (path : List (Fin a.width)) (value : Element f) :
    (insertAt t path value).noted H c =
      match (View.insertAt H ⟨t, c⟩ path value).1 with
      | .ok (proof, true) => Registration.upward a proof.new.nodes
      | _ => [] := by
  simp only [insertAt, noted_bind, noted_descend, run_descend, View.insertAt]
  cases c.preimages.descend t.root path with
  | error e => rfl
  | ok nodes =>
    by_cases same : LookupProof.payloadAt ⟨nodes⟩ path = value
    · simp only [if_pos same]
      rfl
    · simp only [if_neg same, noted_bind, noted_rebuild, noted_pure, List.nil_append,
        List.append_nil]

theorem noted_proveInsert (key value : Element f) :
    (proveInsert t key value).noted H c = View.registrations H ⟨t, c⟩ [(key, value)] := by
  rw [View.registrations, View.newPaths, View.proveInsert, proveInsert]
  by_cases hv : value = 0
  · rw [if_pos hv, if_pos hv]
    rfl
  · rw [if_neg hv, if_neg hv]
    cases t.path key with
    | error e => rfl
    | ok path =>
      dsimp only
      rw [noted_insertAt]
      rcases View.insertAt H ⟨t, c⟩ path value with ⟨e | ⟨proof, _ | _⟩, v⟩ <;> simp [View.newPaths]

theorem noted_insertSlots (pairs : List (Element f × Element f)) :
    (insertSlots t pairs).noted H c = View.registrations H ⟨t, c⟩ pairs := by
  induction pairs generalizing t c with
  | nil => rfl
  | cons pair pairs ih =>
    obtain ⟨key, value⟩ := pair
    simp only [insertSlots, noted_bind, noted_proveInsert, run_proveInsert, View.registrations,
      View.newPaths]
    rcases View.proveInsert H ⟨t, c⟩ key value with ⟨e | r, v⟩
    · rfl
    · simp only [View.parts, noted_bind, ih, noted_pure, View.registrations]
      simp

@[simp] theorem noted_padSlots (size : Nat) (slots : List (Slot f a.width)) :
    (padSlots t size slots).noted H c = [] := by
  have found : (proveLookup t 0).noted H c = [] := by
    unfold proveLookup
    cases t.path 0 with
    | error e => rfl
    | ok path => simp only [noted_bind, noted_descend, noted_pure, List.append_nil]
  unfold padSlots
  split
  · simp only [noted_bind, found, noted_pure, List.append_nil]
  · rfl

/-- The padding of a step registers nothing. Where it fails, no pair is left. -/
theorem noted_packSteps (m : Nat) (pairs : List (Element f × Element f)) :
    (packSteps (m + 1) t (pieces m pairs)).noted H c = View.registrations H ⟨t, c⟩ pairs := by
  induction pairs using pieces.induct m generalizing t c with
  | case1 =>
    rw [pieces]
    rfl
  | case2 pair pairs ih =>
    have split : pair :: pairs = (pair :: pairs.take m) ++ pairs.drop m := by
      rw [List.cons_append, List.take_append_drop]
    obtain ⟨hview, hres⟩ := View.insertSlots_eq (H := H) (v := ⟨t, c⟩) (pair :: pairs.take m)
    rw [View.pieces_cons, packSteps]
    simp only [noted_bind, noted_insertSlots, run_insertSlots]
    rcases hslots : View.insertSlots H ⟨t, c⟩ (pair :: pairs.take m) with ⟨e | slots, v₁⟩
    · rw [hslots] at hres
      rw [split, View.registrations, View.registrations, View.newPaths_append_of_error hres.symm]
      exact List.append_nil _
    · rw [hslots] at hview hres
      have later : View.registrations H ⟨t, c⟩ (pair :: pairs) =
          View.registrations H ⟨t, c⟩ (pair :: pairs.take m) ++
            v₁.registrations H (pairs.drop m) := by
        rw [split, View.registrations, View.newPaths_append hres.symm, List.flatMap_append, ← hview]
        rfl
      rw [later]
      simp only [View.parts, noted_bind, noted_padSlots, run_padSlots, List.nil_append]
      congr 1
      cases hpad : v₁.padSlots (m + 1) slots with
      | error e =>
        obtain ⟨few, -⟩ := View.padSlots_eq_error hpad
        rw [(View.insertSlots_records hslots).length_eq, List.length_cons, List.length_take] at few
        -- Padding is missing in the last step alone.
        have last : pairs.drop m = [] := List.drop_of_length_le (by omega)
        rw [last]
        rfl
      | ok padded => simp only [noted_bind, ih, noted_pure, List.append_nil]

theorem noted_fold (pairs : List (Element f × Element f)) (batch : Nat) :
    (fold t pairs batch).noted H c =
      match pairs.forM fun (key, value) => View.admits ⟨t, c⟩ key value with
      | .ok _ => View.registrations H ⟨t, c⟩ pairs
      | .error _ => [] := by
  have checks : (fun (key, value) => View.admits ⟨t, c⟩ key value) =
      fun (key, value) => View.admits ⟨t, .empty⟩ key value := rfl
  obtain ⟨m, hm⟩ := View.exists_size batch
  rw [fold, checks]
  cases pairs.forM fun (key, value) => View.admits ⟨t, .empty⟩ key value with
  | error e => rfl
  | ok _ =>
    simp only [hm, Nat.add_sub_cancel, noted_bind, noted_packSteps]
    split <;> exact List.append_nil _

end Work

namespace Forest

/-- What an act does with the caches, call by call. -/
def actWork (m : Member f) : Act f → Work f Unit
  | .insert key value => do let _ ← Work.insert m.trie key value
  | .proveInsert key value => do let _ ← Work.proveInsert m.trie key value
  | .fold pairs batch => do let _ ← Work.fold m.trie pairs batch
  | .drop | .reopen _ => pure ()

/-- What an operation does with the caches, call by call. -/
def work (s : Forest f) : Op f → Work f Unit
  | .create width extent => do let _ ← Work.create width extent
  | .act i act =>
    match s.live[i]? with
    | none => pure ()
    | some m => actWork m act

/-- What an operation registers, told from its answers. -/
def registrations (H : Hasher f) (s : Forest f) : Op f → List (Registration f)
  | .create width extent =>
    match (AnyTrie.create H s.caches width extent).1 with
    | .ok m => Registration.upward m.arity (emptyNodes H m.arity m.trie.height)
    | .error _ => []
  | .act i act =>
    match s.live[i]? with
    | none => []
    | some m =>
      match act with
      | .insert key value | .proveInsert key value =>
        (m.view s.caches).registrations H [(key, value)]
      | .fold pairs _ =>
        match pairs.forM fun (key, value) => (m.view s.caches).admits key value with
        | .ok _ => (m.view s.caches).registrations H pairs
        | .error _ => []
      | .drop | .reopen _ => []

theorem run_actWork (s : Forest f) (i : Nat) (m : Member f) (act : Act f) :
    ((actWork m act).run H s.caches).2 = (s.act H i m act).caches := by
  cases act with
  | insert key value =>
    simp only [actWork, Work.run_bind, Work.run_insert]
    rfl
  | proveInsert key value =>
    simp only [actWork, Work.run_bind, Work.run_proveInsert]
    rfl
  | fold pairs batch =>
    simp only [actWork, Work.run_bind, Work.run_fold]
    rfl
  | drop => rfl
  | reopen root =>
    rw [act]
    split <;> rfl

theorem run_work (s : Forest f) (op : Op f) :
    ((s.work op).run H s.caches).2 = (s.step H op).caches := by
  cases op with
  | create width extent =>
    simp only [work, Work.run_bind, Work.run_create, step]
    rcases AnyTrie.create H s.caches width extent with ⟨e | t, c⟩ <;> rfl
  | act i act =>
    rw [work, step]
    cases s.live[i]? with
    | none => rfl
    | some m => exact run_actWork s i m act

theorem noted_work {s : Forest f} (hc : s.caches.digests.Correct H) (op : Op f) :
    (s.work op).noted H s.caches = s.registrations H op := by
  cases op with
  | create width extent =>
    rw [work, registrations, Work.noted_bind, Work.noted_create hc]
    exact List.append_nil _
  | act i act =>
    rw [work, registrations]
    cases s.live[i]? with
    | none => rfl
    | some m =>
      cases act with
      | insert key value =>
        simp only [actWork, Work.insert, Work.noted_bind, Work.noted_proveInsert, Work.noted_pure,
          List.append_nil]
        rfl
      | proveInsert key value =>
        simp only [actWork, Work.noted_bind, Work.noted_proveInsert, Work.noted_pure,
          List.append_nil]
        rfl
      | fold pairs batch =>
        simp only [actWork, Work.noted_bind, Work.noted_fold, Work.noted_pure, List.append_nil]
        rfl
      | drop => rfl
      | reopen root => rfl

end Forest

end PoseidonTrie
