import PoseidonTrie.Proofs.Cache.Memo
import PoseidonTrie.Proofs.Fold.Work

/-! Runs over any number of tries and proofs, with whatever memo. All that a memo of correct digests
changes is which digests are computed. -/
namespace PoseidonTrie

variable {f : PrimeField} {a : Arity} {H : Hasher f}

/-- Tries over one pair of caches, each known by its place. -/
structure Shelf (f : PrimeField) where
  caches : Caches f
  tries : List (AnyTrie f)

/-- What is asked of one trie. -/
inductive Ask (f : PrimeField) where
  | lookup (key : Element f)
  | proveLookup (key : Element f)
  | insert (key value : Element f)
  | proveInsert (key value : Element f)
  | fold (pairs : List (Element f × Element f)) (batch : Nat)

/-- What is asked over the caches. A view is another trie of the same shape, at any root. -/
inductive Call (f : PrimeField) where
  | create (width : Nat) (extent : Extent)
  | view (i : Nat) (root : Element f)
  | trie (i : Nat) (ask : Ask f)
  | recomputeRoot (a : Arity) (proof : LookupProof f a) (key : Element f)
  | verify (a : Arity) (proof : LookupProof f a) (root key value : Element f)
  | verifyInsert (a : Arity) (proof : InsertProof f a) (oldRoot newRoot key : Element f)
      (oldValue : Option (Element f)) (newValue : Element f)
  | hash (p : Preimage f)

inductive Answer (f : PrimeField) where
  | absent
  | created (r : Except (TrieError f) (AnyTrie f))
  | viewed (t : AnyTrie f)
  | payload (r : Except (TrieError f) (Option (Element f)))
  | found (a : Arity) (r : Except (TrieError f) (LookupProof f a))
  | changed (r : Except (TrieError f) Bool)
  | inserted (a : Arity) (r : Except (TrieError f) (InsertProof f a × Bool))
  | folded (a : Arity) (r : Except (TrieError f) (List (Step f a.width)))
  | root (r : Option (Element f))
  | verdict (accepted : Bool)
  | digest (d : Element f)

def Ask.answer (H : Hasher f) (v : View f a) : Ask f → Answer f × View f a
  | lookup key => (.payload (v.lookup key), v)
  | proveLookup key => (.found a (v.proveLookup key), v)
  | insert key value => let (r, v) := v.insert H key value; (.changed r, v)
  | proveInsert key value => let (r, v) := v.proveInsert H key value; (.inserted a r, v)
  | fold pairs batch => let (r, v) := v.fold H pairs batch; (.folded a r, v)

namespace Shelf

/-- A step on the digests alone. -/
def onDigests {α : Type} (s : Shelf f) (op : DigestCache f → α × DigestCache f) : α × Shelf f :=
  let (x, digests) := op s.caches.digests
  (x, { s with caches := { s.caches with digests } })

def answer (H : Hasher f) (s : Shelf f) : Call f → Answer f × Shelf f
  | .create width extent =>
    let (r, caches) := AnyTrie.create H s.caches width extent
    (.created r, ⟨caches, s.tries ++ r.toOption.toList⟩)
  | .view i root =>
    match s.tries[i]? with
    | none => (.absent, s)
    | some t =>
      let t : AnyTrie f := ⟨t.arity, t.trie.withRoot root⟩
      (.viewed t, { s with tries := s.tries ++ [t] })
  | .trie i ask =>
    match s.tries[i]? with
    | none => (.absent, s)
    | some t =>
      let (x, v) := ask.answer H ⟨t.trie, s.caches⟩
      (x, ⟨v.caches, s.tries.set i ⟨t.arity, v.trie⟩⟩)
  | .recomputeRoot _ proof key =>
    let (r, s) := s.onDigests (proof.recomputeRoot H key)
    (.root r, s)
  | .verify _ proof root key value =>
    let (r, s) := s.onDigests (proof.verify H root key value)
    (.verdict r, s)
  | .verifyInsert _ proof oldRoot newRoot key oldValue newValue =>
    let (r, s) := s.onDigests (proof.verify H oldRoot newRoot key oldValue newValue)
    (.verdict r, s)
  | .hash p =>
    let (d, s) := s.onDigests (·.hash H p.arity p.node)
    (.digest d, s)

/-- The answers to calls made in order, and the shelf they leave. -/
def answers (H : Hasher f) (s : Shelf f) : List (Call f) → List (Answer f) × Shelf f
  | [] => ([], s)
  | call :: calls =>
    let (x, s) := s.answer H call
    let (xs, s) := s.answers H calls
    (x :: xs, s)

/-- A result with the tries and the caches it leaves, apart. -/
def parts {α : Type} (r : α × Shelf f) : (α × List (AnyTrie f)) × Caches f :=
  ((r.1, r.2.tries), r.2.caches)

end Shelf

/-- An ask, call by call. -/
def Ask.work (t : Trie f a) : Ask f → Work f (Answer f × Trie f a)
  | lookup key => do return (.payload (← Work.lookup t key), t)
  | proveLookup key => do return (.found a (← Work.proveLookup t key), t)
  | insert key value => do
    let (r, t) ← Work.insert t key value
    return (.changed r, t)
  | proveInsert key value => do
    let (r, t) ← Work.proveInsert t key value
    return (.inserted a r, t)
  | fold pairs batch => do
    let (r, t) ← Work.fold t pairs batch
    return (.folded a r, t)

namespace Call

def work (tries : List (AnyTrie f)) : Call f → Work f (Answer f × List (AnyTrie f))
  | create width extent => do
    let r ← Work.create width extent
    return (.created r, tries ++ r.toOption.toList)
  | view i root =>
    match tries[i]? with
    | none => pure (.absent, tries)
    | some t =>
      let t : AnyTrie f := ⟨t.arity, t.trie.withRoot root⟩
      pure (.viewed t, tries ++ [t])
  | trie i ask =>
    match tries[i]? with
    | none => pure (.absent, tries)
    | some t => do
      let (x, t') ← ask.work t.trie
      return (x, tries.set i ⟨t.arity, t'⟩)
  | recomputeRoot _ proof key => do return (.root (← Work.recomputeRoot proof key), tries)
  | verify _ proof root key value => do
    return (.verdict (← Work.verify proof root key value), tries)
  | verifyInsert _ proof oldRoot newRoot key oldValue newValue => do
    return (.verdict (← Work.verifyInsert proof oldRoot newRoot key oldValue newValue), tries)
  | hash p => do return (.digest (← Work.hash p.arity p.node pure), tries)

/-- Calls in order, cache call by cache call. -/
def works (tries : List (AnyTrie f)) :
    List (Call f) → Work f (List (Answer f) × List (AnyTrie f))
  | [] => pure ([], tries)
  | call :: calls => do
    let (x, tries) ← call.work tries
    let (xs, tries) ← works tries calls
    return (x :: xs, tries)

end Call

theorem Ask.run_work (t : Trie f a) (c : Caches f) (ask : Ask f) :
    (ask.work t).run H c = View.parts (ask.answer H ⟨t, c⟩) := by
  cases ask with
  | lookup key =>
    simp only [work, Work.run_bind, Work.run_lookup]
    rfl
  | proveLookup key =>
    simp only [work, Work.run_bind, Work.run_proveLookup]
    rfl
  | insert key value =>
    simp only [work, Work.run_bind, Work.run_insert]
    rfl
  | proveInsert key value =>
    simp only [work, Work.run_bind, Work.run_proveInsert]
    rfl
  | fold pairs batch =>
    simp only [work, Work.run_bind, Work.run_fold]
    rfl

namespace Shelf

theorem run_work (s : Shelf f) (call : Call f) :
    (call.work s.tries).run H s.caches = parts (s.answer H call) := by
  cases call with
  | create width extent =>
    simp only [Call.work, Work.run_bind, Work.run_create]
    rfl
  | view i root =>
    rw [Call.work, answer]
    cases s.tries[i]? <;> rfl
  | trie i ask =>
    rw [Call.work, answer]
    cases s.tries[i]? with
    | none => rfl
    | some t =>
      simp only [Work.run_bind, Ask.run_work]
      rfl
  | recomputeRoot a proof key =>
    simp only [Call.work, Work.run_bind, Work.run_recomputeRoot]
    rfl
  | verify a proof root key value =>
    simp only [Call.work, Work.run_bind, Work.run_verify]
    rfl
  | verifyInsert a proof oldRoot newRoot key oldValue newValue =>
    simp only [Call.work, Work.run_bind, Work.run_verifyInsert]
    rfl
  | hash p => rfl

theorem run_works (s : Shelf f) (calls : List (Call f)) :
    (Call.works s.tries calls).run H s.caches = parts (s.answers H calls) := by
  induction calls generalizing s with
  | nil => rfl
  | cons call calls ih =>
    simp only [Call.works, Work.run_bind, run_work, answers]
    have rest := ih (s.answer H call).2
    simp only [parts] at rest ⊢
    rw [rest]
    rfl

/-- From correct digests a run comes to what it does when everything is hashed anew. -/
theorem answers_eq {s : Shelf f} (hc : s.caches.digests.Correct H) (calls : List (Call f)) :
    parts (s.answers H calls) =
      (((Call.works s.tries calls).direct H s.caches.preimages).1,
        ⟨s.caches.digests.hashEach H ((Call.works s.tries calls).asked H s.caches.preimages),
          ((Call.works s.tries calls).direct H s.caches.preimages).2⟩) := by
  rw [← run_works, Work.run_eq hc]

theorem answers_append (s : Shelf f) (before after : List (Call f)) :
    (s.answers H (before ++ after)).2 = ((s.answers H before).2.answers H after).2 := by
  induction before generalizing s with
  | nil => rfl
  | cons call before ih => exact ih _

theorem answers_from (tries : List (AnyTrie f)) (known : PreimageCache f) {c : DigestCache f}
    (hc : c.Correct H) (calls : List (Call f)) :
    let ran := (⟨⟨c, known⟩, tries⟩ : Shelf f).answers H calls
    (Call.works tries calls).direct H known =
        ((ran.1, ran.2.tries), ran.2.caches.preimages) ∧
      ran.2.caches.digests = c.hashEach H ((Call.works tries calls).asked H known) := by
  intro ran
  have h : parts ran = _ := answers_eq (s := ⟨⟨c, known⟩, tries⟩) hc calls
  obtain ⟨answered, caches⟩ := Prod.mk.inj h
  exact ⟨Prod.ext answered.symm (congrArg Caches.preimages caches).symm,
    congrArg Caches.digests caches⟩

/-- A memo is invisible. Two runs of the same calls from the same tries and preimages, each over any
memo of correct digests, answer alike, register the same nodes in the same order, and leave the same
tries and the same preimages after every call, and so does hashing every node anew. A memo only
grows, and in the end it has one entry for each node that it held or was asked to hash. -/
theorem answers_memo_irrelevant (H : Hasher f) (tries : List (AnyTrie f))
    (known : PreimageCache f) (c c' : DigestCache f) (hc : c.Correct H) (hc' : c'.Correct H)
    (calls : List (Call f)) :
    let ran (memo : DigestCache f) (calls : List (Call f)) :=
      (⟨⟨memo, known⟩, tries⟩ : Shelf f).answers H calls
    (∀ before after, calls = before ++ after →
      (ran c before).1 = (ran c' before).1 ∧
      (ran c before).2.tries = (ran c' before).2.tries ∧
      (ran c before).2.caches.preimages = (ran c' before).2.caches.preimages ∧
      c.Within (ran c before).2.caches.digests ∧
      (ran c before).2.caches.digests.Within (ran c calls).2.caches.digests) ∧
    (Call.works tries calls).noted H ⟨c, known⟩ = (Call.works tries calls).noted H ⟨c', known⟩ ∧
    (Call.works tries calls).run H ⟨c, known⟩ = parts (ran c calls) ∧
    (Call.works tries calls).direct H known =
      (((ran c calls).1, (ran c calls).2.tries), (ran c calls).2.caches.preimages) ∧
    (ran c calls).2.caches.digests.Correct H ∧
    (ran c calls).2.caches.digests.size =
      (c.held ∪ ((Call.works tries calls).asked H known).toFinset).card := by
  intro ran
  obtain ⟨direct, memo⟩ := answers_from tries known hc calls
  have ran_eq : (Call.works tries calls).run H ⟨c, known⟩ = parts (ran c calls) :=
    run_works ⟨⟨c, known⟩, tries⟩ calls
  refine ⟨fun before after split => ?_, Work.noted_congr hc hc' _, ran_eq, direct, ?_, ?_⟩
  · obtain ⟨here, memo⟩ := answers_from tries known hc before
    obtain ⟨there, -⟩ := answers_from tries known hc' before
    obtain ⟨answered, preimages⟩ := Prod.mk.inj (here.symm.trans there)
    obtain ⟨answers, tries⟩ := Prod.mk.inj answered
    refine ⟨answers, tries, preimages, ?_, ?_⟩
    · rw [memo]
      exact DigestCache.within_hashEach
    -- The remaining calls go on from the memo that the first ones left.
    · have correct : (ran c before).2.caches.digests.Correct H := memo ▸ hc.hashEach
      rw [split, answers_append, (answers_from _ _ correct after).2]
      exact DigestCache.within_hashEach
  · rw [memo]
    exact hc.hashEach
  · rw [memo]
    exact DigestCache.size_hashEach

/-- A trie is made and written. -/
def firstCalls : List (Call .pallasBase) :=
  [.create 2 (.height 1), .trie 0 (.insert 1 1)]

/-- A node of the trie is hashed beforehand, and all goes as it does without. -/
theorem answers_memo_irrelevant_hashed :
    let hashed : DigestCache .pallasBase := (DigestCache.empty.hash weigh .binary (.uniform _ 0)).2
    let ran (memo : DigestCache .pallasBase) (calls : List (Call .pallasBase)) :=
      (⟨⟨memo, .empty⟩, []⟩ : Shelf _).answers weigh calls
    DigestCache.empty.Correct weigh ∧ hashed.Correct weigh ∧
      hashed.find? .binary (.uniform _ 0) ≠ DigestCache.empty.find? .binary (.uniform _ 0) ∧
      (ran .empty firstCalls).1 = (ran hashed firstCalls).1 ∧
      (ran .empty firstCalls).2.tries = (ran hashed firstCalls).2.tries := by
  have correct : (DigestCache.empty.hash weigh .binary (.uniform _ 0)).2.Correct weigh :=
    DigestCache.correct_empty.hash
  obtain ⟨alike, -⟩ := answers_memo_irrelevant weigh [] .empty .empty _
    DigestCache.correct_empty correct firstCalls
  obtain ⟨answers, tries, -⟩ := alike firstCalls [] (List.append_nil _).symm
  refine ⟨DigestCache.correct_empty, correct, ?_, answers, tries⟩
  rw [DigestCache.find?_hash_self]
  simp

end Shelf

end PoseidonTrie
