import Mathlib.Data.Set.Basic
import PoseidonTrie.Circuit.Check
import PoseidonTrie.Proofs.Circuit.Label
import PoseidonTrie.Proofs.Circuit.Parallel

/-! The names that synthesis takes. A synthesis in a namespace takes names inside it, and none of
them twice. One after another, two of them take no common name if the labels below the namespace
differ. -/
namespace PoseidonTrie.Circuit

variable {f : PrimeField} {H : Hasher f} {s t u : System f} {α β : Type}

/-- What a name is taken for: a namespace, a variable or a constraint. -/
inductive Use where
  | opened
  | allocated
  | enforced
deriving DecidableEq

/-- A name with its use. -/
abbrev Taken := Use × Path

def usedFor (use : Use) (taken : List Taken) : List Path :=
  (taken.filter (·.1 = use)).map (·.2)

theorem usedFor_append (use : Use) (taken taken' : List Taken) :
    usedFor use (taken ++ taken') = usedFor use taken ++ usedFor use taken' := by
  simp [usedFor]

/-- The name of an equation. A block of a hash stands in the namespace of the hash. -/
def Constraint.equation? : Constraint f → Option Path
  | .product path _ _ _ => some path
  | .hash .. => none

namespace System

/-- The names of the equations, in order. -/
def equations (s : System f) : List Path :=
  s.constraints.toList.filterMap Constraint.equation?

/-- The second system is the first after some names were taken. -/
structure Takes (s t : System f) (taken : List Taken) : Prop where
  kind : t.kind = s.kind
  names : t.names = (taken.map (·.2)).reverse ++ s.names
  paths : t.paths = s.paths ++ usedFor .allocated taken
  equations : t.equations = s.equations ++ usedFor .enforced taken

namespace Takes

variable {taken taken' : List Taken}

theorem refl : s.Takes s [] :=
  ⟨rfl, rfl, (List.append_nil _).symm, (List.append_nil _).symm⟩

theorem trans (h : s.Takes t taken) (h' : t.Takes u taken') : s.Takes u (taken ++ taken') := by
  refine ⟨h'.kind.trans h.kind, ?_, ?_, ?_⟩
  · rw [h'.names, h.names, List.map_append, List.reverse_append, List.append_assoc]
  · rw [h'.paths, h.paths, usedFor_append, List.append_assoc]
  · rw [h'.equations, h.equations, usedFor_append, List.append_assoc]

end Takes

theorem takes_name (hs : s.kind ≠ .witness) (path : Path) :
    s.Takes (s.name path) [(.opened, path)] := by
  rw [name, if_neg hs]
  exact ⟨rfl, rfl, (List.append_nil _).symm, (List.append_nil _).symm⟩

theorem takes_addVariable (hs : s.kind ≠ .witness) (path : Path) (value : Option (Element f)) :
    s.Takes (s.addVariable path value) [(.allocated, path)] := by
  rw [addVariable, name, if_neg hs]
  refine ⟨rfl, rfl, ?_, (List.append_nil _).symm⟩
  simp [paths, usedFor]

theorem takes_enforce (hs : s.kind ≠ .witness) (path : Path) (a b c : LinComb f) :
    s.Takes ((s.name path).addConstraint (.product path a b c)) [(.enforced, path)] := by
  rw [name, if_neg hs, addConstraint, if_neg hs]
  refine ⟨rfl, rfl, (List.append_nil _).symm, ?_⟩
  simp [System.equations, Constraint.equation?, usedFor]

theorem takes_addHash (hs : s.kind ≠ .witness) (path : Path) (a : Arity) (inputs : List Nat)
    (output n : Nat) :
    s.Takes { s.addConstraint (.hash path a inputs output) with internals := n } [] := by
  rw [addConstraint, if_neg hs]
  refine ⟨rfl, rfl, (List.append_nil _).symm, ?_⟩
  simp [System.equations, Constraint.equation?, usedFor]

end System

/-- Inside the namespace of a hash, the output of the hash and nothing else has a name. -/
def Sealed (path : Path) : Prop :=
  ∀ inner l outer, path = inner ++ l :: outer → l.isHash = true →
    inner = [] ∨ inner = [.hashOutput] ∨ inner = [.num, .hashOutput]

/-- The name is inside a namespace, below one of the labels. -/
def Below (ns : Path) (L : Set Label) (path : Path) : Prop :=
  ∃ inner, ∃ l ∈ L, path = inner ++ l :: ns ∧ Sealed (inner ++ [l])

/-- The system that a synthesis leaves, whether it comes to its end or stops. -/
def System.after (s : System f) (x : Synth f α) : System f :=
  match x s with
  | .ok (_, t) => t
  | .error stop => stop.system

/-- Wherever a run ends, it has taken names of which something holds, and none twice. -/
structure TakesOnce (P : Path → Prop) (x : Synth f α) : Prop where
  of_run : ∀ s : System f, s.kind ≠ .witness → ∃ taken, s.Takes (s.after x) taken ∧
    (taken.map (·.2)).Nodup ∧ ∀ path ∈ taken.map (·.2), P path

section Rules

variable {P Q R : Path → Prop} {x : Synth f α} {g : α → Synth f β} {ns : Path} {l : Label}
  {L M : Set Label}

theorem after_eq_of_ok {a : α} (h : x s = .ok (a, t)) : s.after x = t := by
  rw [System.after, h]

theorem after_bind_of_ok {a : α} (h : x s = .ok (a, t)) : s.after (x >>= g) = t.after (g a) := by
  rw [System.after, System.after, bind_eq_of_ok h]

theorem after_bind_of_error {stop : Stop f} (h : x s = .error stop) :
    s.after (x >>= g) = s.after x := by
  rw [System.after, System.after, bind_eq_error h, h]

theorem takesOnce_of_after (h : ∀ s : System f, s.after x = s) : TakesOnce P x :=
  ⟨fun s _ => ⟨[], (h s).symm ▸ .refl, List.nodup_nil, nofun⟩⟩

theorem takesOnce_pure (a : α) : TakesOnce P (pure a : Synth f α) :=
  takesOnce_of_after fun _ => rfl

theorem takesOnce_fail (e : SynthesisError) : TakesOnce P (fail e : Synth f α) :=
  takesOnce_of_after fun _ => rfl

theorem takesOnce_crash : TakesOnce P (crash : Synth f α) :=
  takesOnce_of_after fun _ => rfl

theorem takesOnce_ofExcept {r : Except SynthesisError α} (hg : ∀ a, TakesOnce P (g a)) :
    TakesOnce P (ofExcept r >>= g) := by
  cases r with
  | ok a => exact hg a
  | error e => exact takesOnce_of_after fun _ => rfl

theorem TakesOnce.mono (hx : TakesOnce P x) (h : ∀ path, P path → Q path) : TakesOnce Q x := by
  refine ⟨fun s hs => ?_⟩
  obtain ⟨taken, htakes, once, hp⟩ := hx.of_run s hs
  exact ⟨taken, htakes, once, fun path hpath => h path (hp path hpath)⟩

/-- One synthesis after another, if no name can be of both. -/
theorem TakesOnce.bind (hx : TakesOnce P x) (hg : ∀ a, TakesOnce Q (g a))
    (apart : ∀ path, P path → ¬ Q path) : TakesOnce (fun path => P path ∨ Q path) (x >>= g) := by
  refine ⟨fun s hs => ?_⟩
  obtain ⟨taken, htakes, once, hp⟩ := hx.of_run s hs
  cases hfirst : x s with
  | error stop =>
    rw [after_bind_of_error hfirst]
    exact ⟨taken, htakes, once, fun path hpath => .inl (hp path hpath)⟩
  | ok r =>
    rw [after_eq_of_ok hfirst] at htakes
    rw [after_bind_of_ok hfirst]
    obtain ⟨taken', htakes', once', hq⟩ := (hg r.1).of_run r.2 (htakes.kind ▸ hs)
    refine ⟨taken ++ taken', htakes.trans htakes', ?_, ?_⟩
    · rw [List.map_append]
      exact once.append once' fun path h h' => apart path (hp path h) (hq path h')
    · rw [List.map_append]
      exact List.forall_mem_append.mpr
        ⟨fun path h => .inl (hp path h), fun path h => .inr (hq path h)⟩

theorem TakesOnce.done {h : α → β} (hx : TakesOnce P x) :
    TakesOnce P (x >>= fun a => pure (h a)) :=
  (hx.bind (Q := fun _ => False) (fun _ => takesOnce_pure _) fun _ _ => id).mono
    fun _ h => h.resolve_right id

theorem Below.mono {path : Path} (h : Below ns L path) (hL : L ⊆ M) : Below ns M path := by
  obtain ⟨inner, l, hl, rest⟩ := h
  exact ⟨inner, l, hL hl, rest⟩

theorem Below.apart (h : ∀ l ∈ L, l ∉ M) {path : Path} :
    Below ns L path → ¬ Below ns M path := by
  rintro ⟨inner, l, hl, rfl, -⟩ ⟨inner', l', hl', same, -⟩
  have labels : inner ++ [l] = inner' ++ [l'] := by
    apply (List.append_left_inj ns).mp
    simpa using same
  obtain rfl : l = l' := by
    have last := congrArg List.getLast? labels
    simpa using last
  exact h l hl hl'

theorem TakesOnce.andThen (hx : TakesOnce (Below ns L) x) (hg : ∀ a, TakesOnce (Below ns M) (g a))
    (h : ∀ l ∈ L, l ∉ M) : TakesOnce (Below ns (L ∪ M)) (x >>= g) := by
  apply (hx.bind hg fun _ => Below.apart h).mono
  rintro path (hp | hp)
  · exact hp.mono Set.subset_union_left
  · exact hp.mono Set.subset_union_right

/-- Last comes a name, or a namespace, with a label of its own. -/
theorem TakesOnce.last (hx : TakesOnce (Below ns L) x) (hg : ∀ a, TakesOnce (Below ns {l}) (g a))
    (fresh : l ∉ L) : TakesOnce (Below ns (L ∪ {l})) (x >>= g) := by
  apply hx.andThen hg
  rintro k hk rfl
  exact fresh hk

theorem TakesOnce.widen (hx : TakesOnce (Below ns L) x) (h : L ⊆ M) : TakesOnce (Below ns M) x :=
  hx.mono fun _ hp => hp.mono h

theorem sealed_singleton (l : Label) : Sealed [l] := by
  intro inner k outer h _
  cases inner with
  | nil => exact .inl rfl
  | cons m inner => simp at h

theorem sealed_concat {path : Path} (h : Sealed path)
    (hl : l.isHash = true → path = [] ∨ path = [.hashOutput] ∨ path = [.num, .hashOutput]) :
    Sealed (path ++ [l]) := by
  intro inner k outer same hk
  rcases List.eq_nil_or_concat outer with rfl | ⟨outer, m, rfl⟩
  -- The hash is the last label itself.
  · obtain ⟨rfl, last⟩ := List.append_inj' same rfl
    obtain rfl : l = k := List.cons.inj last |>.1
    exact hl hk
  · have shorter : path ++ [l] = (inner ++ k :: outer) ++ [m] := by simpa using same
    exact h inner k outer (List.append_inj' shorter rfl).1 hk

theorem below_self (ns : Path) (l : Label) : Below ns {l} (l :: ns) :=
  ⟨[], l, rfl, rfl, sealed_singleton l⟩

/-- A namespace is opened, and what comes then takes other names. -/
theorem TakesOnce.opening {g : Path → Synth f α} (h : TakesOnce P (g (l :: ns)))
    (fresh : ¬ P (l :: ns)) :
    TakesOnce (fun path => path = l :: ns ∨ P path) (enter ns l >>= g) := by
  refine ⟨fun s hs => ?_⟩
  have named := System.takes_name hs (l :: ns)
  obtain ⟨taken, htakes, once, hp⟩ := h.of_run _ (named.kind ▸ hs)
  refine ⟨_, named.trans htakes, List.nodup_cons.mpr ⟨fun h => fresh (hp _ h), once⟩, ?_⟩
  exact List.forall_mem_cons.mpr ⟨.inl rfl, fun path hpath => .inr (hp path hpath)⟩

theorem TakesOnce.enter {g : Path → Synth f α} (h : TakesOnce (Below (l :: ns) L) (g (l :: ns)))
    (hl : l.isHash = false) : TakesOnce (Below ns {l}) (enter ns l >>= g) := by
  apply (h.opening ?_).mono
  · rintro path (rfl | ⟨inner, k, -, rfl, closed⟩)
    · exact below_self ns l
    · refine ⟨inner ++ [k], l, rfl, by simp, sealed_concat closed fun h => ?_⟩
      rw [hl] at h
      cases h
  · rintro ⟨inner, k, -, same, -⟩
    have := congrArg List.length same
    simp only [List.length_append, List.length_cons] at this
    omega

/-- What a namespace is opened for comes before something else in the outer one. -/
theorem TakesOnce.first {g : Path → Synth f α} {k : α → Synth f β}
    (h : TakesOnce (Below ns {l}) (Circuit.enter ns l >>= g))
    (hk : ∀ a, TakesOnce (Below ns M) (k a)) (fresh : l ∉ M) :
    TakesOnce (Below ns ({l} ∪ M)) (Circuit.enter ns l >>= fun ns' => g ns' >>= k) := by
  have opened := h.andThen hk (by simpa using fresh)
  rwa [bind_assoc] at opened

theorem TakesOnce.firstDone {g : Path → Synth f α} {h : α → β}
    (hx : TakesOnce (Below ns {l}) (Circuit.enter ns l >>= g)) :
    TakesOnce (Below ns {l}) (Circuit.enter ns l >>= fun ns' => g ns' >>= fun a => pure (h a)) := by
  have opened := hx.done (h := h)
  rwa [bind_assoc] at opened

theorem TakesOnce.mapM {K : α → Set Label} (xs : List α)
    (hg : ∀ a ∈ xs, TakesOnce (Below ns (K a)) (g a))
    (apart : xs.Pairwise fun a b => ∀ l ∈ K a, l ∉ K b) :
    TakesOnce (Below ns {l | ∃ a ∈ xs, l ∈ K a}) (xs.mapM g) := by
  induction xs with
  | nil => exact takesOnce_pure []
  | cons a xs ih =>
    obtain ⟨first, rest⟩ := List.pairwise_cons.mp apart
    rw [List.mapM_cons]
    have others := ih (fun a' h => hg a' (List.mem_cons_of_mem _ h)) rest
    apply ((hg a (List.mem_cons_self ..)).andThen (fun _ => others.done) ?_).widen
    · rintro l (hl | ⟨a', ha', hl⟩)
      · exact ⟨a, List.mem_cons_self .., hl⟩
      · exact ⟨a', List.mem_cons_of_mem _ ha', hl⟩
    · rintro l hl ⟨a', ha', hl'⟩
      exact first a' ha' l hl hl'

/-- Without the value that it needs, allocation leaves everything as it is. -/
theorem after_alloc (s : System f) (path : Path) (value : Option α) (embed : α → Element f) :
    s.after (alloc path value embed) = s ∨
      ∃ x, s.after (alloc path value embed) = s.addVariable path x := by
  by_cases hs : s.kind = .shape
  · exact .inr ⟨none, after_eq_of_ok (alloc_of_shape hs)⟩
  · cases value with
    | none =>
      left
      rw [System.after, alloc, if_neg hs]
      rfl
    | some x => exact .inr ⟨some (embed x), after_eq_of_ok (alloc_some hs x)⟩

theorem takesOnce_alloc (path : Path) (value : Option α) (embed : α → Element f) :
    TakesOnce (· = path) (alloc path value embed) := by
  refine ⟨fun s hs => ?_⟩
  obtain same | ⟨x, hx⟩ := after_alloc s path value embed
  · rw [same]
    exact ⟨[], .refl, List.nodup_nil, nofun⟩
  · rw [hx]
    refine ⟨_, System.takes_addVariable hs path x, List.nodup_singleton _, ?_⟩
    exact List.forall_mem_singleton.mpr rfl

theorem takesOnce_enforce (path : Path) (a b c : LinComb f) :
    TakesOnce (· = path) (enforce path a b c) := by
  refine ⟨fun s hs => ?_⟩
  refine ⟨_, System.takes_enforce hs path a b c, List.nodup_singleton _, ?_⟩
  exact List.forall_mem_singleton.mpr rfl

theorem TakesOnce.below (hx : TakesOnce (· = l :: ns) x) : TakesOnce (Below ns {l}) x :=
  hx.mono fun _ h => h ▸ below_self ns l

theorem takesOnce_addHash (path : Path) (a : Arity) (inputs : List Nat) (output : Nat) :
    TakesOnce P (addHash path a inputs output : Synth f Unit) := by
  refine ⟨fun s hs => ?_⟩
  exact ⟨[], System.takes_addHash hs path a inputs output _, List.nodup_nil, nofun⟩

theorem Num.takesOnce_alloc (ns : Path) (value : Option (Element f)) :
    TakesOnce (· = .num :: ns) (Num.alloc ns value) :=
  (Circuit.takesOnce_alloc (.num :: ns) value id).done

theorem takesOnce_hashNode (ns : Path) (a : Arity) (children : List (Num f)) :
    TakesOnce (fun path => path = .hashOutput :: ns ∨ path = .num :: .hashOutput :: ns)
      (hashNode H ns a children) := by
  unfold hashNode
  split
  · have output (value : Option (Element f)) : TakesOnce
        (fun path => path = .hashOutput :: ns ∨ path = .num :: .hashOutput :: ns)
        (do Num.alloc (← enter ns .hashOutput) value) :=
      (Num.takesOnce_alloc (.hashOutput :: ns) value).opening (by simp)
    dsimp only
    rw [← bind_assoc]
    refine ((output _).bind (Q := fun _ => False) (fun _ => ?_) fun _ _ => id).mono
      fun _ h => h.resolve_right id
    exact (takesOnce_addHash ..).done
  · exact takesOnce_fail _

/-- A hash is sealed with the names of its output. -/
theorem takesOnce_hash (a : Arity) (children : List (Num f)) :
    TakesOnce (Below ns {l}) (enter ns l >>= fun ns' => hashNode H ns' a children) := by
  have outer : ¬ (l :: ns = .hashOutput :: l :: ns ∨ l :: ns = .num :: .hashOutput :: l :: ns) := by
    rintro (same | same) <;> simpa using congrArg List.length same
  apply ((takesOnce_hashNode (l :: ns) a children).opening outer).mono
  rintro path (rfl | rfl | rfl)
  · exact below_self ns l
  · exact ⟨[.hashOutput], l, rfl, rfl, sealed_concat (sealed_singleton _) fun _ => .inr (.inl rfl)⟩
  · have value : Sealed [.num, .hashOutput] := sealed_concat (sealed_singleton .num) nofun
    exact ⟨[.num, .hashOutput], l, rfl, rfl, sealed_concat value fun _ => .inr (.inr rfl)⟩

end Rules

/-- The number that a label has in a loop over rounds, levels or places. -/
def Label.round? : Label → Option Nat
  | bit i | runEnding i | andWith i | pickAt i _ | bitUnset i _ | bitSet i _ | levelChild i _
  | levelHash i | levelCommitment i | levelSelect i | levelSelectors i | levelNewChild i _
  | levelNewHash i | slot i => some i
  | _ => none

/-- The labels of all rounds from one on. -/
def FromRound (k : Nat) : Set Label :=
  {l | ∃ i, l.round? = some i ∧ k ≤ i}

section Rounds

variable {ns : Path} {k : Nat} {l : Label} {L : Set Label} {x : Synth f α} {g : α → Synth f β}

@[simp] theorem mem_fromRound : l ∈ FromRound k ↔ ∃ i, l.round? = some i ∧ k ≤ i := Iff.rfl

theorem subset_fromRound (hL : ∀ l ∈ L, l.round? = some k) : L ⊆ FromRound k :=
  fun l hl => ⟨k, hL l hl, Nat.le_refl k⟩

theorem fromRound_succ_subset : FromRound (k + 1) ⊆ FromRound k :=
  fun _ ⟨i, hi, hle⟩ => ⟨i, hi, Nat.le_of_succ_le hle⟩

theorem notMem_fromRound (hL : ∀ l ∈ L, l.round? = some k) : ∀ l ∈ L, l ∉ FromRound (k + 1) := by
  rintro l hl ⟨i, hi, hle⟩
  obtain rfl : k = i := Option.some.inj ((hL l hl).symm.trans hi)
  exact Nat.not_succ_le_self k hle

/-- One round, and then those after it. -/
theorem TakesOnce.round (hx : TakesOnce (Below ns L) x) (hL : ∀ l ∈ L, l.round? = some k)
    (hg : ∀ a, TakesOnce (Below ns (FromRound (k + 1))) (g a)) :
    TakesOnce (Below ns (FromRound k)) (x >>= g) :=
  (hx.andThen hg (notMem_fromRound hL)).widen
    (Set.union_subset (subset_fromRound hL) fromRound_succ_subset)

/-- The same for a namespace that is opened once in a round. -/
theorem TakesOnce.firstRound {g : Path → Synth f α} {next : α → Synth f β}
    (h : TakesOnce (Below ns {l}) (Circuit.enter ns l >>= g)) (hl : l.round? = some k)
    (hnext : ∀ a, TakesOnce (Below ns (FromRound (k + 1))) (next a)) :
    TakesOnce (Below ns (FromRound k)) (Circuit.enter ns l >>= fun ns' => g ns' >>= next) := by
  have opened := h.round (by simpa using hl) hnext
  rwa [bind_assoc] at opened

theorem pairwise_zipIdx (xs : List α) (k : Nat) :
    (xs.zipIdx k).Pairwise fun p q => p.2 ≠ q.2 := by
  have places : ((xs.zipIdx k).map (·.2)).Nodup := by
    rw [List.zipIdx_map_snd]
    exact List.nodup_range'
  exact List.pairwise_map.mp places

end Rounds

section Gadgets

variable {ns : Path}

theorem Num.takesOnce_enter {l : Label} (hl : l.isHash = false) (value : Option (Element f)) :
    TakesOnce (Below ns {l}) (do Num.alloc (← enter ns l) value) :=
  (Num.takesOnce_alloc (l :: ns) value).below.enter hl

namespace Bit

/-- A bit and its constraint. -/
def labels : Set Label :=
  {.boolean, .booleanConstraint}

theorem takesOnce_alloc (ns : Path) (value : Option Bool) :
    TakesOnce (Below ns labels) (Bit.alloc (f := f) ns value) := by
  apply TakesOnce.andThen (Circuit.takesOnce_alloc ..).below
  · rintro ⟨index, _⟩
    exact (takesOnce_enforce ..).below.done
  · simp

theorem takesOnce_allocUnless (ns : Path) (value : Option Bool) (guard : Bit) :
    TakesOnce (Below ns labels) (Bit.allocUnless (f := f) ns value guard) := by
  apply TakesOnce.andThen (Circuit.takesOnce_alloc ..).below
  · rintro ⟨index, _⟩
    exact (takesOnce_enforce ..).below.done
  · simp

theorem takesOnce_product {result constraint : Label} (h : result ≠ constraint)
    (value : Option Bool) (a b : LinComb f) :
    TakesOnce (Below ns {result, constraint})
      (product (result :: ns) (constraint :: ns) value a b) := by
  apply TakesOnce.andThen (Circuit.takesOnce_alloc ..).below
  · rintro ⟨index, _⟩
    exact (takesOnce_enforce ..).below.done
  · simpa using h

theorem takesOnce_andFrom (ns : Path) (k : Nat) (joined : Bit) (rest : List Bit) :
    TakesOnce (Below ns (FromRound k)) (andFrom (f := f) ns k joined rest) := by
  induction rest generalizing k joined with
  | nil => exact takesOnce_pure _
  | cons b rest ih =>
    exact ((takesOnce_product (by decide) ..).enter rfl).firstRound rfl (ih (k + 1))

end Bit

/-- A conjunction takes the names of one gate at most. -/
theorem Boolean.takesOnce_and (ns : Path) (a b : Boolean) :
    TakesOnce (Below ns Set.univ) (Boolean.and (f := f) ns a b) := by
  have gate {result constraint : Label} (h : result ≠ constraint) (value : Option Bool)
      (l l' : LinComb f) : TakesOnce (Below ns Set.univ) (do
        return Boolean.is (← Bit.product (result :: ns) (constraint :: ns) value l l')) :=
    (Bit.takesOnce_product h value l l').done.widen (Set.subset_univ _)
  unfold Boolean.and
  split
  · exact takesOnce_pure _
  · exact takesOnce_pure _
  · exact takesOnce_pure _
  · exact takesOnce_pure _
  · exact gate (by decide) ..
  · exact gate (by decide) ..
  · exact gate (by decide) ..
  · exact gate (by decide) ..

theorem takesOnce_nonzero (ns : Path) (x : Num f) :
    TakesOnce (Below ns ({.inverse} ∪ {.numIsNonzero})) (nonzero ns x) :=
  (Num.takesOnce_enter rfl _).first (fun _ => (takesOnce_enforce ..).below) (by simp)

theorem takesOnce_pick (ns : Path) (condition : Boolean) (a b : Num f) :
    TakesOnce (Below ns ({.pickResult} ∪ {.pick})) (pick ns condition a b) :=
  (Num.takesOnce_enter rfl _).first (fun _ => (takesOnce_enforce ..).below.done) (by simp)

theorem takesOnce_pickHalf (ns : Path) (round : Nat) (bit : Boolean) (low high : List (Num f)) :
    TakesOnce (Below ns {l | ∃ j, l = .pickAt round j}) (pickHalf ns round bit low high) := by
  apply (TakesOnce.mapM (K := fun p => {.pickAt round p.2}) _ ?_ ?_).widen
  · rintro l ⟨p, -, hl⟩
    exact ⟨p.2, hl⟩
  · rintro ⟨⟨l, h⟩, j⟩ _
    exact (takesOnce_pick ..).enter rfl
  · exact (pairwise_zipIdx _ 0).imp fun h => by simpa using h

theorem takesOnce_selectFrom (ns : Path) (round : Nat) (bits : List Boolean) (xs : List (Num f)) :
    TakesOnce (Below ns (FromRound round)) (selectFrom ns round bits xs) := by
  induction bits generalizing round xs with
  | nil =>
    match xs with
    | [] => exact takesOnce_crash
    | x :: _ => exact takesOnce_pure x
  | cons bit bits ih =>
    apply (takesOnce_pickHalf ns round bit _ _).round _ (ih (round + 1))
    rintro l ⟨j, rfl⟩
    rfl

theorem takesOnce_select (ns : Path) (xs : List (Num f)) (bits : List Boolean) :
    TakesOnce (Below ns (FromRound 0)) (select ns xs bits) := by
  unfold select
  split
  · exact takesOnce_selectFrom ns 0 bits.reverse xs
  · exact takesOnce_fail _

theorem takesOnce_selectorRound (ns : Path) (i : Nat) (bit : Boolean) (chosen : List Boolean) :
    TakesOnce (Below ns {l | ∃ j, l = .bitUnset i j ∨ l = .bitSet i j})
      (selectorRound (f := f) ns i bit chosen) := by
  apply TakesOnce.done
  apply (TakesOnce.mapM (K := fun p => {.bitUnset i p.2} ∪ {.bitSet i p.2}) _ ?_ ?_).widen
  · rintro l ⟨p, -, hl⟩
    exact ⟨p.2, hl⟩
  · rintro ⟨c, j⟩ _
    apply ((Boolean.takesOnce_and ..).enter rfl).first _ (by simp)
    intro unset
    exact ((Boolean.takesOnce_and ..).enter rfl).firstDone
  · exact (pairwise_zipIdx _ 0).imp fun h => by simpa using h

theorem takesOnce_selectorsFrom (ns : Path) (i : Nat) (bits chosen : List Boolean) :
    TakesOnce (Below ns (FromRound i)) (selectorsFrom (f := f) ns i bits chosen) := by
  induction bits generalizing i chosen with
  | nil => exact takesOnce_pure _
  | cons bit bits ih =>
    apply (takesOnce_selectorRound ns i bit chosen).round _ (ih (i + 1))
    rintro l ⟨j, rfl | rfl⟩
    · rfl
    · rfl

theorem takesOnce_selectors (ns : Path) (bits : List Boolean) :
    TakesOnce (Below ns (FromRound 0)) (selectors (f := f) ns bits) :=
  takesOnce_selectorsFrom ns 0 bits _

end Gadgets

end PoseidonTrie.Circuit
