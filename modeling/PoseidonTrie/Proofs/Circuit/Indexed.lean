import PoseidonTrie.Proofs.Circuit.Canonical
import PoseidonTrie.Proofs.Circuit.Selection
import PoseidonTrie.Proofs.Circuit.Stops

/-! Reading and writing at an index. The number that bits select and the one that their selectors
replace have the same index, which is the number of the bits, least significant first. -/
namespace PoseidonTrie.Circuit

variable {f : PrimeField} {a : Arity} {H : Hasher f} {w : Assignment f} {s t : System f}
  {α β : Type} {ns : Path} {xs : List (Num f)} {bits : List Boolean} {new : Num f}

/-- The variable behind a Boolean, if there is one, is zero or one. -/
def Boolean.Binary (w : Assignment f) : Boolean → Prop
  | is b => w b.index = 0 ∨ w b.index = 1
  | not b => w b.index = 0 ∨ w b.index = 1
  | constant _ => True

theorem Bit.exists_reads_iff {b : Bit} :
    (∃ v, b.Reads w v) ↔ w b.index = 0 ∨ w b.index = 1 := by
  simp [Bit.Reads, Bool.exists_bool]

theorem Boolean.binary_iff {b : Boolean} : b.Binary w ↔ ∃ v, b.Reads w v := by
  cases b with
  | is b => exact Bit.exists_reads_iff.symm
  | not b => exact Bit.exists_reads_iff.symm.trans Bool.involutive_not.surjective.exists
  | constant c => exact iff_of_true trivial ⟨c, rfl⟩

theorem exists_forall₂_reads (h : ∀ b ∈ bits, b.Binary w) :
    ∃ vs, List.Forall₂ (Boolean.Reads w) bits vs := by
  induction bits with
  | nil => exact ⟨[], .nil⟩
  | cons b bits ih =>
    obtain ⟨hb, hbits⟩ := List.forall_mem_cons.mp h
    obtain ⟨v, hv⟩ := Boolean.binary_iff.mp hb
    obtain ⟨vs, hvs⟩ := ih hbits
    exact ⟨v :: vs, .cons hv hvs⟩

theorem Boolean.known_of_reads {bs : List Boolean} {vs : List Bool} (hbs : ∀ b ∈ bs, b.Valued t)
    (h : List.Forall₂ (Boolean.Reads t.assignment) bs vs) :
    List.Forall₂ (Boolean.Known t) bs vs := by
  induction h with
  | nil => exact .nil
  | cons hread _ ih =>
    obtain ⟨⟨v, known⟩, hbs⟩ := List.forall_mem_cons.mp hbs
    obtain rfl := Boolean.rightUnique_reads (known.reads (agrees_assignment t)) hread
    exact .cons known (ih hbs)

theorem reads_of_oneHot {n k j : Nat} {chosen : List Boolean} {c : Boolean}
    (h : List.Forall₂ (Boolean.Reads w) chosen (oneHot n k)) (hc : chosen[j]? = some c) :
    c.Reads w (decide (j = k)) := by
  obtain ⟨hj, rfl⟩ := List.getElem?_eq_some_iff.mp hc
  have read := h.get hj (h.length_eq ▸ hj)
  simpa [oneHot] using read

section Known

variable {values : List (Element f)} {vs : List Bool} {v : Element f} {k n : Nat}

theorem computes_selectAt (ns : Path) (hxs : List.Forall₂ (Num.Known s) xs values)
    (hbits : List.Forall₂ (Boolean.Known s) bits vs) (h : Selectable xs bits) :
    Computes H s (select ns xs bits) True fun t r =>
      ∃ x, values[natOfBits vs]? = some x ∧ r.Known t x := by
  have selected := (computes_select (H := H) ns (exists_of_forall₂ hbits) (exists_of_forall₂ hxs)
    h).forced (forces_select ..)
  apply selected.mono
  rintro t r ht ⟨valued, forced⟩
  have found (w : Assignment f) (hw : Agrees w t) : values[natOfBits vs]? = some (r.eval w) := by
    have early := hw.mono ht
    rw [← Num.map_eval_of_known hxs early]
    exact forced w hw vs (hbits.imp fun _ _ h => h.reads early)
  refine ⟨_, found _ (agrees_assignment t), valued.known fun w hw => ?_⟩
  exact Option.some.inj ((found w hw).symm.trans (found _ (agrees_assignment t)))

theorem computes_selectorsAt (ns : Path) (hbits : List.Forall₂ (Boolean.Known s) bits vs) :
    Computes H s (selectors ns bits) True fun t chosen =>
      List.Forall₂ (Boolean.Known t) chosen (oneHot vs.length (natOfBits vs)) := by
  have told := (computes_selectors (H := H) ns (exists_of_forall₂ hbits)).forced
    (forces_selectors ..)
  apply told.mono
  rintro t chosen ht ⟨valued, forced⟩
  have agrees := agrees_assignment t
  apply Boolean.known_of_reads valued
  exact forced _ agrees vs (hbits.imp fun _ _ h => h.reads (agrees.mono ht))

theorem computes_pickEachAt (ns : Path) (level : Nat) (hxs : List.Forall₂ (Num.Known s) xs values)
    (hlen : xs.length = 2 ^ n) {chosen : List Boolean}
    (hchosen : List.Forall₂ (Boolean.Known s) chosen (oneHot n k)) (hnew : new.Known s v) :
    Computes H s (pickEach ns level new xs chosen) True fun t row =>
      List.Forall₂ (Num.Known t) row (values.set k v) := by
  have replaced := (computes_pickEach (H := H) ns level ⟨v, hnew⟩ (exists_of_forall₂ hxs)
    (exists_of_forall₂ hchosen)).forced (forces_pickEachAt ns level new xs chosen)
  apply replaced.mono
  rintro t row ht ⟨valued, forced⟩
  have agrees := agrees_assignment t
  have early := agrees.mono ht
  apply Num.known_of_map_eval valued
  rw [forced _ agrees n k hlen (hchosen.imp fun _ _ h => h.reads early),
    Num.map_eval_of_known hxs early, hnew.eval early]

end Known

/-- Reads the number at an index and writes another one in its place. -/
def exchange (ns : Path) (level : Nat) (xs : List (Num f)) (bits : List Boolean) (new : Num f) :
    Synth f (Num f × List Boolean × List (Num f)) := do
  let old ← select (← enter ns (.levelSelect level)) xs bits
  let chosen ← selectors (← enter ns (.levelSelectors level)) bits
  let row ← pickEach ns level new xs chosen
  return (old, chosen, row)

theorem computes_exchange (ns : Path) (level : Nat) {values : List (Element f)} {vs : List Bool}
    {v : Element f} (h : Selectable xs bits) (hxs : List.Forall₂ (Num.Known s) xs values)
    (hbits : List.Forall₂ (Boolean.Known s) bits vs) (hnew : new.Known s v) :
    Computes H s (exchange ns level xs bits new) True fun t out =>
      (∃ x, values[natOfBits vs]? = some x ∧ out.1.Known t x) ∧
        List.Forall₂ (Boolean.Known t) out.2.1 (oneHot vs.length (natOfBits vs)) ∧
        List.Forall₂ (Num.Known t) out.2.2 (values.set (natOfBits vs) v) := by
  apply Computes.next (computes_enter ..)
  intro t₁ ns₁ h₁ _
  apply Computes.next (computes_selectAt ns₁ (hxs.imp fun _ _ h => h.mono h₁)
    (hbits.imp fun _ _ h => h.mono h₁) h)
  rintro t₂ old h₂ ⟨x, found, hold⟩
  apply Computes.next (computes_enter ..)
  intro t₃ ns₃ h₃ _
  have early := h₁.trans (h₂.trans h₃)
  apply Computes.next (computes_selectorsAt ns₃ (hbits.imp fun _ _ h => h.mono early))
  intro t₄ chosen h₄ hchosen
  have later := early.trans h₄
  have count : xs.length = 2 ^ vs.length := hbits.length_eq ▸ h.2
  apply Computes.next (computes_pickEachAt ns level (hxs.imp fun _ _ h => h.mono later) count
    hchosen (hnew.mono later))
  intro t₅ row h₅ hrow
  exact computes_pure ⟨⟨x, found, hold.mono (h₃.trans (h₄.trans h₅))⟩,
    hchosen.imp fun _ _ h => h.mono h₅, hrow⟩

/-- With an assignment that satisfies what a synthesis adds, whatever run it is of, its result has
a property. -/
def Sound (H : Hasher f) (w : Assignment f) (x : Synth f α) (P : α → Prop) : Prop :=
  ∀ s r t, s.kind ≠ .witness → x s = .ok (r, t) → Satisfies H w (s.since t) → P r

theorem Forces.sound {x : Synth f α} {Q : Assignment f → α → Prop} (h : Forces H x Q) :
    Sound H w x (Q w) := by
  intro s r t hs hrun hw
  obtain ⟨cs, he, forced⟩ := h.of_run s r t hs hrun
  exact forced w (he.since_eq ▸ hw)

/-- Reading and writing have one index. Whatever assignment satisfies the constraints, if it gives
the bits zero or one, then the number selected is the one at the index they denote, of as many
selectors as there are numbers that one alone is true, and picks by them replace the number there
and no other. From known numbers and fewer bits than a word has, all three are synthesized, are
never broken and yield these values. Numbers are then refused exactly if there is not one for each
index. More bits never select a number, and are refused exactly if the numbers are not as many as a
word makes of the count of indices. -/
theorem exchange_index (H : Hasher f) (ns : Path) (xs : List (Num f)) (bits : List Boolean)
    (new : Num f) :
    (bits.length < 64 → ∀ s,
      errorOf (select ns xs bits) s = some .unsatisfiable ↔ xs.length ≠ 2 ^ bits.length) ∧
    (64 ≤ bits.length → ∀ s,
      (errorOf (select ns xs bits) s = some .unsatisfiable ↔ xs.length ≠ shiftOne bits.length) ∧
        ∀ r, select ns xs bits s ≠ .ok r) ∧
    (xs.length = 2 ^ bits.length → ∀ w, (∀ b ∈ bits, b.Binary w) →
      ∃ vs, List.Forall₂ (Boolean.Reads w) bits vs ∧ natOfBits vs < xs.length ∧
        Sound H w (select ns xs bits) (fun r =>
          (xs.map (Num.eval w))[natOfBits vs]? = some (r.eval w)) ∧
        Sound H w (selectors (f := f) ns bits) (fun chosen => chosen.length = 2 ^ bits.length ∧
          (∀ (j : Nat) (c : Boolean), chosen[j]? = some c → c.Reads w (decide (j = natOfBits vs))) ∧
          ∀ ns level, Sound H w (pickEach ns level new xs chosen) fun row =>
            row.map (Num.eval w) = (xs.map (Num.eval w)).set (natOfBits vs) (new.eval w))) ∧
    (bits.length < 64 → xs.length = 2 ^ bits.length → ∀ s values vs v, s.kind = .test →
      List.Forall₂ (Num.Known s) xs values → List.Forall₂ (Boolean.Known s) bits vs →
      new.Known s v → ∀ level, ∃ old chosen row t,
        exchange ns level xs bits new s = .ok ((old, chosen, row), t) ∧
          Satisfies H t.assignment (s.since t) ∧
          (∃ x, values[natOfBits vs]? = some x ∧ old.Known t x) ∧
          List.Forall₂ (Boolean.Known t) chosen (oneHot vs.length (natOfBits vs)) ∧
          List.Forall₂ (Num.Known t) row (values.set (natOfBits vs) v)) := by
  refine ⟨fun few s => ?_, fun many s => ⟨select_refused_iff, fun r hrun => ?_⟩,
    fun hlen w binary => ?_, fun few hlen s values vs v hs hxs hbits hnew level => ?_⟩
  · rw [select_refused_iff, shiftOne_of_lt few]
  · exact Nat.not_lt.mpr many (selectable_of_select hrun).1
  · obtain ⟨vs, hvs⟩ := exists_forall₂_reads binary
    have width : xs.length = 2 ^ vs.length := by rw [hlen, hvs.length_eq]
    refine ⟨vs, hvs, width ▸ natOfBits_lt vs, ?_, ?_⟩
    · exact fun s r t hs hrun hw => (forces_select ns xs bits).sound s r t hs hrun hw vs hvs
    · intro s chosen t hs hrun hw
      have told := (forces_selectors ns bits).sound s chosen t hs hrun hw vs hvs
      refine ⟨?_, fun j c => reads_of_oneHot told, ?_⟩
      · rw [told.length_eq, length_oneHot, hvs.length_eq]
      · exact fun ns level s row t hs hrun hw =>
          (forces_pickEachAt ns level new xs chosen).sound s row t hs hrun hw _ _ width told
  · obtain ⟨⟨old, chosen, row⟩, t, hrun, known, holds⟩ :=
      (computes_exchange (H := H) ns level ⟨few, hlen⟩ hxs hbits hnew).run hs
    exact ⟨old, chosen, row, t, hrun, holds.mpr trivial, known⟩

/-- A negated bit that is zero selects the second of two numbers, and the second is replaced. From
two numbers nothing is selected by two bits, or by as many as a word has. -/
theorem exchange_index_negated :
    let before : System .pallasBase :=
      ((((System.empty .test).addVariable [.num, .operand 0] (some 3)).addVariable
        [.num, .operand 1] (some 5)).addVariable [.num, .operand 2] (some 7)).addVariable
          [.boolean, .operandBit 0] (some 0)
    let xs : List (Num .pallasBase) := [⟨0, some 3⟩, ⟨1, some 5⟩]
    let bit : Boolean := .not ⟨3, some false⟩
    (∃ old chosen row t, exchange [] 0 xs [bit] ⟨2, some 7⟩ before = .ok ((old, chosen, row), t) ∧
      Satisfies weigh t.assignment (before.since t) ∧ old.Known t 5 ∧
      List.Forall₂ (Boolean.Known t) chosen [false, true] ∧
      List.Forall₂ (Num.Known t) row [3, 7]) ∧
      (∃ r t, select [] xs [bit] before = .ok (r, t) ∧
        Satisfies weigh t.assignment (before.since t) ∧ r.eval t.assignment = 5) ∧
      errorOf (select [] xs [bit, bit]) before = some .unsatisfiable ∧
      ∀ r, select [] xs (List.replicate 64 bit) before ≠ .ok r := by
  intro before xs bit
  have known : List.Forall₂ (Num.Known before) xs [3, 5] :=
    .cons ⟨rfl, _, rfl⟩ (.cons ⟨rfl, _, rfl⟩ .nil)
  have knownBit : List.Forall₂ (Boolean.Known before) [bit] [true] := .cons ⟨rfl, _, rfl⟩ .nil
  obtain ⟨-, -, sound, honest⟩ := exchange_index weigh [] xs [bit] ⟨2, some 7⟩
  obtain ⟨refused, -⟩ := exchange_index weigh [] xs [bit, bit] ⟨2, some 7⟩
  obtain ⟨-, wide, -⟩ := exchange_index weigh [] xs (List.replicate 64 bit) ⟨2, some 7⟩
  refine ⟨?_, ?_, (refused (by decide) before).mpr (by decide),
    (wide (by rw [List.length_replicate]) before).2⟩
  · obtain ⟨old, chosen, row, t, hrun, holds, ⟨x, found, hold⟩, told, replaced⟩ :=
      honest (by decide) rfl before _ _ 7 rfl known knownBit ⟨rfl, _, rfl⟩ 0
    obtain rfl : 5 = x := Option.some.inj found
    exact ⟨old, chosen, row, t, hrun, holds, hold, told, replaced⟩
  · obtain ⟨r, t, cs, hrun, he, -, holds⟩ :=
      (computes_selectAt (H := weigh) [] known knownBit ⟨by decide, rfl⟩).of_run rfl
    have agrees := agrees_assignment t
    have reads : ∀ b ∈ [bit], b.Reads t.assignment true := by
      rw [List.forall_mem_singleton]
      exact Boolean.Known.reads (b := bit) ⟨rfl, _, rfl⟩ (agrees.mono he.auxes)
    have satisfies : Satisfies weigh t.assignment (before.since t) :=
      he.since_eq ▸ (holds.iff _ agrees).mpr trivial
    obtain ⟨vs, hvs, -, selects, -⟩ :=
      sound rfl t.assignment fun b hb => Boolean.binary_iff.mpr ⟨true, reads b hb⟩
    have selected := selects before r t (by decide) hrun satisfies
    rw [Num.map_eval_of_known known (agrees.mono he.auxes)] at selected
    obtain rfl : vs = [true] := Boolean.rightUnique_reads.forall₂ hvs
      (.cons (reads bit (List.mem_singleton_self bit)) .nil)
    exact ⟨r, t, hrun, satisfies, (Option.some.inj selected).symm⟩

/-- A word takes the indices of sixty-four bits for one. So one number is not refused, but there is
none left to take, and nothing is returned. -/
theorem exists_select_crash :
    let number : Num .pallasBase := ⟨0, some 5⟩
    let bits : List Boolean := List.replicate 64 (.constant false)
    let before : System .pallasBase :=
      (System.empty .test).addVariable [.num, .operand 0] (some 5)
    [number].length ≠ 2 ^ bits.length ∧
      errorOf (select [.select] [number] bits) before ≠ some .unsatisfiable ∧
      ∀ r, select [.select] [number] bits before ≠ .ok r := by
  intro number bits before
  have crashes : select [.select] [number] bits before = .error ⟨none, before⟩ :=
    select_singleton (by decide) (by decide)
  refine ⟨by decide, ?_, ?_⟩
  · rw [errorOf, crashes]
    simp
  · intro r hrun
    cases crashes.symm.trans hrun

end PoseidonTrie.Circuit
