import PoseidonTrie.Proofs.Circuit.Path
import PoseidonTrie.Proofs.Circuit.Values

namespace PoseidonTrie.Circuit

variable {f : PrimeField} {a : Arity} {H : Hasher f} {w : Assignment f} {s t : System f}

theorem Num.known_of_map_eval {xs : List (Num f)} {vs : List (Element f)}
    (hxs : ∀ x ∈ xs, x.Valued t) (h : xs.map (Num.eval t.assignment) = vs) :
    List.Forall₂ (Num.Known t) xs vs := by
  subst h
  induction xs with
  | nil => exact .nil
  | cons x xs ih =>
    obtain ⟨⟨v, hx⟩, hxs⟩ := List.forall_mem_cons.mp hxs
    refine .cons ?_ (ih hxs)
    rw [hx.eval (agrees_assignment t)]
    exact hx

theorem exists_of_forall₂ {α β : Type} {R : α → β → Prop} {xs : List α} {ys : List β}
    (h : List.Forall₂ R xs ys) : ∀ x ∈ xs, ∃ y, R x y := by
  induction h with
  | nil => simp
  | cons hxy _ ih => exact List.forall_mem_cons.mpr ⟨⟨_, hxy⟩, ih⟩

theorem computes_pickHalf (ns : Path) (round : Nat) {bit : Boolean} {low high : List (Num f)}
    (hbit : bit.Valued s) (hlow : ∀ x ∈ low, x.Valued s) (hhigh : ∀ x ∈ high, x.Valued s) :
    Computes H s (pickHalf ns round bit low high) True fun t next =>
      (∀ x ∈ next, x.Valued t) ∧ next.length = min low.length high.length := by
  apply (Computes.mapM_forall (S := Num.Valued) _ (fun _ _ _ hg h => h.mono hg) ?_).mono
  · rintro t next _ ⟨hnext, hcount⟩
    exact ⟨hnext, by rw [hcount, List.length_zipIdx, List.length_zip]⟩
  · rintro ⟨⟨l, h⟩, j⟩ hmem t ht
    obtain ⟨hl, hh⟩ := List.of_mem_zip (List.fst_mem_of_mem_zipIdx hmem)
    apply Computes.next (computes_enter ..)
    intro u ns' hu _
    have later : s.Grows u := ht.trans hu
    exact computes_pick_valued ns' (hbit.mono later) ((hhigh h hh).mono later)
      ((hlow l hl).mono later)

theorem computes_selectFrom (ns : Path) (round : Nat) {bits : List Boolean} {xs : List (Num f)}
    (hbits : ∀ b ∈ bits, b.Valued s) (hxs : ∀ x ∈ xs, x.Valued s)
    (hlen : xs.length = 2 ^ bits.length) :
    Computes H s (selectFrom ns round bits xs) True fun t r => r.Valued t := by
  induction bits generalizing round xs s with
  | nil =>
    match xs, hlen with
    | [x], _ => exact computes_pure (hxs x (List.mem_singleton_self x))
  | cons bit bits ih =>
    obtain ⟨hbit, hbits⟩ := List.forall_mem_cons.mp hbits
    rw [List.length_cons, Nat.pow_succ] at hlen
    rw [selectFrom]
    apply Computes.next (computes_pickHalf ns round hbit
      (fun x hx => hxs x (List.mem_of_mem_take hx)) (fun x hx => hxs x (List.mem_of_mem_drop hx)))
    rintro t next ht ⟨hnext, hcount⟩
    apply ih (round + 1) (fun b hb => (hbits b hb).mono ht) hnext
    rw [hcount, List.length_take, List.length_drop]
    omega

theorem computes_select (ns : Path) {bits : List Boolean} {xs : List (Num f)}
    (hbits : ∀ b ∈ bits, b.Valued s) (hxs : ∀ x ∈ xs, x.Valued s) (h : Selectable xs bits) :
    Computes H s (select ns xs bits) True fun t r => r.Valued t := by
  rw [h.select_eq]
  apply computes_selectFrom ns 0 _ hxs (by rw [h.2, List.length_reverse])
  exact fun b hb => hbits b (List.mem_reverse.mp hb)

theorem computes_selectorRound (ns : Path) (i : Nat) {bit : Boolean} {chosen : List Boolean}
    (hbit : bit.Valued s) (hchosen : ∀ c ∈ chosen, c.Valued s) :
    Computes H s (selectorRound ns i bit chosen) True fun t next => ∀ c ∈ next, c.Valued t := by
  apply Computes.next (Computes.mapM_forall (S := fun (t : System f) (r : Boolean × Boolean) =>
    r.1.Valued t ∧ r.2.Valued t) _ (fun _ _ _ hg h => ⟨h.1.mono hg, h.2.mono hg⟩) ?_)
  · rintro t pairs _ ⟨hpairs, -⟩
    refine computes_pure fun c hc => ?_
    rcases List.mem_append.mp hc with hc | hc
    · obtain ⟨r, hr, rfl⟩ := List.mem_map.mp hc
      exact (hpairs r hr).1
    · obtain ⟨r, hr, rfl⟩ := List.mem_map.mp hc
      exact (hpairs r hr).2
  · rintro ⟨c, j⟩ hmem t ht
    obtain ⟨x, hx⟩ := (hchosen c (List.fst_mem_of_mem_zipIdx hmem)).mono ht
    obtain ⟨y, hy⟩ := hbit.mono ht
    apply Computes.next (computes_enter ..)
    intro t₁ ns₁ h₁ _
    apply Computes.next (Boolean.computes_and ns₁ (hx.mono h₁) (hy.mono h₁).negate)
    intro t₂ unset h₂ hunset
    apply Computes.next (computes_enter ..)
    intro t₃ ns₃ h₃ _
    have later : t.Grows t₃ := h₁.trans (h₂.trans h₃)
    apply Computes.next (Boolean.computes_and ns₃ (hx.mono later) (hy.mono later))
    intro t₄ set h₄ hset
    exact computes_pure ⟨⟨_, hunset.mono (h₃.trans h₄)⟩, ⟨_, hset⟩⟩

theorem computes_selectorsFrom (ns : Path) (i : Nat) {bits chosen : List Boolean}
    (hbits : ∀ b ∈ bits, b.Valued s) (hchosen : ∀ c ∈ chosen, c.Valued s) :
    Computes H s (selectorsFrom ns i bits chosen) True fun t r => ∀ c ∈ r, c.Valued t := by
  induction bits generalizing i chosen s with
  | nil => exact computes_pure hchosen
  | cons bit bits ih =>
    obtain ⟨hbit, hbits⟩ := List.forall_mem_cons.mp hbits
    apply Computes.next (computes_selectorRound ns i hbit hchosen)
    intro t next ht hnext
    exact ih (i + 1) (fun b hb => (hbits b hb).mono ht) hnext

theorem computes_selectors (ns : Path) {bits : List Boolean} (hbits : ∀ b ∈ bits, b.Valued s) :
    Computes H s (selectors ns bits) True fun t r => ∀ c ∈ r, c.Valued t := by
  apply computes_selectorsFrom ns 0 hbits
  intro c hc
  obtain rfl := List.mem_singleton.mp hc
  exact ⟨true, rfl⟩

theorem computes_pickEach (ns : Path) (level : Nat) {below : Num f} {row : List (Num f)}
    {chosen : List Boolean} (hbelow : below.Valued s) (hrow : ∀ x ∈ row, x.Valued s)
    (hchosen : ∀ c ∈ chosen, c.Valued s) :
    Computes H s (pickEach ns level below row chosen) True fun t out =>
      ∀ x ∈ out, x.Valued t := by
  apply (Computes.mapM_forall (S := Num.Valued) _ (fun _ _ _ hg h => h.mono hg) ?_).mono
  · exact fun t out _ hout => hout.1
  · rintro ⟨⟨sibling, c⟩, i⟩ hmem t ht
    obtain ⟨hs, hc⟩ := List.of_mem_zip (List.fst_mem_of_mem_zipIdx hmem)
    apply Computes.next (computes_enter ..)
    intro u ns' hu _
    have later : s.Grows u := ht.trans hu
    exact computes_pick_valued ns' ((hchosen c hc).mono later) (hbelow.mono later)
      ((hrow sibling hs).mono later)

end PoseidonTrie.Circuit
