import Mathlib.Algebra.BigOperators.Fin
import PoseidonTrie.Proofs.Circuit.Unpacking
import PoseidonTrie.Proofs.Trie.Commitment

/-! Decompositions are canonical for every number of bits. No assignment that satisfies one reads
its bits as another integer than the number's own, and the computed values satisfy it exactly if the
number is small enough. -/
namespace PoseidonTrie

variable {f : PrimeField}

theorem natOfBits_eq_sum (bits : List Bool) :
    natOfBits bits = ∑ i : Fin bits.length, 2 ^ i.val * bits[i].toNat := by
  induction bits with
  | nil => rfl
  | cons b rest ih =>
    change _ = ∑ i : Fin (rest.length + 1), 2 ^ i.val * (b :: rest)[i].toNat
    rw [Fin.sum_univ_succ, natOfBits_cons, ih, Finset.mul_sum]
    congr 1
    · exact (Nat.one_mul _).symm
    · apply Finset.sum_congr rfl
      intro i _
      change 2 * (2 ^ i.val * rest[i.val].toNat) = 2 ^ (i.val + 1) * rest[i.val].toNat
      rw [Nat.pow_succ', Nat.mul_assoc]

namespace Circuit

variable {H : Hasher f} {w : Assignment f} {s t : System f} {ns : Path} {x : Num f} {n : Nat}

theorem ofBool_injective (f : PrimeField) : Function.Injective (ofBool f) := by
  intro b b' h
  cases b <;> cases b' <;> simp at h ⊢

theorem Boolean.rightUnique_reads : Relator.RightUnique (Boolean.Reads w) := by
  intro b v v' h h'
  cases b with
  | is b => exact ofBool_injective f (Eq.trans (Eq.symm h) h')
  | not b => exact Bool.not_inj (ofBool_injective f (Eq.trans (Eq.symm h) h'))
  | constant c => exact Eq.trans (Eq.symm h) h'

/-- The bits beyond those of the modulus are constants. -/
theorem drop_of_numBits {bs : List Boolean} (hn : f.numBits ≤ n)
    (h : numBits ns x n s = .ok (bs, t)) (hlen : bs.length = n) :
    bs.drop f.numBits = List.replicate (n - f.numBits) (.constant false) := by
  rw [numBits, if_pos hn] at h
  obtain ⟨ns', s₁, -, h⟩ := bind_eq_ok h
  obtain ⟨low, s₂, -, h⟩ := bind_eq_ok h
  cases h
  rw [List.length_append, List.length_replicate] at hlen
  exact List.drop_left' (by omega)

/-- Whatever assignment satisfies the constraints of a decomposition, its Booleans read as bits that
add up to the number's canonical value, as integers. So the number is below the power of two, and
the bits are its own: no other bits can be read, nor from any other assignment that gives the number
this value. With the computed values the constraints hold exactly if the number is that small, which
it is if there are as many bits as the modulus has. Those beyond are constants then. -/
theorem numBits_canonical (H : Hasher f) (ns : Path) (x : Num f) (n : Nat) :
    (∀ (s t : System f) (bits : List Boolean), s.kind ≠ .witness →
      numBits ns x n s = .ok (bits, t) → ∀ w, Satisfies H w (s.since t) →
        ∃ vs, List.Forall₂ (Boolean.Reads w) bits vs ∧ vs.length = n ∧
          ∑ i : Fin vs.length, 2 ^ i.val * vs[i].toNat = (x.eval w).val ∧
          (x.eval w).val < 2 ^ n ∧
          ∀ w' vs', Satisfies H w' (s.since t) → x.eval w' = x.eval w →
            List.Forall₂ (Boolean.Reads w') bits vs' → vs' = vs) ∧
    ∀ (s : System f) (v : Element f), s.kind = .test → x.Known s v →
      ∃ bits t, numBits ns x n s = .ok (bits, t) ∧
        (Satisfies H t.assignment (s.since t) ↔ v.val < 2 ^ n) ∧
        (f.numBits ≤ n → Satisfies H t.assignment (s.since t) ∧
          bits.drop f.numBits = List.replicate (n - f.numBits) (.constant false)) := by
  refine ⟨fun s t bits hs hrun w hw => ?_, fun s v hs hx => ?_⟩
  · obtain ⟨cs, he, forced⟩ := (forces_numBits (H := H) ns x n).of_run s bits t hs hrun
    rw [he.since_eq] at hw ⊢
    obtain ⟨vs, hvs, hlen, hval⟩ := forced w hw
    refine ⟨vs, hvs, hlen, ?_, ?_, fun w' vs' hw' same h => ?_⟩
    · rw [← natOfBits_eq_sum]
      exact hval.symm
    · rw [← hlen]
      exact hval.trans_lt (natOfBits_lt vs)
    -- Both assignments read as many bits, which denote one number.
    · obtain ⟨us, hus, hlen', hval'⟩ := forced w' hw'
      obtain rfl := Boolean.rightUnique_reads.forall₂ h hus
      apply natOfBits_injective (hlen'.trans hlen.symm)
      rw [← hval, ← hval']
      exact congrArg Element.val same
  · obtain ⟨bits, t, hrun, known, holds⟩ := (computes_numBits (H := H) ns hx n).run hs
    refine ⟨bits, t, hrun, holds, fun hn => ⟨holds.mpr ?_, drop_of_numBits hn hrun ?_⟩⟩
    · have wide : v.val < 2 ^ f.numBits := lt_trans v.val_lt f.modulus_lt
      exact lt_of_lt_of_le wide (Nat.pow_le_pow_right Nat.two_pos hn)
    · rw [known.length_eq, List.length_map, List.length_range]

/-- Five is accepted in three bits, which add up to five whoever assigns them, but not in two. -/
theorem numBits_canonical_five :
    let five : Num .pallasBase := ⟨0, some (Element.ofNat _ 5)⟩
    let before : System .pallasBase :=
      (System.empty .test).addVariable [.num, .key] (some (Element.ofNat _ 5))
    (∃ bits t, numBits [] five 3 before = .ok (bits, t) ∧
      Satisfies weigh t.assignment (before.since t) ∧
      ∀ w vs, Satisfies weigh w (before.since t) → five.eval w = Element.ofNat _ 5 →
        List.Forall₂ (Boolean.Reads w) bits vs →
          ∑ i : Fin vs.length, 2 ^ i.val * vs[i].toNat = 5) ∧
      ∃ bits t, numBits [] five 2 before = .ok (bits, t) ∧
        ¬ Satisfies weigh t.assignment (before.since t) := by
  intro five before
  have known : five.Known before (Element.ofNat _ 5) := ⟨rfl, _, rfl⟩
  obtain ⟨forced, three⟩ := numBits_canonical weigh [] five 3
  obtain ⟨-, two⟩ := numBits_canonical weigh [] five 2
  obtain ⟨bits, t, hrun, holds, -⟩ := three before _ rfl known
  obtain ⟨bits', t', hrun', holds', -⟩ := two before _ rfl known
  refine ⟨⟨bits, t, hrun, holds.mpr (by decide), fun w vs hw value read => ?_⟩,
    bits', t', hrun', ?_⟩
  · obtain ⟨us, -, -, sum, -, only⟩ := forced before t bits (by decide) hrun w hw
    obtain rfl := only w vs hw rfl read
    rw [sum, value]
    rfl
  · rw [holds']
    decide

end Circuit

end PoseidonTrie
