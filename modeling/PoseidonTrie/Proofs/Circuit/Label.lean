import Mathlib.Data.List.Basic
import PoseidonTrie.Circuit.Report

/-! The texts of names. No two labels have the same text, and no label has a slash in its text, so
no two paths have the same text either. -/
namespace PoseidonTrie.Circuit

theorem intercalate_inj {sep : String} {c : Char} (hsep : sep.toList = [c]) {xs ys : List String}
    (hxs : ∀ x ∈ xs, c ∉ x.toList) (hys : ∀ y ∈ ys, c ∉ y.toList) (hx : xs ≠ []) (hy : ys ≠ [])
    (h : sep.intercalate xs = sep.intercalate ys) : xs = ys := by
  have split {zs : List String} (hzs : ∀ z ∈ zs, c ∉ z.toList) (hz : zs ≠ []) :
      List.splitOn c (sep.intercalate zs).toList = zs.map String.toList := by
    rw [String.toList_intercalate, hsep]
    apply List.splitOn_intercalate
    · simpa using hzs
    · simpa using hz
  have parts := congrArg (fun s : String => List.splitOn c s.toList) h
  rw [split hxs hx, split hys hy] at parts
  exact List.map_injective_iff.mpr (fun _ _ => String.toList_injective) parts

theorem mem_intercalate {sep : String} {c : Char} {xs : List String}
    (h : c ∈ (sep.intercalate xs).toList) : c ∈ sep.toList ∨ ∃ x ∈ xs, c ∈ x.toList := by
  induction xs with
  | nil => simp at h
  | cons x xs ih =>
    cases xs with
    | nil => exact .inr ⟨x, List.mem_singleton_self x, by simpa using h⟩
    | cons y xs =>
      rw [String.intercalate_cons_cons, String.toList_append, String.toList_append,
        List.append_assoc, List.mem_append, List.mem_append] at h
      rcases h with hx | hsep | hrest
      · exact .inr ⟨x, List.mem_cons_self .., hx⟩
      · exact .inl hsep
      · exact (ih hrest).imp_right fun ⟨z, hz, hc⟩ => ⟨z, List.mem_cons_of_mem _ hz, hc⟩

namespace Label

/-- What is left of a word without its digits. -/
def plain (w : String) : List Char :=
  w.toList.filter fun c => !c.isDigit

theorem isDigit_of_mem_repr {n : Nat} {c : Char} (h : c ∈ n.repr.toList) : c.isDigit = true := by
  rw [Nat.toList_repr] at h
  exact Nat.isDigit_of_mem_toDigits (by decide) (by decide) h

@[simp] theorem plain_repr (n : Nat) : plain n.repr = [] := by
  apply List.filter_eq_nil_iff.mpr
  intro c hc
  simp [isDigit_of_mem_repr hc]

@[simp] theorem plain_append (v w : String) : plain (v ++ w) = plain v ++ plain w := by
  simp [plain]

@[simp] theorem repr_inj {m n : Nat} : m.repr = n.repr ↔ m = n := by
  refine ⟨fun h => ?_, congrArg Nat.repr⟩
  have digits := congrArg String.toList h
  rw [Nat.toList_repr, Nat.toList_repr] at digits
  rw [← @Nat.ofDigitChars_ten_toDigits m, digits, Nat.ofDigitChars_ten_toDigits]

/-- The words without their digits. -/
def sketch (l : Label) : List (List Char) :=
  l.words.map plain

/-- The label with other numbers. -/
def reindex (i j : Nat) : Label → Label
  | bit _ => bit i
  | runEnding _ => runEnding i
  | andWith _ => andWith i
  | pickAt _ _ => pickAt i j
  | bitUnset _ _ => bitUnset i j
  | bitSet _ _ => bitSet i j
  | levelChild _ _ => levelChild i j
  | levelHash _ => levelHash i
  | levelCommitment _ => levelCommitment i
  | levelSelect _ => levelSelect i
  | levelSelectors _ => levelSelectors i
  | levelNewChild _ _ => levelNewChild i j
  | levelNewHash _ => levelNewHash i
  | slot _ => slot i
  | state _ => state i
  | operand _ => operand i
  | operandBit _ => operandBit i
  | l => l

/-- Every label, with zero for its numbers. -/
def blanks : List Label :=
  [num, boolean, booleanConstraint, andResult, andConstraint, andNotResult, andNotConstraint,
    norResult, norConstraint, hashOutput, bit 0, runEnding 0, andWith 0, strictBits,
    unpackingConstraint, packBits, pick, pickResult, pickAt 0 0, bitUnset 0 0, bitSet 0 0, inverse,
    numIsNonzero, keyBits, levelChild 0 0, levelHash 0, levelCommitment 0, levelSelect 0, oldPath,
    valueIsNonzero, levelSelectors 0, levelNewChild 0 0, levelNewHash 0, slot 0, key, value, active,
    insert, nextRoot, root, state 0, operand 0, operandBit 0, equal, select, nonzero, bits,
    selectors, hash]

theorem reindex_mem_blanks (l : Label) : l.reindex 0 0 ∈ blanks := by
  cases l <;> simp [reindex, blanks]

theorem reindex_reindex (l : Label) (i j i' j' : Nat) :
    (l.reindex i j).reindex i' j' = l.reindex i' j' := by
  cases l <;> rfl

theorem sketch_reindex (l : Label) (i j : Nat) : (l.reindex i j).sketch = l.sketch := by
  cases l <;> simp [sketch, words, reindex]

theorem exists_reindex (l : Label) : ∃ i j, l.reindex i j = l := by
  cases l with
  | bit i | runEnding i | andWith i | levelHash i | levelCommitment i | levelSelect i
  | levelSelectors i | levelNewHash i | slot i | state i | operand i | operandBit i =>
    exact ⟨i, 0, rfl⟩
  | pickAt i j | bitUnset i j | bitSet i j | levelChild i j | levelNewChild i j => exact ⟨i, j, rfl⟩
  | _ => exact ⟨0, 0, rfl⟩

theorem words_reindex_iff (l : Label) (i j : Nat) :
    (l.reindex i j).words = l.words ↔ l.reindex i j = l := by
  cases l <;> simp [words, reindex]

theorem sketch_blanks :
    ∀ l ∈ blanks, ∀ l' ∈ blanks, l.sketch = l'.sketch → l = l' := by
  decide +kernel

theorem plain_blanks : ∀ l ∈ blanks, ∀ w ∈ l.sketch, ' ' ∉ w ∧ '/' ∉ w ∧ 'O' ∉ w := by
  decide +kernel

/-- Labels that differ in kind differ without their digits, and those of one kind in a number. -/
theorem words_injective : Function.Injective words := by
  intro l l' h
  have same : l.reindex 0 0 = l'.reindex 0 0 := by
    apply sketch_blanks _ l.reindex_mem_blanks _ l'.reindex_mem_blanks
    rw [sketch_reindex, sketch_reindex, sketch, sketch, h]
  obtain ⟨i, j, hl⟩ := l'.exists_reindex
  rw [← reindex_reindex l' 0 0, ← same, reindex_reindex] at hl
  rw [← hl] at h ⊢
  exact ((words_reindex_iff l i j).mp h.symm).symm

theorem words_ne_nil (l : Label) : l.words ≠ [] := by
  cases l <;> simp [words]

theorem words_ne_blank (l : Label) : l.words ≠ [""] := by
  cases l <;> simp [words]

/-- A word has no space and no slash, and not the first letter of the constant's name. -/
theorem ne_of_mem_word {l : Label} {w : String} {c : Char} (hw : w ∈ l.words) (hc : c ∈ w.toList) :
    c ≠ ' ' ∧ c ≠ '/' ∧ c ≠ 'O' := by
  cases digit : c.isDigit with
  | true => refine ⟨?_, ?_, ?_⟩ <;> (rintro rfl; revert digit; decide)
  | false =>
    have left : c ∈ plain w := List.mem_filter.mpr ⟨hc, by rw [digit]; rfl⟩
    have known : plain w ∈ (l.reindex 0 0).sketch := by
      rw [sketch_reindex]
      exact List.mem_map_of_mem hw
    obtain ⟨space, slash, letter⟩ := plain_blanks _ l.reindex_mem_blanks _ known
    refine ⟨?_, ?_, ?_⟩
    · rintro rfl
      exact space left
    · rintro rfl
      exact slash left
    · rintro rfl
      exact letter left

theorem space_not_mem_words {l : Label} : ∀ w ∈ l.words, ' ' ∉ w.toList :=
  fun _ hw hc => (ne_of_mem_word hw hc).1 rfl

theorem text_injective : Function.Injective text := fun l l' h =>
  words_injective (intercalate_inj rfl space_not_mem_words space_not_mem_words l.words_ne_nil
    l'.words_ne_nil h)

theorem text_ne_empty (l : Label) : l.text ≠ "" := fun h =>
  l.words_ne_blank (intercalate_inj rfl space_not_mem_words (by simp) l.words_ne_nil (by simp)
    (h.trans String.intercalate_singleton.symm))

theorem ne_of_mem_text {l : Label} {c : Char} (h : c ∈ l.text.toList) : c ≠ '/' ∧ c ≠ 'O' := by
  rcases mem_intercalate h with h | ⟨w, hw, hc⟩
  · obtain rfl := List.mem_singleton.mp h
    decide
  · exact (ne_of_mem_word hw hc).2

theorem slash_not_mem_text (l : Label) : '/' ∉ l.text.toList :=
  fun h => (ne_of_mem_text h).1 rfl

end Label

namespace Path

theorem slash_not_mem_texts (p : Path) : ∀ x ∈ p.reverse.map Label.text, '/' ∉ x.toList := by
  intro x hx
  obtain ⟨l, -, rfl⟩ := List.mem_map.mp hx
  exact l.slash_not_mem_text

theorem text_ne_empty {p : Path} (hp : p ≠ []) : p.text ≠ "" := by
  intro h
  have labels : p.reverse.map Label.text = [""] :=
    intercalate_inj rfl p.slash_not_mem_texts (by simp) (by simpa using hp) (by simp)
      (h.trans String.intercalate_singleton.symm)
  have empty : "" ∈ p.reverse.map Label.text := labels ▸ List.mem_singleton_self ""
  obtain ⟨l, -, hl⟩ := List.mem_map.mp empty
  exact l.text_ne_empty hl

theorem text_injective : Function.Injective text := by
  intro p q h
  by_cases hp : p = []
  · subst hp
    by_contra hq
    exact text_ne_empty (Ne.symm hq) h.symm
  · have hq : q ≠ [] := by
      rintro rfl
      exact text_ne_empty hp h
    have labels := intercalate_inj rfl p.slash_not_mem_texts q.slash_not_mem_texts
      (by simpa using hp) (by simpa using hq) h
    exact List.reverse_injective (List.map_injective_iff.mpr Label.text_injective labels)

theorem text_ne_oneName (p : Path) : p.text ≠ oneName := by
  intro h
  have letter : 'O' ∈ p.text.toList := by
    rw [h]
    decide
  rcases mem_intercalate letter with hc | ⟨x, hx, hc⟩
  · revert hc
    decide
  · obtain ⟨l, -, rfl⟩ := List.mem_map.mp hx
    exact (Label.ne_of_mem_text hc).2 rfl

end Path

end PoseidonTrie.Circuit
