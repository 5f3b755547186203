import Mathlib.Logic.Function.Basic
import PoseidonTrie.Proofs.Trie.Digits

/-! The tree that a root commits to, as plain recursion over all leaves of a height. -/
namespace PoseidonTrie

variable {f : PrimeField} {a : Arity} {H : Hasher f} {height n : Nat}

/-- The leaves of a tree by number. Only those below its capacity count. -/
abbrev Leaves (f : PrimeField) := Nat → Element f

/-- The leaves under child `k` of a node whose children have `size` leaves each. -/
def Leaves.under (leaves : Leaves f) (size k : Nat) : Leaves f :=
  fun i => leaves (k * size + i)

/-- The commitment of a tree: a leaf itself, or the hash of the commitments of all children. -/
def commit (H : Hasher f) (a : Arity) : (height : Nat) → Leaves f → Element f
  | 0, leaves => leaves 0
  | height + 1, leaves =>
    H a (Vector.ofFn fun k => commit H a height (leaves.under (a.width ^ height) k))

/-- The topmost node of a tree over trees of a height. -/
def topNode (H : Hasher f) (a : Arity) (height : Nat) (leaves : Leaves f) : Node f a.width :=
  Vector.ofFn fun k => commit H a height (leaves.under (a.width ^ height) k)

/-- The nodes above a leaf, topmost first. -/
def nodesAbove (H : Hasher f) (a : Arity) :
    (height : Nat) → Leaves f → (n : Nat) → List (Node f a.width)
  | 0, _, _ => []
  | height + 1, leaves, n =>
    topNode H a height leaves ::
      nodesAbove H a height (leaves.under (a.width ^ height) (n / a.width ^ height))
        (n % a.width ^ height)

/-- A hash that tells small binary nodes apart. -/
def weigh : Hasher .pallasBase := fun _ node =>
  node.toList.foldl (fun sum x => sum + sum + x) 0

theorem commit_zero (leaves : Leaves f) : commit H a 0 leaves = leaves 0 := rfl

theorem commit_succ (leaves : Leaves f) :
    commit H a (height + 1) leaves = H a (topNode H a height leaves) := rfl

@[simp] theorem child_topNode (leaves : Leaves f) (k : Fin a.width) :
    (topNode H a height leaves).child k =
      commit H a height (leaves.under (a.width ^ height) k) := by
  simp [topNode, Node.child]

theorem digits_succ_of_lt (hn : n < a.width ^ (height + 1)) :
    ∃ h : n / a.width ^ height < a.width,
      a.digits (height + 1) n =
        ⟨n / a.width ^ height, h⟩ :: a.digits height (n % a.width ^ height) := by
  have top : n / a.width ^ height < a.width := by
    rw [Nat.pow_succ, Nat.mul_comm] at hn
    exact Nat.div_lt_of_lt_mul (by rwa [Nat.mul_comm] at hn)
  refine ⟨top, ?_⟩
  rw [Arity.digits_succ, Arity.digits_mod (Nat.le_refl height)]
  congr 1
  exact Fin.ext (Nat.mod_eq_of_lt top)

theorem mod_lt_capacity (n : Nat) : n % a.width ^ height < a.width ^ height :=
  Nat.mod_lt _ (Nat.pow_pos a.width_pos)

theorem under_lt_capacity {k i : Nat} (hk : k < a.width) (hi : i < a.width ^ height) :
    k * a.width ^ height + i < a.width ^ (height + 1) := by
  calc k * a.width ^ height + i < k * a.width ^ height + a.width ^ height := by omega
    _ = (k + 1) * a.width ^ height := by rw [Nat.add_mul, Nat.one_mul]
    _ ≤ a.width * a.width ^ height := Nat.mul_le_mul_right _ hk
    _ = a.width ^ (height + 1) := by rw [Nat.pow_succ, Nat.mul_comm]

/-- Only the leaves below the capacity count. -/
theorem commit_congr {l l' : Leaves f} (h : ∀ i < a.width ^ height, l i = l' i) :
    commit H a height l = commit H a height l' := by
  induction height generalizing l l' with
  | zero => exact h 0 (by simp)
  | succ height ih =>
    rw [commit_succ, commit_succ]
    congr 1
    apply Node.ext_child
    intro k
    rw [child_topNode, child_topNode]
    apply ih
    intro i hi
    exact h _ (under_lt_capacity k.isLt hi)

theorem topNode_congr {l l' : Leaves f} (h : ∀ i < a.width ^ (height + 1), l i = l' i) :
    topNode H a height l = topNode H a height l' := by
  apply Node.ext_child
  intro k
  rw [child_topNode, child_topNode]
  apply commit_congr
  intro i hi
  exact h _ (under_lt_capacity k.isLt hi)

theorem under_update_self (leaves : Leaves f) (n : Nat) (value : Element f) :
    Leaves.under (Function.update leaves n value) (a.width ^ height) (n / a.width ^ height) =
      Function.update (leaves.under (a.width ^ height) (n / a.width ^ height))
        (n % a.width ^ height) value := by
  funext i
  have split := Nat.div_add_mod n (a.width ^ height)
  rw [Nat.mul_comm] at split
  by_cases hi : i = n % a.width ^ height
  · subst hi
    rw [Leaves.under, split, Function.update_self, Function.update_self]
  · rw [Leaves.under, Function.update_of_ne (by omega), Function.update_of_ne hi, Leaves.under]

theorem under_update_of_ne {k : Nat} (leaves : Leaves f) (value : Element f)
    (hk : k ≠ n / a.width ^ height) {i : Nat} (hi : i < a.width ^ height) :
    Leaves.under (Function.update leaves n value) (a.width ^ height) k i =
      leaves.under (a.width ^ height) k i := by
  apply Function.update_of_ne
  rintro rfl
  apply hk
  rw [Nat.mul_comm, Nat.mul_add_div (Nat.pow_pos a.width_pos), Nat.div_eq_of_lt hi, Nat.add_zero]

/-- A write replaces one child of the topmost node. -/
theorem topNode_update {k : Fin a.width} (hk : k.val = n / a.width ^ height) (leaves : Leaves f)
    (value : Element f) :
    topNode H a height (Function.update leaves n value) =
      (topNode H a height leaves).put k
        (commit H a height (Function.update (leaves.under (a.width ^ height) k)
          (n % a.width ^ height) value)) := by
  apply Node.ext_child
  intro j
  by_cases hj : j = k
  · subst hj
    rw [Node.child_put_self, child_topNode, hk, under_update_self]
  · rw [Node.child_put_of_ne _ hj, child_topNode, child_topNode]
    apply commit_congr
    intro i hi
    exact under_update_of_ne leaves value (fun e => hj (Fin.ext (e.trans hk.symm))) hi

end PoseidonTrie
