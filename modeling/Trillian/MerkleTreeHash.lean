import Mathlib

/-! The Merkle Tree Hash of RFC 6962 section 2.1, over any type of hashes, and the bottom-up
view of the same tree. Leaves are given by their leaf hashes; `hc` combines two children and
`e` is the hash of the empty tree. The node at level `l` and index `j` hashes the leaves
`j * 2^l` up to `(j+1) * 2^l` that exist, so nodes "float up" over missing right halves. -/

namespace Rfc6962

variable {α : Type*} (hc : α → α → α) (e : α)

/-- The largest power of two below `n`, for `n ≥ 2`: where a tree of `n` leaves is split. -/
def splitPoint (n : ℕ) : ℕ := 2 ^ Nat.log 2 (n - 1)

theorem splitPoint_eq {n l : ℕ} (h1 : 2 ^ l < n) (h2 : n ≤ 2 ^ (l + 1)) :
    splitPoint n = 2 ^ l := by
  have hlog : Nat.log 2 (n - 1) = l := Nat.log_eq_of_pow_le_of_lt_pow (by omega) (by omega)
  rw [splitPoint, hlog]

theorem exists_split_level {n : ℕ} (hn : 2 ≤ n) : ∃ l, 2 ^ l < n ∧ n ≤ 2 ^ (l + 1) := by
  refine ⟨Nat.log 2 (n - 1), ?_, ?_⟩
  · have h := Nat.pow_log_le_self 2 (show n - 1 ≠ 0 by omega)
    omega
  · have h := Nat.lt_pow_succ_log_self (show 1 < 2 by norm_num) (n - 1)
    rw [Nat.succ_eq_add_one] at h
    omega

theorem splitPoint_pos (n : ℕ) : 0 < splitPoint n := Nat.two_pow_pos _

theorem splitPoint_lt {n : ℕ} (hn : 2 ≤ n) : splitPoint n < n := by
  obtain ⟨l, h1, h2⟩ := exists_split_level hn
  rw [splitPoint_eq h1 h2]
  exact h1

/-- `MTH(D)` of RFC 6962 section 2.1: the empty tree hashes to `e`, a single leaf to its own
hash, and a larger tree to `hc` of its two parts split at `splitPoint`. -/
def mth : List α → α
  | [] => e
  | [d] => d
  | d₀ :: d₁ :: ds =>
    hc (mth ((d₀ :: d₁ :: ds).take (splitPoint (ds.length + 2))))
      (mth ((d₀ :: d₁ :: ds).drop (splitPoint (ds.length + 2))))
termination_by D => D.length
decreasing_by
  all_goals simp only [List.length_take, List.length_drop, List.length_cons]
  · have h := splitPoint_lt (show 2 ≤ ds.length + 2 by omega)
    omega
  · have h := splitPoint_pos (ds.length + 2)
    omega

@[simp] theorem mth_nil : mth hc e [] = e := by
  rw [mth]

@[simp] theorem mth_singleton (d : α) : mth hc e [d] = d := by
  rw [mth]

theorem mth_of_two_le {D : List α} (h : 2 ≤ D.length) :
    mth hc e D = hc (mth hc e (D.take (splitPoint D.length)))
      (mth hc e (D.drop (splitPoint D.length))) := by
  match D, h with
  | d₀ :: d₁ :: ds, _ => rw [mth]; rfl

theorem mth_split {D : List α} {l : ℕ} (h1 : 2 ^ l < D.length) (h2 : D.length ≤ 2 ^ (l + 1)) :
    mth hc e D = hc (mth hc e (D.take (2 ^ l))) (mth hc e (D.drop (2 ^ l))) := by
  have h2l : 2 ≤ D.length := by
    have h3 : 1 ≤ 2 ^ l := Nat.one_le_two_pow
    omega
  rw [mth_of_two_le hc e h2l, splitPoint_eq h1 h2]

/-- A property that every leaf and every output of `hc` has holds of the hash of every
nonempty tree. -/
theorem mth_prop (P : α → Prop) {D : List α} (hleaf : ∀ d ∈ D, P d) (hnode : ∀ a b, P (hc a b))
    (hD : D ≠ []) : P (mth hc e D) := by
  match D, hD with
  | [d], _ => rw [mth_singleton]; exact hleaf d List.mem_cons_self
  | d₀ :: d₁ :: ds, _ => rw [mth_of_two_le hc e (by simp)]; exact hnode _ _

/-- The hash of the node at `level` and `index` of the tree over `D`: the Merkle hash of the
leaves from `index * 2^level` on, at most `2^level` of them. -/
def nodeHash (D : List α) (level index : ℕ) : α :=
  mth hc e ((D.drop (index * 2 ^ level)).take (2 ^ level))

theorem nodeHash_zero {D : List α} {j : ℕ} (h : j < D.length) : nodeHash hc e D 0 j = D[j] := by
  unfold nodeHash
  rw [pow_zero, mul_one, List.drop_eq_getElem_cons h]
  exact mth_singleton hc e D[j]

/-- A node of level `l + 1` hashes its two children when its right child has leaves, and
is its left child otherwise. -/
theorem nodeHash_succ {D : List α} {l j : ℕ} (hj : j * 2 ^ (l + 1) < D.length) :
    nodeHash hc e D (l + 1) j =
      if (2 * j + 1) * 2 ^ l < D.length then
        hc (nodeHash hc e D l (2 * j)) (nodeHash hc e D l (2 * j + 1))
      else nodeHash hc e D l (2 * j) := by
  have hL : (2 * j) * 2 ^ l = j * 2 ^ (l + 1) := by ring
  have hR : (2 * j + 1) * 2 ^ l = j * 2 ^ (l + 1) + 2 ^ l := by ring
  have hp : 2 ^ (l + 1) = 2 ^ l + 2 ^ l := by ring
  have hpos : 0 < 2 ^ l := Nat.two_pow_pos l
  unfold nodeHash
  by_cases hr : (2 * j + 1) * 2 ^ l < D.length
  · rw [if_pos hr, hL, hR]
    rw [hR] at hr
    have hlen : ((D.drop (j * 2 ^ (l + 1))).take (2 ^ (l + 1))).length =
        min (2 ^ (l + 1)) (D.length - j * 2 ^ (l + 1)) := by simp
    have h1 : 2 ^ l < ((D.drop (j * 2 ^ (l + 1))).take (2 ^ (l + 1))).length := by
      rw [hlen]
      omega
    have h2 : ((D.drop (j * 2 ^ (l + 1))).take (2 ^ (l + 1))).length ≤ 2 ^ (l + 1) := by
      rw [hlen]
      omega
    rw [mth_split hc e h1 h2, List.take_take, List.drop_take, List.drop_drop]
    congr 3
    · omega
    · omega
  · rw [if_neg hr, hL]
    rw [hR] at hr
    have hshort : (D.drop (j * 2 ^ (l + 1))).length ≤ 2 ^ l := by
      rw [List.length_drop]
      omega
    rw [List.take_of_length_le hshort, List.take_of_length_le (by omega)]

theorem nodeHash_drop (D : List α) (k l j : ℕ) :
    nodeHash hc e (D.drop (k * 2 ^ l)) l j = nodeHash hc e D l (k + j) := by
  unfold nodeHash
  rw [List.drop_drop]
  congr 3
  ring

theorem nodeHash_take {D : List α} {m l j : ℕ} (h : (j + 1) * 2 ^ l ≤ m) :
    nodeHash hc e (D.take m) l j = nodeHash hc e D l j := by
  have hm : (j + 1) * 2 ^ l = j * 2 ^ l + 2 ^ l := by ring
  unfold nodeHash
  rw [List.drop_take, List.take_take]
  congr 2
  omega

theorem nodeHash_append {D : List α} (E : List α) {l j : ℕ} (h : (j + 1) * 2 ^ l ≤ D.length) :
    nodeHash hc e (D ++ E) l j = nodeHash hc e D l j := by
  rw [← @nodeHash_take _ hc e (D ++ E) _ _ _ h, List.take_left' rfl]

theorem nodeHash_root {D : List α} {l : ℕ} (h : D.length ≤ 2 ^ l) :
    nodeHash hc e D l 0 = mth hc e D := by
  unfold nodeHash
  rw [zero_mul, List.drop_zero, List.take_of_length_le h]

end Rfc6962
