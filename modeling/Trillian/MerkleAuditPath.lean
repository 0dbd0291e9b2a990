import Trillian.Bits
import Trillian.MerkleTreeHash

/-! The audit path `PATH(m, D)` and the consistency proof `PROOF(m, D)` of RFC 6962 sections
2.1.1 and 2.1.2, and their bottom-up form: level by level, the sibling of the current node
when the tree has one. Verifiers and proof builders walk the tree bottom-up, so every later
correctness proof goes through `auditPath_eq_pathLevels` and `subproof_eq_pathLevels`. -/

namespace Rfc6962

variable {α : Type*} (hc : α → α → α) (e : α)

/-- The index of the other child of the same parent. -/
def sib (j : ℕ) : ℕ := j ^^^ 1

theorem sib_eq (j : ℕ) : sib j = if j % 2 = 0 then j + 1 else j - 1 := by
  unfold sib
  have hdiv : (j ^^^ 1) / 2 = j / 2 := by
    rw [Nat.xor_div_two]
    simp
  have hmod : (j ^^^ 1) % 2 = 1 ↔ ¬ j % 2 = 1 := by
    rw [Nat.xor_mod_two_eq_one]
    simp
  have h1 := Nat.div_add_mod (j ^^^ 1) 2
  have h2 := Nat.div_add_mod j 2
  split_ifs <;> omega

@[simp] theorem sib_zero : sib 0 = 1 := rfl

@[simp] theorem sib_one : sib 1 = 0 := rfl

theorem sib_succ_le {j c : ℕ} (h : j < 2 * c) : sib j + 1 ≤ 2 * c := by
  rw [sib_eq]
  split_ifs <;> omega

theorem sib_add_two_mul (j c : ℕ) : sib (j + 2 * c) = sib j + 2 * c := by
  rw [sib_eq, sib_eq]
  split_ifs <;> omega

/-- The sibling of the level-`l` ancestor of leaf `m`, as a one-element list when the tree over
`D` has that node and empty when the ancestor has no sibling. -/
def siblingAt (D : List α) (m l : ℕ) : List α :=
  if sib (m / 2 ^ l) * 2 ^ l < D.length then [nodeHash hc e D l (sib (m / 2 ^ l))] else []

/-- The siblings of the ancestors of leaf `m` at levels `a ≤ l < a + c`, bottom-up. -/
def pathLevels (D : List α) (m a c : ℕ) : List α :=
  (List.range' a c).flatMap (siblingAt hc e D m)

theorem pathLevels_add (D : List α) (m a c d : ℕ) :
    pathLevels hc e D m a (c + d) = pathLevels hc e D m a c ++ pathLevels hc e D m (a + c) d := by
  unfold pathLevels
  rw [← List.range'_append, List.flatMap_append]
  simp

@[simp] theorem pathLevels_none (D : List α) (m a : ℕ) : pathLevels hc e D m a 0 = [] := by
  simp [pathLevels]

theorem pathLevels_one (D : List α) (m a : ℕ) :
    pathLevels hc e D m a 1 = siblingAt hc e D m a := by
  simp [pathLevels]

theorem siblingAt_of_length_le {D : List α} {m l : ℕ} (hm : m < D.length)
    (hl : D.length ≤ 2 ^ l) : siblingAt hc e D m l = [] := by
  have h0 : m / 2 ^ l = 0 := Nat.div_eq_of_lt (by omega)
  unfold siblingAt
  rw [h0, if_neg (by simp; omega)]

theorem pathLevels_of_length_le {D : List α} {m a : ℕ} (c : ℕ) (hm : m < D.length)
    (ha : D.length ≤ 2 ^ a) : pathLevels hc e D m a c = [] := by
  unfold pathLevels
  rw [List.flatMap_eq_nil_iff]
  intro l hl
  rw [List.mem_range'_1] at hl
  exact siblingAt_of_length_le hc e hm (le_trans ha (Nat.pow_le_pow_right (by norm_num) hl.1))

theorem pathLevels_succ (D : List α) (m a c : ℕ) :
    pathLevels hc e D m a (c + 1) = pathLevels hc e D m a c ++ siblingAt hc e D m (a + c) := by
  rw [pathLevels_add, pathLevels_one]

theorem pathLevels_cons (D : List α) (m a c : ℕ) :
    pathLevels hc e D m a (c + 1) = siblingAt hc e D m a ++ pathLevels hc e D m (a + 1) c := by
  rw [add_comm c 1, pathLevels_add, pathLevels_one]

theorem pathLevels_zero_congr {D : List α} {m a b : ℕ} (hm : m < D.length)
    (ha : D.length ≤ 2 ^ a) (hb : D.length ≤ 2 ^ b) :
    pathLevels hc e D m 0 a = pathLevels hc e D m 0 b := by
  rcases le_total a b with hab | hab
  · rw [show b = a + (b - a) by omega, pathLevels_add, zero_add,
      pathLevels_of_length_le hc e _ hm ha, List.append_nil]
  · rw [show a = b + (a - b) by omega, pathLevels_add, zero_add,
      pathLevels_of_length_le hc e _ hm hb, List.append_nil]

-- The node `c = m / 2^l` on the way up from leaf `m`, with `last = (n - 1) / 2^l` the last node of
-- its level: its parent hashes it with its left sibling when it is a right child, with its right
-- sibling when that exists, and is the node itself otherwise.

/-- A node is before the last node `(n - 1) / 2^l` of its level iff its right neighbour has
leaves. -/
theorem div_two_pow_lt_iff {i n l : ℕ} (hn : 1 ≤ n) :
    i / 2 ^ l < (n - 1) / 2 ^ l ↔ (i / 2 ^ l + 1) * 2 ^ l < n := by
  rw [Nat.lt_iff_add_one_le, Nat.le_div_iff_mul_le (Nat.two_pow_pos l)]
  omega

theorem nodeHash_parent_odd {D : List α} {l c : ℕ} (hodd : c % 2 = 1)
    (hc' : c * 2 ^ l < D.length) :
    nodeHash hc e D (l + 1) (c / 2) = hc (nodeHash hc e D l (c - 1)) (nodeHash hc e D l c) := by
  have hp : c / 2 * 2 ^ (l + 1) = (c - 1) * 2 ^ l := by
    rw [pow_succ, mul_comm (2 ^ l) 2, ← mul_assoc, show c / 2 * 2 = c - 1 by omega]
  have hq : (2 * (c / 2) + 1) * 2 ^ l = c * 2 ^ l := by
    rw [show 2 * (c / 2) + 1 = c by omega]
  have hmono : (c - 1) * 2 ^ l ≤ c * 2 ^ l := Nat.mul_le_mul_right _ (by omega)
  rw [nodeHash_succ hc e (by omega), if_pos (by omega), show 2 * (c / 2) = c - 1 by omega,
    show c - 1 + 1 = c by omega]

theorem nodeHash_parent_even {D : List α} {l c : ℕ} (heven : c % 2 = 0)
    (hr : (c + 1) * 2 ^ l < D.length) :
    nodeHash hc e D (l + 1) (c / 2) = hc (nodeHash hc e D l c) (nodeHash hc e D l (c + 1)) := by
  have hp : c / 2 * 2 ^ (l + 1) = c * 2 ^ l := by
    rw [pow_succ, mul_comm (2 ^ l) 2, ← mul_assoc, show c / 2 * 2 = c by omega]
  have hmono : c * 2 ^ l ≤ (c + 1) * 2 ^ l := Nat.mul_le_mul_right _ (by omega)
  rw [nodeHash_succ hc e (by omega), if_pos (by rw [show 2 * (c / 2) + 1 = c + 1 by omega]; exact hr),
    show 2 * (c / 2) = c by omega]

theorem nodeHash_parent_last {D : List α} {l c : ℕ} (heven : c % 2 = 0)
    (hc' : c * 2 ^ l < D.length) (hr : D.length ≤ (c + 1) * 2 ^ l) :
    nodeHash hc e D (l + 1) (c / 2) = nodeHash hc e D l c := by
  have hp : c / 2 * 2 ^ (l + 1) = c * 2 ^ l := by
    rw [pow_succ, mul_comm (2 ^ l) 2, ← mul_assoc, show c / 2 * 2 = c by omega]
  rw [nodeHash_succ hc e (by omega), if_neg (by rw [show 2 * (c / 2) + 1 = c + 1 by omega]; omega),
    show 2 * (c / 2) = c by omega]

-- The last node `(n - 1) / 2^k` of a level, one level up: where bit `k` of `n - 1` is set it hashes
-- its left sibling with it, and otherwise it is the node itself.

theorem nodeHash_last_of_testBit {D : List α} {k : ℕ} (hD : 0 < D.length)
    (hb : (D.length - 1).testBit k = true) :
    nodeHash hc e D (k + 1) ((D.length - 1) / 2 ^ (k + 1)) =
      hc (nodeHash hc e D k ((D.length - 1) / 2 ^ k - 1))
        (nodeHash hc e D k ((D.length - 1) / 2 ^ k)) := by
  rw [testBit_iff_div_mod] at hb
  have hle := Nat.div_mul_le_self (D.length - 1) (2 ^ k)
  rw [div_two_pow_succ, nodeHash_parent_odd hc e hb (by omega)]

theorem nodeHash_last_of_not_testBit {D : List α} {k : ℕ} (hD : 0 < D.length)
    (hb : (D.length - 1).testBit k = false) :
    nodeHash hc e D (k + 1) ((D.length - 1) / 2 ^ (k + 1)) =
      nodeHash hc e D k ((D.length - 1) / 2 ^ k) := by
  rw [Nat.testBit_eq_decide_div_mod_eq, decide_eq_false_iff_not] at hb
  have hsplit := Nat.div_add_mod' (D.length - 1) (2 ^ k)
  have hlt := Nat.mod_lt (D.length - 1) (Nat.two_pow_pos k)
  rw [div_two_pow_succ, nodeHash_parent_last hc e (by omega) (by omega)
    (by rw [Nat.add_mul, one_mul]; omega)]

/-- The sibling of the ancestor at level `a` exists when it is at most the last node of the
level. -/
theorem siblingAt_eq {D : List α} (m a : ℕ) (hD : 0 < D.length) :
    siblingAt hc e D m a = if sib (m / 2 ^ a) ≤ (D.length - 1) / 2 ^ a then
      [nodeHash hc e D a (sib (m / 2 ^ a))] else [] := by
  have hiff : sib (m / 2 ^ a) ≤ (D.length - 1) / 2 ^ a ↔ sib (m / 2 ^ a) * 2 ^ a < D.length := by
    rw [Nat.le_div_iff_mul_le (Nat.two_pow_pos a)]
    omega
  simp only [siblingAt, hiff]

theorem siblingAt_odd {D : List α} {m l : ℕ} (hodd : m / 2 ^ l % 2 = 1) (hm : m < D.length) :
    siblingAt hc e D m l = [nodeHash hc e D l (m / 2 ^ l - 1)] := by
  have hle : m / 2 ^ l * 2 ^ l ≤ m := Nat.div_mul_le_self m _
  have hmono : (m / 2 ^ l - 1) * 2 ^ l ≤ m / 2 ^ l * 2 ^ l := Nat.mul_le_mul_right _ (Nat.sub_le _ _)
  unfold siblingAt
  rw [sib_eq, if_neg (show ¬ m / 2 ^ l % 2 = 0 by omega),
    if_pos (show (m / 2 ^ l - 1) * 2 ^ l < D.length by omega)]

theorem siblingAt_even {D : List α} {m l : ℕ} (heven : m / 2 ^ l % 2 = 0)
    (hr : (m / 2 ^ l + 1) * 2 ^ l < D.length) :
    siblingAt hc e D m l = [nodeHash hc e D l (m / 2 ^ l + 1)] := by
  unfold siblingAt
  rw [sib_eq, if_pos heven, if_pos hr]

theorem siblingAt_last {D : List α} {m l : ℕ} (heven : m / 2 ^ l % 2 = 0)
    (hr : D.length ≤ (m / 2 ^ l + 1) * 2 ^ l) : siblingAt hc e D m l = [] := by
  unfold siblingAt
  rw [sib_eq, if_pos heven, if_neg (by omega)]

/-- Below the level where `k` leaves form one complete node, a leaf before `k` sees the same
siblings in the tree over the first `k` leaves. -/
theorem siblingAt_take {D : List α} {m k l : ℕ} (hk : 2 ^ (l + 1) ∣ k) (hm : m < k)
    (hkn : k ≤ D.length) : siblingAt hc e (D.take k) m l = siblingAt hc e D m l := by
  obtain ⟨c, rfl⟩ := hk
  have hp : 2 ^ (l + 1) * c = (2 * c) * 2 ^ l := by ring
  rw [hp] at hm hkn ⊢
  have ha : m / 2 ^ l < 2 * c := (Nat.div_lt_iff_lt_mul (Nat.two_pow_pos l)).mpr hm
  have hs' : (sib (m / 2 ^ l) + 1) * 2 ^ l ≤ (2 * c) * 2 ^ l :=
    Nat.mul_le_mul_right _ (sib_succ_le ha)
  have hlt : sib (m / 2 ^ l) * 2 ^ l < (2 * c) * 2 ^ l := by
    rw [add_mul, one_mul] at hs'
    have := Nat.two_pow_pos l
    omega
  unfold siblingAt
  rw [List.length_take, if_pos (by omega), if_pos (by omega), nodeHash_take hc e hs']

/-- Above the first `k` leaves, a leaf sees the siblings of the tree over the remaining leaves,
shifted by `k`. -/
theorem siblingAt_drop {D : List α} {m k l : ℕ} (hk : 2 ^ (l + 1) ∣ k) (hkm : k ≤ m) :
    siblingAt hc e (D.drop k) (m - k) l = siblingAt hc e D m l := by
  obtain ⟨c, rfl⟩ := hk
  have hp : 2 ^ (l + 1) * c = (2 * c) * 2 ^ l := by ring
  rw [hp] at hkm ⊢
  have hdiv : m / 2 ^ l = (m - 2 * c * 2 ^ l) / 2 ^ l + 2 * c := by
    rw [← Nat.add_mul_div_right _ _ (Nat.two_pow_pos l), Nat.sub_add_cancel hkm]
  have hx : sib (m / 2 ^ l) = sib ((m - 2 * c * 2 ^ l) / 2 ^ l) + 2 * c := by
    rw [hdiv, sib_add_two_mul]
  have hmul : (sib (m / 2 ^ l)) * 2 ^ l =
      sib ((m - 2 * c * 2 ^ l) / 2 ^ l) * 2 ^ l + 2 * c * 2 ^ l := by
    rw [hx, add_mul]
  unfold siblingAt
  rw [List.length_drop, nodeHash_drop, hmul, hx, add_comm (2 * c)]
  split_ifs <;> first | rfl | omega

theorem siblingAt_split {D : List α} {m l : ℕ} (hm : m < D.length) (h1 : 2 ^ l < D.length)
    (h2 : D.length ≤ 2 ^ (l + 1)) :
    siblingAt hc e D m l =
      [if m < 2 ^ l then mth hc e (D.drop (2 ^ l)) else mth hc e (D.take (2 ^ l))] := by
  have hp : 2 ^ (l + 1) = 2 * 2 ^ l := by ring
  unfold siblingAt nodeHash
  by_cases hlt : m < 2 ^ l
  · have h0 : m / 2 ^ l = 0 := Nat.div_eq_of_lt hlt
    have hshort : (D.drop (2 ^ l)).length ≤ 2 ^ l := by
      rw [List.length_drop]
      omega
    rw [h0, if_pos (by simpa using h1), if_pos hlt]
    simp only [sib, Nat.zero_xor, one_mul]
    rw [List.take_of_length_le hshort]
  · have h1' : m / 2 ^ l = 1 := Nat.div_eq_of_lt_le (by omega) (by omega)
    rw [h1', if_pos (by simp; omega), if_neg hlt]
    simp

theorem pathLevels_take {D : List α} {m k a c : ℕ} (hk : 2 ^ (a + c) ∣ k) (hm : m < k)
    (hkn : k ≤ D.length) : pathLevels hc e (D.take k) m a c = pathLevels hc e D m a c := by
  unfold pathLevels
  apply List.flatMap_congr
  intro l hl
  rw [List.mem_range'_1] at hl
  exact siblingAt_take hc e (dvd_trans (Nat.pow_dvd_pow 2 (by omega)) hk) hm hkn

theorem pathLevels_drop {D : List α} {m k a c : ℕ} (hk : 2 ^ (a + c) ∣ k) (hkm : k ≤ m) :
    pathLevels hc e (D.drop k) (m - k) a c = pathLevels hc e D m a c := by
  unfold pathLevels
  apply List.flatMap_congr
  intro l hl
  rw [List.mem_range'_1] at hl
  exact siblingAt_drop hc e (dvd_trans (Nat.pow_dvd_pow 2 (by omega)) hk) hkm

/-- The levels from `a` up of a tree split at `2^l0` above level `a`: the levels below the
split, the other half at the split, and nothing above. -/
theorem pathLevels_split {D : List α} {m a l0 L : ℕ} (hm : m < D.length) (ha : a ≤ l0)
    (h1 : 2 ^ l0 < D.length) (h2 : D.length ≤ 2 ^ (l0 + 1)) (hL : D.length ≤ 2 ^ L) :
    pathLevels hc e D m a (L - a) =
      pathLevels hc e D m a (l0 - a) ++
        [if m < 2 ^ l0 then mth hc e (D.drop (2 ^ l0)) else mth hc e (D.take (2 ^ l0))] := by
  have hlt : 2 ^ l0 < 2 ^ L := lt_of_lt_of_le h1 hL
  rw [Nat.pow_lt_pow_iff_right (by norm_num)] at hlt
  have hsplit : L - a = (l0 - a) + (1 + (L - l0 - 1)) := by omega
  have hpos : a + (l0 - a) = l0 := by omega
  rw [hsplit, pathLevels_add, pathLevels_add, hpos, pathLevels_one,
    pathLevels_of_length_le hc e _ hm h2, List.append_nil, siblingAt_split hc e hm h1 h2]

/-- One level of the walk up from leaf `i`: the parent of the current node `c` hashes its left
sibling in, its right sibling in, or is `c` itself, and the path holds that sibling. -/
theorem walk_step {D : List α} {i : ℕ} (l : ℕ) (hi : i < D.length) :
    (i / 2 ^ l % 2 = 1 ∧ siblingAt hc e D i l = [nodeHash hc e D l (i / 2 ^ l - 1)] ∧
        nodeHash hc e D (l + 1) (i / 2 ^ (l + 1)) =
          hc (nodeHash hc e D l (i / 2 ^ l - 1)) (nodeHash hc e D l (i / 2 ^ l))) ∨
      (i / 2 ^ l % 2 = 0 ∧ i / 2 ^ l < (D.length - 1) / 2 ^ l ∧
        siblingAt hc e D i l = [nodeHash hc e D l (i / 2 ^ l + 1)] ∧
        nodeHash hc e D (l + 1) (i / 2 ^ (l + 1)) =
          hc (nodeHash hc e D l (i / 2 ^ l)) (nodeHash hc e D l (i / 2 ^ l + 1))) ∨
      (i / 2 ^ l % 2 = 0 ∧ ¬ i / 2 ^ l < (D.length - 1) / 2 ^ l ∧ siblingAt hc e D i l = [] ∧
        nodeHash hc e D (l + 1) (i / 2 ^ (l + 1)) = nodeHash hc e D l (i / 2 ^ l)) := by
  have hle : i / 2 ^ l * 2 ^ l ≤ i := Nat.div_mul_le_self i _
  have hlast : i / 2 ^ l < (D.length - 1) / 2 ^ l ↔ (i / 2 ^ l + 1) * 2 ^ l < D.length :=
    div_two_pow_lt_iff (by omega)
  rw [div_two_pow_succ]
  -- the parity of the node, then whether it is the last node of its level
  rcases Nat.mod_two_eq_zero_or_one (i / 2 ^ l) with heven | hodd
  · by_cases hlt : i / 2 ^ l < (D.length - 1) / 2 ^ l
    · exact .inr (.inl ⟨heven, hlt, siblingAt_even hc e heven (hlast.mp hlt),
        nodeHash_parent_even hc e heven (hlast.mp hlt)⟩)
    · have hr : D.length ≤ (i / 2 ^ l + 1) * 2 ^ l := by
        rw [hlast] at hlt
        omega
      exact .inr (.inr ⟨heven, hlt, siblingAt_last hc e heven hr,
        nodeHash_parent_last hc e heven (by omega) hr⟩)
  · exact .inl ⟨hodd, siblingAt_odd hc e hodd hi, nodeHash_parent_odd hc e hodd (by omega)⟩

theorem pathLevels_cut (D : List α) (m : ℕ) {a l L : ℕ} (hal : a ≤ l) (hlL : l < L) :
    pathLevels hc e D m a (L - a) =
      pathLevels hc e D m a (l - a) ++ (siblingAt hc e D m l ++ pathLevels hc e D m (l + 1) (L - (l + 1))) := by
  rw [show L - a = (l - a) + (1 + (L - (l + 1))) by omega, pathLevels_add, pathLevels_add,
    pathLevels_one, show a + (l - a) = l by omega]

theorem pathLevels_ne_nil {D : List α} {m l L : ℕ} (hm : m < D.length) (hl : 2 ^ l < D.length)
    (hL : D.length ≤ 2 ^ L) : pathLevels hc e D m l (L - l) ≠ [] := by
  have hone : 1 ≤ 2 ^ l := Nat.one_le_two_pow
  obtain ⟨l0, h1, h2⟩ := exists_split_level (show 2 ≤ D.length by omega)
  -- the root level `l0` of the split sits at or above `l`, and has a sibling
  have hl0 : l ≤ l0 := by
    by_contra h
    have : 2 ^ (l0 + 1) ≤ 2 ^ l := Nat.pow_le_pow_right (by norm_num) (by omega)
    omega
  rw [pathLevels_split hc e hm hl0 h1 h2 hL]
  simp

/-- `PATH(m, D)` of RFC 6962 section 2.1.1: the audit path of leaf `m`. -/
def auditPath (m : ℕ) (D : List α) : List α :=
  if _h : D.length ≤ 1 then []
  else if m < splitPoint D.length then
    auditPath m (D.take (splitPoint D.length)) ++ [mth hc e (D.drop (splitPoint D.length))]
  else
    auditPath (m - splitPoint D.length) (D.drop (splitPoint D.length)) ++
      [mth hc e (D.take (splitPoint D.length))]
termination_by D.length
decreasing_by
  all_goals simp only [List.length_take, List.length_drop]
  · have := splitPoint_lt (show 2 ≤ D.length by omega)
    omega
  · have := splitPoint_pos D.length
    omega

/-- The audit path is the bottom-up list of siblings, for any number of levels that spans the
tree. -/
theorem auditPath_eq_pathLevels {D : List α} {m L : ℕ} (hm : m < D.length)
    (hL : D.length ≤ 2 ^ L) : auditPath hc e m D = pathLevels hc e D m 0 L := by
  induction hn : D.length using Nat.strong_induction_on generalizing D m L with
  | _ n ih =>
    rw [auditPath]
    by_cases hone : D.length ≤ 1
    · rw [dif_pos hone, pathLevels_of_length_le hc e _ hm (by simpa using hone)]
    · rw [dif_neg hone]
      obtain ⟨l0, h1, h2⟩ := exists_split_level (show 2 ≤ D.length by omega)
      have hpow := Nat.two_pow_pos l0
      have hp : 2 ^ (l0 + 1) = 2 ^ l0 + 2 ^ l0 := by ring
      rw [splitPoint_eq h1 h2, ← Nat.sub_zero L, pathLevels_split hc e hm (Nat.zero_le l0) h1 h2 hL,
        Nat.sub_zero]
      by_cases hlt : m < 2 ^ l0
      · rw [if_pos hlt, if_pos hlt,
          @ih (2 ^ l0) (by omega) (D.take (2 ^ l0)) m l0 (by simp; omega) (by simp) (by simp; omega),
          pathLevels_take hc e (show 2 ^ (0 + l0) ∣ 2 ^ l0 by simp) hlt (by omega)]
      · rw [if_neg hlt, if_neg hlt,
          @ih (n - 2 ^ l0) (by omega) (D.drop (2 ^ l0)) (m - 2 ^ l0) l0 (by simp; omega)
            (by simp; omega) (by simp; omega),
          pathLevels_drop hc e (show 2 ^ (0 + l0) ∣ 2 ^ l0 by simp) (by omega)]

/-- `SUBPROOF(m, D, b)` of RFC 6962 section 2.1.2; `b` says whether the subtree over the
first `m` leaves is the whole old tree, whose root the verifier already holds. -/
def subproof (m : ℕ) (D : List α) (b : Bool) : List α :=
  if m = D.length then (if b then [] else [mth hc e D])
  else if _h : D.length ≤ 1 then []
  else if m ≤ splitPoint D.length then
    subproof m (D.take (splitPoint D.length)) b ++ [mth hc e (D.drop (splitPoint D.length))]
  else
    subproof (m - splitPoint D.length) (D.drop (splitPoint D.length)) false ++
      [mth hc e (D.take (splitPoint D.length))]
termination_by D.length
decreasing_by
  all_goals simp only [List.length_take, List.length_drop]
  · have := splitPoint_lt (show 2 ≤ D.length by omega)
    omega
  · have := splitPoint_pos D.length
    omega

/-- `PROOF(m, D)` of RFC 6962 section 2.1.2: the consistency proof from the tree over the
first `m` leaves to the tree over `D`. -/
def consistencyProof (m : ℕ) (D : List α) : List α := subproof hc e m D true

/-- The first element of a bottom-up consistency proof: the node `(m - 1) / 2^t` at level
`t = trailingOnes (m - 1)`, which ends at leaf `m - 1`, unless it is the old root itself. -/
def oldNodeHash (D : List α) (m : ℕ) (b : Bool) : List α :=
  if (m - 1) / 2 ^ trailingOnes (m - 1) ≠ 0 ∨ b = false then
    [nodeHash hc e D (trailingOnes (m - 1)) ((m - 1) / 2 ^ trailingOnes (m - 1))]
  else []

/-- A consistency (sub)proof, read bottom-up: the old tree's last complete node, then the
siblings of its ancestors in the new tree. -/
theorem subproof_eq_pathLevels {D : List α} {m L : ℕ} (b : Bool) (hm1 : 1 ≤ m)
    (hm : m < D.length) (hL : D.length ≤ 2 ^ L) :
    subproof hc e m D b = oldNodeHash hc e D m b ++
      pathLevels hc e D (m - 1) (trailingOnes (m - 1)) (L - trailingOnes (m - 1)) := by
  induction hn : D.length using Nat.strong_induction_on generalizing D m L b with
  | _ n ih =>
    rw [subproof, if_neg (by omega), dif_neg (by omega)]
    obtain ⟨l0, h1, h2⟩ := exists_split_level (show 2 ≤ D.length by omega)
    have hpow := Nat.two_pow_pos l0
    have hp : 2 ^ (l0 + 1) = 2 ^ l0 + 2 ^ l0 := by ring
    have htake : (D.take (2 ^ l0)).length = 2 ^ l0 := by
      simp only [List.length_take]
      omega
    have hdrop : (D.drop (2 ^ l0)).length = n - 2 ^ l0 := by
      simp only [List.length_drop]
      omega
    rw [splitPoint_eq h1 h2]
    by_cases hle : m ≤ 2 ^ l0
    · rw [if_pos hle]
      rcases Nat.lt_or_ge m (2 ^ l0) with hlt | hge
      · -- the old tree lies inside the left half
        have ht := trailingOnes_lt (show m - 1 < 2 ^ l0 - 1 by omega)
        have hend := div_trailingOnes_succ_mul (m - 1)
        have hdvd : 2 ^ (trailingOnes (m - 1) + (l0 - trailingOnes (m - 1))) ∣ 2 ^ l0 := by
          rw [Nat.add_sub_cancel' ht.le]
        rw [@ih (2 ^ l0) (by omega) (D.take (2 ^ l0)) m l0 b hm1 (by rw [htake]; exact hlt)
            (by rw [htake]) htake,
          pathLevels_take hc e hdvd (show m - 1 < 2 ^ l0 by omega) (by omega),
          pathLevels_split hc e (show m - 1 < D.length by omega) ht.le h1 h2 hL,
          if_pos (show m - 1 < 2 ^ l0 by omega), List.append_assoc]
        unfold oldNodeHash
        rw [nodeHash_take hc e (show _ ≤ 2 ^ l0 by omega)]
      · -- the old tree is exactly the left half
        have hm2 : m = 2 ^ l0 := by omega
        subst hm2
        have ht := trailingOnes_two_pow_sub_one l0
        have h0 : (2 ^ l0 - 1) / 2 ^ l0 = 0 := Nat.div_eq_of_lt (by omega)
        rw [subproof, if_pos htake.symm, ht,
          pathLevels_split hc e (show 2 ^ l0 - 1 < D.length by omega) (le_refl l0) h1 h2 hL,
          if_pos (show 2 ^ l0 - 1 < 2 ^ l0 by omega), Nat.sub_self]
        unfold oldNodeHash
        rw [ht, h0, nodeHash, zero_mul, List.drop_zero]
        cases b <;> simp [pathLevels]
    · -- the old tree reaches into the right half
      rw [if_neg hle]
      have hlt' : m - 2 ^ l0 - 1 < 2 ^ l0 - 1 := by omega
      have hsum : m - 1 = (m - 2 ^ l0 - 1) + 2 ^ l0 := by omega
      have ht := trailingOnes_add_two_pow hlt'
      rw [← hsum] at ht
      have htl := trailingOnes_lt hlt'
      rw [← ht] at htl
      have hdvd : 2 ^ (trailingOnes (m - 1) + (l0 - trailingOnes (m - 1))) ∣ 2 ^ l0 := by
        rw [Nat.add_sub_cancel' htl.le]
      rw [@ih (n - 2 ^ l0) (by omega) (D.drop (2 ^ l0)) (m - 2 ^ l0) l0 false (by omega)
          (by rw [hdrop]; omega) (by rw [hdrop]; omega) hdrop]
      unfold oldNodeHash
      rw [← ht, show m - 2 ^ l0 - 1 = m - 1 - 2 ^ l0 by omega,
        pathLevels_drop hc e hdvd (show 2 ^ l0 ≤ m - 1 by omega),
        pathLevels_split hc e (show m - 1 < D.length by omega) htl.le h1 h2 hL,
        if_neg (show ¬ m - 1 < 2 ^ l0 by omega), List.append_assoc]
      obtain ⟨c, hc2⟩ := Nat.pow_dvd_pow 2 htl.le
      have hc1 : 1 ≤ c := by
        rcases c with _ | c
        · simp at hc2
        · omega
      have hdiv : (m - 1) / 2 ^ trailingOnes (m - 1) =
          c + (m - 1 - 2 ^ l0) / 2 ^ trailingOnes (m - 1) := by
        have h := Nat.add_mul_div_right (m - 1 - 2 ^ l0) c (Nat.two_pow_pos (trailingOnes (m - 1)))
        rw [show c * 2 ^ trailingOnes (m - 1) = 2 ^ l0 by rw [hc2, mul_comm],
          Nat.sub_add_cancel (show 2 ^ l0 ≤ m - 1 by omega)] at h
        rw [h, add_comm]
      have hne : (m - 1) / 2 ^ trailingOnes (m - 1) ≠ 0 := by
        rw [hdiv]
        exact (Nat.add_pos_left hc1 _).ne'
      rw [if_pos (Or.inr rfl), if_pos (Or.inl hne), hdiv, ← nodeHash_drop, mul_comm, ← hc2]

theorem consistencyProof_ne_nil {D : List α} {m : ℕ} (hm1 : 1 ≤ m) (hm : m < D.length) :
    consistencyProof hc e m D ≠ [] := by
  have hL : D.length ≤ 2 ^ D.length := Nat.lt_two_pow_self.le
  have hend := div_trailingOnes_succ_mul (m - 1)
  unfold consistencyProof
  rw [subproof_eq_pathLevels hc e true hm1 hm hL]
  by_cases hc0 : (m - 1) / 2 ^ trailingOnes (m - 1) = 0
  · -- the old tree is one complete node, which has a sibling in the new tree
    have h2t : 2 ^ trailingOnes (m - 1) < D.length := by
      rw [hc0, zero_add, one_mul] at hend
      omega
    intro h
    rw [List.append_eq_nil_iff] at h
    exact pathLevels_ne_nil hc e (by omega) h2t hL h.2
  · unfold oldNodeHash
    rw [if_pos (Or.inl hc0)]
    simp

/-- Unless the old tree is one complete node, a consistency proof starts with the old tree's
last complete node. -/
theorem consistencyProof_head {D : List α} {m : ℕ} (hm1 : 1 ≤ m) (hm : m < D.length)
    (hc0 : 0 < (m - 1) / 2 ^ trailingOnes (m - 1)) (h : consistencyProof hc e m D ≠ []) :
    (consistencyProof hc e m D).head h =
      nodeHash hc e D (trailingOnes (m - 1)) ((m - 1) / 2 ^ trailingOnes (m - 1)) := by
  have hL : D.length ≤ 2 ^ D.length := Nat.lt_two_pow_self.le
  have hP : consistencyProof hc e m D =
      nodeHash hc e D (trailingOnes (m - 1)) ((m - 1) / 2 ^ trailingOnes (m - 1)) ::
        pathLevels hc e D (m - 1) (trailingOnes (m - 1)) (D.length - trailingOnes (m - 1)) := by
    unfold consistencyProof
    rw [subproof_eq_pathLevels hc e true hm1 hm hL]
    unfold oldNodeHash
    rw [if_pos (Or.inl (by omega))]
    rfl
  simp only [hP, List.head_cons]

end Rfc6962
