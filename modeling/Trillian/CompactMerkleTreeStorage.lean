import Trillian.CompactMerkleTreeAppend
import Trillian.WriteLog

/-! Where the compact tree's callbacks put the nodes, and `NewCompactMerkleTreeWithState` of
`merkle/compact_merkle_tree.go` reading them back. Stored under their level and index with the
last write winning, the callbacks of appending the leaves `D` leave exactly the nodes whose right
half has begun, each with its hash over `D`; a restart from that store rebuilds the tree. -/

namespace Trillian

open Rfc6962 WriteLog

variable {α : Type*}

section Emitted

variable (hc : α → α → α) (e : α)

theorem mem_mergeEmissions {D : List α} {d : α} {l j : ℕ} {h : α} :
    (l, j, h) ∈ mergeEmissions hc e D d 0 ↔
      ∃ b < trailingOnes D.length, l = b + 1 ∧ j = D.length / 2 ^ (b + 1) ∧
        h = nodeHash hc e (D ++ [d]) l j := by
  simp only [mergeEmissions, mergeEmission, List.mem_map, List.mem_range'_1, Prod.mk.injEq]
  constructor
  · rintro ⟨b, ⟨-, hb⟩, rfl, rfl, rfl⟩
    exact ⟨b, by omega, rfl, rfl, rfl⟩
  · rintro ⟨b, hb, rfl, rfl, rfl⟩
    exact ⟨b, ⟨Nat.zero_le _, by omega⟩, rfl, rfl, rfl⟩

theorem mem_rootEmissions {D : List α} {l j : ℕ} {h : α} :
    (l, j, h) ∈ rootEmissions hc e D 0 ↔
      ∃ b, D.length.testBit b = true ∧ D.length % 2 ^ b ≠ 0 ∧ l = b + 1 ∧
        j = D.length / 2 ^ (b + 1) ∧ h = nodeHash hc e D l j := by
  simp only [rootEmissions, rootEmission, List.mem_filterMap, List.mem_range'_1]
  constructor
  · rintro ⟨b, -, hb⟩
    split_ifs at hb with hcond
    simp only [Option.some.injEq, Prod.mk.injEq] at hb
    obtain ⟨rfl, rfl, rfl⟩ := hb
    exact ⟨b, hcond.1, hcond.2, rfl, rfl, rfl⟩
  · rintro ⟨b, hbit, hmod, rfl, rfl, rfl⟩
    have hlt : b < bitLen D.length := lt_bitLen_iff.mpr (Nat.ge_two_pow_of_testBit hbit)
    exact ⟨b, ⟨Nat.zero_le _, by omega⟩, by rw [if_pos ⟨hbit, hmod⟩]⟩

/-- The nodes stored while the leaf at position `n = D.length` is appended: the leaf, and at each
level the node whose right half `n` lies in, each with its hash over `D ++ [d]`. The merges
are those at the set bits of `n` below its trailing ones' end, the right edge those above. -/
theorem mem_appendEmissions {D : List α} {d : α} {l j : ℕ} {h : α} :
    (l, j, h) ∈ appendEmissions hc e D d ↔
      (j * 2 ^ l + 2 ^ l / 2 ≤ D.length ∧ D.length < (j + 1) * 2 ^ l) ∧
        h = nodeHash hc e (D ++ [d]) l j := by
  rw [appendEmissions, List.mem_cons, List.mem_append, mem_mergeEmissions, mem_rootEmissions,
    List.length_append, List.length_singleton]
  cases l with
  | zero =>
    -- level 0 holds the leaf alone
    simp only [pow_zero, mul_one, show (1 : ℕ) / 2 = 0 from rfl, add_zero, Prod.mk.injEq, true_and]
    constructor
    · rintro (⟨rfl, rfl⟩ | ⟨b, -, hb, -⟩ | ⟨b, -, -, hb, -⟩)
      · exact ⟨⟨le_rfl, by omega⟩, (nodeHash_append_last hc e D h).symm⟩
      · omega
      · omega
    · rintro ⟨⟨h1, h2⟩, rfl⟩
      have hj : j = D.length := by omega
      subst hj
      exact Or.inl ⟨rfl, nodeHash_append_last hc e D d⟩
  | succ b =>
    have hhalf : 2 ^ (b + 1) / 2 = 2 ^ b := by rw [pow_succ, Nat.mul_div_cancel _ two_pos]
    rw [hhalf, right_half_iff]
    constructor
    · rintro (h0 | ⟨b', hb', hl, hj, hh⟩ | ⟨b', hbit, hmod, hl, hj, hh⟩)
      · simp at h0
      · -- a merge of the carry
        obtain rfl : b = b' := by omega
        exact ⟨⟨hj, testBit_of_lt_trailingOnes hb'⟩, hh⟩
      · -- a node of the new right edge
        obtain rfl : b = b' := by omega
        obtain ⟨hbit', hgt⟩ := testBit_succ_and_mod_iff.mp ⟨hbit, hmod⟩
        rw [succ_div_of_trailingOnes_lt (by omega)] at hj
        exact ⟨⟨hj, hbit'⟩, hh⟩
    · rintro ⟨⟨hj, hbit⟩, hh⟩
      have hne : b ≠ trailingOnes D.length := by
        rintro rfl
        rw [testBit_trailingOnes] at hbit
        exact Bool.false_ne_true hbit
      rcases Nat.lt_or_gt_of_ne hne with hlt | hgt
      · exact Or.inr (Or.inl ⟨b, hlt, rfl, hj, hh⟩)
      · obtain ⟨hbit', hmod'⟩ := testBit_succ_and_mod_iff.mpr ⟨hbit, hgt⟩
        refine Or.inr (Or.inr ⟨b, hbit', hmod', rfl, ?_, hh⟩)
        rw [succ_div_of_trailingOnes_lt (by omega)]
        exact hj

end Emitted

-- The callbacks write each node under its level and index; a later write of a node overrides an
-- earlier one.

def nodeWrites (xs : List (ℕ × ℕ × α)) : List ((ℕ × ℕ) × α) :=
  xs.map fun x => ((x.1, x.2.1), x.2.2)

theorem nodeWrites_append (xs ys : List (ℕ × ℕ × α)) :
    nodeWrites (xs ++ ys) = nodeWrites xs ++ nodeWrites ys :=
  List.map_append

theorem mem_nodeWrites {xs : List (ℕ × ℕ × α)} {l j : ℕ} {h : α} :
    ((l, j), h) ∈ nodeWrites xs ↔ (l, j, h) ∈ xs := by
  simp [nodeWrites]

section Store

variable (hc : α → α → α) (e : α)

/-- One append writes the nodes whose right half the new leaf falls in, and leaves the other
nodes of the store as they were. -/
theorem writeAll_appendEmissions (init : ℕ × ℕ → Option α) (D : List α) (d : α) (l j : ℕ) :
    writeAll init (nodeWrites (appendEmissions hc e D d)) (l, j) =
      if j * 2 ^ l + 2 ^ l / 2 ≤ D.length ∧ D.length < (j + 1) * 2 ^ l then
        some (nodeHash hc e (D ++ [d]) l j)
      else init (l, j) := by
  split_ifs with hin
  · refine writeAll_of_exists (fun k : ℕ × ℕ => nodeHash hc e (D ++ [d]) k.1 k.2) ?_ ?_
    · rintro ⟨⟨l', j'⟩, h'⟩ hw
      exact ((mem_appendEmissions hc e).mp (mem_nodeWrites.mp hw)).2
    · exact ⟨((l, j), nodeHash hc e (D ++ [d]) l j),
        mem_nodeWrites.mpr ((mem_appendEmissions hc e).mpr ⟨hin, rfl⟩), rfl⟩
  · apply writeAll_of_forall_ne
    rintro ⟨⟨l', j'⟩, h'⟩ hw hk
    simp only [Prod.mk.injEq] at hk
    obtain ⟨rfl, rfl⟩ := hk
    exact hin ((mem_appendEmissions hc e).mp (mem_nodeWrites.mp hw)).1

theorem appendRunEmissions_append_singleton (D ds : List α) (d : α) :
    appendRunEmissions hc e D (ds ++ [d]) =
      appendRunEmissions hc e D ds ++ appendEmissions hc e (D ++ ds) d := by
  induction ds generalizing D with
  | nil => simp [appendRunEmissions]
  | cons d' ds ih =>
    rw [List.cons_append, appendRunEmissions, appendRunEmissions, ih, List.append_assoc,
      List.append_assoc, List.singleton_append]

/-- A node is stored for `D ++ [d]` when the append writes it, or when it was stored for `D`,
in which case it was complete and the new leaf leaves it as it was. -/
theorem storedNode_append (D : List α) (d : α) (l j : ℕ) :
    (if j * 2 ^ l + 2 ^ l / 2 ≤ D.length ∧ D.length < (j + 1) * 2 ^ l then
        some (nodeHash hc e (D ++ [d]) l j)
      else if j * 2 ^ l + 2 ^ l / 2 < D.length then some (nodeHash hc e D l j) else none) =
      if j * 2 ^ l + 2 ^ l / 2 < (D ++ [d]).length then some (nodeHash hc e (D ++ [d]) l j)
      else none := by
  rw [List.length_append, List.length_singleton]
  have hhalf : 2 ^ l / 2 < 2 ^ l := Nat.div_lt_self (Nat.two_pow_pos l) one_lt_two
  have hsucc : (j + 1) * 2 ^ l = j * 2 ^ l + 2 ^ l := Nat.succ_mul j (2 ^ l)
  by_cases hnew : j * 2 ^ l + 2 ^ l / 2 ≤ D.length ∧ D.length < (j + 1) * 2 ^ l
  · -- written by this append
    rw [if_pos hnew, if_pos (by omega)]
  · rw [if_neg hnew]
    by_cases hold : j * 2 ^ l + 2 ^ l / 2 < D.length
    · -- written before and complete since: the new leaf does not change it
      rw [if_pos hold, if_pos (by omega), nodeHash_append hc e [d] (by omega)]
    · rw [if_neg hold, if_neg (by omega)]

/-- The store after the leaves `D` are appended one by one to an empty tree: the node of level
`l` and index `j` is there once its right half has begun (for a leaf, once it is in), and holds
the hash of that node over `D`. A node with one child is never written, and a node on the right
edge holds the hash of the leaves it has so far. -/
theorem writeAll_appendRunEmissions (D : List α) (l j : ℕ) :
    writeAll (fun _ => none) (nodeWrites (appendRunEmissions hc e [] D)) (l, j) =
      if j * 2 ^ l + 2 ^ l / 2 < D.length then some (nodeHash hc e D l j) else none := by
  induction D using List.reverseRecOn with
  | nil => simp [appendRunEmissions, nodeWrites]
  | append_singleton D d ih =>
    rw [appendRunEmissions_append_singleton, List.nil_append, nodeWrites_append, writeAll_append,
      writeAll_appendEmissions, ih, storedNode_append]

end Store

theorem isPerfectTree_iff (x : ℕ) : isPerfectTree x = true ↔ ∃ k, x = 2 ^ k := by
  rw [isPerfectTree, Bool.and_eq_true, bne_iff_ne, ne_eq, beq_iff_eq]
  constructor
  · rintro ⟨hx, hand⟩
    exact (Nat.and_sub_one_eq_zero_iff_isPowerOfTwo hx).mp hand
  · rintro ⟨k, rfl⟩
    have hne : 2 ^ k ≠ 0 := (Nat.two_pow_pos k).ne'
    exact ⟨hne, (Nat.and_sub_one_eq_zero_iff_isPowerOfTwo hne).mpr ⟨k, rfl⟩⟩

theorem bitLen_two_pow (k : ℕ) : bitLen (2 ^ k) = k + 1 := by
  apply le_antisymm
  · rw [bitLen_le_iff]
    exact Nat.pow_lt_pow_right one_lt_two (Nat.lt_succ_self k)
  · exact Nat.succ_le_of_lt (lt_bitLen_iff.mpr le_rfl)

section Restart

variable [Inhabited α] (hc : α → α → α) (e : α)

/-- The nodes `NewCompactMerkleTreeWithState` holds when its fetch loop reaches `depth`: those
of `D` below it, and nil above. -/
def fetchedNodes (D : List α) (depth : ℕ) : List α :=
  (List.range (bitLen D.length)).map fun i => if i < depth then compactNode hc e D i else default

theorem getElem?_fetchedNodes (D : List α) (depth i : ℕ) :
    (fetchedNodes hc e D depth)[i]? =
      if i < bitLen D.length then some (if i < depth then compactNode hc e D i else default)
      else none := by
  unfold fetchedNodes
  rw [List.getElem?_map]
  by_cases h : i < bitLen D.length
  · rw [List.getElem?_range h, if_pos h]
    rfl
  · rw [List.getElem?_eq_none (by simpa using h), if_neg h]
    rfl

theorem fetchedNodes_zero (D : List α) :
    fetchedNodes hc e D 0 = List.replicate (bitLen D.length) default := by
  simp [fetchedNodes]

theorem fetchedNodes_bitLen (D : List α) :
    fetchedNodes hc e D (bitLen D.length) = compactNodes hc e D := by
  apply List.ext_getElem?
  intro i
  rw [getElem?_fetchedNodes, getElem?_compactNodes]
  split_ifs <;> rfl

theorem fetchedNodes_set (D : List α) (depth : ℕ) :
    (fetchedNodes hc e D depth).set depth (compactNode hc e D depth) =
      fetchedNodes hc e D (depth + 1) := by
  apply List.ext_getElem?
  intro i
  rw [List.getElem?_set, getElem?_fetchedNodes, getElem?_fetchedNodes, fetchedNodes,
    List.length_map, List.length_range]
  by_cases hi : depth = i
  · subst hi
    by_cases hL : depth < bitLen D.length <;> simp [hL]
  · rw [if_neg hi]
    split_ifs <;> first | rfl | omega

theorem fetchedNodes_succ_of_not_testBit {D : List α} {depth : ℕ}
    (h : D.length.testBit depth = false) :
    fetchedNodes hc e D depth = fetchedNodes hc e D (depth + 1) := by
  rw [← fetchedNodes_set]
  have hnil : compactNode hc e D depth = default := by rw [compactNode, h]; rfl
  apply List.ext_getElem?
  intro i
  rw [List.getElem?_set, hnil, getElem?_fetchedNodes, fetchedNodes, List.length_map,
    List.length_range]
  by_cases hi : depth = i
  · subst hi
    by_cases hL : depth < bitLen D.length <;> simp [hL]
  · rw [if_neg hi]

/-- The fetch loop of `NewCompactMerkleTreeWithState`, over a store that holds the node of
level `l` and index `j` of `D` once its right half has begun: it fetches the node of each set
bit of the size, all of them there, and ends with the nodes of `D`. -/
theorem fetchNodesLoop_spec (g : GetNodeFunc α) (D : List α)
    (hg : ∀ l j, j * 2 ^ l + 2 ^ l / 2 < D.length → g l j = .ok (nodeHash hc e D l j)) :
    ∀ (k depth : ℕ), bitLen D.length - depth = k → depth ≤ bitLen D.length →
      CompactMerkleTree.fetchNodesLoop g (bitLen D.length) depth (D.length / 2 ^ depth)
          (fetchedNodes hc e D depth) =
        .ok (compactNodes hc e D) := by
  intro k
  induction k with
  | zero =>
    intro depth hk hdepth
    have htop : depth = bitLen D.length := by omega
    subst htop
    rw [CompactMerkleTree.fetchNodesLoop, if_neg (lt_irrefl _), fetchedNodes_bitLen]
  | succ k ih =>
    intro depth hk hdepth
    rw [CompactMerkleTree.fetchNodesLoop, if_pos (by omega)]
    cases hb : D.length.testBit depth with
    | false =>
      -- a clear bit has no node to fetch
      have hodd : ¬ D.length / 2 ^ depth &&& 1 = 1 := by
        rw [Nat.and_one_is_mod]
        have := (div_two_pow_and_one_eq_zero_iff D.length depth).mpr hb
        rw [Nat.and_one_is_mod] at this
        omega
      rw [if_neg hodd, div_two_pow_shiftRight_one, fetchedNodes_succ_of_not_testBit hc e hb]
      exact ih (depth + 1) (by omega) (by omega)
    | true =>
      -- a set bit: its complete node is in the store
      have hodd : D.length / 2 ^ depth &&& 1 = 1 := by
        rw [Nat.and_one_is_mod]
        exact (testBit_iff_div_mod _ _).mp hb
      have hstored : (D.length / 2 ^ depth - 1) * 2 ^ depth + 2 ^ depth / 2 < D.length := by
        have hhalf : 2 ^ depth / 2 < 2 ^ depth := Nat.div_lt_self (Nat.two_pow_pos depth) one_lt_two
        have := pred_div_two_pow_mul_add_le hb
        omega
      rw [if_pos hodd]
      simp only [hg depth _ hstored, div_two_pow_shiftRight_one]
      rw [← compactNode_of_testBit hc e hb, fetchedNodes_set]
      exact ih (depth + 1) (by omega) (by omega)

theorem compactNodes_of_two_pow {D : List α} {k : ℕ} (hk : D.length = 2 ^ k) :
    (List.replicate (bitLen D.length) default).set (bitLen D.length - 1) (mth hc e D) =
      compactNodes hc e D := by
  rw [hk, bitLen_two_pow, Nat.add_sub_cancel]
  apply List.ext_getElem?
  intro i
  rw [List.getElem?_set, getElem?_compactNodes, hk, bitLen_two_pow, List.length_replicate,
    compactNode, hk, Nat.testBit_two_pow]
  by_cases hi : k = i
  · subst hi
    rw [if_pos rfl, if_pos (Nat.lt_succ_self k), Nat.div_self (Nat.two_pow_pos k),
      Nat.sub_self, nodeHash_root hc e hk.le]
    simp
  · rw [if_neg hi, List.getElem?_replicate]
    simp [hi]

variable [DecidableEq α]

/-- `NewCompactMerkleTreeWithState` over a store that holds the node of level `l` and index `j`
of `D` once its right half has begun, with the tree hash of `D` as the expected root: it
rebuilds the compact tree of `D`. A perfect tree takes the expected root as its one node; any
other size fetches its nodes and recomputes the root, which matches. -/
theorem newCompactMerkleTreeWithState_spec (hasher : LogHasher α) (D : List α) (g : GetNodeFunc α)
    (hg : ∀ l j, j * 2 ^ l + 2 ^ l / 2 < D.length →
      g l j = .ok (nodeHash hasher.hashChildren hasher.emptyRoot D l j)) :
    CompactMerkleTree.newCompactMerkleTreeWithState hasher D.length g
        (mth hasher.hashChildren hasher.emptyRoot D) =
      some (.ok (compactTreeOf hasher D)) := by
  rw [CompactMerkleTree.newCompactMerkleTreeWithState]
  simp only
  by_cases hperfect : isPerfectTree D.length = true
  · -- a perfect tree: the expected root is the top node
    obtain ⟨k, hk⟩ := (isPerfectTree_iff _).mp hperfect
    rw [if_pos hperfect, compactNodes_of_two_pow _ _ hk]
    simp [compactTreeOf]
  · rw [if_neg hperfect, ← fetchedNodes_zero hasher.hashChildren hasher.emptyRoot D]
    have hfetch := fetchNodesLoop_spec hasher.hashChildren hasher.emptyRoot g D hg _ 0 rfl
      (Nat.zero_le _)
    rw [pow_zero, Nat.div_one] at hfetch
    rw [hfetch]
    simp only
    rcases Nat.eq_zero_or_pos D.length with hD | hD
    · -- the empty tree keeps the empty root
      rw [List.length_eq_zero_iff] at hD
      subst hD
      simp [CompactMerkleTree.recalculateRoot, compactTreeOf]
    · obtain ⟨u, hu⟩ := runCallbacks_total (fun _ _ _ (u : Unit) => ⟨u, rfl⟩)
        (rootEmissions hasher.hashChildren hasher.emptyRoot D 0) ()
      rw [recalculateRoot_spec hasher.emptyRoot hasher hasher.emptyRoot _ hD hu]
      simp [compactTreeOf]

end Restart

section Nodes

variable [Inhabited α] (hc : α → α → α) (e : α)

/-- The node at a set bit `b` is the tree hash of the `2^b` leaves from the size with its low
`b + 1` bits cleared. -/
theorem compactNode_eq_mth {D : List α} {b : ℕ} (hb : D.length.testBit b = true) :
    compactNode hc e D b =
      mth hc e ((D.drop ((D.length >>> (b + 1)) <<< (b + 1))).take (2 ^ b)) := by
  rw [compactNode_of_testBit hc e hb, nodeHash, Nat.shiftLeft_eq, Nat.shiftRight_eq_div_pow]
  rw [testBit_iff_div_mod] at hb
  have hstart : (D.length / 2 ^ b - 1) * 2 ^ b = D.length / 2 ^ (b + 1) * 2 ^ (b + 1) := by
    rw [div_two_pow_succ, pow_succ, ← mul_assoc, show D.length / 2 ^ b / 2 * 2 ^ b * 2 =
      D.length / 2 ^ b / 2 * 2 * 2 ^ b by ring, show D.length / 2 ^ b / 2 * 2 = D.length / 2 ^ b - 1
      by omega]
  rw [hstart]

/-- With leaf hashes and node hashes that are never nil, the node at bit `b` is nil exactly when
bit `b` of the size is clear. -/
theorem compactNode_ne_default_iff {D : List α} (hleaf : ∀ d ∈ D, d ≠ default)
    (hnode : ∀ a b, hc a b ≠ default) (b : ℕ) :
    compactNode hc e D b ≠ default ↔ D.length.testBit b = true := by
  constructor
  · intro hne
    by_contra hb
    rw [compactNode, if_neg hb] at hne
    exact hne rfl
  · intro hb
    have hlt : (D.length / 2 ^ b - 1) * 2 ^ b < D.length := by
      have := pred_div_two_pow_mul_add_le hb
      have := Nat.two_pow_pos b
      omega
    rw [compactNode_of_testBit hc e hb, nodeHash]
    apply mth_prop hc e (fun x => x ≠ default)
    · intro d hd
      exact hleaf d (List.mem_of_mem_drop (List.mem_of_mem_take hd))
    · exact hnode
    · rw [← List.length_pos_iff, List.length_take, List.length_drop]
      exact Nat.lt_min.mpr ⟨Nat.two_pow_pos b, by omega⟩

theorem getElem_compactNodes (D : List α) {b : ℕ} (hb : b < (compactNodes hc e D).length) :
    (compactNodes hc e D)[b] = compactNode hc e D b := by
  simp [compactNodes]

end Nodes

def recordNode : SetNodeFunc (List (ℕ × ℕ × α)) α :=
  fun depth index hash w => .ok (w ++ [(depth, index, hash)])

theorem runCallbacks_recordNode (xs w : List (ℕ × ℕ × α)) :
    runCallbacks recordNode xs w = .ok (w ++ xs) := by
  induction xs generalizing w with
  | nil => simp
  | cons x xs ih =>
    obtain ⟨depth, index, hash⟩ := x
    rw [runCallbacks_cons_eq_ok.mpr ⟨_, rfl, ih _⟩, List.append_assoc, List.singleton_append]

theorem appendRunEmissions_append (hc : α → α → α) (e : α) (D xs ys : List α) :
    appendRunEmissions hc e D (xs ++ ys) =
      appendRunEmissions hc e D xs ++ appendRunEmissions hc e (D ++ xs) ys := by
  induction xs generalizing D with
  | nil => simp [appendRunEmissions]
  | cons x xs ih =>
    rw [List.cons_append, appendRunEmissions, appendRunEmissions, ih, List.append_assoc,
      List.append_assoc, List.singleton_append]

section RunAndRestart

variable [Inhabited α] [DecidableEq α] {σ : Type*}

/-- The compact tree over `AddLeafHash` from an empty tree, with callbacks that never fail: the
`k`-th call returns `k`, and the tree holds the size, the RFC 6962 root and one node per bit of
the size, nil exactly at the clear bits (for hashes that are never nil), each set bit's node the
root of its perfect subtree. Restarting with `NewCompactMerkleTreeWithState` at any `m ≤ n`,
from the last hashes the callbacks of the first `m` appends stored, rebuilds the very tree the
run had after `m` appends, from which the remaining appends end where the run ends. -/
theorem compactMerkleTree_run_and_restart (hasher : LogHasher α)
    (hnode : ∀ a b, hasher.hashChildren a b ≠ default) (D : List α) (hleaf : ∀ d ∈ D, d ≠ default)
    (f : SetNodeFunc σ α) (hf : ∀ depth index hash s, ∃ s', f depth index hash s = .ok s')
    (s : σ) :
    ∃ (t : CompactMerkleTree α) (s' : σ),
      (CompactMerkleTree.newCompactMerkleTree hasher).addLeafHashes f D s =
        some ((List.range D.length).map .ok, t, s') ∧
      t.size = D.length ∧ t.root = mth hasher.hashChildren hasher.emptyRoot D ∧
      t.nodes.length = bitLen D.length ∧
      (∀ b (hb : b < t.nodes.length), t.nodes[b] ≠ default ↔ D.length.testBit b = true) ∧
      (∀ b, D.length.testBit b = true →
        t.nodes[b]? = some (mth hasher.hashChildren hasher.emptyRoot
          ((D.drop ((D.length >>> (b + 1)) <<< (b + 1))).take (2 ^ b)))) ∧
      ∀ m ≤ D.length, ∀ rs c w,
        (CompactMerkleTree.newCompactMerkleTree hasher).addLeafHashes recordNode (D.take m) [] =
          some (rs, c, w) →
        (∀ g : GetNodeFunc α,
          (∀ depth index hash, writeAll (fun _ => none) (nodeWrites w) (depth, index) = some hash →
            g depth index = .ok hash) →
          CompactMerkleTree.newCompactMerkleTreeWithState hasher m g
              (mth hasher.hashChildren hasher.emptyRoot (D.take m)) = some (.ok c)) ∧
        ∃ s₁, (CompactMerkleTree.newCompactMerkleTree hasher).addLeafHashes f (D.take m) s =
            some ((List.range m).map .ok, c, s₁) ∧
          c.addLeafHashes f (D.drop m) s₁ =
            some ((List.range' m (D.length - m)).map .ok, t, s') := by
  obtain ⟨s', hs'⟩ := runCallbacks_total hf
    (appendRunEmissions hasher.hashChildren hasher.emptyRoot [] D) s
  have hrun := addLeafHashes_spec hasher f D [] hs'
  rw [← newCompactMerkleTree_eq, List.nil_append, List.length_nil, ← List.range_eq_range'] at hrun
  refine ⟨compactTreeOf hasher D, s', hrun, rfl, rfl, length_compactNodes _ _ D, ?_, ?_, ?_⟩
  · -- nil exactly at the clear bits
    intro b hb
    simp only [compactTreeOf_nodes, getElem_compactNodes]
    exact compactNode_ne_default_iff _ _ hleaf hnode b
  · -- each set bit holds the root of its perfect subtree
    intro b hb
    rw [compactTreeOf_nodes, getElem?_compactNodes,
      if_pos (lt_bitLen_iff.mpr (Nat.ge_two_pow_of_testBit hb)), compactNode_eq_mth _ _ hb]
  · intro m hm rs c w hrec
    -- the recording run reaches the tree of the first `m` leaves and records their callbacks
    have hrecord := addLeafHashes_spec hasher recordNode (D.take m) []
      (runCallbacks_recordNode _ [])
    rw [← newCompactMerkleTree_eq, List.nil_append, hrec, Option.some.injEq, Prod.mk.injEq,
      Prod.mk.injEq] at hrecord
    obtain ⟨-, rfl, rfl⟩ := hrecord
    have hlen : (D.take m).length = m := List.length_take_of_le hm
    refine ⟨fun g hg => ?_, ?_⟩
    · -- the store holds every node the restart fetches
      have hrestart := newCompactMerkleTreeWithState_spec hasher (D.take m) g fun l j hlj =>
        hg l j _ (by rw [List.nil_append, writeAll_appendRunEmissions, if_pos hlj])
      rwa [hlen] at hrestart
    · -- the run over `D` is the run over its first `m` leaves followed by the rest
      have hsplit : appendRunEmissions hasher.hashChildren hasher.emptyRoot [] D =
          appendRunEmissions hasher.hashChildren hasher.emptyRoot [] (D.take m) ++
            appendRunEmissions hasher.hashChildren hasher.emptyRoot (D.take m) (D.drop m) := by
        conv_lhs => rw [← List.take_append_drop m D]
        rw [appendRunEmissions_append, List.nil_append]
      rw [hsplit] at hs'
      obtain ⟨s₁, hfirst, hrest⟩ := runCallbacks_append_eq_ok.mp hs'
      have hprefix := addLeafHashes_spec hasher f (D.take m) [] hfirst
      have hsuffix := addLeafHashes_spec hasher f (D.drop m) (D.take m) hrest
      rw [← newCompactMerkleTree_eq, List.nil_append, List.length_nil, ← List.range_eq_range',
        hlen] at hprefix
      rw [hlen, List.length_drop, List.take_append_drop] at hsuffix
      exact ⟨s₁, hprefix, hsuffix⟩

/-- A hasher over numbers whose node hashes are never `0`, the nil of `ℕ`. -/
def succPairHasher : LogHasher ℕ := ⟨0, fun _ => .ok 1, fun a b => Nat.pair a b + 1⟩

def skipNode : SetNodeFunc Unit ℕ := fun _ _ _ u => .ok u

theorem compactMerkleTree_run_and_restart_succPair :
    (∀ a b, succPairHasher.hashChildren a b ≠ default) ∧ (∀ d ∈ [1, 2, 3], d ≠ default) ∧
    ∃ (t : CompactMerkleTree ℕ) (s' : Unit),
      (CompactMerkleTree.newCompactMerkleTree succPairHasher).addLeafHashes skipNode [1, 2, 3] () =
        some ((List.range 3).map .ok, t, s') ∧
      t.size = 3 ∧ t.root = mth succPairHasher.hashChildren succPairHasher.emptyRoot [1, 2, 3] ∧
      t.nodes.length = bitLen 3 ∧
      (∀ b (hb : b < t.nodes.length), t.nodes[b] ≠ default ↔ Nat.testBit 3 b = true) ∧
      (∀ b, Nat.testBit 3 b = true →
        t.nodes[b]? = some (mth succPairHasher.hashChildren succPairHasher.emptyRoot
          (([1, 2, 3].drop ((3 >>> (b + 1)) <<< (b + 1))).take (2 ^ b)))) ∧
      ∀ m ≤ 3, ∀ rs c w,
        (CompactMerkleTree.newCompactMerkleTree succPairHasher).addLeafHashes recordNode
            ([1, 2, 3].take m) [] = some (rs, c, w) →
        (∀ g : GetNodeFunc ℕ,
          (∀ depth index hash, writeAll (fun _ => none) (nodeWrites w) (depth, index) = some hash →
            g depth index = .ok hash) →
          CompactMerkleTree.newCompactMerkleTreeWithState succPairHasher m g
              (mth succPairHasher.hashChildren succPairHasher.emptyRoot ([1, 2, 3].take m)) =
            some (.ok c)) ∧
        ∃ s₁, (CompactMerkleTree.newCompactMerkleTree succPairHasher).addLeafHashes skipNode
            ([1, 2, 3].take m) () = some ((List.range m).map .ok, c, s₁) ∧
          c.addLeafHashes skipNode ([1, 2, 3].drop m) s₁ =
            some ((List.range' m (3 - m)).map .ok, t, s') :=
  ⟨fun _ _ => Nat.succ_ne_zero _, by decide,
    compactMerkleTree_run_and_restart succPairHasher (fun _ _ => Nat.succ_ne_zero _) [1, 2, 3]
      (by decide) skipNode (fun _ _ _ u => ⟨u, rfl⟩) ()⟩

def failNode : SetNodeFunc Unit ℕ := fun _ _ _ _ => .error "storage failure"

def failLevelTwo : SetNodeFunc Unit ℕ := fun depth _ _ u =>
  if depth = 2 then .error "storage failure" else .ok u

open CompactMerkleTree in
/-- From the tree of two leaves, a failed leaf write is returned with the size already moved
on, and a failed write of the root recalculation is dropped: the call returns the sequence
number and leaves the old root. -/
theorem addLeafHash_not_atomic :
    (newCompactMerkleTree succPairHasher).addLeafHashes skipNode [1, 2] () =
        some ([.ok 0, .ok 1], ⟨succPairHasher, 6, [0, 6], 2⟩, ()) ∧
      (⟨succPairHasher, 6, [0, 6], 2⟩ : CompactMerkleTree ℕ).addLeafHash 3 failNode () =
        some (.error (.passed "storage failure"), ⟨succPairHasher, 6, [0, 6], 3⟩, ()) ∧
      (⟨succPairHasher, 6, [0, 6], 2⟩ : CompactMerkleTree ℕ).addLeafHashBody 3 failLevelTwo () =
        some (.ok 2, ⟨succPairHasher, 6, [3, 6], 2⟩, ()) ∧
      recalculateRoot ⟨succPairHasher, 6, [3, 6], 3⟩ failLevelTwo () =
        some (.error "storage failure", ⟨succPairHasher, 6, [3, 6], 3⟩, ()) ∧
      (⟨succPairHasher, 6, [0, 6], 2⟩ : CompactMerkleTree ℕ).addLeafHash 3 failLevelTwo () =
        some (.ok 2, ⟨succPairHasher, 6, [3, 6], 3⟩, ()) := by
  have hbody : (⟨succPairHasher, 6, [0, 6], 2⟩ : CompactMerkleTree ℕ).addLeafHashBody 3
      failLevelTwo () = some (.ok 2, ⟨succPairHasher, 6, [3, 6], 2⟩, ()) := by
    simp [addLeafHashBody, addLeafHashLoop, failLevelTwo]
  have hroot : recalculateRoot ⟨succPairHasher, 6, [3, 6], 3⟩ failLevelTwo () =
      some (.error "storage failure", ⟨succPairHasher, 6, [3, 6], 3⟩, ()) := by
    simp [recalculateRoot, recalculateRootLoop, bitLen, failLevelTwo]
  refine ⟨?_, ?_, hbody, hroot, ?_⟩
  · simp [addLeafHashes, addLeafHash, addLeafHashBody, addLeafHashLoop, newCompactMerkleTree,
      skipNode, recalculateRoot, recalculateRootLoop, bitLen, succPairHasher, Nat.pair]
  · simp [addLeafHash, addLeafHashBody, failNode, recalculateRoot, recalculateRootLoop, bitLen]
  · -- the body's sequence number is returned past the failed recalculation
    simp only [addLeafHash, hbody]
    rw [hroot]

end RunAndRestart

end Trillian
