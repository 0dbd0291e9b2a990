import Trillian.Sequencer
import Trillian.CompactMerkleTreeStorage

/-! What the sequencer leaves in storage. After the leaves `D`, in any batching, the node of
level `l` and index `j` is stored under its ID once its right half has begun, with its hash
over `D`, and the latest root is the RFC 6962 root of `D`. Each batch rebuilds the compact tree
from that layout and appends its leaves; the writes of each append keep the layout. -/

namespace Trillian

open Rfc6962 WriteLog CompactMerkleTree

variable {α : Type*}

section Layout

variable (hc : α → α → α) (e : α)

/-- The storage layout of the tree over `D`: a node is stored once its right half has begun,
with its hash over `D`. -/
def HoldsTree (D : List α) (nodes : NodeStore α) : Prop :=
  ∀ l j, nodes (nodeIDOf l j) =
    if j * 2 ^ l + 2 ^ l / 2 < D.length then some (nodeHash hc e D l j) else none

/-- A node complete in the tree over the first `s` leaves is stored with its hash there. -/
theorem HoldsTree.complete {D : List α} {nodes : NodeStore α} (h : HoldsTree hc e D nodes)
    {s l j : ℕ} (hj : (j + 1) * 2 ^ l ≤ s) (hsD : s ≤ D.length) :
    nodes (nodeIDOf l j) = some (nodeHash hc e (D.take s) l j) := by
  have hhalf : 2 ^ l / 2 < 2 ^ l := Nat.div_lt_self (Nat.two_pow_pos l) one_lt_two
  have hsucc : (j + 1) * 2 ^ l = j * 2 ^ l + 2 ^ l := Nat.succ_mul j (2 ^ l)
  rw [h, if_pos (by omega), nodeHash_take hc e hj]

def treeNodeWrites (xs : List (ℕ × ℕ × α)) : List (NodeID × α) :=
  (nodeWrites xs).map fun w => (nodeIDOf w.1.1 w.1.2, w.2)

/-- The writes of one append take the layout of `D` to the layout of `D ++ [d]`. -/
theorem HoldsTree.append {D : List α} {nodes : NodeStore α} (h : HoldsTree hc e D nodes)
    (d : α) : HoldsTree hc e (D ++ [d]) (writeAll nodes (treeNodeWrites (appendEmissions hc e D d))) := by
  intro l j
  -- distinct coordinates are distinct IDs, so the store reads as the store of coordinates
  have hg : ∀ w ∈ nodeWrites (appendEmissions hc e D d),
      nodeIDOf w.1.1 w.1.2 = nodeIDOf l j → w.1 = (l, j) := by
    intro w _ hw
    obtain ⟨hl, hj⟩ := nodeIDOf_inj hw
    exact Prod.ext hl hj
  have hkey : writeAll nodes (treeNodeWrites (appendEmissions hc e D d)) (nodeIDOf l j) =
      writeAll (fun k => nodes (nodeIDOf k.1 k.2)) (nodeWrites (appendEmissions hc e D d)) (l, j) :=
    @writeAll_map_key (ℕ × ℕ) α _ NodeID _ (fun k => nodeIDOf k.1 k.2) _ (l, j) hg
      (fun k => nodes (nodeIDOf k.1 k.2)) nodes rfl
  rw [hkey, writeAll_appendEmissions, h l j, storedNode_append]

end Layout

theorem newNodeIDForTreeCoords_of_stored {l j N : ℕ} (hN : N ≤ 2 ^ 63)
    (h : j * 2 ^ l + 2 ^ l / 2 < N) : newNodeIDForTreeCoords l j 64 = .ok (nodeIDOf l j) := by
  have hl : l ≤ 63 := by
    by_contra hl
    have hpow : 2 ^ 64 ≤ 2 ^ l := Nat.pow_le_pow_right (by norm_num) (by omega)
    have : 2 ^ 63 ≤ 2 ^ l / 2 := (Nat.le_div_iff_mul_le (by norm_num)).mpr (by omega)
    omega
  have hj : j < 2 ^ (64 - l) := by
    have hsplit : 2 ^ 64 = 2 ^ (64 - l) * 2 ^ l := by rw [← pow_add, Nat.sub_add_cancel (by omega)]
    have hpos := Nat.two_pow_pos l
    have : j * 2 ^ l < 2 ^ (64 - l) * 2 ^ l := by omega
    exact Nat.lt_of_mul_lt_mul_right this
  exact newNodeIDForTreeCoords_eq (by omega) hj

section Batch

variable [Inhabited α]

omit [Inhabited α] in
theorem runCallbacks_setNodeInMap :
    ∀ (xs : List (ℕ × ℕ × α)) (nodeMap : NodeStore α),
      (∀ x ∈ xs, newNodeIDForTreeCoords x.1 x.2.1 maxTreeDepth = .ok (nodeIDOf x.1 x.2.1)) →
      runCallbacks setNodeInMap xs nodeMap = .ok (writeAll nodeMap (treeNodeWrites xs))
  | [], _, _ => rfl
  | (depth, index, hash) :: xs, nodeMap, hxs => by
    have hid := hxs (depth, index, hash) List.mem_cons_self
    have hset : setNodeInMap depth index hash nodeMap =
        .ok (Function.update nodeMap (nodeIDOf depth index) (some hash)) := by
      simp only [setNodeInMap, hid]
    exact runCallbacks_cons_eq_ok.mpr ⟨_, hset, runCallbacks_setNodeInMap xs _
      fun x hx => hxs x (List.mem_cons_of_mem _ hx)⟩

omit [Inhabited α] in
theorem newNodeIDForTreeCoords_of_appendEmissions (hc : α → α → α) (e : α) {D : List α} {d : α}
    (hN : D.length + 1 ≤ 2 ^ 63) :
    ∀ x ∈ appendEmissions hc e D d,
      newNodeIDForTreeCoords x.1 x.2.1 maxTreeDepth = .ok (nodeIDOf x.1 x.2.1) := by
  rintro ⟨l, j, h⟩ hx
  have hin := ((mem_appendEmissions hc e).mp hx).1
  exact @newNodeIDForTreeCoords_of_stored l j (D.length + 1) hN (by omega)

variable (hasher : LogHasher α)

/-- `updateCompactTree`'s loop from the compact tree of `D`, with the batch's node map read over
the stored nodes: the tree of `D ++ ds`, and a node map that, read over the stored nodes, holds
the layout of `D ++ ds`. -/
theorem updateCompactTreeLoop_spec (nodes : NodeStore α) :
    ∀ (ds D : List α) (nodeMap : NodeStore α), (D ++ ds).length ≤ 2 ^ 63 →
      HoldsTree hasher.hashChildren hasher.emptyRoot D (setMerkleNodes nodes nodeMap) →
      ∃ nodeMap', updateCompactTreeLoop (compactTreeOf hasher D)
          (assignLeafIndices D.length ds) nodeMap =
            some (.ok (compactTreeOf hasher (D ++ ds), nodeMap')) ∧
        HoldsTree hasher.hashChildren hasher.emptyRoot (D ++ ds) (setMerkleNodes nodes nodeMap')
  | [], D, nodeMap, _, h => ⟨nodeMap, by simp [assignLeafIndices, updateCompactTreeLoop], by simpa⟩
  | d :: ds, D, nodeMap, hN, h => by
    have hlen : (D ++ d :: ds).length = D.length + 1 + ds.length := by simp; omega
    -- the append's callbacks write into the node map
    have hrun := runCallbacks_setNodeInMap
      (appendEmissions hasher.hashChildren hasher.emptyRoot D d) nodeMap
      (newNodeIDForTreeCoords_of_appendEmissions hasher.hashChildren hasher.emptyRoot
        (show D.length + 1 ≤ 2 ^ 63 by omega))
    have hadd := addLeafHash_spec hasher setNodeInMap D d hrun
    have hleafID : newNodeIDForTreeCoords 0 D.length maxTreeDepth = .ok (nodeIDOf 0 D.length) :=
      newNodeIDForTreeCoords_of_stored (show D.length + 1 ≤ 2 ^ 63 by omega) (by simp)
    -- the leaf hash written again after the callbacks changes nothing
    have happend := (show HoldsTree hasher.hashChildren hasher.emptyRoot D
      (overlay nodeMap nodes) from h).append hasher.hashChildren hasher.emptyRoot d
    have hsame : writeAll (overlay nodeMap nodes)
        (treeNodeWrites (appendEmissions hasher.hashChildren hasher.emptyRoot D d))
          (nodeIDOf 0 D.length) = some d := by
      rw [happend 0 D.length, if_pos (by simp), nodeHash_append_last]
    have hholds : HoldsTree hasher.hashChildren hasher.emptyRoot (D ++ [d])
        (setMerkleNodes nodes (Function.update (writeAll nodeMap
          (treeNodeWrites (appendEmissions hasher.hashChildren hasher.emptyRoot D d)))
          (nodeIDOf 0 D.length) (some d))) := by
      rw [setMerkleNodes, overlay_update, overlay_writeAll, Function.update_eq_self_iff.mpr hsame.symm]
      exact happend
    obtain ⟨nodeMap', hloop, hholds'⟩ :=
      updateCompactTreeLoop_spec nodes ds (D ++ [d]) _ (by simp; omega) hholds
    rw [List.append_assoc, List.singleton_append] at hloop hholds'
    refine ⟨nodeMap', ?_, hholds'⟩
    rw [assignLeafIndices, updateCompactTreeLoop, hadd]
    simp only [ne_eq, not_true_eq_false, if_false, hleafID]
    rw [← hloop, List.length_append, List.length_singleton]

omit [Inhabited α] in
@[simp] theorem length_assignLeafIndices (treeSize : ℕ) (hashes : List α) :
    (assignLeafIndices treeSize hashes).length = hashes.length := by
  induction hashes generalizing treeSize with
  | nil => rfl
  | cons hash hashes ih => simp [assignLeafIndices, ih]

omit [Inhabited α] in
theorem getNodeFromStorage_of_holdsTree {hc : α → α → α} {e : α} {D : List α}
    {nodes : NodeStore α} (h : HoldsTree hc e D nodes) (hN : D.length ≤ 2 ^ 63) {l j : ℕ}
    (hj : j * 2 ^ l + 2 ^ l / 2 < D.length) :
    getNodeFromStorage nodes l j = .ok (nodeHash hc e D l j) := by
  have hid := newNodeIDForTreeCoords_of_stored hN hj
  have hv : nodes (nodeIDOf l j) = some (nodeHash hc e D l j) := by rw [h, if_pos hj]
  simp only [getNodeFromStorage, maxTreeDepth, hid, getMerkleNodes, List.filterMap_cons,
    List.filterMap_nil, hv, Option.map_some]

variable [DecidableEq α]

/-- `initMerkleTreeFromStorage` at the root of `D` over its layout rebuilds the compact tree of
`D`. -/
theorem initMerkleTreeFromStorage_spec {D : List α} {nodes : NodeStore α}
    (h : HoldsTree hasher.hashChildren hasher.emptyRoot D nodes) (hN : D.length ≤ 2 ^ 63) :
    initMerkleTreeFromStorage hasher nodes ⟨D.length, mth hasher.hashChildren hasher.emptyRoot D⟩ =
      some (.ok (compactTreeOf hasher D)) := by
  rw [initMerkleTreeFromStorage]
  split_ifs with h0
  · -- an empty log starts from a new tree
    rw [List.eq_nil_of_length_eq_zero h0, newCompactMerkleTree_eq]
  · exact newCompactMerkleTreeWithState_spec hasher D _ fun l j hj =>
      getNodeFromStorage_of_holdsTree h hN hj

end Batch

end Trillian
