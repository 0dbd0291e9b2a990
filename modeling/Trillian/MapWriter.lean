import Trillian.HStar2
import Trillian.WriteLog

/-! The writer of `merkle/sparse_merkle_tree.go`: a top subtree and the subtrees below it, each
computed with `HStar2Nodes` by a worker in a transaction of its own. The children commit in the
order they were created and the top after them; a `MapTreeTX` is the map's nodes at its revision,
keyed by node ID, and its storage calls do not fail. -/

namespace Trillian

namespace Map

open Bytes Storage WriteLog

variable {α : Type}

/-- The Merkle nodes of a map at a transaction's revision: the hash stored under each node ID. -/
abbrev MapNodes (α : Type) := Storage.NodeID → Option α

/-- `SetMerkleNodes`: each node stored under its ID, in order. -/
def setMerkleNodes (nodes : MapNodes α) (ws : List (Storage.NodeID × α)) : MapNodes α :=
  writeAll nodes ws

/-- The getter of `buildSubtree`: the node stored under the ID `NewNodeIDFromBigInt` makes of the
depth and index, nil if there is none. A node comes back under the ID it is asked for and at a
revision no later than the transaction's, so the checks on it pass. -/
def buildSubtreeGet (nodes : MapNodes α) (bitLen : ℕ) : SparseGetNodeFunc α := fun depth index =>
  (newNodeIDFromBigInt depth index bitLen).map fun nodeID => .ok (nodes nodeID)

/-- The setter of `buildSubtree`: the node to store for a call; none for the root of a subtree
below a prefix, which its parent stores. `none` is a panic. -/
def buildSubtreeSet (pfx : List UInt8) (bitLen : ℕ) (s : SetNode α) :
    Option (List (Storage.NodeID × α)) :=
  if s.depth = pfx.length * 8 ∧ 0 < pfx.length then some []
  else (newNodeIDFromBigInt s.depth s.index bitLen).map fun nodeID => [(nodeID, s.hash)]

/-- `indexAndHash`, as a future of the leaf queue gives it: a leaf's index and hash, or the error
of the child subtree whose root it waits for. -/
abbrev IndexAndHash (α : Type) := Except String (List UInt8 × α)

/-- The loop of `buildSubtree` over its queue: the leaves for `HStar2Nodes`, and the nodes to store
for them, each under the ID `NewNodeIDFromPrefixSuffix` makes of its index. -/
def collectLeaves (bitLen : ℕ) : List (IndexAndHash α) →
    Option (Except String (List (HStar2LeafHash α) × List (Storage.NodeID × α)))
  | [] => some (.ok ([], []))
  | .error e :: _ => some (.error e)
  | .ok (index, hash) :: rest =>
    match newNodeIDFromPrefixSuffix index ⟨0, []⟩ bitLen with
    | none => none
    | some nodeID =>
      (collectLeaves bitLen rest).map fun r => r.map fun lr =>
        (⟨toNatBE nodeID.path, hash⟩ :: lr.1, (nodeID, hash) :: lr.2)

variable (h : MapHasher α) (treeID : ℤ)

/-- `buildSubtree`: the transaction of a worker over its queue, with the subtree's root or the
error it sends, and the nodes once the transaction is over; an error rolls it back. The setter's
panics are taken once `HStar2Nodes` returns. -/
def buildSubtree (pfx : List UInt8) (subtreeDepth : ℕ) (queue : List (IndexAndHash α))
    (nodes : MapNodes α) : Option (Except String α × MapNodes α) :=
  match collectLeaves h.bitLen queue with
  | none => none
  | some (.error e) => some (.error e, nodes)
  | some (.ok (leaves, leafNodes)) =>
    match hStar2Nodes h treeID pfx subtreeDepth leaves (some (buildSubtreeGet nodes h.bitLen)) with
    | none => none
    | some (.error e) => some (.error e, nodes)
    | some (.ok (root, sets)) =>
      match sets.mapM (buildSubtreeSet pfx h.bitLen) with
      | none => none
      | some setNodes => some (.ok root, setMerkleNodes nodes (leafNodes ++ setNodes.flatten))

structure HashKeyValue (α : Type) where
  hashedKey : List UInt8
  hashedValue : α

/-- An entry of a worker's leaf queue: a leaf at the bottom of its subtree, or the future of the
root of the child created for a prefix. -/
inductive QueueEntry (α : Type) where
  | leaf (index : List UInt8) (hash : α)
  | child (pfx : List UInt8)

def topSubtreeSize : ℕ := 8

/-- The workers of a `SparseMerkleTreeWriter` once leaves are set: the top worker's queue, and the
children in the order they were created, each with its prefix and its queue. The top worker is at
the prefix `[]` with `topSubtreeSize` levels, each child has the `Size()*8 - topSubtreeSize` levels
below, and a child's queue has only leaves: one of its own children would panic. -/
structure SparseMerkleTreeWriter (α : Type) where
  topQueue : List (QueueEntry α)
  children : List (List UInt8 × List (List UInt8 × α))

/-- `NewSparseMerkleTreeWriter`: no leaves yet. -/
def newSparseMerkleTreeWriter : SparseMerkleTreeWriter α := ⟨[], []⟩

/-- `getOrCreateChildSubtree` on the top worker: the writer with a child for the prefix, created
with its future at the end of the top's queue if there is none yet. -/
def getOrCreateChildSubtree (w : SparseMerkleTreeWriter α) (childPrefix : List UInt8) :
    SparseMerkleTreeWriter α :=
  if (w.children.map Prod.fst).contains childPrefix then w
  else ⟨w.topQueue ++ [.child childPrefix], w.children ++ [(childPrefix, [])]⟩

/-- The child's `SetLeaf` at its bottom: the leaf joins the queue of the child for the prefix. -/
def queueLeaf (childPrefix : List UInt8) (leaf : List UInt8 × α)
    (children : List (List UInt8 × List (List UInt8 × α))) :
    List (List UInt8 × List (List UInt8 × α)) :=
  children.map fun c => if c.1 = childPrefix then (c.1, c.2 ++ [leaf]) else c

/-- `subtreeWriter.SetLeaf` on the top worker, with `size` the hasher's `Size()`. A leaf below the
top's bottom goes to the child for its first byte. The child takes it at its own bottom; above is
an error, and below panics, as the child would create a worker for the empty rest of the
depths. -/
def setLeaf (size : ℕ) (w : SparseMerkleTreeWriter α) (index : List UInt8) (hash : α) :
    Option (Except String (SparseMerkleTreeWriter α)) :=
  let depth := index.length * 8
  let absSubtreeDepth := 0 * 8 + topSubtreeSize
  if depth < absSubtreeDepth then some (.error s!"depth: {depth}, want >= {absSubtreeDepth}")
  else if absSubtreeDepth < depth then
    let childPrefix := index.take (absSubtreeDepth / 8)
    let w := getOrCreateChildSubtree w childPrefix
    -- the child's `SetLeaf`
    let childDepth : ℤ := childPrefix.length * 8 + ((size : ℤ) * 8 - topSubtreeSize)
    if (depth : ℤ) < childDepth then some (.error s!"depth: {depth}, want >= {childDepth}")
    else if childDepth < depth then none
    else some (.ok { w with children := queueLeaf childPrefix (index, hash) w.children })
  else some (.ok { w with topQueue := w.topQueue ++ [.leaf index hash] })

/-- `SetLeaves`: the leaves one by one, up to the first error. -/
def setLeaves (size : ℕ) (w : SparseMerkleTreeWriter α) :
    List (HashKeyValue α) → Option (Except String (SparseMerkleTreeWriter α))
  | [] => some (.ok w)
  | l :: ls =>
    match setLeaf size w l.hashedKey l.hashedValue with
    | none => none
    | some (.error e) => some (.error e)
    | some (.ok w) => setLeaves size w ls

/-- The children's transactions, in the order the children were created: each child's root or
error under its prefix, and the nodes once they are over. -/
def buildChildren (size : ℕ) :
    List (List UInt8 × List (List UInt8 × α)) → MapNodes α →
      Option (List (List UInt8 × Except String α) × MapNodes α)
  | [], nodes => some ([], nodes)
  | (pfx, queue) :: rest, nodes =>
    match buildSubtree h treeID pfx (size * 8 - topSubtreeSize) (queue.map .ok) nodes with
    | none => none
    | some (root, nodes) =>
      (buildChildren size rest nodes).map fun r => ((pfx, root) :: r.1, r.2)

/-- A future of the top's queue, as it resolves: a leaf, or the root of the child for a prefix, or
its error. A future holds its child, so the prefix always has a worker; `none` is the lookup that
cannot miss. -/
def resolveEntry (roots : List (List UInt8 × Except String α)) :
    QueueEntry α → Option (IndexAndHash α)
  | .leaf index hash => some (.ok (index, hash))
  | .child pfx => (roots.lookup pfx).map fun root => root.map fun r => (pfx, r)

/-- `CalculateRoot`: the children's transactions, then the top's over its resolved queue. -/
def calculateRoot (size : ℕ) (w : SparseMerkleTreeWriter α) (nodes : MapNodes α) :
    Option (Except String α × MapNodes α) :=
  match buildChildren h treeID size w.children nodes with
  | none => none
  | some (roots, nodes) =>
    match w.topQueue.mapM (resolveEntry roots) with
    | none => none
    | some queue => buildSubtree h treeID [] topSubtreeSize queue nodes

/-- `SetLeaves` then `CalculateRoot` on a new writer: the root, or the error, and the nodes. A
`SetLeaves` error leaves the workers waiting and the nodes as they were. -/
def writeLeaves (size : ℕ) (kvs : List (HashKeyValue α)) (nodes : MapNodes α) :
    Option (Except String α × MapNodes α) :=
  match setLeaves size newSparseMerkleTreeWriter kvs with
  | none => none
  | some (.error e) => some (.error e, nodes)
  | some (.ok w) => calculateRoot h treeID size w nodes

section Stored

variable [DecidableEq α] (L : ℕ → Option α)

/-- The nodes at height `H` of the tree of `L` as they are stored: the hash of a node with a leaf
below it, and nothing for the others. -/
def stratum (H q : ℕ) : Option α :=
  if SubtreeEmpty L H q then none else some (smtNode h treeID L H q)

/-- The stored nodes are the sparse Merkle tree of `L`. -/
def StoreServes (nodes : MapNodes α) : Prop :=
  ∀ t q, t ≤ h.bitLen → q < 2 ^ (h.bitLen - t) → nodes (nodeIDAt h.bitLen t q) = stratum h treeID L t q

/-- The map `L` with the leaves of a batch written, at the keys their bytes make. -/
def writeKeys (kvs : List (HashKeyValue α)) : ℕ → Option α :=
  writeAll L (kvs.map fun kv => (toNatBE kv.hashedKey, kv.hashedValue))

end Stored

section Strata

variable [DecidableEq α] {h : MapHasher α} {treeID : ℤ} {L : ℕ → Option α}

omit [DecidableEq α] in
theorem subtreeEmpty_add {H t p : ℕ} :
    SubtreeEmpty L (H + t) p ↔ ∀ j < 2 ^ t, SubtreeEmpty L H (p * 2 ^ t + j) := by
  constructor
  · intro he j hj i hi
    -- the key, as an offset within the node at height `H + t`
    have hkey : (p * 2 ^ t + j) * 2 ^ H + i = p * 2 ^ (H + t) + (j * 2 ^ H + i) := by ring
    have hlt : j * 2 ^ H + i < 2 ^ (H + t) := by
      calc j * 2 ^ H + i < (j + 1) * 2 ^ H := by rw [Nat.add_mul, Nat.one_mul]; omega
        _ ≤ 2 ^ t * 2 ^ H := Nat.mul_le_mul_right _ hj
        _ = 2 ^ (H + t) := by rw [pow_add, Nat.mul_comm]
    rw [hkey]
    exact he _ hlt
  · intro he i hi
    -- the node at height `H` the key falls in, and its offset there
    have hkey : p * 2 ^ (H + t) + i = (p * 2 ^ t + i / 2 ^ H) * 2 ^ H + i % 2 ^ H := by
      nth_rewrite 1 [← Nat.div_add_mod i (2 ^ H)]
      ring
    have hj : i / 2 ^ H < 2 ^ t := by
      rw [Nat.div_lt_iff_lt_mul (Nat.two_pow_pos H), ← pow_add, Nat.add_comm]
      exact hi
    rw [hkey]
    exact he _ hj _ (Nat.mod_lt _ (Nat.two_pow_pos H))

theorem smtNode_of_subtreeEmpty {t p : ℕ} (he : SubtreeEmpty L t p) :
    smtNode h treeID L t p = h.hashEmpty treeID (emptyIndex h.bitLen p t) t := by
  cases t with
  | zero => rw [smtNode, subtreeEmpty_zero.mp he, Option.getD_none]
  | succ t => rw [smtNode, if_pos he]

theorem stratum_eq_none_iff {H q : ℕ} : stratum h treeID L H q = none ↔ SubtreeEmpty L H q := by
  unfold stratum
  split_ifs with he <;> simp [he]

theorem stratum_of_not_subtreeEmpty {H q : ℕ} (he : ¬SubtreeEmpty L H q) :
    stratum h treeID L H q = some (smtNode h treeID L H q) := by
  rw [stratum, if_neg he]

theorem stratum_zero : stratum h treeID L 0 = L := by
  funext q
  cases hq : L q with
  | none => rw [stratum_eq_none_iff, subtreeEmpty_zero, hq]
  | some x =>
    have hne : ¬SubtreeEmpty L 0 q := by rw [subtreeEmpty_zero, hq]; simp
    rw [stratum_of_not_subtreeEmpty hne, smtNode, hq, Option.getD_some]

theorem subtreeEmpty_stratum {H t p : ℕ} :
    SubtreeEmpty (stratum h treeID L H) t p ↔ SubtreeEmpty L (H + t) p := by
  rw [subtreeEmpty_add]
  exact forall₂_congr fun j _ => stratum_eq_none_iff

theorem layerNode_stratum {H : ℕ} :
    ∀ t p, layerNode h treeID H (stratum h treeID L H) t p = smtNode h treeID L (H + t) p
  | 0, p => by
    by_cases he : SubtreeEmpty L H p
    · rw [layerNode, stratum_eq_none_iff.mpr he, Option.getD_none, Nat.add_zero,
        smtNode_of_subtreeEmpty he]
    · rw [layerNode, stratum_of_not_subtreeEmpty he, Option.getD_some, Nat.add_zero]
  | t + 1, p => by
    rw [layerNode, show H + (t + 1) = H + t + 1 from rfl, smtNode, layerNode_stratum t,
      layerNode_stratum t]
    by_cases he : SubtreeEmpty L (H + t + 1) p
    · rw [if_pos ((subtreeEmpty_stratum (H := H) (t := t + 1)).mpr he), if_pos he]
    · rw [if_neg (mt (subtreeEmpty_stratum (H := H) (t := t + 1)).mp he), if_neg he]

theorem stratum_congr {L' : ℕ → Option α} {H t p : ℕ}
    (hagree : ∀ j < 2 ^ t, stratum h treeID L H (p * 2 ^ t + j) = stratum h treeID L' H (p * 2 ^ t + j)) :
    stratum h treeID L (H + t) p = stratum h treeID L' (H + t) p := by
  have hempty : SubtreeEmpty L (H + t) p ↔ SubtreeEmpty L' (H + t) p := by
    rw [← subtreeEmpty_stratum, ← subtreeEmpty_stratum]
    exact forall₂_congr fun j hj => by rw [hagree j hj]
  have hnode : smtNode h treeID L (H + t) p = smtNode h treeID L' (H + t) p := by
    rw [← layerNode_stratum, ← layerNode_stratum]
    exact layerNode_congr t p hagree
  unfold stratum
  by_cases he : SubtreeEmpty L (H + t) p
  · rw [if_pos he, if_pos (hempty.mp he)]
  · rw [if_neg he, if_neg (mt hempty.mpr he), hnode]

end Strata

theorem mul_two_pow_shiftRight (q H : ℕ) : (q * 2 ^ H) >>> H = q := by
  rw [← Nat.shiftLeft_eq, Nat.shiftLeft_shiftRight]

section IDs

variable {bitLen : ℕ} (hbits : bitLen % 8 = 0)

theorem mul_two_pow_lt {t q : ℕ} (ht : t ≤ bitLen) (hq : q < 2 ^ (bitLen - t)) :
    q * 2 ^ t < 2 ^ bitLen :=
  calc q * 2 ^ t < 2 ^ (bitLen - t) * 2 ^ t := Nat.mul_lt_mul_of_pos_right hq (Nat.two_pow_pos _)
    _ = 2 ^ bitLen := by rw [← pow_add, Nat.sub_add_cancel ht]

include hbits

theorem newNodeIDFromBigInt_nodeIDAt {t q : ℕ} (ht : t ≤ bitLen) (hq : q < 2 ^ (bitLen - t)) :
    newNodeIDFromBigInt ((bitLen - t : ℕ) : ℤ) (q * 2 ^ t) bitLen = some (nodeIDAt bitLen t q) :=
  newNodeIDFromBigInt_eq _ hbits (mul_two_pow_lt ht hq)

theorem nodeIDAt_inj {t t' q q' : ℕ} (ht : t ≤ bitLen) (ht' : t' ≤ bitLen)
    (hq : q < 2 ^ (bitLen - t)) (hq' : q' < 2 ^ (bitLen - t'))
    (heq : nodeIDAt bitLen t q = nodeIDAt bitLen t' q') : t = t' ∧ q = q' := by
  have hdepth : ((bitLen - t : ℕ) : ℤ) = ((bitLen - t' : ℕ) : ℤ) := congrArg Storage.NodeID.prefixLenBits heq
  have htt : t = t' := by omega
  subst htt
  have hidx := congrArg (fun n : Storage.NodeID => toNatBE n.path) heq
  simp only [toNatBE_nodeIDAt hbits ht hq, toNatBE_nodeIDAt hbits ht hq'] at hidx
  exact ⟨rfl, Nat.eq_of_mul_eq_mul_right (Nat.two_pow_pos t) hidx⟩

/-- The height of the node an ID names, for an ID `nodeIDAt` makes. -/
def heightOfID (bitLen : ℕ) (id : Storage.NodeID) : ℕ := bitLen - id.prefixLenBits.toNat

/-- The node an ID names, for an ID `nodeIDAt` makes. -/
def nodeOfID (bitLen : ℕ) (id : Storage.NodeID) : ℕ := toNatBE id.path >>> heightOfID bitLen id

omit hbits in
theorem heightOfID_nodeIDAt {t q : ℕ} (ht : t ≤ bitLen) : heightOfID bitLen (nodeIDAt bitLen t q) = t := by
  simp only [heightOfID, nodeIDAt, Int.toNat_natCast]
  omega

theorem nodeOfID_nodeIDAt {t q : ℕ} (ht : t ≤ bitLen) (hq : q < 2 ^ (bitLen - t)) :
    nodeOfID bitLen (nodeIDAt bitLen t q) = q := by
  rw [nodeOfID, heightOfID_nodeIDAt ht, toNatBE_nodeIDAt hbits ht hq, mul_two_pow_shiftRight]

end IDs

theorem mapM_of_forall {β γ : Type} {f : β → Option γ} (g : β → γ) :
    ∀ {l : List β}, (∀ x ∈ l, f x = some (g x)) → l.mapM f = some (l.map g)
  | [], _ => rfl
  | x :: l, hf => by
    rw [List.mapM_cons, hf x List.mem_cons_self,
      mapM_of_forall g fun y hy => hf y (List.mem_cons_of_mem x hy)]
    rfl

theorem lt_two_pow_of_shiftRight_lt {k n m : ℕ} (hk : k >>> n < 2 ^ m) : k < 2 ^ (m + n) := by
  rw [Nat.shiftRight_eq_div_pow, Nat.div_lt_iff_lt_mul (Nat.two_pow_pos n), ← pow_add] at hk
  exact hk

section Transaction

variable [DecidableEq α] {h : MapHasher α} {treeID : ℤ} {L L' : ℕ → Option α}

/-- The leaves of a worker's queue, as `HStar2Nodes` takes them: each at the leftmost key below the
node its bytes name at height `H`. -/
def leavesAt (H : ℕ) (entries : List (List UInt8 × α)) : List (HStar2LeafHash α) :=
  entries.map fun e => ⟨toNatBE e.1 * 2 ^ H, e.2⟩

omit [DecidableEq α] in
/-- `buildSubtree`'s loop over a queue of nodes at height `H`: each leaf stored under the ID of its
node. -/
theorem collectLeaves_ok {bitLen H : ℕ} (hbits : bitLen % 8 = 0) :
    ∀ {entries : List (List UInt8 × α)}, (∀ e ∈ entries, e.1.length * 8 + H = bitLen) →
      collectLeaves bitLen (entries.map Except.ok) = some (.ok (leavesAt H entries,
        entries.map fun e => (nodeIDAt bitLen H (toNatBE e.1), e.2)))
  | [], _ => rfl
  | (b, x) :: entries, hlen => by
    have hb : b.length * 8 + H = bitLen := hlen (b, x) List.mem_cons_self
    have hnode := newNodeIDFromPrefixSuffix_nodeIDAt hbits (show b.length * 8 ≤ bitLen by omega)
    rw [show bitLen - b.length * 8 = H by omega] at hnode
    have hpath := toNatBE_nodeIDAt hbits (show H ≤ bitLen by omega)
      (show toNatBE b < 2 ^ (bitLen - H) by
        rw [show bitLen - H = 8 * b.length by omega]
        exact toNatBE_lt b)
    rw [List.map_cons, collectLeaves, hnode]
    simp only [collectLeaves_ok hbits fun e he => hlen e (List.mem_cons_of_mem _ he), hpath]
    rfl

/-- The getter of `buildSubtree`, on nodes that are the tree of `L` below the node `P` at height
`H + D` from height `H` up, serves that tree there. -/
theorem serves_buildSubtreeGet (hbits : h.bitLen % 8 = 0) {nodes : MapNodes α} {H D P : ℕ}
    (hHD : H + D ≤ h.bitLen) (hP : P < 2 ^ (h.bitLen - (H + D)))
    (hserves : ∀ t q, t ≤ D → q >>> (D - t) = P →
      nodes (nodeIDAt h.bitLen (H + t) q) = stratum h treeID L (H + t) q) :
    Serves h treeID (some (buildSubtreeGet nodes h.bitLen)) H (stratum h treeID L H) D P := by
  intro t q ht hq
  have hqlt : q < 2 ^ (h.bitLen - (H + t)) := by
    have := lt_two_pow_of_shiftRight_lt (hq ▸ hP)
    rwa [show h.bitLen - (H + D) + (D - t) = h.bitLen - (H + t) by omega] at this
  have hget : (some (buildSubtreeGet nodes h.bitLen)).map
      (fun getter => getter (h.bitLen - (H + t)) (q * 2 ^ (H + t))) =
        some (some (.ok (stratum h treeID L (H + t) q))) := by
    rw [Option.map_some, buildSubtreeGet, newNodeIDFromBigInt_nodeIDAt hbits (by omega) hqlt,
      Option.map_some, hserves t q ht hq]
  -- the stored node is the node's hash, or nothing for an empty node
  rw [hget]
  cases hs : stratum h treeID L (H + t) q with
  | none => exact subtreeEmpty_stratum.mpr (stratum_eq_none_iff.mp hs)
  | some x =>
    have hne : ¬SubtreeEmpty L (H + t) q := fun he => by
      rw [stratum_eq_none_iff.mpr he] at hs
      cases hs
    rw [stratum_of_not_subtreeEmpty hne] at hs
    rw [layerNode_stratum]
    exact (Option.some_inj.mp hs).symm

omit [DecidableEq α] in
theorem buildSubtreeSet_nodeSet [DecidableEq α] (hbits : h.bitLen % 8 = 0) {pfx : List UInt8}
    {H t q : ℕ} {B : ℕ → Option α} (ht : H + t ≤ h.bitLen) (hq : q < 2 ^ (h.bitLen - (H + t))) :
    buildSubtreeSet pfx h.bitLen (nodeSet h treeID H B t q) =
      some (if h.bitLen - (H + t) = pfx.length * 8 ∧ 0 < pfx.length then []
        else [(nodeIDAt h.bitLen (H + t) q, layerNode h treeID H B t q)]) := by
  unfold buildSubtreeSet nodeSet
  split_ifs
  · rfl
  · rw [newNodeIDFromBigInt_nodeIDAt hbits ht hq]
    rfl

theorem shiftRight_mul_two_pow_add {q t j : ℕ} (hj : j < 2 ^ t) : (q * 2 ^ t + j) >>> t = q := by
  rw [Nat.shiftRight_eq_div_pow, Nat.mul_comm, Nat.mul_add_div (Nat.two_pow_pos t),
    Nat.div_eq_of_lt hj, Nat.add_zero]

/-- Written over the stored nodes at height `H`, the queue's leaves give the nodes of `L'` below
the prefix's node. -/
theorem writeValues_leavesAt {entries : List (List UInt8 × α)} {H D P : ℕ}
    (hnew : ∀ e ∈ entries, stratum h treeID L' H (toNatBE e.1) = some e.2)
    (hold : ∀ q, q >>> D = P → (∀ e ∈ entries, toNatBE e.1 ≠ q) →
      stratum h treeID L' H q = stratum h treeID L H q) {q : ℕ} (hq : q >>> D = P) :
    writeValues H (leavesAt H entries) (stratum h treeID L H) q = stratum h treeID L' H q := by
  unfold writeValues
  cases hf : (leavesAt H entries).find? (fun v => v.index >>> H = q) with
  | some v =>
    -- the first leaf at the node is the queue's entry for it
    obtain ⟨e, he, rfl⟩ : ∃ e ∈ entries, ⟨toNatBE e.1 * 2 ^ H, e.2⟩ = v := by
      simpa [leavesAt] using List.mem_of_find?_eq_some hf
    have hq' : toNatBE e.1 = q := by simpa [mul_two_pow_shiftRight] using List.find?_some hf
    rw [← hq', hnew e he]
  | none =>
    -- no entry at the node
    refine (hold q hq fun e he heq => ?_).symm
    have hnot := List.find?_eq_none.mp hf ⟨toNatBE e.1 * 2 ^ H, e.2⟩ (by
      simp only [leavesAt, List.mem_map]
      exact ⟨e, he, rfl⟩)
    simp [mul_two_pow_shiftRight, heq] at hnot

theorem layerNode_writeValues {entries : List (List UInt8 × α)} {H D P : ℕ}
    (hnew : ∀ e ∈ entries, stratum h treeID L' H (toNatBE e.1) = some e.2)
    (hold : ∀ q, q >>> D = P → (∀ e ∈ entries, toNatBE e.1 ≠ q) →
      stratum h treeID L' H q = stratum h treeID L H q) {t q : ℕ} (ht : t ≤ D)
    (hq : q >>> (D - t) = P) :
    layerNode h treeID H (writeValues H (leavesAt H entries) (stratum h treeID L H)) t q =
      smtNode h treeID L' (H + t) q := by
  rw [← layerNode_stratum]
  refine layerNode_congr t q fun j hj => writeValues_leavesAt hnew hold ?_
  rw [← shiftRight_shiftRight_of_le ht, shiftRight_mul_two_pow_add hj, hq]

/-- One worker's transaction, over nodes at height `H` below the node `P` of its prefix at height
`H + D`. The store holds the tree of `L` there, and `L'` is the map whose nodes at height `H` below
`P` are the queue's where it has one and `L`'s elsewhere. The worker sends the root of `L'` at
`P`, and leaves the tree of `L'` stored below `P` down to height `H`, with `P` itself if it is the
whole tree's root; every other node is left as it was. -/
theorem buildSubtree_spec (hbits : h.bitLen % 8 = 0) {pfx : List UInt8} {D H : ℕ}
    {entries : List (List UInt8 × α)} {nodes : MapNodes α} (hD : 0 < D)
    (hdepth : pfx.length * 8 + D + H = h.bitLen)
    (hlen : ∀ e ∈ entries, e.1.length * 8 + H = h.bitLen)
    (hnd : (entries.map fun e => toNatBE e.1).Nodup)
    (hbelow : ∀ e ∈ entries, toNatBE e.1 >>> D = toNatBE pfx)
    (hnew : ∀ e ∈ entries, stratum h treeID L' H (toNatBE e.1) = some e.2)
    (hold : ∀ q, q >>> D = toNatBE pfx → (∀ e ∈ entries, toNatBE e.1 ≠ q) →
      stratum h treeID L' H q = stratum h treeID L H q)
    (hserves : ∀ t q, t ≤ D → q >>> (D - t) = toNatBE pfx →
      nodes (nodeIDAt h.bitLen (H + t) q) = stratum h treeID L (H + t) q) :
    ∃ nodes', buildSubtree h treeID pfx D (entries.map Except.ok) nodes =
        some (.ok (smtNode h treeID L' (H + D) (toNatBE pfx)), nodes') ∧
      (∀ t q, t ≤ D → q >>> (D - t) = toNatBE pfx → (t < D ∨ pfx = []) →
        nodes' (nodeIDAt h.bitLen (H + t) q) = stratum h treeID L' (H + t) q) ∧
      ∀ id, (∀ t q, t ≤ D → q >>> (D - t) = toNatBE pfx → (t < D ∨ pfx = []) →
        id ≠ nodeIDAt h.bitLen (H + t) q) → nodes' id = nodes id := by
  have hP : toNatBE pfx < 2 ^ (h.bitLen - (H + D)) := by
    rw [show h.bitLen - (H + D) = 8 * pfx.length by omega]
    exact toNatBE_lt pfx
  -- the nodes below the prefix's node are nodes of the tree
  have hrangeq : ∀ t q, t ≤ D → q >>> (D - t) = toNatBE pfx → q < 2 ^ (h.bitLen - (H + t)) :=
    fun t q ht hq => by
      have := lt_two_pow_of_shiftRight_lt (hq ▸ hP)
      rwa [show h.bitLen - (H + D) + (D - t) = h.bitLen - (H + t) by omega] at this
  have hleaf : ∀ v ∈ leavesAt H entries, ∃ e ∈ entries, ⟨toNatBE e.1 * 2 ^ H, e.2⟩ = v :=
    fun v hv => by simpa [leavesAt] using hv
  set B := writeValues H (leavesAt H entries) (stratum h treeID L H) with hB
  have hnd' : ((leavesAt H entries).map fun v => v.index >>> H).Nodup := by
    rw [leavesAt, List.map_map]
    convert hnd using 2
    funext e
    exact mul_two_pow_shiftRight _ _
  -- `HStar2Nodes` over the queue's leaves, with the store as the getter: `hStar2b` from the
  -- prefix's node over the sorted leaves
  have hperm := List.mergeSort_perm (leavesAt H entries) fun a b => a.index ≤ b.index
  obtain ⟨sets, hroot, hsets⟩ := hStar2b_spec hbits D (pfx.length * 8) (toNatBE pfx) _ (by omega)
    (by rw [Nat.mul_comm]; exact toNatBE_lt pfx) (pairwise_mergeSort_of_nodup hnd')
    (fun v hv => by
      obtain ⟨e, he, rfl⟩ := hleaf v (hperm.subset hv)
      rw [Nat.shiftRight_add, mul_two_pow_shiftRight]
      exact hbelow e he)
    (placed_writeValues hnd' fun v => hperm.mem_iff) (serves_buildSubtreeGet hbits (by omega) hP hserves)
  rw [← hStar2Nodes_eq_hStar2b hbits hdepth] at hroot
  -- the setter is called for the nodes above an entry
  have hcalls : ∀ s ∈ sets, ∃ t, 0 < t ∧ t ≤ D ∧ ∃ e ∈ entries,
      s = nodeSet h treeID H B t (toNatBE e.1 >>> t) := by
    intro s hs
    obtain ⟨t, ht0, ht, v, hv, rfl⟩ := (hsets.mem_iff s).mp hs
    obtain ⟨e, he, rfl⟩ := hleaf v (hperm.subset hv)
    exact ⟨t, ht0, ht, e, he, by rw [Nat.shiftRight_add, mul_two_pow_shiftRight]⟩
  have habove : ∀ e ∈ entries, ∀ t ≤ D, (toNatBE e.1 >>> t) >>> (D - t) = toNatBE pfx :=
    fun e he t ht => by rw [shiftRight_shiftRight_of_le ht]; exact hbelow e he
  let g := fun s : SetNode α => (buildSubtreeSet pfx h.bitLen s).getD []
  have hg : ∀ s ∈ sets, buildSubtreeSet pfx h.bitLen s = some (g s) := by
    intro s hs
    obtain ⟨t, -, ht, e, he, rfl⟩ := hcalls s hs
    simp only [g]
    rw [buildSubtreeSet_nodeSet hbits (by omega) (hrangeq t _ ht (habove e he t ht))]
    rfl
  -- what the transaction stores: the leaves, then the setter's nodes
  set ws := entries.map (fun e => (nodeIDAt h.bitLen H (toNatBE e.1), e.2)) ++
    (sets.map g).flatten with hws
  have hrootval := layerNode_writeValues hnew hold (le_refl D)
    (show toNatBE pfx >>> (D - D) = toNatBE pfx by simp)
  have hbuild : buildSubtree h treeID pfx D (entries.map Except.ok) nodes =
      some (.ok (smtNode h treeID L' (H + D) (toNatBE pfx)), setMerkleNodes nodes ws) := by
    simp only [buildSubtree, collectLeaves_ok hbits hlen, hroot, mapM_of_forall g hg, hrootval]
    rfl
  -- each write is a node above an entry, with its hash in the tree above `B`
  have hwrite : ∀ w ∈ ws, ∃ t q, t ≤ D ∧ q >>> (D - t) = toNatBE pfx ∧ (t < D ∨ pfx = []) ∧
      (∃ e ∈ entries, toNatBE e.1 >>> t = q) ∧
        w = (nodeIDAt h.bitLen (H + t) q, layerNode h treeID H B t q) := by
    intro w hw
    rcases List.mem_append.mp hw with hw | hw
    · -- a leaf: its node at height `H`
      obtain ⟨e, he, rfl⟩ := List.mem_map.mp hw
      have hBe : B (toNatBE e.1) = some e.2 := by
        rw [hB, writeValues_leavesAt hnew hold (hbelow e he), hnew e he]
      refine ⟨0, toNatBE e.1, Nat.zero_le _, by simpa using hbelow e he, .inl hD,
        ⟨e, he, by simp⟩, ?_⟩
      rw [layerNode, hBe, Option.getD_some, Nat.add_zero]
    · -- a call of the setter, but for the subtree's root below a prefix
      obtain ⟨r, hr, hwr⟩ := List.mem_flatten.mp hw
      obtain ⟨s, hs, rfl⟩ := List.mem_map.mp hr
      obtain ⟨t, -, ht, e, he, rfl⟩ := hcalls s hs
      have hq := habove e he t ht
      simp only [g, buildSubtreeSet_nodeSet hbits (by omega) (hrangeq t _ ht hq), Option.getD_some]
        at hwr
      split_ifs at hwr with hskip
      · simp at hwr
      · refine ⟨t, _, ht, hq, ?_, ⟨e, he, rfl⟩, List.mem_singleton.mp hwr⟩
        by_cases hpfx : pfx = []
        · exact .inr hpfx
        · exact .inl (by
            have : 0 < pfx.length := List.length_pos_iff.mpr hpfx
            omega)
  -- and each node above an entry is written
  have hcover : ∀ t q, t ≤ D → q >>> (D - t) = toNatBE pfx → (t < D ∨ pfx = []) →
      (∃ e ∈ entries, toNatBE e.1 >>> t = q) → ∃ w ∈ ws, w.1 = nodeIDAt h.bitLen (H + t) q := by
    rintro t q ht hq hr ⟨e, he, rfl⟩
    rcases Nat.eq_zero_or_pos t with rfl | ht0
    · exact ⟨(nodeIDAt h.bitLen H (toNatBE e.1), e.2),
        List.mem_append_left _ (List.mem_map.mpr ⟨e, he, rfl⟩), by simp⟩
    · have hs : nodeSet h treeID H B t (toNatBE e.1 >>> t) ∈ sets := (hsets.mem_iff _).mpr
        ⟨t, ht0, ht, ⟨toNatBE e.1 * 2 ^ H, e.2⟩, hperm.mem_iff.mpr (List.mem_map.mpr ⟨e, he, rfl⟩),
          by rw [Nat.shiftRight_add, mul_two_pow_shiftRight]⟩
      have hkeep : ¬(h.bitLen - (H + t) = pfx.length * 8 ∧ 0 < pfx.length) := by
        rintro ⟨hd, hl⟩
        rcases hr with hr | hr
        · omega
        · simp [hr] at hl
      refine ⟨(nodeIDAt h.bitLen (H + t) (toNatBE e.1 >>> t), layerNode h treeID H B t (toNatBE e.1 >>> t)),
        List.mem_append_right _ (List.mem_flatten.mpr ⟨g _, List.mem_map.mpr ⟨_, hs, rfl⟩, ?_⟩), rfl⟩
      simp only [g, buildSubtreeSet_nodeSet hbits (by omega) (hrangeq t _ ht hq),
        Option.getD_some, if_neg hkeep, List.mem_singleton]
  -- the hash a write stores is the one its node has in the tree above `B`
  have hvalue : ∀ w ∈ ws, w.2 = layerNode h treeID H B (heightOfID h.bitLen w.1 - H)
      (nodeOfID h.bitLen w.1) := by
    intro w hw
    obtain ⟨t, q, ht, hq, -, -, rfl⟩ := hwrite w hw
    rw [heightOfID_nodeIDAt (by omega), nodeOfID_nodeIDAt hbits (by omega) (hrangeq t q ht hq),
      Nat.add_sub_cancel_left]
  refine ⟨_, hbuild, ?_, ?_⟩
  · intro t q ht hq hr
    by_cases hent : ∃ e ∈ entries, toNatBE e.1 >>> t = q
    · -- written: the node's hash in the tree of `L'`, which has a leaf below it
      obtain ⟨e, he, hq'⟩ := hent
      have hne : ¬SubtreeEmpty L' (H + t) q := fun hempty => by
        have hkey := eq_add_mod_of_shiftRight_eq hq'
        have hj := Nat.mod_lt (toNatBE e.1) (Nat.two_pow_pos t)
        have hnone : stratum h treeID L' H (q * 2 ^ t + toNatBE e.1 % 2 ^ t) = none :=
          stratum_eq_none_iff.mpr (subtreeEmpty_add.mp hempty _ hj)
        rw [← hkey, hnew e he] at hnone
        cases hnone
      rw [setMerkleNodes, writeAll_of_exists (fun id => layerNode h treeID H B
          (heightOfID h.bitLen id - H) (nodeOfID h.bitLen id)) hvalue (hcover t q ht hq hr ⟨e, he, hq'⟩),
        heightOfID_nodeIDAt (by omega), nodeOfID_nodeIDAt hbits (by omega) (hrangeq t q ht hq),
        Nat.add_sub_cancel_left, layerNode_writeValues hnew hold ht hq,
        stratum_of_not_subtreeEmpty hne]
    · -- not written: as it was, and `L'` is `L` below it
      have hnot : ∀ w ∈ ws, w.1 ≠ nodeIDAt h.bitLen (H + t) q := by
        intro w hw heq
        obtain ⟨t', q', ht', hq', -, hent', rfl⟩ := hwrite w hw
        obtain ⟨htt, rfl⟩ := nodeIDAt_inj hbits (by omega) (by omega) (hrangeq t' q' ht' hq')
          (hrangeq t q ht hq) heq
        obtain rfl : t' = t := by omega
        exact hent hent'
      rw [setMerkleNodes, writeAll_of_forall_ne hnot, hserves t q ht hq]
      refine stratum_congr fun j hj => (hold _ ?_ fun e he heq => hent ⟨e, he, ?_⟩).symm
      · rw [← shiftRight_shiftRight_of_le ht, shiftRight_mul_two_pow_add hj, hq]
      · rw [heq, shiftRight_mul_two_pow_add hj]
  · intro id hid
    rw [setMerkleNodes, writeAll_of_forall_ne fun w hw heq => ?_]
    obtain ⟨t, q, ht, hq, hr, -, rfl⟩ := hwrite w hw
    exact hid t q ht hq hr heq.symm

end Transaction

section Keys

variable [DecidableEq α] {h : MapHasher α} {treeID : ℤ} {L : ℕ → Option α}

omit [DecidableEq α] in
theorem not_subtreeEmpty_of_shiftRight {k t q : ℕ} {x : α} (hk : L k = some x)
    (hq : k >>> t = q) : ¬SubtreeEmpty L t q := by
  intro he
  have hnone := he _ (Nat.mod_lt k (Nat.two_pow_pos t))
  rw [← eq_add_mod_of_shiftRight_eq hq, hk] at hnone
  cases hnone

theorem stratum_eq_of_agree {L' : ℕ → Option α} {t q : ℕ} (hagree : ∀ k, k >>> t = q → L k = L' k) :
    stratum h treeID L t q = stratum h treeID L' t q := by
  rw [← Nat.zero_add t]
  refine stratum_congr fun j hj => ?_
  rw [stratum_zero, stratum_zero]
  exact hagree _ (shiftRight_mul_two_pow_add hj)

theorem storeServes_empty : StoreServes h treeID (fun _ => none) fun _ => none :=
  fun _ _ _ _ => (stratum_eq_none_iff.mpr fun _ _ => rfl).symm

omit [DecidableEq α] in
theorem writeKeys_of_mem {kvs : List (HashKeyValue α)}
    (hnd : (kvs.map fun kv => toNatBE kv.hashedKey).Nodup) {kv : HashKeyValue α} (hkv : kv ∈ kvs) :
    writeKeys L kvs (toNatBE kv.hashedKey) = some kv.hashedValue := by
  have hfst : ((kvs.map fun kv => (toNatBE kv.hashedKey, kv.hashedValue)).map Prod.fst).Nodup := by
    rwa [List.map_map]
  exact writeAll_of_mem_of_nodup hfst (List.mem_map_of_mem hkv)

omit [DecidableEq α] in
theorem writeKeys_of_forall_ne {kvs : List (HashKeyValue α)} {k : ℕ}
    (hk : ∀ kv ∈ kvs, toNatBE kv.hashedKey ≠ k) : writeKeys L kvs k = L k := by
  refine writeAll_of_forall_ne fun w hw hwk => ?_
  obtain ⟨kv, hkv, rfl⟩ := List.mem_map.mp hw
  exact hk kv hkv hwk

end Keys

section Routing

/-- What `SetLeaves` keeps in the workers over the leaves `kvs` below the top: the top's queue
holds the children's futures in the order they were created, one child for each prefix of a
byte, each made for a leaf's first byte, and each leaf a child holds has its prefix. -/
structure Routing (w : SparseMerkleTreeWriter α) (kvs : List (HashKeyValue α)) : Prop where
  queue : w.topQueue = w.children.map fun c => .child c.1
  nodup : (w.children.map Prod.fst).Nodup
  pfx_length : ∀ c ∈ w.children, c.1.length = 1
  created : ∀ c ∈ w.children, ∃ kv ∈ kvs, kv.hashedKey.take 1 = c.1
  below : ∀ c ∈ w.children, ∀ e ∈ c.2, e.1.take 1 = c.1

def leafPairs (kvs : List (HashKeyValue α)) : List (List UInt8 × α) :=
  kvs.map fun kv => (kv.hashedKey, kv.hashedValue)

/-- The routing of workers that hold the leaves `kvs`, each once. -/
structure Routed (w : SparseMerkleTreeWriter α) (kvs : List (HashKeyValue α)) : Prop
    extends Routing w kvs where
  perm : (w.children.flatMap Prod.snd).Perm (leafPairs kvs)

theorem routed_new : Routed (newSparseMerkleTreeWriter : SparseMerkleTreeWriter α) [] where
  queue := rfl
  nodup := List.nodup_nil
  pfx_length _ hc := nomatch hc
  created _ hc := nomatch hc
  below _ hc := nomatch hc
  perm := List.Perm.nil

theorem Routing.mono {w : SparseMerkleTreeWriter α} {kvs kvs' : List (HashKeyValue α)}
    (hw : Routing w kvs) (hsub : ∀ kv ∈ kvs, kv ∈ kvs') : Routing w kvs' where
  __ := hw
  created c hc := by
    obtain ⟨kv, hkv, hcp⟩ := hw.created c hc
    exact ⟨kv, hsub kv hkv, hcp⟩

theorem map_fst_queueLeaf (cp : List UInt8) (e : List UInt8 × α)
    (cs : List (List UInt8 × List (List UInt8 × α))) :
    (queueLeaf cp e cs).map Prod.fst = cs.map Prod.fst := by
  rw [queueLeaf, List.map_map]
  refine List.map_congr_left fun c _ => ?_
  by_cases hc : c.1 = cp <;> simp [hc]

/-- A child after the leaf is queued: a child before, with the same prefix and the same leaves,
or the leaf as well if it is the child for the prefix. -/
theorem mem_queueLeaf {cp : List UInt8} {e : List UInt8 × α}
    {cs : List (List UInt8 × List (List UInt8 × α))} {c : List UInt8 × List (List UInt8 × α)}
    (hc : c ∈ queueLeaf cp e cs) :
    ∃ c₀ ∈ cs, c.1 = c₀.1 ∧ ∀ e' ∈ c.2, e' ∈ c₀.2 ∨ c.1 = cp ∧ e' = e := by
  obtain ⟨c₀, hc₀, rfl⟩ := List.mem_map.mp hc
  refine ⟨c₀, hc₀, ?_, fun e' he' => ?_⟩
  · by_cases h₀ : c₀.1 = cp <;> simp [h₀]
  · by_cases h₀ : c₀.1 = cp
    · simpa [h₀] using he'
    · simp only [h₀, if_false] at he'
      exact .inl he'

/-- Queued on the child for a prefix, among children with distinct prefixes, the leaf joins the
leaves the children hold. -/
theorem perm_flatMap_queueLeaf {cp : List UInt8} {e : List UInt8 × α} :
    ∀ {cs : List (List UInt8 × List (List UInt8 × α))}, (cs.map Prod.fst).Nodup →
      cp ∈ cs.map Prod.fst →
      ((queueLeaf cp e cs).flatMap Prod.snd).Perm (cs.flatMap Prod.snd ++ [e])
  | [], _, hcp => nomatch hcp
  | c :: cs, hnd, hcp => by
    rw [List.map_cons, List.nodup_cons] at hnd
    rw [queueLeaf, List.map_cons, List.flatMap_cons, List.flatMap_cons, List.append_assoc]
    by_cases hc : c.1 = cp
    · -- the leaf joins this child, and no other child has the prefix
      have hrest : (cs.map fun c => if c.1 = cp then (c.1, c.2 ++ [e]) else c) = cs := by
        conv_rhs => rw [← List.map_id cs]
        refine List.map_congr_left fun c' hc' => if_neg fun heq => hnd.1 ?_
        rw [hc, ← heq]
        exact List.mem_map_of_mem hc'
      rw [if_pos hc, hrest, List.append_assoc]
      exact List.Perm.append_left _ List.perm_append_comm
    · have hcp' : cp ∈ cs.map Prod.fst :=
        (List.mem_cons.mp hcp).resolve_left fun heq => hc heq.symm
      rw [if_neg hc]
      exact List.Perm.append_left _ (perm_flatMap_queueLeaf hnd.2 hcp')

/-- Queuing a leaf on the child for its first byte keeps the routing. -/
theorem Routing.queueLeaf {w : SparseMerkleTreeWriter α} {kvs : List (HashKeyValue α)}
    {cp : List UInt8} {e : List UInt8 × α} (hw : Routing w kvs) (he : e.1.take 1 = cp) :
    Routing { w with children := queueLeaf cp e w.children } kvs where
  queue := by
    show w.topQueue = (Map.queueLeaf cp e w.children).map fun c => .child c.1
    have hfst := congrArg (List.map (@QueueEntry.child α)) (map_fst_queueLeaf cp e w.children)
    rw [List.map_map, List.map_map] at hfst
    rw [hw.queue]
    exact hfst.symm
  nodup := by
    rw [map_fst_queueLeaf]
    exact hw.nodup
  pfx_length c hc := by
    obtain ⟨c₀, hc₀, hfst, -⟩ := mem_queueLeaf hc
    rw [hfst]
    exact hw.pfx_length c₀ hc₀
  created c hc := by
    obtain ⟨c₀, hc₀, hfst, -⟩ := mem_queueLeaf hc
    rw [hfst]
    exact hw.created c₀ hc₀
  below c hc e' he' := by
    obtain ⟨c₀, hc₀, hfst, hleaves⟩ := mem_queueLeaf hc
    rcases hleaves e' he' with he₀ | ⟨hcp, rfl⟩
    · rw [hfst]
      exact hw.below c₀ hc₀ e' he₀
    · rw [hcp, he]

theorem mem_getOrCreateChildSubtree (w : SparseMerkleTreeWriter α) (cp : List UInt8) :
    cp ∈ (getOrCreateChildSubtree w cp).children.map Prod.fst := by
  unfold getOrCreateChildSubtree
  split_ifs with hcp
  · exact List.contains_iff_mem.mp hcp
  · simp

theorem flatMap_getOrCreateChildSubtree (w : SparseMerkleTreeWriter α) (cp : List UInt8) :
    (getOrCreateChildSubtree w cp).children.flatMap Prod.snd = w.children.flatMap Prod.snd := by
  unfold getOrCreateChildSubtree
  split_ifs
  · rfl
  · simp

/-- The child for a leaf's first byte keeps the routing. -/
theorem Routing.getOrCreateChildSubtree {w : SparseMerkleTreeWriter α}
    {kvs : List (HashKeyValue α)} {kv : HashKeyValue α} (hw : Routing w kvs) (hkv : kv ∈ kvs)
    (hlen : (kv.hashedKey.take 1).length = 1) :
    Routing (getOrCreateChildSubtree w (kv.hashedKey.take 1)) kvs := by
  unfold Trillian.Map.getOrCreateChildSubtree
  split_ifs with hcp
  · exact hw
  · -- a new child, at the end of the children and of the top's queue
    have hnew : kv.hashedKey.take 1 ∉ w.children.map Prod.fst := fun hmem =>
      hcp (List.contains_iff_mem.mpr hmem)
    refine ⟨?_, ?_, ?_, ?_, ?_⟩
    · simp [hw.queue]
    · simp only [List.map_append, List.map_cons, List.map_nil]
      refine List.nodup_append.mpr ⟨hw.nodup, List.nodup_singleton _, fun a ha b hb hab => hnew ?_⟩
      rw [← List.mem_singleton.mp hb, ← hab]
      exact ha
    · intro c hc
      rcases List.mem_append.mp hc with hc | hc
      · exact hw.pfx_length c hc
      · rw [List.mem_singleton.mp hc]
        exact hlen
    · intro c hc
      rcases List.mem_append.mp hc with hc | hc
      · exact hw.created c hc
      · rw [List.mem_singleton.mp hc]
        exact ⟨kv, hkv, rfl⟩
    · intro c hc e he
      rcases List.mem_append.mp hc with hc | hc
      · exact hw.below c hc e he
      · rw [List.mem_singleton.mp hc] at he
        nomatch he

/-- `SetLeaf` of a leaf whose key has `size` bytes, more than one, queues it on the child for its
first byte. -/
theorem setLeaf_eq {size : ℕ} (w : SparseMerkleTreeWriter α) (index : List UInt8) (hash : α)
    (hlen : index.length = size) (hsize : 1 < size) :
    setLeaf size w index hash = some (.ok { getOrCreateChildSubtree w (index.take 1) with
      children := queueLeaf (index.take 1) (index, hash)
        (getOrCreateChildSubtree w (index.take 1)).children }) := by
  have hcplen : (index.take 1).length = 1 := by rw [List.length_take]; omega
  have habove : ¬index.length * 8 < 8 := by omega
  have hbelow : 8 < index.length * 8 := by omega
  simp only [setLeaf, topSubtreeSize, Nat.zero_mul, Nat.zero_add, Nat.reduceDiv, hcplen]
  rw [if_neg habove, if_pos hbelow, if_neg (by push_cast; omega), if_neg (by push_cast; omega)]

theorem setLeaf_routed {size : ℕ} {w : SparseMerkleTreeWriter α} {kvs : List (HashKeyValue α)}
    {kv : HashKeyValue α} (hw : Routed w kvs) (hlen : kv.hashedKey.length = size)
    (hsize : 1 < size) :
    ∃ w', setLeaf size w kv.hashedKey kv.hashedValue = some (.ok w') ∧ Routed w' (kvs ++ [kv]) := by
  have hcplen : (kv.hashedKey.take 1).length = 1 := by rw [List.length_take]; omega
  have hw₁ := (hw.toRouting.mono fun k hk => List.mem_append_left [kv] hk).getOrCreateChildSubtree
    (List.mem_append_right kvs (List.mem_singleton_self kv)) hcplen
  refine ⟨_, setLeaf_eq w _ _ hlen hsize, hw₁.queueLeaf rfl, ?_⟩
  -- the children held the batch before, and the new leaf is queued once
  have hqueued := perm_flatMap_queueLeaf (e := (kv.hashedKey, kv.hashedValue)) hw₁.nodup
    (mem_getOrCreateChildSubtree w _)
  rw [flatMap_getOrCreateChildSubtree] at hqueued
  refine hqueued.trans ?_
  rw [leafPairs, List.map_append]
  exact hw.perm.append_right _

theorem setLeaves_routed {size : ℕ} (hsize : 1 < size) :
    ∀ {w : SparseMerkleTreeWriter α} {kvs : List (HashKeyValue α)} (kvs' : List (HashKeyValue α)),
      Routed w kvs → (∀ kv ∈ kvs', kv.hashedKey.length = size) →
      ∃ w', setLeaves size w kvs' = some (.ok w') ∧ Routed w' (kvs ++ kvs')
  | w, kvs, [], hw, _ => ⟨w, rfl, by rwa [List.append_nil]⟩
  | w, kvs, kv :: kvs', hw, hlen => by
    obtain ⟨w₁, hstep, hw₁⟩ := setLeaf_routed hw (hlen kv List.mem_cons_self) hsize
    obtain ⟨w', hrun, hw'⟩ := setLeaves_routed hsize kvs' hw₁ fun kv' hkv' =>
      hlen kv' (List.mem_cons_of_mem kv hkv')
    refine ⟨w', ?_, ?_⟩
    · rw [setLeaves, hstep]
      exact hrun
    · rwa [List.append_assoc, List.singleton_append] at hw'

end Routing

section Batch

variable {size : ℕ} {w : SparseMerkleTreeWriter α} {kvs : List (HashKeyValue α)}

theorem childDepth_eq (size : ℕ) : size * 8 - topSubtreeSize = 8 * (size - 1) := by
  rw [topSubtreeSize]
  omega

theorem toNatBE_shiftRight_childDepth {b : List UInt8} (hb : b.length = size) :
    toNatBE b >>> (size * 8 - topSubtreeSize) = toNatBE (b.take 1) := by
  rw [toNatBE_take, hb, childDepth_eq]

theorem nodup_toNatBE_keys (hkeys : ∀ kv ∈ kvs, kv.hashedKey.length = size)
    (hnd : (kvs.map fun kv => kv.hashedKey).Nodup) :
    (kvs.map fun kv => toNatBE kv.hashedKey).Nodup := by
  have hinj : ∀ a ∈ kvs.map (fun kv => kv.hashedKey), ∀ b ∈ kvs.map (fun kv => kv.hashedKey),
      toNatBE a = toNatBE b → a = b := by
    intro a ha b hb hab
    obtain ⟨kv, hkv, rfl⟩ := List.mem_map.mp ha
    obtain ⟨kv', hkv', rfl⟩ := List.mem_map.mp hb
    exact toNatBE_inj (by rw [hkeys kv hkv, hkeys kv' hkv']) hab
  have hmap := hnd.map_on hinj
  rwa [List.map_map] at hmap

theorem Routed.mem_leafPairs (hw : Routed w kvs) {c : List UInt8 × List (List UInt8 × α)}
    (hc : c ∈ w.children) {e : List UInt8 × α} (he : e ∈ c.2) :
    ∃ kv ∈ kvs, (kv.hashedKey, kv.hashedValue) = e := by
  have hpair : e ∈ leafPairs kvs := hw.perm.subset (List.mem_flatMap.mpr ⟨c, hc, he⟩)
  simpa [leafPairs] using hpair

theorem Routed.exists_child (hw : Routed w kvs) (hkeys : ∀ kv ∈ kvs, kv.hashedKey.length = size)
    {kv : HashKeyValue α} (hkv : kv ∈ kvs) :
    ∃ c ∈ w.children, (kv.hashedKey, kv.hashedValue) ∈ c.2 ∧
      toNatBE kv.hashedKey >>> (size * 8 - topSubtreeSize) = toNatBE c.1 := by
  have hmem : (kv.hashedKey, kv.hashedValue) ∈ w.children.flatMap Prod.snd :=
    hw.perm.symm.subset (List.mem_map_of_mem hkv)
  obtain ⟨c, hc, he⟩ := List.mem_flatMap.mp hmem
  refine ⟨c, hc, he, ?_⟩
  rw [toNatBE_shiftRight_childDepth (hkeys kv hkv), hw.below c hc _ he]

theorem Routing.eq_of_toNatBE_eq (hw : Routing w kvs) {c c' : List UInt8 × List (List UInt8 × α)}
    (hc : c ∈ w.children) (hc' : c' ∈ w.children) (heq : toNatBE c.1 = toNatBE c'.1) : c = c' :=
  List.inj_on_of_nodup_map hw.nodup hc hc'
    (toNatBE_inj (by rw [hw.pfx_length c hc, hw.pfx_length c' hc']) heq)

theorem Routed.nodup_child (hw : Routed w kvs) (hnd : (kvs.map fun kv => toNatBE kv.hashedKey).Nodup)
    {c : List UInt8 × List (List UInt8 × α)} (hc : c ∈ w.children) :
    (c.2.map fun e => toNatBE e.1).Nodup := by
  have hall : ((w.children.flatMap Prod.snd).map fun e => toNatBE e.1).Nodup := by
    refine ((hw.perm.map _).nodup_iff).mpr ?_
    rwa [leafPairs, List.map_map]
  rw [List.map_flatMap, List.nodup_flatMap] at hall
  exact hall.1 c hc

end Batch

section Children

variable [DecidableEq α]

/-- The store while the children commit, with the prefixes `done` of those committed: the tree of
`L'` below the nodes at height `D` of the prefixes done, and the tree of `L` at every other node. -/
structure ChildrenStored (h : MapHasher α) (treeID : ℤ) (L L' : ℕ → Option α) (D : ℕ)
    (done : List (List UInt8)) (nodes : MapNodes α) : Prop where
  below : ∀ t q, t < D → q < 2 ^ (h.bitLen - t) → (∃ p ∈ done, q >>> (D - t) = toNatBE p) →
    nodes (nodeIDAt h.bitLen t q) = stratum h treeID L' t q
  other : ∀ t q, t ≤ h.bitLen → q < 2 ^ (h.bitLen - t) →
    (t < D → ∀ p ∈ done, q >>> (D - t) ≠ toNatBE p) →
    nodes (nodeIDAt h.bitLen t q) = stratum h treeID L t q

variable {h : MapHasher α} {treeID : ℤ} {L : ℕ → Option α} {size : ℕ}
  {w : SparseMerkleTreeWriter α} {kvs : List (HashKeyValue α)}

theorem childrenStored_init {L' : ℕ → Option α} {D : ℕ} {nodes : MapNodes α}
    (hserves : StoreServes h treeID L nodes) : ChildrenStored h treeID L L' D [] nodes where
  below _ _ _ _ hp := by
    obtain ⟨p, hp, -⟩ := hp
    nomatch hp
  other t q ht hq _ := hserves t q ht hq

omit [DecidableEq α] in
theorem Routed.writeKeys_of_not_below (hw : Routed w kvs)
    (hkeys : ∀ kv ∈ kvs, kv.hashedKey.length = size) {k : ℕ}
    (hk : ∀ c ∈ w.children, k >>> (size * 8 - topSubtreeSize) ≠ toNatBE c.1) :
    writeKeys L kvs k = L k := by
  refine writeKeys_of_forall_ne fun kv hkv heq => ?_
  obtain ⟨c, hc, -, hshift⟩ := hw.exists_child hkeys hkv
  rw [heq] at hshift
  exact hk c hc hshift

section Workers

variable (hsize : size * 8 = h.bitLen) (hdeep : topSubtreeSize < h.bitLen)
  (hkeys : ∀ kv ∈ kvs, kv.hashedKey.length = size)
  (hnd : (kvs.map fun kv => toNatBE kv.hashedKey).Nodup)
include hsize hdeep hkeys hnd

/-- The transaction of a child of routed workers, after those of the prefixes `done`: it sends the
root of the batch's map at its node, and stores the batch's tree below it. -/
theorem buildSubtree_child (hw : Routed w kvs) {c : List UInt8 × List (List UInt8 × α)}
    (hc : c ∈ w.children) {done : List (List UInt8)} (hdone : ∀ p ∈ done, toNatBE p ≠ toNatBE c.1)
    {nodes : MapNodes α}
    (hstored : ChildrenStored h treeID L (writeKeys L kvs) (size * 8 - topSubtreeSize) done nodes) :
    ∃ nodes', buildSubtree h treeID c.1 (size * 8 - topSubtreeSize) (c.2.map Except.ok) nodes =
        some (.ok (smtNode h treeID (writeKeys L kvs) (size * 8 - topSubtreeSize) (toNatBE c.1)),
          nodes') ∧
      ChildrenStored h treeID L (writeKeys L kvs) (size * 8 - topSubtreeSize) (done ++ [c.1])
        nodes' := by
  set D := size * 8 - topSubtreeSize with hD
  set L' := writeKeys L kvs with hL'
  have hbits : h.bitLen % 8 = 0 := by omega
  have hlen1 := hw.pfx_length c hc
  have hdeep8 : 8 < h.bitLen := hdeep
  have hD8 : 8 + D = h.bitLen := by rw [hD, topSubtreeSize]; omega
  -- the nodes below the child's node are nodes of the tree
  have hrange : ∀ t q, t ≤ D → q >>> (D - t) = toNatBE c.1 → q < 2 ^ (h.bitLen - t) := by
    intro t q ht hq
    have hc8 : toNatBE c.1 < 2 ^ 8 := by simpa [hlen1] using toNatBE_lt c.1
    have hlt := lt_two_pow_of_shiftRight_lt (hq ▸ hc8)
    rwa [show 8 + (D - t) = h.bitLen - t by omega] at hlt
  -- a leaf the child holds is a leaf of the batch below the child's node
  have hentry : ∀ e ∈ c.2, e.1.length = size ∧ toNatBE e.1 >>> D = toNatBE c.1 ∧
      L' (toNatBE e.1) = some e.2 := by
    intro e he
    obtain ⟨kv, hkv, rfl⟩ := hw.mem_leafPairs hc he
    exact ⟨hkeys kv hkv, by rw [hD, toNatBE_shiftRight_childDepth (hkeys kv hkv),
      hw.below c hc _ he], writeKeys_of_mem hnd hkv⟩
  have hnew : ∀ e ∈ c.2, stratum h treeID L' 0 (toNatBE e.1) = some e.2 := fun e he => by
    rw [stratum_zero]
    exact (hentry e he).2.2
  -- a key below the child's node that it holds no leaf at is not in the batch
  have hold : ∀ q, q >>> D = toNatBE c.1 → (∀ e ∈ c.2, toNatBE e.1 ≠ q) →
      stratum h treeID L' 0 q = stratum h treeID L 0 q := by
    intro q hq hno
    rw [stratum_zero, stratum_zero, hL']
    refine writeKeys_of_forall_ne fun kv hkv heq => ?_
    obtain ⟨c', hc', he', hshift⟩ := hw.exists_child hkeys hkv
    obtain rfl : c' = c := hw.eq_of_toNatBE_eq hc' hc (by rw [← hshift, heq, hq])
    exact hno _ he' heq
  have hserves : ∀ t q, t ≤ D → q >>> (D - t) = toNatBE c.1 →
      nodes (nodeIDAt h.bitLen (0 + t) q) = stratum h treeID L (0 + t) q := by
    intro t q ht hq
    rw [Nat.zero_add]
    exact hstored.other t q (by omega) (hrange t q ht hq) fun _ p hp heq => hdone p hp (by rw [← heq, hq])
  obtain ⟨nodes', hbuild, hstore, hframe⟩ := buildSubtree_spec hbits (by omega)
    (by rw [hlen1]; omega) (fun e he => by rw [(hentry e he).1]; omega)
    (hw.nodup_child hnd hc) (fun e he => (hentry e he).2.1) hnew hold hserves
  -- the child writes only below its node, not at it
  have hkeep : ∀ t q, t ≤ h.bitLen → q < 2 ^ (h.bitLen - t) →
      (t < D → q >>> (D - t) ≠ toNatBE c.1) → nodes' (nodeIDAt h.bitLen t q) = nodes (nodeIDAt h.bitLen t q) := by
    intro t q ht hq hnot
    refine hframe _ fun t' q' ht' hq' hr heq => ?_
    rw [Nat.zero_add] at heq
    obtain ⟨rfl, rfl⟩ := nodeIDAt_inj hbits ht (by omega) hq (hrange t' q' ht' hq') heq
    refine hnot (hr.resolve_right fun hnil => ?_) hq'
    rw [hnil] at hlen1
    cases hlen1
  refine ⟨nodes', by rw [Nat.zero_add] at hbuild; exact hbuild, ⟨?_, ?_⟩⟩
  · intro t q ht hq ⟨p, hp, hqp⟩
    rcases List.mem_append.mp hp with hp | hp
    · -- below a child done before: as it was
      rw [hkeep t q (by omega) hq fun _ heq => hdone p hp (by rw [← hqp, heq])]
      exact hstored.below t q ht hq ⟨p, hp, hqp⟩
    · rw [List.mem_singleton.mp hp] at hqp
      have hwritten := hstore t q ht.le hqp (.inl ht)
      rwa [Nat.zero_add] at hwritten
  · intro t q ht hq hnot
    rw [hkeep t q ht hq fun htD => hnot htD c.1 (List.mem_append_right _ (List.mem_singleton_self _))]
    exact hstored.other t q ht hq fun htD p hp => hnot htD p (List.mem_append_left _ hp)

/-- The children's transactions, in the order the children were created: each sends the root of
the batch's map at its node, and once they are over the batch's tree is stored below all of
them. -/
theorem buildChildren_spec (hw : Routed w kvs) :
    ∀ (cs₁ cs₂ : List (List UInt8 × List (List UInt8 × α))) (nodes : MapNodes α),
      w.children = cs₁ ++ cs₂ →
      ChildrenStored h treeID L (writeKeys L kvs) (size * 8 - topSubtreeSize) (cs₁.map Prod.fst) nodes →
      ∃ nodes', buildChildren h treeID size cs₂ nodes =
          some (cs₂.map (fun c => (c.1, .ok (smtNode h treeID (writeKeys L kvs)
            (size * 8 - topSubtreeSize) (toNatBE c.1)))), nodes') ∧
        ChildrenStored h treeID L (writeKeys L kvs) (size * 8 - topSubtreeSize)
          (w.children.map Prod.fst) nodes' := by
  intro cs₁ cs₂
  induction cs₂ generalizing cs₁ with
  | nil =>
    intro nodes hcs hstored
    rw [List.append_nil] at hcs
    exact ⟨nodes, rfl, hcs ▸ hstored⟩
  | cons c cs₂ ih =>
    intro nodes hcs hstored
    have hc : c ∈ w.children := by
      rw [hcs]
      exact List.mem_append_right _ List.mem_cons_self
    -- the children done have other prefixes
    have hdone : ∀ p ∈ cs₁.map Prod.fst, toNatBE p ≠ toNatBE c.1 := by
      intro p hp heq
      obtain ⟨c', hc', rfl⟩ := List.mem_map.mp hp
      have hc'w : c' ∈ w.children := by
        rw [hcs]
        exact List.mem_append_left _ hc'
      have hsame := hw.eq_of_toNatBE_eq hc'w hc heq
      have hnodup := hw.nodup
      rw [hcs, List.map_append, List.nodup_append] at hnodup
      exact hnodup.2.2 _ (List.mem_map_of_mem hc') _ (List.mem_map_of_mem List.mem_cons_self)
        (congrArg Prod.fst hsame)
    obtain ⟨nodes₁, hbuild, hstored₁⟩ :=
      buildSubtree_child hsize hdeep hkeys hnd hw hc hdone hstored
    rw [show cs₁.map Prod.fst ++ [c.1] = (cs₁ ++ [c]).map Prod.fst by simp] at hstored₁
    obtain ⟨nodes', hrest, hstored'⟩ := ih (cs₁ ++ [c]) nodes₁
      (by rw [hcs, List.append_assoc, List.singleton_append]) hstored₁
    refine ⟨nodes', ?_, hstored'⟩
    rw [buildChildren, hbuild]
    simp only [hrest, Option.map_some, List.map_cons]

/-- The top's transaction once every child has committed, over the children's roots: it sends
the root of the batch's map, and the store then serves that map. -/
theorem buildSubtree_top (hw : Routed w kvs) {nodes : MapNodes α}
    (hstored : ChildrenStored h treeID L (writeKeys L kvs) (size * 8 - topSubtreeSize)
      (w.children.map Prod.fst) nodes) :
    ∃ nodes', buildSubtree h treeID [] topSubtreeSize ((w.children.map fun c =>
        (c.1, smtNode h treeID (writeKeys L kvs) (size * 8 - topSubtreeSize) (toNatBE c.1))).map
          Except.ok) nodes = some (.ok (smtRoot h treeID (writeKeys L kvs)), nodes') ∧
      StoreServes h treeID (writeKeys L kvs) nodes' := by
  set D := size * 8 - topSubtreeSize with hD
  set L' := writeKeys L kvs with hL'
  set entries := w.children.map fun c => (c.1, smtNode h treeID L' D (toNatBE c.1)) with hentries
  have hbits : h.bitLen % 8 = 0 := by omega
  have hD8 : D + topSubtreeSize = h.bitLen := by rw [hD, topSubtreeSize] at *; omega
  have hnil : toNatBE ([] : List UInt8) = 0 := rfl
  -- the nodes at height `D` and up are nodes below the top's, none of the children's
  have hrange : ∀ t q, q >>> (topSubtreeSize - t) = toNatBE ([] : List UInt8) →
      q < 2 ^ (h.bitLen - (D + t)) := by
    intro t q hq
    have hlt := lt_two_pow_of_shiftRight_lt (show q >>> (topSubtreeSize - t) < 2 ^ 0 by simp [hq, hnil])
    rwa [show 0 + (topSubtreeSize - t) = h.bitLen - (D + t) by omega] at hlt
  have hchild : ∀ e ∈ entries, ∃ c ∈ w.children, e = (c.1, smtNode h treeID L' D (toNatBE c.1)) :=
    fun e he => by
      obtain ⟨c, hc, rfl⟩ := List.mem_map.mp he
      exact ⟨c, hc, rfl⟩
  -- a child's node is not empty: it was made for a leaf of the batch
  have hnew : ∀ e ∈ entries, stratum h treeID L' D (toNatBE e.1) = some e.2 := by
    intro e he
    obtain ⟨c, hc, rfl⟩ := hchild e he
    obtain ⟨kv, hkv, hcp⟩ := hw.created c hc
    refine stratum_of_not_subtreeEmpty (not_subtreeEmpty_of_shiftRight (writeKeys_of_mem hnd hkv) ?_)
    rw [hD, toNatBE_shiftRight_childDepth (hkeys kv hkv), hcp]
  -- a node at height `D` that is no child's has no leaf of the batch below it
  have hold : ∀ q, q >>> topSubtreeSize = toNatBE ([] : List UInt8) →
      (∀ e ∈ entries, toNatBE e.1 ≠ q) → stratum h treeID L' D q = stratum h treeID L D q := by
    intro q _ hno
    refine stratum_eq_of_agree fun k hk => hw.writeKeys_of_not_below hkeys fun c hc heq =>
      hno (c.1, smtNode h treeID L' D (toNatBE c.1)) (List.mem_map_of_mem hc) ?_
    rw [← heq, hk]
  have hndTop : (entries.map fun e => toNatBE e.1).Nodup := by
    rw [hentries, List.map_map]
    exact (List.Nodup.of_map Prod.fst hw.nodup).map_on fun c hc c' hc' heq =>
      hw.eq_of_toNatBE_eq hc hc' heq
  have hlenTop : ∀ e ∈ entries, e.1.length * 8 + D = h.bitLen := by
    intro e he
    obtain ⟨c, hc, rfl⟩ := hchild e he
    rw [hw.pfx_length c hc]
    rw [topSubtreeSize] at hD8
    omega
  have hbelowTop : ∀ e ∈ entries, toNatBE e.1 >>> topSubtreeSize = toNatBE ([] : List UInt8) := by
    intro e he
    obtain ⟨c, hc, rfl⟩ := hchild e he
    have hc8 : toNatBE c.1 < 2 ^ topSubtreeSize := by
      simpa [hw.pfx_length c hc, topSubtreeSize] using toNatBE_lt c.1
    rw [hnil, Nat.shiftRight_eq_div_pow, Nat.div_eq_of_lt hc8]
  have hservesTop : ∀ t q, t ≤ topSubtreeSize → q >>> (topSubtreeSize - t) = toNatBE ([] : List UInt8) →
      nodes (nodeIDAt h.bitLen (D + t) q) = stratum h treeID L (D + t) q :=
    fun t q ht hq => hstored.other (D + t) q (by omega) (hrange t q hq) fun hlt => absurd hlt (by omega)
  obtain ⟨nodes', hbuild, hstore, hframe⟩ := buildSubtree_spec hbits (by decide)
    (show ([] : List UInt8).length * 8 + topSubtreeSize + D = h.bitLen by
      rw [List.length_nil]; omega) hlenTop hndTop hbelowTop hnew hold hservesTop
  refine ⟨nodes', ?_, ?_⟩
  · rw [hbuild, show D + topSubtreeSize = h.bitLen from hD8, hnil]
    rfl
  · intro t q ht hq
    by_cases htD : D ≤ t
    · -- a node of the top, which it stores
      obtain ⟨s, rfl⟩ : ∃ s, t = D + s := ⟨t - D, by omega⟩
      have hq0 : q >>> (topSubtreeSize - s) = toNatBE ([] : List UInt8) := by
        rw [hnil, Nat.shiftRight_eq_div_pow, Nat.div_eq_of_lt]
        rwa [show h.bitLen - (D + s) = topSubtreeSize - s by omega] at hq
      exact hstore s q (by omega) hq0 (.inr rfl)
    · -- a node below the children's, left as they stored it
      rw [hframe _ fun s q' _ hq' _ heq => by
        have hsame := nodeIDAt_inj hbits ht (by omega) hq (hrange s q' hq') heq
        omega]
      by_cases hbelow : ∃ c ∈ w.children, q >>> (D - t) = toNatBE c.1
      · obtain ⟨c, hc, hqc⟩ := hbelow
        exact hstored.below t q (by omega) hq ⟨c.1, List.mem_map_of_mem hc, hqc⟩
      · -- no child below it had a leaf, so the batch leaves it as it was
        rw [hstored.other t q ht hq fun _ p hp heq => by
          obtain ⟨c, hc, rfl⟩ := List.mem_map.mp hp
          exact hbelow ⟨c, hc, heq⟩]
        refine (stratum_eq_of_agree fun k hk => hw.writeKeys_of_not_below hkeys fun c hc heq =>
          hbelow ⟨c, hc, ?_⟩).symm
        rw [← hk, shiftRight_shiftRight_of_le (by omega), heq]

end Workers

omit [DecidableEq α] in
theorem mapM_resolveEntry {f : List UInt8 → α} (cs' : List (List UInt8 × List (List UInt8 × α))) :
    ∀ {cs : List (List UInt8 × List (List UInt8 × α))}, (∀ c ∈ cs, c ∈ cs') →
      (cs.map fun c => QueueEntry.child c.1).mapM
          (resolveEntry (cs'.map fun c => (c.1, .ok (f c.1)))) =
        some ((cs.map fun c => (c.1, f c.1)).map Except.ok)
  | [], _ => rfl
  | c :: cs, hsub => by
    have hlookup : ∀ ds : List (List UInt8 × List (List UInt8 × α)), c ∈ ds →
        (ds.map fun c => (c.1, (.ok (f c.1) : Except String α))).lookup c.1 = some (.ok (f c.1)) := by
      intro ds hds
      induction ds with
      | nil => nomatch hds
      | cons d ds ih =>
        by_cases hd : c.1 = d.1
        · simp [hd]
        · simp only [List.map_cons, List.lookup, beq_false_of_ne hd]
          exact ih ((List.mem_cons.mp hds).resolve_left fun heq => hd (heq ▸ rfl))
    rw [List.map_cons, List.mapM_cons, resolveEntry, hlookup cs' (hsub c List.mem_cons_self),
      mapM_resolveEntry cs' fun c' hc' => hsub c' (List.mem_cons_of_mem c hc')]
    rfl

end Children

/-- `SetLeaves` of a batch of leaves at distinct keys of `size` bytes, then `CalculateRoot`, over a
store that serves the map `L`: the root of `L` with the batch written, and a store that serves
that map. -/
theorem writeLeaves_eq [DecidableEq α] {h : MapHasher α} {treeID : ℤ} {L : ℕ → Option α}
    {size : ℕ} (hsize : size * 8 = h.bitLen) (hdeep : topSubtreeSize < h.bitLen)
    {kvs : List (HashKeyValue α)} (hkeys : ∀ kv ∈ kvs, kv.hashedKey.length = size)
    (hnd : (kvs.map fun kv => kv.hashedKey).Nodup) {nodes : MapNodes α}
    (hserves : StoreServes h treeID L nodes) :
    ∃ nodes', writeLeaves h treeID size kvs nodes =
        some (.ok (smtRoot h treeID (writeKeys L kvs)), nodes') ∧
      StoreServes h treeID (writeKeys L kvs) nodes' := by
  have hndN := nodup_toNatBE_keys hkeys hnd
  -- every leaf is routed to the child of its first byte
  obtain ⟨w, hset, hw⟩ := setLeaves_routed (by rw [topSubtreeSize] at hdeep; omega) kvs
    routed_new hkeys
  rw [List.nil_append] at hw
  -- the children commit, then the top over their roots
  obtain ⟨nodes₁, hchildren, hstored⟩ := buildChildren_spec hsize hdeep hkeys hndN hw []
    w.children nodes rfl (childrenStored_init hserves)
  obtain ⟨nodes', htop, hserves'⟩ := buildSubtree_top hsize hdeep hkeys hndN hw hstored
  refine ⟨nodes', ?_, hserves'⟩
  have hqueue := mapM_resolveEntry
    (f := fun p => smtNode h treeID (writeKeys L kvs) (size * 8 - topSubtreeSize) (toNatBE p))
    w.children fun c hc => hc
  rw [← hw.queue] at hqueue
  rw [writeLeaves, hset]
  simp only [calculateRoot, hchildren, hqueue, htop]

theorem writeLeaves_eq_three_leaves :
    ∃ nodes', writeLeaves (symHasher 16) 0 2
        [⟨[1, 7], .leaf 0 [1, 7] [1]⟩, ⟨[1, 200], .leaf 0 [1, 200] [2]⟩, ⟨[3, 4], .leaf 0 [3, 4] [3]⟩]
        (fun _ => none) =
        some (.ok (smtRoot (symHasher 16) 0 (writeKeys (fun _ => none)
          [⟨[1, 7], .leaf 0 [1, 7] [1]⟩, ⟨[1, 200], .leaf 0 [1, 200] [2]⟩, ⟨[3, 4], .leaf 0 [3, 4] [3]⟩])),
          nodes') ∧
      StoreServes (symHasher 16) 0 (writeKeys (fun _ => none)
        [⟨[1, 7], .leaf 0 [1, 7] [1]⟩, ⟨[1, 200], .leaf 0 [1, 200] [2]⟩, ⟨[3, 4], .leaf 0 [3, 4] [3]⟩])
        nodes' :=
  writeLeaves_eq (by decide) (by decide) (by decide) (by decide) storeServes_empty

end Map

end Trillian
