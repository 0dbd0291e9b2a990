import Trillian.MapVerifier

/-! `HStar2Root` and `HStar2Nodes` of `merkle/hstar2.go`: the root of a sparse Merkle (sub)tree
from the hashes new at its bottom, split at the middle of each node's range with `sort.Search`.
Indices and depths are naturals. `layerNode` is the tree above given nodes at one height. -/

namespace Trillian

namespace Map

open Bytes Storage

variable {α : Type}

structure HStar2LeafHash (α : Type) where
  index : ℕ
  leafHash : α

/-- `SparseGetNodeFunc`: the hash the getter has for the node at a depth and index, `none` for
nil; the outer `none` is a panic. -/
abbrev SparseGetNodeFunc (α : Type) := ℕ → ℕ → Option (Except String (Option α))

/-- A call of the `SparseSetNodeFunc` for the node at `depth` and `index`. `hStar2b` drops what
the setter returns, so a setter is what it does with these calls, in their order. -/
structure SetNode (α : Type) where
  depth : ℕ
  index : ℕ
  hash : α

def errSubtreeOverrun : String := "subtree with prefix exceeds maximum tree size"

/-- `big.Int.Bytes()`: the big-endian bytes of the value, without leading zeros. -/
def intBytes (v : ℕ) : List UInt8 := bigEndian ((Nat.size v + 7) / 8) v

/-- `NewNodeIDFromBigInt`: the index in the low bytes of a path of `totalDepth / 8` bytes. A
`totalDepth` that is not a multiple of eight panics, and so does an index longer than the path,
whose slice `path[unusedHighBytes:]` starts before the path. -/
def newNodeIDFromBigInt (depth : ℤ) (index : ℕ) (totalDepth : ℤ) : Option Storage.NodeID :=
  if totalDepth.tmod 8 ≠ 0 ∨ totalDepth.tdiv 8 < 0 then none
  else
    let path := List.replicate (totalDepth.tdiv 8).toNat (0 : UInt8)
    let unusedHighBytes : ℤ := path.length - (intBytes index).length
    if unusedHighBytes < 0 then none
    else some ⟨copyAt path unusedHighBytes.toNat (intBytes index), depth⟩

/-- The ID of the node `q` at height `t` of a tree of `bitLen` levels, as `NewNodeIDFromBigInt`
makes it of the node's index and depth: the bytes of its leftmost key, and its depth. -/
def nodeIDAt (bitLen t q : ℕ) : Storage.NodeID :=
  ⟨bigEndian (bitLen / 8) (q * 2 ^ t), ((bitLen - t : ℕ) : ℤ)⟩

variable (h : MapHasher α) (treeID : ℤ)

/-- `HStar2.get`: the getter's hash where it has one, else the hash of the empty node at `index`
and `depth`. -/
def hStar2Get (get : Option (SparseGetNodeFunc α)) (index depth : ℕ) : Option (Except String α) :=
  match (get.map fun getter => getter depth index : Option (Option (Except String (Option α)))) with
  | some none => none
  | some (some (.error e)) => some (.error e)
  | some (some (.ok (some x))) => some (.ok x)
  | _ => do
    let height := h.bitLen - depth
    let nodeID ← newNodeIDFromBigInt (Nat.size index) index h.bitLen
    pure (.ok (h.hashEmpty treeID nodeID.path height))

/-- `hStar2b`, with `levels = maxDepth - depth` levels left to go down: the node's hash, and the
calls of the setter. `none` is a panic: `Lsh` by `uint(bitsLeft-1)` of a negative count. -/
def hStar2b (get : Option (SparseGetNodeFunc α)) :
    ℕ → ℕ → List (HStar2LeafHash α) → ℕ → Option (Except String (α × List (SetNode α)))
  | 0, depth, values, offset =>
    match values with
    | [] => (hStar2Get h treeID get offset depth).map fun r => r.map (·, [])
    | [v] => some (.ok (v.leafHash, []))
    | _ => some (.error s!"hStar2b base case: len(values): {values.length}, want 1")
  | levels + 1, depth, values, offset =>
    if values.length = 0 then (hStar2Get h treeID get offset depth).map fun r => r.map (·, [])
    else if h.bitLen ≤ depth then none
    else
      let bitsLeft := h.bitLen - depth
      let split := 2 ^ (bitsLeft - 1) + offset
      -- sort.Search: the first leaf at or past the middle of the range
      let i := values.findIdx fun v => split ≤ v.index
      match hStar2b get levels (depth + 1) (values.take i) offset with
      | some (.ok (lhs, lsets)) =>
        match hStar2b get levels (depth + 1) (values.drop i) split with
        | some (.ok (rhs, rsets)) =>
          let hash := h.hashChildren lhs rhs
          -- s.set(offset, depth, h, set), whose error is dropped
          some (.ok (hash, lsets ++ rsets ++ [⟨depth, offset, hash⟩]))
        | some (.error e) => some (.error e)
        | none => none
      | some (.error e) => some (.error e)
      | none => none

/-- `HStar2Root`: the leaves sorted by index, from the root at depth `0` and offset `0`, with no
getter and no setter. -/
def hStar2Root (depth : ℕ) (values : List (HStar2LeafHash α)) : Option (Except String α) :=
  (hStar2b h treeID none depth 0 (values.mergeSort fun a b => a.index ≤ b.index) 0).map
    fun r => r.map Prod.fst

/-- `HStar2Nodes`: the subtree of `subtreeDepth` levels below the prefix `pfx`, from the index of
the prefix's node. -/
def hStar2Nodes (pfx : List UInt8) (subtreeDepth : ℕ) (values : List (HStar2LeafHash α))
    (get : Option (SparseGetNodeFunc α)) : Option (Except String (α × List (SetNode α))) :=
  let depth := pfx.length * 8
  let totalDepth := depth + subtreeDepth
  if h.bitLen < totalDepth then some (.error errSubtreeOverrun)
  else
    let values := values.mergeSort fun a b => a.index ≤ b.index
    match newNodeIDFromPrefixSuffix pfx ⟨0, []⟩ h.bitLen with
    | none => none
    | some offset => hStar2b h treeID get subtreeDepth depth values (toNatBE offset.path)

section Layer

variable [DecidableEq α]

/-- The hash of the node `p` at height `H + t` of the sparse Merkle tree above the nodes `B` at
height `H`: `HashEmpty` where no node of `B` lies below, the hash of the children otherwise. -/
def layerNode (H : ℕ) (B : ℕ → Option α) : ℕ → ℕ → α
  | 0, q => (B q).getD (h.hashEmpty treeID (emptyIndex h.bitLen q H) H)
  | t + 1, p =>
    if SubtreeEmpty B (t + 1) p then
      h.hashEmpty treeID (emptyIndex h.bitLen p (H + (t + 1))) (H + (t + 1))
    else h.hashChildren (layerNode H B t (2 * p)) (layerNode H B t (2 * p + 1))

/-- The setter's call for the node `q` at height `H + t` of the tree above `B`. -/
def nodeSet (H : ℕ) (B : ℕ → Option α) (t q : ℕ) : SetNode α :=
  ⟨h.bitLen - (H + t), q * 2 ^ (H + t), layerNode h treeID H B t q⟩

/-- The getter serves the tree above `B₀` at height `H` below the node `p` at height `H + levels`:
for each node there, the node's hash, or nil for a node with nothing below it, and never an error
or a panic. No getter serves the empty tree. -/
def Serves (get : Option (SparseGetNodeFunc α)) (H : ℕ) (B₀ : ℕ → Option α) (levels p : ℕ) :
    Prop :=
  ∀ t q, t ≤ levels → q >>> (levels - t) = p →
    match (get.map fun getter => getter (h.bitLen - (H + t)) (q * 2 ^ (H + t)) :
        Option (Option (Except String (Option α)))) with
    | some (some (.ok (some x))) => x = layerNode h treeID H B₀ t q
    | some (some (.ok none)) | none => SubtreeEmpty B₀ t q
    | _ => False

/-- The nodes at height `H` once `values` are written over `B₀`: each new hash at the node its
index falls in. -/
def writeValues (H : ℕ) (values : List (HStar2LeafHash α)) (B₀ : ℕ → Option α) (q : ℕ) :
    Option α :=
  match values.find? fun v => v.index >>> H = q with
  | some v => some v.leafHash
  | none => B₀ q

/-- The calls of the setter over the `levels` levels above the new hashes `values`: one for each
node above a new hash, at each height from `1` to `levels`, and no node called twice. -/
structure SetsOf (H : ℕ) (B : ℕ → Option α) (values : List (HStar2LeafHash α)) (levels : ℕ)
    (sets : List (SetNode α)) : Prop where
  mem_iff : ∀ s, s ∈ sets ↔ ∃ t, 0 < t ∧ t ≤ levels ∧ ∃ v ∈ values,
    s = nodeSet h treeID H B t (v.index >>> (H + t))
  nodup : (sets.map fun s => (s.depth, s.index)).Nodup

end Layer

/-- Below the node `p` at height `H + levels`, the nodes `B` at height `H` hold the new hashes
`values` where their indices fall, and are those of `B₀` elsewhere. -/
def Placed (B₀ B : ℕ → Option α) (values : List (HStar2LeafHash α)) (H levels p : ℕ) : Prop :=
  ∀ j < 2 ^ levels,
    (∀ v ∈ values, v.index >>> H = p * 2 ^ levels + j → B (p * 2 ^ levels + j) = some v.leafHash) ∧
      ((∀ v ∈ values, v.index >>> H ≠ p * 2 ^ levels + j) →
        B (p * 2 ^ levels + j) = B₀ (p * 2 ^ levels + j))

section Refinement

/-- A list sorted by `key`, split at its first element at or past `s`: the part before is below
`s`, and the part from there on is not. -/
theorem take_drop_findIdx_of_sorted {β : Type} (key : β → ℕ) (s : ℕ) :
    ∀ {l : List β}, l.Pairwise (fun a b => key a < key b) →
      (∀ x ∈ l.take (l.findIdx fun v => s ≤ key v), key x < s) ∧
        ∀ x ∈ l.drop (l.findIdx fun v => s ≤ key v), s ≤ key x
  | [], _ => by simp
  | a :: l, hl => by
    rw [List.pairwise_cons] at hl
    rw [List.findIdx_cons]
    by_cases ha : s ≤ key a
    · -- the split is at the head, and the rest is above it
      simp only [ha, decide_true, cond_true, List.take_zero, List.drop_zero]
      refine ⟨by simp, fun x hx => ?_⟩
      rcases List.mem_cons.mp hx with rfl | hx
      · exact ha
      · exact ha.trans (hl.1 x hx).le
    · simp only [ha, decide_false, cond_false, List.take_succ_cons, List.drop_succ_cons]
      obtain ⟨htake, hdrop⟩ := take_drop_findIdx_of_sorted key s hl.2
      refine ⟨fun x hx => ?_, hdrop⟩
      rcases List.mem_cons.mp hx with rfl | hx
      · omega
      · exact htake x hx

theorem newNodeIDFromBigInt_eq {bitLen v : ℕ} (d : ℤ) (hbits : bitLen % 8 = 0)
    (hv : v < 2 ^ bitLen) : newNodeIDFromBigInt d v bitLen = some ⟨bigEndian (bitLen / 8) v, d⟩ := by
  have hsize : Nat.size v ≤ bitLen := Nat.size_le.mpr hv
  have hm : (Nat.size v + 7) / 8 ≤ bitLen / 8 := by omega
  have hfits : v < 2 ^ (8 * ((Nat.size v + 7) / 8)) :=
    lt_of_lt_of_le (Nat.lt_size_self v) (Nat.pow_le_pow_right two_pos (by omega))
  have hdiv : ((bitLen : ℤ).tdiv 8).toNat = bitLen / 8 := by
    rw [Int.tdiv_eq_ediv_of_nonneg (by omega)]
    omega
  have hcond : ¬((bitLen : ℤ).tmod 8 ≠ 0 ∨ (bitLen : ℤ).tdiv 8 < 0) := by
    rw [Int.tmod_eq_emod_of_nonneg (by omega), Int.tdiv_eq_ediv_of_nonneg (by omega)]
    omega
  unfold newNodeIDFromBigInt
  rw [if_neg hcond, hdiv]
  simp only [List.length_replicate, intBytes, length_bigEndian]
  rw [if_neg (by omega), show ((bitLen / 8 : ℕ) - ((Nat.size v + 7) / 8 : ℕ) : ℤ).toNat =
    bitLen / 8 - (Nat.size v + 7) / 8 by omega, copyAt_replicate_bigEndian hm hfits]


/-- The node of a prefix, as `HStar2Nodes` and `buildSubtree` make it: the prefix followed by zero
bytes, at the prefix's depth. -/
theorem newNodeIDFromPrefixSuffix_nodeIDAt {pfx : List UInt8} {bitLen : ℕ} (hbits : bitLen % 8 = 0)
    (hlen : pfx.length * 8 ≤ bitLen) :
    newNodeIDFromPrefixSuffix pfx ⟨0, []⟩ bitLen =
      some (nodeIDAt bitLen (bitLen - pfx.length * 8) (toNatBE pfx)) := by
  have hdiv : ((bitLen : ℤ).tdiv 8).toNat = bitLen / 8 := by
    rw [Int.tdiv_eq_ediv_of_nonneg (by omega)]
    omega
  have hpos : ¬(bitLen : ℤ).tdiv 8 < 0 := by
    rw [Int.tdiv_eq_ediv_of_nonneg (by omega)]
    omega
  obtain ⟨m, hm⟩ : ∃ m, bitLen / 8 = pfx.length + m := ⟨_, (Nat.add_sub_cancel' (by omega)).symm⟩
  -- the path is the prefix, then zero bytes: the bytes of the prefix's leftmost key
  have hpath : copy (List.replicate (bitLen / 8) (0 : UInt8)) pfx = pfx ++ List.replicate m 0 := by
    rw [copy_of_length_le (by simp; omega), List.drop_replicate, hm, Nat.add_sub_cancel_left]
  have hbytes : pfx ++ List.replicate m 0 = bigEndian (pfx.length + m) (toNatBE pfx * 2 ^ (8 * m)) := by
    rw [← Nat.add_zero (toNatBE pfx * 2 ^ (8 * m)), bigEndian_add _ _ _ _ (by positivity),
      bigEndian_toNatBE, bigEndian_of_zero]
  have hcopy : ∀ l : List UInt8, copyAt l pfx.length [] = l := fun l => by simp [copyAt, copy]
  simp only [newNodeIDFromPrefixSuffix, if_neg hpos, hdiv, length_copy, List.length_replicate]
  rw [if_neg (by omega), hcopy, hpath, hbytes, nodeIDAt, hm, show bitLen - pfx.length * 8 = 8 * m by omega]
  congr 2
  rw [UInt8.toNat_zero]
  omega

theorem toNatBE_nodeIDAt {bitLen t q : ℕ} (hbits : bitLen % 8 = 0) (ht : t ≤ bitLen)
    (hq : q < 2 ^ (bitLen - t)) : toNatBE (nodeIDAt bitLen t q).path = q * 2 ^ t := by
  apply toNatBE_bigEndian
  calc q * 2 ^ t < 2 ^ (bitLen - t) * 2 ^ t := Nat.mul_lt_mul_of_pos_right hq (Nat.two_pow_pos _)
    _ = 2 ^ (8 * (bitLen / 8)) := by rw [← pow_add, Nat.sub_add_cancel ht]; congr 1; omega

variable [DecidableEq α] {h : MapHasher α} {treeID : ℤ}

theorem layerNode_zero_eq_smtNode (L : ℕ → Option α) :
    ∀ t p, layerNode h treeID 0 L t p = smtNode h treeID L t p
  | 0, _ => rfl
  | t + 1, p => by
    rw [layerNode, smtNode, Nat.zero_add, layerNode_zero_eq_smtNode L t,
      layerNode_zero_eq_smtNode L t]

theorem layerNode_of_subtreeEmpty {H t p : ℕ} {B : ℕ → Option α} (he : SubtreeEmpty B t p) :
    layerNode h treeID H B t p = h.hashEmpty treeID (emptyIndex h.bitLen p (H + t)) (H + t) := by
  cases t with
  | zero => rw [layerNode, subtreeEmpty_zero.mp he, Option.getD_none, Nat.add_zero]
  | succ t => rw [layerNode, if_pos he]

theorem child_offset {n p b j : ℕ} (hb : b < 2) (hj : j < 2 ^ n) :
    (2 * p + b) * 2 ^ n + j = p * 2 ^ (n + 1) + (b * 2 ^ n + j) ∧ b * 2 ^ n + j < 2 ^ (n + 1) := by
  refine ⟨by ring, ?_⟩
  calc b * 2 ^ n + j < (b + 1) * 2 ^ n := by rw [Nat.add_mul, Nat.one_mul]; omega
    _ ≤ 2 * 2 ^ n := Nat.mul_le_mul_right _ hb
    _ = 2 ^ (n + 1) := (Nat.pow_succ' ..).symm

theorem layerNode_congr {H : ℕ} {B B' : ℕ → Option α} :
    ∀ t p, (∀ j < 2 ^ t, B (p * 2 ^ t + j) = B' (p * 2 ^ t + j)) →
      layerNode h treeID H B t p = layerNode h treeID H B' t p
  | 0, p, hB => by
    have hp := hB 0 (by simp)
    simp only [pow_zero, Nat.mul_one, Nat.add_zero] at hp
    rw [layerNode, layerNode, hp]
  | t + 1, p, hB => by
    -- each child sees the nodes of its half
    have hchild : ∀ b < 2, layerNode h treeID H B t (2 * p + b) = layerNode h treeID H B' t (2 * p + b) :=
      fun b hb => layerNode_congr t (2 * p + b) fun j hj => by
        obtain ⟨hkey, hlt⟩ := child_offset (p := p) hb hj
        rw [hkey]
        exact hB _ hlt
    have hleft : layerNode h treeID H B t (2 * p) = layerNode h treeID H B' t (2 * p) := by
      simpa using hchild 0 two_pos
    have hempty : SubtreeEmpty B (t + 1) p ↔ SubtreeEmpty B' (t + 1) p :=
      forall₂_congr fun j hj => by rw [hB j hj]
    rw [layerNode, layerNode]
    by_cases he : SubtreeEmpty B (t + 1) p
    · rw [if_pos he, if_pos (hempty.mp he)]
    · rw [if_neg he, if_neg (mt hempty.mpr he), hleft, hchild 1 one_lt_two]

theorem serves_none (H levels p : ℕ) : Serves h treeID none H (fun _ => none) levels p := by
  intro t q _ _ j _
  rfl

/-- A getter that serves a node's subtree serves each child's. -/
theorem Serves.child {get : Option (SparseGetNodeFunc α)} {H levels p b : ℕ} {B₀ : ℕ → Option α}
    (hget : Serves h treeID get H B₀ (levels + 1) p) (hb : b < 2) :
    Serves h treeID get H B₀ levels (2 * p + b) := by
  intro t q ht hq
  refine hget t q (by omega) ?_
  rw [show levels + 1 - t = levels - t + 1 by omega, Nat.shiftRight_succ, hq]
  omega

theorem eq_add_mod_of_shiftRight_eq {k n p : ℕ} (hk : k >>> n = p) : k = p * 2 ^ n + k % 2 ^ n := by
  rw [← hk, Nat.shiftRight_eq_div_pow, Nat.mul_comm]
  exact (Nat.div_add_mod k (2 ^ n)).symm

/-- A key below the node `p` at `height + 1` is below its left child exactly when it is before
the middle of the node's range. -/
theorem shiftRight_eq_of_lt_middle {k n p : ℕ} (hk : k >>> (n + 1) = p) :
    (k < (2 * p + 1) * 2 ^ n → k >>> n = 2 * p) ∧ ((2 * p + 1) * 2 ^ n ≤ k → k >>> n = 2 * p + 1) := by
  have hchild := shiftRight_eq_two_mul_add k n
  have hbit : k >>> n % 2 < 2 := Nat.mod_lt _ two_pos
  have hlt : k >>> n < 2 * p + 1 ↔ k < (2 * p + 1) * 2 ^ n := by
    rw [Nat.shiftRight_eq_div_pow, Nat.div_lt_iff_lt_mul (Nat.two_pow_pos n)]
  constructor
  · intro hk'
    have := hlt.mpr hk'
    omega
  · intro hk'
    have := mt hlt.mp (not_lt.mpr hk')
    omega

theorem shiftRight_shiftRight_of_le {x t D : ℕ} (ht : t ≤ D) : x >>> t >>> (D - t) = x >>> D := by
  rw [← Nat.shiftRight_add, Nat.add_sub_cancel' ht]

theorem shiftRight_lt_iff {k c H n : ℕ} : k >>> H < c * 2 ^ n ↔ k < c * 2 ^ (H + n) := by
  have hpow : c * 2 ^ (H + n) = c * 2 ^ n * 2 ^ H := by ring
  rw [hpow, Nat.shiftRight_eq_div_pow, Nat.div_lt_iff_lt_mul (Nat.two_pow_pos H)]

omit [DecidableEq α] in
/-- The new hashes of one child of a node are the node's on that side of the middle. -/
theorem Placed.child {B₀ B : ℕ → Option α} {values lower upper : List (HStar2LeafHash α)}
    {H levels p b : ℕ} (hplaced : Placed B₀ B values H (levels + 1) p) (hb : b < 2)
    (hsplit : values = lower ++ upper)
    (hlower : ∀ v ∈ lower, v.index < (2 * p + 1) * 2 ^ (H + levels))
    (hupper : ∀ v ∈ upper, (2 * p + 1) * 2 ^ (H + levels) ≤ v.index) :
    Placed B₀ B (if b = 0 then lower else upper) H levels (2 * p + b) := by
  intro j hj
  obtain ⟨hkey, hoff⟩ := child_offset (p := p) hb hj
  obtain ⟨hnew, hold⟩ := hplaced _ hoff
  rw [← hkey] at hnew hold
  have hmem : ∀ v ∈ (if b = 0 then lower else upper), v ∈ values := fun v hv => by
    rw [hsplit, List.mem_append]
    split_ifs at hv
    · exact .inl hv
    · exact .inr hv
  -- a new hash at one of the child's nodes is on the child's side of the middle
  have hside : ∀ v ∈ values, v.index >>> H = (2 * p + b) * 2 ^ levels + j →
      v ∈ (if b = 0 then lower else upper) := by
    intro v hv hvkey
    rw [hsplit, List.mem_append] at hv
    split_ifs with hb0
    · subst hb0
      simp only [Nat.add_zero] at hvkey
      refine hv.resolve_right fun hu => ?_
      have hleft : v.index >>> H < (2 * p + 1) * 2 ^ levels := by
        rw [hvkey, Nat.add_mul, Nat.one_mul]
        omega
      exact absurd (hupper v hu) (not_le.mpr (shiftRight_lt_iff.mp hleft))
    · have hb1 : b = 1 := by omega
      subst hb1
      refine hv.resolve_left fun hl => ?_
      have hright : ¬v.index >>> H < (2 * p + 1) * 2 ^ levels := by
        rw [hvkey]
        omega
      exact hright (shiftRight_lt_iff.mpr (hlower v hl))
  exact ⟨fun v hv hvkey => hnew v (hmem v hv) hvkey,
    fun hnone => hold fun v hv hvkey => hnone v (hside v hv hvkey) hvkey⟩

omit [DecidableEq α] in
/-- Written over `B₀`, new hashes at distinct nodes are where `Placed` wants them, below any
node. -/
theorem placed_writeValues {values vs : List (HStar2LeafHash α)} {B₀ : ℕ → Option α}
    {H levels p : ℕ} (hnd : (values.map fun v => v.index >>> H).Nodup)
    (hmem : ∀ v, v ∈ vs ↔ v ∈ values) :
    Placed B₀ (writeValues H values B₀) vs H levels p := by
  intro j _
  constructor
  · intro v hv hvkey
    have hv' := (hmem v).mp hv
    -- the first new hash at that node is `v`, as no two share a node
    obtain ⟨w, hw⟩ : ∃ w, values.find? (fun v => v.index >>> H = p * 2 ^ levels + j) = some w :=
      Option.isSome_iff_exists.mp (List.find?_isSome.mpr ⟨v, hv', by simpa using hvkey⟩)
    have hwv : w = v := List.inj_on_of_nodup_map hnd (List.mem_of_find?_eq_some hw) hv'
      (by simpa [hvkey] using List.find?_some hw)
    rw [writeValues, hw, hwv]
  · intro hnone
    have hfind : values.find? (fun v => v.index >>> H = p * 2 ^ levels + j) = none :=
      List.find?_eq_none.mpr fun v hv => by simpa using hnone v ((hmem v).mpr hv)
    rw [writeValues, hfind]

theorem setsOf_zero {H : ℕ} {B : ℕ → Option α} {values : List (HStar2LeafHash α)} :
    SetsOf h treeID H B values 0 [] where
  mem_iff s := by
    simp only [List.not_mem_nil, false_iff]
    rintro ⟨t, ht0, ht, -⟩
    omega
  nodup := List.nodup_nil

theorem setsOf_nil {H levels : ℕ} {B : ℕ → Option α} : SetsOf h treeID H B [] levels [] where
  mem_iff s := by simp
  nodup := List.nodup_nil

theorem nodeSet_pos_inj {H t t' q q' : ℕ} {B B' : ℕ → Option α} (ht : H + t ≤ h.bitLen)
    (ht' : H + t' ≤ h.bitLen)
    (heq : ((nodeSet h treeID H B t q).depth, (nodeSet h treeID H B t q).index) =
      ((nodeSet h treeID H B' t' q').depth, (nodeSet h treeID H B' t' q').index)) :
    t = t' ∧ q = q' := by
  simp only [nodeSet, Prod.mk.injEq] at heq
  obtain ⟨hdepth, hindex⟩ := heq
  have htt : t = t' := by omega
  subst htt
  exact ⟨rfl, Nat.eq_of_mul_eq_mul_right (Nat.two_pow_pos _) hindex⟩

/-- The calls of the setter at a node: those of its two halves, then its own. The halves' calls
are at nodes below different children, and the node's own call is above them all, so no node is
called twice. -/
theorem SetsOf.node {H levels p : ℕ} {B : ℕ → Option α}
    {values lower upper : List (HStar2LeafHash α)} {ls rs : List (SetNode α)}
    (hl : SetsOf h treeID H B lower levels ls) (hr : SetsOf h treeID H B upper levels rs)
    (hsplit : values = lower ++ upper) (hrange : ∀ v ∈ values, v.index >>> (H + (levels + 1)) = p)
    (hlower : ∀ v ∈ lower, v.index >>> (H + levels) = 2 * p)
    (hupper : ∀ v ∈ upper, v.index >>> (H + levels) = 2 * p + 1)
    (hbound : H + (levels + 1) ≤ h.bitLen)
    {v₀ : HStar2LeafHash α} (hv₀ : v₀ ∈ values) :
    SetsOf h treeID H B values (levels + 1) (ls ++ rs ++ [nodeSet h treeID H B (levels + 1) p]) where
  mem_iff s := by
    rw [List.mem_append, List.mem_append, List.mem_singleton, hl.mem_iff s, hr.mem_iff s]
    constructor
    · rintro ((⟨t, ht0, ht, v, hv, rfl⟩ | ⟨t, ht0, ht, v, hv, rfl⟩) | rfl)
      · exact ⟨t, ht0, by omega, v, by rw [hsplit]; exact List.mem_append_left _ hv, rfl⟩
      · exact ⟨t, ht0, by omega, v, by rw [hsplit]; exact List.mem_append_right _ hv, rfl⟩
      · exact ⟨levels + 1, by omega, le_rfl, v₀, hv₀, by rw [hrange v₀ hv₀]⟩
    · rintro ⟨t, ht0, ht, v, hv, rfl⟩
      by_cases htop : t = levels + 1
      · subst htop
        exact .inr (by rw [hrange v hv])
      · rw [hsplit, List.mem_append] at hv
        rcases hv with hv | hv
        · exact .inl (.inl ⟨t, ht0, by omega, v, hv, rfl⟩)
        · exact .inl (.inr ⟨t, ht0, by omega, v, hv, rfl⟩)
  nodup := by
    rw [List.map_append, List.map_append, List.nodup_append, List.nodup_append]
    refine ⟨⟨hl.nodup, hr.nodup, ?_⟩, List.nodup_singleton _, ?_⟩
    · -- a call below the left child and one below the right child are at different nodes
      intro a ha b hb heq
      obtain ⟨_, hs, rfl⟩ := List.mem_map.mp ha
      obtain ⟨_, hs', rfl⟩ := List.mem_map.mp hb
      obtain ⟨t, -, ht, v, hv, rfl⟩ := (hl.mem_iff _).mp hs
      obtain ⟨t', -, ht', w, hw, rfl⟩ := (hr.mem_iff _).mp hs'
      obtain ⟨rfl, hq⟩ := nodeSet_pos_inj (by omega) (by omega) heq
      have hshift : ∀ x, x >>> (H + t) >>> (H + levels - (H + t)) = x >>> (H + levels) :=
        fun x => shiftRight_shiftRight_of_le (by omega)
      have hv' := hlower v hv
      have hw' := hupper w hw
      rw [← hshift, hq, hshift] at hv'
      omega
    · -- the node's own call is above all the calls of its halves
      intro a ha b hb heq
      rw [← List.map_append] at ha
      obtain ⟨s, hs, rfl⟩ := List.mem_map.mp ha
      rw [List.map_singleton, List.mem_singleton] at hb
      subst hb
      have hbelow : ∃ t q, t ≤ levels ∧ s = nodeSet h treeID H B t q := by
        rcases List.mem_append.mp hs with hs | hs
        · obtain ⟨t, -, ht, v, -, rfl⟩ := (hl.mem_iff _).mp hs
          exact ⟨t, _, ht, rfl⟩
        · obtain ⟨t, -, ht, v, -, rfl⟩ := (hr.mem_iff _).mp hs
          exact ⟨t, _, ht, rfl⟩
      obtain ⟨t, q, ht, rfl⟩ := hbelow
      have := (nodeSet_pos_inj (by omega) hbound heq).1
      omega

omit [DecidableEq α] in
/-- Sorted by index, new hashes at distinct nodes of height `H` are in increasing order of their
nodes. -/
theorem pairwise_mergeSort_of_nodup {values : List (HStar2LeafHash α)} {H : ℕ}
    (hnd : (values.map fun v => v.index >>> H).Nodup) :
    (values.mergeSort fun a b => a.index ≤ b.index).Pairwise
      (fun a b => a.index >>> H < b.index >>> H) := by
  have hperm := List.mergeSort_perm values fun a b => a.index ≤ b.index
  have hle := @List.pairwise_mergeSort _ (fun a b : HStar2LeafHash α => decide (a.index ≤ b.index))
    (fun a b c hab hbc => by simp only [decide_eq_true_eq] at hab hbc ⊢; omega)
    (fun a b => by simp only [Bool.or_eq_true, decide_eq_true_eq]; omega) values
  have hne : (values.mergeSort fun a b => a.index ≤ b.index).Pairwise
      (fun a b => a.index >>> H ≠ b.index >>> H) :=
    List.pairwise_map.mp ((hperm.map fun v : HStar2LeafHash α => v.index >>> H).nodup_iff.mpr hnd)
  refine (hle.and hne).imp fun {a b} hab => lt_of_le_of_ne ?_ hab.2
  rw [Nat.shiftRight_eq_div_pow, Nat.shiftRight_eq_div_pow]
  exact Nat.div_le_div_right (by simpa using hab.1)

variable (hbits : h.bitLen % 8 = 0)
include hbits

omit [DecidableEq α] in
theorem hStar2Get_empty {get : Option (SparseGetNodeFunc α)} {v depth : ℕ} (hv : v < 2 ^ h.bitLen)
    (hnil : get.map (fun getter => getter depth v) = none ∨
      get.map (fun getter => getter depth v) = some (some (.ok none))) :
    hStar2Get h treeID get v depth =
      some (.ok (h.hashEmpty treeID (bigEndian (h.bitLen / 8) v) (h.bitLen - depth))) := by
  rcases hnil with hnil | hnil
  all_goals
    unfold hStar2Get
    rw [hnil, newNodeIDFromBigInt_eq _ hbits hv]
    rfl

theorem hStar2Get_of_serves {get : Option (SparseGetNodeFunc α)} {H t q : ℕ} {B₀ : ℕ → Option α}
    (hget : Serves h treeID get H B₀ t q) (ht : H + t ≤ h.bitLen)
    (hq : q < 2 ^ (h.bitLen - (H + t))) :
    hStar2Get h treeID get (q * 2 ^ (H + t)) (h.bitLen - (H + t)) =
      some (.ok (layerNode h treeID H B₀ t q)) := by
  have hv : q * 2 ^ (H + t) < 2 ^ h.bitLen := by
    calc q * 2 ^ (H + t) < 2 ^ (h.bitLen - (H + t)) * 2 ^ (H + t) :=
          Nat.mul_lt_mul_of_pos_right hq (Nat.two_pow_pos _)
      _ = 2 ^ h.bitLen := by rw [← pow_add, Nat.sub_add_cancel ht]
  have hanswer := hget t q le_rfl (by simp)
  have hheight : h.bitLen - (h.bitLen - (H + t)) = H + t := by omega
  -- the getter's answer decides the branch
  rcases hg : get.map (fun getter => getter (h.bitLen - (H + t)) (q * 2 ^ (H + t))) with
    _ | (_ | (e | (_ | x)))
  · rw [hg] at hanswer
    rw [hStar2Get_empty hbits hv (.inl hg), hheight, layerNode_of_subtreeEmpty hanswer]
    rfl
  · rw [hg] at hanswer
    exact hanswer.elim
  · rw [hg] at hanswer
    exact hanswer.elim
  · rw [hg] at hanswer
    rw [hStar2Get_empty hbits hv (.inr hg), hheight, layerNode_of_subtreeEmpty hanswer]
    rfl
  · rw [hg] at hanswer
    unfold hStar2Get
    rw [hg, hanswer]

/-- `hStar2b` at a node, over the new hashes below it sorted by node, with a getter that serves the
tree before them: the node's hash once they are written, and the setter called for each node above
a new hash. -/
theorem hStar2b_spec {get : Option (SparseGetNodeFunc α)} {H : ℕ} {B₀ B : ℕ → Option α} :
    ∀ (levels depth p : ℕ) (values : List (HStar2LeafHash α)), depth + (H + levels) = h.bitLen →
      p < 2 ^ depth → values.Pairwise (fun a b => a.index >>> H < b.index >>> H) →
      (∀ v ∈ values, v.index >>> (H + levels) = p) → Placed B₀ B values H levels p →
      Serves h treeID get H B₀ levels p →
      ∃ sets, hStar2b h treeID get levels depth values (p * 2 ^ (H + levels)) =
          some (.ok (layerNode h treeID H B levels p, sets)) ∧
        SetsOf h treeID H B values levels sets
  | 0, depth, p, values, hdepth, hp, hsorted, hrange, hplaced, hget => by
    have hat : ∀ v ∈ values, v.index >>> H = p := fun v hv => by simpa using hrange v hv
    rcases values with _ | ⟨v, _ | ⟨w, rest⟩⟩
    · -- nothing new: the getter's node, where `B` is `B₀`
      have hq : p < 2 ^ (h.bitLen - (H + 0)) := by rwa [show h.bitLen - (H + 0) = depth by omega]
      have hget' := hStar2Get_of_serves hbits hget (by omega) hq
      rw [show h.bitLen - (H + 0) = depth by omega] at hget'
      have hnode : layerNode h treeID H B₀ 0 p = layerNode h treeID H B 0 p :=
        layerNode_congr 0 p fun j hj => ((hplaced j hj).2 (by simp)).symm
      refine ⟨[], ?_, setsOf_zero⟩
      rw [hStar2b, hget', hnode]
      rfl
    · -- one new hash: the node is it
      have hv : B p = some v.leafHash := by
        simpa [hat v (by simp)] using (hplaced 0 (by simp)).1 v (by simp)
      refine ⟨[], ?_, setsOf_zero⟩
      rw [hStar2b, layerNode, hv, Option.getD_some]
    · -- two new hashes at one node: not sorted
      have hvw : v.index >>> H < w.index >>> H := List.rel_of_pairwise_cons hsorted (by simp)
      have := hat v (by simp)
      have := hat w (by simp)
      omega
  | levels + 1, depth, p, values, hdepth, hp, hsorted, hrange, hplaced, hget => by
    rw [hStar2b]
    by_cases hnil : values.length = 0
    · -- nothing new below the node: the getter's node, where `B` is `B₀`
      have hvalues := List.length_eq_zero_iff.mp hnil
      have hq : p < 2 ^ (h.bitLen - (H + (levels + 1))) := by
        rwa [show h.bitLen - (H + (levels + 1)) = depth by omega]
      have hget' := hStar2Get_of_serves hbits hget (by omega) hq
      rw [show h.bitLen - (H + (levels + 1)) = depth by omega] at hget'
      have hnode : layerNode h treeID H B₀ (levels + 1) p = layerNode h treeID H B (levels + 1) p :=
        layerNode_congr (levels + 1) p fun j hj => ((hplaced j hj).2 (by simp [hvalues])).symm
      refine ⟨[], ?_, by rw [hvalues]; exact setsOf_nil⟩
      rw [if_pos hnil, hget', hnode]
      rfl
    · rw [if_neg hnil, if_neg (by omega)]
      -- the middle of the node's range
      have hmiddle : 2 ^ (h.bitLen - depth - 1) + p * 2 ^ (H + (levels + 1)) =
          (2 * p + 1) * 2 ^ (H + levels) := by
        rw [show h.bitLen - depth - 1 = H + levels by omega]
        ring
      simp only [hmiddle]
      have hlt : values.Pairwise (fun a b => a.index < b.index) :=
        hsorted.imp fun hab => Nat.lt_of_div_lt_div (by simpa only [Nat.shiftRight_eq_div_pow] using hab)
      obtain ⟨htake, hdrop⟩ := take_drop_findIdx_of_sorted HStar2LeafHash.index
        ((2 * p + 1) * 2 ^ (H + levels)) hlt
      have hsplit := (List.take_append_drop
        (values.findIdx fun v => (2 * p + 1) * 2 ^ (H + levels) ≤ v.index) values).symm
      -- the new hashes below each child
      have hlower : ∀ v ∈ values.take (values.findIdx fun v => (2 * p + 1) * 2 ^ (H + levels) ≤ v.index),
          v.index >>> (H + levels) = 2 * p := fun v hv =>
        (shiftRight_eq_of_lt_middle (n := H + levels) (hrange v (List.mem_of_mem_take hv))).1
          (htake v hv)
      have hupper : ∀ v ∈ values.drop (values.findIdx fun v => (2 * p + 1) * 2 ^ (H + levels) ≤ v.index),
          v.index >>> (H + levels) = 2 * p + 1 := fun v hv =>
        (shiftRight_eq_of_lt_middle (n := H + levels) (hrange v (List.mem_of_mem_drop hv))).2
          (hdrop v hv)
      -- the two halves, by induction
      obtain ⟨ls, hleft, hls⟩ := hStar2b_spec levels (depth + 1) (2 * p) _ (by omega)
        (by rw [pow_succ]; omega) (hsorted.sublist (List.take_sublist _ _)) hlower
        (by simpa using hplaced.child (b := 0) two_pos hsplit htake hdrop)
        (by simpa using hget.child (b := 0) two_pos)
      obtain ⟨rs, hright, hrs⟩ := hStar2b_spec levels (depth + 1) (2 * p + 1) _ (by omega)
        (by rw [pow_succ]; omega) (hsorted.sublist (List.drop_sublist _ _)) hupper
        (by simpa using hplaced.child (b := 1) one_lt_two hsplit htake hdrop)
        (hget.child one_lt_two)
      have hleft' : hStar2b h treeID get levels (depth + 1)
          (values.take (values.findIdx fun v => (2 * p + 1) * 2 ^ (H + levels) ≤ v.index))
          (p * 2 ^ (H + (levels + 1))) = some (.ok (layerNode h treeID H B levels (2 * p), ls)) := by
        rw [show p * 2 ^ (H + (levels + 1)) = 2 * p * 2 ^ (H + levels) by ring]
        exact hleft
      -- a new hash lies below the node, so its hash is the hash of its children
      obtain ⟨v, hv⟩ := List.exists_mem_of_length_pos (Nat.pos_of_ne_zero hnil)
      have hnotempty : ¬SubtreeEmpty B (levels + 1) p := fun hempty => by
        have hq : v.index >>> H >>> (levels + 1) = p := by
          rw [← Nat.shiftRight_add]
          exact hrange v hv
        have hj := Nat.mod_lt (v.index >>> H) (Nat.two_pow_pos (levels + 1))
        have hB := (hplaced _ hj).1 v hv (eq_add_mod_of_shiftRight_eq hq)
        rw [hempty _ hj] at hB
        cases hB
      refine ⟨ls ++ rs ++ [nodeSet h treeID H B (levels + 1) p], ?_,
        hls.node hrs hsplit hrange hlower hupper (by omega) hv⟩
      rw [hleft', hright, nodeSet, layerNode, if_neg hnotempty,
        show h.bitLen - (H + (levels + 1)) = depth by omega]

/-- `HStar2Root` over the whole key space is the root of the sparse Merkle tree of its leaves:
for leaves at distinct indices below `2^BitLen`, and the map `L` that holds exactly them. -/
theorem hStar2Root_eq {values : List (HStar2LeafHash α)} {L : ℕ → Option α}
    (hnd : (values.map (·.index)).Nodup) (hlt : ∀ v ∈ values, v.index < 2 ^ h.bitLen)
    (hL : ∀ k x, L k = some x ↔ (⟨k, x⟩ : HStar2LeafHash α) ∈ values) :
    hStar2Root h treeID h.bitLen values = some (.ok (smtRoot h treeID L)) := by
  have hperm := List.mergeSort_perm values fun a b => a.index ≤ b.index
  have hsorted := pairwise_mergeSort_of_nodup (H := 0) (by simpa using hnd)
  -- the leaves are the nodes at height `0`, written over the empty tree
  have hplaced : Placed (fun _ => none) L (values.mergeSort fun a b => a.index ≤ b.index)
      0 h.bitLen 0 := by
    intro j _
    simp only [Nat.shiftRight_zero, Nat.zero_mul, Nat.zero_add]
    constructor
    · intro v hv hvj
      rw [hL, ← hvj]
      exact hperm.subset hv
    · intro hnone
      cases hLj : L j with
      | none => rfl
      | some x => exact absurd rfl (hnone ⟨j, x⟩ (hperm.mem_iff.mpr ((hL j x).mp hLj)))
  obtain ⟨sets, hroot, -⟩ := hStar2b_spec hbits h.bitLen 0 0 _ (by omega) (by simp) hsorted
    (fun v hv => by
      rw [Nat.zero_add, Nat.shiftRight_eq_div_pow, Nat.div_eq_zero_iff_lt (Nat.two_pow_pos _)]
      exact hlt v (hperm.subset hv))
    hplaced (serves_none 0 h.bitLen 0)
  rw [Nat.zero_mul] at hroot
  rw [hStar2Root, hroot, layerNode_zero_eq_smtNode]
  rfl

omit hbits in
theorem hStar2Root_eq_two_leaves :
    hStar2Root (symHasher 8) 0 8 [⟨200, .leaf 0 [200] [2]⟩, ⟨5, .leaf 0 [5] [1]⟩] =
      some (.ok (smtRoot (symHasher 8) 0 fun k =>
        if k = 5 then some (.leaf 0 [5] [1]) else if k = 200 then some (.leaf 0 [200] [2]) else none)) :=
  hStar2Root_eq (by decide) (by decide) (by decide) fun k x => by
    by_cases h5 : k = 5
    · subst h5
      simp [eq_comm]
    · by_cases h200 : k = 200
      · subst h200
        simp [eq_comm]
      · simp [h5, h200]

omit [DecidableEq α] in
theorem hStar2Nodes_eq_hStar2b {get : Option (SparseGetNodeFunc α)} {pfx : List UInt8}
    {subtreeDepth H : ℕ} {values : List (HStar2LeafHash α)}
    (hdepth : pfx.length * 8 + subtreeDepth + H = h.bitLen) :
    hStar2Nodes h treeID pfx subtreeDepth values get =
      hStar2b h treeID get subtreeDepth (pfx.length * 8)
        (values.mergeSort fun a b => a.index ≤ b.index) (toNatBE pfx * 2 ^ (H + subtreeDepth)) := by
  have hheight : h.bitLen - pfx.length * 8 = H + subtreeDepth := by omega
  have hn := newNodeIDFromPrefixSuffix_nodeIDAt hbits (show pfx.length * 8 ≤ h.bitLen by omega)
  rw [hheight] at hn
  have hpath := toNatBE_nodeIDAt hbits (show H + subtreeDepth ≤ h.bitLen by omega)
    (show toNatBE pfx < 2 ^ (h.bitLen - (H + subtreeDepth)) by
      rw [show h.bitLen - (H + subtreeDepth) = pfx.length * 8 by omega, Nat.mul_comm]
      exact toNatBE_lt pfx)
  simp only [hStar2Nodes, if_neg (show ¬h.bitLen < pfx.length * 8 + subtreeDepth by omega), hn,
    hpath]

/-- `HStar2Nodes` over a subtree, with a getter that serves the tree before the new hashes: the root
of the subtree once they are written, and the setter called exactly once for each node above a new
hash. -/
theorem hStar2Nodes_eq {get : Option (SparseGetNodeFunc α)} {B₀ : ℕ → Option α}
    {pfx : List UInt8} {subtreeDepth H : ℕ} {values : List (HStar2LeafHash α)}
    (hdepth : pfx.length * 8 + subtreeDepth + H = h.bitLen)
    (hget : Serves h treeID get H B₀ subtreeDepth (toNatBE pfx))
    (hnd : (values.map fun v => v.index >>> H).Nodup)
    (hrange : ∀ v ∈ values, v.index >>> (H + subtreeDepth) = toNatBE pfx) :
    ∃ sets, hStar2Nodes h treeID pfx subtreeDepth values get =
        some (.ok (layerNode h treeID H (writeValues H values B₀) subtreeDepth (toNatBE pfx), sets)) ∧
      SetsOf h treeID H (writeValues H values B₀) values subtreeDepth sets := by
  have hperm := List.mergeSort_perm values fun a b => a.index ≤ b.index
  have hp : toNatBE pfx < 2 ^ (pfx.length * 8) := by
    rw [Nat.mul_comm]
    exact toNatBE_lt pfx
  -- the sorted leaves, from the prefix's node
  obtain ⟨sets, hroot, hsets⟩ := hStar2b_spec hbits subtreeDepth (pfx.length * 8)
    (toNatBE pfx) _ (by omega) hp (pairwise_mergeSort_of_nodup hnd)
    (fun v hv => hrange v (hperm.subset hv)) (placed_writeValues hnd fun v => hperm.mem_iff) hget
  refine ⟨sets, ?_, ⟨fun s => (hsets.mem_iff s).trans (by simp only [hperm.mem_iff]), hsets.nodup⟩⟩
  rw [hStar2Nodes_eq_hStar2b hbits hdepth]
  exact hroot

omit hbits in
theorem hStar2Nodes_eq_one_byte_prefix :
    ∃ sets, hStar2Nodes (symHasher 16) 0 [1] 8
        [⟨263, .leaf 0 [1, 7] [1]⟩, ⟨456, .leaf 0 [1, 200] [2]⟩] none =
        some (.ok (layerNode (symHasher 16) 0 0
          (writeValues 0 [⟨263, .leaf 0 [1, 7] [1]⟩, ⟨456, .leaf 0 [1, 200] [2]⟩] fun _ => none)
          8 (toNatBE [1]), sets)) ∧
      SetsOf (symHasher 16) 0 0
        (writeValues 0 [⟨263, .leaf 0 [1, 7] [1]⟩, ⟨456, .leaf 0 [1, 200] [2]⟩] fun _ => none)
        [⟨263, .leaf 0 [1, 7] [1]⟩, ⟨456, .leaf 0 [1, 200] [2]⟩] 8 sets :=
  hStar2Nodes_eq (by decide) (by decide) (serves_none 0 8 1) (by decide) (by decide)

end Refinement

end Map

end Trillian
