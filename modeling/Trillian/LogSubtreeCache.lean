import Trillian.SubtreeCache
import Trillian.CompactMerkleTreeStorage

/-! The log's subtree functions of `storage/cache/log_subtree_cache.go`: a full subtree is
written without its internal nodes, which `populateLogSubtreeNodes` rebuilds with a fresh compact
tree. Both functions change the subtree in place and return it with their error. -/

namespace Trillian

open Storage Bytes Rfc6962

variable {α : Type*}

/-- `logStrataDepth` of `subtree_cache.go`. -/
def logStrataDepth : ℕ := 8

/-- `maxLogDepth` of `subtree_cache.go`. -/
def maxLogDepth : ℕ := 64

/-- `1 << uint(depth)` on a Go `int`, for a positive depth: the bits shifted past the sign bit
are lost. -/
def maxLeavesOf (depth : ℤ) : ℤ := Int.bmod (2 ^ depth.toNat) (2 ^ 64)

/-- The bytes of a base64 key as the text `%s` prints. -/
def asciiString (b : List UInt8) : String := String.ofList (b.map fun x => Char.ofNat x.toNat)

abbrev PrepareSubtreeWriteFunc (α : Type*) := SubtreeProto α → SubtreeProto α × Option String

section Populate

variable [Inhabited α] [DecidableEq α] [ToString α]

/-- The callback `populateLogSubtreeNodes` gives `AddLeafHash`, over the internal nodes being
rebuilt; `none` once a key computation has panicked. It keeps a node of height 1 and above under
its suffix key, and only when the subtree is full. -/
def storeInternalNode (st : SubtreeProto α) (maxLeaves : ℤ) :
    SetNodeFunc (Option (GoMap α)) α := fun height index h nodes =>
  -- no space for the root in the node cache
  if height = logStrataDepth ∧ index = 0 then .ok nodes
  else
    let subDepth := (logStrataDepth : ℤ) - height
    match nodes, (newNodeIDFromPrefix st.pfx subDepth index logStrataDepth maxLogDepth).bind
        fun nodeID => nodeID.split st.pfx.length st.depth with
    | none, _ => .ok none
    | some _, none => .ok none
    | some nodes, some (_, sfx) =>
      -- leaves stay out of the internal map, which is rebuilt only for a full subtree
      if 0 < height ∧ (st.leaves.entries.length : ℤ) = maxLeaves then
        .ok (some (nodes.insert sfx.string h))
      else .ok (some nodes)

/-- The loop of `populateLogSubtreeNodes` over the leaf indices: each leaf is read under its
suffix key and added to the compact tree. The result is the error, if any, with the compact
tree and the internal nodes as the loop leaves them. -/
def populateLeaves (st : SubtreeProto α) (maxLeaves : ℤ) :
    List ℕ → CompactMerkleTree α → GoMap α →
      Option (Option String × CompactMerkleTree α × GoMap α)
  | [], cmt, nodes => some (none, cmt, nodes)
  | leafIndex :: rest, cmt, nodes =>
    match (newNodeIDFromPrefix st.pfx logStrataDepth leafIndex logStrataDepth maxLogDepth).bind
        fun nodeID => nodeID.split st.pfx.length st.depth with
    | none => none
    | some (_, sfx) =>
      let sfxKey := sfx.string
      let h := (st.leaves.lookup sfxKey).getD default
      if h = default then
        some (some ("unexpectedly got nil for subtree leaf suffix " ++ asciiString sfxKey), cmt,
          nodes)
      else
        match cmt.addLeafHash h (storeInternalNode st maxLeaves) (some nodes) with
        | none => none
        | some (_, _, none) => none
        | some (.error err, cmt, some nodes) => some (some err.error, cmt, nodes)
        | some (.ok seq, cmt, some nodes) =>
          if seq ≠ leafIndex then
            some (some s!"got seq of {seq}, but expected {leafIndex}", cmt, nodes)
          else populateLeaves st maxLeaves rest cmt nodes

/-- The end of `populateLogSubtreeNodes` once its loop has run: the count of internal nodes must
be the one the subtree was written with. -/
def checkInternalNodeCount (st : SubtreeProto α) : SubtreeProto α × Option String :=
  let got := st.internalNodes.entries.length % 2 ^ 32
  let want := st.internalNodeCount
  if got ≠ want then (st, some s!"log repop got: {got} internal nodes, want: {want}")
  else (st, none)

/-- `populateLogSubtreeNodes`. A nil map is the empty one, so making the internal nodes anew
when there are none changes nothing. -/
def populateLogSubtreeNodes (hasher : LogHasher α) : PopulateSubtreeFunc α := fun st =>
  let cmt := CompactMerkleTree.newCompactMerkleTree hasher
  let depth := st.depth
  if depth < 1 then some (st, some s!"populate log subtree with invalid depth: {depth}")
  else
    let maxLeaves := maxLeavesOf st.depth
    let st := if (st.leaves.entries.length : ℤ) = maxLeaves then { st with internalNodes := ∅ }
      else st
    match populateLeaves st maxLeaves (List.range st.leaves.entries.length) cmt
        st.internalNodes with
    | none => none
    | some (some err, _, nodes) => some ({ st with internalNodes := nodes }, some err)
    | some (none, cmt, nodes) =>
      some (checkInternalNodeCount { st with internalNodes := nodes, rootHash := cmt.root })

/-- `NewLogSubtreeCache`. The prepare function goes to `Flush`, which the model leaves out. -/
def newLogSubtreeCache (logStrata : List ℤ) (hasher : LogHasher α) : Option (SubtreeCache α) :=
  newSubtreeCache logStrata (populateLogSubtreeNodes hasher)

end Populate

/-- `prepareLogSubtreeWrite`: the count of internal nodes is recorded, as a `uint32`, and a full
subtree is written without them. -/
def prepareLogSubtreeWrite : PrepareSubtreeWriteFunc α := fun st =>
  let st := { st with internalNodeCount := st.internalNodes.entries.length % 2 ^ 32 }
  let depth := st.depth
  if depth < 1 then (st, some s!"prepare subtree for log write invalid depth: {depth}")
  else
    let maxLeaves := maxLeavesOf st.depth
    if (st.leaves.entries.length : ℤ) = maxLeaves then ({ st with internalNodes := ∅ }, none)
    else (st, none)

/-- The suffix of the node of height `l` and index `j` of a log subtree: `8 - l` bits, the index
shifted to the top of its byte. -/
def subtreeSuffix (l j : ℕ) : Suffix := ⟨(8 - l : ℕ).toUInt8, [(j * 2 ^ l).toUInt8]⟩

/-- The mask `Split` puts on the last suffix byte keeps a node's byte, whose bits below its
height are clear. -/
theorem mask_subtreeByte : ∀ l : ℕ, l < 8 → ∀ j : ℕ, j < 2 ^ (8 - l) →
    let sfxBits : UInt8 := (((8 : ℤ) - l) % 256).toNat.toUInt8
    let maskLowBits := (sfxBits - 1) % 8 + 1
    (j * 2 ^ l).toUInt8 &&& shl (shl 0x01 maskLowBits - 1) (8 - maskLowBits) =
      (j * 2 ^ l).toUInt8 := by
  decide +kernel

/-- The ID `NewNodeIDFromPrefix` gives the node of height `l` and index `j` of the log subtree at
`P`: the prefix, the index shifted to the top of the next byte, and zeros. -/
theorem newNodeIDFromPrefix_subtree {P : List UInt8} (hP : P.length ≤ 7) {l j : ℕ} (hl : l < 8)
    (hj : j < 2 ^ (8 - l)) :
    newNodeIDFromPrefix P ((8 : ℤ) - l) j 8 64 =
      some ⟨P ++ (j * 2 ^ l).toUInt8 :: List.replicate (7 - P.length) 0,
        P.length * 8 + ((8 : ℤ) - l)⟩ := by
  have hjl : j * 2 ^ l < 256 := by
    calc j * 2 ^ l < 2 ^ (8 - l) * 2 ^ l := Nat.mul_lt_mul_of_pos_right hj (Nat.two_pow_pos l)
      _ = 256 := by rw [← pow_add, Nat.sub_add_cancel hl.le]; rfl
  generalize hx : (j * 2 ^ l).toUInt8 = x
  unfold newNodeIDFromPrefix
  rw [if_neg (by decide), if_neg (by decide), if_neg (by omega)]
  dsimp only
  rw [if_neg (by decide)]
  have hheight : (8 : ℤ) - (8 - l) = l := by ring
  have hjlZ : (j : ℤ) * 2 ^ l < 256 := by exact_mod_cast hjl
  have hidx : (if 0 ≤ (l : ℤ) ∧ (l : ℤ) < 64 then (j : ℤ) * 2 ^ (l : ℤ).toNat % 2 ^ 64
      else 0).toNat = j * 2 ^ l := by
    rw [if_pos (by omega), Int.toNat_natCast, Int.emod_eq_of_lt (by positivity) (by omega)]
    rfl
  have hpathLen : (Int.tdiv 64 8).toNat = 8 := by decide
  have hpath : copy (List.replicate 8 0) P = P ++ (0 : UInt8) :: List.replicate (7 - P.length) 0 := by
    rw [copy_of_length_le (by simp; omega), List.drop_replicate, ← List.replicate_succ]
    congr 2
    omega
  have hunused : (64 / 8 - Int.tdiv 8 8 : ℤ) = 7 := by decide
  have h7 : (7 : ℤ).toNat = 7 := rfl
  rw [hheight, hidx, hpathLen, hpath, hunused, if_neg (by simp), h7, drop_bigEndian 7, hx,
    copyAt_append, copy_of_length_le (by simp)]
  rfl

theorem split_subtreeNode {P : List UInt8} (hP : P.length ≤ 7) {l j : ℕ} (hl : l < 8)
    (hj : j < 2 ^ (8 - l)) :
    Storage.NodeID.split ⟨P ++ (j * 2 ^ l).toUInt8 :: List.replicate (7 - P.length) 0,
        P.length * 8 + ((8 : ℤ) - l)⟩ P.length 8 = some (P, subtreeSuffix l j) := by
  have hmask := mask_subtreeByte l hl j hj
  dsimp only at hmask
  unfold subtreeSuffix
  generalize (j * 2 ^ l).toUInt8 = x at hmask ⊢
  -- the suffix is the one byte after the prefix, of `8 - l` bits
  have hbits : (P.length : ℤ) * 8 + (8 - l) - P.length * 8 = 8 - l := by ring
  have hbytes : bytesForBits (8 - (l : ℤ)) = 1 := by
    interval_cases l <;> decide
  have hmaskIndex : ((8 - (l : ℤ) - 1).tdiv 8).toNat = 0 := by
    interval_cases l <;> decide
  have hsfxBits : ((8 - (l : ℤ)) % 256).toNat = 8 - l := by omega
  unfold Storage.NodeID.split
  dsimp only
  have h1 : (1 : ℤ).toNat = 1 := rfl
  rw [if_neg (by omega), hbits, if_neg (by omega), if_neg (by omega), hbytes, if_neg (by simp),
    Int.toNat_natCast, List.drop_left' rfl, hmaskIndex, h1, List.take_succ_cons, List.take_zero,
    List.getElem?_cons_zero]
  dsimp only
  rw [List.take_left' rfl, List.set_cons_zero, hmask, hsfxBits]

theorem bigEndian_subtreeNode {P : List UInt8} (hP : P.length ≤ 7) {l j : ℕ} (hl : l < 8)
    (hj : j < 2 ^ (8 - l)) :
    bigEndian 8 ((toNatBE P * 2 ^ (8 - l) + j) * 2 ^ (56 - 8 * P.length + l)) =
      P ++ (j * 2 ^ l).toUInt8 :: List.replicate (7 - P.length) 0 := by
  have hjl : j * 2 ^ l < 2 ^ (8 * 1) := by
    calc j * 2 ^ l < 2 ^ (8 - l) * 2 ^ l := Nat.mul_lt_mul_of_pos_right hj (Nat.two_pow_pos l)
      _ = 2 ^ (8 * 1) := by rw [← pow_add, Nat.sub_add_cancel hl.le]
  -- the index and the prefix fall on byte boundaries
  have hsplit : (toNatBE P * 2 ^ (8 - l) + j) * 2 ^ (56 - 8 * P.length + l) =
      toNatBE P * 2 ^ (8 * (1 + (7 - P.length))) + (j * 2 ^ l * 2 ^ (8 * (7 - P.length)) + 0) := by
    have h1 : 56 - 8 * P.length + l = 8 * (7 - P.length) + l := by omega
    have h2 : 8 - l + (8 * (7 - P.length) + l) = 8 * (1 + (7 - P.length)) := by omega
    rw [h1, add_mul, mul_assoc, ← pow_add, h2, pow_add]
    ring
  have hlen : P.length + (1 + (7 - P.length)) = 8 := by omega
  have hlow : j * 2 ^ l * 2 ^ (8 * (7 - P.length)) + 0 < 2 ^ (8 * (1 + (7 - P.length))) := by
    rw [Nat.add_zero, Nat.mul_add, pow_add]
    exact Nat.mul_lt_mul_of_pos_right hjl (Nat.two_pow_pos _)
  have hbytes := bigEndian_add P.length (toNatBE P) _ _ hlow
  rw [hlen] at hbytes
  rw [hsplit, hbytes, bigEndian_toNatBE, bigEndian_add _ _ _ _ (by simp), bigEndian_of_zero,
    bigEndian_one]
  rfl

theorem strataLoop_defaultLogStrata :
    strataLoop defaultLogStrata 0 [] = some ((List.range 32).map fun i => ⟨i, 8⟩, 256) := by
  decide

theorem stratumInfo_of_newLogSubtreeCache [Inhabited α] [DecidableEq α] [ToString α]
    {hasher : LogHasher α} {c : SubtreeCache α}
    (hc : newLogSubtreeCache defaultLogStrata hasher = some c) :
    c.stratumInfo = (List.range 32).map fun i => ⟨i, 8⟩ := by
  unfold newLogSubtreeCache newSubtreeCache at hc
  rw [strataLoop_defaultLogStrata] at hc
  simp only [maxSupportedTreeDepth, ne_eq, not_true_eq_false, if_false, Option.some.injEq] at hc
  rw [← hc]

theorem splitNodeID_subtreeNode {c : SubtreeCache α}
    (hc : c.stratumInfo = (List.range 32).map fun i => ⟨i, 8⟩) {P : List UInt8}
    (hP : P.length ≤ 7) {l j : ℕ} (hl : l < 8) (hj : j < 2 ^ (8 - l)) :
    c.splitNodeID ⟨P ++ (j * 2 ^ l).toUInt8 :: List.replicate (7 - P.length) 0,
        P.length * 8 + ((8 : ℤ) - l)⟩ = some (P, subtreeSuffix l j) := by
  -- the node's last bit falls in the stratum below the prefix
  have hstratum : ((P.length : ℤ) * 8 + (8 - l) - 1).tdiv (depthQuantum : ℤ) = P.length := by
    rw [Int.tdiv_eq_ediv_of_nonneg (by omega)]
    unfold depthQuantum
    omega
  unfold SubtreeCache.splitNodeID SubtreeCache.stratumInfoForPrefixLength
  have hinfo : ((List.range 32).map fun i => (⟨i, 8⟩ : StratumInfo))[P.length]? =
      some ⟨P.length, 8⟩ := by
    simp [List.getElem?_range (show P.length < 32 by omega)]
  simp only [hstratum, hc, Int.toNat_natCast, if_neg (show ¬((P.length : ℤ) < 0) by omega), hinfo,
    Option.bind_eq_bind, Option.bind_some]
  exact split_subtreeNode hP hl hj

/-- A node the compact tree of a log subtree's leaves can emit: one of the subtree, or its root. -/
def InSubtree (x : ℕ × ℕ × α) : Prop :=
  (x.1 < 8 ∧ x.2.1 < 2 ^ (8 - x.1)) ∨ (x.1 = 8 ∧ x.2.1 = 0)

theorem inSubtree_of_lt {l j : ℕ} (h : α) (hlt : j * 2 ^ l + 2 ^ l / 2 < 256) :
    InSubtree (l, j, h) := by
  unfold InSubtree
  dsimp only
  have hpos : 0 < 2 ^ l := Nat.two_pow_pos l
  rcases lt_trichotomy l 8 with hl | rfl | hl
  · left
    refine ⟨hl, ?_⟩
    have h256 : 2 ^ (8 - l) * 2 ^ l = 256 := by rw [← pow_add, Nat.sub_add_cancel hl.le]; rfl
    have : j * 2 ^ l < 2 ^ (8 - l) * 2 ^ l := by omega
    exact Nat.lt_of_mul_lt_mul_right this
  · right
    refine ⟨rfl, ?_⟩
    have : 2 ^ 8 / 2 = 128 := rfl
    omega
  · exfalso
    have h9 : 2 ^ 9 ≤ 2 ^ l := Nat.pow_le_pow_right two_pos hl
    have : 2 ^ 9 / 2 ≤ 2 ^ l / 2 := Nat.div_le_div_right h9
    have : 2 ^ 9 / 2 = 256 := rfl
    omega

theorem inSubtree_of_mem_appendEmissions (hc : α → α → α) (e : α) {D : List α} {d : α}
    (hD : D.length < 256) {x : ℕ × ℕ × α} (hx : x ∈ appendEmissions hc e D d) : InSubtree x := by
  obtain ⟨l, j, h⟩ := x
  obtain ⟨⟨hle, -⟩, -⟩ := (mem_appendEmissions hc e).mp hx
  exact inSubtree_of_lt h (by omega)

/-- Every node the compact tree emits over at most 256 leaves is in the subtree, or is its
root. -/
theorem inSubtree_of_mem_appendRunEmissions (hc : α → α → α) (e : α) :
    ∀ {ds D : List α}, (D ++ ds).length ≤ 256 → ∀ {x : ℕ × ℕ × α},
      x ∈ appendRunEmissions hc e D ds → InSubtree x
  | [], _, _, _, hx => by simp [appendRunEmissions] at hx
  | d :: ds, D, hlen, x, hx => by
    rw [appendRunEmissions, List.mem_append] at hx
    rcases hx with hx | hx
    · exact inSubtree_of_mem_appendEmissions hc e (by simp at hlen; omega) hx
    · exact inSubtree_of_mem_appendRunEmissions hc e (by simpa using hlen) hx

/-- The key the log cache `c` derives for the node of height `l` and index `j` of the subtree
at `P` from the node's coordinates in the log, whose subtrees under `P` have their bottom at
height `56 - 8 * |P|`: the suffix of `splitNodeID` of `NewNodeIDForTreeCoords`. -/
def treeCoordsKey (c : SubtreeCache α) (P : List UInt8) (l j : ℕ) : Option (List UInt8) :=
  match newNodeIDForTreeCoords ((56 - 8 * P.length + l : ℕ) : ℤ)
      ((toNatBE P * 2 ^ (8 - l) + j : ℕ) : ℤ) 64 with
  | .error _ => none
  | .ok id => (c.splitNodeID (id.toStorage 64)).map fun r => r.2.string

theorem treeCoordsKey_subtree {c : SubtreeCache α}
    (hc : c.stratumInfo = (List.range 32).map fun i => ⟨i, 8⟩) {P : List UInt8}
    (hP : P.length ≤ 7) {l j : ℕ} (hl : l < 8) (hj : j < 2 ^ (8 - l)) :
    treeCoordsKey c P l j = some (subtreeSuffix l j).string := by
  have hidx : toNatBE P * 2 ^ (8 - l) + j < 2 ^ (64 - (56 - 8 * P.length + l)) := by
    have hP' := toNatBE_lt P
    have hexp : 64 - (56 - 8 * P.length + l) = 8 * P.length + (8 - l) := by omega
    rw [hexp, pow_add]
    calc toNatBE P * 2 ^ (8 - l) + j < (toNatBE P + 1) * 2 ^ (8 - l) := by
          rw [Nat.add_mul, Nat.one_mul]
          omega
      _ ≤ 2 ^ (8 * P.length) * 2 ^ (8 - l) := Nat.mul_le_mul_right _ hP'
  unfold treeCoordsKey
  rw [newNodeIDForTreeCoords_eq (by omega) hidx]
  have hid : (nodeIDOf (56 - 8 * P.length + l) (toNatBE P * 2 ^ (8 - l) + j)).toStorage 64 =
      ⟨P ++ (j * 2 ^ l).toUInt8 :: List.replicate (7 - P.length) 0,
        P.length * 8 + ((8 : ℤ) - l)⟩ := by
    simp only [NodeID.toStorage, nodeIDOf, bigEndian_subtreeNode hP hl hj,
      Storage.NodeID.mk.injEq, true_and]
    omega
  dsimp only
  rw [hid, splitNodeID_subtreeNode hc hP hl hj]
  rfl

theorem splitNewNodeIDFromPrefix_subtree {P : List UInt8} (hP : P.length ≤ 7) {l j : ℕ}
    (hl : l < 8) (hj : j < 2 ^ (8 - l)) :
    (newNodeIDFromPrefix P ((8 : ℤ) - l) j 8 64).bind (fun id => id.split P.length 8) =
      some (P, subtreeSuffix l j) := by
  rw [newNodeIDFromPrefix_subtree hP hl hj, Option.bind_some]
  exact split_subtreeNode hP hl hj

/-- What the written subtree keeps of a node in its internal nodes: a node of height 1 to 7,
under its suffix key. -/
def internalNodeWrite (x : ℕ × ℕ × α) (nodes : GoMap α) : GoMap α :=
  if 0 < x.1 ∧ x.1 < logStrataDepth then nodes.insert (subtreeSuffix x.1 x.2.1).string x.2.2
  else nodes

/-- What the written subtree keeps of a node in its leaves: a leaf, under its suffix key. -/
def leafWrite (x : ℕ × ℕ × α) (leaves : GoMap α) : GoMap α :=
  if x.1 = 0 then leaves.insert (subtreeSuffix 0 x.2.1).string x.2.2 else leaves

/-- The log subtree at `P` as the cache writes the nodes a compact tree over its leaves emits:
a leaf into `Leaves` and a node of height 1 to 7 into `InternalNodes`, each under the key the
cache derives from its coordinates in the log. The subtree's root belongs to the stratum
above. -/
def writeSubtreeNode (c : SubtreeCache α) (P : List UInt8) : SetNodeFunc (GoMap α × GoMap α) α :=
  fun height index h s =>
    if height < logStrataDepth then
      match treeCoordsKey c P height index with
      | none => .error "node outside the subtree"
      | some key =>
        .ok (if height = 0 then (s.1.insert key h, s.2) else (s.1, s.2.insert key h))
    else .ok s

theorem writeSubtreeNode_of_inSubtree {c : SubtreeCache α}
    (hc : c.stratumInfo = (List.range 32).map fun i => ⟨i, 8⟩) {P : List UInt8}
    (hP : P.length ≤ 7) {x : ℕ × ℕ × α} (hx : InSubtree x) (s : GoMap α × GoMap α) :
    writeSubtreeNode c P x.1 x.2.1 x.2.2 s = .ok (leafWrite x s.1, internalNodeWrite x s.2) := by
  obtain ⟨l, j, h⟩ := x
  rcases hx with ⟨hl, hj⟩ | ⟨hl, hj⟩
  · dsimp only at hl hj
    unfold writeSubtreeNode
    dsimp only
    rw [if_pos (show l < logStrataDepth from hl), treeCoordsKey_subtree hc hP hl hj]
    by_cases hl0 : l = 0
    · subst hl0
      simp [leafWrite, internalNodeWrite]
    · simp [leafWrite, internalNodeWrite, hl0, Nat.pos_of_ne_zero hl0, logStrataDepth, hl]
  · -- the root of the subtree is left out
    dsimp only at hl hj
    subst hl hj
    simp [writeSubtreeNode, leafWrite, internalNodeWrite, logStrataDepth]

/-- `storeInternalNode` on a node of the subtree: in a full subtree it keeps the node as the
written subtree does, and otherwise it keeps nothing. -/
theorem storeInternalNode_of_inSubtree {st : SubtreeProto α} (hpfx : st.pfx.length ≤ 7)
    (hdepth : st.depth = logStrataDepth) (ml : ℤ) {x : ℕ × ℕ × α} (hx : InSubtree x)
    (s : Option (GoMap α)) :
    storeInternalNode st ml x.1 x.2.1 x.2.2 s =
      .ok (s.map fun m => if (st.leaves.entries.length : ℤ) = ml then internalNodeWrite x m else m) := by
  obtain ⟨l, j, h⟩ := x
  rcases hx with ⟨hl, hj⟩ | ⟨hl, hj⟩
  · dsimp only at hl hj
    have hkey := splitNewNodeIDFromPrefix_subtree hpfx hl hj
    unfold storeInternalNode
    rw [if_neg (by unfold logStrataDepth; omega)]
    simp only [logStrataDepth, maxLogDepth, hdepth, Nat.cast_ofNat, hkey]
    cases s with
    | none => rfl
    | some m =>
      by_cases hfull : (st.leaves.entries.length : ℤ) = ml
      · by_cases hl0 : l = 0
        · subst hl0
          simp [internalNodeWrite, hfull]
        · simp [internalNodeWrite, hfull, Nat.pos_of_ne_zero hl0, logStrataDepth, hl]
      · simp [hfull]
  · dsimp only at hl hj
    subst hl hj
    cases s <;> simp [storeInternalNode, internalNodeWrite, logStrataDepth]

theorem subtreeSuffix_zero_string_inj {t t' : ℕ} (ht : t < 256) (ht' : t' < 256)
    (h : (subtreeSuffix 0 t).string = (subtreeSuffix 0 t').string) : t = t' := by
  have hsfx := Suffix.string_injective h
  simp only [subtreeSuffix, Suffix.mk.injEq, List.cons.injEq, pow_zero, Nat.mul_one, and_true,
    true_and] at hsfx
  have := congrArg UInt8.toNat hsfx
  simp only [Nat.toUInt8_eq, UInt8.toNat_ofNat'] at this
  omega

/-- The leaves map of a subtree holding the leaves `hs`: the leaf `t` under its suffix key, and
nothing else. -/
structure LeavesOf (L : GoMap α) (hs : List α) : Prop where
  length : L.entries.length = hs.length
  lookup : ∀ t (ht : t < hs.length), L.lookup (subtreeSuffix 0 t).string = some hs[t]
  keys : ∀ k, (L.lookup k).isSome → ∃ t < hs.length, k = (subtreeSuffix 0 t).string

theorem leavesOf_nil : LeavesOf (∅ : GoMap α) [] :=
  ⟨rfl, fun _ ht => absurd ht (Nat.not_lt_zero _), fun _ hk => by simp at hk⟩

theorem LeavesOf.insert {L : GoMap α} {hs : List α} (hL : LeavesOf L hs) (d : α)
    (hlen : hs.length < 256) :
    LeavesOf (L.insert (subtreeSuffix 0 hs.length).string d) (hs ++ [d]) := by
  have hfresh : (subtreeSuffix 0 hs.length).string ∉ L := by
    intro hmem
    obtain ⟨t, ht, hkey⟩ := hL.keys _ (AList.lookup_isSome.mpr hmem)
    have := subtreeSuffix_zero_string_inj hlen (by omega) hkey
    omega
  constructor
  · rw [AList.entries_insert_of_notMem hfresh, List.length_cons, hL.length, List.length_append,
      List.length_singleton]
  · intro t ht
    rw [List.length_append, List.length_singleton] at ht
    rcases Nat.lt_succ_iff_lt_or_eq.mp ht with ht | rfl
    · have hne : (subtreeSuffix 0 t).string ≠ (subtreeSuffix 0 hs.length).string :=
        fun h => by have := subtreeSuffix_zero_string_inj (by omega) hlen h; omega
      rw [AList.lookup_insert_ne hne, hL.lookup t ht, List.getElem_append_left ht]
    · rw [AList.lookup_insert, List.getElem_append_right le_rfl]
      simp
  · intro k hk
    by_cases hkey : k = (subtreeSuffix 0 hs.length).string
    · exact ⟨hs.length, by simp, hkey⟩
    · rw [AList.lookup_insert_ne hkey] at hk
      obtain ⟨t, ht, rfl⟩ := hL.keys k hk
      exact ⟨t, by simp; omega, rfl⟩

section Leaves

variable (hc : α → α → α) (e : α)

theorem level_pos_of_mem_appendEmissions_tail {D : List α} {d : α} {x : ℕ × ℕ × α}
    (hx : x ∈ mergeEmissions hc e D d 0 ++ rootEmissions hc e (D ++ [d]) 0) : x.1 ≠ 0 := by
  obtain ⟨l, j, h⟩ := x
  rcases List.mem_append.mp hx with hx | hx
  · obtain ⟨b, -, rfl, -⟩ := (mem_mergeEmissions hc e).mp hx
    exact Nat.succ_ne_zero b
  · obtain ⟨b, -, -, rfl, -⟩ := (mem_rootEmissions hc e).mp hx
    exact Nat.succ_ne_zero b

theorem foldl_leafWrite_of_level_pos (L : GoMap α) :
    ∀ xs : List (ℕ × ℕ × α), (∀ x ∈ xs, x.1 ≠ 0) → xs.foldl (fun m x => leafWrite x m) L = L
  | [], _ => rfl
  | x :: xs, hxs => by
    rw [List.foldl_cons, leafWrite, if_neg (hxs x List.mem_cons_self)]
    exact foldl_leafWrite_of_level_pos L xs fun y hy => hxs y (List.mem_cons_of_mem x hy)

theorem foldl_leafWrite_appendEmissions (L : GoMap α) (D : List α) (d : α) :
    (appendEmissions hc e D d).foldl (fun m x => leafWrite x m) L =
      L.insert (subtreeSuffix 0 D.length).string d := by
  rw [appendEmissions, List.foldl_cons, foldl_leafWrite_of_level_pos]
  · rfl
  · exact fun x hx => level_pos_of_mem_appendEmissions_tail hc e hx

theorem leavesOf_appendRunEmissions (hs : List α) (hlen : hs.length ≤ 256) :
    LeavesOf ((appendRunEmissions hc e [] hs).foldl (fun m x => leafWrite x m) ∅) hs := by
  induction hs using List.reverseRecOn with
  | nil => exact leavesOf_nil
  | append_singleton hs d ih =>
    rw [List.length_append, List.length_singleton] at hlen
    rw [appendRunEmissions_append_singleton, List.foldl_append, List.nil_append,
      foldl_leafWrite_appendEmissions]
    exact (ih (by omega)).insert d (by omega)

end Leaves

theorem foldl_pair {β γ : Type*} (f : ℕ × ℕ × α → β → β) (g : ℕ × ℕ × α → γ → γ) :
    ∀ (xs : List (ℕ × ℕ × α)) (a : β) (b : γ),
      xs.foldl (fun s x => (f x s.1, g x s.2)) (a, b) =
        (xs.foldl (fun a x => f x a) a, xs.foldl (fun b x => g x b) b)
  | [], _, _ => rfl
  | x :: xs, a, b => foldl_pair f g xs (f x a) (g x b)

theorem foldl_map_some {β : Type*} (g : ℕ × ℕ × α → β → β) :
    ∀ (xs : List (ℕ × ℕ × α)) (b : β),
      xs.foldl (fun s x => s.map (g x)) (some b) = some (xs.foldl (fun b x => g x b) b)
  | [], _ => rfl
  | x :: xs, b => foldl_map_some g xs (g x b)

section Written

variable [Inhabited α]

/-- The log subtree at `P` the cache writes for the leaves `hs`, with the count of internal
nodes and the root hash it is given. -/
def writtenLogSubtree (hasher : LogHasher α) (c : SubtreeCache α) (P : List UInt8) (hs : List α)
    (count : ℕ) (root : α) : Option (SubtreeProto α) :=
  match (CompactMerkleTree.newCompactMerkleTree hasher).addLeafHashes (writeSubtreeNode c P) hs
      (∅, ∅) with
  | none => none
  | some (_, _, s) =>
    some ⟨P, logStrataDepth, s.1, s.2, count, root, false, SubtreeProto.prefixNil_empty_of_false P⟩

/-- The written subtree holds the leaves, and the nodes of heights 1 to 7 the compact tree over
them emits, the last one written under each key. -/
theorem writtenLogSubtree_eq (hasher : LogHasher α) {c : SubtreeCache α}
    (hc : c.stratumInfo = (List.range 32).map fun i => ⟨i, 8⟩) {P : List UInt8}
    (hP : P.length ≤ 7) {hs : List α} (hlen : hs.length ≤ 256) (count : ℕ) (root : α) :
    writtenLogSubtree hasher c P hs count root =
      some ⟨P, logStrataDepth,
        (appendRunEmissions hasher.hashChildren hasher.emptyRoot [] hs).foldl
          (fun m x => leafWrite x m) ∅,
        (appendRunEmissions hasher.hashChildren hasher.emptyRoot [] hs).foldl
          (fun m x => internalNodeWrite x m) ∅, count, root, false,
        SubtreeProto.prefixNil_empty_of_false P⟩ := by
  have hrun := runCallbacks_eq_foldl (s := ((∅ : GoMap α), (∅ : GoMap α))) fun x hx s =>
    writeSubtreeNode_of_inSubtree hc hP
      (inSubtree_of_mem_appendRunEmissions hasher.hashChildren hasher.emptyRoot
        (show ([] ++ hs).length ≤ 256 by simpa using hlen) hx) s
  unfold writtenLogSubtree
  rw [newCompactMerkleTree_eq, addLeafHashes_spec hasher _ hs [] hrun, foldl_pair]

end Written

section Rebuild

variable [Inhabited α] [DecidableEq α] [ToString α]

/-- The loop of `populateLogSubtreeNodes` over a subtree whose leaves after `D` are `ds`: it adds
them to the compact tree of `D` and keeps the nodes of heights 1 to 7 the compact tree emits when
the subtree is full. -/
theorem populateLeaves_spec (hasher : LogHasher α) (st : SubtreeProto α)
    (hpfx : st.pfx.length ≤ 7) (hdepth : st.depth = logStrataDepth) (ml : ℤ) :
    ∀ (ds D : List α) (m : GoMap α), (D ++ ds).length ≤ 256 → (∀ d ∈ ds, d ≠ default) →
      (∀ t (ht : t < ds.length),
        st.leaves.lookup (subtreeSuffix 0 (D.length + t)).string = some ds[t]) →
      populateLeaves st ml (List.range' D.length ds.length) (compactTreeOf hasher D) m =
        some (none, compactTreeOf hasher (D ++ ds),
          (appendRunEmissions hasher.hashChildren hasher.emptyRoot D ds).foldl
            (fun m x => if (st.leaves.entries.length : ℤ) = ml then internalNodeWrite x m else m)
            m)
  | [], D, m, _, _, _ => by simp [populateLeaves, appendRunEmissions]
  | d :: ds, D, m, hlen, hnil, hleaf => by
    have hD : D.length < 256 := by
      simp only [List.length_append, List.length_cons] at hlen
      omega
    -- the leaf is read under its key
    have hkey : (newNodeIDFromPrefix st.pfx (logStrataDepth : ℤ) (D.length : ℤ) logStrataDepth
        maxLogDepth).bind (fun id => id.split st.pfx.length st.depth) =
          some (st.pfx, subtreeSuffix 0 D.length) := by
      have := splitNewNodeIDFromPrefix_subtree hpfx (show 0 < 8 by decide)
        (show D.length < 2 ^ (8 - 0) by simpa using hD)
      simpa [logStrataDepth, maxLogDepth, hdepth] using this
    have hread : st.leaves.lookup (subtreeSuffix 0 D.length).string = some d := by
      have h0 := hleaf 0 (by simp)
      rwa [Nat.add_zero] at h0
    -- and added to the compact tree, whose callback keeps what the written subtree keeps
    have hcall := runCallbacks_eq_foldl (s := some m) fun x hx s =>
      storeInternalNode_of_inSubtree hpfx hdepth ml
        (inSubtree_of_mem_appendEmissions hasher.hashChildren hasher.emptyRoot (d := d) hD hx) s
    rw [foldl_map_some] at hcall
    have hadd := addLeafHash_spec hasher (storeInternalNode st ml) D d hcall
    have hrest := populateLeaves_spec hasher st hpfx hdepth ml ds (D ++ [d])
      ((appendEmissions hasher.hashChildren hasher.emptyRoot D d).foldl
        (fun b x => if (st.leaves.entries.length : ℤ) = ml then internalNodeWrite x b else b) m)
      (by simpa using hlen) (fun d' hd' => hnil d' (List.mem_cons_of_mem d hd'))
      (fun t ht => by
        have h := hleaf (t + 1) (by simp; omega)
        rw [List.length_append, List.length_singleton, Nat.add_assoc, Nat.add_comm 1 t]
        exact h)
    rw [List.length_cons, List.range'_succ, populateLeaves]
    simp only [hkey, hread, Option.getD_some, if_neg (hnil d List.mem_cons_self), hadd, ne_eq,
      not_true_eq_false, if_false]
    rw [List.length_append, List.length_singleton] at hrest
    rw [hrest, appendRunEmissions, List.foldl_append, List.append_assoc, List.singleton_append]

theorem maxLeavesOf_logStrataDepth : maxLeavesOf logStrataDepth = 256 := by
  decide

/-- What `populateLogSubtreeNodes` does to a log subtree of up to 256 leaves: the internal nodes
are those the compact tree over the leaves emits if the subtree is full and stay as they are
otherwise, the root hash is the leaves' tree hash, and the count of internal nodes is checked. -/
theorem populateLogSubtreeNodes_spec (hasher : LogHasher α) (st : SubtreeProto α)
    (hpfx : st.pfx.length ≤ 7) (hdepth : st.depth = logStrataDepth) {hs : List α}
    (hk : hs.length ≤ 256) (hnil : ∀ h ∈ hs, h ≠ default) (hL : LeavesOf st.leaves hs) :
    populateLogSubtreeNodes hasher st =
      some (checkInternalNodeCount { st with
        internalNodes := if hs.length = 256 then
            (appendRunEmissions hasher.hashChildren hasher.emptyRoot [] hs).foldl
              (fun m x => internalNodeWrite x m) ∅
          else st.internalNodes
        rootHash := mth hasher.hashChildren hasher.emptyRoot hs }) := by
  have hfull : ((st.leaves.entries.length : ℤ) = maxLeavesOf st.depth) ↔ hs.length = 256 := by
    rw [hL.length, hdepth, maxLeavesOf_logStrataDepth]
    omega
  have hleaf : ∀ t (ht : t < hs.length),
      st.leaves.lookup (subtreeSuffix 0 (([] : List α).length + t)).string = some hs[t] := by
    intro t ht
    rw [List.length_nil, Nat.zero_add]
    exact hL.lookup t ht
  have hdepth1 : ¬st.depth < 1 := by
    rw [hdepth, logStrataDepth]
    omega
  unfold populateLogSubtreeNodes
  simp only [if_neg hdepth1]
  by_cases h : (st.leaves.entries.length : ℤ) = maxLeavesOf st.depth
  · -- a full subtree has its internal nodes rebuilt from nothing
    simp only [if_pos h]
    have hloop := populateLeaves_spec hasher { st with internalNodes := ∅ } hpfx hdepth
      (maxLeavesOf st.depth) hs [] ∅ (by simpa using hk) hnil hleaf
    simp only [List.length_nil, List.nil_append, h, if_true] at hloop
    simp only [List.range_eq_range', hL.length, newCompactMerkleTree_eq, hloop, compactTreeOf_root,
      if_pos (hfull.mp h)]
  · -- a subtree that is not full keeps its internal nodes
    simp only [if_neg h]
    have hloop := populateLeaves_spec hasher st hpfx hdepth (maxLeavesOf st.depth) hs []
      st.internalNodes (by simpa using hk) hnil hleaf
    simp only [List.length_nil, List.nil_append, h, if_false] at hloop
    simp only [List.range_eq_range', hL.length, newCompactMerkleTree_eq, hloop]
    rw [List.foldl_fixed' (fun _ => rfl)]
    simp only [compactTreeOf_root, if_neg (mt hfull.mpr h)]

end Rebuild

theorem checkInternalNodeCount_of_eq {st : SubtreeProto α}
    (h : st.internalNodes.entries.length % 2 ^ 32 = st.internalNodeCount) :
    checkInternalNodeCount st = (st, none) := by
  unfold checkInternalNodeCount
  simp only [h, ne_eq, not_true_eq_false, if_false]

/-- What `prepareLogSubtreeWrite` does to a log subtree: it records the count of internal nodes,
and drops them if the subtree is full. -/
theorem prepareLogSubtreeWrite_of_depth (st : SubtreeProto α) (hdepth : st.depth = logStrataDepth) :
    prepareLogSubtreeWrite st =
      ({ st with
          internalNodeCount := st.internalNodes.entries.length % 2 ^ 32
          internalNodes := if (st.leaves.entries.length : ℤ) = 256 then ∅ else st.internalNodes },
        none) := by
  have hdepth1 : ¬(logStrataDepth : ℤ) < 1 := by
    rw [logStrataDepth]
    omega
  unfold prepareLogSubtreeWrite
  simp only [hdepth, if_neg hdepth1, maxLeavesOf_logStrataDepth]
  split_ifs <;> rfl

section RoundTrip

variable [Inhabited α] [DecidableEq α] [ToString α]

/-- A log subtree survives the write and read round trip. The subtree at a prefix of at most 7
bytes, written with up to 256 leaves and the nodes of heights 1 to 7 the compact tree over them
emits, each keyed as the log cache splits its ID in the log, is prepared for the write and then
populated on the read without an error; its internal nodes are the ones it was written with and
its root hash is the tree hash of its leaves. The key `populateLogSubtreeNodes` derives for a node
from the subtree's prefix is the one the cache derives from the node's coordinates in the log. -/
theorem populateLogSubtreeNodes_prepareLogSubtreeWrite (hasher : LogHasher α)
    {c : SubtreeCache α} (hc : newLogSubtreeCache defaultLogStrata hasher = some c)
    {P : List UInt8} (hP : P.length ≤ 7) {hs : List α} (hk : hs.length ≤ 256)
    (hnil : ∀ h ∈ hs, h ≠ default) (count : ℕ) (root : α) :
    ∃ st st', writtenLogSubtree hasher c P hs count root = some st ∧
      (prepareLogSubtreeWrite st).2 = none ∧
      populateLogSubtreeNodes hasher (prepareLogSubtreeWrite st).1 = some (st', none) ∧
      st'.internalNodes = st.internalNodes ∧
      st'.rootHash = mth hasher.hashChildren hasher.emptyRoot hs ∧
      ∀ l : ℕ, l < 8 → ∀ j : ℕ, j < 2 ^ (8 - l) →
        ((newNodeIDFromPrefix P ((8 : ℤ) - l) j 8 64).bind fun id => id.split P.length 8).map
          (fun r => r.2.string) = treeCoordsKey c P l j := by
  have hinfo := stratumInfo_of_newLogSubtreeCache hc
  have hst := writtenLogSubtree_eq hasher hinfo hP hk count root
  have hL := leavesOf_appendRunEmissions hasher.hashChildren hasher.emptyRoot hs hk
  set leaves := (appendRunEmissions hasher.hashChildren hasher.emptyRoot [] hs).foldl
    (fun m x => leafWrite x m) ∅
  set nodes := (appendRunEmissions hasher.hashChildren hasher.emptyRoot [] hs).foldl
    (fun m x => internalNodeWrite x m) ∅
  -- the write records the count, and drops the internal nodes of a full subtree
  have hprep := prepareLogSubtreeWrite_of_depth
    ⟨P, logStrataDepth, leaves, nodes, count, root, false, SubtreeProto.prefixNil_empty_of_false P⟩ rfl
  -- the read rebuilds exactly those of a full subtree, and keeps those of any other
  have hpop := populateLogSubtreeNodes_spec hasher
    (prepareLogSubtreeWrite
      ⟨P, logStrataDepth, leaves, nodes, count, root, false, SubtreeProto.prefixNil_empty_of_false P⟩).1
    (by rw [hprep]; exact hP) (by rw [hprep]) hk hnil (by rw [hprep]; exact hL)
  have hkeep : (if hs.length = 256 then nodes
      else if (leaves.entries.length : ℤ) = 256 then ∅ else nodes) = nodes := by
    rw [hL.length]
    by_cases hfull : hs.length = 256
    · rw [if_pos hfull]
    · rw [if_neg hfull, if_neg (by omega)]
  rw [hprep] at hpop
  simp only at hpop
  rw [hkeep, checkInternalNodeCount_of_eq rfl] at hpop
  refine ⟨_, ⟨P, logStrataDepth, leaves, nodes, nodes.entries.length % 2 ^ 32,
    mth hasher.hashChildren hasher.emptyRoot hs, false, SubtreeProto.prefixNil_empty_of_false P⟩, hst,
    by rw [hprep], by rw [hprep]; exact hpop, rfl, rfl, ?_⟩
  intro l hl j hj
  rw [splitNewNodeIDFromPrefix_subtree hP hl hj, treeCoordsKey_subtree hinfo hP hl hj]
  rfl

end RoundTrip

theorem populateLogSubtreeNodes_prepareLogSubtreeWrite_three :
    ∃ c, newLogSubtreeCache defaultLogStrata succPairHasher = some c ∧
      ([0, 5] : List UInt8).length ≤ 7 ∧ [1, 2, 3].length ≤ 256 ∧
      (∀ h ∈ [1, 2, 3], h ≠ default) ∧
      ∃ st st', writtenLogSubtree succPairHasher c [0, 5] [1, 2, 3] 0 0 = some st ∧
        (prepareLogSubtreeWrite st).2 = none ∧
        populateLogSubtreeNodes succPairHasher (prepareLogSubtreeWrite st).1 = some (st', none) ∧
        st'.internalNodes = st.internalNodes ∧
        st'.rootHash = mth succPairHasher.hashChildren succPairHasher.emptyRoot [1, 2, 3] ∧
        ∀ l : ℕ, l < 8 → ∀ j : ℕ, j < 2 ^ (8 - l) →
          ((newNodeIDFromPrefix [0, 5] ((8 : ℤ) - l) j 8 64).bind
            fun id => id.split ([0, 5] : List UInt8).length 8).map
            (fun r => r.2.string) = treeCoordsKey c [0, 5] l j := by
  have hc : newLogSubtreeCache defaultLogStrata succPairHasher =
      some ⟨(List.range 32).map fun i => ⟨i, 8⟩, ∅, populateLogSubtreeNodes succPairHasher⟩ := by
    simp only [newLogSubtreeCache, newSubtreeCache, strataLoop_defaultLogStrata]
    rfl
  exact ⟨_, hc, by decide, by decide, by decide,
    populateLogSubtreeNodes_prepareLogSubtreeWrite succPairHasher hc (by decide) (by decide)
      (by decide) 0 0⟩


end Trillian
