import Trillian.NodeID

/-! The proof address calculation of `merkle/merkle_path.go`: the IDs of the stored nodes a proof
is built from, with the chains to rehash for an older tree size. Storage keeps a node only once
its right half has begun. -/

namespace Trillian

/-- `NodeFetch`: the ID of a node to fetch, and whether it takes part in a rehash. -/
structure NodeFetch where
  nodeID : NodeID
  rehash : Bool
deriving DecidableEq, Repr

/-- The errors of the address calculation: the `InvalidArgument` status of a bad request, and the
plain errors passed on from the helpers. -/
inductive PathError where
  | invalidArgument (msg : String)
  | failed (msg : String)
deriving DecidableEq, Repr

def checkSnapshot (ssDesc : String) (ss treeSize : ℤ) : Except String Unit :=
  if ss < 1 then .error s!"{ssDesc} {ss} < 1"
  else if ss > treeSize then .error s!"{ssDesc} {ss} > treeSize {treeSize}"
  else .ok ()

/-- `lastNodePresent`: whether storage holds the last node of `level` at tree size `ts`, read
off bit `level - 1` of the last leaf index. -/
def lastNodePresent (level ts : ℕ) : Bool :=
  if level = 0 then true
  else (ts - 1) &&& 1 <<< (level - 1) != 0

/-- The loop of `skipMissingLevels`: down one level while the sibling is the last node and
storage does not hold it. -/
def skipMissingLevelsLoop (snapshot lastNode level sibling : ℕ) : ℕ × ℕ :=
  if 0 < level ∧ sibling = lastNode ∧ lastNodePresent level snapshot = false then
    skipMissingLevelsLoop snapshot ((snapshot - 1) >>> (level - 1)) (level - 1) (sibling * 2)
  else (level, sibling)
termination_by level

/-- `skipMissingLevels`: the level and index of the stored node that holds the hash of the
sibling of `node`. -/
def skipMissingLevels (snapshot lastNode level node : ℕ) : ℕ × ℕ :=
  skipMissingLevelsLoop snapshot lastNode level (node ^^^ 1)

def siblingIDSkipLevels (snapshot lastNode level node : ℕ) (maxBitLen : ℤ) :
    Except String NodeID :=
  let (l, sibling) := skipMissingLevels snapshot lastNode level node
  newNodeIDForTreeCoords l sibling maxBitLen

/-- `checkRecomputation`: a recomputation is one node to copy, or a chain of at least two nodes
to rehash. The messages leave out the `%v` rendering of the fetches. -/
def checkRecomputation (fetches : List NodeFetch) : Except String Unit :=
  match fetches with
  | [] => .error "recomputePastSnapshot returned nothing"
  | [f] => if f.rehash then .error "recomputePastSnapshot returned invalid rehash" else .ok ()
  | f :: rest =>
    if rest.any (fun g => g.rehash != f.rehash) then
      .error "recomputePastSnapshot returned mismatched rehash nodes"
    else .ok ()

/-- The second loop of `recomputePastSnapshot`: up from the last complete node of the snapshot,
rehashing it with the left sibling at each level where the snapshot's last node is a right
child, until `nodeLevel`. The subtree root is emitted before the first sibling, or alone as a
copy when no sibling came. -/
def recomputeRehashLoop (snapshot nodeLevel : ℕ) (maxBitlen : ℤ) (savedNodeID : NodeID)
    (level lastNode lastNodeAtLevel : ℕ) (rehash subRootEmitted : Bool)
    (fetches : List NodeFetch) : Except String (List NodeFetch) :=
  if lastNode ≠ 0 then
    let step : Except String (List NodeFetch × Bool × Bool) :=
      if lastNode &&& 1 ≠ 0 then
        match siblingIDSkipLevels snapshot lastNodeAtLevel level ((lastNode - 1) ^^^ 1)
            maxBitlen with
        | .error err => .error err
        | .ok nodeID =>
          let (fetches, subRootEmitted) :=
            if !rehash && !subRootEmitted then (fetches ++ [⟨savedNodeID, true⟩], true)
            else (fetches, subRootEmitted)
          .ok (fetches ++ [⟨nodeID, true⟩], true, subRootEmitted)
      else .ok (fetches, rehash, subRootEmitted)
    match step with
    | .error err => .error err
    | .ok (fetches, rehash, subRootEmitted) =>
      if nodeLevel = level + 1 ∧ !subRootEmitted then .ok (fetches ++ [⟨savedNodeID, rehash⟩])
      -- exit early once the level being recomputed is reached
      else if level + 1 = nodeLevel then .ok fetches
      else
        recomputeRehashLoop snapshot nodeLevel maxBitlen savedNodeID (level + 1) (lastNode >>> 1)
          (lastNodeAtLevel >>> 1) rehash subRootEmitted fetches
  else .ok fetches
termination_by lastNode
decreasing_by rw [Nat.shiftRight_eq_div_pow]; omega

/-- The first loop of `recomputePastSnapshot`: up while the snapshot's last node is a right
child, whose left sibling and parent need no rehash; at `nodeLevel` the node is a copy. Where
the last node is a left child the rehashing starts. -/
def recomputeClimbLoop (snapshot nodeLevel : ℕ) (maxBitlen : ℤ)
    (level lastNode lastNodeAtLevel : ℕ) : Except String (List NodeFetch) :=
  if lastNode &&& 1 ≠ 0 then
    if nodeLevel = level then
      match siblingIDSkipLevels snapshot lastNodeAtLevel level (lastNode ^^^ 1) maxBitlen with
      | .error err => .error err
      | .ok nodeID => .ok [⟨nodeID, false⟩]
    else
      recomputeClimbLoop snapshot nodeLevel maxBitlen (level + 1) (lastNode >>> 1)
        (lastNodeAtLevel >>> 1)
  else
    match siblingIDSkipLevels snapshot lastNodeAtLevel level (lastNode ^^^ 1) maxBitlen with
    | .error err => .error err
    | .ok savedNodeID =>
      if nodeLevel = level then .ok [⟨savedNodeID, true⟩]
      else
        recomputeRehashLoop snapshot nodeLevel maxBitlen savedNodeID level lastNode
          lastNodeAtLevel false false []
termination_by lastNode
decreasing_by
  rw [Nat.shiftRight_eq_div_pow]
  rename_i h _
  rw [Nat.and_one_is_mod] at h
  omega

/-- `recomputePastSnapshot`: the fetches that rebuild the last node of `nodeLevel` of the tree
over `snapshot` leaves from the nodes stored for `treeSize` leaves. -/
def recomputePastSnapshot (snapshot treeSize nodeLevel : ℕ) (maxBitlen : ℤ) :
    Except String (List NodeFetch) :=
  if snapshot = treeSize then .ok []
  else if snapshot > treeSize then
    .error s!"recomputePastSnapshot: {snapshot} does not exist for tree of size {treeSize}"
  else recomputeClimbLoop snapshot nodeLevel maxBitlen 0 (snapshot - 1) (treeSize - 1)

/-- The loop of `pathFromNodeToRootAtSnapshot`: up from `node`, recording its sibling at each
level where the sibling exists in the tree over `snapshot` leaves. -/
def pathFromNodeToRootLoop (snapshot treeSize : ℕ) (maxBitLen : ℤ) (node level lastNode : ℕ)
    (proof : List NodeFetch) : Except String (List NodeFetch) :=
  if lastNode ≠ 0 then
    let sibling := node ^^^ 1
    let step : Except String (List NodeFetch) :=
      if sibling < lastNode then
        -- the sibling is not the last node of the level in the snapshot tree
        match newNodeIDForTreeCoords level sibling maxBitLen with
        | .error err => .error err
        | .ok n => .ok (proof ++ [⟨n, false⟩])
      else if sibling = lastNode then
        if snapshot = treeSize then
          match siblingIDSkipLevels snapshot lastNode level node maxBitLen with
          | .error err => .error err
          | .ok n => .ok (proof ++ [⟨n, false⟩])
        else
          -- the node as it was at the snapshot has to be recomputed
          match recomputePastSnapshot snapshot treeSize level maxBitLen with
          | .error err => .error err
          | .ok rehashFetches =>
            match checkRecomputation rehashFetches with
            | .error err => .error err
            | .ok () => .ok (proof ++ rehashFetches)
      else .ok proof
    match step with
    | .error err => .error err
    | .ok proof =>
      pathFromNodeToRootLoop snapshot treeSize maxBitLen (node >>> 1) (level + 1)
        (lastNode >>> 1) proof
  else .ok proof
termination_by lastNode
decreasing_by rw [Nat.shiftRight_eq_div_pow]; omega

def pathFromNodeToRootAtSnapshot (node level snapshot treeSize : ℕ) (maxBitLen : ℤ) :
    Except String (List NodeFetch) :=
  if snapshot = 0 then .ok []
  else pathFromNodeToRootLoop snapshot treeSize maxBitLen node level ((snapshot - 1) >>> level) []

/-- The first loop of `snapshotConsistency`: up while `node` is a right child. -/
def climbRightChildren (node level : ℕ) : ℕ × ℕ :=
  if node &&& 1 ≠ 0 then climbRightChildren (node >>> 1) (level + 1) else (node, level)
termination_by node
decreasing_by
  rw [Nat.shiftRight_eq_div_pow]
  rename_i h
  rw [Nat.and_one_is_mod] at h
  omega

/-- `snapshotConsistency`: the last complete node of the old tree, unless it is the old root,
then the path from it to the root of the new tree. -/
def snapshotConsistency (snapshot1 snapshot2 treeSize : ℕ) (maxBitLen : ℤ) :
    Except String (List NodeFetch) :=
  if snapshot1 = snapshot2 then .ok []
  else
    let (node, level) := climbRightChildren (snapshot1 - 1) 0
    let first : Except String (List NodeFetch) :=
      if node ≠ 0 then
        match newNodeIDForTreeCoords level node maxBitLen with
        | .error err => .error err
        | .ok n => .ok [⟨n, false⟩]
      else .ok []
    match first with
    | .error err => .error err
    | .ok proof =>
      match pathFromNodeToRootAtSnapshot node level snapshot2 treeSize maxBitLen with
      | .error err => .error err
      | .ok p => .ok (proof ++ p)

def calcInclusionProofNodeAddresses (snapshot index treeSize maxBitLen : ℤ) :
    Except PathError (List NodeFetch) :=
  match checkSnapshot "snapshot" snapshot treeSize with
  | .error err => .error (.invalidArgument s!"invalid parameter for inclusion proof: {err}")
  | .ok () =>
    if index ≥ snapshot then
      .error (.invalidArgument
        s!"invalid parameter for inclusion proof: index {index} is >= snapshot {snapshot}")
    else if index < 0 then
      .error (.invalidArgument s!"invalid parameter for inclusion proof: index {index} is < 0")
    else if maxBitLen ≤ 0 then
      .error (.invalidArgument
        s!"invalid parameter for inclusion proof: maxBitLen {maxBitLen} <= 0")
    else
      match pathFromNodeToRootAtSnapshot index.toNat 0 snapshot.toNat treeSize.toNat maxBitLen with
      | .error err => .error (.failed err)
      | .ok fetches => .ok fetches

def calcConsistencyProofNodeAddresses (snapshot1 snapshot2 treeSize maxBitLen : ℤ) :
    Except PathError (List NodeFetch) :=
  match checkSnapshot "snapshot1" snapshot1 treeSize with
  | .error err => .error (.invalidArgument s!"invalid parameter for consistency proof: {err}")
  | .ok () =>
    match checkSnapshot "snapshot2" snapshot2 treeSize with
    | .error err => .error (.invalidArgument s!"invalid parameter for consistency proof: {err}")
    | .ok () =>
      if snapshot1 > snapshot2 then
        .error (.invalidArgument s!"invalid parameter for consistency proof: snapshot1 {snapshot1} > snapshot2 {snapshot2}")
      else if maxBitLen ≤ 0 then
        .error (.invalidArgument
          s!"invalid parameter for consistency proof: maxBitLen {maxBitLen} <= 0")
      else
        match snapshotConsistency snapshot1.toNat snapshot2.toNat treeSize.toNat maxBitLen with
        | .error err => .error (.failed err)
        | .ok fetches => .ok fetches

end Trillian
