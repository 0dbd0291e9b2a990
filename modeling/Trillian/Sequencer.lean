import Trillian.ProofFetcher
import Trillian.WriteLog

/-! The tree update of `log/sequencer.go`: the compact tree rebuilt from the nodes storage holds
at its latest revision, where the last write of a node ID wins, and the node map its callbacks
fill. -/

namespace Trillian

open CompactMerkleTree WriteLog

variable {α : Type*}

abbrev NodeStore (α : Type*) := NodeID → Option α

def maxTreeDepth : ℤ := 64

/-- `trillian.LogLeaf`, with the fields the tree update reads. -/
structure LogLeaf (α : Type*) where
  leafIndex : ℕ
  merkleLeafHash : α

/-- `trillian.SignedLogRoot`, with the fields the tree update reads and writes. -/
structure LogRoot (α : Type*) where
  treeSize : ℕ
  rootHash : α

/-- The errors of the tree update: one of the compact tree, or another message. -/
inductive SequencerError (α : Type*) where
  | compactTree (err : CompactTreeError α)
  | failed (msg : String)

/-- `logSequencingTask.fetch` after the dequeue: the leaves numbered from the tree size. -/
def assignLeafIndices (treeSize : ℕ) : List α → List (LogLeaf α)
  | [] => []
  | hash :: hashes => ⟨treeSize, hash⟩ :: assignLeafIndices (treeSize + 1) hashes

/-- The callback `updateCompactTree` passes to `AddLeafHash`: the node goes into the batch's
node map under its ID. -/
def setNodeInMap : SetNodeFunc (NodeStore α) α := fun depth index hash nodeMap =>
  match newNodeIDForTreeCoords depth index maxTreeDepth with
  | .error err => .error err
  | .ok nodeID => .ok (Function.update nodeMap nodeID (some hash))

variable [Inhabited α]

/-- The loop of `updateCompactTree` over the leaves. -/
def updateCompactTreeLoop (mt : CompactMerkleTree α) :
    List (LogLeaf α) → NodeStore α →
      Option (Except (SequencerError α) (CompactMerkleTree α × NodeStore α))
  | [], nodeMap => some (.ok (mt, nodeMap))
  | leaf :: leaves, nodeMap =>
    match mt.addLeafHash leaf.merkleLeafHash setNodeInMap nodeMap with
    | none => none
    | some (.error err, _, _) => some (.error (.compactTree err))
    | some (.ok seq, mt, nodeMap) =>
      if leaf.leafIndex ≠ seq then
        let got := leaf.leafIndex
        some (.error (.failed s!"got invalid leaf index: {got}, want: {seq}"))
      else
        -- the leaf hash is stored in the Merkle tree too
        match newNodeIDForTreeCoords 0 seq maxTreeDepth with
        | .error err => some (.error (.failed err))
        | .ok leafNodeID =>
          updateCompactTreeLoop mt leaves
            (Function.update nodeMap leafNodeID (some leaf.merkleLeafHash))

/-- `updateCompactTree`: the tree after the leaves, and the node map of the batch. -/
def updateCompactTree (mt : CompactMerkleTree α) (leaves : List (LogLeaf α)) :
    Option (Except (SequencerError α) (CompactMerkleTree α × NodeStore α)) :=
  updateCompactTreeLoop mt leaves fun _ => none

/-- The node reader that `buildMerkleTreeFromStorageAtRoot` passes to
`NewCompactMerkleTreeWithState`. The message leaves out the log ID, the nodes and the
revision. -/
def getNodeFromStorage (nodes : NodeStore α) : GetNodeFunc α := fun depth index =>
  match newNodeIDForTreeCoords depth index maxTreeDepth with
  | .error err => .error err
  | .ok nodeID =>
    match getMerkleNodes nodes [nodeID] with
    | [node] => .ok node.2
    | _ => .error "Did not retrieve one node while loading CompactMerkleTree"

def buildMerkleTreeFromStorageAtRoot [DecidableEq α] (hasher : LogHasher α) (nodes : NodeStore α)
    (root : LogRoot α) : Option (Except (CompactTreeError α) (CompactMerkleTree α)) :=
  newCompactMerkleTreeWithState hasher root.treeSize (getNodeFromStorage nodes) root.rootHash

def initMerkleTreeFromStorage [DecidableEq α] (hasher : LogHasher α) (nodes : NodeStore α)
    (root : LogRoot α) : Option (Except (CompactTreeError α) (CompactMerkleTree α)) :=
  if root.treeSize = 0 then some (.ok (newCompactMerkleTree hasher))
  else buildMerkleTreeFromStorageAtRoot hasher nodes root

/-- `SetMerkleNodes` of a batch's node map, read back at the new revision. -/
def setMerkleNodes (nodes nodeMap : NodeStore α) : NodeStore α := overlay nodeMap nodes

end Trillian
