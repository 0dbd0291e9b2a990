import Trillian.MerklePath

/-! The proof builder of `server/proof_fetcher.go`: the nodes the address calculation names are
read from storage and passed through a small state machine that folds each chain of nodes to
rehash into one proof hash. Storage is a map in which the last write of an ID wins, read at the
revision the proof is asked for. -/

namespace Trillian

variable {α : Type*}

/-- `trillian.Proof`: the leaf index and the hashes of a served proof. -/
structure Proof (α : Type*) where
  leafIndex : ℤ
  hashes : List α

/-- `rehasher`. Its `proofError` is never set and is left out. -/
structure Rehasher (α : Type*) where
  rehashing : Bool
  rehashNode : α
  proof : List α

namespace Rehasher

variable (hashChildren : α → α → α)

def emitNode (r : Rehasher α) (node : α) : Rehasher α := { r with proof := r.proof ++ [node] }

def startRehashing (r : Rehasher α) (node : α) : Rehasher α :=
  { r with rehashNode := node, rehashing := true }

def endRehashing (r : Rehasher α) : Rehasher α :=
  if r.rehashing then { r with proof := r.proof ++ [r.rehashNode], rehashing := false } else r

/-- `process`: one fetched node, by whether a chain is being rehashed and whether the node
belongs to one. -/
def process (r : Rehasher α) (node : α) (fetch : NodeFetch) : Rehasher α :=
  if !r.rehashing && fetch.rehash then r.startRehashing node
  else if r.rehashing && !fetch.rehash then (r.endRehashing).emitNode node
  else if r.rehashing && fetch.rehash then { r with rehashNode := hashChildren node r.rehashNode }
  else r.emitNode node

def rehashedProof (r : Rehasher α) (leafIndex : ℤ) : Proof α := ⟨leafIndex, (r.endRehashing).proof⟩

-- What one fetch does: a node that is not rehashed ends any chain and joins the proof; a rehashed
-- node starts a chain, or is hashed into the running chain as its left sibling.

theorem process_of_not_rehash (r : Rehasher α) (node : α) {fetch : NodeFetch}
    (hf : fetch.rehash = false) :
    ((r.process hashChildren node fetch).endRehashing).proof = (r.endRehashing).proof ++ [node] ∧
      (r.process hashChildren node fetch).rehashing = false := by
  unfold process endRehashing emitNode
  cases r.rehashing <;> simp [hf]

theorem process_start (r : Rehasher α) (node : α) {fetch : NodeFetch}
    (hr : r.rehashing = false) (hf : fetch.rehash = true) :
    r.process hashChildren node fetch = { r with rehashNode := node, rehashing := true } := by
  simp [process, startRehashing, hr, hf]

theorem process_continue (r : Rehasher α) (node : α) {fetch : NodeFetch}
    (hr : r.rehashing = true) (hf : fetch.rehash = true) :
    r.process hashChildren node fetch = { r with rehashNode := hashChildren node r.rehashNode } := by
  simp [process, hr, hf]

end Rehasher

/-- `GetMerkleNodes` of a store: the stored nodes among those asked for, in order. -/
def getMerkleNodes (store : NodeID → Option α) (ids : List NodeID) : List (NodeID × α) :=
  ids.filterMap fun id => (store id).map fun hash => (id, hash)

/-- `fetchNodes`. The messages leave out the `%v` rendering of the nodes. -/
def fetchNodes (store : NodeID → Option α) (fetches : List NodeFetch) :
    Except String (List (NodeID × α)) :=
  let proofNodeIDs := fetches.map NodeFetch.nodeID
  let proofNodes := getMerkleNodes store proofNodeIDs
  if proofNodes.length ≠ proofNodeIDs.length then
    let want := proofNodeIDs.length
    let got := proofNodes.length
    .error s!"expected {want} nodes from storage but got {got}"
  else
    -- the additional check that the correct node was returned
    match (proofNodes.zip fetches).findIdx? (fun p => p.1.1 != p.2.nodeID) with
    | some i => .error s!"expected node at proof pos {i} but got another node"
    | none => .ok proofNodes

def fetchNodesAndBuildProof [Inhabited α] (store : NodeID → Option α) (hashChildren : α → α → α)
    (leafIndex : ℤ) (proofNodeFetches : List NodeFetch) : Except String (Proof α) :=
  match fetchNodes store proofNodeFetches with
  | .error err => .error err
  | .ok proofNodes =>
    let r : Rehasher α := (proofNodes.zip proofNodeFetches).foldl
      (fun (r : Rehasher α) p => r.process hashChildren p.1.2 p.2) ⟨false, default, []⟩
    .ok (r.rehashedProof leafIndex)

end Trillian
