import Trillian.SequencerStorage
import Trillian.Transaction

/-! `IntegrateBatch` and `SignRoot` of `log/sequencer.go` as transactions over the storage of a
log: the queue, the sequenced leaves, the Merkle nodes with their revisions and the signed roots,
the latest stored last. Each call is `Transaction.atomically` of a `Txn`; storage calls and the
signer may fail (`Faults`), and a panic aborts the transaction. -/

namespace Trillian

namespace Sequencing

open Transaction Rfc6962 CompactMerkleTree WriteLog

variable {α : Type}

/-- A leaf in the queue or sequenced: its Merkle leaf hash and the time it was queued. -/
structure QueuedLeaf (α : Type) where
  merkleLeafHash : α
  queueTimestampNanos : ℤ

/-- `trillian.SignedLogRoot`, without the log ID and the signature. -/
structure SignedLogRoot (α : Type) where
  treeSize : ℕ
  rootHash : α
  treeRevision : ℕ
  timestampNanos : ℤ

def SignedLogRoot.logRoot (root : SignedLogRoot α) : LogRoot α := ⟨root.treeSize, root.rootHash⟩

/-- Merkle nodes with the revisions they were written at, the latest write first. -/
abbrev NodeRevisions (α : Type) := NodeID → List (ℕ × α)

/-- The storage of one log. -/
structure LogStore (α : Type) where
  queue : List (QueuedLeaf α)
  sequenced : ℕ → Option (QueuedLeaf α)
  nodes : NodeRevisions α
  roots : List (SignedLogRoot α)

/-- The errors that the storage calls and the signer of one call return, if they fail. -/
structure Faults where
  latestSignedLogRoot : Option String
  dequeueLeaves : Option String
  updateSequencedLeaves : Option String
  setMerkleNodes : Option String
  signLogRoot : Option String
  storeSignedLogRoot : Option String

/-- The errors of `IntegrateBatch` and `SignRoot`. -/
inductive SequencingError (α : Type) where
  /-- `storage.ErrTreeNeedsInit` -/
  | treeNeedsInit
  /-- an error of a storage call, of the signer, or of a check -/
  | failed (msg : String)
  /-- an error of the tree update -/
  | tree (err : SequencerError α)
  /-- a Go panic in the compact tree -/
  | panicked

abbrev LogTx (α : Type) := Txn (LogStore α) (SequencingError α)

/-- `if err != nil { return err }` after a call that fails with `fault`. -/
def fail? (fault : Option String) : LogTx α Unit :=
  match fault with
  | some msg => throw (.failed msg)
  | none => pure ()

def check (c : Prop) [Decidable c] (err : SequencingError α) : LogTx α Unit :=
  if c then throw err else pure ()

/-- `DequeueLeaves` on a queue: up to `n` leaves queued at or before `cutoff`, in queue order,
and the queue without them. -/
def dequeue (cutoff : ℤ) : ℕ → List (QueuedLeaf α) → List (QueuedLeaf α) × List (QueuedLeaf α)
  | 0, queue => ([], queue)
  | _ + 1, [] => ([], [])
  | n + 1, leaf :: queue =>
    if leaf.queueTimestampNanos ≤ cutoff then
      ((dequeue cutoff n queue).1.cons leaf, (dequeue cutoff n queue).2)
    else ((dequeue cutoff (n + 1) queue).1, leaf :: (dequeue cutoff (n + 1) queue).2)

namespace LogTreeTX

/-- `LatestSignedLogRoot`: the root stored last. -/
def latestSignedLogRoot (fault : Option String) : LogTx α (SignedLogRoot α) := do
  fail? fault
  match (← get).roots.getLast? with
  | some root => pure root
  | none => throw .treeNeedsInit

def dequeueLeaves (limit cutoff : ℤ) (fault : Option String) : LogTx α (List (QueuedLeaf α)) := do
  fail? fault
  let st ← get
  set { st with queue := (dequeue cutoff limit.toNat st.queue).2 }
  pure (dequeue cutoff limit.toNat st.queue).1

/-- `WriteRevision`: one past the revision of the latest root. -/
def writeRevision : LogTx α ℕ := do
  match (← get).roots.getLast? with
  | some root => pure (root.treeRevision + 1)
  | none => pure 0

/-- `GetMerkleNodes` at revision `rev`: each node as the latest write at or before `rev` left
it. -/
def nodesAt (nodes : NodeRevisions α) (rev : ℕ) : NodeStore α :=
  fun id => ((nodes id).find? (·.1 ≤ rev)).map Prod.snd

/-- `UpdateSequencedLeaves`: each leaf stored under its index. -/
def updateSequencedLeaves (leaves : List (QueuedLeaf α × ℕ)) (fault : Option String) :
    LogTx α Unit := do
  fail? fault
  modify fun st => { st with sequenced := writeAll st.sequenced (leaves.map fun l => (l.2, l.1)) }

/-- The nodes of a node map written at revision `rev`. -/
def writeNodes (nodes : NodeRevisions α) (nodeMap : NodeStore α) (rev : ℕ) : NodeRevisions α :=
  fun id => match nodeMap id with
    | some hash => (rev, hash) :: nodes id
    | none => nodes id

/-- `SetMerkleNodes` of the nodes of a node map, each at revision `rev`. -/
def setMerkleNodes (nodeMap : NodeStore α) (rev : ℕ) (fault : Option String) : LogTx α Unit := do
  fail? fault
  modify fun st => { st with nodes := writeNodes st.nodes nodeMap rev }

def storeSignedLogRoot (root : SignedLogRoot α) (fault : Option String) : LogTx α Unit := do
  fail? fault
  modify fun st => { st with roots := st.roots ++ [root] }

/-- `QueueLeaves`: the leaves join the back of the queue. -/
def queueLeaves (leaves : List (QueuedLeaf α)) : LogTx α Unit :=
  modify fun st => { st with queue := st.queue ++ leaves }

end LogTreeTX

namespace Sequencer

/-- `logSequencingTask.fetch`: the leaves dequeued, each with the index it is given. -/
def fetch (treeSize : ℕ) (limit cutoff : ℤ) (fault : Option String) :
    LogTx α (List (QueuedLeaf α × ℕ)) := do
  let leaves ← LogTreeTX.dequeueLeaves limit cutoff fault
  pure (leaves.zipIdx treeSize)

variable [Inhabited α] [DecidableEq α]

/-- `initMerkleTreeFromStorage`, with the nodes read at the revision of the root. -/
def initMerkleTree (hasher : LogHasher α) (root : SignedLogRoot α) : LogTx α (CompactMerkleTree α) := do
  match initMerkleTreeFromStorage hasher (LogTreeTX.nodesAt (← get).nodes root.treeRevision)
      root.logRoot with
  | some (.ok mt) => pure mt
  | some (.error err) => throw (.tree (.compactTree err))
  | none => throw .panicked

/-- `updateCompactTree` on the leaves fetched. -/
def updateTree (mt : CompactMerkleTree α) (leaves : List (QueuedLeaf α × ℕ)) :
    LogTx α (CompactMerkleTree α × NodeStore α) :=
  match updateCompactTree mt (leaves.map fun l => ⟨l.2, l.1.merkleLeafHash⟩) with
  | some (.ok r) => pure r
  | some (.error err) => throw (.tree err)
  | none => throw .panicked

/-- The part of `IntegrateBatch` that runs once there are leaves, or a root is due: the tree
rebuilt and updated, the leaves and the nodes written at the new revision, and the new root
signed and stored. -/
def integrate (hasher : LogHasher α) (currentRoot : SignedLogRoot α)
    (sequencedLeaves : List (QueuedLeaf α × ℕ)) (now : ℤ) (faults : Faults) : LogTx α ℕ := do
  let merkleTree ← initMerkleTree hasher currentRoot
  let newVersion ← LogTreeTX.writeRevision
  let want := currentRoot.treeRevision + 1
  check (newVersion ≠ want) (.failed s!"got writeRevision of {newVersion}, but expected {want}")
  let updated ← updateTree merkleTree sequencedLeaves
  LogTreeTX.updateSequencedLeaves sequencedLeaves faults.updateSequencedLeaves
  LogTreeTX.setMerkleNodes updated.2 newVersion faults.setMerkleNodes
  -- `SignLogRoot`
  fail? faults.signLogRoot
  LogTreeTX.storeSignedLogRoot ⟨updated.1.size, updated.1.root, newVersion, now⟩
    faults.storeSignedLogRoot
  pure sequencedLeaves.length

/-- `Sequencer.IntegrateBatch`: the number of leaves sequenced. A nil root hash is `default`. -/
def integrateBatch (hasher : LogHasher α) (limit guardWindow maxRootDurationInterval now : ℤ)
    (faults : Faults) : LogTx α ℕ := do
  let currentRoot ← LogTreeTX.latestSignedLogRoot faults.latestSignedLogRoot
  check (currentRoot.rootHash = default) .treeNeedsInit
  let sequencedLeaves ← fetch currentRoot.treeSize limit (now - guardWindow) faults.dequeueLeaves
  if sequencedLeaves.length = 0 ∧
      (maxRootDurationInterval = 0 ∨ now - currentRoot.timestampNanos < maxRootDurationInterval) then
    -- nothing to integrate into the tree
    pure 0
  else integrate hasher currentRoot sequencedLeaves now faults

def signRoot (hasher : LogHasher α) (now : ℤ) (faults : Faults) : LogTx α Unit := do
  let currentRoot ← LogTreeTX.latestSignedLogRoot faults.latestSignedLogRoot
  let merkleTree ← initMerkleTree hasher currentRoot
  -- `SignLogRoot`
  fail? faults.signLogRoot
  LogTreeTX.storeSignedLogRoot
    ⟨merkleTree.size, merkleTree.root, currentRoot.treeRevision + 1, now⟩ faults.storeSignedLogRoot

end Sequencer

section Dequeue

variable {cutoff : ℤ}

/-- The leaves dequeued and the queue left are the queue, rearranged: no leaf is lost or
doubled. -/
theorem dequeue_perm : ∀ (n : ℕ) (queue : List (QueuedLeaf α)),
    ((dequeue cutoff n queue).1 ++ (dequeue cutoff n queue).2).Perm queue
  | 0, queue => by simp [dequeue]
  | _ + 1, [] => by simp [dequeue]
  | n + 1, leaf :: queue => by
    unfold dequeue
    split_ifs
    · exact (dequeue_perm n queue).cons leaf
    · -- the leaf stays, in front of the rest of the queue
      exact List.perm_middle.trans ((dequeue_perm (n + 1) queue).cons leaf)

theorem dequeue_snd_of_fst_eq_nil :
    ∀ {n : ℕ} {queue : List (QueuedLeaf α)}, (dequeue cutoff n queue).1 = [] →
      (dequeue cutoff n queue).2 = queue
  | 0, _, _ => by rw [dequeue]
  | _ + 1, [], _ => by rw [dequeue]
  | n + 1, leaf :: queue, h => by
    by_cases hc : leaf.queueTimestampNanos ≤ cutoff
    · rw [dequeue, if_pos hc] at h
      simp at h
    · rw [dequeue, if_neg hc] at h ⊢
      rw [dequeue_snd_of_fst_eq_nil h]

end Dequeue

section Runs

variable {st st' : LogStore α}

theorem fail?_run {fault : Option String} {u : Unit}
    (h : (fail? fault : LogTx α Unit).run st = .ok (u, st')) : fault = none ∧ st' = st := by
  cases fault with
  | some msg => cases h
  | none => exact ⟨rfl, (Prod.mk.inj (Except.ok.inj h)).2.symm⟩

theorem check_run {c : Prop} [Decidable c] {err : SequencingError α} {u : Unit}
    (h : (check c err).run st = .ok (u, st')) : ¬c ∧ st' = st := by
  unfold check at h
  split_ifs at h with hc
  · cases h
  · exact ⟨hc, (Prod.mk.inj (Except.ok.inj h)).2.symm⟩

namespace LogTreeTX

theorem latestSignedLogRoot_run {fault : Option String} {root : SignedLogRoot α}
    (h : (latestSignedLogRoot fault).run st = .ok (root, st')) :
    st.roots.getLast? = some root ∧ st' = st := by
  unfold latestSignedLogRoot at h
  obtain ⟨⟨⟩, s₁, hfail, hread⟩ := run_bind_eq_ok.mp h
  obtain ⟨-, rfl⟩ := fail?_run hfail
  rw [run_bind_of_ok (run_get _)] at hread
  split at hread
  · next root' hlast =>
    rw [run_pure, Except.ok.injEq, Prod.mk.injEq] at hread
    obtain ⟨rfl, rfl⟩ := hread
    exact ⟨hlast, rfl⟩
  · cases hread

theorem dequeueLeaves_run {limit cutoff : ℤ} {fault : Option String} {leaves : List (QueuedLeaf α)}
    (h : (dequeueLeaves limit cutoff fault).run st = .ok (leaves, st')) :
    leaves = (dequeue cutoff limit.toNat st.queue).1 ∧
      st' = { st with queue := (dequeue cutoff limit.toNat st.queue).2 } := by
  unfold dequeueLeaves at h
  obtain ⟨⟨⟩, s₁, hfail, hread⟩ := run_bind_eq_ok.mp h
  obtain ⟨-, rfl⟩ := fail?_run hfail
  rw [run_bind_of_ok (run_get _)] at hread
  obtain ⟨⟨⟩, s₂, hset, hpure⟩ := run_bind_eq_ok.mp hread
  cases hset
  rw [run_pure, Except.ok.injEq, Prod.mk.injEq] at hpure
  exact ⟨hpure.1.symm, hpure.2.symm⟩

theorem writeRevision_run {rev : ℕ} (h : (writeRevision : LogTx α ℕ).run st = .ok (rev, st')) :
    (∀ root ∈ st.roots.getLast?, rev = root.treeRevision + 1) ∧ st' = st := by
  rw [writeRevision, run_bind_of_ok (run_get _)] at h
  split at h
  · next root hlast =>
    rw [run_pure, Except.ok.injEq, Prod.mk.injEq] at h
    refine ⟨fun root' hroot' => ?_, h.2.symm⟩
    rw [hlast, Option.mem_some_iff] at hroot'
    rw [← hroot', h.1]
  · next hlast =>
    rw [run_pure, Except.ok.injEq, Prod.mk.injEq] at h
    exact ⟨fun root' hroot' => by simp [hlast] at hroot', h.2.symm⟩

theorem run_fail?_bind_modify {fault : Option String} {f : LogStore α → LogStore α} {u : Unit}
    (h : (fail? fault >>= fun _ => (modify f : LogTx α PUnit)).run st = .ok (u, st')) : st' = f st := by
  obtain ⟨⟨⟩, s₁, hfail, hmodify⟩ := run_bind_eq_ok.mp h
  obtain ⟨-, rfl⟩ := fail?_run hfail
  rw [run_modify] at hmodify
  exact (Prod.mk.inj (Except.ok.inj hmodify)).2.symm

theorem updateSequencedLeaves_run {leaves : List (QueuedLeaf α × ℕ)} {fault : Option String}
    {u : Unit} (h : (updateSequencedLeaves leaves fault).run st = .ok (u, st')) :
    st' = { st with sequenced := writeAll st.sequenced (leaves.map fun l => (l.2, l.1)) } :=
  run_fail?_bind_modify h

theorem setMerkleNodes_run {nodeMap : NodeStore α} {rev : ℕ} {fault : Option String} {u : Unit}
    (h : (setMerkleNodes nodeMap rev fault).run st = .ok (u, st')) :
    st' = { st with nodes := writeNodes st.nodes nodeMap rev } :=
  run_fail?_bind_modify h

theorem storeSignedLogRoot_run {root : SignedLogRoot α} {fault : Option String} {u : Unit}
    (h : (storeSignedLogRoot root fault).run st = .ok (u, st')) :
    st' = { st with roots := st.roots ++ [root] } :=
  run_fail?_bind_modify h

end LogTreeTX

namespace Sequencer

theorem fetch_run {treeSize : ℕ} {limit cutoff : ℤ} {fault : Option String}
    {leaves : List (QueuedLeaf α × ℕ)} (h : (fetch treeSize limit cutoff fault).run st = .ok (leaves, st')) :
    leaves = (dequeue cutoff limit.toNat st.queue).1.zipIdx treeSize ∧
      st' = { st with queue := (dequeue cutoff limit.toNat st.queue).2 } := by
  unfold fetch at h
  obtain ⟨dequeued, s₁, hdequeue, hpure⟩ := run_bind_eq_ok.mp h
  obtain ⟨rfl, rfl⟩ := LogTreeTX.dequeueLeaves_run hdequeue
  rw [run_pure, Except.ok.injEq, Prod.mk.injEq] at hpure
  exact ⟨hpure.1.symm, hpure.2.symm⟩

variable [Inhabited α] [DecidableEq α] {hasher : LogHasher α}

theorem initMerkleTree_run {root : SignedLogRoot α} {mt : CompactMerkleTree α}
    (h : (initMerkleTree hasher root).run st = .ok (mt, st')) :
    initMerkleTreeFromStorage hasher (LogTreeTX.nodesAt st.nodes root.treeRevision) root.logRoot =
      some (.ok mt) ∧ st' = st := by
  unfold initMerkleTree at h
  rw [run_bind_of_ok (run_get _)] at h
  split at h
  · next mt' hinit =>
    rw [run_pure, Except.ok.injEq, Prod.mk.injEq] at h
    obtain ⟨rfl, rfl⟩ := h
    exact ⟨hinit, rfl⟩
  · cases h
  · cases h

omit [DecidableEq α] in
theorem updateTree_run {mt : CompactMerkleTree α} {leaves : List (QueuedLeaf α × ℕ)}
    {updated : CompactMerkleTree α × NodeStore α} (h : (updateTree mt leaves).run st = .ok (updated, st')) :
    updateCompactTree mt (leaves.map fun l => ⟨l.2, l.1.merkleLeafHash⟩) = some (.ok updated) ∧
      st' = st := by
  unfold updateTree at h
  split at h
  · next r hupdate =>
    rw [run_pure, Except.ok.injEq, Prod.mk.injEq] at h
    obtain ⟨rfl, rfl⟩ := h
    exact ⟨hupdate, rfl⟩
  · cases h
  · cases h

/-- A successful `integrate` rebuilt the tree of the current root, updated it with the leaves,
and wrote the leaves, the nodes and the new root at the revision after the current root's. -/
theorem integrate_run {currentRoot : SignedLogRoot α} {leaves : List (QueuedLeaf α × ℕ)} {now : ℤ}
    {faults : Faults} {k : ℕ} (h : (integrate hasher currentRoot leaves now faults).run st = .ok (k, st')) :
    ∃ mt updated,
      initMerkleTreeFromStorage hasher (LogTreeTX.nodesAt st.nodes currentRoot.treeRevision)
        currentRoot.logRoot = some (.ok mt) ∧
      updateCompactTree mt (leaves.map fun l => ⟨l.2, l.1.merkleLeafHash⟩) = some (.ok updated) ∧
      k = leaves.length ∧ st'.queue = st.queue ∧
      st'.sequenced = writeAll st.sequenced (leaves.map fun l => (l.2, l.1)) ∧
      st'.nodes = LogTreeTX.writeNodes st.nodes updated.2 (currentRoot.treeRevision + 1) ∧
      st'.roots = st.roots ++
        [⟨updated.1.size, updated.1.root, currentRoot.treeRevision + 1, now⟩] := by
  unfold integrate at h
  obtain ⟨mt, s₁, hinit, h₁⟩ := run_bind_eq_ok.mp h
  obtain ⟨hbuilt, rfl⟩ := initMerkleTree_run hinit
  obtain ⟨newVersion, s₂, hrev, h₂⟩ := run_bind_eq_ok.mp h₁
  obtain ⟨-, rfl⟩ := LogTreeTX.writeRevision_run hrev
  obtain ⟨⟨⟩, s₃, hcheck, h₃⟩ := run_bind_eq_ok.mp h₂
  obtain ⟨hversion, rfl⟩ := check_run hcheck
  rw [not_not] at hversion
  subst hversion
  obtain ⟨updated, s₄, hupdate, h₄⟩ := run_bind_eq_ok.mp h₃
  obtain ⟨htree, rfl⟩ := updateTree_run hupdate
  -- the writes, in order
  obtain ⟨⟨⟩, s₅, hleaves, h₅⟩ := run_bind_eq_ok.mp h₄
  obtain ⟨⟨⟩, s₆, hnodes, h₆⟩ := run_bind_eq_ok.mp h₅
  obtain ⟨⟨⟩, s₇, hsign, h₇⟩ := run_bind_eq_ok.mp h₆
  obtain ⟨-, rfl⟩ := fail?_run hsign
  obtain ⟨⟨⟩, s₈, hroot, hpure⟩ := run_bind_eq_ok.mp h₇
  rw [run_pure, Except.ok.injEq, Prod.mk.injEq] at hpure
  obtain ⟨rfl, rfl⟩ := hpure
  rw [LogTreeTX.storeSignedLogRoot_run hroot, LogTreeTX.setMerkleNodes_run hnodes,
    LogTreeTX.updateSequencedLeaves_run hleaves]
  exact ⟨mt, updated, hbuilt, htree, rfl, rfl, rfl, rfl, rfl⟩

/-- A successful `IntegrateBatch` found the latest root, and either left storage as it was,
integrating nothing, or ran `integrate` on the leaves it dequeued. -/
theorem integrateBatch_run {limit guardWindow maxRootDurationInterval now : ℤ} {faults : Faults}
    {k : ℕ} (h : (integrateBatch hasher limit guardWindow maxRootDurationInterval now faults).run st =
      .ok (k, st')) :
    ∃ currentRoot, st.roots.getLast? = some currentRoot ∧
      ((k = 0 ∧ st' = st) ∨
        (integrate hasher currentRoot
          ((dequeue (now - guardWindow) limit.toNat st.queue).1.zipIdx currentRoot.treeSize) now
          faults).run { st with queue := (dequeue (now - guardWindow) limit.toNat st.queue).2 } =
          .ok (k, st')) := by
  unfold integrateBatch at h
  obtain ⟨currentRoot, s₁, hlatest, h₁⟩ := run_bind_eq_ok.mp h
  obtain ⟨hlast, hs₁⟩ := LogTreeTX.latestSignedLogRoot_run hlatest
  subst s₁
  obtain ⟨⟨⟩, s₂, hcheck, h₂⟩ := run_bind_eq_ok.mp h₁
  obtain ⟨-, hs₂⟩ := check_run hcheck
  subst s₂
  obtain ⟨leaves, s₃, hfetch, h₃⟩ := run_bind_eq_ok.mp h₂
  obtain ⟨rfl, rfl⟩ := fetch_run hfetch
  refine ⟨currentRoot, hlast, ?_⟩
  split_ifs at h₃ with hskip
  · -- nothing was dequeued, so the queue is as it was
    left
    rw [run_pure, Except.ok.injEq, Prod.mk.injEq] at h₃
    obtain ⟨rfl, rfl⟩ := h₃
    have hnil : (dequeue (now - guardWindow) limit.toNat st.queue).1 = [] := by
      simpa using hskip.1
    rw [dequeue_snd_of_fst_eq_nil hnil]
    exact ⟨rfl, rfl⟩
  · exact .inr h₃

/-- A successful `SignRoot` rebuilt the tree of the latest root and stored a root of that tree at
the next revision. -/
theorem signRoot_run {now : ℤ} {faults : Faults} {u : Unit}
    (h : (signRoot hasher now faults).run st = .ok (u, st')) :
    ∃ currentRoot mt, st.roots.getLast? = some currentRoot ∧
      initMerkleTreeFromStorage hasher (LogTreeTX.nodesAt st.nodes currentRoot.treeRevision)
        currentRoot.logRoot = some (.ok mt) ∧
      st' = { st with roots := st.roots ++ [⟨mt.size, mt.root, currentRoot.treeRevision + 1, now⟩] } := by
  unfold signRoot at h
  obtain ⟨currentRoot, s₁, hlatest, h₁⟩ := run_bind_eq_ok.mp h
  obtain ⟨hlast, rfl⟩ := LogTreeTX.latestSignedLogRoot_run hlatest
  obtain ⟨mt, s₂, hinit, h₂⟩ := run_bind_eq_ok.mp h₁
  obtain ⟨hbuilt, rfl⟩ := initMerkleTree_run hinit
  obtain ⟨⟨⟩, s₃, hsign, h₃⟩ := run_bind_eq_ok.mp h₂
  obtain ⟨-, rfl⟩ := fail?_run hsign
  exact ⟨currentRoot, mt, hlast, hbuilt, LogTreeTX.storeSignedLogRoot_run h₃⟩

end Sequencer

end Runs

section Leaves

/-- The leaves sequenced at `0, …, n - 1`. -/
def sequencedLeaves (st : LogStore α) (n : ℕ) : List (QueuedLeaf α) :=
  (List.range n).filterMap st.sequenced

/-- The Merkle leaf hashes of the leaves sequenced at `0, …, n - 1`. -/
def leafHashes (st : LogStore α) (n : ℕ) : List α := (sequencedLeaves st n).map (·.merkleLeafHash)

variable {st st' : LogStore α}

theorem sequencedLeaves_succ (st : LogStore α) (n : ℕ) :
    sequencedLeaves st (n + 1) = sequencedLeaves st n ++ (st.sequenced n).toList := by
  rw [sequencedLeaves, sequencedLeaves, List.range_succ, List.filterMap_append]
  cases h : st.sequenced n <;> simp [h]

theorem length_sequencedLeaves {n : ℕ} (h : ∀ i < n, (st.sequenced i).isSome) :
    (sequencedLeaves st n).length = n := by
  induction n with
  | zero => rfl
  | succ n ih =>
    obtain ⟨leaf, hleaf⟩ := Option.isSome_iff_exists.mp (h n (Nat.lt_succ_self n))
    rw [sequencedLeaves_succ, List.length_append, ih fun i hi => h i (by omega), hleaf]
    rfl

theorem sequencedLeaves_congr {n : ℕ} (h : ∀ i < n, st'.sequenced i = st.sequenced i) :
    sequencedLeaves st' n = sequencedLeaves st n := by
  induction n with
  | zero => rfl
  | succ n ih => rw [sequencedLeaves_succ, sequencedLeaves_succ, ih fun i hi => h i (by omega),
      h n (Nat.lt_succ_self n)]

theorem sequencedLeaves_add {S : ℕ} {batch : List (QueuedLeaf α)}
    (hbelow : ∀ i < S, st'.sequenced i = st.sequenced i)
    (hbatch : ∀ i < batch.length, st'.sequenced (S + i) = batch[i]?) :
    ∀ k ≤ batch.length, sequencedLeaves st' (S + k) = sequencedLeaves st S ++ batch.take k
  | 0, _ => by rw [Nat.add_zero, sequencedLeaves_congr hbelow, List.take_zero, List.append_nil]
  | k + 1, hk => by
    rw [← Nat.add_assoc, sequencedLeaves_succ, sequencedLeaves_add hbelow hbatch k (by omega),
      hbatch k (by omega), List.take_add_one, List.append_assoc]

/-- Leaves written at the indices `S, S + 1, …`, as `UpdateSequencedLeaves` writes what `fetch`
numbered. -/
theorem writeAll_zipIdx {β : Type} (m : ℕ → Option β) :
    ∀ (l : List β) (S i : ℕ), writeAll m ((l.zipIdx S).map fun p => (p.2, p.1)) i =
      if S ≤ i ∧ i < S + l.length then l[i - S]? else m i
  | [], S, i => by
    rw [List.zipIdx_nil, List.map_nil, writeAll_nil, if_neg (by simp)]
  | a :: l, S, i => by
    rw [List.zipIdx_cons, List.map_cons, writeAll, writeAll_zipIdx _ l (S + 1) i, List.length_cons]
    by_cases hi : i = S
    · -- the head is written at `S`, and the rest above it
      subst hi
      rw [if_neg (by omega), Function.update_self, if_pos (by omega), Nat.sub_self,
        List.getElem?_cons_zero]
    · rw [Function.update_of_ne hi]
      by_cases hlt : S < i ∧ i < S + (l.length + 1)
      · have hsub : i - S = i - (S + 1) + 1 := by omega
        rw [if_pos (by omega), if_pos (by omega), hsub, List.getElem?_cons_succ]
      · rw [if_neg (by omega), if_neg (by omega)]

theorem sequencedLeaves_writeAll_zipIdx {S : ℕ} {batch : List (QueuedLeaf α)}
    (hseq : st'.sequenced = writeAll st.sequenced ((batch.zipIdx S).map fun p => (p.2, p.1))) :
    sequencedLeaves st' (S + batch.length) = sequencedLeaves st S ++ batch := by
  have hbelow : ∀ i < S, st'.sequenced i = st.sequenced i := fun i hi => by
    rw [hseq, writeAll_zipIdx, if_neg (by omega)]
  have hbatch : ∀ i < batch.length, st'.sequenced (S + i) = batch[i]? := fun i hi => by
    rw [hseq, writeAll_zipIdx, if_pos (by omega), Nat.add_sub_cancel_left]
  rw [sequencedLeaves_add hbelow hbatch _ le_rfl, List.take_length]

theorem map_zipIdx_eq_assignLeafIndices :
    ∀ (l : List (QueuedLeaf α)) (S : ℕ),
      (l.zipIdx S).map (fun p => (⟨p.2, p.1.merkleLeafHash⟩ : LogLeaf α)) =
        assignLeafIndices S (l.map (·.merkleLeafHash))
  | [], _ => rfl
  | a :: l, S => by
    rw [List.zipIdx_cons, List.map_cons, map_zipIdx_eq_assignLeafIndices l (S + 1)]
    rfl

end Leaves

section Nodes

variable {nodes : NodeRevisions α} {rev : ℕ}

open LogTreeTX

theorem nodesAt_of_le {id : NodeID} (h : ∀ p ∈ nodes id, p.1 ≤ rev) :
    nodesAt nodes rev id = (nodes id).head?.map Prod.snd := by
  unfold nodesAt
  cases hn : nodes id with
  | nil => rfl
  | cons p ps =>
    have hp : p.1 ≤ rev := h p (by simp [hn])
    simp [hp]

variable (hrev : ∀ id, ∀ p ∈ nodes id, p.1 ≤ rev)
include hrev

theorem nodesAt_succ : nodesAt nodes (rev + 1) = nodesAt nodes rev := by
  funext id
  rw [nodesAt_of_le fun p hp => (hrev id p hp).trans (Nat.le_succ rev), nodesAt_of_le (hrev id)]

theorem nodesAt_writeNodes (nodeMap : NodeStore α) :
    nodesAt (writeNodes nodes nodeMap (rev + 1)) (rev + 1) = overlay nodeMap (nodesAt nodes rev) := by
  funext id
  cases hm : nodeMap id with
  | some hash => simp [nodesAt, writeNodes, overlay, hm]
  | none =>
    simp only [overlay, hm, Option.none_or, ← nodesAt_succ hrev]
    simp [nodesAt, writeNodes, hm]

theorem revisions_writeNodes (nodeMap : NodeStore α) :
    ∀ id, ∀ p ∈ writeNodes nodes nodeMap (rev + 1) id, p.1 ≤ rev + 1 := by
  intro id p hp
  unfold writeNodes at hp
  split at hp
  · rcases List.mem_cons.mp hp with rfl | hp
    · exact le_rfl
    · exact (hrev id p hp).trans (Nat.le_succ rev)
  · exact (hrev id p hp).trans (Nat.le_succ rev)

end Nodes

section Invariant

/-- Two roots stored one after the other: the revision goes up by one, and the tree does not
shrink. -/
def RootStep (r r' : SignedLogRoot α) : Prop :=
  r'.treeRevision = r.treeRevision + 1 ∧ r.treeSize ≤ r'.treeSize

variable (hasher : LogHasher α)

/-- What the log's storage holds between calls, with `last` the root stored last. -/
structure LogInv (st : LogStore α) (last : SignedLogRoot α) : Prop where
  getLast : st.roots.getLast? = some last
  -- each stored root follows the one before it
  chain : st.roots.IsChain RootStep
  -- the leaves sequenced are those below the latest tree size, with no gap
  sequenced : ∀ i, (st.sequenced i).isSome ↔ i < last.treeSize
  -- every root is the Merkle tree hash of the leaves sequenced below its size
  roots : ∀ r ∈ st.roots, r.treeSize ≤ last.treeSize ∧
    r.rootHash = mth hasher.hashChildren hasher.emptyRoot (leafHashes st r.treeSize)
  -- the nodes read at the latest revision hold the tree of the leaves sequenced
  holds : HoldsTree hasher.hashChildren hasher.emptyRoot (leafHashes st last.treeSize)
    (LogTreeTX.nodesAt st.nodes last.treeRevision)
  -- no node is written at a revision after the latest
  revisions : ∀ id, ∀ p ∈ st.nodes id, p.1 ≤ last.treeRevision

/-- The storage `InitLog` leaves: the root of the empty tree at revision `0`, and nothing else. -/
def initLogStore (now : ℤ) : LogStore α :=
  ⟨[], fun _ => none, fun _ => [], [⟨0, hasher.emptyRoot, 0, now⟩]⟩

theorem logInv_init (now : ℤ) :
    LogInv hasher (initLogStore hasher now) ⟨0, hasher.emptyRoot, 0, now⟩ where
  getLast := rfl
  chain := List.isChain_singleton _
  sequenced i := by simp [initLogStore]
  roots r hr := by
    rw [initLogStore, List.mem_singleton] at hr
    subst hr
    exact ⟨le_rfl, by simp [leafHashes, sequencedLeaves]⟩
  holds l j := by simp [initLogStore, leafHashes, sequencedLeaves, LogTreeTX.nodesAt]
  revisions id p hp := by simp [initLogStore] at hp

variable {hasher} {st st' : LogStore α} {last : SignedLogRoot α}

namespace LogInv

variable (hinv : LogInv hasher st last)
include hinv

theorem mem_roots : last ∈ st.roots := List.mem_of_getLast? hinv.getLast

theorem length_sequencedLeaves : (sequencedLeaves st last.treeSize).length = last.treeSize :=
  Sequencing.length_sequencedLeaves fun i hi => (hinv.sequenced i).mpr hi

theorem length_leafHashes : (leafHashes st last.treeSize).length = last.treeSize := by
  rw [leafHashes, List.length_map, hinv.length_sequencedLeaves]

theorem logRoot_eq : last.logRoot = ⟨(leafHashes st last.treeSize).length,
    mth hasher.hashChildren hasher.emptyRoot (leafHashes st last.treeSize)⟩ := by
  rw [SignedLogRoot.logRoot, hinv.length_leafHashes, (hinv.roots last hinv.mem_roots).2]

theorem isChain_append {r : SignedLogRoot α} (hr : RootStep last r) :
    (st.roots ++ [r]).IsChain RootStep := by
  refine hinv.chain.append (List.isChain_singleton r) fun x hx y hy => ?_
  rw [hinv.getLast, Option.mem_some_iff] at hx
  rw [List.head?_cons, Option.mem_some_iff] at hy
  subst hx hy
  exact hr

theorem withQueue (queue : List (QueuedLeaf α)) : LogInv hasher { st with queue := queue } last :=
  ⟨hinv.getLast, hinv.chain, hinv.sequenced, hinv.roots, hinv.holds, hinv.revisions⟩

theorem length_le_of_perm {queued : List (QueuedLeaf α)}
    (hperm : (st.queue ++ sequencedLeaves st last.treeSize).Perm queued) :
    last.treeSize + st.queue.length = queued.length := by
  rw [← hperm.length_eq, List.length_append, hinv.length_sequencedLeaves, Nat.add_comm]

variable [Inhabited α] [DecidableEq α]

theorem initMerkleTree (hN : last.treeSize ≤ 2 ^ 63) :
    initMerkleTreeFromStorage hasher (LogTreeTX.nodesAt st.nodes last.treeRevision) last.logRoot =
      some (.ok (compactTreeOf hasher (leafHashes st last.treeSize))) := by
  rw [hinv.logRoot_eq]
  refine initMerkleTreeFromStorage_spec hasher hinv.holds ?_
  rw [hinv.length_leafHashes]
  exact hN

/-- `integrate` on a batch numbered from the latest root's size: the batch sequenced above the
leaves before it, and a root over all of them stored at the next revision, with the invariant at
that root. -/
theorem integrate {batch : List (QueuedLeaf α)} {now : ℤ} {faults : Faults} {k : ℕ}
    (hN : last.treeSize + batch.length ≤ 2 ^ 63)
    (h : (Sequencer.integrate hasher last (batch.zipIdx last.treeSize) now faults).run st =
      .ok (k, st')) :
    k = batch.length ∧ st'.queue = st.queue ∧
      st'.sequenced = writeAll st.sequenced ((batch.zipIdx last.treeSize).map fun p => (p.2, p.1)) ∧
      ∃ last', st'.roots = st.roots ++ [last'] ∧ last'.treeSize = last.treeSize + batch.length ∧
        LogInv hasher st' last' := by
  obtain ⟨mt, updated, hbuilt, htree, hk, hqueue, hseq, hnodes, hroots⟩ := Sequencer.integrate_run h
  have hD := hinv.length_leafHashes
  -- the tree rebuilt is the tree of the leaves sequenced
  rw [hinv.initMerkleTree (by omega), Option.some.injEq, Except.ok.injEq] at hbuilt
  subst hbuilt
  -- and the update appends the batch's leaf hashes to it
  obtain ⟨nodeMap, hloop, hholds⟩ := updateCompactTreeLoop_spec hasher
    (LogTreeTX.nodesAt st.nodes last.treeRevision) (batch.map (·.merkleLeafHash))
    (leafHashes st last.treeSize) (fun _ => none) (by simp; omega)
    (by rw [setMerkleNodes, overlay_empty]; exact hinv.holds)
  rw [hD] at hloop
  rw [map_zipIdx_eq_assignLeafIndices, updateCompactTree, hloop, Option.some.injEq,
    Except.ok.injEq] at htree
  subst htree
  have hleaves : leafHashes st' (last.treeSize + batch.length) =
      leafHashes st last.treeSize ++ batch.map (·.merkleLeafHash) := by
    rw [leafHashes, sequencedLeaves_writeAll_zipIdx hseq, List.map_append]
    rfl
  -- the root stored is the hash of the leaves sequenced up to the new size
  have hroots' : st'.roots = st.roots ++ [⟨last.treeSize + batch.length,
      mth hasher.hashChildren hasher.emptyRoot (leafHashes st' (last.treeSize + batch.length)),
      last.treeRevision + 1, now⟩] := by
    rw [hroots, hleaves]
    simp [hD]
  refine ⟨by rw [hk, List.length_zipIdx], hqueue, hseq, _, hroots', rfl, ?_, ?_, ?_, ?_, ?_, ?_⟩
  · rw [hroots', List.getLast?_concat]
  · rw [hroots']
    exact hinv.isChain_append ⟨rfl, Nat.le_add_right _ _⟩
  · -- below the old size the leaves were there, and the batch fills the indices above
    intro i
    dsimp only
    rw [hseq, writeAll_zipIdx]
    split_ifs with hi
    · simp only [Option.isSome_iff_ne_none, ne_eq, List.getElem?_eq_none_iff, not_le]
      omega
    · rw [hinv.sequenced i]
      omega
  · intro r hr
    rw [hroots', List.mem_append, List.mem_singleton] at hr
    rcases hr with hr | rfl
    · -- an older root covers leaves the batch leaves alone
      obtain ⟨hle, hhash⟩ := hinv.roots r hr
      refine ⟨Nat.le_add_right_of_le hle, ?_⟩
      rw [hhash, leafHashes, leafHashes, sequencedLeaves_congr fun i hi => ?_]
      rw [hseq, writeAll_zipIdx, if_neg (by omega)]
    · exact ⟨le_rfl, rfl⟩
  · dsimp only
    rw [hleaves, hnodes, nodesAt_writeNodes hinv.revisions]
    rw [setMerkleNodes] at hholds
    exact hholds
  · rw [hnodes]
    exact revisions_writeNodes hinv.revisions nodeMap

theorem signRoot {now : ℤ} {faults : Faults} {u : Unit} (hN : last.treeSize ≤ 2 ^ 63)
    (h : (Sequencer.signRoot hasher now faults).run st = .ok (u, st')) :
    ∃ last', st' = { st with roots := st.roots ++ [last'] } ∧ last'.treeSize = last.treeSize ∧
      LogInv hasher st' last' := by
  obtain ⟨currentRoot, mt, hlast, hbuilt, rfl⟩ := Sequencer.signRoot_run h
  rw [hinv.getLast, Option.some.injEq] at hlast
  subst hlast
  rw [hinv.initMerkleTree hN, Option.some.injEq, Except.ok.injEq] at hbuilt
  subst hbuilt
  have hsize : (compactTreeOf hasher (leafHashes st last.treeSize)).size = last.treeSize := by
    rw [compactTreeOf_size, hinv.length_leafHashes]
  refine ⟨_, rfl, hsize, List.getLast?_concat, hinv.isChain_append ⟨rfl, hsize.ge⟩, ?_, ?_, ?_, ?_⟩
  · intro i
    rw [hsize]
    exact hinv.sequenced i
  · intro r hr
    rw [List.mem_append, List.mem_singleton] at hr
    rcases hr with hr | rfl
    · rw [hsize]
      exact hinv.roots r hr
    · exact ⟨le_rfl, by rw [compactTreeOf_root, hsize]; rfl⟩
  · -- no node is written, and the next revision reads the nodes as the last did
    rw [hsize]
    show HoldsTree _ _ _ (LogTreeTX.nodesAt st.nodes (last.treeRevision + 1))
    rw [nodesAt_succ hinv.revisions]
    exact hinv.holds
  · exact fun id p hp => (hinv.revisions id p hp).trans (Nat.le_succ _)

/-- A successful `IntegrateBatch`: the leaves it dequeued, in queue order, sequenced at the indices
from the latest root's size on, and the invariant at the latest root after it. -/
theorem integrateBatch {limit guardWindow maxRootDurationInterval now : ℤ} {faults : Faults}
    {k : ℕ} (hN : last.treeSize + st.queue.length ≤ 2 ^ 63)
    (h : (Sequencer.integrateBatch hasher limit guardWindow maxRootDurationInterval now faults).run st =
      .ok (k, st')) :
    ∃ batch : List (QueuedLeaf α), batch.length = k ∧ (batch ++ st'.queue).Perm st.queue ∧
      st'.sequenced = writeAll st.sequenced ((batch.zipIdx last.treeSize).map fun p => (p.2, p.1)) ∧
      st.roots <+: st'.roots ∧ ∃ last', last'.treeSize = last.treeSize + k ∧ LogInv hasher st' last' := by
  obtain ⟨currentRoot, hlast, ⟨rfl, rfl⟩ | hrun⟩ := Sequencer.integrateBatch_run h
  · -- nothing was integrated
    refine ⟨[], rfl, List.Perm.refl _, ?_, List.prefix_refl _, last, rfl, hinv⟩
    rw [List.zipIdx_nil, List.map_nil, writeAll_nil]
  · rw [hinv.getLast, Option.some.injEq] at hlast
    subst hlast
    have hperm : ((dequeue (now - guardWindow) limit.toNat st.queue).1 ++
        (dequeue (now - guardWindow) limit.toNat st.queue).2).Perm st.queue := dequeue_perm _ _
    have hlen := hperm.length_eq
    rw [List.length_append] at hlen
    obtain ⟨hk, hqueue, hseq, last', hroots, hsize, hinv'⟩ :=
      (hinv.withQueue (dequeue (now - guardWindow) limit.toNat st.queue).2).integrate (by omega) hrun
    refine ⟨_, hk.symm, ?_, hseq, ?_, last', by rw [hsize, hk], hinv'⟩
    · rw [hqueue]
      exact hperm
    · rw [hroots]
      exact List.prefix_append _ _

end LogInv

end Invariant

section Calls

/-- A call on the log's storage, each in a transaction of its own. -/
inductive Call (α : Type) where
  | queueLeaves (leaves : List (QueuedLeaf α))
  | integrateBatch (limit guardWindow maxRootDurationInterval now : ℤ) (faults : Faults)
  | signRoot (now : ℤ) (faults : Faults)

/-- The leaves a call queues. -/
def Call.queued : Call α → List (QueuedLeaf α)
  | .queueLeaves leaves => leaves
  | .integrateBatch .. => []
  | .signRoot .. => []

def queuedIn (calls : List (Call α)) : List (QueuedLeaf α) := calls.flatMap Call.queued

variable (hasher : LogHasher α)

/-- The invariant after `calls`: the invariant of storage, and every leaf queued either still
in the queue or sequenced, once. -/
def RunInv (calls : List (Call α)) (st : LogStore α) : Prop :=
  ∃ last, LogInv hasher st last ∧ (st.queue ++ sequencedLeaves st last.treeSize).Perm (queuedIn calls)

theorem runInv_init (now : ℤ) : RunInv hasher [] (initLogStore hasher now) :=
  ⟨_, logInv_init hasher now, by simp [initLogStore, sequencedLeaves, queuedIn]⟩

variable [Inhabited α] [DecidableEq α]

/-- A call, committed if it succeeds: an error leaves storage as it was. -/
def Call.apply : Call α → LogStore α → LogStore α
  | .queueLeaves leaves, st => (atomically (LogTreeTX.queueLeaves leaves) st).2
  | .integrateBatch limit guardWindow maxRootDurationInterval now faults, st =>
    (atomically (Sequencer.integrateBatch hasher limit guardWindow maxRootDurationInterval now faults)
      st).2
  | .signRoot now faults, st => (atomically (Sequencer.signRoot hasher now faults) st).2

/-- The calls, one after another. -/
def runCalls (st : LogStore α) (calls : List (Call α)) : LogStore α :=
  calls.foldl (fun st call => call.apply hasher st) st

variable {hasher}

theorem RunInv.apply {calls : List (Call α)} {st : LogStore α} (hrun : RunInv hasher calls st)
    (call : Call α) (hN : (queuedIn (calls ++ [call])).length ≤ 2 ^ 63) :
    RunInv hasher (calls ++ [call]) (call.apply hasher st) := by
  obtain ⟨last, hinv, hperm⟩ := hrun
  have hqueued : queuedIn (calls ++ [call]) = queuedIn calls ++ call.queued := by
    simp [queuedIn]
  have hsize := hinv.length_le_of_perm hperm
  rw [hqueued, List.length_append] at hN
  rw [RunInv, hqueued]
  cases call with
  | queueLeaves leaves =>
    -- the leaves join the back of the queue
    rw [Call.apply, LogTreeTX.queueLeaves, atomically_of_ok (run_modify _ _)]
    refine ⟨last, hinv.withQueue _, ?_⟩
    calc List.Perm (st.queue ++ leaves ++ sequencedLeaves st last.treeSize)
          (st.queue ++ sequencedLeaves st last.treeSize ++ leaves) := by
          rw [List.append_assoc, List.append_assoc]
          exact List.perm_append_comm.append_left _
      List.Perm _ (queuedIn calls ++ leaves) := hperm.append_right leaves
  | integrateBatch limit guardWindow maxRootDurationInterval now faults =>
    rw [Call.queued, List.append_nil, Call.apply]
    rcases atomically_cases (Sequencer.integrateBatch hasher limit guardWindow
      maxRootDurationInterval now faults) st with hsame | ⟨k, hok⟩
    · rw [hsame]
      exact ⟨last, hinv, hperm⟩
    · -- the batch leaves the queue and is sequenced above the leaves before it
      generalize (atomically _ st).2 = st' at hok ⊢
      obtain ⟨batch, hk, hbatch, hseq, -, last', hsize', hinv'⟩ := hinv.integrateBatch (by omega) hok
      refine ⟨last', hinv', ?_⟩
      rw [hsize', ← hk, sequencedLeaves_writeAll_zipIdx hseq]
      calc List.Perm (st'.queue ++ (sequencedLeaves st last.treeSize ++ batch))
            ((sequencedLeaves st last.treeSize ++ batch) ++ st'.queue) := List.perm_append_comm
        _ = sequencedLeaves st last.treeSize ++ (batch ++ st'.queue) := List.append_assoc _ _ _
        List.Perm _ (sequencedLeaves st last.treeSize ++ st.queue) := hbatch.append_left _
        List.Perm _ (st.queue ++ sequencedLeaves st last.treeSize) := List.perm_append_comm
        List.Perm _ (queuedIn calls) := hperm
  | signRoot now faults =>
    rw [Call.queued, List.append_nil, Call.apply]
    rcases atomically_cases (Sequencer.signRoot hasher now faults) st with hsame | ⟨u, hok⟩
    · rw [hsame]
      exact ⟨last, hinv, hperm⟩
    · -- only a root is stored
      generalize (atomically _ st).2 = st' at hok ⊢
      obtain ⟨last', hst', hsize', hinv'⟩ := hinv.signRoot (by omega) hok
      refine ⟨last', hinv', ?_⟩
      rw [hst', hsize']
      exact hperm

theorem runInv_runCalls (now : ℤ) (calls : List (Call α)) (hN : (queuedIn calls).length ≤ 2 ^ 63) :
    RunInv hasher calls (runCalls hasher (initLogStore hasher now) calls) := by
  -- the run grows at its end, and a prefix of it queues no more leaves
  induction calls using List.reverseRecOn with
  | nil => exact runInv_init hasher now
  | append_singleton calls call ih =>
    have hle : (queuedIn calls).length ≤ (queuedIn (calls ++ [call])).length := by
      simp [queuedIn]
    rw [runCalls, List.foldl_append, List.foldl_cons, List.foldl_nil]
    exact (ih (hle.trans hN)).apply call hN

/-- Over every run from an initialised log that queues at most `2^63` leaves: the stored roots go
up one revision at a time and never shrink, and each is the Merkle tree hash of the leaves
sequenced below its size, all of them present; every leaf queued is in the queue or sequenced,
once; and a successful `IntegrateBatch` next takes `k` leaves off the queue and sequences them at
`S, …, S + k - 1` after the latest size `S`, changing no other index. -/
theorem runCalls_keeps_signed_roots (hasher : LogHasher α) (now₀ : ℤ) (calls : List (Call α))
    (hN : (queuedIn calls).length ≤ 2 ^ 63) :
    let st := runCalls hasher (initLogStore hasher now₀) calls
    st.roots.IsChain RootStep ∧
    (∀ r ∈ st.roots, (∀ i < r.treeSize, (st.sequenced i).isSome) ∧
      r.rootHash = mth hasher.hashChildren hasher.emptyRoot (leafHashes st r.treeSize)) ∧
    ∃ last, st.roots.getLast? = some last ∧
      (st.queue ++ sequencedLeaves st last.treeSize).Perm (queuedIn calls) ∧
      ∀ limit guardWindow maxRootDurationInterval now faults k st',
        (Sequencer.integrateBatch hasher limit guardWindow maxRootDurationInterval now faults).run st =
          .ok (k, st') →
        ∃ batch : List (QueuedLeaf α), batch.length = k ∧ (batch ++ st'.queue).Perm st.queue ∧
          (∀ i, st'.sequenced i = if last.treeSize ≤ i ∧ i < last.treeSize + k
            then batch[i - last.treeSize]? else st.sequenced i) ∧
          st.roots <+: st'.roots ∧
          ∃ last', st'.roots.getLast? = some last' ∧ last'.treeSize = last.treeSize + k := by
  intro st
  obtain ⟨last, hinv, hperm⟩ := runInv_runCalls now₀ calls hN
  refine ⟨hinv.chain, fun r hr => ?_, last, hinv.getLast, hperm, ?_⟩
  · obtain ⟨hle, hhash⟩ := hinv.roots r hr
    exact ⟨fun i hi => (hinv.sequenced i).mpr (by omega), hhash⟩
  · intro limit guardWindow maxRootDurationInterval now faults k st' h
    -- the queue and the leaves sequenced are the leaves queued, so the batch fits under `2^63`
    have hsize : last.treeSize + st.queue.length ≤ 2 ^ 63 := by
      rw [hinv.length_le_of_perm hperm]
      exact hN
    obtain ⟨batch, hk, hbatch, hseq, hprefix, last', hsize', hinv'⟩ := hinv.integrateBatch hsize h
    refine ⟨batch, hk, hbatch, fun i => ?_, hprefix, last', hinv'.getLast, hsize'⟩
    rw [hseq, writeAll_zipIdx, hk]

theorem runCalls_keeps_signed_roots_queue_integrate_sign :
    (queuedIn [Call.queueLeaves [⟨5, 0⟩, ⟨7, 3⟩],
      .integrateBatch 10 0 0 5 ⟨none, none, none, none, none, none⟩,
      .signRoot 6 ⟨none, none, none, none, none, none⟩]).length ≤ 2 ^ 63 ∧
    (runCalls (⟨1, fun _ => .ok 0, (· + ·)⟩ : LogHasher ℕ)
      (initLogStore ⟨1, fun _ => .ok 0, (· + ·)⟩ 0)
      [.queueLeaves [⟨5, 0⟩, ⟨7, 3⟩], .integrateBatch 10 0 0 5 ⟨none, none, none, none, none, none⟩,
        .signRoot 6 ⟨none, none, none, none, none, none⟩]).roots.IsChain RootStep ∧
    ∃ r ∈ (runCalls (⟨1, fun _ => .ok 0, (· + ·)⟩ : LogHasher ℕ)
      (initLogStore ⟨1, fun _ => .ok 0, (· + ·)⟩ 0)
      [.queueLeaves [⟨5, 0⟩, ⟨7, 3⟩], .integrateBatch 10 0 0 5 ⟨none, none, none, none, none, none⟩,
        .signRoot 6 ⟨none, none, none, none, none, none⟩]).roots, r.treeSize = 2 ∧
      r.rootHash = mth (· + ·) 1 (leafHashes (runCalls (⟨1, fun _ => .ok 0, (· + ·)⟩ : LogHasher ℕ)
        (initLogStore ⟨1, fun _ => .ok 0, (· + ·)⟩ 0)
        [.queueLeaves [⟨5, 0⟩, ⟨7, 3⟩], .integrateBatch 10 0 0 5 ⟨none, none, none, none, none, none⟩,
          .signRoot 6 ⟨none, none, none, none, none, none⟩]) 2) := by
  have hrun := runCalls_keeps_signed_roots ⟨1, fun _ => .ok 0, (· + ·)⟩ 0
    [.queueLeaves [⟨5, 0⟩, ⟨7, 3⟩], .integrateBatch 10 0 0 5 ⟨none, none, none, none, none, none⟩,
      .signRoot 6 ⟨none, none, none, none, none, none⟩] (by decide)
  -- the run stores the empty root, the root of the batch of two, and its re-signing
  have hsizes : ((runCalls (⟨1, fun _ => .ok 0, (· + ·)⟩ : LogHasher ℕ)
      (initLogStore ⟨1, fun _ => .ok 0, (· + ·)⟩ 0)
      [.queueLeaves [⟨5, 0⟩, ⟨7, 3⟩], .integrateBatch 10 0 0 5 ⟨none, none, none, none, none, none⟩,
        .signRoot 6 ⟨none, none, none, none, none, none⟩]).roots.map (·.treeSize)) = [0, 2, 2] := by
    decide +kernel
  have hmem : 2 ∈ ((runCalls (⟨1, fun _ => .ok 0, (· + ·)⟩ : LogHasher ℕ)
      (initLogStore ⟨1, fun _ => .ok 0, (· + ·)⟩ 0)
      [.queueLeaves [⟨5, 0⟩, ⟨7, 3⟩], .integrateBatch 10 0 0 5 ⟨none, none, none, none, none, none⟩,
        .signRoot 6 ⟨none, none, none, none, none, none⟩]).roots.map (·.treeSize)) := by
    rw [hsizes]
    simp
  obtain ⟨r, hr, hr2⟩ := List.mem_map.mp hmem
  refine ⟨by decide, hrun.1, r, hr, hr2, ?_⟩
  rw [← hr2]
  exact (hrun.2.1 r hr).2

end Calls

section AppendOnly

variable {hasher : LogHasher α}

theorem LogInv.unique {st : LogStore α} {a b : SignedLogRoot α} (ha : LogInv hasher st a)
    (hb : LogInv hasher st b) : a = b :=
  Option.some.inj (ha.getLast.symm.trans hb.getLast)

variable [Inhabited α] [DecidableEq α]

theorem runCalls_append (st : LogStore α) (calls₁ calls₂ : List (Call α)) :
    runCalls hasher st (calls₁ ++ calls₂) = runCalls hasher (runCalls hasher st calls₁) calls₂ :=
  List.foldl_append

/-- One call from the invariant keeps every root stored and every leaf below the latest size,
and does not lower the latest size. -/
theorem LogInv.apply {st : LogStore α} {last : SignedLogRoot α} (hinv : LogInv hasher st last)
    (call : Call α) (hN : last.treeSize + st.queue.length ≤ 2 ^ 63) :
    st.roots <+: (call.apply hasher st).roots ∧
      (∀ i < last.treeSize, (call.apply hasher st).sequenced i = st.sequenced i) ∧
      ∃ last', last.treeSize ≤ last'.treeSize ∧ LogInv hasher (call.apply hasher st) last' := by
  cases call with
  | queueLeaves leaves =>
    rw [Call.apply, LogTreeTX.queueLeaves, atomically_of_ok (run_modify _ _)]
    exact ⟨List.prefix_refl _, fun _ _ => rfl, last, le_rfl, hinv.withQueue _⟩
  | integrateBatch limit guardWindow maxRootDurationInterval now faults =>
    rw [Call.apply]
    rcases atomically_cases (Sequencer.integrateBatch hasher limit guardWindow
      maxRootDurationInterval now faults) st with hsame | ⟨k, hok⟩
    · rw [hsame]
      exact ⟨List.prefix_refl _, fun _ _ => rfl, last, le_rfl, hinv⟩
    · -- the batch is written above the latest size
      generalize (atomically _ st).2 = st' at hok ⊢
      obtain ⟨batch, -, -, hseq, hroots, last', hsize, hinv'⟩ := hinv.integrateBatch hN hok
      refine ⟨hroots, fun i hi => ?_, last', by omega, hinv'⟩
      rw [hseq, writeAll_zipIdx, if_neg (by omega)]
  | signRoot now faults =>
    rw [Call.apply]
    rcases atomically_cases (Sequencer.signRoot hasher now faults) st with hsame | ⟨u, hok⟩
    · rw [hsame]
      exact ⟨List.prefix_refl _, fun _ _ => rfl, last, le_rfl, hinv⟩
    · -- only a root is stored
      generalize (atomically _ st).2 = st' at hok ⊢
      obtain ⟨last', hst', hsize, hinv'⟩ := hinv.signRoot (by omega) hok
      subst hst'
      exact ⟨List.prefix_append _ _, fun _ _ => rfl, last', hsize.ge, hinv'⟩

/-- The log is append-only over every run from an initialised log that queues at most `2^63`
leaves: after more calls, every root stored before is still stored, and the leaves below its size
are the leaves it was signed over. -/
theorem runCalls_append_only (hasher : LogHasher α) (now₀ : ℤ) (calls₁ calls₂ : List (Call α))
    (hN : (queuedIn (calls₁ ++ calls₂)).length ≤ 2 ^ 63) :
    let st₁ := runCalls hasher (initLogStore hasher now₀) calls₁
    let st₂ := runCalls hasher (initLogStore hasher now₀) (calls₁ ++ calls₂)
    st₁.roots <+: st₂.roots ∧
      ∀ r ∈ st₁.roots, sequencedLeaves st₂ r.treeSize = sequencedLeaves st₁ r.treeSize := by
  intro st₁ st₂
  have hqueued : ∀ cs, cs <+: calls₂ →
      (queuedIn (calls₁ ++ cs)).length ≤ (queuedIn (calls₁ ++ calls₂)).length := by
    rintro cs ⟨rest, rfl⟩
    simp [queuedIn]
  obtain ⟨last₁, hinv₁, -⟩ := runInv_runCalls now₀ calls₁
    (le_trans (by simpa using hqueued [] (List.nil_prefix)) hN)
  -- over the calls after the first ones: the invariant, a latest size at least the first one,
  -- the first roots, and the first leaves
  have hrun : ∀ cs, cs <+: calls₂ → ∃ last, LogInv hasher (runCalls hasher st₁ cs) last ∧
      last₁.treeSize ≤ last.treeSize ∧ st₁.roots <+: (runCalls hasher st₁ cs).roots ∧
      ∀ i < last₁.treeSize, (runCalls hasher st₁ cs).sequenced i = st₁.sequenced i := by
    intro cs hcs
    induction cs using List.reverseRecOn with
    | nil => exact ⟨last₁, hinv₁, le_rfl, List.prefix_refl _, fun _ _ => rfl⟩
    | append_singleton cs call ih =>
      obtain ⟨last, hinv, hle, hpre, hseq⟩ := ih ((List.prefix_append cs [call]).trans hcs)
      -- the leaves queued so far bound the queue and the tree
      obtain ⟨last', hinv', hperm⟩ := runInv_runCalls now₀ (calls₁ ++ cs)
        (le_trans (hqueued cs ((List.prefix_append cs [call]).trans hcs)) hN)
      rw [runCalls_append] at hinv' hperm
      obtain rfl := hinv'.unique hinv
      have hbound : last'.treeSize + (runCalls hasher st₁ cs).queue.length ≤ 2 ^ 63 := by
        rw [hinv'.length_le_of_perm hperm]
        exact le_trans (hqueued cs ((List.prefix_append cs [call]).trans hcs)) hN
      obtain ⟨hpre', hseq', last'', hle', hinv''⟩ := hinv'.apply call hbound
      rw [runCalls_append, runCalls, List.foldl_cons, List.foldl_nil]
      exact ⟨last'', hinv'', hle.trans hle', hpre.trans hpre',
        fun i hi => (hseq' i (by omega)).trans (hseq i hi)⟩
  obtain ⟨last, -, -, hpre, hseq⟩ := hrun calls₂ (List.prefix_refl _)
  have hst₂ : st₂ = runCalls hasher st₁ calls₂ := runCalls_append _ _ _
  rw [hst₂]
  refine ⟨hpre, fun r hr => sequencedLeaves_congr fun i hi => hseq i ?_⟩
  exact lt_of_lt_of_le hi (hinv₁.roots r hr).1

theorem runCalls_append_only_two_batches :
    (queuedIn ([Call.queueLeaves [⟨5, 0⟩], .integrateBatch 10 0 0 5 ⟨none, none, none, none, none, none⟩] ++
      [.queueLeaves [⟨7, 6⟩], .integrateBatch 10 0 0 9 ⟨none, none, none, none, none, none⟩])).length ≤
        2 ^ 63 ∧
    (runCalls (⟨1, fun _ => .ok 0, (· + ·)⟩ : LogHasher ℕ) (initLogStore ⟨1, fun _ => .ok 0, (· + ·)⟩ 0)
      [.queueLeaves [⟨5, 0⟩], .integrateBatch 10 0 0 5 ⟨none, none, none, none, none, none⟩]).roots <+:
    (runCalls (⟨1, fun _ => .ok 0, (· + ·)⟩ : LogHasher ℕ) (initLogStore ⟨1, fun _ => .ok 0, (· + ·)⟩ 0)
      ([.queueLeaves [⟨5, 0⟩], .integrateBatch 10 0 0 5 ⟨none, none, none, none, none, none⟩] ++
        [.queueLeaves [⟨7, 6⟩], .integrateBatch 10 0 0 9 ⟨none, none, none, none, none, none⟩])).roots :=
  ⟨by decide, (runCalls_append_only ⟨1, fun _ => .ok 0, (· + ·)⟩ 0
    [.queueLeaves [⟨5, 0⟩], .integrateBatch 10 0 0 5 ⟨none, none, none, none, none, none⟩]
    [.queueLeaves [⟨7, 6⟩], .integrateBatch 10 0 0 9 ⟨none, none, none, none, none, none⟩]
    (by decide)).1⟩

end AppendOnly

end Sequencing

end Trillian
