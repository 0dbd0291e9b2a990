import Mathlib

/-! The in-memory log storage of `storage/memory` over any `btree.BTree` that keeps its
documented contract. `Clone` does not copy what the items under `unseqKey` and `hashToSeqKey`
point to, so the queue and the hash index are fields of `Tree`, written at once, as is
`currentSTH`. Go's panics are `none`; the subtree table is left out. -/

namespace Trillian

namespace Memory

/-- `trillian.LogLeaf`, with the fields the memory storage reads. -/
structure LogLeaf where
  merkleLeafHash : List UInt8
  leafIdentityHash : List UInt8
  leafIndex : ℤ
  deriving DecidableEq, Repr

/-- `trillian.SignedLogRoot`, with the fields the memory storage reads. -/
structure SignedLogRoot where
  timestampNanos : ℤ
  treeRevision : ℤ
  deriving DecidableEq, Repr

/-- The value of an item of the btree: a sequenced leaf, or a signed log root. -/
inductive Item where
  | leaf (l : LogLeaf)
  | root (r : SignedLogRoot)
  deriving DecidableEq, Repr

/-- The `btree.BTree` of `github.com/google/btree`, which the storage imports and the repository
does not hold: the calls the storage makes on a tree `T` of `kv` items, which `Less` orders by key.
`descendRange t lessOrEqual greaterThan` is the list of items the iterator visits. -/
class BTree (T : Type) where
  new : T
  get : T → String → Option Item
  replaceOrInsert : T → String → Item → T
  clone : T → T
  descendRange : T → String → String → List (Σ _ : String, Item)

/-- What the package documents of those calls, the hypotheses the storage's theorems rest on:
`Clone` gives a tree with the same items, and `DescendRange` visits the items in
`(greaterThan, lessOrEqual]`, in descending order. -/
class LawfulBTree (T : Type) [BTree T] : Prop where
  get_new (k : String) : BTree.get (BTree.new : T) k = none
  get_replaceOrInsert (t : T) (k : String) (v : Item) (k' : String) :
    BTree.get (BTree.replaceOrInsert t k v) k' = if k' = k then some v else BTree.get t k'
  get_clone (t : T) (k : String) : BTree.get (BTree.clone t) k = BTree.get t k
  mem_descendRange (t : T) (lessOrEqual greaterThan : String) (e : Σ _ : String, Item) :
    e ∈ BTree.descendRange t lessOrEqual greaterThan ↔
      greaterThan < e.1 ∧ e.1 ≤ lessOrEqual ∧ BTree.get t e.1 = some e.2
  descendRange_sorted (t : T) (lessOrEqual greaterThan : String) :
    (BTree.descendRange t lessOrEqual greaterThan).Pairwise fun a b => b.1 < a.1

variable {T : Type} [BTree T]

/-- `storage.ErrTreeNeedsInit`, as `Error()` prints it. -/
def errTreeNeedsInit : String := "rpc error: code = FailedPrecondition desc = tree needs initialising"

def maxInt64 : ℤ := 2 ^ 63 - 1

/-- `fmt.Sprintf("%020d", n)`: at least 20 characters, with zeros between the sign and the
digits. -/
def pad20 (n : ℤ) : String :=
  let sign := if n < 0 then "-" else ""
  let digits := toString n.natAbs
  sign ++ String.ofList (List.replicate (20 - sign.length - digits.length) '0') ++ digits

def seqLeafKey (treeID seq : ℤ) : String :=
  let p := pad20 seq
  s!"/{treeID}/seq/{p}"

def sthKey (treeID timestamp : ℤ) : String :=
  let p := pad20 timestamp
  s!"/{treeID}/sth/{p}"

/-- `string(rune(i))`: the UTF-8 bytes of the code point `i`, or of U+FFFD if `i` is not one. -/
def runeString (i : ℕ) : List UInt8 :=
  let r := if i < 0xD800 ∨ (0xDFFF < i ∧ i ≤ 0x10FFFF) then i else 0xFFFD
  if r < 0x80 then [r.toUInt8]
  else if r < 0x800 then [(0xC0 ||| r >>> 6).toUInt8, (0x80 ||| r &&& 0x3F).toUInt8]
  else if r < 0x10000 then
    [(0xE0 ||| r >>> 12).toUInt8, (0x80 ||| (r >>> 6) &&& 0x3F).toUInt8, (0x80 ||| r &&& 0x3F).toUInt8]
  else
    [(0xF0 ||| r >>> 18).toUInt8, (0x80 ||| (r >>> 12) &&& 0x3F).toUInt8,
      (0x80 ||| (r >>> 6) &&& 0x3F).toUInt8, (0x80 ||| r &&& 0x3F).toUInt8]

/-- `%x` of a number. -/
def hexNat (n : ℕ) : String := String.ofList (Nat.toDigits 16 n)

/-- `%x` of a byte string: two hex digits a byte. -/
def hexBytes (b : List UInt8) : String :=
  String.join (b.map fun x => hexNat (x.toNat / 16) ++ hexNat (x.toNat % 16))

/-- The map from Merkle leaf hash to a count that `UpdateSequencedLeaves` keeps. -/
abbrev Counts := AList fun _ : List UInt8 => ℕ

/-- `%x` of a `map[string]int`: its entries in the order of their keys. -/
def hexCounts (counts : Counts) : String :=
  let sorted := counts.entries.mergeSort fun a b => a.1.map UInt8.toNat ≤ b.1.map UInt8.toNat
  let entries := sorted.map fun e => hexBytes e.1 ++ ":" ++ hexNat e.2
  "map[" ++ " ".intercalate entries ++ "]"

/-- `tree`: the btree, and what its items point to. `queue` is the `list.List` under `unseqKey`
and `hashToSeq` the map under `hashToSeqKey`; every clone of `store` shares them. -/
structure Tree (T : Type) where
  store : T
  queue : List LogLeaf
  hashToSeq : AList fun _ : List UInt8 => List ℤ
  currentSTH : ℤ

/-- `newTree`: an empty queue and an empty hash index. -/
def newTree : Tree T := ⟨BTree.new, [], ∅, 0⟩

/-- `logTreeTX`, with its `treeTX`: the clone `tx` of the tree's btree, and the tree. -/
structure LogTreeTX (T : Type) where
  tx : T
  tree : Tree T
  treeID : ℤ
  hashSizeBytes : ℕ
  writeRevision : ℤ
  root : SignedLogRoot

namespace LogTreeTX

/-- The loop body `GetLeavesByIndex`, `GetLeavesByRange` and `GetLeavesByHash` share: the leaves
stored under the sequence numbers, skipping the missing ones. -/
def leavesAt (t : LogTreeTX T) : List ℤ → Option (List LogLeaf)
  | [] => some []
  | seq :: seqs =>
    match BTree.get t.tx (seqLeafKey t.treeID seq) with
    | none => t.leavesAt seqs
    | some (.leaf l) => (t.leavesAt seqs).map (l :: ·)
    -- the type assertion to `*trillian.LogLeaf` panics
    | some (.root _) => none

/-- `DequeueLeaves`: the first `limit` leaves of the queue, which stay queued. -/
def dequeueLeaves (t : LogTreeTX T) (limit : ℤ) : Option (List LogLeaf) :=
  -- make([]*trillian.LogLeaf, 0, limit) panics on a negative limit
  if limit < 0 then none else some (t.tree.queue.take limit.toNat)

/-- `QueueLeaves`: the leaves join the queue the tree shares. -/
def queueLeaves (t : LogTreeTX T) (leaves : List LogLeaf) : Except String (List LogLeaf) × LogTreeTX T :=
  -- Don't accept batches if any of the leaves are invalid.
  if leaves.any fun leaf => leaf.leafIdentityHash.length ≠ t.hashSizeBytes then
    let n := t.hashSizeBytes
    (.error s!"queued leaf must have a leaf ID hash of length {n}", t)
  else
    -- No deduping in this storage!
    (.ok [], { t with tree := { t.tree with queue := t.tree.queue ++ leaves } })

/-- `GetSequencedLeafCount`: one more than the index of the first item `DescendRange` visits. -/
def getSequencedLeafCount (t : LogTreeTX T) : Option ℤ :=
  match BTree.descendRange t.tx (seqLeafKey t.treeID maxInt64) (seqLeafKey t.treeID 0) with
  | [] => some 0
  | ⟨_, .leaf l⟩ :: _ => some ((l.leafIndex + 1).bmod (2 ^ 64))
  | ⟨_, .root _⟩ :: _ => none

def getLeavesByIndex (t : LogTreeTX T) (leaves : List ℤ) : Option (List LogLeaf) := t.leavesAt leaves

/-- `GetLeavesByRange`: the leaves at `start + i` for `i < count`. -/
def getLeavesByRange (t : LogTreeTX T) (start count : ℤ) : Option (List LogLeaf) :=
  -- make([]*trillian.LogLeaf, 0, count) panics on a negative count
  if count < 0 then none
  else t.leavesAt ((List.range count.toNat).map fun i => (start + i).bmod (2 ^ 64))

/-- `GetLeavesByHash`. `for hash := range leafHashes` ranges over the indices of `leafHashes`,
and `string(hash)` of an index is the UTF-8 encoding of that code point. -/
def getLeavesByHash (t : LogTreeTX T) (leafHashes : List (List UInt8)) (_orderBySequence : Bool) :
    Option (List LogLeaf) :=
  let seqs := (List.range leafHashes.length).map fun hash =>
    (t.tree.hashToSeq.lookup (runeString hash)).getD []
  (seqs.mapM t.leavesAt).map List.flatten

def latestSignedLogRoot (t : LogTreeTX T) : SignedLogRoot := t.root

/-- `StoreSignedLogRoot`: the root goes to the clone, and `currentSTH` of the tree moves at once
(the source's TODO: "this breaks the transactional model"). -/
def storeSignedLogRoot (t : LogTreeTX T) (root : SignedLogRoot) : LogTreeTX T :=
  { t with
    tx := BTree.replaceOrInsert t.tx (sthKey t.treeID root.timestampNanos) (.root root)
    tree := { t.tree with
      currentSTH := if root.timestampNanos > t.tree.currentSTH then root.timestampNanos
        else t.tree.currentSTH } }

end LogTreeTX

/-- The first loop of `UpdateSequencedLeaves`: each leaf is counted by its Merkle hash, stored in
the clone under its index, and its index appended to the hash index. A leaf with an identity hash
of the wrong size stops the loop with an error, after what the leaves before it did. -/
def sequenceLeaves (treeID : ℤ) (hashSizeBytes : ℕ) :
    List LogLeaf → Counts → T → (AList fun _ : List UInt8 => List ℤ) →
      Option String × Counts × T × (AList fun _ : List UInt8 => List ℤ)
  | [], counts, tx, m => (none, counts, tx, m)
  | leaf :: leaves, counts, tx, m =>
    let got := leaf.leafIdentityHash.length
    if got ≠ hashSizeBytes then
      (some s!"sequenced leaf has incorrect hash size: got {got}, want {hashSizeBytes}", counts, tx, m)
    else
      let mh := leaf.merkleLeafHash
      let counts := counts.insert mh ((counts.lookup mh).getD 0 + 1)
      let tx := BTree.replaceOrInsert tx (seqLeafKey treeID leaf.leafIndex) (.leaf leaf)
      let m := m.insert mh ((m.lookup mh).getD [] ++ [leaf.leafIndex])
      sequenceLeaves treeID hashSizeBytes leaves counts tx m

/-- The second loop of `UpdateSequencedLeaves`, from the front of the queue while some count is
left: a queued leaf whose Merkle hash has a count is removed and the count taken down, and a count
that reaches zero is deleted. -/
def removeQueued : List LogLeaf → Counts → List LogLeaf × Counts
  | [], counts => ([], counts)
  | e :: q, counts =>
    if counts.entries = [] then (e :: q, counts)
    else
      let mh := e.merkleLeafHash
      match counts.lookup mh with
      | some (c + 1) =>
        let counts := if c = 0 then counts.erase mh else counts.insert mh c
        removeQueued q counts
      | _ =>
        let (q, counts) := removeQueued q counts
        (e :: q, counts)

namespace LogTreeTX

def updateSequencedLeaves (t : LogTreeTX T) (leaves : List LogLeaf) : Except String Unit × LogTreeTX T :=
  let (err, counts, tx, m) := sequenceLeaves t.treeID t.hashSizeBytes leaves ∅ t.tx t.tree.hashToSeq
  let t := { t with tx := tx, tree := { t.tree with hashToSeq := m } }
  match err with
  | some e => (.error e, t)
  | none =>
    let (q, counts) := removeQueued t.tree.queue counts
    let t := { t with tree := { t.tree with queue := q } }
    let unknown := counts.entries.length
    if unknown ≠ 0 then
      let x := hexCounts counts
      (.error s!"attempted to update {unknown} unknown leaves: {x}", t)
    else (.ok (), t)

/-- `Commit`: the tree takes the clone. The subtree cache's flush is left out. -/
def commit (t : LogTreeTX T) : Tree T := { t.tree with store := t.tx }

end LogTreeTX

/-- `beginInternal`: a clone of the tree's btree and the root stored at `currentSTH`. Without one,
the error is `ErrTreeNeedsInit` and the transaction has no write revision. -/
def beginInternal (tree : Tree T) (treeID : ℤ) (hashSizeBytes : ℕ) :
    Option (LogTreeTX T × Option String) :=
  let ltx : LogTreeTX T := ⟨BTree.clone tree.store, tree, treeID, hashSizeBytes, -1, ⟨0, 0⟩⟩
  -- fetchLatestRoot
  match BTree.get ltx.tx (sthKey treeID tree.currentSTH) with
  | none => some (ltx, some errTreeNeedsInit)
  | some (.root r) => some ({ ltx with root := r, writeRevision := r.treeRevision + 1 }, none)
  -- the type assertion to `trillian.SignedLogRoot` panics
  | some (.leaf _) => none

/-- A call a `LogTXFunc` makes on its transaction that can write: the reads write nothing. -/
inductive TxCall where
  | queueLeaves (leaves : List LogLeaf)
  | updateSequencedLeaves (leaves : List LogLeaf)
  | storeSignedLogRoot (root : SignedLogRoot)

/-- A `LogTXFunc`: it makes its calls in order and returns the first error one of them returns;
if none does, it returns `err`. -/
structure LogTXFunc where
  calls : List TxCall
  err : Option String

namespace LogTreeTX

/-- One call of a `LogTXFunc`. -/
def call (t : LogTreeTX T) : TxCall → Except String Unit × LogTreeTX T
  | .queueLeaves leaves =>
    let r := t.queueLeaves leaves
    (r.1.map fun _ => (), r.2)
  | .updateSequencedLeaves leaves => t.updateSequencedLeaves leaves
  | .storeSignedLogRoot root => (.ok (), t.storeSignedLogRoot root)

/-- The calls of a `LogTXFunc` in order, up to the first that returns an error. -/
def runCalls (t : LogTreeTX T) : List TxCall → Except String Unit × LogTreeTX T
  | [] => (.ok (), t)
  | c :: cs =>
    match t.call c with
    | (.error e, t') => (.error e, t')
    | (.ok (), t') => t'.runCalls cs

/-- A `LogTXFunc` run on the transaction: its calls, then the error it returns of its own. -/
def runFunc (t : LogTreeTX T) (f : LogTXFunc) : Except String Unit × LogTreeTX T :=
  match t.runCalls f.calls with
  | (.error e, t') => (.error e, t')
  | (.ok (), t') =>
    match f.err with
    | some e => (.error e, t')
    | none => (.ok (), t')

end LogTreeTX

/-- `ReadWriteTransaction`: `f` on a new transaction, committed if it returns no error. On an
error, `Close` rolls the transaction back: its clone is dropped, and the tree keeps what `f` wrote
to the objects the clone shares. `ErrTreeNeedsInit` from `beginInternal` is let through. -/
def readWriteTransaction (tree : Tree T) (treeID : ℤ) (hashSizeBytes : ℕ) (f : LogTXFunc) :
    Option (Except String Unit × Tree T) :=
  (beginInternal tree treeID hashSizeBytes).map fun (ltx, _) =>
    match ltx.runFunc f with
    | (.error e, t) => (.error e, t.tree)
    | (.ok (), t) => (.ok (), t.commit)

/-- `trillian.QueuedLogLeaf`: the leaf, and the status of a duplicate. -/
structure QueuedLogLeaf where
  leaf : LogLeaf
  status : Option String

/-- `memoryLogStorage.QueueLeaves`: the leaves queued in a transaction of their own. The result
has an entry per leaf, but the loop that fills it runs over what `logTreeTX.QueueLeaves` returns,
which is empty: every entry stays nil. -/
def queueLeaves (tree : Tree T) (treeID : ℤ) (hashSizeBytes : ℕ) (leaves : List LogLeaf) :
    Option (Except String (List (Option QueuedLogLeaf)) × Tree T) :=
  (beginInternal tree treeID hashSizeBytes).map fun (ltx, err) =>
    match err with
    | some e => (.error e, tree)
    | none =>
      match ltx.queueLeaves leaves with
      | (.error e, t) => (.error e, t.tree)
      | (.ok existing, t) =>
        let ret := (List.range leaves.length).map fun i =>
          match existing[i]? with
          | none => none
          | some e => some ⟨e, some "leaf already exists"⟩
        (.ok ret, t.commit)

/-- `SnapshotForTree`: a read-only transaction, which the reads run on. -/
def snapshotForTree (tree : Tree T) (treeID : ℤ) (hashSizeBytes : ℕ) :
    Option (LogTreeTX T × Option String) :=
  beginInternal tree treeID hashSizeBytes

namespace BTree

variable [LawfulBTree T]

theorem descendRange_eq_nil {t : T} {lessOrEqual greaterThan : String}
    (h : ∀ k, greaterThan < k → k ≤ lessOrEqual → get t k = none) :
    descendRange t lessOrEqual greaterThan = [] := by
  rw [List.eq_nil_iff_forall_not_mem]
  intro e he
  obtain ⟨hlo, hhi, hget⟩ := (LawfulBTree.mem_descendRange t lessOrEqual greaterThan e).mp he
  rw [h e.1 hlo hhi] at hget
  contradiction

end BTree

theorem seqLeafKey_ne_sthKey (treeID a b : ℤ) : seqLeafKey treeID a ≠ sthKey treeID b := by
  intro h
  -- the keys part after `/treeID/`, at `seq` and `sth`
  have hlist := congrArg String.toList h
  have hseq : (toString "/seq/").toList = ['/', 's', 'e', 'q', '/'] := rfl
  have hsth : (toString "/sth/").toList = ['/', 's', 't', 'h', '/'] := rfl
  simp [seqLeafKey, sthKey, hseq, hsth] at hlist

theorem removeQueued_of_entries_eq_nil (q : List LogLeaf) {counts : Counts} (h : counts.entries = []) :
    removeQueued q counts = (q, counts) := by
  cases q with
  | nil => rfl
  | cons e q => simp [removeQueued, h]

theorem removeQueued_singleton (leaf : LogLeaf) (q : List LogLeaf) :
    removeQueued (leaf :: q) (AList.singleton leaf.merkleLeafHash 1) = (q, ∅) := by
  have herase : (AList.singleton leaf.merkleLeafHash 1 : Counts).erase leaf.merkleLeafHash = ∅ := by
    apply AList.ext
    simp [AList.erase, AList.singleton_entries, List.kerase_cons_eq]
  have hlookup : (AList.singleton leaf.merkleLeafHash 1 : Counts).lookup leaf.merkleLeafHash = some 1 := by
    rw [← AList.insert_empty, AList.lookup_insert]
  simp [removeQueued, AList.singleton_entries, hlookup, herase, removeQueued_of_entries_eq_nil q AList.empty_entries]

namespace LogTreeTX

omit [BTree T] in
theorem queueLeaves_of_valid (t : LogTreeTX T) {leaves : List LogLeaf}
    (h : ∀ l ∈ leaves, l.leafIdentityHash.length = t.hashSizeBytes) :
    t.queueLeaves leaves = (.ok [], { t with tree := { t.tree with queue := t.tree.queue ++ leaves } }) := by
  have hvalid : (leaves.any fun leaf => leaf.leafIdentityHash.length ≠ t.hashSizeBytes) = false := by
    simpa using h
  rw [queueLeaves, hvalid]
  rfl

/-- `UpdateSequencedLeaves` of the leaf at the head of the queue stores it under its index, adds
the index to the hash index, and takes the leaf off the queue. -/
theorem updateSequencedLeaves_head (t : LogTreeTX T) {leaf : LogLeaf} {q : List LogLeaf}
    (hq : t.tree.queue = leaf :: q) (hsize : leaf.leafIdentityHash.length = t.hashSizeBytes) :
    t.updateSequencedLeaves [leaf] =
      (.ok (), { t with
        tx := BTree.replaceOrInsert t.tx (seqLeafKey t.treeID leaf.leafIndex) (.leaf leaf)
        tree := { t.tree with
          queue := q
          hashToSeq := t.tree.hashToSeq.insert leaf.merkleLeafHash
            ((t.tree.hashToSeq.lookup leaf.merkleLeafHash).getD [] ++ [leaf.leafIndex]) } }) := by
  simp [updateSequencedLeaves, sequenceLeaves, hsize, AList.insert_empty, hq, removeQueued_singleton]

end LogTreeTX

section Begin

variable {tree : Tree T} {treeID : ℤ} {n : ℕ}

theorem beginInternal_of_root [LawfulBTree T] (tree : Tree T) {r : SignedLogRoot}
    (h : BTree.get tree.store (sthKey treeID tree.currentSTH) = some (.root r)) :
    beginInternal tree treeID n =
      some (⟨BTree.clone tree.store, tree, treeID, n, r.treeRevision + 1, r⟩, none) := by
  simp only [beginInternal, LawfulBTree.get_clone, h]

theorem beginInternal_of_get_none [LawfulBTree T] (tree : Tree T)
    (h : BTree.get tree.store (sthKey treeID tree.currentSTH) = none) :
    beginInternal tree treeID n =
      some (⟨BTree.clone tree.store, tree, treeID, n, -1, ⟨0, 0⟩⟩, some errTreeNeedsInit) := by
  simp only [beginInternal, LawfulBTree.get_clone, h]

theorem beginInternal_eq_some {ltx : LogTreeTX T} {err : Option String}
    (h : beginInternal tree treeID n = some (ltx, err)) :
    ltx.tx = BTree.clone tree.store ∧ ltx.tree = tree ∧ ltx.treeID = treeID ∧ ltx.hashSizeBytes = n := by
  unfold beginInternal at h
  simp only at h
  split at h
  · cases h
    exact ⟨rfl, rfl, rfl, rfl⟩
  · cases h
    exact ⟨rfl, rfl, rfl, rfl⟩
  · cases h

/-- `ReadWriteTransaction` runs its function on the transaction `beginInternal` opens, whatever
error that returned. -/
theorem readWriteTransaction_of_beginInternal {ltx : LogTreeTX T} {err : Option String}
    (h : beginInternal tree treeID n = some (ltx, err)) (f : LogTXFunc) :
    readWriteTransaction tree treeID n f =
      some (match ltx.runFunc f with
        | (.error e, t) => (.error e, t.tree)
        | (.ok (), t) => (.ok (), t.commit)) := by
  simp only [readWriteTransaction, h, Option.map_some]

end Begin

namespace LogTreeTX

omit [BTree T] in
@[simp] theorem queueLeaves_tree_store (t : LogTreeTX T) (leaves : List LogLeaf) :
    (t.queueLeaves leaves).2.tree.store = t.tree.store := by
  unfold queueLeaves
  split <;> rfl

@[simp] theorem updateSequencedLeaves_tree_store (t : LogTreeTX T) (leaves : List LogLeaf) :
    (t.updateSequencedLeaves leaves).2.tree.store = t.tree.store := by
  unfold updateSequencedLeaves
  split
  next err counts tx m _ =>
    cases err with
    | some e => rfl
    | none =>
      dsimp only
      split <;> rfl

theorem call_tree_store (t : LogTreeTX T) (c : TxCall) : (t.call c).2.tree.store = t.tree.store := by
  cases c with
  | queueLeaves leaves => exact queueLeaves_tree_store t leaves
  | updateSequencedLeaves leaves => exact updateSequencedLeaves_tree_store t leaves
  | storeSignedLogRoot root => rfl

theorem runCalls_tree_store (t : LogTreeTX T) (cs : List TxCall) :
    (t.runCalls cs).2.tree.store = t.tree.store := by
  -- each call keeps the btree, up to the first error
  induction cs generalizing t with
  | nil => rfl
  | cons c cs ih =>
    simp only [runCalls]
    split
    · next e t' hc => rw [← call_tree_store t c, hc]
    · next t' hc => rw [ih t', ← call_tree_store t c, hc]

theorem runFunc_tree_store (t : LogTreeTX T) (f : LogTXFunc) : (t.runFunc f).2.tree.store = t.tree.store := by
  rw [← t.runCalls_tree_store f.calls]
  unfold runFunc
  split
  · next e t' hc => rw [hc]
  · next t' hc =>
    rw [hc]
    cases f.err <;> rfl

end LogTreeTX

section Rollback

variable {tree tree' : Tree T} {treeID : ℤ} {n : ℕ}

/-- What the rollback of `ReadWriteTransaction` does undo: the btree, with the sequenced leaves
and the roots, is as it was. -/
theorem readWriteTransaction_error_store {f : LogTXFunc} {e : String}
    (h : readWriteTransaction tree treeID n f = some (.error e, tree')) : tree'.store = tree.store := by
  unfold readWriteTransaction at h
  obtain ⟨⟨ltx, err⟩, hbegin, hrun⟩ := Option.map_eq_some_iff.mp h
  obtain ⟨-, htree, -, -⟩ := beginInternal_eq_some hbegin
  simp only at hrun
  split at hrun
  · next e' t hf =>
    cases hrun
    rw [← htree, ← ltx.runFunc_tree_store f, hf]
  · cases hrun

/-- What it does not undo: leaves a function queues before it fails stay queued. -/
theorem readWriteTransaction_error_queue {leaves : List LogLeaf} {ltx : LogTreeTX T} {err : Option String}
    (hbegin : beginInternal tree treeID n = some (ltx, err))
    (hsize : ∀ l ∈ leaves, l.leafIdentityHash.length = n) (e : String) :
    readWriteTransaction tree treeID n ⟨[.queueLeaves leaves], some e⟩ =
      some (.error e, { tree with queue := tree.queue ++ leaves }) := by
  obtain ⟨-, htree, -, hn⟩ := beginInternal_eq_some hbegin
  have hvalid : (leaves.any fun leaf => leaf.leafIdentityHash.length ≠ ltx.hashSizeBytes) = false := by
    simpa [hn] using hsize
  simp only [readWriteTransaction, hbegin, Option.map_some, LogTreeTX.runFunc, LogTreeTX.runCalls,
    LogTreeTX.call, LogTreeTX.queueLeaves, hvalid, htree]
  rfl

end Rollback

namespace LogTreeTX

/-- `GetLeavesByHash` reads how many hashes it is given, and never the hashes. -/
theorem getLeavesByHash_of_length_eq (t : LogTreeTX T) {hs hs' : List (List UInt8)}
    (h : hs.length = hs'.length) (o o' : Bool) : t.getLeavesByHash hs o = t.getLeavesByHash hs' o' := by
  simp only [getLeavesByHash, h]

/-- `GetSequencedLeafCount` is 0 when no key lies above the key of leaf 0: the range
`DescendRange` visits leaves leaf 0 out. -/
theorem getSequencedLeafCount_eq_zero [LawfulBTree T] (t : LogTreeTX T)
    (h : ∀ k, seqLeafKey t.treeID 0 < k → k ≤ seqLeafKey t.treeID maxInt64 → BTree.get t.tx k = none) :
    t.getSequencedLeafCount = some 0 := by
  rw [getSequencedLeafCount, BTree.descendRange_eq_nil h]

end LogTreeTX

abbrev ItemMap := AList fun _ : String => Item

instance : BTree ItemMap where
  new := ∅
  get t k := t.lookup k
  replaceOrInsert t k v := t.insert k v
  clone t := t
  descendRange t lessOrEqual greaterThan :=
    (t.entries.filter fun e => greaterThan < e.1 ∧ e.1 ≤ lessOrEqual).mergeSort fun a b => b.1 ≤ a.1

instance : LawfulBTree ItemMap where
  get_new k := AList.lookup_empty k
  get_replaceOrInsert t k v k' := by
    by_cases hk : k' = k
    · subst hk
      simp only [BTree.get, BTree.replaceOrInsert, if_true]
      exact AList.lookup_insert t
    · simp only [BTree.get, BTree.replaceOrInsert, if_neg hk]
      exact AList.lookup_insert_ne hk
  get_clone _ _ := rfl
  mem_descendRange t lessOrEqual greaterThan e := by
    simp only [BTree.descendRange, BTree.get, List.mem_mergeSort, List.mem_filter, decide_eq_true_eq]
    rw [← Option.mem_def, AList.mem_lookup_iff, Sigma.eta]
    tauto
  descendRange_sorted t lessOrEqual greaterThan := by
    -- sorted by the order of the keys, which the entries of an association list do not repeat
    have hle : ((t.entries.filter fun e => greaterThan < e.1 ∧ e.1 ≤ lessOrEqual).mergeSort
        fun a b => b.1 ≤ a.1).Pairwise fun a b => decide (b.1 ≤ a.1) = true :=
      List.pairwise_mergeSort
        (fun a b c hab hbc => by simpa using le_trans (of_decide_eq_true hbc) (of_decide_eq_true hab))
        (fun a b => by simpa using le_total b.1 a.1) _
    have hne : ((t.entries.filter fun e => greaterThan < e.1 ∧ e.1 ≤ lessOrEqual).mergeSort
        fun a b => b.1 ≤ a.1).Pairwise fun a b => a.1 ≠ b.1 := by
      rw [(List.mergeSort_perm _ _).pairwise_iff (fun h => Ne.symm h), ← List.nodupKeys_iff_pairwise]
      exact t.nodupKeys.sublist List.filter_sublist
    exact (hle.and hne).imp fun h => lt_of_le_of_ne (of_decide_eq_true h.1) h.2.symm

section Run

variable [LawfulBTree T]

/-- In every btree that keeps the package's contract, a memory log with one root: leaf 0 is
queued and sequenced, after which the reads miss it by count and by hash, and a transaction that
queues it again and then fails leaves it queued. -/
theorem memoryLog_rollback_and_reads_of_lawful :
    let leaf : LogLeaf := ⟨List.replicate 32 1, List.replicate 32 2, 0⟩
    ∃ t₁ t₂ t₃ t₄ ltx,
      readWriteTransaction (newTree : Tree T) 1 32 ⟨[.storeSignedLogRoot ⟨0, 0⟩], none⟩ =
        some (.ok (), t₁) ∧
      readWriteTransaction t₁ 1 32 ⟨[.queueLeaves [leaf]], none⟩ = some (.ok (), t₂) ∧
      readWriteTransaction t₂ 1 32 ⟨[.updateSequencedLeaves [leaf]], none⟩ = some (.ok (), t₃) ∧
      snapshotForTree t₃ 1 32 = some (ltx, none) ∧
      ltx.getLeavesByIndex [0] = some [leaf] ∧
      ltx.getSequencedLeafCount = some 0 ∧
      ltx.getLeavesByHash [leaf.merkleLeafHash] false = some [] ∧
      t₃.queue = [] ∧
      readWriteTransaction t₃ 1 32 ⟨[.queueLeaves [leaf]], some "abort"⟩ = some (.error "abort", t₄) ∧
      t₄.queue = [leaf] := by
  intro leaf
  -- the btree after the root is stored, and after the leaf is sequenced in a clone of its clone
  let s₁ : T := BTree.replaceOrInsert (BTree.clone BTree.new) (sthKey 1 0) (.root ⟨0, 0⟩)
  let s₃ : T := BTree.replaceOrInsert (BTree.clone (BTree.clone s₁)) (seqLeafKey 1 0) (.leaf leaf)
  let m₃ : AList fun _ : List UInt8 => List ℤ := (∅ : AList _).insert leaf.merkleLeafHash [0]
  have hroot₁ : BTree.get s₁ (sthKey 1 0) = some (.root ⟨0, 0⟩) := by
    simp only [s₁, LawfulBTree.get_replaceOrInsert, if_true]
  have hroot₃ : BTree.get s₃ (sthKey 1 0) = some (.root ⟨0, 0⟩) := by
    simp only [s₃, LawfulBTree.get_replaceOrInsert, if_neg (seqLeafKey_ne_sthKey 1 0 0).symm,
      LawfulBTree.get_clone, hroot₁]
  have hvalid : ∀ l ∈ [leaf], l.leafIdentityHash.length = 32 := by simp [leaf]
  refine ⟨⟨s₁, [], ∅, 0⟩, ⟨BTree.clone s₁, [leaf], ∅, 0⟩, ⟨s₃, [], m₃, 0⟩, ⟨s₃, [leaf], m₃, 0⟩,
    ⟨BTree.clone s₃, ⟨s₃, [], m₃, 0⟩, 1, 32, 1, ⟨0, 0⟩⟩, ?_, ?_, ?_, ?_, ?_, ?_, ?_, rfl, ?_, rfl⟩
  · rw [readWriteTransaction_of_beginInternal
      (beginInternal_of_get_none newTree (LawfulBTree.get_new _))]
    rfl
  · rw [readWriteTransaction_of_beginInternal (beginInternal_of_root ⟨s₁, [], ∅, 0⟩ hroot₁)]
    rw [LogTreeTX.runFunc, LogTreeTX.runCalls, LogTreeTX.call, LogTreeTX.queueLeaves_of_valid _ hvalid]
    rfl
  · have hroot₂ : BTree.get (BTree.clone s₁) (sthKey 1 0) = some (.root ⟨0, 0⟩) := by
      rw [LawfulBTree.get_clone, hroot₁]
    rw [readWriteTransaction_of_beginInternal (beginInternal_of_root ⟨BTree.clone s₁, [leaf], ∅, 0⟩ hroot₂)]
    rw [LogTreeTX.runFunc, LogTreeTX.runCalls, LogTreeTX.call,
      LogTreeTX.updateSequencedLeaves_head _ rfl (hvalid leaf (by simp))]
    rfl
  · exact beginInternal_of_root ⟨s₃, [], m₃, 0⟩ hroot₃
  · have hseq : BTree.get (BTree.clone s₃) (seqLeafKey 1 0) = some (.leaf leaf) := by
      simp only [s₃, LawfulBTree.get_clone, LawfulBTree.get_replaceOrInsert, if_true]
    simp [LogTreeTX.getLeavesByIndex, LogTreeTX.leavesAt, hseq]
  · apply LogTreeTX.getSequencedLeafCount_eq_zero
    -- the btree holds the leaf at the lower end of the range, and the root above it
    intro k hlo hhi
    have habove : seqLeafKey 1 maxInt64 < sthKey 1 0 := by decide
    simp only [s₃, s₁, LawfulBTree.get_clone, LawfulBTree.get_replaceOrInsert, if_neg hlo.ne',
      if_neg (hhi.trans_lt habove).ne, LawfulBTree.get_new]
  · have hkey : runeString 0 ≠ leaf.merkleLeafHash := by decide
    have hnone : m₃.lookup (runeString 0) = none := by
      unfold m₃
      rw [AList.lookup_insert_ne hkey, AList.lookup_empty]
    simp [LogTreeTX.getLeavesByHash, hnone, LogTreeTX.leavesAt]
  · -- the failed transaction's queueing is not rolled back
    exact readWriteTransaction_error_queue (beginInternal_of_root ⟨s₃, [], m₃, 0⟩ hroot₃) hvalid "abort"

end Run

/-- A memory log with one root: leaf 0 is queued and sequenced, after which the reads miss it by
count and by hash, and a transaction that queues it again and then fails leaves it queued. -/
theorem memoryLog_rollback_and_reads :
    let leaf : LogLeaf := ⟨List.replicate 32 1, List.replicate 32 2, 0⟩
    ∃ t₁ t₂ t₃ t₄ ltx,
      readWriteTransaction (newTree : Tree ItemMap) 1 32 ⟨[.storeSignedLogRoot ⟨0, 0⟩], none⟩ =
        some (.ok (), t₁) ∧
      readWriteTransaction t₁ 1 32 ⟨[.queueLeaves [leaf]], none⟩ = some (.ok (), t₂) ∧
      readWriteTransaction t₂ 1 32 ⟨[.updateSequencedLeaves [leaf]], none⟩ = some (.ok (), t₃) ∧
      snapshotForTree t₃ 1 32 = some (ltx, none) ∧
      ltx.getLeavesByIndex [0] = some [leaf] ∧
      ltx.getSequencedLeafCount = some 0 ∧
      ltx.getLeavesByHash [leaf.merkleLeafHash] false = some [] ∧
      t₃.queue = [] ∧
      readWriteTransaction t₃ 1 32 ⟨[.queueLeaves [leaf]], some "abort"⟩ = some (.error "abort", t₄) ∧
      t₄.queue = [leaf] :=
  memoryLog_rollback_and_reads_of_lawful

end Memory

end Trillian
