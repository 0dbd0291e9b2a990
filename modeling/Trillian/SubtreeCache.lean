import Trillian.StorageNodeID

/-! The subtree cache of `storage/cache/subtree_cache.go`: a node is found by splitting its ID
at its stratum, the prefix naming the subtree and the suffix the node in it. Go maps are
association lists, and a nil map is the empty one. -/

namespace Trillian

open Storage

variable {α : Type*}

abbrev GoMap (α : Type*) := AList fun _ : List UInt8 => α

/-- `defaultLogStrata`: the log's 32 strata of 8 levels. -/
def defaultLogStrata : List ℤ := List.replicate 32 8

/-- `stratumInfo`: the number of prefix bytes above a stratum, and its depth. -/
structure StratumInfo where
  prefixBytes : ℕ
  depth : ℕ
deriving DecidableEq

def maxSupportedTreeDepth : ℕ := 256

def depthQuantum : ℕ := 8

/-- `storagepb.SubtreeProto`, with the fields the caches use. `Prefix` is `pfx`, and `prefixNil`
says it is a nil slice, which holds no bytes. -/
structure SubtreeProto (α : Type*) where
  pfx : List UInt8
  depth : ℤ
  leaves : GoMap α
  internalNodes : GoMap α
  internalNodeCount : ℕ
  rootHash : α
  prefixNil : Bool
  prefixNil_empty : prefixNil → pfx = []

theorem SubtreeProto.prefixNil_empty_of_false (pfx : List UInt8) : false → pfx = [] :=
  fun h => absurd h Bool.false_ne_true

/-- `PopulateSubtreeFunc`, which rebuilds a subtree read from storage in place: the subtree as it
leaves it, and its error; `none` if it panics. -/
abbrev PopulateSubtreeFunc (α : Type*) := SubtreeProto α → Option (SubtreeProto α × Option String)

/-- `GetSubtreeFunc`; `none` is a nil subtree. -/
abbrev GetSubtreeFunc (α : Type*) := Storage.NodeID → Except String (Option (SubtreeProto α))

abbrev GetSubtreesFunc (α : Type*) := List Storage.NodeID → Except String (List (SubtreeProto α))

/-- `SubtreeCache`, with the fields the reads use. -/
structure SubtreeCache (α : Type*) where
  stratumInfo : List StratumInfo
  subtrees : GoMap (SubtreeProto α)
  populate : PopulateSubtreeFunc α

/-- The loop of `NewSubtreeCache` over the strata depths, with `t` the levels covered so far:
each stratum has one entry for each `depthQuantum` of its levels. -/
def strataLoop : List ℤ → ℕ → List StratumInfo → Option (List StratumInfo × ℕ)
  | [], t, sInfo => some (sInfo, t)
  | sDepth :: strataDepths, t, sInfo =>
    if sDepth ≤ 0 then none
    else if sDepth.tmod depthQuantum ≠ 0 then none
    else
      let pb := t / depthQuantum
      let n := sDepth.toNat / depthQuantum
      strataLoop strataDepths (t + n * depthQuantum)
        (sInfo ++ List.replicate n ⟨pb, sDepth.toNat⟩)

/-- `NewSubtreeCache`: the strata must cover `maxSupportedTreeDepth` levels in multiples of
`depthQuantum`, or it panics. -/
def newSubtreeCache (strataDepths : List ℤ) (populateSubtree : PopulateSubtreeFunc α) :
    Option (SubtreeCache α) :=
  match strataLoop strataDepths 0 [] with
  | none => none
  | some (sInfo, t) =>
    if t ≠ maxSupportedTreeDepth then none else some ⟨sInfo, ∅, populateSubtree⟩

namespace SubtreeCache

def stratumInfoForPrefixLength (s : SubtreeCache α) (numBits : ℤ) : Option StratumInfo :=
  let i := numBits.tdiv depthQuantum
  if i < 0 then none else s.stratumInfo[i.toNat]?

/-- `splitNodeID`: the split at the stratum of the node's last bit. -/
def splitNodeID (s : SubtreeCache α) (id : Storage.NodeID) : Option (List UInt8 × Suffix) := do
  let sInfo ← s.stratumInfoForPrefixLength (id.prefixLenBits - 1)
  id.split sInfo.prefixBytes sInfo.depth

variable [Inhabited α]

def newEmptySubtree (s : SubtreeCache α) (id : Storage.NodeID) (px : List UInt8) :
    Option (SubtreeProto α) :=
  (s.stratumInfoForPrefixLength id.prefixLenBits).map fun sInfo =>
    -- px is a slice of the ID's path, which the model's IDs always have
    ⟨px, sInfo.depth, ∅, ∅, 0, default, false, SubtreeProto.prefixNil_empty_of_false px⟩

/-- The first loop of `preload`: the subtrees the IDs fall in that the cache does not hold,
under their prefix keys, each with the ID cut back to its prefix. -/
def wantedSubtrees (s : SubtreeCache α) :
    List Storage.NodeID → GoMap Storage.NodeID → Option (GoMap Storage.NodeID)
  | [], want => some want
  | id :: ids, want =>
    match s.splitNodeID id with
    | none => none
    | some (px, _) =>
      let id := { id with prefixLenBits := px.length * depthQuantum }
      let want := if s.subtrees.lookup px = none then want.insert px id else want
      s.wantedSubtrees ids want

/-- The loop of `preload` over the subtrees read: each is populated, and stored whatever
`populate` returned. -/
def storeSubtrees (s : SubtreeCache α) (want : GoMap Storage.NodeID) :
    List (SubtreeProto α) → Option (SubtreeCache α × GoMap Storage.NodeID)
  | [] => some (s, want)
  | t :: ts =>
    match s.populate t with
    | none => none
    | some (t, _) =>
      storeSubtrees { s with subtrees := s.subtrees.insert t.pfx t } (want.erase t.pfx) ts

/-- The last loop of `preload`: an empty subtree for each one storage did not have. The message
leaves out the `%v` rendering of the ID. -/
def createEmptySubtrees (s : SubtreeCache α) :
    List (Σ _ : List UInt8, Storage.NodeID) → Option (Except String Unit × SubtreeCache α)
  | [] => some (.ok (), s)
  | ⟨_, id⟩ :: rest =>
    let prefixLen := id.prefixLenBits.tdiv depthQuantum
    -- id.Path[:prefixLen] within the capacity of the path
    if prefixLen < 0 ∨ id.path.length < prefixLen then none
    else
      let px := id.path.take prefixLen.toNat
      if (s.subtrees.lookup px).isSome then
        some (.error "preload tried to clobber existing subtree", s)
      else
        match s.newEmptySubtree id px with
        | none => none
        | some t => createEmptySubtrees { s with subtrees := s.subtrees.insert px t } rest

/-- `preload`: the subtrees the IDs need and the cache lacks, read in one call. -/
def preload (s : SubtreeCache α) (ids : List Storage.NodeID) (getSubtrees : GetSubtreesFunc α) :
    Option (Except String Unit × SubtreeCache α) :=
  match s.wantedSubtrees ids ∅ with
  | none => none
  | some want =>
    -- no read request for zero subtrees
    if want.entries.length = 0 then some (.ok (), s)
    else
      match getSubtrees (want.entries.map Sigma.snd) with
      | .error err => some (.error err, s)
      | .ok subtrees =>
        match s.storeSubtrees want subtrees with
        | none => none
        | some (s, want) => s.createEmptySubtrees want.entries

/-- `getNodeHashUnderLock`: the hash of a node, from its subtree in the cache or read on a miss.
A missing hash is nil, `default`. A subtree read on a miss is kept only when `populate`
succeeds. -/
def getNodeHashUnderLock (s : SubtreeCache α) (id : Storage.NodeID) (getSubtree : GetSubtreeFunc α) :
    Option (Except String α × SubtreeCache α) :=
  match s.splitNodeID id with
  | none => none
  | some (px, sx) =>
    let loaded : Option (Except String (SubtreeProto α × SubtreeCache α)) :=
      match s.subtrees.lookup px with
      | some c => some (.ok (c, s))
      | none =>
        -- cache miss, so we'll try to fetch from storage
        let subID := { id with prefixLenBits := px.length * depthQuantum }
        let fetched : Option (Except String (SubtreeProto α)) :=
          match getSubtree subID with
          | .error err => some (.error err)
          | .ok none => (s.newEmptySubtree subID px).map .ok
          | .ok (some c) =>
            match s.populate c with
            | none => none
            | some (_, some err) => some (.error err)
            | some (c, none) => some (.ok c)
        match fetched with
        | none => none
        | some (.error err) => some (.error err)
        | some (.ok c) =>
          -- the panic on a nil prefix
          if c.prefixNil then none
          else some (.ok (c, { s with subtrees := s.subtrees.insert px c }))
    match loaded with
    | none => none
    | some (.error err) => some (.error err, s)
    | some (.ok (c, s)) =>
      -- leaves and internal nodes are kept in separate maps
      let sfxKey := sx.string
      let nh := if (sx.bits.toNat : ℤ) = c.depth then c.leaves.lookup sfxKey
        else c.internalNodes.lookup sfxKey
      some (.ok (nh.getD default), s)

end SubtreeCache

/-- The reader `GetNodes` gives `GetNodeHash`: one subtree through `getSubtrees`. -/
def singleSubtree (getSubtrees : GetSubtreesFunc α) : GetSubtreeFunc α := fun n =>
  match getSubtrees [n] with
  | .error err => .error err
  | .ok [] => .ok none
  | .ok [t] => .ok (some t)
  | .ok ts => .error s!"got {ts.length} trees, want: 1"

namespace SubtreeCache

variable [Inhabited α] [DecidableEq α]

/-- The loop of `GetNodes` over the IDs, with the nodes found so far; a nil hash is left out. -/
def getNodesLoop (s : SubtreeCache α) (getSubtrees : GetSubtreesFunc α) :
    List Storage.NodeID → List (Storage.NodeID × α) →
      Option (Except String (List (Storage.NodeID × α)) × SubtreeCache α)
  | [], ret => some (.ok ret, s)
  | id :: ids, ret =>
    match s.getNodeHashUnderLock id (singleSubtree getSubtrees) with
    | none => none
    | some (.error err, s) => some (.error err, s)
    | some (.ok h, s) => s.getNodesLoop getSubtrees ids (if h ≠ default then ret ++ [(id, h)] else ret)

/-- `GetNodes`: `preload`, then `GetNodeHash` of each ID. -/
def getNodes (s : SubtreeCache α) (ids : List Storage.NodeID) (getSubtrees : GetSubtreesFunc α) :
    Option (Except String (List (Storage.NodeID × α)) × SubtreeCache α) :=
  match s.preload ids getSubtrees with
  | none => none
  | some (.error err, s) => some (.error err, s)
  | some (.ok (), s) => s.getNodesLoop getSubtrees ids []

end SubtreeCache

-- `preload` stores every subtree it reads whatever `populate` says of it, where a read on a miss
-- keeps a subtree only when `populate` accepts it.

namespace SubtreeCache

variable [Inhabited α]

omit [Inhabited α] in
theorem lookup_isSome_insert {m : GoMap α} {k : List UInt8} (k' : List UInt8) (v : α)
    (h : (m.lookup k).isSome) : ((m.insert k' v).lookup k).isSome := by
  by_cases hk : k = k'
  · rw [hk, AList.lookup_insert]
    rfl
  · rwa [AList.lookup_insert_ne hk]

omit [Inhabited α] in
/-- Every subtree the batch read returns is in the cache after the loop, as `populate` left it,
whether or not `populate` reported an error for it. -/
theorem storeSubtrees_stores {s s' : SubtreeCache α} {want want' : GoMap Storage.NodeID}
    {ts : List (SubtreeProto α)} (h : s.storeSubtrees want ts = some (s', want')) :
    ∀ t ∈ ts, ∃ t' e, s.populate t = some (t', e) ∧ (s'.subtrees.lookup t'.pfx).isSome := by
  induction ts generalizing s want with
  | nil => intro t ht; cases ht
  | cons t₀ ts ih =>
    intro t ht
    unfold storeSubtrees at h
    split at h
    · contradiction
    · rename_i t₁ e₁ hpop
      -- the rest of the loop keeps what is stored, and `populate` is the cache's own throughout
      have hkeep : ∀ (s₁ s₂ : SubtreeCache α) (w w' : GoMap Storage.NodeID) (k : List UInt8),
          s₁.storeSubtrees w ts = some (s₂, w') → (s₁.subtrees.lookup k).isSome →
            (s₂.subtrees.lookup k).isSome := by
        clear ih ht h
        induction ts with
        | nil =>
          intro s₁ s₂ w w' k hs hk
          simp only [storeSubtrees, Option.some.injEq, Prod.mk.injEq] at hs
          rw [← hs.1]
          exact hk
        | cons t₂ ts ih' =>
          intro s₁ s₂ w w' k hs hk
          unfold storeSubtrees at hs
          split at hs
          · contradiction
          · exact ih' _ _ _ _ _ hs (lookup_isSome_insert _ _ hk)
      rcases List.mem_cons.mp ht with rfl | hmem
      · refine ⟨t₁, e₁, hpop, hkeep _ _ _ _ _ h ?_⟩
        rw [AList.lookup_insert]
        rfl
      · exact ih h t hmem

/-- A subtree read on a miss that `populate` rejects is reported and not kept. -/
theorem getNodeHashUnderLock_of_populate_error {s : SubtreeCache α} {id : Storage.NodeID}
    {getSubtree : GetSubtreeFunc α} {px : List UInt8} {sx : Suffix} {c c' : SubtreeProto α}
    {err : String} (hsplit : s.splitNodeID id = some (px, sx)) (hmiss : s.subtrees.lookup px = none)
    (hget : getSubtree { id with prefixLenBits := px.length * depthQuantum } = .ok (some c))
    (hpop : s.populate c = some (c', some err)) :
    s.getNodeHashUnderLock id getSubtree = some (.error err, s) := by
  simp [getNodeHashUnderLock, hsplit, hmiss, hget, hpop]

theorem getNodeHashUnderLock_miss_prefix_not_nil {s s' : SubtreeCache α} {id : Storage.NodeID}
    {getSubtree : GetSubtreeFunc α} {px : List UInt8} {sx : Suffix} {r : Except String α}
    {c : SubtreeProto α} (hsplit : s.splitNodeID id = some (px, sx))
    (hmiss : s.subtrees.lookup px = none) (h : s.getNodeHashUnderLock id getSubtree = some (r, s'))
    (hc : s'.subtrees.lookup px = some c) : c.prefixNil = false := by
  simp only [getNodeHashUnderLock, hsplit, hmiss] at h
  split at h
  · contradiction
  · -- an error leaves the cache as it was, without the subtree
    rw [(Prod.mk.inj (Option.some.inj h)).2.symm, hmiss] at hc
    contradiction
  · rename_i c₁ s₁ hload
    split at hload
    · cases hload
    · cases hload
    · rename_i c₂ _
      cases hnil : c₂.prefixNil with
      | true => simp [hnil] at hload
      | false =>
        -- the subtree kept is the one fetched, stored under its prefix key
        simp only [hnil, Bool.false_eq_true, if_false, Option.some.injEq, Except.ok.injEq,
          Prod.mk.injEq] at hload
        obtain ⟨rfl, rfl⟩ := hload
        rw [(Prod.mk.inj (Option.some.inj h)).2.symm, AList.lookup_insert] at hc
        rw [← Option.some.inj hc, hnil]

end SubtreeCache

/-- A `populate` that accepts every subtree as it is. -/
def acceptSubtree : PopulateSubtreeFunc ℕ := fun t => some (t, none)

/-- With a single stratum of all 256 levels, the suffix of a node at the bottom has 256 bits,
which its byte keeps as `0`: the bit count is not between 1 and the depth, and the ID rebuilt
from the prefix and suffix names no bits at all, so it is not equivalent to the node. -/
theorem splitNodeID_full_depth_stratum :
    ((newSubtreeCache [256] acceptSubtree).bind fun c =>
        c.splitNodeID ⟨List.replicate 32 0, 256⟩) = some ([], ⟨0, List.replicate 32 0⟩) ∧
      newNodeIDFromPrefixSuffix [] ⟨0, List.replicate 32 0⟩ 256 =
        some ⟨List.replicate 32 0, 0⟩ ∧
      Storage.NodeID.equivalent ⟨List.replicate 32 0, 256⟩ ⟨List.replicate 32 0, 0⟩ = some false := by
  refine ⟨?_, ?_, ?_⟩ <;> decide +kernel

/-- A `populate` that rejects every subtree, as `populateLogSubtreeNodes` rejects a corrupt one. -/
def rejectSubtree : PopulateSubtreeFunc ℕ := fun t => some (t, some "corrupt subtree")

def leafFive : Storage.NodeID := ⟨[0, 0, 0, 0, 0, 0, 0, 5], 64⟩

/-- The bottom subtree of a log holding leaf 5, with hash `1`. -/
def leafFiveSubtree : SubtreeProto ℕ :=
  ⟨[0, 0, 0, 0, 0, 0, 0], 8, (∅ : GoMap ℕ).insert (Suffix.string ⟨8, [5]⟩) 1, ∅, 0, 0, false,
    SubtreeProto.prefixNil_empty_of_false _⟩

/-- `populate` rejects the subtree the batch read returns, yet `GetNodes` serves leaf 5 from it
and keeps it in the cache, which goes on serving it without a read; the same subtree read by
`GetNodeHash` on a miss is reported and not cached. -/
theorem getNodes_serves_rejected_subtree :
    rejectSubtree leafFiveSubtree = some (leafFiveSubtree, some "corrupt subtree") ∧
      ((newSubtreeCache defaultLogStrata rejectSubtree).bind fun c =>
        (c.getNodes [leafFive] fun _ => .ok [leafFiveSubtree]).map fun r =>
          (r.1, (r.2.subtrees.lookup [0, 0, 0, 0, 0, 0, 0]).isSome,
            (r.2.getNodeHashUnderLock leafFive fun _ => .error "not read").map Prod.fst)) =
        some (.ok [(leafFive, 1)], true, some (.ok 1)) ∧
      ((newSubtreeCache defaultLogStrata rejectSubtree).bind fun c =>
        (c.getNodeHashUnderLock leafFive fun _ => .ok (some leafFiveSubtree)).map fun r =>
          (r.1, (r.2.subtrees.lookup [0, 0, 0, 0, 0, 0, 0]).isSome)) =
        some (.error "corrupt subtree", false) := by
  refine ⟨rfl, ?_, ?_⟩ <;> decide +kernel

end Trillian
