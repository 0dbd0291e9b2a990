import Trillian.LogVerifier

/-! The compact Merkle tree of `merkle/compact_merkle_tree.go`: the roots of the perfect
subtrees that make up a log of `size` leaves, one per set bit of `size`. Go's nil byte slice
is `default`; an index out of range, which makes Go panic, is `none`. The callbacks that
store the nodes run over a state of the caller's own and may fail. -/

namespace Trillian

open Rfc6962

variable {α σ : Type*}

/-- `setNodeFunc`: called with the depth, index and hash of each node to store. -/
abbrev SetNodeFunc (σ α : Type*) := ℕ → ℕ → α → σ → Except String σ

/-- `GetNodeFunc`: looks up the hash of the node at a depth and index. -/
abbrev GetNodeFunc (α : Type*) := ℕ → ℕ → Except String α

/-- The errors of the compact tree: one passed on from a callback or the hasher,
`RootHashMismatchError`, and the one `AddLeafHash` returns when its loop ends with the running
hash stored nowhere (`"AddLeaf failed running hash not cleared: h: %v seq: %d"`). -/
inductive CompactTreeError (α : Type*) where
  | passed (msg : String)
  | rootHashMismatch (actualHash expectedHash : α)
  | runningHashNotCleared (leafHash : α) (seq : ℕ)

/-- The text of each error, with the hashes printed as `ToString` prints them. -/
def CompactTreeError.error [ToString α] : CompactTreeError α → String
  | .passed msg => msg
  | .rootHashMismatch actualHash expectedHash =>
    s!"root hash mismatch got: {actualHash} expected: {expectedHash}"
  | .runningHashNotCleared leafHash seq =>
    s!"AddLeaf failed running hash not cleared: h: {leafHash} seq: {seq}"

/-- `CompactMerkleTree`; `nodes[b]` is the root of the perfect subtree of `2^b` leaves when
bit `b` of `size` is set. -/
structure CompactMerkleTree (α : Type*) where
  hasher : LogHasher α
  root : α
  nodes : List α
  size : ℕ

def isPerfectTree (x : ℕ) : Bool := x != 0 && x &&& (x - 1) == 0

/-- `bitLen`: the number of bits of `x`. -/
def bitLen (x : ℕ) : ℕ := if 0 < x then bitLen (x >>> 1) + 1 else 0
termination_by x
decreasing_by rw [Nat.shiftRight_eq_div_pow]; omega

def runCallbacks (f : SetNodeFunc σ α) : List (ℕ × ℕ × α) → σ → Except String σ
  | [], s => .ok s
  | (depth, index, hash) :: rest, s =>
    match f depth index hash s with
    | .error err => .error err
    | .ok s => runCallbacks f rest s

namespace CompactMerkleTree

variable [Inhabited α]

def newCompactMerkleTree (hasher : LogHasher α) : CompactMerkleTree α :=
  ⟨hasher, hasher.emptyRoot, [], 0⟩

/-- The loop of `recalculateRoot` over the bits of the size: `index` is the size shifted right
by `bit`, `first` says that no set bit was met yet, `newRoot` is the running root. -/
def recalculateRootLoop (c : CompactMerkleTree α) (f : SetNodeFunc σ α)
    (numBits bit index : ℕ) (first : Bool) (newRoot : α) (s : σ) :
    Option (Except String α × σ) :=
  if bit < numBits then
    let index := index >>> 1
    if c.size &&& 1 <<< bit != 0 then
      match c.nodes[bit]? with
      | none => none
      | some node =>
        if first then c.recalculateRootLoop f numBits (bit + 1) index false node s
        else
          let newRoot := c.hasher.hashChildren node newRoot
          match f (bit + 1) index newRoot s with
          | .error err => some (.error err, s)
          | .ok s => c.recalculateRootLoop f numBits (bit + 1) index false newRoot s
    else c.recalculateRootLoop f numBits (bit + 1) index first newRoot s
  else some (.ok newRoot, s)
termination_by numBits - bit

/-- `recalculateRoot`: recomputes the root from the nodes, calling `f` on the right-edge
nodes above the lowest one; on an error the root is left as it was. -/
def recalculateRoot (c : CompactMerkleTree α) (f : SetNodeFunc σ α) (s : σ) :
    Option (Except String Unit × CompactMerkleTree α × σ) :=
  if c.size = 0 then some (.ok (), c, s)
  else
    match c.recalculateRootLoop f (bitLen c.size) 0 c.size true default s with
    | none => none
    | some (.error err, s) => some (.error err, c, s)
    | some (.ok newRoot, s) => some (.ok (), { c with root := newRoot }, s)

/-- The loop of `AddLeafHash` over the bits of the size: `t` is the size shifted right by
`bit` and `hash` the running hash, which absorbs the stored node at each set bit. -/
def addLeafHashLoop (c : CompactMerkleTree α) (f : SetNodeFunc σ α) (leafHash : α)
    (assignedSeq t bit index : ℕ) (hash : α) (s : σ) :
    Option (Except (CompactTreeError α) ℕ × CompactMerkleTree α × σ) :=
  if 0 < t then
    let index := index >>> 1
    if t &&& 1 = 0 then
      -- just store the running hash here; we're done
      if bit < c.nodes.length then
        let c := { c with nodes := c.nodes.set bit hash }
        if 0 < bit then
          match f bit index hash s with
          | .error err => some (.error (.passed err), c, s)
          | .ok s => some (.ok assignedSeq, c, s)
        else some (.ok assignedSeq, c, s)
      else none
    else
      match c.nodes[bit]? with
      | none => none
      | some node =>
        let hash := c.hasher.hashChildren node hash
        match f (bit + 1) index hash s with
        | .error err => some (.error (.passed err), c, s)
        | .ok s =>
          let c := { c with nodes := c.nodes.set bit default }
          if c.nodes.length ≤ bit + 1 then
            some (.ok assignedSeq, { c with nodes := c.nodes ++ [hash] }, s)
          else if t &&& 2 = 0 then
            some (.ok assignedSeq, { c with nodes := c.nodes.set (bit + 1) hash }, s)
          else c.addLeafHashLoop f leafHash assignedSeq (t >>> 1) (bit + 1) index hash s
  else some (.error (.runningHashNotCleared leafHash assignedSeq), c, s)
termination_by t
decreasing_by rw [Nat.shiftRight_eq_div_pow]; omega

/-- The body of `AddLeafHash`, before its deferred function runs. -/
def addLeafHashBody (c : CompactMerkleTree α) (leafHash : α) (f : SetNodeFunc σ α) (s : σ) :
    Option (Except (CompactTreeError α) ℕ × CompactMerkleTree α × σ) :=
  let assignedSeq := c.size
  match f 0 assignedSeq leafHash s with
  | .error err => some (.error (.passed err), c, s)
  | .ok s =>
    if c.size = 0 then some (.ok assignedSeq, { c with nodes := c.nodes ++ [leafHash] }, s)
    else c.addLeafHashLoop f leafHash assignedSeq c.size 0 assignedSeq leafHash s

/-- `AddLeafHash`: the body, then the deferred `size++` and `recalculateRoot`, whose error is
dropped; a panic in either is a panic of the call. -/
def addLeafHash (c : CompactMerkleTree α) (leafHash : α) (f : SetNodeFunc σ α) (s : σ) :
    Option (Except (CompactTreeError α) ℕ × CompactMerkleTree α × σ) :=
  match c.addLeafHashBody leafHash f s with
  | none => none
  | some (result, c, s) =>
    match recalculateRoot { c with size := c.size + 1 } f s with
    | none => none
    | some (_, c, s) => some (result, c, s)

/-- `AddLeaf`: hashes the leaf data, then `AddLeafHash`. -/
def addLeaf (c : CompactMerkleTree α) (data : List UInt8) (f : SetNodeFunc σ α) (s : σ) :
    Option (Except (CompactTreeError α) (ℕ × α) × CompactMerkleTree α × σ) :=
  match c.hasher.hashLeaf data with
  | .error err => some (.error (.passed err), c, s)
  | .ok h =>
    match c.addLeafHash h f s with
    | none => none
    | some (.error err, c, s) => some (.error err, c, s)
    | some (.ok seq, c, s) => some (.ok (seq, h), c, s)

/-- `AddLeafHash` over a list of leaf hashes in turn, as the sequencer integrates a batch,
with the value each call returns. -/
def addLeafHashes (c : CompactMerkleTree α) (f : SetNodeFunc σ α) :
    List α → σ → Option (List (Except (CompactTreeError α) ℕ) × CompactMerkleTree α × σ)
  | [], s => some ([], c, s)
  | d :: ds, s =>
    match c.addLeafHash d f s with
    | none => none
    | some (r, c, s) =>
      match c.addLeafHashes f ds s with
      | none => none
      | some (rs, c, s) => some (r :: rs, c, s)

/-- The loop of `NewCompactMerkleTreeWithState` that fetches the node of each set bit. -/
def fetchNodesLoop (f : GetNodeFunc α) (sizeBits depth size : ℕ) (nodes : List α) :
    Except (CompactTreeError α) (List α) :=
  if depth < sizeBits then
    if size &&& 1 = 1 then
      let index := size - 1
      match f depth index with
      | .error err => .error (.passed err)
      | .ok h => fetchNodesLoop f sizeBits (depth + 1) (size >>> 1) (nodes.set depth h)
    else fetchNodesLoop f sizeBits (depth + 1) (size >>> 1) nodes
  else .ok nodes
termination_by sizeBits - depth

/-- `NewCompactMerkleTreeWithState`: a perfect tree takes `expectedRoot` as its root, any
other fetches its nodes and recomputes the root, which must be `expectedRoot`. -/
def newCompactMerkleTreeWithState [DecidableEq α] (hasher : LogHasher α) (size : ℕ)
    (f : GetNodeFunc α) (expectedRoot : α) :
    Option (Except (CompactTreeError α) (CompactMerkleTree α)) :=
  let sizeBits := bitLen size
  let r : CompactMerkleTree α := ⟨hasher, hasher.emptyRoot, List.replicate sizeBits default, size⟩
  let checkRoot (r : CompactMerkleTree α) :=
    if r.root ≠ expectedRoot then .error (.rootHashMismatch r.root expectedRoot) else .ok r
  if isPerfectTree size then
    some (checkRoot { r with root := expectedRoot, nodes := r.nodes.set (sizeBits - 1) expectedRoot })
  else
    match fetchNodesLoop f sizeBits 0 size r.nodes with
    | .error err => some (.error err)
    | .ok nodes =>
      -- the root is recomputed with a callback that stores nothing
      match recalculateRoot { r with nodes := nodes } (fun _ _ _ (u : Unit) => .ok u) () with
      | none => none
      | some (_, r, _) => some (checkRoot r)

-- The loops change the nodes and the root only. The deferred function of `AddLeafHash` runs on
-- every path out of its body, so a call that returns, with a sequence number or an error, has added
-- one to the size, and it returns what the body returned whatever the root recalculation did.

variable {σ : Type*}

theorem addLeafHashLoop_size {f : SetNodeFunc σ α} {leafHash hash : α}
    {assignedSeq t bit index : ℕ} {s s' : σ} {c c' : CompactMerkleTree α}
    {r : Except (CompactTreeError α) ℕ}
    (h : c.addLeafHashLoop f leafHash assignedSeq t bit index hash s = some (r, c', s')) :
    c'.size = c.size := by
  fun_induction addLeafHashLoop c f leafHash assignedSeq t bit index hash s <;> grind

theorem addLeafHashBody_size {f : SetNodeFunc σ α} {leafHash : α} {s s' : σ}
    {c c' : CompactMerkleTree α} {r : Except (CompactTreeError α) ℕ}
    (h : c.addLeafHashBody leafHash f s = some (r, c', s')) : c'.size = c.size := by
  unfold addLeafHashBody at h
  cases hf : f 0 c.size leafHash s with
  | error err =>
    -- the leaf write failed and the tree is untouched
    simp only [hf, Option.some.injEq, Prod.mk.injEq] at h
    rw [← h.2.1]
  | ok s₁ =>
    simp only [hf] at h
    split at h
    · simp only [Option.some.injEq, Prod.mk.injEq] at h
      rw [← h.2.1]
    · exact addLeafHashLoop_size h

theorem recalculateRoot_size {f : SetNodeFunc σ α} {s s' : σ} {c c' : CompactMerkleTree α}
    {r : Except String Unit} (h : c.recalculateRoot f s = some (r, c', s')) :
    c'.size = c.size := by
  unfold recalculateRoot at h
  grind

theorem addLeafHash_size {f : SetNodeFunc σ α} {leafHash : α} {s s' : σ}
    {c c' : CompactMerkleTree α} {r : Except (CompactTreeError α) ℕ}
    (h : c.addLeafHash leafHash f s = some (r, c', s')) : c'.size = c.size + 1 := by
  unfold addLeafHash at h
  split at h
  · contradiction
  · rename_i c₁ s₁ hbody
    split at h
    · contradiction
    · rename_i c₂ s₂ hroot
      simp only [Option.some.injEq, Prod.mk.injEq] at h
      obtain ⟨-, rfl, -⟩ := h
      rw [recalculateRoot_size hroot, addLeafHashBody_size hbody]

theorem addLeafHash_result {f : SetNodeFunc σ α} {leafHash : α} {s s' : σ}
    {c c' : CompactMerkleTree α} {r : Except (CompactTreeError α) ℕ}
    (h : c.addLeafHash leafHash f s = some (r, c', s')) :
    ∃ c₁ s₁, c.addLeafHashBody leafHash f s = some (r, c₁, s₁) := by
  unfold addLeafHash at h
  grind

end CompactMerkleTree

theorem bitLen_zero : bitLen 0 = 0 := by
  rw [bitLen, if_neg (lt_irrefl 0)]

theorem bitLen_of_pos {x : ℕ} (h : 0 < x) : bitLen x = bitLen (x / 2) + 1 := by
  rw [bitLen, if_pos h, Nat.shiftRight_eq_div_pow, pow_one]

theorem bitLen_le_iff {x k : ℕ} : bitLen x ≤ k ↔ x < 2 ^ k := by
  induction k generalizing x with
  | zero =>
    rcases Nat.eq_zero_or_pos x with rfl | hx
    · simp [bitLen_zero]
    · rw [bitLen_of_pos hx]
      simp only [pow_zero]
      omega
  | succ k ih =>
    rcases Nat.eq_zero_or_pos x with rfl | hx
    · simp [bitLen_zero]
    · rw [bitLen_of_pos hx, Nat.add_le_add_iff_right, ih, pow_succ]
      omega

theorem lt_bitLen_iff {x b : ℕ} : b < bitLen x ↔ 2 ^ b ≤ x := by
  rw [← not_le, bitLen_le_iff, not_lt]

theorem lt_two_pow_bitLen (x : ℕ) : x < 2 ^ bitLen x := bitLen_le_iff.mp le_rfl

theorem trailingOnes_le_bitLen (n : ℕ) : trailingOnes n ≤ bitLen n := by
  by_contra h
  have hm := mod_two_pow_of_le_trailingOnes (show bitLen n + 1 ≤ trailingOnes n by omega)
  have hlt := lt_two_pow_bitLen n
  have hp : 2 ^ (bitLen n + 1) = 2 * 2 ^ bitLen n := by ring
  rw [Nat.mod_eq_of_lt (by omega)] at hm
  omega

theorem bitLen_succ_of_lt {n : ℕ} (h : trailingOnes n < bitLen n) :
    bitLen (n + 1) = bitLen n := by
  have hlt := lt_two_pow_bitLen n
  have hne : n ≠ 2 ^ bitLen n - 1 := by
    intro heq
    have ht := trailingOnes_two_pow_sub_one (bitLen n)
    rw [← heq] at ht
    omega
  apply le_antisymm
  · rw [bitLen_le_iff]
    omega
  · rw [bitLen_le_iff]
    exact (Nat.lt_succ_self n).trans (lt_two_pow_bitLen (n + 1))

theorem succ_eq_two_pow_of_trailingOnes_eq {n : ℕ} (h : trailingOnes n = bitLen n) :
    n + 1 = 2 ^ bitLen n := by
  have hm := mod_two_pow_of_le_trailingOnes (le_of_eq h.symm)
  rw [Nat.mod_eq_of_lt (lt_two_pow_bitLen n)] at hm
  have hone : 1 ≤ 2 ^ bitLen n := Nat.one_le_two_pow
  omega

section Spec

variable [Inhabited α] (hc : α → α → α) (e : α)

/-- The node the compact tree keeps at bit `b` for the leaves `D`: when bit `b` of the size is
set, the perfect subtree of `2^b` leaves that ends where the lower bits' subtrees begin;
otherwise nil. -/
def compactNode (D : List α) (b : ℕ) : α :=
  if D.length.testBit b then nodeHash hc e D b (D.length / 2 ^ b - 1) else default

/-- The nodes of the compact tree over `D`, one per bit of its size. -/
def compactNodes (D : List α) : List α :=
  (List.range (bitLen D.length)).map (compactNode hc e D)

@[simp] theorem length_compactNodes (D : List α) :
    (compactNodes hc e D).length = bitLen D.length := by
  simp [compactNodes]

theorem getElem?_compactNodes (D : List α) (b : ℕ) :
    (compactNodes hc e D)[b]? =
      if b < bitLen D.length then some (compactNode hc e D b) else none := by
  unfold compactNodes
  split_ifs with h <;> simp [h]

/-- The nodes of `D` with those below bit `k` set to nil, as `AddLeafHash` leaves them while it
carries past them. -/
def clearBelow (xs : List α) (k : ℕ) : List α :=
  xs.mapIdx fun i x => if i < k then default else x

@[simp] theorem length_clearBelow (xs : List α) (k : ℕ) : (clearBelow xs k).length = xs.length := by
  simp [clearBelow]

theorem getElem?_clearBelow (xs : List α) (k i : ℕ) :
    (clearBelow xs k)[i]? = xs[i]?.map fun x => if i < k then default else x := by
  simp [clearBelow, List.getElem?_mapIdx]

theorem clearBelow_zero (xs : List α) : clearBelow xs 0 = xs := by
  apply List.ext_getElem?
  intro i
  rw [getElem?_clearBelow]
  cases xs[i]? <;> simp

theorem clearBelow_set {xs : List α} {k : ℕ} :
    (clearBelow xs k).set k default = clearBelow xs (k + 1) := by
  apply List.ext_getElem?
  intro i
  rw [List.getElem?_set, getElem?_clearBelow, getElem?_clearBelow, length_clearBelow]
  by_cases hki : k = i
  · -- the position just set is now nil, as it is below `k + 1`
    subst hki
    rw [if_pos rfl]
    rcases hx : xs[k]? with _ | x
    · rw [List.getElem?_eq_none_iff] at hx
      simp [show ¬ k < xs.length by omega]
    · have hk : k < xs.length := (List.getElem?_eq_some_iff.mp hx).1
      simp [hk]
  · rw [if_neg hki]
    congr 1
    funext x
    by_cases h1 : i < k
    · rw [if_pos h1, if_pos (by omega)]
    · rw [if_neg h1, if_neg (by omega)]

-- How one more leaf changes the nodes: those below the trailing ones of the old size become nil,
-- the one at the first clear bit becomes the subtree that ends with the new leaf, and the ones
-- above stay.

theorem compactNode_append_of_lt (D : List α) (d : α) {i : ℕ} (h : i < trailingOnes D.length) :
    compactNode hc e (D ++ [d]) i = default := by
  unfold compactNode
  rw [List.length_append, List.length_singleton, testBit_succ_of_lt_trailingOnes h]
  rfl

theorem compactNode_append_trailingOnes (D : List α) (d : α) :
    compactNode hc e (D ++ [d]) (trailingOnes D.length) =
      nodeHash hc e (D ++ [d]) (trailingOnes D.length) (D.length / 2 ^ trailingOnes D.length) := by
  unfold compactNode
  rw [List.length_append, List.length_singleton, testBit_succ_trailingOnes, if_pos rfl,
    succ_div_trailingOnes, Nat.add_sub_cancel]

theorem compactNode_append_of_gt (D : List α) (d : α) {i : ℕ} (h : trailingOnes D.length < i) :
    compactNode hc e (D ++ [d]) i = compactNode hc e D i := by
  unfold compactNode
  rw [List.length_append, List.length_singleton, testBit_succ_of_trailingOnes_lt h,
    succ_div_of_trailingOnes_lt h]
  split_ifs with hb
  · -- a set bit stands for a subtree of old leaves only
    rw [testBit_iff_div_mod] at hb
    have hpos : 1 ≤ D.length / 2 ^ i := Nat.one_le_iff_ne_zero.mpr fun h0 => by simp [h0] at hb
    apply nodeHash_append
    rw [Nat.sub_add_cancel hpos]
    exact Nat.div_mul_le_self _ _
  · rfl

/-- When the carry stops below the top bit, the running hash is stored at the first clear
bit. -/
theorem compactNodes_append_of_lt (D : List α) (d : α)
    (ht : trailingOnes D.length < bitLen D.length) :
    (clearBelow (compactNodes hc e D) (trailingOnes D.length)).set (trailingOnes D.length)
        (nodeHash hc e (D ++ [d]) (trailingOnes D.length) (D.length / 2 ^ trailingOnes D.length)) =
      compactNodes hc e (D ++ [d]) := by
  apply List.ext_getElem?
  intro i
  have hlen : bitLen (D ++ [d]).length = bitLen D.length := by
    rw [List.length_append, List.length_singleton, bitLen_succ_of_lt ht]
  rw [List.getElem?_set, getElem?_clearBelow, getElem?_compactNodes, getElem?_compactNodes,
    length_clearBelow, length_compactNodes, hlen]
  rcases Nat.lt_trichotomy i (trailingOnes D.length) with hi | rfl | hi
  · rw [if_neg (by omega), if_pos (by omega), if_pos (by omega),
      compactNode_append_of_lt hc e D d hi]
    simp [hi]
  · rw [if_pos rfl, if_pos ht, if_pos ht, compactNode_append_trailingOnes]
  · rw [if_neg (by omega), compactNode_append_of_gt hc e D d hi]
    simp [show ¬ i < trailingOnes D.length by omega]

theorem compactNodes_append_of_eq (D : List α) (d : α)
    (ht : trailingOnes D.length = bitLen D.length) :
    clearBelow (compactNodes hc e D) (trailingOnes D.length) ++
        [nodeHash hc e (D ++ [d]) (trailingOnes D.length) (D.length / 2 ^ trailingOnes D.length)] =
      compactNodes hc e (D ++ [d]) := by
  have hpow := succ_eq_two_pow_of_trailingOnes_eq ht
  have hlen : bitLen (D ++ [d]).length = bitLen D.length + 1 := by
    rw [List.length_append, List.length_singleton, hpow]
    apply le_antisymm
    · rw [bitLen_le_iff, pow_succ]
      have := Nat.two_pow_pos (bitLen D.length)
      omega
    · rw [Nat.succ_le_iff, lt_bitLen_iff]
  apply List.ext_getElem?
  intro i
  rw [List.getElem?_append, getElem?_compactNodes, hlen, length_clearBelow, length_compactNodes]
  rcases Nat.lt_trichotomy i (bitLen D.length) with hi | rfl | hi
  · rw [if_pos hi, getElem?_clearBelow, getElem?_compactNodes, if_pos hi, if_pos (by omega),
      compactNode_append_of_lt hc e D d (by omega)]
    simp [show i < trailingOnes D.length by omega]
  · rw [if_neg (lt_irrefl _), Nat.sub_self, if_pos (by omega), ← ht,
      compactNode_append_trailingOnes]
    rfl
  · rw [if_neg (by omega), if_neg (by omega)]
    simp [show i - bitLen D.length ≠ 0 by omega]

end Spec

end Trillian
