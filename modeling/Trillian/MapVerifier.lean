import Trillian.StorageNodeID

/-! `VerifyMapInclusionProof` of `merkle/map_verifier.go`, and the sparse Merkle tree of a map of
`2^BitLen` keys it is sound against. A proof element is a hash or empty (`Option α`). -/

namespace Trillian

namespace Map

open Bytes Storage

variable {α : Type}

/-- `hashers.MapHasher`: `HashEmpty(treeID, index, height)`, `HashLeaf(treeID, index, leaf)`,
`HashChildren(l, r)` and `BitLen()`. -/
structure MapHasher (α : Type) where
  hashEmpty : ℤ → List UInt8 → ℕ → α
  hashLeaf : ℤ → List UInt8 → List UInt8 → Except String α
  hashChildren : α → α → α
  bitLen : ℕ

/-- The errors of `VerifyMapInclusionProof`, with the values they print. -/
inductive VerifyError (α : Type) where
  /-- `index len: %d, want %d` -/
  | indexLen (got want : ℕ)
  /-- `proof len: %d, want %d` -/
  | proofLen (got want : ℕ)
  /-- `HashLeaf(): %v` -/
  | hashLeaf (err : String)
  /-- `calculated root: %x, want \n%x` -/
  | calculatedRoot (got want : α)
deriving DecidableEq

/-- One pass of the loop at `height` with the sibling `sib` there: the running hash after it,
empty while the path below is empty and the proof has no element. -/
def verifyStep (h : MapHasher α) (treeID : ℤ) (nID sib : Storage.NodeID) (height : ℕ)
    (pElement runningHash : Option α) : Option (Option α) :=
  match runningHash, pElement with
  | none, none => some none
  | _, _ => do
    -- at the first element of the proof, the hash of the empty branch the path is on
    let runningHash ← (match runningHash with
      | some r => pure r
      | none => do
        let emptyBranch ← nID.maskLeft (nID.prefixLenBits - height)
        pure (h.hashEmpty treeID emptyBranch.path height))
    let pElement := pElement.getD (h.hashEmpty treeID sib.path height)
    let b ← nID.bit height
    pure (some (if b = 0 then h.hashChildren runningHash pElement
      else h.hashChildren pElement runningHash))

/-- The loop over the siblings, from `height` up; `proof[height]` is in range. -/
def verifyLoop (h : MapHasher α) (treeID : ℤ) (nID : Storage.NodeID) (proof : List (Option α)) :
    ℕ → List Storage.NodeID → Option α → Option (Option α)
  | _, [], runningHash => some runningHash
  | height, sib :: sibs, runningHash => do
    let pElement ← proof[height]?
    let runningHash ← verifyStep h treeID nID sib height pElement runningHash
    verifyLoop h treeID nID proof (height + 1) sibs runningHash

/-- `VerifyMapInclusionProof`: `none` is a panic. Each element of the proof is empty or a hash,
`Size()` long, by its type. -/
def verifyMapInclusionProof [DecidableEq α] (treeID : ℤ) (index leaf : List UInt8)
    (expectedRoot : α) (proof : List (Option α)) (h : MapHasher α) :
    Option (Except (VerifyError α) Unit) :=
  if index.length * 8 ≠ h.bitLen then some (.error (.indexLen (index.length * 8) h.bitLen))
  else if proof.length ≠ h.bitLen then some (.error (.proofLen proof.length h.bitLen))
  else
    match (if leaf.length ≠ 0 then (h.hashLeaf treeID index leaf).map some else .ok none) with
    | .error err => some (.error (.hashLeaf err))
    | .ok runningHash => do
      let nID := newNodeIDFromHash index
      let sibs ← nID.siblings
      let runningHash ← verifyLoop h treeID nID proof 0 sibs runningHash
      -- a path empty all the way up is the empty tree
      let runningHash ← (match runningHash with
        | some r => pure r
        | none => do
          let emptyBranch ← nID.maskLeft 0
          pure (h.hashEmpty treeID emptyBranch.path h.bitLen))
      pure (if runningHash = expectedRoot then .ok ()
        else .error (.calculatedRoot runningHash expectedRoot))

section Tree

/-- No leaf of `L` lies below the node `p` at `height`, at the keys `p * 2^height + j`. -/
def SubtreeEmpty (L : ℕ → Option α) (height p : ℕ) : Prop :=
  ∀ j < 2 ^ height, L (p * 2 ^ height + j) = none

instance [DecidableEq α] (L : ℕ → Option α) (height p : ℕ) : Decidable (SubtreeEmpty L height p) :=
  inferInstanceAs (Decidable (∀ j < 2 ^ height, L (p * 2 ^ height + j) = none))

/-- The index `HashEmpty` is given for the node `p` at `height`: the leftmost key below it. -/
def emptyIndex (bitLen p height : ℕ) : List UInt8 := bigEndian (bitLen / 8) (p * 2 ^ height)

variable [DecidableEq α] (h : MapHasher α) (treeID : ℤ) (L : ℕ → Option α)

/-- The hash of the node `p` at `height` of the sparse Merkle tree of the leaf hashes `L`. -/
def smtNode : ℕ → ℕ → α
  | 0, p => (L p).getD (h.hashEmpty treeID (emptyIndex h.bitLen p 0) 0)
  | height + 1, p =>
    if SubtreeEmpty L (height + 1) p then
      h.hashEmpty treeID (emptyIndex h.bitLen p (height + 1)) (height + 1)
    else h.hashChildren (smtNode height (2 * p)) (smtNode height (2 * p + 1))

/-- The root of the sparse Merkle tree of `L`, over the keys below `2^BitLen`. -/
def smtRoot : α := smtNode h treeID L h.bitLen 0

end Tree

section Soundness

/-- What the soundness of the verifier needs of the hasher: `HashChildren` is injective, and
neither a leaf hash nor a node hash is ever the hash of an empty subtree. -/
structure DomainSeparated (h : MapHasher α) : Prop where
  hashChildren_inj : ∀ a b c d, h.hashChildren a b = h.hashChildren c d → a = c ∧ b = d
  leaf_ne_empty : ∀ t i v x t' i' height, h.hashLeaf t i v = .ok x → x ≠ h.hashEmpty t' i' height
  children_ne_empty : ∀ a b t i height, h.hashChildren a b ≠ h.hashEmpty t i height

/-- The leaves of the map are leaf hashes, as `SetLeaves` stores them. -/
def LeafHashes (h : MapHasher α) (L : ℕ → Option α) : Prop :=
  ∀ k x, L k = some x → ∃ t i v, h.hashLeaf t i v = .ok x

theorem subtreeEmpty_zero {L : ℕ → Option α} {p : ℕ} : SubtreeEmpty L 0 p ↔ L p = none := by
  simp [SubtreeEmpty]

/-- Below an empty node, both children are empty. -/
theorem SubtreeEmpty.child {L : ℕ → Option α} {n q b : ℕ} (hq : SubtreeEmpty L (n + 1) q) (hb : b < 2) :
    SubtreeEmpty L n (2 * q + b) := by
  intro j hj
  have hkey : (2 * q + b) * 2 ^ n + j = q * 2 ^ (n + 1) + (b * 2 ^ n + j) := by ring
  have hlt : b * 2 ^ n + j < 2 ^ (n + 1) := by
    calc b * 2 ^ n + j < (b + 1) * 2 ^ n := by rw [Nat.succ_mul]; omega
      _ ≤ 2 * 2 ^ n := Nat.mul_le_mul_right _ hb
      _ = 2 ^ (n + 1) := (Nat.pow_succ' ..).symm
  rw [hkey]
  exact hq _ hlt

variable [DecidableEq α]

/-- The running hash at `height` on the path of the key `k`, against the tree of `L`: a hash is
the node there, and an empty one says that no leaf lies below that node. -/
def AgreesAt (h : MapHasher α) (treeID : ℤ) (L : ℕ → Option α) (k height : ℕ) : Option α → Prop
  | some r => r = smtNode h treeID L height (k >>> height)
  | none => SubtreeEmpty L height (k >>> height)

variable {h : MapHasher α} {treeID : ℤ} {L : ℕ → Option α}

/-- The node at `height` above `k` is the child, on the side of bit `height`, of the node
above it. -/
theorem shiftRight_eq_two_mul_add (k n : ℕ) : k >>> n = 2 * (k >>> (n + 1)) + k >>> n % 2 := by
  rw [Nat.shiftRight_succ]
  exact (Nat.div_add_mod _ 2).symm

variable (hds : DomainSeparated h)
include hds

theorem subtreeEmpty_of_hashEmpty_eq (hL : LeafHashes h L) {t : ℤ} {i : List UInt8}
    {height n q : ℕ} (he : h.hashEmpty t i height = smtNode h treeID L n q) : SubtreeEmpty L n q := by
  cases n with
  | zero =>
    rw [subtreeEmpty_zero]
    cases hq : L q with
    | none => rfl
    | some x =>
      -- a leaf hash is never an empty subtree's hash
      obtain ⟨t', i', v, hx⟩ := hL q x hq
      rw [smtNode, hq, Option.getD_some] at he
      exact absurd he.symm (hds.leaf_ne_empty _ _ _ _ _ _ _ hx)
  | succ n =>
    rw [smtNode] at he
    split_ifs at he with hempty
    · exact hempty
    · exact absurd he.symm (hds.children_ne_empty _ _ _ _ _)

/-- A node hash that is a node of the tree on the path of `k`, with its arguments in the order
of bit `n` of `k`, has the node below on the path as the running side. -/
theorem smtNode_of_hashChildren_eq {R P : α} {k n : ℕ}
    (he : (if k >>> n % 2 = 0 then h.hashChildren R P else h.hashChildren P R) =
      smtNode h treeID L (n + 1) (k >>> (n + 1))) : R = smtNode h treeID L n (k >>> n) := by
  rw [smtNode] at he
  split_ifs at he with hbit hempty hempty
  · exact absurd he (hds.children_ne_empty _ _ _ _ _)
  · -- the path goes left
    rw [shiftRight_eq_two_mul_add k n, hbit, Nat.add_zero]
    exact (hds.hashChildren_inj _ _ _ _ he).1
  · exact absurd he (hds.children_ne_empty _ _ _ _ _)
  · -- the path goes right
    have hone : k >>> n % 2 = 1 := by omega
    rw [shiftRight_eq_two_mul_add k n, hone]
    exact (hds.hashChildren_inj _ _ _ _ he).2

/-- One pass of the loop, read from the top: if the running hash after it agrees with the tree,
so did the running hash before it. -/
theorem agreesAt_of_verifyStep (hL : LeafHashes h L) {k height : ℕ} {nID sib : Storage.NodeID}
    {p r r₁ : Option α} (hbit : nID.bit height = some (k >>> height % 2))
    (hstep : verifyStep h treeID nID sib height p r = some r₁)
    (hagree : AgreesAt h treeID L k (height + 1) r₁) : AgreesAt h treeID L k height r := by
  unfold verifyStep at hstep
  split at hstep
  · -- nothing on the path nor in the proof: the node below is empty too
    rw [Option.some.injEq] at hstep
    subst hstep
    rw [AgreesAt, shiftRight_eq_two_mul_add k height]
    exact SubtreeEmpty.child hagree (Nat.mod_lt _ two_pos)
  · obtain ⟨R, hR, hstep⟩ := Option.bind_eq_some_iff.mp hstep
    obtain ⟨b, hb, hstep⟩ := Option.bind_eq_some_iff.mp hstep
    rw [hbit, Option.some.injEq] at hb
    subst hb
    rw [Option.pure_def, Option.some.injEq] at hstep
    subst hstep
    have hnode := smtNode_of_hashChildren_eq hds hagree
    cases r with
    | some x =>
      dsimp only at hR
      rw [Option.pure_def, Option.some.injEq] at hR
      rw [AgreesAt, hR]
      exact hnode
    | none =>
      -- the empty branch's hash is the node below
      dsimp only at hR
      obtain ⟨emptyBranch, -, hR⟩ := Option.bind_eq_some_iff.mp hR
      rw [Option.pure_def, Option.some.injEq] at hR
      rw [← hR] at hnode
      exact subtreeEmpty_of_hashEmpty_eq hds hL hnode

/-- The loop, read from the top: if the running hash it ends with agrees with the tree, so did
the one it started from. -/
theorem agreesAt_of_verifyLoop (hL : LeafHashes h L) {k : ℕ} {nID : Storage.NodeID}
    {proof : List (Option α)} (hbit : ∀ i < h.bitLen, nID.bit i = some (k >>> i % 2)) :
    ∀ (sibs : List Storage.NodeID) (height : ℕ) (r r' : Option α),
      height + sibs.length ≤ h.bitLen → verifyLoop h treeID nID proof height sibs r = some r' →
      AgreesAt h treeID L k (height + sibs.length) r' → AgreesAt h treeID L k height r
  | [], height, r, r', _, hloop, hagree => by
    rw [verifyLoop, Option.some.injEq] at hloop
    subst hloop
    exact hagree
  | sib :: sibs, height, r, r', hlen, hloop, hagree => by
    rw [List.length_cons] at hlen hagree
    rw [verifyLoop] at hloop
    obtain ⟨p, -, hloop⟩ := Option.bind_eq_some_iff.mp hloop
    obtain ⟨r₁, hstep, hloop⟩ := Option.bind_eq_some_iff.mp hloop
    -- the passes above this one, then this one
    have habove := agreesAt_of_verifyLoop hL hbit sibs (height + 1) r₁ r' (by omega) hloop
      (by rw [Nat.add_right_comm]; exact hagree)
    exact agreesAt_of_verifyStep hds hL (hbit height (by omega)) hstep habove

omit [DecidableEq α] hds in
theorem length_of_mapM_eq_some {β γ : Type} {f : β → Option γ} :
    ∀ {l : List β} {r : List γ}, l.mapM f = some r → r.length = l.length
  | [], r, hr => by
    rw [List.mapM_nil, Option.pure_def, Option.some.injEq] at hr
    rw [← hr]
    rfl
  | x :: l, r, hr => by
    rw [List.mapM_cons] at hr
    obtain ⟨y, -, hr⟩ := Option.bind_eq_some_iff.mp hr
    obtain ⟨ys, hys, hr⟩ := Option.bind_eq_some_iff.mp hr
    rw [Option.pure_def, Option.some.injEq] at hr
    rw [← hr, List.length_cons, List.length_cons, length_of_mapM_eq_some hys]

omit [DecidableEq α] hds in
theorem length_siblings {n : Storage.NodeID} {sibs : List Storage.NodeID}
    (h : n.siblings = some sibs) : sibs.length = n.prefixLenBits.toNat := by
  unfold Storage.NodeID.siblings at h
  split_ifs at h
  rw [length_of_mapM_eq_some h, List.length_range]

omit hds in
/-- A successful verification: the index and the proof are `BitLen` long, and the loop over the
siblings, from the leaf hash or an empty one, ended at a running hash that is the expected root,
or empty with `HashEmpty` at the top the expected root. -/
theorem verifyMapInclusionProof_eq_ok {index leaf : List UInt8} {expectedRoot : α}
    {proof : List (Option α)}
    (hv : verifyMapInclusionProof treeID index leaf expectedRoot proof h = some (.ok ())) :
    index.length * 8 = h.bitLen ∧ ∃ r₀ sibs r',
      (if leaf.length ≠ 0 then (h.hashLeaf treeID index leaf).map some else .ok none) = .ok r₀ ∧
      (newNodeIDFromHash index).siblings = some sibs ∧
      verifyLoop h treeID (newNodeIDFromHash index) proof 0 sibs r₀ = some r' ∧
      (∀ x, r' = some x → x = expectedRoot) ∧
      (r' = none → ∃ i, h.hashEmpty treeID i h.bitLen = expectedRoot) := by
  unfold verifyMapInclusionProof at hv
  -- the length checks passed
  by_cases hindex : index.length * 8 ≠ h.bitLen
  · rw [if_pos hindex] at hv
    simp at hv
  rw [if_neg hindex] at hv
  by_cases hproof : proof.length ≠ h.bitLen
  · rw [if_pos hproof] at hv
    simp at hv
  rw [if_neg hproof] at hv
  split at hv
  · simp at hv
  · next r₀ hr₀ =>
    obtain ⟨sibs, hsibs, hv⟩ := Option.bind_eq_some_iff.mp hv
    obtain ⟨r', hloop, hv⟩ := Option.bind_eq_some_iff.mp hv
    obtain ⟨root, hroot, hv⟩ := Option.bind_eq_some_iff.mp hv
    rw [Option.pure_def, Option.some.injEq] at hv
    split_ifs at hv with heq
    refine ⟨not_not.mp hindex, r₀, sibs, r', hr₀, hsibs, hloop, fun x hx => ?_, fun hnone => ?_⟩
    · -- the running hash was the root
      subst hx
      dsimp only at hroot
      rw [Option.pure_def, Option.some.injEq] at hroot
      rw [hroot, heq]
    · -- the empty path's root
      subst hnone
      dsimp only at hroot
      obtain ⟨emptyBranch, -, hroot⟩ := Option.bind_eq_some_iff.mp hroot
      rw [Option.pure_def, Option.some.injEq] at hroot
      exact ⟨emptyBranch.path, hroot.trans heq⟩

/-- `VerifyMapInclusionProof` is sound for a domain-separated hasher: a proof that verifies
against the root of the sparse Merkle tree of `L` proves an empty value exactly when the key has
no leaf, and otherwise that the leaf at the key is the hash of the value. -/
theorem verifyMapInclusionProof_sound (hL : LeafHashes h L) {index leaf : List UInt8}
    {proof : List (Option α)}
    (hv : verifyMapInclusionProof treeID index leaf (smtRoot h treeID L) proof h = some (.ok ())) :
    (leaf = [] ↔ L (toNatBE index) = none) ∧
      (leaf ≠ [] → ∃ x, L (toNatBE index) = some x ∧ h.hashLeaf treeID index leaf = .ok x) := by
  obtain ⟨hindex, r₀, sibs, r', hr₀, hsibs, hloop, hsome, hnone⟩ := verifyMapInclusionProof_eq_ok hv
  -- the key is below `2^BitLen`, so the node above it at the top is the root
  have hk : toNatBE index >>> h.bitLen = 0 := by
    rw [Nat.shiftRight_eq_div_pow, Nat.div_eq_zero_iff_lt (Nat.two_pow_pos _), ← hindex,
      Nat.mul_comm]
    exact toNatBE_lt index
  have hlen : sibs.length = h.bitLen := by
    rw [length_siblings hsibs]
    simp only [newNodeIDFromHash]
    omega
  have hbit : ∀ i < h.bitLen, (newNodeIDFromHash index).bit i = some (toNatBE index >>> i % 2) :=
    fun i hi => bit_newNodeIDFromHash (by omega)
  have htop : AgreesAt h treeID L (toNatBE index) (0 + sibs.length) r' := by
    rw [Nat.zero_add, hlen]
    cases r' with
    | some x => rw [AgreesAt, hk, hsome x rfl]; rfl
    | none =>
      obtain ⟨i, hi⟩ := hnone rfl
      rw [AgreesAt, hk]
      exact subtreeEmpty_of_hashEmpty_eq hds hL (hi.trans rfl)
  have hbottom := agreesAt_of_verifyLoop hds hL hbit sibs 0 r₀ r' (by omega) hloop htop
  by_cases hleaf : leaf = []
  · -- an empty value starts from an empty path
    subst hleaf
    rw [if_neg (by simp), Except.ok.injEq] at hr₀
    subst hr₀
    rw [AgreesAt, Nat.shiftRight_zero] at hbottom
    have hnil : L (toNatBE index) = none := subtreeEmpty_zero.mp hbottom
    exact ⟨iff_of_true rfl hnil, fun hne => absurd rfl hne⟩
  · rw [if_pos (by simpa using hleaf)] at hr₀
    cases hx : h.hashLeaf treeID index leaf with
    | error e => rw [hx] at hr₀; cases hr₀
    | ok x =>
      rw [hx] at hr₀
      cases hr₀
      -- the leaf hash is the tree's leaf, which a missing key would make an empty hash
      cases hk' : L (toNatBE index) with
      | none =>
        rw [AgreesAt, Nat.shiftRight_zero, smtNode, hk', Option.getD_none] at hbottom
        exact absurd hbottom (hds.leaf_ne_empty _ _ _ _ _ _ _ hx)
      | some y =>
        rw [AgreesAt, Nat.shiftRight_zero, smtNode, hk', Option.getD_some] at hbottom
        refine ⟨iff_of_false hleaf (by simp), fun _ => ⟨y, rfl, ?_⟩⟩
        rw [← hbottom]

end Soundness

section Symbolic

/-- Hashes as the terms that made them: the ideal hasher, injective and domain-separated. -/
inductive SymHash where
  | empty (treeID : ℤ) (index : List UInt8) (height : ℕ)
  | leaf (treeID : ℤ) (index leaf : List UInt8)
  | node (l r : SymHash)
deriving DecidableEq

/-- The ideal hasher of a map with `bitLen`-bit keys. -/
def symHasher (bitLen : ℕ) : MapHasher SymHash :=
  ⟨.empty, fun t i v => .ok (.leaf t i v), .node, bitLen⟩

theorem domainSeparated_symHasher (bitLen : ℕ) : DomainSeparated (symHasher bitLen) where
  hashChildren_inj a b c d he := SymHash.node.inj he
  leaf_ne_empty t i v x t' i' height hx := by
    rw [symHasher, Except.ok.injEq] at hx
    subst hx
    exact SymHash.noConfusion
  children_ne_empty a b t i height := SymHash.noConfusion

/-- The map with the one leaf `[1]` at the key `5`, of eight bits, proves it with a proof of
empty elements, and the proof shows that leaf. -/
theorem verifyMapInclusionProof_sound_five :
    DomainSeparated (symHasher 8) ∧
    LeafHashes (symHasher 8) (fun k => if k = 5 then some (.leaf 0 [5] [1]) else none) ∧
    verifyMapInclusionProof 0 [5] [1]
      (smtRoot (symHasher 8) 0 fun k => if k = 5 then some (.leaf 0 [5] [1]) else none)
      (List.replicate 8 none) (symHasher 8) = some (.ok ()) ∧
    (([1] : List UInt8) = [] ↔
      (fun k => if k = 5 then some (SymHash.leaf 0 [5] [1]) else none) (toNatBE [5]) = none) ∧
    (([1] : List UInt8) ≠ [] → ∃ x,
      (fun k => if k = 5 then some (SymHash.leaf 0 [5] [1]) else none) (toNatBE [5]) = some x ∧
      (symHasher 8).hashLeaf 0 [5] [1] = .ok x) := by
  have hds := domainSeparated_symHasher 8
  have hL : LeafHashes (symHasher 8) (fun k => if k = 5 then some (.leaf 0 [5] [1]) else none) := by
    intro k x hk
    dsimp only at hk
    split_ifs at hk
    rw [Option.some.injEq] at hk
    exact ⟨0, [5], [1], by rw [← hk]; rfl⟩
  have hv : verifyMapInclusionProof 0 [5] [1]
      (smtRoot (symHasher 8) 0 fun k => if k = 5 then some (.leaf 0 [5] [1]) else none)
      (List.replicate 8 none) (symHasher 8) = some (.ok ()) := by
    decide +kernel
  exact ⟨hds, hL, hv, verifyMapInclusionProof_sound hds hL hv⟩

end Symbolic

end Map

end Trillian
