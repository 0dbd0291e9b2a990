import Trillian.MerkleAuditPath

/-! The log verifier of `merkle/log_verifier.go`, with the index helpers of `merkle/common.go`,
against the audit paths and consistency proofs of RFC 6962. -/

namespace Trillian

open Rfc6962

/-- `hashers.LogHasher`, with hashes as values of `α`. -/
structure LogHasher (α : Type*) where
  emptyRoot : α
  hashLeaf : List UInt8 → Except String α
  hashChildren : α → α → α

/-- `parent`: the index of the parent node in the level above. -/
def parent (leafIndex : ℕ) : ℕ := leafIndex >>> 1

def isRightChild (leafIndex : ℕ) : Bool := leafIndex &&& 1 == 1

@[simp] theorem parent_eq (j : ℕ) : parent j = j / 2 := by
  simp [parent, Nat.shiftRight_eq_div_pow]

@[simp] theorem isRightChild_iff (j : ℕ) : isRightChild j = true ↔ j % 2 = 1 := by
  simp [isRightChild, Nat.and_one_is_mod]

/-- The errors of the verifier: `RootMismatchError`, or the text of any other error. -/
inductive VerifierError (α : Type*) where
  | rootMismatch (expectedRoot calculatedRoot : α)
  | other (msg : String)
  deriving DecidableEq

structure LogVerifier (α : Type*) where
  hasher : LogHasher α

namespace LogVerifier

variable {α : Type*}

-- Soundness compares a run on an arbitrary proof with the run on the honest one: the positions both
-- runs read hold the same elements.

/-- The proofs `p₁` and `p₂` hold the same elements at the positions `lo ≤ j < hi`. -/
def AgreeBetween (p₁ p₂ : List α) (lo hi : ℕ) : Prop :=
  ∀ j, lo ≤ j → j < hi → p₁[j]? = p₂[j]?

theorem agreeBetween_of_le {p₁ p₂ : List α} {lo hi : ℕ} (h : hi ≤ lo) :
    AgreeBetween p₁ p₂ lo hi :=
  fun j hj1 hj2 => absurd hj2 (by omega)

theorem AgreeBetween.cons {p₁ p₂ : List α} {lo hi : ℕ} (hp₁ : lo < p₁.length)
    (hp₂ : lo < p₂.length) (he : p₁[lo] = p₂[lo]) (h : AgreeBetween p₁ p₂ (lo + 1) hi) :
    AgreeBetween p₁ p₂ lo hi := by
  intro j hj1 hj2
  rcases Nat.eq_or_lt_of_le hj1 with rfl | hj
  · rw [List.getElem?_eq_getElem hp₁, List.getElem?_eq_getElem hp₂, he]
  · exact h j hj hj2

theorem AgreeBetween.trans {p₁ p₂ : List α} {lo mid hi : ℕ} (h₁ : AgreeBetween p₁ p₂ lo mid)
    (h₂ : AgreeBetween p₁ p₂ mid hi) : AgreeBetween p₁ p₂ lo hi := by
  intro j hj1 hj2
  by_cases hj : j < mid
  · exact h₁ j hj1 hj
  · exact h₂ j (by omega) hj2

theorem eq_of_agreeBetween {p₁ p₂ : List α} (hlen : p₁.length = p₂.length)
    (h : AgreeBetween p₁ p₂ 0 p₁.length) : p₁ = p₂ := by
  apply List.ext_getElem?
  intro j
  by_cases hj : j < p₁.length
  · exact h j (Nat.zero_le j) hj
  · rw [List.getElem?_eq_none (by omega), List.getElem?_eq_none (by omega)]

theorem getElem_of_eq_append {p pre post : List α} {s : α} {k : ℕ} (h : p = pre ++ s :: post)
    (hk : k = pre.length) (hlt : k < p.length) : p[k] = s := by
  subst h hk
  simp

/-- The loop of `RootFromInclusionProof`: the running hash `cntHash` of node `cntIndex`, the
last node `lastIndex` of the level, and the next proof element `proofIndex`. -/
def rootFromInclusionProofLoop (v : LogVerifier α) (treeSize : ℤ) (proof : List α)
    (cntIndex lastIndex : ℕ) (cntHash : α) (proofIndex : ℕ) : Except (VerifierError α) (α × ℕ) :=
  if 0 < lastIndex then
    if h : proof.length ≤ proofIndex then
      let n := proof.length
      .error (.other s!"insuficient number of proof components ({n}) for treeSize {treeSize}")
    else if isRightChild cntIndex then
      v.rootFromInclusionProofLoop treeSize proof (parent cntIndex) (parent lastIndex)
        (v.hasher.hashChildren proof[proofIndex] cntHash) (proofIndex + 1)
    else if cntIndex < lastIndex then
      v.rootFromInclusionProofLoop treeSize proof (parent cntIndex) (parent lastIndex)
        (v.hasher.hashChildren cntHash proof[proofIndex]) (proofIndex + 1)
    else
      -- the sibling does not exist
      v.rootFromInclusionProofLoop treeSize proof (parent cntIndex) (parent lastIndex) cntHash
        proofIndex
  else .ok (cntHash, proofIndex)
termination_by lastIndex
decreasing_by all_goals (rw [parent_eq]; omega)

/-- `RootFromInclusionProof`: the root that `proof` gives for `leafHash` at `leafIndex`. -/
def rootFromInclusionProof (v : LogVerifier α) (leafIndex treeSize : ℤ) (proof : List α)
    (leafHash : α) : Except (VerifierError α) α :=
  if leafIndex < 0 then .error (.other "invalid leafIndex < 0")
  else if treeSize < 0 then .error (.other "invalid treeSize < 0")
  else if treeSize - 1 < leafIndex then
    .error (.other s!"leafIndex is not in a tree of size {treeSize}, want {leafIndex}<{treeSize}")
  else
    match v.rootFromInclusionProofLoop treeSize proof leafIndex.toNat (treeSize - 1).toNat
        leafHash 0 with
    | .error err => .error err
    | .ok (cntHash, proofIndex) =>
      if proofIndex ≠ proof.length then
        let n := proof.length
        .error (.other s!"invalid proof, expected {proofIndex} components, but have {n}")
      else .ok cntHash

def verifyInclusionProof [DecidableEq α] (v : LogVerifier α) (leafIndex treeSize : ℤ)
    (proof : List α) (root leafHash : α) : Except (VerifierError α) Unit :=
  match v.rootFromInclusionProof leafIndex treeSize proof leafHash with
  | .error err => .error err
  | .ok calcRoot => if calcRoot = root then .ok () else .error (.rootMismatch root calcRoot)

/-- The first loop of `VerifyConsistencyProof`: up from node `snapshot1 - 1` over its run of
right children. -/
def consistencyClimb (node lastNode : ℕ) : ℕ × ℕ :=
  if _h : isRightChild node then consistencyClimb (parent node) (parent lastNode)
  else (node, lastNode)
termination_by node
decreasing_by
  rw [parent_eq]
  rw [isRightChild_iff] at _h
  omega

/-- The second loop of `VerifyConsistencyProof`, over the levels of the old tree: `node1Hash`
takes in the left siblings only and ends at the old root, `node2Hash` takes in both. -/
def consistencyOldLoop (v : LogVerifier α) (proof : List α) (node lastNode : ℕ)
    (node1Hash node2Hash : α) (proofIndex : ℕ) : Except (VerifierError α) (ℕ × α × α × ℕ) :=
  if 0 < node then
    if h : proof.length ≤ proofIndex then .error (.other "insufficient number of proof components")
    else if isRightChild node then
      v.consistencyOldLoop proof (parent node) (parent lastNode)
        (v.hasher.hashChildren proof[proofIndex] node1Hash)
        (v.hasher.hashChildren proof[proofIndex] node2Hash) (proofIndex + 1)
    else if node < lastNode then
      v.consistencyOldLoop proof (parent node) (parent lastNode) node1Hash
        (v.hasher.hashChildren node2Hash proof[proofIndex]) (proofIndex + 1)
    else
      -- the sibling does not exist
      v.consistencyOldLoop proof (parent node) (parent lastNode) node1Hash node2Hash proofIndex
  else .ok (lastNode, node1Hash, node2Hash, proofIndex)
termination_by node
decreasing_by all_goals (rw [parent_eq]; omega)

/-- The third loop of `VerifyConsistencyProof`, over the levels above the old root, where the
node is always a left child with a sibling. -/
def consistencyNewLoop (v : LogVerifier α) (proof : List α) (lastNode : ℕ) (node2Hash : α)
    (proofIndex : ℕ) : Except (VerifierError α) (α × ℕ) :=
  if 0 < lastNode then
    if h : proof.length ≤ proofIndex then
      .error (.other "can\x27t verify newer root; insufficient number of proof components")
    else
      v.consistencyNewLoop proof (parent lastNode)
        (v.hasher.hashChildren node2Hash proof[proofIndex]) (proofIndex + 1)
  else .ok (node2Hash, proofIndex)
termination_by lastNode
decreasing_by rw [parent_eq]; omega

/-- The end of `VerifyConsistencyProof`, from the node above the right-child run of
`snapshot1 - 1`: both running hashes start at `seed`, then the old root and the new root are
checked in turn, and the whole proof must be used. -/
def consistencyCheckRoots [DecidableEq α] (v : LogVerifier α) (root1 root2 : α)
    (proof : List α) (node lastNode : ℕ) (seed : α) (proofIndex : ℕ) :
    Except (VerifierError α) Unit :=
  match v.consistencyOldLoop proof node lastNode seed seed proofIndex with
  | .error err => .error err
  | .ok (lastNode, node1Hash, node2Hash, proofIndex) =>
    if node1Hash ≠ root1 then .error (.rootMismatch root1 node1Hash)
    else
      match v.consistencyNewLoop proof lastNode node2Hash proofIndex with
      | .error err => .error err
      | .ok (node2Hash, proofIndex) =>
        if node2Hash ≠ root2 then .error (.rootMismatch root2 node2Hash)
        else if proofIndex ≠ proof.length then .error (.other "proof has too many components")
        else .ok ()

/-- `VerifyConsistencyProof`: that `proof` links `root1` of the tree of size `snapshot1` to
`root2` of the tree of size `snapshot2`. -/
def verifyConsistencyProof [DecidableEq α] (v : LogVerifier α) (snapshot1 snapshot2 : ℤ)
    (root1 root2 : α) (proof : List α) : Except (VerifierError α) Unit :=
  if snapshot1 < 0 then .error (.other s!"snapshot1 ({snapshot1}) < 0 ")
  else if snapshot2 < snapshot1 then
    -- the source prints the two sizes the other way round
    .error (.other s!"snapshot2 ({snapshot1}) < snapshot1 ({snapshot2})")
  else if snapshot1 = snapshot2 then
    if root1 ≠ root2 then .error (.rootMismatch root2 root1)
    else if 0 < proof.length then .error (.other "root1 and root2 match, but proof is non-empty")
    else .ok ()
  else if snapshot1 = 0 then
    if 0 < proof.length then
      let n := proof.length
      .error (.other s!"expected empty proof, but provided proof has {n} components")
    else .ok ()
  else if hp : proof = [] then .error (.other "empty proof")
  else
    let climbed := consistencyClimb (snapshot1 - 1).toNat (snapshot2 - 1).toNat
    -- below a balanced old tree the verifier starts from `root1` itself
    if 0 < climbed.1 then v.consistencyCheckRoots root1 root2 proof climbed.1 climbed.2
      (proof.head hp) 1
    else v.consistencyCheckRoots root1 root2 proof climbed.1 climbed.2 root1 0

section InclusionLoop

variable (v : LogVerifier α) {treeSize : ℤ} {proof : List α} {cntIndex lastIndex proofIndex : ℕ}
  {cntHash : α}

theorem rootFromInclusionProofLoop_zero :
    v.rootFromInclusionProofLoop treeSize proof cntIndex 0 cntHash proofIndex =
      .ok (cntHash, proofIndex) := by
  rw [rootFromInclusionProofLoop, if_neg (by omega)]

theorem rootFromInclusionProofLoop_short (hlast : 0 < lastIndex)
    (hp : proof.length ≤ proofIndex) :
    ∃ msg, v.rootFromInclusionProofLoop treeSize proof cntIndex lastIndex cntHash proofIndex =
      .error (.other msg) := by
  rw [rootFromInclusionProofLoop, if_pos hlast, dif_pos hp]
  exact ⟨_, rfl⟩

theorem rootFromInclusionProofLoop_right (hlast : 0 < lastIndex)
    (hp : proofIndex < proof.length) (hodd : cntIndex % 2 = 1) :
    v.rootFromInclusionProofLoop treeSize proof cntIndex lastIndex cntHash proofIndex =
      v.rootFromInclusionProofLoop treeSize proof (cntIndex / 2) (lastIndex / 2)
        (v.hasher.hashChildren proof[proofIndex] cntHash) (proofIndex + 1) := by
  rw [rootFromInclusionProofLoop, if_pos hlast, dif_neg (by omega),
    if_pos ((isRightChild_iff _).mpr hodd), parent_eq, parent_eq]

theorem rootFromInclusionProofLoop_left (hlast : 0 < lastIndex)
    (hp : proofIndex < proof.length) (heven : cntIndex % 2 = 0) (hlt : cntIndex < lastIndex) :
    v.rootFromInclusionProofLoop treeSize proof cntIndex lastIndex cntHash proofIndex =
      v.rootFromInclusionProofLoop treeSize proof (cntIndex / 2) (lastIndex / 2)
        (v.hasher.hashChildren cntHash proof[proofIndex]) (proofIndex + 1) := by
  have hr : isRightChild cntIndex = false := by
    rw [Bool.eq_false_iff, ne_eq, isRightChild_iff]
    omega
  rw [rootFromInclusionProofLoop, if_pos hlast, dif_neg (by omega), hr, if_neg (by simp),
    if_pos hlt, parent_eq, parent_eq]

theorem rootFromInclusionProofLoop_skip (hlast : 0 < lastIndex)
    (hp : proofIndex < proof.length) (heven : cntIndex % 2 = 0) (hlt : ¬ cntIndex < lastIndex) :
    v.rootFromInclusionProofLoop treeSize proof cntIndex lastIndex cntHash proofIndex =
      v.rootFromInclusionProofLoop treeSize proof (cntIndex / 2) (lastIndex / 2) cntHash
        proofIndex := by
  have hr : isRightChild cntIndex = false := by
    rw [Bool.eq_false_iff, ne_eq, isRightChild_iff]
    omega
  rw [rootFromInclusionProofLoop, if_pos hlast, dif_neg (by omega), hr, if_neg (by simp),
    if_neg hlt, parent_eq, parent_eq]

theorem lt_length_of_rootFromInclusionProofLoop_ok {r : α × ℕ} (hlast : 0 < lastIndex)
    (h : v.rootFromInclusionProofLoop treeSize proof cntIndex lastIndex cntHash proofIndex =
      .ok r) : proofIndex < proof.length := by
  by_contra hp
  obtain ⟨msg, hmsg⟩ : ∃ msg, v.rootFromInclusionProofLoop treeSize proof cntIndex lastIndex
      cntHash proofIndex = .error (.other msg) := v.rootFromInclusionProofLoop_short hlast (by omega)
  rw [hmsg] at h
  cases h

/-- Two runs of the loop from the same indices that reach the same hash started from the same
hash, stop at the same proof index, and read the same proof elements on the way. -/
theorem rootFromInclusionProofLoop_inj (hinj : Function.Injective2 v.hasher.hashChildren)
    {proof₁ proof₂ : List α} {x₁ x₂ r : α} {k₁ k₂ : ℕ}
    (h₁ : v.rootFromInclusionProofLoop treeSize proof₁ cntIndex lastIndex x₁ proofIndex =
      .ok (r, k₁))
    (h₂ : v.rootFromInclusionProofLoop treeSize proof₂ cntIndex lastIndex x₂ proofIndex =
      .ok (r, k₂)) :
    x₁ = x₂ ∧ k₁ = k₂ ∧ AgreeBetween proof₁ proof₂ proofIndex k₁ := by
  induction lastIndex using Nat.strong_induction_on generalizing cntIndex x₁ x₂ proofIndex with
  | _ lastIndex ih =>
    rcases Nat.eq_zero_or_pos lastIndex with rfl | hlast
    · rw [rootFromInclusionProofLoop_zero] at h₁ h₂
      obtain ⟨rfl, rfl⟩ := Prod.mk.inj (Except.ok.inj h₁)
      obtain ⟨rfl, rfl⟩ := Prod.mk.inj (Except.ok.inj h₂)
      exact ⟨rfl, rfl, agreeBetween_of_le le_rfl⟩
    have hp₁ := v.lt_length_of_rootFromInclusionProofLoop_ok hlast h₁
    have hp₂ := v.lt_length_of_rootFromInclusionProofLoop_ok hlast h₂
    have hdiv : lastIndex / 2 < lastIndex := by omega
    -- the three branches of the loop body; each reads `proofIndex` or nothing
    rcases Nat.mod_two_eq_zero_or_one cntIndex with heven | hodd
    · by_cases hlt : cntIndex < lastIndex
      · rw [v.rootFromInclusionProofLoop_left hlast hp₁ heven hlt] at h₁
        rw [v.rootFromInclusionProofLoop_left hlast hp₂ heven hlt] at h₂
        obtain ⟨hx, hk, hagree⟩ := ih _ hdiv h₁ h₂
        obtain ⟨rfl, he⟩ := hinj hx
        exact ⟨rfl, hk, hagree.cons hp₁ hp₂ he⟩
      · rw [v.rootFromInclusionProofLoop_skip hlast hp₁ heven hlt] at h₁
        rw [v.rootFromInclusionProofLoop_skip hlast hp₂ heven hlt] at h₂
        exact ih _ hdiv h₁ h₂
    · rw [v.rootFromInclusionProofLoop_right hlast hp₁ hodd] at h₁
      rw [v.rootFromInclusionProofLoop_right hlast hp₂ hodd] at h₂
      obtain ⟨hx, hk, hagree⟩ := ih _ hdiv h₁ h₂
      obtain ⟨he, rfl⟩ := hinj hx
      exact ⟨rfl, hk, hagree.cons hp₁ hp₂ he⟩

variable {D : List α} {i L : ℕ}

theorem rootFromInclusionProofLoop_top (treeSize : ℤ) (hi : i < D.length)
    (hL : D.length ≤ 2 ^ L) {l : ℕ} (hl : D.length ≤ 2 ^ l) :
    v.rootFromInclusionProofLoop treeSize (pathLevels v.hasher.hashChildren v.hasher.emptyRoot D i 0 L)
        (i / 2 ^ l) ((D.length - 1) / 2 ^ l)
        (nodeHash v.hasher.hashChildren v.hasher.emptyRoot D l (i / 2 ^ l))
        (pathLevels v.hasher.hashChildren v.hasher.emptyRoot D i 0 l).length =
      .ok (mth v.hasher.hashChildren v.hasher.emptyRoot D,
        (pathLevels v.hasher.hashChildren v.hasher.emptyRoot D i 0 L).length) := by
  have hc0 : i / 2 ^ l = 0 := Nat.div_eq_of_lt (by omega)
  have hl0 : (D.length - 1) / 2 ^ l = 0 := Nat.div_eq_of_lt (by omega)
  rw [hc0, hl0, rootFromInclusionProofLoop_zero, nodeHash_root _ _ hl,
    pathLevels_zero_congr _ _ hi hl hL]

/-- The honest audit path, fed to the loop at level `l` with the hash of the node above leaf
`i` there, yields the root and is used up. The induction climbs the levels. -/
theorem rootFromInclusionProofLoop_complete (treeSize : ℤ) (hi : i < D.length) (hL : D.length ≤ 2 ^ L)
    (l : ℕ) :
    v.rootFromInclusionProofLoop treeSize (pathLevels v.hasher.hashChildren v.hasher.emptyRoot D i 0 L)
        (i / 2 ^ l) ((D.length - 1) / 2 ^ l)
        (nodeHash v.hasher.hashChildren v.hasher.emptyRoot D l (i / 2 ^ l))
        (pathLevels v.hasher.hashChildren v.hasher.emptyRoot D i 0 l).length =
      .ok (mth v.hasher.hashChildren v.hasher.emptyRoot D,
        (pathLevels v.hasher.hashChildren v.hasher.emptyRoot D i 0 L).length) := by
  set hc := v.hasher.hashChildren
  set e := v.hasher.emptyRoot
  induction hk : L - l generalizing l with
  | zero =>
    exact v.rootFromInclusionProofLoop_top treeSize hi hL
      (le_trans hL (Nat.pow_le_pow_right (by norm_num) (by omega)))
  | succ k ih =>
    by_cases hlast : (D.length - 1) / 2 ^ l = 0
    · exact v.rootFromInclusionProofLoop_top treeSize hi hL
        (by rw [Nat.div_eq_zero_iff_lt (Nat.two_pow_pos l)] at hlast; omega)
    have h2l : 2 ^ l < D.length := by
      by_contra h
      exact hlast (Nat.div_eq_of_lt (by omega))
    have hcut := pathLevels_cut hc e D i (Nat.zero_le l) (show l < L by omega)
    rw [Nat.sub_zero, Nat.sub_zero] at hcut
    -- a sibling is left above level `l`, so the proof is not used up yet
    have hlen : (pathLevels hc e D i 0 l).length < (pathLevels hc e D i 0 L).length := by
      have hne := pathLevels_ne_nil hc e hi h2l hL
      rw [show L = l + (L - l) by omega, pathLevels_add, zero_add, List.length_append]
      have := List.length_pos_iff.mpr hne
      omega
    have ih' := ih (l + 1) (by omega)
    rcases walk_step hc e l hi with ⟨hodd, hsib, hnode⟩ | ⟨heven, hlt, hsib, hnode⟩ |
      ⟨heven, hlt, hsib, hnode⟩
    · have hget := getElem_of_eq_append (by rw [hcut, hsib, List.singleton_append]) rfl hlen
      rw [v.rootFromInclusionProofLoop_right (Nat.pos_of_ne_zero hlast) hlen hodd, hget]
      rw [hnode, div_two_pow_succ, div_two_pow_succ, pathLevels_succ, zero_add, hsib,
        List.length_append, List.length_singleton] at ih'
      exact ih'
    · have hget := getElem_of_eq_append (by rw [hcut, hsib, List.singleton_append]) rfl hlen
      rw [v.rootFromInclusionProofLoop_left (Nat.pos_of_ne_zero hlast) hlen heven hlt, hget]
      rw [hnode, div_two_pow_succ, div_two_pow_succ, pathLevels_succ, zero_add, hsib,
        List.length_append, List.length_singleton] at ih'
      exact ih'
    · rw [v.rootFromInclusionProofLoop_skip (Nat.pos_of_ne_zero hlast) hlen heven hlt]
      rw [hnode, div_two_pow_succ, div_two_pow_succ, pathLevels_succ, zero_add, hsib,
        List.append_nil] at ih'
      exact ih'

end InclusionLoop

section Inclusion

variable (v : LogVerifier α) {leafIndex treeSize : ℤ} {proof : List α} {leafHash : α}

/-- `RootFromInclusionProof` succeeds exactly when the leaf is in the tree and the loop uses up
the proof. -/
theorem rootFromInclusionProof_eq_ok_iff {r : α} :
    v.rootFromInclusionProof leafIndex treeSize proof leafHash = .ok r ↔
      0 ≤ leafIndex ∧ leafIndex < treeSize ∧
        v.rootFromInclusionProofLoop treeSize proof leafIndex.toNat (treeSize - 1).toNat
          leafHash 0 = .ok (r, proof.length) := by
  unfold rootFromInclusionProof
  split_ifs with h1 h2 h3
  · simp only [false_iff]
    omega
  · simp only [false_iff]
    omega
  · simp only [false_iff]
    omega
  · rcases hloop : v.rootFromInclusionProofLoop treeSize proof leafIndex.toNat
      (treeSize - 1).toNat leafHash 0 with err | ⟨x, k⟩
    · simp
    · simp only
      split_ifs with hk
      · simp only [false_iff, Except.ok.injEq, Prod.mk.injEq, not_and]
        intro _ _ _
        exact hk
      · simp only [Except.ok.injEq, Prod.mk.injEq]
        rw [ne_eq, not_not] at hk
        constructor
        · rintro rfl
          exact ⟨by omega, by omega, rfl, hk⟩
        · rintro ⟨-, -, rfl, -⟩
          rfl

theorem verifyInclusionProof_eq_ok_iff [DecidableEq α] {root : α} :
    v.verifyInclusionProof leafIndex treeSize proof root leafHash = .ok () ↔
      v.rootFromInclusionProof leafIndex treeSize proof leafHash = .ok root := by
  unfold verifyInclusionProof
  rcases v.rootFromInclusionProof leafIndex treeSize proof leafHash with err | calcRoot
  · simp
  · simp only [Except.ok.injEq]
    split_ifs with h
    · simp [h]
    · simp [h]

variable {D : List α} {i : ℕ}

theorem rootFromInclusionProof_complete (hi : i < D.length) :
    v.rootFromInclusionProof i D.length
        (auditPath v.hasher.hashChildren v.hasher.emptyRoot i D) D[i] =
      .ok (mth v.hasher.hashChildren v.hasher.emptyRoot D) := by
  have hL : D.length ≤ 2 ^ D.length := Nat.lt_two_pow_self.le
  have hlast : ((D.length : ℤ) - 1).toNat = D.length - 1 := by omega
  have hloop := v.rootFromInclusionProofLoop_complete (D.length : ℤ) hi hL 0
  rw [pow_zero, Nat.div_one, Nat.div_one, nodeHash_zero _ _ hi, pathLevels_none,
    List.length_nil] at hloop
  rw [rootFromInclusionProof_eq_ok_iff, Int.toNat_natCast, hlast,
    auditPath_eq_pathLevels _ _ hi hL]
  exact ⟨by omega, by omega, hloop⟩

theorem rootFromInclusionProof_sound (hinj : Function.Injective2 v.hasher.hashChildren)
    (hi : i < D.length)
    (h : v.rootFromInclusionProof i D.length proof leafHash =
      .ok (mth v.hasher.hashChildren v.hasher.emptyRoot D)) :
    leafHash = D[i] ∧ proof = auditPath v.hasher.hashChildren v.hasher.emptyRoot i D := by
  have hL : D.length ≤ 2 ^ D.length := Nat.lt_two_pow_self.le
  have hlast : ((D.length : ℤ) - 1).toNat = D.length - 1 := by omega
  obtain ⟨-, -, hloop⟩ := (v.rootFromInclusionProof_eq_ok_iff).mp h
  rw [Int.toNat_natCast, hlast] at hloop
  have honest := v.rootFromInclusionProofLoop_complete (D.length : ℤ) hi hL 0
  rw [pow_zero, Nat.div_one, Nat.div_one, nodeHash_zero _ _ hi, pathLevels_none,
    List.length_nil] at honest
  -- compare the run on `proof` with the run on the audit path
  obtain ⟨hx, hk, hagree⟩ := v.rootFromInclusionProofLoop_inj hinj hloop honest
  rw [auditPath_eq_pathLevels _ _ hi hL]
  exact ⟨hx, eq_of_agreeBetween hk hagree⟩

end Inclusion

section ConsistencyLoops

variable (v : LogVerifier α) {proof : List α} {node lastNode proofIndex : ℕ}
  {node1Hash node2Hash : α}

theorem consistencyClimb_eq (node lastNode : ℕ) :
    consistencyClimb node lastNode =
      (node / 2 ^ trailingOnes node, lastNode / 2 ^ trailingOnes node) := by
  induction node using Nat.strong_induction_on generalizing lastNode with
  | _ node ih =>
    rw [consistencyClimb]
    by_cases hodd : node % 2 = 1
    · rw [dif_pos ((isRightChild_iff _).mpr hodd), parent_eq, parent_eq, ih _ (by omega),
        trailingOnes_of_odd hodd, pow_succ', ← Nat.div_div_eq_div_mul,
        ← Nat.div_div_eq_div_mul]
    · rw [dif_neg (by rw [isRightChild_iff]; exact hodd), trailingOnes_of_even (by omega),
        pow_zero, Nat.div_one, Nat.div_one]

theorem consistencyOldLoop_zero :
    v.consistencyOldLoop proof 0 lastNode node1Hash node2Hash proofIndex =
      .ok (lastNode, node1Hash, node2Hash, proofIndex) := by
  rw [consistencyOldLoop, if_neg (by omega)]

theorem consistencyOldLoop_short (hnode : 0 < node) (hp : proof.length ≤ proofIndex) :
    ∃ msg, v.consistencyOldLoop proof node lastNode node1Hash node2Hash proofIndex =
      .error (.other msg) := by
  rw [consistencyOldLoop, if_pos hnode, dif_pos hp]
  exact ⟨_, rfl⟩

theorem consistencyOldLoop_right (hnode : 0 < node) (hp : proofIndex < proof.length)
    (hodd : node % 2 = 1) :
    v.consistencyOldLoop proof node lastNode node1Hash node2Hash proofIndex =
      v.consistencyOldLoop proof (node / 2) (lastNode / 2)
        (v.hasher.hashChildren proof[proofIndex] node1Hash)
        (v.hasher.hashChildren proof[proofIndex] node2Hash) (proofIndex + 1) := by
  rw [consistencyOldLoop, if_pos hnode, dif_neg (by omega),
    if_pos ((isRightChild_iff _).mpr hodd), parent_eq, parent_eq]

theorem consistencyOldLoop_left (hnode : 0 < node) (hp : proofIndex < proof.length)
    (heven : node % 2 = 0) (hlt : node < lastNode) :
    v.consistencyOldLoop proof node lastNode node1Hash node2Hash proofIndex =
      v.consistencyOldLoop proof (node / 2) (lastNode / 2) node1Hash
        (v.hasher.hashChildren node2Hash proof[proofIndex]) (proofIndex + 1) := by
  have hr : isRightChild node = false := by
    rw [Bool.eq_false_iff, ne_eq, isRightChild_iff]
    omega
  rw [consistencyOldLoop, if_pos hnode, dif_neg (by omega), hr, if_neg (by simp), if_pos hlt,
    parent_eq, parent_eq]

theorem consistencyOldLoop_skip (hnode : 0 < node) (hp : proofIndex < proof.length)
    (heven : node % 2 = 0) (hlt : ¬ node < lastNode) :
    v.consistencyOldLoop proof node lastNode node1Hash node2Hash proofIndex =
      v.consistencyOldLoop proof (node / 2) (lastNode / 2) node1Hash node2Hash proofIndex := by
  have hr : isRightChild node = false := by
    rw [Bool.eq_false_iff, ne_eq, isRightChild_iff]
    omega
  rw [consistencyOldLoop, if_pos hnode, dif_neg (by omega), hr, if_neg (by simp), if_neg hlt,
    parent_eq, parent_eq]

theorem lt_length_of_consistencyOldLoop_ok {r : ℕ × α × α × ℕ} (hnode : 0 < node)
    (h : v.consistencyOldLoop proof node lastNode node1Hash node2Hash proofIndex = .ok r) :
    proofIndex < proof.length := by
  by_contra hp
  obtain ⟨msg, hmsg⟩ : ∃ msg, v.consistencyOldLoop proof node lastNode node1Hash node2Hash
      proofIndex = .error (.other msg) := v.consistencyOldLoop_short hnode (by omega)
  rw [hmsg] at h
  cases h

theorem consistencyOldLoop_index {proof₁ proof₂ : List α} {x₁ y₁ x₂ y₂ : α}
    {r₁ r₂ : ℕ × α × α × ℕ}
    (h₁ : v.consistencyOldLoop proof₁ node lastNode x₁ y₁ proofIndex = .ok r₁)
    (h₂ : v.consistencyOldLoop proof₂ node lastNode x₂ y₂ proofIndex = .ok r₂) :
    r₁.1 = r₂.1 ∧ r₁.2.2.2 = r₂.2.2.2 := by
  induction node using Nat.strong_induction_on generalizing lastNode x₁ y₁ x₂ y₂ proofIndex with
  | _ node ih =>
    rcases Nat.eq_zero_or_pos node with rfl | hnode
    · rw [consistencyOldLoop_zero] at h₁ h₂
      cases h₁
      cases h₂
      exact ⟨rfl, rfl⟩
    have hp₁ := v.lt_length_of_consistencyOldLoop_ok hnode h₁
    have hp₂ := v.lt_length_of_consistencyOldLoop_ok hnode h₂
    have hdiv : node / 2 < node := by omega
    rcases Nat.mod_two_eq_zero_or_one node with heven | hodd
    · by_cases hlt : node < lastNode
      · rw [v.consistencyOldLoop_left hnode hp₁ heven hlt] at h₁
        rw [v.consistencyOldLoop_left hnode hp₂ heven hlt] at h₂
        exact ih _ hdiv h₁ h₂
      · rw [v.consistencyOldLoop_skip hnode hp₁ heven hlt] at h₁
        rw [v.consistencyOldLoop_skip hnode hp₂ heven hlt] at h₂
        exact ih _ hdiv h₁ h₂
    · rw [v.consistencyOldLoop_right hnode hp₁ hodd] at h₁
      rw [v.consistencyOldLoop_right hnode hp₂ hodd] at h₂
      exact ih _ hdiv h₁ h₂

/-- Two runs of the old-tree loop that reach the same `node2Hash` started from the same
`node2Hash` and read the same proof elements. -/
theorem consistencyOldLoop_inj (hinj : Function.Injective2 v.hasher.hashChildren)
    {proof₁ proof₂ : List α} {x₁ y₁ x₂ y₂ a₁ a₂ b : α} {L₁ L₂ k₁ k₂ : ℕ}
    (h₁ : v.consistencyOldLoop proof₁ node lastNode x₁ y₁ proofIndex = .ok (L₁, a₁, b, k₁))
    (h₂ : v.consistencyOldLoop proof₂ node lastNode x₂ y₂ proofIndex = .ok (L₂, a₂, b, k₂)) :
    y₁ = y₂ ∧ AgreeBetween proof₁ proof₂ proofIndex k₁ := by
  induction node using Nat.strong_induction_on generalizing lastNode x₁ y₁ x₂ y₂ proofIndex with
  | _ node ih =>
    rcases Nat.eq_zero_or_pos node with rfl | hnode
    · rw [consistencyOldLoop_zero] at h₁ h₂
      cases h₁
      cases h₂
      exact ⟨rfl, agreeBetween_of_le le_rfl⟩
    have hp₁ := v.lt_length_of_consistencyOldLoop_ok hnode h₁
    have hp₂ := v.lt_length_of_consistencyOldLoop_ok hnode h₂
    have hdiv : node / 2 < node := by omega
    -- `node2Hash` reads the proof element in both consuming branches
    rcases Nat.mod_two_eq_zero_or_one node with heven | hodd
    · by_cases hlt : node < lastNode
      · rw [v.consistencyOldLoop_left hnode hp₁ heven hlt] at h₁
        rw [v.consistencyOldLoop_left hnode hp₂ heven hlt] at h₂
        obtain ⟨hy, hagree⟩ := ih _ hdiv h₁ h₂
        obtain ⟨rfl, he⟩ := hinj hy
        exact ⟨rfl, hagree.cons hp₁ hp₂ he⟩
      · rw [v.consistencyOldLoop_skip hnode hp₁ heven hlt] at h₁
        rw [v.consistencyOldLoop_skip hnode hp₂ heven hlt] at h₂
        exact ih _ hdiv h₁ h₂
    · rw [v.consistencyOldLoop_right hnode hp₁ hodd] at h₁
      rw [v.consistencyOldLoop_right hnode hp₂ hodd] at h₂
      obtain ⟨hy, hagree⟩ := ih _ hdiv h₁ h₂
      obtain ⟨he, rfl⟩ := hinj hy
      exact ⟨rfl, hagree.cons hp₁ hp₂ he⟩

theorem consistencyNewLoop_zero :
    v.consistencyNewLoop proof 0 node2Hash proofIndex = .ok (node2Hash, proofIndex) := by
  rw [consistencyNewLoop, if_neg (by omega)]

theorem consistencyNewLoop_step (hlast : 0 < lastNode) (hp : proofIndex < proof.length) :
    v.consistencyNewLoop proof lastNode node2Hash proofIndex =
      v.consistencyNewLoop proof (lastNode / 2)
        (v.hasher.hashChildren node2Hash proof[proofIndex]) (proofIndex + 1) := by
  rw [consistencyNewLoop, if_pos hlast, dif_neg (by omega), parent_eq]

theorem lt_length_of_consistencyNewLoop_ok {r : α × ℕ} (hlast : 0 < lastNode)
    (h : v.consistencyNewLoop proof lastNode node2Hash proofIndex = .ok r) :
    proofIndex < proof.length := by
  by_contra hp
  rw [consistencyNewLoop, if_pos hlast, dif_pos (by omega)] at h
  cases h

/-- Two runs of the new-tree loop that reach the same hash started from the same hash, stop at
the same proof index and read the same proof elements. -/
theorem consistencyNewLoop_inj (hinj : Function.Injective2 v.hasher.hashChildren)
    {proof₁ proof₂ : List α} {y₁ y₂ b : α} {k₁ k₂ : ℕ}
    (h₁ : v.consistencyNewLoop proof₁ lastNode y₁ proofIndex = .ok (b, k₁))
    (h₂ : v.consistencyNewLoop proof₂ lastNode y₂ proofIndex = .ok (b, k₂)) :
    y₁ = y₂ ∧ k₁ = k₂ ∧ AgreeBetween proof₁ proof₂ proofIndex k₁ := by
  induction lastNode using Nat.strong_induction_on generalizing y₁ y₂ proofIndex with
  | _ lastNode ih =>
    rcases Nat.eq_zero_or_pos lastNode with rfl | hlast
    · rw [consistencyNewLoop_zero] at h₁ h₂
      obtain ⟨rfl, rfl⟩ := Prod.mk.inj (Except.ok.inj h₁)
      obtain ⟨rfl, rfl⟩ := Prod.mk.inj (Except.ok.inj h₂)
      exact ⟨rfl, rfl, agreeBetween_of_le le_rfl⟩
    have hp₁ := v.lt_length_of_consistencyNewLoop_ok hlast h₁
    have hp₂ := v.lt_length_of_consistencyNewLoop_ok hlast h₂
    rw [v.consistencyNewLoop_step hlast hp₁] at h₁
    rw [v.consistencyNewLoop_step hlast hp₂] at h₂
    obtain ⟨hy, hk, hagree⟩ := ih _ (by omega) h₁ h₂
    obtain ⟨rfl, he⟩ := hinj hy
    exact ⟨rfl, hk, hagree.cons hp₁ hp₂ he⟩

end ConsistencyLoops

section ConsistencyComplete

variable (v : LogVerifier α) {D : List α} {m L : ℕ}

theorem consistencyNewLoop_top (hm1 : 1 ≤ m) (hm : m < D.length) (base : List α) {a l : ℕ}
    (hal : a ≤ l) (hlL : l ≤ L) (hl : D.length ≤ 2 ^ l) :
    v.consistencyNewLoop
        (base ++ pathLevels v.hasher.hashChildren v.hasher.emptyRoot D (m - 1) a (L - a))
        ((D.length - 1) / 2 ^ l) (nodeHash v.hasher.hashChildren v.hasher.emptyRoot D l 0)
        (base.length +
          (pathLevels v.hasher.hashChildren v.hasher.emptyRoot D (m - 1) a (l - a)).length) =
      .ok (mth v.hasher.hashChildren v.hasher.emptyRoot D, base.length +
        (pathLevels v.hasher.hashChildren v.hasher.emptyRoot D (m - 1) a (L - a)).length) := by
  have hl0 : (D.length - 1) / 2 ^ l = 0 := Nat.div_eq_of_lt (by omega)
  rw [hl0, consistencyNewLoop_zero, nodeHash_root _ _ hl,
    show L - a = (l - a) + (L - l) by omega, pathLevels_add, show a + (l - a) = l by omega,
    pathLevels_of_length_le _ _ _ (by omega) hl, List.append_nil]

/-- The honest proof takes the new-tree loop from any level above the old root to the new
root, using up the proof. -/
theorem consistencyNewLoop_complete (hm1 : 1 ≤ m) (hm : m < D.length) (hL : D.length ≤ 2 ^ L)
    (base : List α) {a l : ℕ} (hal : a ≤ l) (hlL : l ≤ L) (hml : m ≤ 2 ^ l) :
    v.consistencyNewLoop
        (base ++ pathLevels v.hasher.hashChildren v.hasher.emptyRoot D (m - 1) a (L - a))
        ((D.length - 1) / 2 ^ l) (nodeHash v.hasher.hashChildren v.hasher.emptyRoot D l 0)
        (base.length +
          (pathLevels v.hasher.hashChildren v.hasher.emptyRoot D (m - 1) a (l - a)).length) =
      .ok (mth v.hasher.hashChildren v.hasher.emptyRoot D, base.length +
        (pathLevels v.hasher.hashChildren v.hasher.emptyRoot D (m - 1) a (L - a)).length) := by
  set hc := v.hasher.hashChildren
  set e := v.hasher.emptyRoot
  induction hk : L - l generalizing l with
  | zero =>
    exact v.consistencyNewLoop_top hm1 hm base hal hlL
      (le_trans hL (Nat.pow_le_pow_right (by norm_num) (by omega)))
  | succ k ih =>
    by_cases hlast : (D.length - 1) / 2 ^ l = 0
    · exact v.consistencyNewLoop_top hm1 hm base hal hlL
        (by rw [Nat.div_eq_zero_iff_lt (Nat.two_pow_pos l)] at hlast; omega)
    have h2l : 2 ^ l < D.length := by
      by_contra h
      exact hlast (Nat.div_eq_of_lt (by omega))
    have hp1 : 2 ^ (l + 1) = 2 * 2 ^ l := by ring
    -- above the old root the current node is node 0 of its level
    have hc0 : (m - 1) / 2 ^ l = 0 := Nat.div_eq_of_lt (by omega)
    have hc0' : (m - 1) / 2 ^ (l + 1) = 0 := Nat.div_eq_of_lt (by omega)
    have hcut := pathLevels_cut hc e D (m - 1) hal (show l < L by omega)
    obtain ⟨hsib, hnode⟩ : siblingAt hc e D (m - 1) l = [nodeHash hc e D l 1] ∧
        nodeHash hc e D (l + 1) 0 = hc (nodeHash hc e D l 0) (nodeHash hc e D l 1) := by
      rcases walk_step hc e l (show m - 1 < D.length by omega) with
        ⟨hodd, -⟩ | ⟨-, -, hsib, hnode⟩ | ⟨-, hlt, -⟩
      · rw [hc0] at hodd
        omega
      · rw [hc0, zero_add] at hsib hnode
        rw [hc0'] at hnode
        exact ⟨hsib, hnode⟩
      · rw [hc0] at hlt
        exact absurd (Nat.pos_of_ne_zero hlast) hlt
    have hlen : base.length + (pathLevels hc e D (m - 1) a (l - a)).length <
        (base ++ pathLevels hc e D (m - 1) a (L - a)).length := by
      rw [hcut, hsib]
      simp
    have hget := getElem_of_eq_append
      (by rw [hcut, hsib, List.singleton_append, List.append_assoc]) (List.length_append).symm hlen
    rw [v.consistencyNewLoop_step (Nat.pos_of_ne_zero hlast) hlen, hget]
    have ih' := ih (show a ≤ l + 1 by omega) (by omega) (by omega) (by omega)
    rw [hnode, div_two_pow_succ, show l + 1 - a = (l - a) + 1 by omega, pathLevels_succ,
      show a + (l - a) = l by omega, hsib, List.length_append, List.length_singleton,
      ← add_assoc] at ih'
    exact ih'

/-- Once the old tree's node is node 0 of its level, the old-tree loop stops with the old
root. -/
theorem consistencyOldLoop_top (hm1 : 1 ≤ m) (proof : List α) {l : ℕ} (hml : m ≤ 2 ^ l)
    (proofIndex : ℕ) :
    v.consistencyOldLoop proof ((m - 1) / 2 ^ l) ((D.length - 1) / 2 ^ l)
        (nodeHash v.hasher.hashChildren v.hasher.emptyRoot (D.take m) l ((m - 1) / 2 ^ l))
        (nodeHash v.hasher.hashChildren v.hasher.emptyRoot D l ((m - 1) / 2 ^ l)) proofIndex =
      .ok ((D.length - 1) / 2 ^ l, mth v.hasher.hashChildren v.hasher.emptyRoot (D.take m),
        nodeHash v.hasher.hashChildren v.hasher.emptyRoot D l 0, proofIndex) := by
  have hc0 : (m - 1) / 2 ^ l = 0 := Nat.div_eq_of_lt (by omega)
  have htake : (D.take m).length ≤ 2 ^ l := le_trans (List.length_take_le m D) hml
  rw [hc0, consistencyOldLoop_zero, nodeHash_root _ _ htake]

/-- The honest proof takes the old-tree loop from a level at or above `a` up to the old root,
where `node1Hash` is the old root and `node2Hash` the new tree's node over the old tree. The
induction climbs the levels; at each one the old tree and the new tree take one walk step. -/
theorem consistencyOldLoop_complete (hm1 : 1 ≤ m) (hm : m < D.length) (hL : D.length ≤ 2 ^ L)
    (base : List α) {a l : ℕ} (hal : a ≤ l) (hlL : l ≤ L) :
    ∃ l', l ≤ l' ∧ l' ≤ L ∧ m ≤ 2 ^ l' ∧
      v.consistencyOldLoop
          (base ++ pathLevels v.hasher.hashChildren v.hasher.emptyRoot D (m - 1) a (L - a))
          ((m - 1) / 2 ^ l) ((D.length - 1) / 2 ^ l)
          (nodeHash v.hasher.hashChildren v.hasher.emptyRoot (D.take m) l ((m - 1) / 2 ^ l))
          (nodeHash v.hasher.hashChildren v.hasher.emptyRoot D l ((m - 1) / 2 ^ l))
          (base.length +
            (pathLevels v.hasher.hashChildren v.hasher.emptyRoot D (m - 1) a (l - a)).length) =
        .ok ((D.length - 1) / 2 ^ l', mth v.hasher.hashChildren v.hasher.emptyRoot (D.take m),
          nodeHash v.hasher.hashChildren v.hasher.emptyRoot D l' 0, base.length +
            (pathLevels v.hasher.hashChildren v.hasher.emptyRoot D (m - 1) a (l' - a)).length) := by
  set hc := v.hasher.hashChildren
  set e := v.hasher.emptyRoot
  induction hk : L - l generalizing l with
  | zero =>
    -- at level `L` the old tree is a single node
    have hml : m ≤ 2 ^ l :=
      le_trans hm.le (le_trans hL (Nat.pow_le_pow_right (by norm_num) (by omega)))
    exact ⟨l, le_rfl, hlL, hml, v.consistencyOldLoop_top hm1 _ hml _⟩
  | succ k ih =>
    by_cases hnode : (m - 1) / 2 ^ l = 0
    · have hml : m ≤ 2 ^ l := by
        rw [Nat.div_eq_zero_iff_lt (Nat.two_pow_pos l)] at hnode
        omega
      exact ⟨l, le_rfl, hlL, hml, v.consistencyOldLoop_top hm1 _ hml _⟩
    have hnode' : 0 < (m - 1) / 2 ^ l := Nat.pos_of_ne_zero hnode
    have h2l : 2 ^ l < D.length := by
      by_contra h
      exact hnode (Nat.div_eq_of_lt (by omega))
    have hcut := pathLevels_cut hc e D (m - 1) hal (show l < L by omega)
    have hlen : base.length + (pathLevels hc e D (m - 1) a (l - a)).length <
        (base ++ pathLevels hc e D (m - 1) a (L - a)).length := by
      have hne := pathLevels_ne_nil hc e (show m - 1 < D.length by omega) h2l hL
      rw [show L - a = (l - a) + (L - l) by omega, pathLevels_add, show a + (l - a) = l by omega,
        List.length_append, List.length_append]
      have := List.length_pos_iff.mpr hne
      omega
    -- one walk step in the old tree, whose last node is the current node itself
    have htl : (D.take m).length = m := by
      rw [List.length_take]
      omega
    have hold := walk_step hc e l (show m - 1 < (D.take m).length by omega)
    rw [htl] at hold
    obtain ⟨l', h1, h2, h3, hrun⟩ := ih (show a ≤ l + 1 by omega) (by omega) (by omega)
    refine ⟨l', by omega, h2, h3, ?_⟩
    rw [show l + 1 - a = (l - a) + 1 by omega, pathLevels_succ, show a + (l - a) = l by omega]
      at hrun
    -- and one in the new tree, which decides the branch of the loop
    rcases walk_step hc e l (show m - 1 < D.length by omega) with
      ⟨hodd, hsib, hnew⟩ | ⟨heven, hlt, hsib, hnew⟩ | ⟨heven, hlt, hsib, hnew⟩
    · rcases hold with ⟨-, -, hold⟩ | ⟨h, -⟩ | ⟨h, -⟩
      · -- the left sibling is a node of the old tree too
        have hleft : nodeHash hc e (D.take m) l ((m - 1) / 2 ^ l - 1) =
            nodeHash hc e D l ((m - 1) / 2 ^ l - 1) := by
          apply nodeHash_take
          rw [Nat.sub_add_cancel hnode']
          exact le_trans (Nat.div_mul_le_self _ _) (by omega)
        have hget := getElem_of_eq_append
          (by rw [hcut, hsib, List.singleton_append, List.append_assoc])
          (List.length_append).symm hlen
        rw [v.consistencyOldLoop_right hnode' hlen hodd, hget]
        rw [hold, hnew, hleft, div_two_pow_succ, div_two_pow_succ, hsib, List.length_append,
          List.length_singleton, ← add_assoc] at hrun
        exact hrun
      · omega
      · omega
    · rcases hold with ⟨h, -⟩ | ⟨-, h, -⟩ | ⟨-, -, -, hold⟩
      · omega
      · exact absurd h (lt_irrefl _)
      · have hget := getElem_of_eq_append
          (by rw [hcut, hsib, List.singleton_append, List.append_assoc])
          (List.length_append).symm hlen
        rw [v.consistencyOldLoop_left hnode' hlen heven hlt, hget]
        rw [hold, hnew, div_two_pow_succ, div_two_pow_succ, hsib, List.length_append,
          List.length_singleton, ← add_assoc] at hrun
        exact hrun
    · rcases hold with ⟨h, -⟩ | ⟨-, h, -⟩ | ⟨-, -, -, hold⟩
      · omega
      · exact absurd h (lt_irrefl _)
      · rw [v.consistencyOldLoop_skip hnode' hlen heven hlt]
        rw [hold, hnew, div_two_pow_succ, div_two_pow_succ, hsib, List.append_nil] at hrun
        exact hrun

end ConsistencyComplete

section Consistency

variable [DecidableEq α] (v : LogVerifier α) {proof : List α} {root1 root2 : α}

/-- The end of the verifier accepts exactly when the old-tree loop ends at `root1` and the
new-tree loop ends at `root2` with the proof used up. -/
theorem consistencyCheckRoots_eq_ok_iff {node lastNode start : ℕ} {seed : α} :
    v.consistencyCheckRoots root1 root2 proof node lastNode seed start = .ok () ↔
      ∃ L b k, v.consistencyOldLoop proof node lastNode seed seed start = .ok (L, root1, b, k) ∧
        v.consistencyNewLoop proof L b k = .ok (root2, proof.length) := by
  unfold consistencyCheckRoots
  constructor
  · intro h
    split at h
    · cases h
    rename_i L a b k hold
    split_ifs at h with ha
    split at h
    · cases h
    rename_i r k' hnew
    split_ifs at h with hr hk
    simp only [ne_eq, Decidable.not_not] at ha hr hk
    subst ha hr hk
    exact ⟨L, b, k, hold, hnew⟩
  · rintro ⟨L, b, k, hold, hnew⟩
    simp [hold, hnew]

theorem verifyConsistencyProof_of_lt {m n : ℕ} (hm1 : 1 ≤ m) (hmn : m < n) (hp : proof ≠ []) :
    v.verifyConsistencyProof m n root1 root2 proof =
      if 0 < (m - 1) / 2 ^ trailingOnes (m - 1) then
        v.consistencyCheckRoots root1 root2 proof ((m - 1) / 2 ^ trailingOnes (m - 1))
          ((n - 1) / 2 ^ trailingOnes (m - 1)) (proof.head hp) 1
      else
        v.consistencyCheckRoots root1 root2 proof ((m - 1) / 2 ^ trailingOnes (m - 1))
          ((n - 1) / 2 ^ trailingOnes (m - 1)) root1 0 := by
  have h1 : ((m : ℤ) - 1).toNat = m - 1 := by omega
  have h2 : ((n : ℤ) - 1).toNat = n - 1 := by omega
  unfold verifyConsistencyProof
  rw [if_neg (by omega), if_neg (by omega), if_neg (by omega), if_neg (by omega), dif_neg hp]
  simp only [h1, h2, consistencyClimb_eq]

theorem verifyConsistencyProof_nil {m n : ℕ} (hm1 : 1 ≤ m) (hmn : m < n) :
    v.verifyConsistencyProof m n root1 root2 [] = .error (.other "empty proof") := by
  unfold verifyConsistencyProof
  rw [if_neg (by omega), if_neg (by omega), if_neg (by omega), if_neg (by omega), dif_pos rfl]

/-- The honest run: with the RFC 6962 roots and consistency proof, the end of the verifier
accepts, started as the verifier starts it. -/
theorem consistencyCheckRoots_honest {D : List α} {m : ℕ} (hm1 : 1 ≤ m) (hm : m < D.length) :
    v.consistencyCheckRoots (mth v.hasher.hashChildren v.hasher.emptyRoot (D.take m))
      (mth v.hasher.hashChildren v.hasher.emptyRoot D)
      (consistencyProof v.hasher.hashChildren v.hasher.emptyRoot m D)
      ((m - 1) / 2 ^ trailingOnes (m - 1)) ((D.length - 1) / 2 ^ trailingOnes (m - 1))
      (if 0 < (m - 1) / 2 ^ trailingOnes (m - 1) then
        nodeHash v.hasher.hashChildren v.hasher.emptyRoot D (trailingOnes (m - 1))
          ((m - 1) / 2 ^ trailingOnes (m - 1))
      else mth v.hasher.hashChildren v.hasher.emptyRoot (D.take m))
      (if 0 < (m - 1) / 2 ^ trailingOnes (m - 1) then 1 else 0) = .ok () := by
  have hL : D.length ≤ 2 ^ D.length := Nat.lt_two_pow_self.le
  -- the node above the right-child run of `m - 1` ends exactly at the old tree's last leaf
  have hend := div_trailingOnes_succ_mul (m - 1)
  rw [Nat.sub_add_cancel hm1] at hend
  have htL : trailingOnes (m - 1) ≤ D.length := by
    have h2t : 2 ^ trailingOnes (m - 1) < 2 ^ D.length := by
      have hpos : 0 < (m - 1) / 2 ^ trailingOnes (m - 1) + 1 := Nat.succ_pos _
      have := Nat.le_mul_of_pos_left (2 ^ trailingOnes (m - 1)) hpos
      omega
    exact ((Nat.pow_lt_pow_iff_right (by norm_num)).mp h2t).le
  have hP := subproof_eq_pathLevels v.hasher.hashChildren v.hasher.emptyRoot true hm1 hm hL
  -- the old-tree loop from level `trailingOnes (m - 1)`, then the new-tree loop
  obtain ⟨l', h1, h2, h3, hold⟩ := v.consistencyOldLoop_complete hm1 hm hL
    (oldNodeHash v.hasher.hashChildren v.hasher.emptyRoot D m true) (le_refl _) htL
  have hnew := v.consistencyNewLoop_complete hm1 hm hL
    (oldNodeHash v.hasher.hashChildren v.hasher.emptyRoot D m true) h1 h2 h3
  rw [Nat.sub_self, pathLevels_none, List.length_nil, add_zero] at hold
  have hstart := nodeHash_take v.hasher.hashChildren v.hasher.emptyRoot (D := D) hend.le
  rw [consistencyCheckRoots_eq_ok_iff]
  unfold consistencyProof
  rw [hP, List.length_append]
  by_cases hc0 : 0 < (m - 1) / 2 ^ trailingOnes (m - 1)
  · -- the proof starts with the old tree's last complete node
    have hb : oldNodeHash v.hasher.hashChildren v.hasher.emptyRoot D m true =
        [nodeHash v.hasher.hashChildren v.hasher.emptyRoot D (trailingOnes (m - 1))
          ((m - 1) / 2 ^ trailingOnes (m - 1))] := by
      unfold oldNodeHash
      rw [if_pos (Or.inl (Nat.pos_iff_ne_zero.mp hc0))]
    rw [if_pos hc0, if_pos hc0]
    rw [hb, hstart, List.length_singleton] at hold
    rw [hb, List.length_singleton] at hnew ⊢
    exact ⟨_, _, _, hold, hnew⟩
  · -- the old tree is one complete node: its root seeds both hashes
    have hc00 : (m - 1) / 2 ^ trailingOnes (m - 1) = 0 := Nat.eq_zero_of_not_pos hc0
    have hm2 : m = 2 ^ trailingOnes (m - 1) := by
      rw [hc00, zero_add, one_mul] at hend
      exact hend.symm
    have hb : oldNodeHash v.hasher.hashChildren v.hasher.emptyRoot D m true = [] := by
      unfold oldNodeHash
      rw [if_neg (by simp [hc00])]
    rw [if_neg hc0, if_neg hc0]
    rw [hb, List.length_nil] at hold
    rw [hb, List.length_nil] at hnew ⊢
    rw [hc00] at hold hstart ⊢
    rw [nodeHash_root _ _ (by rw [List.length_take]; omega)] at hold hstart
    rw [← hstart] at hold
    exact ⟨_, _, _, hold, hnew⟩

theorem verifyConsistencyProof_complete {D : List α} {m : ℕ} (hm1 : 1 ≤ m) (hm : m < D.length) :
    v.verifyConsistencyProof m D.length (mth v.hasher.hashChildren v.hasher.emptyRoot (D.take m))
      (mth v.hasher.hashChildren v.hasher.emptyRoot D)
      (consistencyProof v.hasher.hashChildren v.hasher.emptyRoot m D) = .ok () := by
  have hP := consistencyProof_ne_nil v.hasher.hashChildren v.hasher.emptyRoot hm1 hm
  have honest := v.consistencyCheckRoots_honest hm1 hm
  rw [v.verifyConsistencyProof_of_lt hm1 hm hP]
  by_cases hc0 : 0 < (m - 1) / 2 ^ trailingOnes (m - 1)
  · rw [if_pos hc0, if_pos hc0] at honest
    rw [if_pos hc0, consistencyProof_head _ _ hm1 hm hc0]
    exact honest
  · rw [if_neg hc0, if_neg hc0] at honest
    rw [if_neg hc0]
    exact honest

/-- Only the RFC 6962 old root with the RFC 6962 consistency proof verify against the new
root. The run on `proof` is compared with the honest run, loop by loop from the end. -/
theorem verifyConsistencyProof_sound (hinj : Function.Injective2 v.hasher.hashChildren)
    {D : List α} {m : ℕ} (hm1 : 1 ≤ m) (hm : m < D.length)
    (h : v.verifyConsistencyProof m D.length root1
      (mth v.hasher.hashChildren v.hasher.emptyRoot D) proof = .ok ()) :
    root1 = mth v.hasher.hashChildren v.hasher.emptyRoot (D.take m) ∧
      proof = consistencyProof v.hasher.hashChildren v.hasher.emptyRoot m D := by
  have hp : proof ≠ [] := by
    rintro rfl
    rw [v.verifyConsistencyProof_nil hm1 hm] at h
    cases h
  have hP := consistencyProof_ne_nil v.hasher.hashChildren v.hasher.emptyRoot hm1 hm
  have honest := v.consistencyCheckRoots_honest hm1 hm
  rw [v.verifyConsistencyProof_of_lt hm1 hm hp] at h
  by_cases hc0 : 0 < (m - 1) / 2 ^ trailingOnes (m - 1)
  · rw [if_pos hc0] at h
    rw [if_pos hc0, if_pos hc0] at honest
    obtain ⟨L₁, b₁, k₁, hold₁, hnew₁⟩ := (v.consistencyCheckRoots_eq_ok_iff).mp h
    obtain ⟨L₂, b₂, k₂, hold₂, hnew₂⟩ := (v.consistencyCheckRoots_eq_ok_iff).mp honest
    obtain ⟨hL, hk⟩ := v.consistencyOldLoop_index hold₁ hold₂
    dsimp only at hL hk
    subst hL hk
    obtain ⟨rfl, hlen, hagree₂⟩ := v.consistencyNewLoop_inj hinj hnew₁ hnew₂
    obtain ⟨hseed, hagree₁⟩ := v.consistencyOldLoop_inj hinj hold₁ hold₂
    -- the first element is the seed, the old-tree loop reads up to `k₁`, the new-tree loop on
    have hagree₀ : AgreeBetween proof
        (consistencyProof v.hasher.hashChildren v.hasher.emptyRoot m D) 0 1 := by
      refine AgreeBetween.cons (List.length_pos_iff.mpr hp) (List.length_pos_iff.mpr hP) ?_
        (agreeBetween_of_le le_rfl)
      rw [← List.head_eq_getElem hp, ← List.head_eq_getElem hP, hseed,
        consistencyProof_head _ _ hm1 hm hc0]
    have heq := eq_of_agreeBetween hlen (hagree₀.trans (hagree₁.trans hagree₂))
    subst heq
    rw [hseed] at hold₁
    rw [hold₁] at hold₂
    simp only [Except.ok.injEq, Prod.mk.injEq, true_and, and_true] at hold₂
    exact ⟨hold₂, rfl⟩
  · rw [if_neg hc0] at h
    rw [if_neg hc0, if_neg hc0] at honest
    obtain ⟨L₁, b₁, k₁, hold₁, hnew₁⟩ := (v.consistencyCheckRoots_eq_ok_iff).mp h
    obtain ⟨L₂, b₂, k₂, hold₂, hnew₂⟩ := (v.consistencyCheckRoots_eq_ok_iff).mp honest
    obtain ⟨hL, hk⟩ := v.consistencyOldLoop_index hold₁ hold₂
    dsimp only at hL hk
    subst hL hk
    obtain ⟨rfl, hlen, hagree₂⟩ := v.consistencyNewLoop_inj hinj hnew₁ hnew₂
    -- the seed is `root1` itself
    obtain ⟨hseed, hagree₁⟩ := v.consistencyOldLoop_inj hinj hold₁ hold₂
    exact ⟨hseed, eq_of_agreeBetween hlen (hagree₁.trans hagree₂)⟩

theorem verifyConsistencyProof_self_eq_ok_iff (snapshot : ℕ) :
    v.verifyConsistencyProof snapshot snapshot root1 root2 proof = .ok () ↔
      root1 = root2 ∧ proof = [] := by
  unfold verifyConsistencyProof
  rw [if_neg (by omega), if_neg (by omega), if_pos rfl]
  split_ifs with h1 h2
  · simp only [false_iff, not_and]
    exact fun h => absurd h h1
  · simp only [false_iff, not_and]
    intro _ hp
    simp [hp] at h2
  · simp only [ne_eq, Decidable.not_not, not_lt, Nat.le_zero, List.length_eq_zero_iff] at h1 h2
    simp [h1, h2]

theorem verifyConsistencyProof_error_of_invalid {snapshot1 snapshot2 : ℤ}
    (h : snapshot1 < 0 ∨ snapshot2 < snapshot1) :
    ∃ err, v.verifyConsistencyProof snapshot1 snapshot2 root1 root2 proof = .error err := by
  unfold verifyConsistencyProof
  by_cases h0 : snapshot1 < 0
  · exact ⟨_, by rw [if_pos h0]⟩
  · exact ⟨_, by rw [if_neg h0, if_pos (by omega)]⟩

end Consistency

section Acceptance

variable [DecidableEq α] (v : LogVerifier α)

/-- `VerifyInclusionProof` accepts exactly the leaf hash of leaf `i` with its RFC 6962 audit
path against the RFC 6962 root, and rejects every leaf index outside the tree. -/
theorem verifyInclusionProof_iff (hinj : Function.Injective2 v.hasher.hashChildren) :
    (∀ (D : List α) (i : ℕ) (hi : i < D.length) (proof : List α) (leafHash : α),
      v.verifyInclusionProof i D.length proof (mth v.hasher.hashChildren v.hasher.emptyRoot D)
          leafHash = .ok () ↔
        leafHash = D[i] ∧ proof = auditPath v.hasher.hashChildren v.hasher.emptyRoot i D) ∧
    (∀ (leafIndex treeSize : ℤ) (proof : List α) (root leafHash : α),
      leafIndex < 0 ∨ treeSize ≤ leafIndex ∨ treeSize ≤ 0 →
        ∃ err, v.verifyInclusionProof leafIndex treeSize proof root leafHash = .error err) := by
  refine ⟨fun D i hi proof leafHash => ?_, fun leafIndex treeSize proof root leafHash hout => ?_⟩
  · rw [verifyInclusionProof_eq_ok_iff]
    constructor
    · exact v.rootFromInclusionProof_sound hinj hi
    · rintro ⟨rfl, rfl⟩
      exact v.rootFromInclusionProof_complete hi
  · rcases hv : v.verifyInclusionProof leafIndex treeSize proof root leafHash with err | ⟨⟩
    · exact ⟨err, rfl⟩
    · -- an accepted proof puts the leaf inside the tree
      obtain ⟨h0, hlt, -⟩ :=
        (v.rootFromInclusionProof_eq_ok_iff).mp ((v.verifyInclusionProof_eq_ok_iff).mp hv)
      omega

/-- `VerifyConsistencyProof` accepts exactly the RFC 6962 old root with the RFC 6962
consistency proof against the RFC 6962 new root, only the empty proof of equal roots between
equal sizes, and nothing for sizes out of order. -/
theorem verifyConsistencyProof_iff (hinj : Function.Injective2 v.hasher.hashChildren) :
    (∀ (D : List α) (m : ℕ) (root1 : α) (proof : List α), 1 ≤ m → m < D.length →
      (v.verifyConsistencyProof m D.length root1
          (mth v.hasher.hashChildren v.hasher.emptyRoot D) proof = .ok () ↔
        root1 = mth v.hasher.hashChildren v.hasher.emptyRoot (D.take m) ∧
          proof = consistencyProof v.hasher.hashChildren v.hasher.emptyRoot m D)) ∧
    (∀ (snapshot : ℕ) (root1 root2 : α) (proof : List α),
      v.verifyConsistencyProof snapshot snapshot root1 root2 proof = .ok () ↔
        root1 = root2 ∧ proof = []) ∧
    (∀ (snapshot1 snapshot2 : ℤ) (root1 root2 : α) (proof : List α),
      snapshot1 < 0 ∨ snapshot2 < snapshot1 →
        ∃ err, v.verifyConsistencyProof snapshot1 snapshot2 root1 root2 proof = .error err) := by
  refine ⟨fun D m root1 proof hm1 hm => ⟨v.verifyConsistencyProof_sound hinj hm1 hm, ?_⟩,
    fun snapshot _ _ _ => v.verifyConsistencyProof_self_eq_ok_iff snapshot,
    fun _ _ _ _ _ h => v.verifyConsistencyProof_error_of_invalid h⟩
  rintro ⟨rfl, rfl⟩
  exact v.verifyConsistencyProof_complete hm1 hm

end Acceptance

/-- A verifier over `ℕ` whose `HashChildren` is the Cantor pairing, an injective function. -/
def pairVerifier : LogVerifier ℕ := ⟨⟨0, fun _ => .ok 0, Nat.pair⟩⟩

theorem pairVerifier_injective : Function.Injective2 pairVerifier.hasher.hashChildren :=
  fun _ _ _ _ h => Nat.pair_eq_pair.mp h

theorem verifyInclusionProof_iff_pairVerifier :
    Function.Injective2 pairVerifier.hasher.hashChildren ∧
      (pairVerifier.verifyInclusionProof ((1 : ℕ) : ℤ) (([7, 8, 4] : List ℕ).length : ℤ) [7, 4]
          (mth pairVerifier.hasher.hashChildren pairVerifier.hasher.emptyRoot [7, 8, 4]) 8 =
          .ok () ↔
        8 = ([7, 8, 4] : List ℕ)[1] ∧
          [7, 4] = auditPath pairVerifier.hasher.hashChildren pairVerifier.hasher.emptyRoot 1
            [7, 8, 4]) :=
  ⟨pairVerifier_injective,
    (verifyInclusionProof_iff pairVerifier pairVerifier_injective).1 [7, 8, 4] 1 (by decide)
      [7, 4] 8⟩

theorem verifyConsistencyProof_iff_pairVerifier :
    Function.Injective2 pairVerifier.hasher.hashChildren ∧
      (pairVerifier.verifyConsistencyProof ((1 : ℕ) : ℤ) (([7, 8, 4] : List ℕ).length : ℤ) 7
          (mth pairVerifier.hasher.hashChildren pairVerifier.hasher.emptyRoot [7, 8, 4]) [8, 4] =
          .ok () ↔
        7 = mth pairVerifier.hasher.hashChildren pairVerifier.hasher.emptyRoot
            (([7, 8, 4] : List ℕ).take 1) ∧
          [8, 4] = consistencyProof pairVerifier.hasher.hashChildren
            pairVerifier.hasher.emptyRoot 1 [7, 8, 4]) :=
  ⟨pairVerifier_injective,
    (verifyConsistencyProof_iff pairVerifier pairVerifier_injective).1 [7, 8, 4] 1 7 [8, 4]
      (by decide) (by decide)⟩

end LogVerifier

end Trillian
