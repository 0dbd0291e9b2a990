import Trillian.CompactMerkleTree

/-! `AddLeafHash` and `recalculateRoot` of `merkle/compact_merkle_tree.go` against the compact tree
of a list of leaves: each call leaves the nodes and root of the longer list, and calls its
callback on a list of nodes fixed by the leaves. -/

namespace Trillian

open Rfc6962

variable {α σ : Type*}

@[simp] theorem runCallbacks_nil (f : SetNodeFunc σ α) (s : σ) : runCallbacks f [] s = .ok s :=
  rfl

theorem runCallbacks_cons_eq_ok {f : SetNodeFunc σ α} {depth index : ℕ} {hash : α}
    {rest : List (ℕ × ℕ × α)} {s s' : σ} :
    runCallbacks f ((depth, index, hash) :: rest) s = .ok s' ↔
      ∃ s₁, f depth index hash s = .ok s₁ ∧ runCallbacks f rest s₁ = .ok s' := by
  rw [runCallbacks]
  cases f depth index hash s <;> simp

theorem runCallbacks_append_eq_ok {f : SetNodeFunc σ α} {xs ys : List (ℕ × ℕ × α)} {s s' : σ} :
    runCallbacks f (xs ++ ys) s = .ok s' ↔
      ∃ s₁, runCallbacks f xs s = .ok s₁ ∧ runCallbacks f ys s₁ = .ok s' := by
  induction xs generalizing s with
  | nil => simp
  | cons x xs ih =>
    obtain ⟨depth, index, hash⟩ := x
    simp only [List.cons_append, runCallbacks_cons_eq_ok]
    constructor
    · rintro ⟨s₁, hf, hrest⟩
      obtain ⟨s₂, hxs, hys⟩ := ih.mp hrest
      exact ⟨s₂, ⟨s₁, hf, hxs⟩, hys⟩
    · rintro ⟨s₂, ⟨s₁, hf, hxs⟩, hys⟩
      exact ⟨s₁, hf, ih.mpr ⟨s₂, hxs, hys⟩⟩

theorem runCallbacks_total {f : SetNodeFunc σ α}
    (hf : ∀ depth index hash s, ∃ s', f depth index hash s = .ok s') :
    ∀ (xs : List (ℕ × ℕ × α)) (s : σ), ∃ s', runCallbacks f xs s = .ok s'
  | [], s => ⟨s, rfl⟩
  | (depth, index, hash) :: rest, s => by
    obtain ⟨s₁, h₁⟩ := hf depth index hash s
    obtain ⟨s', h'⟩ := runCallbacks_total hf rest s₁
    exact ⟨s', runCallbacks_cons_eq_ok.mpr ⟨s₁, h₁, h'⟩⟩

/-- `runCallbacks` of a callback that never fails on the nodes given to it: the fold of what it
does to the state. -/
theorem runCallbacks_eq_foldl {f : SetNodeFunc σ α} {g : ℕ × ℕ × α → σ → σ} :
    ∀ {xs : List (ℕ × ℕ × α)} {s : σ}, (∀ x ∈ xs, ∀ s, f x.1 x.2.1 x.2.2 s = .ok (g x s)) →
      runCallbacks f xs s = .ok (xs.foldl (fun s x => g x s) s)
  | [], _, _ => rfl
  | (depth, index, hash) :: xs, s, hf => by
    rw [runCallbacks, hf (depth, index, hash) List.mem_cons_self s, List.foldl_cons]
    exact runCallbacks_eq_foldl fun x hx => hf x (List.mem_cons_of_mem _ hx)

section Emissions

variable (hc : α → α → α) (e : α)

/-- The node `AddLeafHash` stores when its carry passes bit `b` while appending `d` to `D`:
the complete node of level `b + 1` that ends with `d`. -/
def mergeEmission (D : List α) (d : α) (b : ℕ) : ℕ × ℕ × α :=
  (b + 1, D.length / 2 ^ (b + 1), nodeHash hc e (D ++ [d]) (b + 1) (D.length / 2 ^ (b + 1)))

/-- The merges of the carry from `bit` up to the trailing ones of the old size. -/
def mergeEmissions (D : List α) (d : α) (bit : ℕ) : List (ℕ × ℕ × α) :=
  (List.range' bit (trailingOnes D.length - bit)).map (mergeEmission hc e D d)

/-- The node `recalculateRoot` stores at bit `b` for the leaves `D`: the right-edge node of
level `b + 1`, when bit `b` of the size is set and is not its lowest set bit. -/
def rootEmission (D : List α) (b : ℕ) : Option (ℕ × ℕ × α) :=
  if D.length.testBit b ∧ D.length % 2 ^ b ≠ 0 then
    some (b + 1, D.length / 2 ^ (b + 1), nodeHash hc e D (b + 1) (D.length / 2 ^ (b + 1)))
  else none

/-- The nodes `recalculateRoot` stores from `bit` up to the top bit of the size. -/
def rootEmissions (D : List α) (bit : ℕ) : List (ℕ × ℕ × α) :=
  (List.range' bit (bitLen D.length - bit)).filterMap (rootEmission hc e D)

/-- Every node `AddLeafHash` stores when it appends `d` to `D`, in the order it calls the
callback: the leaf, the merges of the carry, and the right edge of the new tree. -/
def appendEmissions (D : List α) (d : α) : List (ℕ × ℕ × α) :=
  (0, D.length, d) :: (mergeEmissions hc e D d 0 ++ rootEmissions hc e (D ++ [d]) 0)

theorem mergeEmissions_of_lt {D : List α} {d : α} {bit : ℕ} (h : bit < trailingOnes D.length) :
    mergeEmissions hc e D d bit = mergeEmission hc e D d bit :: mergeEmissions hc e D d (bit + 1) := by
  unfold mergeEmissions
  rw [show trailingOnes D.length - bit = trailingOnes D.length - (bit + 1) + 1 by omega,
    List.range'_succ, List.map_cons]

theorem mergeEmissions_of_le {D : List α} {d : α} {bit : ℕ} (h : trailingOnes D.length ≤ bit) :
    mergeEmissions hc e D d bit = [] := by
  unfold mergeEmissions
  rw [Nat.sub_eq_zero_of_le h, List.range'_zero, List.map_nil]

theorem rootEmissions_of_lt {D : List α} {bit : ℕ} (h : bit < bitLen D.length) :
    rootEmissions hc e D bit = (rootEmission hc e D bit).toList ++ rootEmissions hc e D (bit + 1) := by
  unfold rootEmissions
  rw [show bitLen D.length - bit = bitLen D.length - (bit + 1) + 1 by omega,
    List.range'_succ, List.filterMap_cons]
  cases rootEmission hc e D bit <;> rfl

theorem rootEmissions_of_le {D : List α} {bit : ℕ} (h : bitLen D.length ≤ bit) :
    rootEmissions hc e D bit = [] := by
  unfold rootEmissions
  rw [Nat.sub_eq_zero_of_le h, List.range'_zero, List.filterMap_nil]

end Emissions

section Carry

variable (hc : α → α → α) (e : α)

theorem nodeHash_append_last (D : List α) (d : α) :
    nodeHash hc e (D ++ [d]) 0 D.length = d := by
  rw [nodeHash_zero hc e (by simp)]
  simp

/-- The merge at a set bit of the old size: the stored node and the running hash are the two
halves of the node one level up that ends with the new leaf. -/
theorem nodeHash_append_merge (D : List α) (d : α) {b : ℕ} (hb : D.length.testBit b = true) :
    hc (nodeHash hc e D b (D.length / 2 ^ b - 1)) (nodeHash hc e (D ++ [d]) b (D.length / 2 ^ b)) =
      nodeHash hc e (D ++ [d]) (b + 1) (D.length / 2 ^ (b + 1)) := by
  have hpos : 1 ≤ D.length / 2 ^ b := div_two_pow_pos_of_testBit hb
  rw [testBit_iff_div_mod] at hb
  have hle : D.length / 2 ^ b * 2 ^ b ≤ D.length := Nat.div_mul_le_self _ _
  have hlt : D.length / 2 ^ b * 2 ^ b < (D ++ [d]).length := by simp; omega
  have hleft : nodeHash hc e (D ++ [d]) b (D.length / 2 ^ b - 1) =
      nodeHash hc e D b (D.length / 2 ^ b - 1) :=
    nodeHash_append hc e [d] (by rwa [Nat.sub_add_cancel hpos])
  rw [div_two_pow_succ, nodeHash_parent_odd hc e hb hlt, hleft]

variable [Inhabited α]

theorem getElem?_clearBelow_self (xs : List α) (k : ℕ) : (clearBelow xs k)[k]? = xs[k]? := by
  rw [getElem?_clearBelow]
  cases xs[k]? <;> simp

theorem compactNode_of_testBit {D : List α} {b : ℕ} (h : D.length.testBit b = true) :
    compactNode hc e D b = nodeHash hc e D b (D.length / 2 ^ b - 1) := by
  rw [compactNode, if_pos h]

/-- The carry of `AddLeafHash`. Entered at `bit` with the nodes below it cleared and the
running hash the node of level `bit` that ends with `d`, the loop calls `f` on the merges from
`bit` on and leaves the nodes of `D ++ [d]`. -/
theorem addLeafHashLoop_spec (hasher : LogHasher α) (root : α) (size seq : ℕ)
    (f : SetNodeFunc σ α) (D : List α) (d : α) :
    ∀ (k bit : ℕ) (s s' : σ), trailingOnes D.length - bit = k →
      (bit = 0 ∨ bit < trailingOnes D.length) → bit < bitLen D.length →
      runCallbacks f (mergeEmissions hasher.hashChildren e D d bit) s = .ok s' →
      CompactMerkleTree.addLeafHashLoop
          ⟨hasher, root, clearBelow (compactNodes hasher.hashChildren e D) bit, size⟩ f d seq
          (D.length / 2 ^ bit) bit (D.length / 2 ^ bit)
          (nodeHash hasher.hashChildren e (D ++ [d]) bit (D.length / 2 ^ bit)) s =
        some (.ok seq, ⟨hasher, root, compactNodes hasher.hashChildren e (D ++ [d]), size⟩, s') := by
  intro k
  induction k with
  | zero =>
    -- no trailing ones left: the size is even and the leaf goes to bit 0
    intro bit s s' hk hbit hL hs
    have hb0 : bit = 0 := by omega
    subst hb0
    have ht0 : trailingOnes D.length = 0 := by omega
    rw [mergeEmissions_of_le _ _ (by omega), runCallbacks_nil, Except.ok.injEq] at hs
    subst hs
    have heven : D.length.testBit 0 = false := by
      rw [← Bool.not_eq_true, ← lt_trailingOnes_iff (Nat.zero_le _), ht0]
      exact lt_irrefl 0
    have hpos : 0 < D.length := Nat.lt_of_lt_of_le Nat.one_pos (by simpa using lt_bitLen_iff.mp hL)
    rw [CompactMerkleTree.addLeafHashLoop]
    have hset := compactNodes_append_of_lt hasher.hashChildren e D d (by omega)
    rw [ht0, pow_zero, Nat.div_one] at hset
    simp only [pow_zero, Nat.div_one, if_pos hpos]
    rw [if_pos (by simpa using (div_two_pow_and_one_eq_zero_iff D.length 0).mpr heven),
      if_pos (by simpa using hL), if_neg (lt_irrefl 0), hset]
  | succ k ih =>
    -- a trailing one is left: merge with the stored node and carry on or stop above it
    intro bit s s' hk hbit hL hs
    have hlt : bit < trailingOnes D.length := by omega
    have hodd : D.length.testBit bit = true := testBit_of_lt_trailingOnes hlt
    rw [mergeEmissions_of_lt _ _ hlt, mergeEmission] at hs
    obtain ⟨s₁, hf, hrest⟩ := runCallbacks_cons_eq_ok.mp hs
    have hpos : 0 < D.length / 2 ^ bit := div_two_pow_pos_of_testBit hodd
    have hcarry : ¬ D.length / 2 ^ bit &&& 1 = 0 := by
      rw [div_two_pow_and_one_eq_zero_iff, hodd]
      decide
    rw [CompactMerkleTree.addLeafHashLoop]
    simp only [if_pos hpos, if_neg hcarry, getElem?_clearBelow_self, getElem?_compactNodes,
      if_pos hL, compactNode_of_testBit _ _ hodd, nodeHash_append_merge _ _ _ _ hodd,
      div_two_pow_shiftRight_one, hf, clearBelow_set, length_clearBelow, length_compactNodes]
    by_cases htop : bitLen D.length ≤ bit + 1
    · -- the carry runs out of the top bit: the list grows by the new top node
      have htrail : trailingOnes D.length = bit + 1 := by
        have := trailingOnes_le_bitLen D.length
        omega
      have happ := compactNodes_append_of_eq hasher.hashChildren e D d (by omega)
      rw [htrail] at happ
      rw [mergeEmissions_of_le _ _ (by omega), runCallbacks_nil, Except.ok.injEq] at hrest
      rw [if_pos htop, happ, hrest]
    rw [if_neg htop]
    by_cases hstop : D.length.testBit (bit + 1) = false
    · -- the next bit is clear: the carry stops there
      have htrail : trailingOnes D.length = bit + 1 := by
        have hnot := (lt_trailingOnes_iff (show bit + 1 ≤ trailingOnes D.length by omega)).not
        rw [hstop] at hnot
        simp at hnot
        omega
      have hset := compactNodes_append_of_lt hasher.hashChildren e D d (by omega)
      rw [htrail] at hset
      rw [mergeEmissions_of_le _ _ (by omega), runCallbacks_nil, Except.ok.injEq] at hrest
      rw [if_pos ((div_two_pow_and_two_eq_zero_iff _ _).mpr hstop), hset, hrest]
    · -- the next bit is set: carry on with the merged node
      have hmore : bit + 1 < trailingOnes D.length :=
        (lt_trailingOnes_iff (by omega)).mpr (Bool.not_eq_false _ ▸ hstop)
      rw [if_neg (by rwa [div_two_pow_and_two_eq_zero_iff])]
      exact ih (bit + 1) s₁ s' (by omega) (Or.inr hmore) (by omega) hrest

end Carry

section Root

variable (hc : α → α → α) (e : α)

-- The node of level `b` at index `N / 2^b` holds the last `N % 2^b` leaves. One level up it is the
-- same node when bit `b` is clear, and otherwise absorbs the complete node to its left.

theorem nodeHash_tail_of_mod_eq_zero {D : List α} {b : ℕ} (hb : D.length.testBit b = true)
    (h0 : D.length % 2 ^ b = 0) :
    nodeHash hc e D b (D.length / 2 ^ b - 1) = nodeHash hc e D (b + 1) (D.length / 2 ^ (b + 1)) := by
  have hpos := div_two_pow_pos_of_testBit hb
  rw [testBit_iff_div_mod] at hb
  have hsplit := Nat.div_add_mod' D.length (2 ^ b)
  have hmul : (D.length / 2 ^ b - 1) * 2 ^ b = D.length / 2 ^ b * 2 ^ b - 2 ^ b := by
    rw [Nat.sub_mul, one_mul]
  have hp := Nat.two_pow_pos b
  have hle : 2 ^ b ≤ D.length / 2 ^ b * 2 ^ b := Nat.le_mul_of_pos_left _ hpos
  rw [div_two_pow_succ, show D.length / 2 ^ b / 2 = (D.length / 2 ^ b - 1) / 2 by omega,
    nodeHash_parent_last hc e (by omega) (by omega) (by rw [Nat.sub_add_cancel hpos]; omega)]

theorem nodeHash_tail_of_testBit {D : List α} {b : ℕ} (hb : D.length.testBit b = true)
    (h0 : D.length % 2 ^ b ≠ 0) :
    hc (nodeHash hc e D b (D.length / 2 ^ b - 1)) (nodeHash hc e D b (D.length / 2 ^ b)) =
      nodeHash hc e D (b + 1) (D.length / 2 ^ (b + 1)) := by
  rw [testBit_iff_div_mod] at hb
  have hsplit := Nat.div_add_mod' D.length (2 ^ b)
  rw [div_two_pow_succ, nodeHash_parent_odd hc e hb (by omega)]

theorem nodeHash_tail_of_not_testBit {D : List α} {b : ℕ} (hb : D.length.testBit b = false)
    (h0 : D.length % 2 ^ b ≠ 0) :
    nodeHash hc e D b (D.length / 2 ^ b) = nodeHash hc e D (b + 1) (D.length / 2 ^ (b + 1)) := by
  rw [Nat.testBit_eq_decide_div_mod_eq, decide_eq_false_iff_not] at hb
  have hsplit := Nat.div_add_mod' D.length (2 ^ b)
  have hlt := Nat.mod_lt D.length (Nat.two_pow_pos b)
  rw [div_two_pow_succ, nodeHash_parent_last hc e (by omega) (by omega) (by rw [Nat.add_mul, one_mul]; omega)]

variable [Inhabited α]

/-- The loop of `recalculateRoot` over the nodes of `D`. Entered at `bit` with `first` telling
whether the size has no set bit below `bit`, and otherwise with the running root the node of
level `bit` over the last leaves, it calls `f` on the right edge from `bit` on and returns the
root of `D`. -/
theorem recalculateRootLoop_spec (hasher : LogHasher α) (root : α) (f : SetNodeFunc σ α)
    (D : List α) (hD : 0 < D.length) :
    ∀ (k bit : ℕ) (r : α) (s s' : σ), bitLen D.length - bit = k → bit ≤ bitLen D.length →
      (D.length % 2 ^ bit ≠ 0 → r = nodeHash hasher.hashChildren e D bit (D.length / 2 ^ bit)) →
      runCallbacks f (rootEmissions hasher.hashChildren e D bit) s = .ok s' →
      CompactMerkleTree.recalculateRootLoop
          ⟨hasher, root, compactNodes hasher.hashChildren e D, D.length⟩ f (bitLen D.length) bit
          (D.length / 2 ^ bit) (decide (D.length % 2 ^ bit = 0)) r s =
        some (.ok (mth hasher.hashChildren e D), s') := by
  intro k
  induction k with
  | zero =>
    -- past the top bit the running root spans every leaf
    intro bit r s s' hk hbit hr hs
    have htop : bit = bitLen D.length := by omega
    subst htop
    rw [rootEmissions_of_le _ _ le_rfl, runCallbacks_nil, Except.ok.injEq] at hs
    have hlt := lt_two_pow_bitLen D.length
    rw [Nat.mod_eq_of_lt hlt, Nat.div_eq_of_lt hlt, nodeHash_root _ _ hlt.le] at hr
    rw [CompactMerkleTree.recalculateRootLoop, if_neg (lt_irrefl _), hr (by omega), hs]
  | succ k ih =>
    intro bit r s s' hk hbit hr hs
    have hlt : bit < bitLen D.length := by omega
    rw [rootEmissions_of_lt _ _ hlt] at hs
    rw [CompactMerkleTree.recalculateRootLoop, if_pos hlt]
    simp only [and_one_shiftLeft_ne_zero, div_two_pow_shiftRight_one]
    cases hb : D.length.testBit bit with
    | false =>
      -- a clear bit: the running root is already the node one level up
      have hmod := mod_two_pow_succ_of_not_testBit hb
      rw [rootEmission, if_neg (by rw [hb]; simp)] at hs
      rw [if_neg (by simp), ← hmod]
      refine ih (bit + 1) r s s' (by omega) hlt (fun h0 => ?_) hs
      rw [hr (by rwa [← hmod]), nodeHash_tail_of_not_testBit _ e hb (by rwa [← hmod])]
    | true =>
      rw [if_pos rfl, getElem?_compactNodes, if_pos hlt, compactNode_of_testBit _ _ hb]
      have hmod := mod_two_pow_succ_of_testBit hb
      have hne : D.length % 2 ^ (bit + 1) ≠ 0 := by
        have := Nat.two_pow_pos bit
        omega
      by_cases hfirst : D.length % 2 ^ bit = 0
      · -- the lowest set bit: its node starts the running root
        rw [rootEmission, if_neg (by simp [hfirst])] at hs
        simp only [hfirst, decide_true, if_true]
        rw [show false = decide (D.length % 2 ^ (bit + 1) = 0) by simp [hne]]
        exact ih (bit + 1) _ s s' (by omega) hlt
          (fun _ => nodeHash_tail_of_mod_eq_zero _ e hb hfirst) hs
      · -- a higher set bit: hash the stored node with the running root and store the result
        rw [rootEmission, if_pos ⟨hb, hfirst⟩] at hs
        obtain ⟨s₁, hf, hrest⟩ := runCallbacks_cons_eq_ok.mp hs
        simp only [hfirst, decide_false, Bool.false_eq_true, if_false]
        rw [hr hfirst, nodeHash_tail_of_testBit hasher.hashChildren e hb hfirst, hf]
        simp only
        rw [show false = decide (D.length % 2 ^ (bit + 1) = 0) by simp [hne]]
        exact ih (bit + 1) _ s₁ s' (by omega) hlt (fun _ => rfl) hrest

/-- `recalculateRoot` on the nodes of a nonempty `D` sets the root to the tree hash of `D`,
calling `f` on the right edge. -/
theorem recalculateRoot_spec (hasher : LogHasher α) (root : α) (f : SetNodeFunc σ α)
    {D : List α} (hD : 0 < D.length) {s s' : σ}
    (hs : runCallbacks f (rootEmissions hasher.hashChildren e D 0) s = .ok s') :
    CompactMerkleTree.recalculateRoot ⟨hasher, root, compactNodes hasher.hashChildren e D, D.length⟩
        f s =
      some (.ok (), ⟨hasher, mth hasher.hashChildren e D, compactNodes hasher.hashChildren e D,
        D.length⟩, s') := by
  have hloop := recalculateRootLoop_spec e hasher root f D hD _ 0 default s s' rfl
    (Nat.zero_le _) (fun h => absurd (Nat.mod_one _) (by simpa using h)) hs
  simp only [pow_zero, Nat.div_one, Nat.mod_one, decide_true] at hloop
  rw [CompactMerkleTree.recalculateRoot]
  simp only [Nat.pos_iff_ne_zero.mp hD, if_false, hloop]

end Root

section Append

variable [Inhabited α]

/-- The compact tree of the leaves `D`: their tree hash and the nodes of `D`. -/
def compactTreeOf (hasher : LogHasher α) (D : List α) : CompactMerkleTree α :=
  ⟨hasher, mth hasher.hashChildren hasher.emptyRoot D,
    compactNodes hasher.hashChildren hasher.emptyRoot D, D.length⟩

@[simp] theorem compactTreeOf_size (hasher : LogHasher α) (D : List α) :
    (compactTreeOf hasher D).size = D.length := rfl

@[simp] theorem compactTreeOf_root (hasher : LogHasher α) (D : List α) :
    (compactTreeOf hasher D).root = mth hasher.hashChildren hasher.emptyRoot D := rfl

@[simp] theorem compactTreeOf_nodes (hasher : LogHasher α) (D : List α) :
    (compactTreeOf hasher D).nodes = compactNodes hasher.hashChildren hasher.emptyRoot D := rfl

theorem newCompactMerkleTree_eq (hasher : LogHasher α) :
    CompactMerkleTree.newCompactMerkleTree hasher = compactTreeOf hasher [] := by
  simp [CompactMerkleTree.newCompactMerkleTree, compactTreeOf, compactNodes, bitLen_zero]

variable (e : α)

/-- The body of `AddLeafHash` on the nodes of `D`: the leaf is stored and the carry leaves the
nodes of `D ++ [d]`. -/
theorem addLeafHashBody_spec (hasher : LogHasher α) (root : α) (f : SetNodeFunc σ α)
    (D : List α) (d : α) {s s₁ s₂ : σ} (hleaf : f 0 D.length d s = .ok s₁)
    (hmerge : runCallbacks f (mergeEmissions hasher.hashChildren e D d 0) s₁ = .ok s₂) :
    CompactMerkleTree.addLeafHashBody ⟨hasher, root, compactNodes hasher.hashChildren e D, D.length⟩
        d f s =
      some (.ok D.length,
        ⟨hasher, root, compactNodes hasher.hashChildren e (D ++ [d]), D.length⟩, s₂) := by
  rw [CompactMerkleTree.addLeafHashBody]
  simp only [hleaf]
  rcases Nat.eq_zero_or_pos D.length with hD | hD
  · -- the first leaf is the only node
    rw [List.length_eq_zero_iff] at hD
    subst hD
    rw [mergeEmissions_of_le _ _ (by simp [trailingOnes_of_even]), runCallbacks_nil,
      Except.ok.injEq] at hmerge
    subst hmerge
    simp [compactNodes, bitLen_zero, bitLen_of_pos, compactNode, nodeHash_zero]
  · have hloop := addLeafHashLoop_spec e hasher root D.length D.length f D d _ 0 s₁ s₂ rfl
      (Or.inl rfl) (lt_bitLen_iff.mpr (by rw [pow_zero]; exact hD)) hmerge
    simp only [clearBelow_zero, pow_zero, Nat.div_one, nodeHash_append_last] at hloop
    rw [if_neg (by omega), hloop]

/-- One call of `AddLeafHash` on the compact tree of `D`: it returns the old size as the new
leaf's sequence number and leaves the compact tree of `D ++ [d]`, having called `f` on the
leaf, the merges and the new right edge. -/
theorem addLeafHash_spec (hasher : LogHasher α) (f : SetNodeFunc σ α) (D : List α) (d : α)
    {s s' : σ}
    (hs : runCallbacks f (appendEmissions hasher.hashChildren hasher.emptyRoot D d) s = .ok s') :
    (compactTreeOf hasher D).addLeafHash d f s =
      some (.ok D.length, compactTreeOf hasher (D ++ [d]), s') := by
  obtain ⟨s₁, hleaf, hs₁⟩ := runCallbacks_cons_eq_ok.mp hs
  obtain ⟨s₂, hmerge, hroot⟩ := runCallbacks_append_eq_ok.mp hs₁
  have hbody := addLeafHashBody_spec hasher.emptyRoot hasher
    (mth hasher.hashChildren hasher.emptyRoot D) f D d hleaf hmerge
  have hrecalc := recalculateRoot_spec hasher.emptyRoot hasher
    (mth hasher.hashChildren hasher.emptyRoot D) f (show 0 < (D ++ [d]).length by simp) hroot
  rw [List.length_append, List.length_singleton] at hrecalc
  rw [compactTreeOf, CompactMerkleTree.addLeafHash, hbody]
  simp only
  rw [hrecalc]
  simp [compactTreeOf]

/-- The callbacks of appending the leaves `ds` one by one to `D`. -/
def appendRunEmissions (hc : α → α → α) (e : α) (D : List α) : List α → List (ℕ × ℕ × α)
  | [] => []
  | d :: ds => appendEmissions hc e D d ++ appendRunEmissions hc e (D ++ [d]) ds

/-- A batch of `AddLeafHash` calls on the compact tree of `D`: the calls return the next
sequence numbers in turn and leave the compact tree of `D ++ ds`. -/
theorem addLeafHashes_spec (hasher : LogHasher α) (f : SetNodeFunc σ α) :
    ∀ (ds D : List α) {s s' : σ},
      runCallbacks f (appendRunEmissions hasher.hashChildren hasher.emptyRoot D ds) s = .ok s' →
      (compactTreeOf hasher D).addLeafHashes f ds s =
        some ((List.range' D.length ds.length).map .ok, compactTreeOf hasher (D ++ ds), s')
  | [], D, s, s', hs => by
    rw [appendRunEmissions, runCallbacks_nil, Except.ok.injEq] at hs
    subst hs
    simp [CompactMerkleTree.addLeafHashes]
  | d :: ds, D, s, s', hs => by
    rw [appendRunEmissions] at hs
    obtain ⟨s₁, hstep, hrest⟩ := runCallbacks_append_eq_ok.mp hs
    have ih := addLeafHashes_spec hasher f ds (D ++ [d]) hrest
    rw [List.length_append, List.length_singleton, List.append_assoc, List.singleton_append] at ih
    rw [CompactMerkleTree.addLeafHashes, addLeafHash_spec hasher f D d hstep]
    simp only [ih, List.length_cons, List.range'_succ, List.map_cons]

end Append

end Trillian
