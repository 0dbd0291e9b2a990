import Trillian.ProofFetcherSpec
import Trillian.SequencerStorage

/-! The address calculation of `merkle/merkle_path.go` against the storage layout the sequencer
leaves: every node a proof asks for is stored, and the fetches give the RFC 6962 proof in the
tree over the snapshot's leaves. -/

namespace Trillian

open Rfc6962

variable {α : Type*}

theorem lastNodePresent_iff (level ts : ℕ) :
    lastNodePresent level ts = true ↔ level = 0 ∨ (ts - 1).testBit (level - 1) = true := by
  unfold lastNodePresent
  split_ifs with h
  · simp [h]
  · rw [and_one_shiftLeft_ne_zero]
    simp [h]

section LastNode

variable (hc : α → α → α) (e : α)

/-- `skipMissingLevels` from the last node of a level goes down to the highest level at or below
it where storage holds the last node, which has the same hash. -/
theorem skipMissingLevelsLoop_last (D : List α) (hD : 0 < D.length) :
    ∀ l, ∃ l' ≤ l,
      skipMissingLevelsLoop D.length ((D.length - 1) / 2 ^ l) l ((D.length - 1) / 2 ^ l) =
          (l', (D.length - 1) / 2 ^ l') ∧
        (l' = 0 ∨ (D.length - 1).testBit (l' - 1) = true) ∧
        nodeHash hc e D l' ((D.length - 1) / 2 ^ l') = nodeHash hc e D l ((D.length - 1) / 2 ^ l)
  | 0 => ⟨0, le_rfl, by rw [skipMissingLevelsLoop]; simp, Or.inl rfl, rfl⟩
  | l + 1 => by
    by_cases hp : lastNodePresent (l + 1) D.length = true
    · -- storage holds the last node
      refine ⟨l + 1, le_rfl, ?_, ?_, rfl⟩
      · rw [skipMissingLevelsLoop, if_neg (by simp [hp])]
      · simpa using (lastNodePresent_iff _ _).mp hp
    · -- the last node has only a left child: read it one level down
      have hb : (D.length - 1).testBit l = false := by
        rw [lastNodePresent_iff] at hp
        simpa using hp
      obtain ⟨l', hl', hloop, hpres, hhash⟩ := skipMissingLevelsLoop_last D hD l
      refine ⟨l', by omega, ?_, hpres, ?_⟩
      · rw [skipMissingLevelsLoop, if_pos ⟨Nat.succ_pos l, rfl, by simpa using hp⟩,
          Nat.add_sub_cancel, Nat.shiftRight_eq_div_pow, ← div_two_pow_of_not_testBit hb]
        exact hloop
      · rw [hhash, nodeHash_last_of_not_testBit hc e hD hb]

end LastNode

/-- `skipMissingLevels` reads the sibling itself where it is not the last node or storage holds
it. -/
theorem skipMissingLevelsLoop_of_present {snapshot lastNode level sibling : ℕ}
    (h : level = 0 ∨ sibling ≠ lastNode ∨ lastNodePresent level snapshot = true) :
    skipMissingLevelsLoop snapshot lastNode level sibling = (level, sibling) := by
  rw [skipMissingLevelsLoop, if_neg]
  rintro ⟨h0, heq, hp⟩
  rcases h with h | h | h
  · omega
  · exact h heq
  · rw [hp] at h
    exact Bool.false_ne_true h

section Recompute

variable (hc : α → α → α) (e : α) [Inhabited α]

/-- The state of the rehash loop: before the first left sibling nothing is fetched and the saved
node holds `v`; after it, the fetches are a chain to `v`. -/
def RehashState (store : NodeID → Option α) (saved : NodeID) (v : α) :
    Bool → List NodeFetch → Prop
  | false, F => F = [] ∧ store saved = some v
  | true, F => ChainTo hc store F v

theorem RehashState.recomputes {store : NodeID → Option α} {saved : NodeID} {v : α} :
    ∀ {b F}, RehashState hc store saved v b F →
      Recomputes hc store (if !b then F ++ [⟨saved, b⟩] else F) v
  | false, _, ⟨rfl, hsaved⟩ => recomputes_copy hc hsaved
  | true, _, h => ChainTo.recomputes hc h

variable {D : List α} {store : NodeID → Option α}

omit [Inhabited α] in
/-- At a level where the snapshot's last node is a right child, its left sibling is complete in
the snapshot, read under its own ID, and stored with its hash there. -/
theorem leftSibling_of_testBit (hs : HoldsTree hc e D store) (hN : D.length ≤ 2 ^ 63) {s k : ℕ}
    (hsN : s ≤ D.length) (hb : (s - 1).testBit k = true) :
    siblingIDSkipLevels s ((D.length - 1) / 2 ^ k) k (((s - 1) / 2 ^ k - 1) ^^^ 1) 64 =
        .ok (nodeIDOf k ((s - 1) / 2 ^ k - 1)) ∧
      store (nodeIDOf k ((s - 1) / 2 ^ k - 1)) =
        some (nodeHash hc e (D.take s) k ((s - 1) / 2 ^ k - 1)) := by
  have hpos := div_two_pow_pos_of_testBit hb
  have hblock := pred_div_two_pow_mul_add_le hb
  have hhalf : 2 ^ k / 2 < 2 ^ k := Nat.div_lt_self (Nat.two_pow_pos k) one_lt_two
  -- the sibling lies before the last node of the level in the stored tree
  have hne : (s - 1) / 2 ^ k - 1 ≠ (D.length - 1) / 2 ^ k := by
    have := Nat.div_le_div_right (c := 2 ^ k) (show s - 1 ≤ D.length - 1 by omega)
    omega
  refine ⟨?_, hs.complete hc e (by rw [Nat.succ_mul]; omega) hsN⟩
  simp only [siblingIDSkipLevels, skipMissingLevels, xor_one_xor_one,
    skipMissingLevelsLoop_of_present (Or.inr (Or.inl hne))]
  exact newNodeIDForTreeCoords_of_stored hN (by omega)

theorem recomputeRehashLoop_spec (hs : HoldsTree hc e D store) (hN : D.length ≤ 2 ^ 63) {s L : ℕ}
    (hs0 : 0 < s) (hsN : s ≤ D.length) (hL : (s - 1).testBit L = true) (saved : NodeID) :
    ∀ n k b F, L - k = n → k < L →
      RehashState hc store saved (nodeHash hc e (D.take s) k ((s - 1) / 2 ^ k)) b F →
      ∃ G, recomputeRehashLoop s L 64 saved k ((s - 1) / 2 ^ k) ((D.length - 1) / 2 ^ k) b b F =
          .ok G ∧ Recomputes hc store G (nodeHash hc e (D.take s) L ((s - 1) / 2 ^ L))
  | 0, k, _, _, hn, hk, _ => by omega
  | n + 1, k, b, F, hn, hk, hst => by
    have hlen : (D.take s).length = s := List.length_take_of_le hsN
    have hpos : (s - 1) / 2 ^ k ≠ 0 := by
      have hL0 := div_two_pow_pos_of_testBit hL
      have hle : (s - 1) / 2 ^ L ≤ (s - 1) / 2 ^ k :=
        Nat.div_le_div_left (Nat.pow_le_pow_right two_pos hk.le) (Nat.two_pow_pos k)
      omega
    -- the end of the level: stop at `nodeLevel`, or go on from the state one level up
    have tail : ∀ b' F', RehashState hc store saved
        (nodeHash hc e (D.take s) (k + 1) ((s - 1) / 2 ^ (k + 1))) b' F' →
        ∃ G, (if L = k + 1 ∧ (!b') = true then Except.ok (F' ++ [⟨saved, b'⟩])
            else if k + 1 = L then Except.ok F'
            else recomputeRehashLoop s L 64 saved (k + 1) ((s - 1) / 2 ^ (k + 1))
              ((D.length - 1) / 2 ^ (k + 1)) b' b' F') = .ok G ∧
          Recomputes hc store G (nodeHash hc e (D.take s) L ((s - 1) / 2 ^ L)) := by
      intro b' F' hst'
      by_cases hend : k + 1 = L
      · subst hend
        refine ⟨_, ?_, hst'.recomputes⟩
        cases b' <;> simp
      · rw [if_neg (by omega), if_neg hend]
        exact recomputeRehashLoop_spec hs hN hs0 hsN hL saved n (k + 1) b' F' (by omega)
          (by omega) hst'
    rw [recomputeRehashLoop, if_pos hpos]
    by_cases hb : (s - 1).testBit k = true
    · -- a right child: rehash with the left sibling, starting the chain if need be
      obtain ⟨hsib, hstore⟩ := leftSibling_of_testBit hc e hs hN hsN hb
      have hodd : (s - 1) / 2 ^ k &&& 1 ≠ 0 := by
        rw [Ne, div_two_pow_and_one_eq_zero_iff]
        simp [hb]
      have hhash := @nodeHash_last_of_testBit _ hc e (D.take s) k (by omega) (by rw [hlen]; exact hb)
      rw [hlen] at hhash
      simp only [if_pos hodd, hsib, div_two_pow_shiftRight_one]
      cases b with
      | false =>
        obtain ⟨rfl, hsaved⟩ := hst
        exact tail true _ (by rw [hhash]; exact chainTo_start hc hsaved hstore)
      | true => exact tail true _ (by rw [hhash]; exact ChainTo.snoc hc hst hstore)
    · -- a left child is the last node alone: nothing to fetch
      have heven : ¬ (s - 1) / 2 ^ k &&& 1 ≠ 0 := by
        rw [not_not, div_two_pow_and_one_eq_zero_iff]
        simpa using hb
      have hhash := @nodeHash_last_of_not_testBit _ hc e (D.take s) k (by omega)
        (by rw [hlen]; simpa using hb)
      rw [hlen] at hhash
      simp only [if_neg heven, div_two_pow_shiftRight_one]
      exact tail b F (by rw [hhash]; exact hst)

omit [Inhabited α] in
/-- Up to the trailing ones of the snapshot's last leaf index, the snapshot's last node of a
level is complete there, read under its own ID and stored with its hash there. -/
theorem lastNode_of_le_trailingOnes (hs : HoldsTree hc e D store) (hN : D.length ≤ 2 ^ 63)
    {s k : ℕ} (hs0 : 0 < s) (hsN : s ≤ D.length) (hk : k ≤ trailingOnes (s - 1)) :
    siblingIDSkipLevels s ((D.length - 1) / 2 ^ k) k ((s - 1) / 2 ^ k ^^^ 1) 64 =
        .ok (nodeIDOf k ((s - 1) / 2 ^ k)) ∧
      store (nodeIDOf k ((s - 1) / 2 ^ k)) = some (nodeHash hc e (D.take s) k ((s - 1) / 2 ^ k)) := by
  have hmod := mod_two_pow_of_le_trailingOnes hk
  have hsplit := Nat.div_add_mod' (s - 1) (2 ^ k)
  have hpos := Nat.two_pow_pos k
  have hhalf : 2 ^ k / 2 < 2 ^ k := Nat.div_lt_self hpos one_lt_two
  -- the node ends exactly at the snapshot's last leaf
  have hend : ((s - 1) / 2 ^ k + 1) * 2 ^ k = s := by rw [Nat.succ_mul]; omega
  -- storage holds the snapshot's last node of every level up to the trailing ones
  have hpres : lastNodePresent k s = true := by
    rw [lastNodePresent_iff]
    rcases Nat.eq_zero_or_pos k with h0 | hk0
    · exact Or.inl h0
    · exact Or.inr (testBit_of_lt_trailingOnes (by omega))
  refine ⟨?_, hs.complete hc e hend.le hsN⟩
  simp only [siblingIDSkipLevels, skipMissingLevels, xor_one_xor_one,
    skipMissingLevelsLoop_of_present (Or.inr (Or.inr hpres))]
  exact newNodeIDForTreeCoords_of_stored hN (by rw [Nat.succ_mul] at hend; omega)

theorem recomputeClimbLoop_spec (hs : HoldsTree hc e D store) (hN : D.length ≤ 2 ^ 63) {s L : ℕ}
    (hs0 : 0 < s) (hsN : s ≤ D.length) (hL : (s - 1).testBit L = true) :
    ∀ n k, trailingOnes (s - 1) - k = n → k ≤ trailingOnes (s - 1) → k ≤ L →
      ∃ G, recomputeClimbLoop s L 64 k ((s - 1) / 2 ^ k) ((D.length - 1) / 2 ^ k) = .ok G ∧
        Recomputes hc store G (nodeHash hc e (D.take s) L ((s - 1) / 2 ^ L))
  | n, k, hn, hkt, hkL => by
    obtain ⟨hsib, hstore⟩ := lastNode_of_le_trailingOnes hc e hs hN hs0 hsN hkt
    rw [recomputeClimbLoop]
    rcases Nat.lt_or_eq_of_le hkt with hlt | rfl
    · -- below the trailing ones the last node is a right child, complete in the snapshot
      have hodd : (s - 1) / 2 ^ k &&& 1 ≠ 0 := by
        rw [Ne, div_two_pow_and_one_eq_zero_iff, testBit_of_lt_trailingOnes hlt]
        decide
      rw [if_pos hodd]
      by_cases hend : L = k
      · subst hend
        rw [if_pos rfl, hsib]
        exact ⟨_, rfl, recomputes_copy hc hstore⟩
      · rw [if_neg hend, div_two_pow_shiftRight_one, div_two_pow_shiftRight_one]
        match n, hn with
        | 0, hn => omega
        | n + 1, hn =>
          exact recomputeClimbLoop_spec hs hN hs0 hsN hL n (k + 1) (by omega) (by omega)
            (by omega)
    · -- the first left child: the rehashing starts from the node at the trailing ones, which
      -- is below `nodeLevel` since bit `nodeLevel` is set
      have hne : trailingOnes (s - 1) ≠ L := by
        rintro rfl
        rw [testBit_trailingOnes] at hL
        exact Bool.false_ne_true hL
      have heven : ¬ (s - 1) / 2 ^ trailingOnes (s - 1) &&& 1 ≠ 0 := by
        rw [not_not, div_two_pow_and_one_eq_zero_iff, testBit_trailingOnes]
      rw [if_neg heven, hsib]
      simp only [if_neg (Ne.symm hne)]
      exact recomputeRehashLoop_spec hc e hs hN hs0 hsN hL _ _ _ false [] rfl
        (by omega) ⟨rfl, hstore⟩

/-- `recomputePastSnapshot` for a node whose last leaf index has bit `nodeLevel` set: the
fetches rebuild the node of the snapshot's tree from the stored tree. -/
theorem recomputePastSnapshot_spec (hs : HoldsTree hc e D store) (hN : D.length ≤ 2 ^ 63)
    {s L : ℕ} (hs0 : 0 < s) (hsN : s < D.length) (hL : (s - 1).testBit L = true) :
    ∃ G, recomputePastSnapshot s D.length L 64 = .ok G ∧
      Recomputes hc store G (nodeHash hc e (D.take s) L ((s - 1) / 2 ^ L)) := by
  rw [recomputePastSnapshot, if_neg hsN.ne, if_neg (by omega)]
  simpa using recomputeClimbLoop_spec hc e hs hN hs0 hsN.le hL _ 0 rfl (Nat.zero_le _)
    (Nat.zero_le _)

end Recompute

section Path

variable (hc : α → α → α) (e : α) [Inhabited α]

variable {D : List α} {store : NodeID → Option α}

omit [Inhabited α] in
/-- A sibling before the snapshot's last node of its level is complete in the snapshot, read
under its own ID and stored with its hash there. -/
theorem sibling_of_lt_lastNode (hs : HoldsTree hc e D store) (hN : D.length ≤ 2 ^ 63) {s a σ : ℕ}
    (hsN : s ≤ D.length) (hlt : σ < (s - 1) / 2 ^ a) :
    newNodeIDForTreeCoords a σ 64 = .ok (nodeIDOf a σ) ∧
      store (nodeIDOf a σ) = some (nodeHash hc e (D.take s) a σ) := by
  have hle : (σ + 1) * 2 ^ a ≤ s - 1 :=
    (Nat.le_div_iff_mul_le (Nat.two_pow_pos a)).mp hlt
  have hhalf : 2 ^ a / 2 < 2 ^ a := Nat.div_lt_self (Nat.two_pow_pos a) one_lt_two
  rw [Nat.succ_mul] at hle
  exact ⟨newNodeIDForTreeCoords_of_stored hN (by omega),
    hs.complete hc e (by rw [Nat.succ_mul]; omega) hsN⟩

omit [Inhabited α] in
/-- At the tree size storage holds, the last node of a level is read at the highest level at or
below it where storage holds the last node. -/
theorem sibling_skipLevels (hs : HoldsTree hc e D store) (hN : D.length ≤ 2 ^ 63)
    (hD : 0 < D.length) {a c : ℕ} (hsib : c ^^^ 1 = (D.length - 1) / 2 ^ a) :
    ∃ id, siblingIDSkipLevels D.length ((D.length - 1) / 2 ^ a) a c 64 = .ok id ∧
      store id = some (nodeHash hc e D a ((D.length - 1) / 2 ^ a)) := by
  obtain ⟨l, -, hloop, hpres, hhash⟩ := skipMissingLevelsLoop_last hc e D hD a
  have hstored := div_two_pow_mul_add_half_lt hD hpres
  refine ⟨nodeIDOf l ((D.length - 1) / 2 ^ l), ?_, ?_⟩
  · simp only [siblingIDSkipLevels, skipMissingLevels, hsib, hloop]
    exact newNodeIDForTreeCoords_of_stored hN hstored
  · rw [hs, if_pos hstored, hhash]

theorem pathFromNodeToRootLoop_spec (hs : HoldsTree hc e D store) (hN : D.length ≤ 2 ^ 63)
    {s m L : ℕ} (hs0 : 0 < s) (hsN : s ≤ D.length) (hm : m < s) (hL : s ≤ 2 ^ L) :
    ∀ n a proof, L - a = n →
      ∃ F, pathFromNodeToRootLoop s D.length 64 (m / 2 ^ a) a ((s - 1) / 2 ^ a) proof =
          .ok (proof ++ F) ∧
        Serves hc store F (pathLevels hc e (D.take s) m a (L - a)) ∧
        (m / 2 ^ a = (s - 1) / 2 ^ a → Plain F)
  | n, a, proof, hn => by
    have hlen : (D.take s).length = s := List.length_take_of_le hsN
    have hcle : m / 2 ^ a ≤ (s - 1) / 2 ^ a := Nat.div_le_div_right (by omega)
    rw [pathFromNodeToRootLoop]
    by_cases h0 : (s - 1) / 2 ^ a = 0
    · -- one node spans the snapshot: the path ends
      have hsa : s ≤ 2 ^ a := by
        have := (Nat.div_eq_zero_iff_lt (Nat.two_pow_pos a)).mp h0
        omega
      rw [if_neg (not_not.mpr h0), pathLevels_of_length_le hc e _ (by rw [hlen]; exact hm)
        (by rw [hlen]; exact hsa)]
      exact ⟨[], by simp, serves_nil hc store, fun _ _ h => by simp at h⟩
    · rw [if_pos h0]
      have haL : a < L := by
        have h2a : 2 ^ a ≤ s - 1 := by
          by_contra h
          exact h0 (Nat.div_eq_of_lt (by omega))
        by_contra h
        have := Nat.pow_le_pow_right two_pos (not_lt.mp h)
        omega
      obtain ⟨n, rfl⟩ : ∃ n', n = n' + 1 := ⟨n - 1, by omega⟩
      rw [show L - a = L - (a + 1) + 1 by omega, pathLevels_cons, siblingAt_eq hc e m a (by omega),
        hlen]
      have next := fun proof' =>
        pathFromNodeToRootLoop_spec hs hN hs0 hsN hm hL n (a + 1) proof' (by omega)
      -- a node equal to the last node of its level has a parent equal to the last node
      have hnext : m / 2 ^ a = (s - 1) / 2 ^ a → m / 2 ^ (a + 1) = (s - 1) / 2 ^ (a + 1) := by
        intro h
        rw [div_two_pow_succ, div_two_pow_succ, h]
      simp only [div_two_pow_shiftRight_one]
      have hsib := sib_eq (m / 2 ^ a)
      unfold sib at hsib ⊢
      rcases lt_trichotomy (m / 2 ^ a ^^^ 1) ((s - 1) / 2 ^ a) with hlt | heq | hgt
      · -- the sibling is complete in the snapshot: one plain fetch
        obtain ⟨hid, hv⟩ := sibling_of_lt_lastNode hc e hs hN hsN hlt
        obtain ⟨F, hF, hserve, hplain⟩ := next (proof ++ [⟨nodeIDOf a (m / 2 ^ a ^^^ 1), false⟩])
        refine ⟨⟨nodeIDOf a (m / 2 ^ a ^^^ 1), false⟩ :: F, ?_, ?_, ?_⟩
        · simp only [if_pos hlt, hid, hF]
          simp
        · rw [if_pos hlt.le]
          exact Serves.plain_cons hc hv hserve
        · intro h f hf
          rcases List.mem_cons.mp hf with rfl | hf
          · rfl
          · exact hplain (hnext h) f hf
      · -- the sibling is the snapshot's last node, so the node is its left sibling
        have hne : m / 2 ^ a ≠ (s - 1) / 2 ^ a := by
          intro h
          split_ifs at hsib <;> omega
        have hpar : m / 2 ^ (a + 1) = (s - 1) / 2 ^ (a + 1) := by
          rw [div_two_pow_succ, div_two_pow_succ]
          split_ifs at hsib <;> omega
        have hnlt : ¬ m / 2 ^ a ^^^ 1 < (s - 1) / 2 ^ a := by omega
        rw [if_pos heq.le, heq]
        by_cases hsD : s = D.length
        · -- at the stored size: read where storage holds the last node
          subst hsD
          obtain ⟨id, hid, hv⟩ := sibling_skipLevels hc e hs hN hs0 heq
          obtain ⟨F, hF, hserve, -⟩ := next (proof ++ [⟨id, false⟩])
          refine ⟨⟨id, false⟩ :: F, ?_, ?_, fun h => absurd h hne⟩
          · simp only [lt_irrefl, if_false, if_true, hid]
            rw [hF]
            simp
          · rw [List.take_length] at hserve ⊢
            exact Serves.plain_cons hc hv hserve
        · -- at an older size: rebuild the last node from the stored tree
          have hbit : (s - 1).testBit a = true := by
            rw [testBit_iff_div_mod]
            split_ifs at hsib <;> omega
          obtain ⟨G, hG, hrec⟩ :=
            recomputePastSnapshot_spec hc e hs hN hs0 (lt_of_le_of_ne hsN hsD) hbit
          obtain ⟨F, hF, hserve, hplain⟩ := next (proof ++ G)
          refine ⟨G ++ F, ?_, Serves.recompute_append hc hrec (hplain hpar) hserve,
            fun h => absurd h hne⟩
          simp only [lt_irrefl, if_false, if_true, if_neg hsD, hG, hrec.1]
          rw [hF, List.append_assoc]
      · -- the sibling lies past the snapshot: nothing to fetch
        obtain ⟨F, hF, hserve, hplain⟩ := next proof
        refine ⟨F, ?_, ?_, fun h => hplain (hnext h)⟩
        · simp only [if_neg (not_lt.mpr hgt.le), if_neg hgt.ne', hF]
        · rw [if_neg (not_le.mpr hgt)]
          simpa using hserve

/-- `pathFromNodeToRootAtSnapshot` from the ancestor at level `a` of leaf `m`: its fetches give
the siblings of the ancestors from level `a` up in the snapshot's tree. -/
theorem pathFromNodeToRootAtSnapshot_spec (hs : HoldsTree hc e D store) (hN : D.length ≤ 2 ^ 63)
    {s m L : ℕ} (hs0 : 0 < s) (hsN : s ≤ D.length) (hm : m < s) (hL : s ≤ 2 ^ L) (a : ℕ) :
    ∃ F, pathFromNodeToRootAtSnapshot (m / 2 ^ a) a s D.length 64 = .ok F ∧
      Serves hc store F (pathLevels hc e (D.take s) m a (L - a)) := by
  obtain ⟨F, hF, hserve, -⟩ :=
    pathFromNodeToRootLoop_spec hc e hs hN hs0 hsN hm hL (L - a) a [] rfl
  refine ⟨F, ?_, hserve⟩
  rw [pathFromNodeToRootAtSnapshot, if_neg hs0.ne', Nat.shiftRight_eq_div_pow, hF,
    List.nil_append]

theorem climbRightChildren_eq (node level : ℕ) :
    climbRightChildren node level = (node / 2 ^ trailingOnes node, level + trailingOnes node) := by
  induction node using Nat.strong_induction_on generalizing level with
  | _ node ih =>
    rw [climbRightChildren]
    by_cases hodd : node % 2 = 1
    · have hne : node &&& 1 ≠ 0 := by rw [Nat.and_one_is_mod]; omega
      rw [if_pos hne, Nat.shiftRight_eq_div_pow, pow_one, ih _ (by omega),
        trailingOnes_of_odd hodd, pow_succ', ← Nat.div_div_eq_div_mul]
      simp only [Prod.mk.injEq, true_and]
      omega
    · have heq : ¬ node &&& 1 ≠ 0 := by rw [Nat.and_one_is_mod]; omega
      rw [if_neg heq, trailingOnes_of_even (by omega), pow_zero, Nat.div_one, add_zero]

theorem snapshotConsistency_spec (hs : HoldsTree hc e D store) (hN : D.length ≤ 2 ^ 63)
    {s1 s2 : ℕ} (hs1 : 1 ≤ s1) (h12 : s1 ≤ s2) (hs2 : s2 ≤ D.length) :
    ∃ F, snapshotConsistency s1 s2 D.length 64 = .ok F ∧
      Serves hc store F (consistencyProof hc e s1 (D.take s2)) := by
  have hlen : (D.take s2).length = s2 := List.length_take_of_le hs2
  rcases Nat.lt_or_eq_of_le h12 with hlt | rfl
  · have hL : s2 ≤ 2 ^ s2 := Nat.lt_two_pow_self.le
    rw [consistencyProof, subproof_eq_pathLevels hc e true hs1 (by rw [hlen]; exact hlt)
      (by rw [hlen]; exact hL)]
    obtain ⟨F, hF, hserve⟩ := pathFromNodeToRootAtSnapshot_spec hc e hs hN (by omega) hs2
      (show s1 - 1 < s2 by omega) hL (trailingOnes (s1 - 1))
    -- the old tree's last complete node ends at leaf `s1 - 1`
    have hend := div_trailingOnes_succ_mul (s1 - 1)
    rw [Nat.sub_add_cancel hs1] at hend
    have hhalf : 2 ^ trailingOnes (s1 - 1) / 2 < 2 ^ trailingOnes (s1 - 1) :=
      Nat.div_lt_self (Nat.two_pow_pos _) one_lt_two
    have hid := @newNodeIDForTreeCoords_of_stored (trailingOnes (s1 - 1))
      ((s1 - 1) / 2 ^ trailingOnes (s1 - 1)) D.length hN (by rw [Nat.succ_mul] at hend; omega)
    have hv := hs.complete hc e (le_trans hend.le h12) hs2
    rw [snapshotConsistency, if_neg hlt.ne, climbRightChildren_eq, zero_add]
    by_cases hc0 : (s1 - 1) / 2 ^ trailingOnes (s1 - 1) = 0
    · -- the old tree is one complete node, which the verifier holds
      have hold : oldNodeHash hc e (D.take s2) s1 true = [] := by simp [oldNodeHash, hc0]
      rw [hold, List.nil_append]
      rw [hc0] at hF
      refine ⟨F, ?_, hserve⟩
      simp only [hc0, ne_eq, not_true_eq_false, if_false, hF, List.nil_append]
    · have hold : oldNodeHash hc e (D.take s2) s1 true =
          [nodeHash hc e (D.take s2) (trailingOnes (s1 - 1))
            ((s1 - 1) / 2 ^ trailingOnes (s1 - 1))] := by
        simp [oldNodeHash, hc0]
      rw [hold, List.singleton_append]
      refine ⟨_, ?_, Serves.plain_cons hc hv hserve⟩
      simp only [ne_eq, hc0, not_false_eq_true, if_true, hid, hF, List.singleton_append]
  · refine ⟨[], by rw [snapshotConsistency, if_pos rfl], ?_⟩
    rw [consistencyProof, subproof, if_pos hlen.symm, if_pos rfl]
    exact serves_nil hc store

theorem checkSnapshot_of_le {ssDesc : String} {ss treeSize : ℤ} (h1 : 1 ≤ ss)
    (h2 : ss ≤ treeSize) : checkSnapshot ssDesc ss treeSize = .ok () := by
  rw [checkSnapshot, if_neg (by omega), if_neg (by omega)]

/-- `CalcInclusionProofNodeAddresses` for a leaf of a snapshot of the stored tree: its fetches
give the RFC 6962 audit path in the snapshot's tree. -/
theorem calcInclusionProofNodeAddresses_spec (hs : HoldsTree hc e D store)
    (hN : D.length ≤ 2 ^ 63) {s i : ℕ} (hs1 : 1 ≤ s) (hsN : s ≤ D.length) (hi : i < s) :
    ∃ F, calcInclusionProofNodeAddresses s i D.length 64 = .ok F ∧
      Serves hc store F (auditPath hc e i (D.take s)) := by
  have hlen : (D.take s).length = s := List.length_take_of_le hsN
  obtain ⟨F, hF, hserve⟩ := pathFromNodeToRootAtSnapshot_spec hc e hs hN hs1 hsN hi
    Nat.lt_two_pow_self.le 0
  rw [pow_zero, Nat.div_one] at hF
  rw [Nat.sub_zero] at hserve
  rw [auditPath_eq_pathLevels hc e (by rw [hlen]; exact hi) (by rw [hlen]; exact Nat.lt_two_pow_self.le)]
  refine ⟨F, ?_, hserve⟩
  rw [calcInclusionProofNodeAddresses, checkSnapshot_of_le (by omega) (by omega)]
  simp only [ge_iff_le, Nat.cast_le, not_le.mpr hi, if_false, Int.natCast_nonneg, not_lt.mpr,
    Int.toNat_natCast, hF]
  simp

/-- `CalcConsistencyProofNodeAddresses` between two snapshots of the stored tree: its fetches
give the RFC 6962 consistency proof. -/
theorem calcConsistencyProofNodeAddresses_spec (hs : HoldsTree hc e D store)
    (hN : D.length ≤ 2 ^ 63) {s1 s2 : ℕ} (hs1 : 1 ≤ s1) (h12 : s1 ≤ s2) (hs2 : s2 ≤ D.length) :
    ∃ F, calcConsistencyProofNodeAddresses s1 s2 D.length 64 = .ok F ∧
      Serves hc store F (consistencyProof hc e s1 (D.take s2)) := by
  obtain ⟨F, hF, hserve⟩ := snapshotConsistency_spec hc e hs hN hs1 h12 hs2
  refine ⟨F, ?_, hserve⟩
  rw [calcConsistencyProofNodeAddresses, checkSnapshot_of_le (by omega) (by omega),
    checkSnapshot_of_le (by omega) (by omega)]
  simp only [gt_iff_lt, Nat.cast_lt, not_lt.mpr h12, if_false, Int.toNat_natCast, hF]
  simp

end Path

end Trillian
