import Trillian.MapWriter

/-! `SparseMerkleTreeReader.InclusionProof` of `merkle/sparse_merkle_tree.go`: the stored hashes
of the siblings of a key's path, nil where storage has none, and what such a proof does at
`VerifyMapInclusionProof`. -/

namespace Trillian

namespace Storage

open Bytes

theorem leftmask_testBit : ∀ k < 8, ∀ m < 8,
    (leftmask.getD k 0).toNat.testBit m = decide ((8 - k) % 8 ≤ m) := by
  decide


theorem bytesForBits_natCast (d : ℕ) : bytesForBits (d : ℤ) = (((d + 7) / 8 : ℕ) : ℤ) := by
  rw [bytesForBits, show (d : ℤ) + 7 = ((d + 7 : ℕ) : ℤ) by push_cast; rfl,
    show (3 : ℤ) = ((3 : ℕ) : ℤ) from rfl, Int.shiftRight_natCast, Nat.shiftRight_eq_div_pow]

/-- `MaskLeft` of a path at a positive depth within it: the path's bytes up to the depth's, the
last of them masked by `leftmask`, and zero bytes after. -/
theorem maskLeft_of_pos {n : NodeID} {d : ℕ} (hd : 0 < d) (hdn : d ≤ n.path.length * 8) :
    ∃ x, n.path[(d + 7) / 8 - 1]? = some x ∧
      n.maskLeft d = some ⟨(copy (List.replicate n.path.length 0) (n.path.take ((d + 7) / 8))).set
        ((d + 7) / 8 - 1) (x &&& leftmask.getD (d % 8) 0),
          if (d : ℤ) < n.prefixLenBits then d else n.prefixLenBits⟩ := by
  have hdb : (d + 7) / 8 - 1 < n.path.length := by omega
  refine ⟨n.path[(d + 7) / 8 - 1], List.getElem?_eq_getElem hdb, ?_⟩
  have hcopy : (copy (List.replicate n.path.length 0) (n.path.take ((d + 7) / 8)))[(d + 7) / 8 - 1]? =
      some n.path[(d + 7) / 8 - 1] := by
    rw [copy_of_length_le (by rw [List.length_take, List.length_replicate]; omega),
      List.getElem?_append_left (by rw [List.length_take]; omega),
      List.getElem?_take_of_lt (by omega)]
    exact List.getElem?_eq_getElem hdb
  have hmask : leftmask[((d : ℤ).tmod 8).toNat]? = some (leftmask.getD (d % 8) 0) := by
    rw [Int.tmod_eq_emod_of_nonneg (by omega), show ((d : ℤ) % 8).toNat = d % 8 by omega,
      List.getD_eq_getElem?_getD, List.getElem?_eq_getElem (by simp [leftmask]; omega),
      Option.getD_some]
  have hpos : (d : ℤ) > 0 := by omega
  have hfit : ¬(n.path.length : ℤ) < (((d + 7) / 8 : ℕ) : ℤ) := by omega
  have hidx : ((((d + 7) / 8 : ℕ) : ℤ) - 1).toNat = (d + 7) / 8 - 1 := by omega
  unfold NodeID.maskLeft
  simp only [bytesForBits_natCast, if_pos hpos, if_neg hfit, Int.toNat_natCast, hidx, hcopy, hmask]
  rfl

theorem maskLeft_zero {n : NodeID} (h0 : 0 ≤ n.prefixLenBits) :
    n.maskLeft 0 = some ⟨List.replicate n.path.length 0, 0⟩ := by
  unfold NodeID.maskLeft
  rw [if_neg (lt_irrefl 0)]
  have hpfx : (if (0 : ℤ) < n.prefixLenBits then 0 else n.prefixLenBits) = 0 := by
    split_ifs <;> omega
  simp only [hpfx]
  rfl

/-- `MaskLeft` of a hash's node, down to a height `t`: the node at height `t` above the hash's
key, as `nodeIDAt` names it. -/
theorem maskLeft_newNodeIDFromHash {index : List UInt8} {t : ℕ} (ht : t ≤ index.length * 8) :
    (newNodeIDFromHash index).maskLeft ((newNodeIDFromHash index).prefixLenBits - t) =
      some (Map.nodeIDAt (index.length * 8) t (toNatBE index >>> t)) := by
  have hk := toNatBE_lt index
  have hlen : index.length * 8 / 8 = index.length := by omega
  have hpre : (newNodeIDFromHash index).prefixLenBits = ((index.length * 8 : ℕ) : ℤ) := by
    simp [newNodeIDFromHash]
  have hpath : (newNodeIDFromHash index).path = index := rfl
  rcases Nat.eq_or_lt_of_le ht with htop | htop
  · -- depth zero: the root, with every byte zero
    have hzero : toNatBE index >>> t = 0 := by
      rw [Nat.shiftRight_eq_div_pow, Nat.div_eq_zero_iff_lt (Nat.two_pow_pos t), htop, Nat.mul_comm]
      exact hk
    rw [show (newNodeIDFromHash index).prefixLenBits - t = 0 by rw [hpre]; omega,
      maskLeft_zero (by rw [hpre]; omega), Map.nodeIDAt, hzero, Nat.zero_mul, hlen,
      bigEndian_of_zero, hpath, htop, Nat.sub_self]
    rfl
  · set D := index.length * 8 - t with hD
    obtain ⟨x, hx, hmask⟩ := maskLeft_of_pos (n := newNodeIDFromHash index) (d := D) (by omega)
      (by rw [hpath]; omega)
    have hpfx : (if (D : ℤ) < (newNodeIDFromHash index).prefixLenBits then (D : ℤ)
        else (newNodeIDFromHash index).prefixLenBits) = D := by
      rw [hpre]
      split_ifs <;> omega
    rw [show (newNodeIDFromHash index).prefixLenBits - t = D by rw [hpre]; omega, hmask, hpfx,
      Map.nodeIDAt, hlen, hpath]
    rw [hpath] at hx
    -- the masked bytes hold the key's bits from height `t` up, and none below
    have hlength : ((copy (List.replicate index.length 0) (index.take ((D + 7) / 8))).set
        ((D + 7) / 8 - 1) (x &&& leftmask.getD (D % 8) 0)).length = index.length := by
      rw [List.length_set, length_copy, List.length_replicate]
    have hv : toNatBE index >>> t * 2 ^ t < 2 ^ (8 * index.length) := by
      refine lt_of_le_of_lt ?_ hk
      rw [Nat.shiftRight_eq_div_pow]
      exact Nat.div_mul_le_self _ _
    rw [Option.some.injEq, NodeID.mk.injEq]
    refine ⟨(eq_bigEndian_of_testBit (by rwa [hlength]) fun i hi => ?_).trans (by rw [hlength]),
      by rw [hD]⟩
    rw [hlength] at hi ⊢
    have hx' : x = index.getD ((D + 7) / 8 - 1) 0 := by
      rw [List.getD_eq_getElem?_getD, hx, Option.getD_some]
    rw [Nat.testBit_mul_two_pow, Nat.testBit_shiftRight, List.getD_eq_getElem?_getD,
      List.getElem?_set, copy_of_length_le (by rw [List.length_take, List.length_replicate]; omega)]
    -- the bit is bit `i % 8` of the byte `j` from the left
    set j := index.length - 1 - i / 8 with hj
    have hkey : (toNatBE index).testBit i = (index.getD j 0).toNat.testBit (i % 8) :=
      testBit_toNatBE index i (by omega)
    by_cases hlast : (D + 7) / 8 - 1 = j
    · -- the last byte kept, masked at height `t`
      have hti : (8 - D % 8) % 8 ≤ i % 8 ↔ t ≤ i := by omega
      rw [if_pos hlast, if_pos (by simp; omega), Option.getD_some, UInt8.toNat_and, Nat.testBit_and,
        leftmask_testBit (D % 8) (Nat.mod_lt _ (by norm_num)) (i % 8) (Nat.mod_lt _ (by norm_num)),
        hx', hlast]
      by_cases h : t ≤ i
      · rw [show t + (i - t) = i by omega, hkey, decide_eq_true h, decide_eq_true (hti.mpr h),
          Bool.and_true, Bool.true_and]
      · rw [decide_eq_false h, decide_eq_false (mt hti.mp h), Bool.and_false, Bool.false_and]
    · rw [if_neg hlast]
      by_cases hkept : j < (D + 7) / 8
      · -- a byte kept whole: all its bits are above height `t`
        have hti : t ≤ i := by omega
        rw [List.getElem?_append_left (by rw [List.length_take]; omega), List.getElem?_take_of_lt hkept,
          ← List.getD_eq_getElem?_getD, show t + (i - t) = i by omega, hkey, decide_eq_true hti,
          Bool.true_and]
      · -- a byte cleared: all its bits are below height `t`
        have hti : ¬t ≤ i := by omega
        have hzero : ((List.take ((D + 7) / 8) index ++ List.drop (List.take ((D + 7) / 8) index).length
            (List.replicate index.length 0))[j]?).getD 0 = 0 := by
          rw [List.getElem?_append_right (by rw [List.length_take]; omega), List.drop_replicate,
            List.getElem?_replicate]
          split_ifs <;> rfl
        rw [hzero, decide_eq_false hti, Bool.false_and, UInt8.toNat_zero, Nat.zero_testBit]

theorem shl_one_testBit : ∀ k < 8, ∀ m < 8,
    (shl 1 k.toUInt8).toNat.testBit m = decide (m = k) ∧
      (~~~(shl 1 k.toUInt8)).toNat.testBit m = decide (m ≠ k) := by
  decide

/-- `SetBit` at a bit within the path: the byte of the bit with it set to `b`, and the other bytes
as they were. -/
theorem setBit_of_lt {n : NodeID} {i : ℕ} (b : ℕ) (hi : i < n.path.length * 8) :
    ∃ y, n.path[n.path.length - 1 - i / 8]? = some y ∧
      n.setBit i b = some ⟨n.path.set (n.path.length - 1 - i / 8)
        (if b = 0 then y &&& ~~~(shl 1 (i % 8).toUInt8) else y ||| shl 1 (i % 8).toUInt8),
          n.prefixLenBits⟩ := by
  have hj : n.path.length - 1 - i / 8 < n.path.length := by omega
  refine ⟨n.path[n.path.length - 1 - i / 8], List.getElem?_eq_getElem hj, ?_⟩
  have hbIndex : ((n.pathLenBits - i - 1).tdiv 8) = ((n.path.length - 1 - i / 8 : ℕ) : ℤ) := by
    rw [NodeID.pathLenBits, Int.tdiv_eq_ediv_of_nonneg (by omega)]
    omega
  have hmod : (i : ℤ).tmod 8 = ((i % 8 : ℕ) : ℤ) := by
    rw [Int.tmod_eq_emod_of_nonneg (by omega)]
    omega
  unfold NodeID.setBit
  dsimp only
  rw [hbIndex, hmod, if_neg (by omega), Int.toNat_natCast, List.getElem?_eq_getElem hj,
    if_pos (by omega), Int.toNat_natCast]

theorem testBit_xor_one_mul_two_pow (q t i : ℕ) :
    ((q ^^^ 1) * 2 ^ t).testBit i = if i = t then decide (q % 2 = 0) else (q * 2 ^ t).testBit i := by
  rw [Nat.testBit_mul_two_pow, Nat.testBit_mul_two_pow, Nat.testBit_xor]
  split_ifs with hi
  · subst hi
    rw [Nat.sub_self, Nat.testBit_one_zero, Nat.testBit_zero, decide_eq_true (le_refl i)]
    rcases Nat.mod_two_eq_zero_or_one q with hq | hq <;> simp [hq]
  · by_cases hti : t ≤ i
    · rw [Nat.testBit_lt_two_pow (show 1 < 2 ^ (i - t) from Nat.one_lt_two_pow (by omega)),
        Bool.xor_false]
    · rw [decide_eq_false hti, Bool.false_and, Bool.false_and]

theorem neighbor_nodeIDAt {bitLen t q : ℕ} (hbits : bitLen % 8 = 0) (ht : t < bitLen)
    (hq : q < 2 ^ (bitLen - t)) :
    (Map.nodeIDAt bitLen t q).neighbor = some (Map.nodeIDAt bitLen t (q ^^^ 1)) := by
  set path := bigEndian (bitLen / 8) (q * 2 ^ t) with hpath
  have hlen : path.length = bitLen / 8 := length_bigEndian _ _
  have hval : toNatBE path = q * 2 ^ t :=
    toNatBE_bigEndian _ _ (by rw [show 8 * (bitLen / 8) = bitLen by omega]; exact Map.mul_two_pow_lt ht.le hq)
  -- the bit at height `t` is the lowest of `q`
  have hbit : (Map.nodeIDAt bitLen t q).bit t = some (q % 2) := by
    have hb : (newNodeIDFromHash path).bit t = some (toNatBE path >>> t % 2) :=
      bit_newNodeIDFromHash (by omega)
    rw [hval, Map.mul_two_pow_shiftRight] at hb
    exact hb
  have hheight : (Map.nodeIDAt bitLen t q).pathLenBits - (Map.nodeIDAt bitLen t q).prefixLenBits = t := by
    simp only [NodeID.pathLenBits, Map.nodeIDAt, length_bigEndian]
    omega
  obtain ⟨y, hy, hset⟩ := setBit_of_lt (n := Map.nodeIDAt bitLen t q) (i := t) (q % 2 ^^^ 1)
    (by simp only [Map.nodeIDAt, length_bigEndian]; omega)
  rw [NodeID.neighbor, hheight, NodeID.flipRightBit, hbit]
  show (Map.nodeIDAt bitLen t q).setBit t (q % 2 ^^^ 1) = _
  rw [hset, Option.some.injEq]
  simp only [Map.nodeIDAt, NodeID.mk.injEq, and_true] at hy ⊢
  rw [← hpath] at hy ⊢
  have hsetLen : (path.set (path.length - 1 - t / 8) (if q % 2 ^^^ 1 = 0 then y &&& ~~~shl 1 (t % 8).toUInt8
      else y ||| shl 1 (t % 8).toUInt8)).length = bitLen / 8 := by
    rw [List.length_set, hlen]
  have hv : (q ^^^ 1) * 2 ^ t < 2 ^ (8 * (bitLen / 8)) := by
    rw [show 8 * (bitLen / 8) = bitLen by omega]
    exact Map.mul_two_pow_lt ht.le (Nat.xor_lt_two_pow hq (Nat.one_lt_two_pow (by omega)))
  -- the bits of the path before the flip are those of the node
  have hold : ∀ i < 8 * (bitLen / 8),
      (path.getD (bitLen / 8 - 1 - i / 8) 0).toNat.testBit (i % 8) = (q * 2 ^ t).testBit i := by
    intro i hi
    rw [← hval, testBit_toNatBE path i (by omega), hlen]
  refine (eq_bigEndian_of_testBit (by rwa [hsetLen]) fun i hi => ?_).trans (by rw [hsetLen])
  rw [hsetLen] at hi ⊢
  rw [testBit_xor_one_mul_two_pow, List.getD_eq_getElem?_getD, List.getElem?_set]
  by_cases hbyte : path.length - 1 - t / 8 = bitLen / 8 - 1 - i / 8
  · -- the byte of the flipped bit
    have hy' : y = path.getD (bitLen / 8 - 1 - i / 8) 0 := by
      rw [List.getD_eq_getElem?_getD, ← hbyte, hy, Option.getD_some]
    have hmask := shl_one_testBit (t % 8) (by omega) (i % 8) (by omega)
    have hsame : i = t ↔ i % 8 = t % 8 := by omega
    rw [if_pos hbyte, if_pos (by omega), Option.getD_some]
    rcases Nat.mod_two_eq_zero_or_one q with hq2 | hq2
    · -- the lowest bit was clear, and is set
      rw [hq2, if_neg (by decide), UInt8.toNat_or, Nat.testBit_or, hmask.1, hy', hold i hi]
      split_ifs with hit
      · rw [decide_eq_true (hsame.mp hit), Bool.or_true, decide_eq_true rfl]
      · rw [decide_eq_false (mt hsame.mpr hit), Bool.or_false]
    · -- the lowest bit was set, and is cleared
      rw [hq2, if_pos (by decide), UInt8.toNat_and, Nat.testBit_and, hmask.2, hy', hold i hi]
      split_ifs with hit
      · rw [decide_eq_false (not_not.mpr (hsame.mp hit)), Bool.and_false, decide_false]
      · rw [decide_eq_true (mt hsame.mpr hit), Bool.and_true]
  · -- another byte, as it was
    rw [if_neg hbyte, ← List.getD_eq_getElem?_getD, hold i hi, if_neg (by omega)]

/-- `Siblings` of a hash's node: at each height, the sibling of the node at that height above the
key. -/
theorem siblings_newNodeIDFromHash (index : List UInt8) :
    (newNodeIDFromHash index).siblings = some ((List.range (index.length * 8)).map fun t =>
      Map.nodeIDAt (index.length * 8) t (toNatBE index >>> t ^^^ 1)) := by
  have hpre : (newNodeIDFromHash index).prefixLenBits = ((index.length * 8 : ℕ) : ℤ) := by
    simp [newNodeIDFromHash]
  have hrange : (newNodeIDFromHash index).prefixLenBits.toNat = index.length * 8 := by
    rw [hpre, Int.toNat_natCast]
  unfold NodeID.siblings
  rw [if_neg (by rw [hpre]; omega), hrange]
  refine Map.mapM_of_forall _ fun t ht => ?_
  rw [List.mem_range] at ht
  -- the node at height `t` above the key, then its neighbour
  have hq : toNatBE index >>> t < 2 ^ (index.length * 8 - t) := by
    rw [Nat.shiftRight_eq_div_pow, Nat.div_lt_iff_lt_mul (Nat.two_pow_pos t), ← pow_add,
      Nat.sub_add_cancel ht.le, Nat.mul_comm]
    exact toNatBE_lt index
  rw [maskLeft_newNodeIDFromHash ht.le]
  exact neighbor_nodeIDAt (by omega) ht hq


end Storage

namespace Map

open Bytes Storage

variable {α : Type}

/-- `GetMerkleNodes` of the reader's transaction: the nodes stored under the IDs asked for, in
their order, each with the ID it was asked for. -/
def getMerkleNodes (nodes : MapNodes α) (ids : List Storage.NodeID) :
    List (Storage.NodeID × α) :=
  ids.filterMap fun id => (nodes id).map fun hash => (id, hash)

/-- The map of the nodes by the string of their IDs, a later node replacing an earlier one. -/
def buildNodeMap (ns : List (Storage.NodeID × α)) : Option (AList fun _ : List Char => α) :=
  ns.foldlM (fun nodeMap n => n.1.string.map fun key => nodeMap.insert key n.2) ∅

/-- The loop of `InclusionProof` over the siblings: each one's hash, taken out of the map, or nil
where the storage returned none. -/
def takeProofNodes : List Storage.NodeID → AList (fun _ : List Char => α) →
    Option (List (Option α) × AList fun _ : List Char => α)
  | [], nodeMap => some ([], nodeMap)
  | proofID :: sibs, nodeMap => do
    let key ← proofID.string
    match nodeMap.lookup key with
    | none => (takeProofNodes sibs nodeMap).map fun r => (none :: r.1, r.2)
    | some hash => (takeProofNodes sibs (nodeMap.erase key)).map fun r => (some hash :: r.1, r.2)

/-- `SparseMerkleTreeReader.InclusionProof` at the reader's revision: the proof, or the error
when a node the storage returned is left over. -/
def inclusionProof (nodes : MapNodes α) (index : List UInt8) :
    Option (Except String (List (Option α))) := do
  let nid := newNodeIDFromHash index
  let sibs ← nid.siblings
  let got := getMerkleNodes nodes sibs
  let nodeMap ← buildNodeMap got
  let (r, nodeMap) ← takeProofNodes sibs nodeMap
  let remaining := nodeMap.entries.length
  if remaining ≠ 0 then
    let gotLen := got.length
    pure (.error s!"failed to consume all returned nodes; got {gotLen} nodes, but {remaining} remain(s) unused")
  else pure (.ok r)

/-- A `mapM` in `Option` whose function succeeds on every element succeeds, with one result for
each. -/
theorem exists_mapM_eq_some {β γ : Type} {f : β → Option γ} :
    ∀ {l : List β}, (∀ x ∈ l, (f x).isSome) → ∃ r, l.mapM f = some r ∧ r.length = l.length
  | [], _ => ⟨[], rfl, rfl⟩
  | x :: l, hf => by
    obtain ⟨y, hy⟩ := Option.isSome_iff_exists.mp (hf x List.mem_cons_self)
    obtain ⟨r, hr, hlen⟩ := exists_mapM_eq_some fun z hz => hf z (List.mem_cons_of_mem x hz)
    refine ⟨y :: r, ?_, by rw [List.length_cons, List.length_cons, hlen]⟩
    rw [List.mapM_cons, hy, hr]
    rfl

theorem bit_isSome {n : Storage.NodeID} {i : ℕ} (hi : i < n.path.length * 8) : (n.bit i).isSome := by
  have hj : n.path.length - 1 - i / 8 < n.path.length := by omega
  have hbIndex : ((n.pathLenBits - i - 1).tdiv 8).toNat = n.path.length - 1 - i / 8 := by
    rw [NodeID.pathLenBits, Int.tdiv_eq_ediv_of_nonneg (by omega)]
    omega
  unfold NodeID.bit
  rw [if_neg (by rw [NodeID.pathLenBits]; omega)]
  dsimp only
  rw [hbIndex, List.getElem?_eq_getElem hj]
  rfl

theorem string_nodeIDAt {bitLen t q : ℕ} (hbits : bitLen % 8 = 0) (ht : t ≤ bitLen) :
    ∃ s, (nodeIDAt bitLen t q).string = some s ∧ s.length = bitLen - t := by
  have hpath : (nodeIDAt bitLen t q).path.length * 8 = bitLen := by
    rw [nodeIDAt, length_bigEndian]
    omega
  have hpre : (nodeIDAt bitLen t q).prefixLenBits.toNat = bitLen - t := by
    rw [nodeIDAt, Int.toNat_natCast]
  -- the string's loop runs over the prefix's bits, all within the path
  have hlist : (do let a ← List.range (nodeIDAt bitLen t q).prefixLenBits.toNat; pure (a : ℤ) :
      List ℤ) = (List.range (bitLen - t)).map fun a : ℕ => (a : ℤ) := by
    rw [hpre]
    exact List.flatMap_pure_eq_map _ _
  unfold NodeID.string
  rw [hlist]
  obtain ⟨s, hs, hlen⟩ := exists_mapM_eq_some (l := (List.range (bitLen - t)).map fun a : ℕ => (a : ℤ))
    (f := fun (k : ℤ) => ((nodeIDAt bitLen t q).bit ((nodeIDAt bitLen t q).pathLenBits - 1 - k)).map
      fun b => Char.ofNat ('0'.toNat + b)) (by
      intro k hk
      obtain ⟨a, ha, rfl⟩ := List.mem_map.mp hk
      rw [List.mem_range] at ha
      have hidx : (nodeIDAt bitLen t q).pathLenBits - 1 - a = ((bitLen - 1 - a : ℕ) : ℤ) := by
        rw [NodeID.pathLenBits, ← Nat.cast_ofNat, ← Nat.cast_mul, hpath]
        omega
      rw [hidx, Option.isSome_map]
      exact bit_isSome (by omega))
  exact ⟨s, hs, by rw [hlen, List.length_map, List.length_range]⟩
section Consume

variable {nodes : MapNodes α} {keyOf : Storage.NodeID → List Char}

theorem find?_cons_key {id : Storage.NodeID} {ids : List Storage.NodeID} {s : List Char} :
    ((id :: ids).find? fun i => keyOf i = s) =
      if keyOf id = s then some id else ids.find? fun i => keyOf i = s := by
  rw [List.find?_cons]
  by_cases hs : keyOf id = s <;> simp [hs]

theorem find?_key_eq_none {id : Storage.NodeID} {ids : List Storage.NodeID}
    (hnd : ((id :: ids).map keyOf).Nodup) : (ids.find? fun i => keyOf i = keyOf id) = none := by
  rw [List.find?_eq_none]
  intro i hi heq
  rw [List.map_cons, List.nodup_cons] at hnd
  have hki : keyOf i = keyOf id := of_decide_eq_true heq
  exact hnd.1 (hki ▸ List.mem_map_of_mem hi)

/-- The map built over the nodes the storage returns for IDs with distinct strings: under the
string of each ID, the node stored there, and elsewhere what the map held before. -/
theorem foldlM_nodeMap :
    ∀ {ids : List Storage.NodeID}, (∀ id ∈ ids, id.string = some (keyOf id)) →
      (ids.map keyOf).Nodup → ∀ (m₀ : AList fun _ : List Char => α), ∃ m,
        (getMerkleNodes nodes ids).foldlM
            (fun nodeMap n => n.1.string.map fun key => nodeMap.insert key n.2) m₀ = some m ∧
          ∀ s, m.lookup s = ((ids.find? fun id => keyOf id = s).bind nodes).or (m₀.lookup s)
  | [], _, _, m₀ => ⟨m₀, rfl, fun s => by simp⟩
  | id :: ids, hstr, hnd, m₀ => by
    have hkey := hstr id List.mem_cons_self
    have hnone := find?_key_eq_none hnd
    have hstr' : ∀ i ∈ ids, i.string = some (keyOf i) := fun i hi => hstr i (List.mem_cons_of_mem id hi)
    have hnd' := (List.nodup_cons.mp (List.map_cons (f := keyOf) ▸ hnd)).2
    cases hn : nodes id with
    | none =>
      -- nothing is stored under the ID, so nothing is inserted for it
      obtain ⟨m, hfold, hm⟩ := foldlM_nodeMap hstr' hnd' m₀
      have hget : getMerkleNodes nodes (id :: ids) = getMerkleNodes nodes ids := by
        rw [getMerkleNodes, List.filterMap_cons, hn, Option.map_none]
        rfl
      refine ⟨m, by rw [hget]; exact hfold, fun s => ?_⟩
      rw [hm s, find?_cons_key]
      split_ifs with hs
      · rw [← hs, hnone, Option.bind_some, hn]
        rfl
      · rfl
    | some x =>
      -- the node is inserted under the ID's string, which no later ID has
      obtain ⟨m, hfold, hm⟩ := foldlM_nodeMap hstr' hnd' (m₀.insert (keyOf id) x)
      have hget : getMerkleNodes nodes (id :: ids) = (id, x) :: getMerkleNodes nodes ids := by
        rw [getMerkleNodes, List.filterMap_cons, hn, Option.map_some]
        rfl
      refine ⟨m, ?_, fun s => ?_⟩
      · rw [hget, List.foldlM_cons, hkey]
        exact hfold
      · rw [hm s, find?_cons_key]
        split_ifs with hs
        · rw [← hs, hnone, Option.bind_some, hn, AList.lookup_insert]
          rfl
        · rw [AList.lookup_insert_ne (Ne.symm hs)]

theorem entries_eq_nil_of_lookup {m : AList fun _ : List Char => α}
    (hm : ∀ s, m.lookup s = none) : m.entries = [] := by
  cases he : m.entries with
  | nil => rfl
  | cons e es =>
    have hmem : e.1 ∈ m := by
      rw [AList.mem_keys, AList.keys, he]
      exact List.mem_cons_self
    exact absurd (hm e.1) (by rw [AList.lookup_eq_none]; exact not_not.mpr hmem)

theorem takeProofNodes_cons {id : Storage.NodeID} {key : List Char} (hkey : id.string = some key)
    (ids : List Storage.NodeID) (m : AList fun _ : List Char => α) :
    takeProofNodes (id :: ids) m = match m.lookup key with
      | none => (takeProofNodes ids m).map fun r => (none :: r.1, r.2)
      | some hash => (takeProofNodes ids (m.erase key)).map fun r => (some hash :: r.1, r.2) := by
  rw [takeProofNodes, hkey]
  rfl

/-- The loop over IDs with distinct strings, from a map that holds under each ID's string the
node stored there and nothing else: each stored node, and nothing left over. -/
theorem takeProofNodes_spec :
    ∀ {ids : List Storage.NodeID}, (∀ id ∈ ids, id.string = some (keyOf id)) →
      (ids.map keyOf).Nodup → ∀ (m : AList fun _ : List Char => α),
      (∀ s, m.lookup s = (ids.find? fun id => keyOf id = s).bind nodes) →
      ∃ m', takeProofNodes ids m = some (ids.map nodes, m') ∧ m'.entries = []
  | [], _, _, m, hm => ⟨m, rfl, entries_eq_nil_of_lookup fun s => by rw [hm s]; rfl⟩
  | id :: ids, hstr, hnd, m, hm => by
    have hkey := hstr id List.mem_cons_self
    have hnone := find?_key_eq_none hnd
    have hstr' : ∀ i ∈ ids, i.string = some (keyOf i) := fun i hi => hstr i (List.mem_cons_of_mem id hi)
    have hnd' := (List.nodup_cons.mp (List.map_cons (f := keyOf) ▸ hnd)).2
    have hlook : m.lookup (keyOf id) = nodes id := by
      rw [hm, find?_cons_key, if_pos rfl, Option.bind_some]
    cases hn : nodes id with
    | none =>
      -- no node came back for the ID: nil, and the map as it was
      obtain ⟨m', htake, hempty⟩ := takeProofNodes_spec hstr' hnd' m fun s => by
        rw [hm s, find?_cons_key]
        split_ifs with hs
        · rw [← hs, hnone, Option.bind_some, hn]
          rfl
        · rfl
      refine ⟨m', ?_, hempty⟩
      rw [takeProofNodes_cons hkey, hlook, hn, htake, List.map_cons, hn]
      rfl
    | some x =>
      -- the node, taken out of the map
      obtain ⟨m', htake, hempty⟩ := takeProofNodes_spec hstr' hnd' (m.erase (keyOf id)) fun s => by
        by_cases hs : keyOf id = s
        · rw [← hs, AList.lookup_erase, hnone]
          rfl
        · rw [AList.lookup_erase_ne (Ne.symm hs), hm s, find?_cons_key, if_neg hs]
      refine ⟨m', ?_, hempty⟩
      rw [takeProofNodes_cons hkey, hlook, hn, htake, List.map_cons, hn]
      rfl

/-- `InclusionProof` returns, at each height, the node stored under the ID of the sibling there of
the key's node, or nil where none is stored. -/
theorem inclusionProof_eq (nodes : MapNodes α) (index : List UInt8) :
    inclusionProof nodes index = some (.ok ((List.range (index.length * 8)).map fun t =>
      nodes (nodeIDAt (index.length * 8) t (toNatBE index >>> t ^^^ 1)))) := by
  set sibs := (List.range (index.length * 8)).map fun t =>
    nodeIDAt (index.length * 8) t (toNatBE index >>> t ^^^ 1) with hsibs
  -- each sibling has a string, as long as its prefix
  have hstring : ∀ t < index.length * 8, ∃ s,
      (nodeIDAt (index.length * 8) t (toNatBE index >>> t ^^^ 1)).string = some s ∧
        s.length = index.length * 8 - t :=
    fun t ht => string_nodeIDAt (by omega) ht.le
  let keyOf : Storage.NodeID → List Char := fun id => id.string.getD []
  have hstr : ∀ id ∈ sibs, id.string = some (keyOf id) := by
    intro id hid
    obtain ⟨t, ht, rfl⟩ := List.mem_map.mp hid
    obtain ⟨s, hs, -⟩ := hstring t (List.mem_range.mp ht)
    simp only [keyOf, hs, Option.getD_some]
  -- siblings at distinct heights have strings of distinct lengths
  have hnd : (sibs.map keyOf).Nodup := by
    rw [hsibs, List.map_map]
    refine List.nodup_range.map_on fun t ht t' ht' heq => ?_
    obtain ⟨s, hs, hlen⟩ := hstring t (List.mem_range.mp ht)
    obtain ⟨s', hs', hlen'⟩ := hstring t' (List.mem_range.mp ht')
    have hkeys : s = s' := by simpa [keyOf, hs, hs'] using heq
    rw [hkeys, hlen'] at hlen
    rw [List.mem_range] at ht ht'
    omega
  -- the returned nodes, keyed by their strings, are the stored siblings
  obtain ⟨m, hbuild, hm⟩ : ∃ m, buildNodeMap (getMerkleNodes nodes sibs) = some m ∧
      ∀ s, m.lookup s = ((sibs.find? fun id => keyOf id = s).bind nodes).or
        (AList.lookup s (∅ : AList fun _ : List Char => α)) :=
    foldlM_nodeMap hstr hnd ∅
  obtain ⟨m', htake, hempty⟩ := takeProofNodes_spec hstr hnd m fun s => by
    rw [hm s, AList.lookup_empty, Option.or_none]
  unfold inclusionProof
  dsimp only
  rw [siblings_newNodeIDFromHash, ← hsibs]
  simp only [Option.pure_def, Option.bind_eq_bind, Option.bind_some, hbuild, htake, hempty,
    List.length_nil]
  rw [if_neg (not_not.mpr rfl), hsibs, List.map_map]
  rfl

end Consume

theorem xor_one_eq (q : ℕ) : q ^^^ 1 = 2 * (q / 2) + (1 - q % 2) := by
  apply Nat.eq_of_testBit_eq
  intro i
  have hlow : 1 - q % 2 < 2 ^ 1 := by omega
  rw [Nat.testBit_xor, show 2 * (q / 2) + (1 - q % 2) = 2 ^ 1 * (q / 2) + (1 - q % 2) by rw [pow_one],
    Nat.testBit_two_pow_mul_add _ hlow]
  rcases i with _ | i
  · rw [if_pos one_pos, Nat.testBit_zero, Nat.testBit_one_zero, Nat.testBit_zero]
    rcases Nat.mod_two_eq_zero_or_one q with h | h <;> simp [h]
  · rw [if_neg (by omega), Nat.testBit_succ,
      Nat.testBit_lt_two_pow (show 1 < 2 ^ (i + 1) from Nat.one_lt_two_pow (by omega)),
      Bool.xor_false, Nat.add_sub_cancel]

theorem path_nodeIDAt (bitLen t q : ℕ) : (nodeIDAt bitLen t q).path = emptyIndex bitLen q t := rfl

theorem sibling_lt {bitLen t k : ℕ} (hk : k < 2 ^ bitLen) (ht : t < bitLen) :
    k >>> t ^^^ 1 < 2 ^ (bitLen - t) := by
  have hnode : k >>> t < 2 ^ (bitLen - t) := by
    rw [← Nat.one_mul (2 ^ (bitLen - t)), shiftRight_lt_iff, Nat.add_sub_cancel' ht.le, Nat.one_mul]
    exact hk
  exact Nat.xor_lt_two_pow hnode (Nat.one_lt_two_pow (by omega))

section Completeness

variable [DecidableEq α] {h : MapHasher α} {treeID : ℤ} {L : ℕ → Option α}

theorem stratum_getD (t q : ℕ) :
    (stratum h treeID L t q).getD (h.hashEmpty treeID (emptyIndex h.bitLen q t) t) =
      smtNode h treeID L t q := by
  by_cases he : SubtreeEmpty L t q
  · rw [stratum_eq_none_iff.mpr he, Option.getD_none, smtNode_of_subtreeEmpty he]
  · rw [stratum_of_not_subtreeEmpty he, Option.getD_some]

omit [DecidableEq α] in
theorem subtreeEmpty_succ_iff {t p : ℕ} :
    SubtreeEmpty L (t + 1) p ↔ SubtreeEmpty L t (2 * p) ∧ SubtreeEmpty L t (2 * p + 1) := by
  rw [subtreeEmpty_add]
  constructor
  · intro he
    exact ⟨by simpa [Nat.mul_comm] using he 0 (by norm_num),
      by simpa [Nat.mul_comm] using he 1 (by norm_num)⟩
  · rintro ⟨h0, h1⟩ j hj
    rcases (show j = 0 ∨ j = 1 by omega) with rfl | rfl
    · simpa [Nat.mul_comm] using h0
    · simpa [Nat.mul_comm] using h1

omit [DecidableEq α] in
/-- A pass of the loop with a hash on the path or in the proof: the empty branch's hash where
the path has none, the sibling's empty hash where the proof has none, combined in the order of
the path's bit. -/
theorem verifyStep_of_isSome {nID sib E : Storage.NodeID} {height b : ℕ} {p r : Option α}
    (hsome : r.isSome ∨ p.isSome) (hmask : nID.maskLeft (nID.prefixLenBits - height) = some E)
    (hbit : nID.bit height = some b) :
    verifyStep h treeID nID sib height p r = some (some (if b = 0
      then h.hashChildren (r.getD (h.hashEmpty treeID E.path height))
        (p.getD (h.hashEmpty treeID sib.path height))
      else h.hashChildren (p.getD (h.hashEmpty treeID sib.path height))
        (r.getD (h.hashEmpty treeID E.path height)))) := by
  cases r with
  | some x =>
    cases p <;> simp [verifyStep, hbit]
  | none =>
    cases p with
    | none => simp at hsome
    | some y => simp [verifyStep, hmask, hbit]

/-- A pass of the loop over the stored nodes: from the stored node on the key's path at height
`t` and the stored node of its sibling, the stored node above. -/
theorem verifyStep_stratum {index : List UInt8} (hindex : index.length * 8 = h.bitLen) {t : ℕ}
    (ht : t < h.bitLen) :
    verifyStep h treeID (newNodeIDFromHash index) (nodeIDAt h.bitLen t (toNatBE index >>> t ^^^ 1)) t
        (stratum h treeID L t (toNatBE index >>> t ^^^ 1)) (stratum h treeID L t (toNatBE index >>> t)) =
      some (stratum h treeID L (t + 1) (toNatBE index >>> (t + 1))) := by
  set q := toNatBE index >>> t with hq
  set p := toNatBE index >>> (t + 1) with hp
  -- the node is a child of the node above, and its sibling the other child
  have hchild : q = 2 * p + q % 2 := shiftRight_eq_two_mul_add _ t
  have hsib : q ^^^ 1 = 2 * p + (1 - q % 2) := by
    rw [xor_one_eq, hp, Nat.shiftRight_succ]
  have hmask : (newNodeIDFromHash index).maskLeft ((newNodeIDFromHash index).prefixLenBits - t) =
      some (nodeIDAt h.bitLen t q) := by
    rw [maskLeft_newNodeIDFromHash (by omega), hindex]
  have hbit : (newNodeIDFromHash index).bit t = some (q % 2) := bit_newNodeIDFromHash (by omega)
  by_cases hboth : SubtreeEmpty L t q ∧ SubtreeEmpty L t (q ^^^ 1)
  · -- nothing stored on either side, and nothing above
    have hparent : SubtreeEmpty L (t + 1) p := by
      rcases Nat.mod_two_eq_zero_or_one q with hb | hb
      · have hq2 : q = 2 * p := by omega
        have hs2 : q ^^^ 1 = 2 * p + 1 := by omega
        exact subtreeEmpty_succ_iff.mpr ⟨hq2 ▸ hboth.1, hs2 ▸ hboth.2⟩
      · have hq2 : q = 2 * p + 1 := by omega
        have hs2 : q ^^^ 1 = 2 * p := by omega
        exact subtreeEmpty_succ_iff.mpr ⟨hs2 ▸ hboth.2, hq2 ▸ hboth.1⟩
    rw [stratum_eq_none_iff.mpr hboth.1, stratum_eq_none_iff.mpr hboth.2,
      stratum_eq_none_iff.mpr hparent]
    rfl
  · -- a hash on one side: the node above is its children's hash
    have hsome : (stratum h treeID L t q).isSome ∨ (stratum h treeID L t (q ^^^ 1)).isSome := by
      rw [Option.isSome_iff_ne_none, Option.isSome_iff_ne_none, Ne, Ne, stratum_eq_none_iff,
        stratum_eq_none_iff, ← not_and_or]
      exact hboth
    have hparent : ¬SubtreeEmpty L (t + 1) p := by
      intro he
      obtain ⟨h0, h1⟩ := subtreeEmpty_succ_iff.mp he
      rcases Nat.mod_two_eq_zero_or_one q with hb | hb
      · have hq2 : q = 2 * p := by omega
        have hs2 : q ^^^ 1 = 2 * p + 1 := by omega
        exact hboth ⟨hq2 ▸ h0, hs2 ▸ h1⟩
      · have hq2 : q = 2 * p + 1 := by omega
        have hs2 : q ^^^ 1 = 2 * p := by omega
        exact hboth ⟨hq2 ▸ h1, hs2 ▸ h0⟩
    rw [verifyStep_of_isSome hsome hmask hbit, path_nodeIDAt, path_nodeIDAt, stratum_getD,
      stratum_getD, stratum_of_not_subtreeEmpty hparent, smtNode, if_neg hparent]
    rcases Nat.mod_two_eq_zero_or_one q with hb | hb
    · -- the path goes left
      have hs2 : q ^^^ 1 = 2 * p + 1 := by omega
      rw [if_pos hb, hs2, show q = 2 * p by omega]
    · -- the path goes right
      have hs2 : q ^^^ 1 = 2 * p := by omega
      rw [if_neg (by omega), hs2, show q = 2 * p + 1 by omega]

/-- The loop over the siblings from a height up, with the proof of the stored siblings: the
running hash is the stored node on the key's path at each height, up to the root. -/
theorem verifyLoop_stratum {index : List UInt8} (hindex : index.length * 8 = h.bitLen) :
    ∀ n height, height + n = h.bitLen →
      verifyLoop h treeID (newNodeIDFromHash index)
          ((List.range h.bitLen).map fun t => stratum h treeID L t (toNatBE index >>> t ^^^ 1))
          height ((List.range' height n).map fun t => nodeIDAt h.bitLen t (toNatBE index >>> t ^^^ 1))
          (stratum h treeID L height (toNatBE index >>> height)) =
        some (stratum h treeID L h.bitLen (toNatBE index >>> h.bitLen))
  | 0, height, hn => by
    rw [Nat.add_zero] at hn
    subst hn
    rfl
  | n + 1, height, hn => by
    have hproof : ((List.range h.bitLen).map fun t =>
        stratum h treeID L t (toNatBE index >>> t ^^^ 1))[height]? =
          some (stratum h treeID L height (toNatBE index >>> height ^^^ 1)) := by
      rw [List.getElem?_map, List.getElem?_range (by omega), Option.map_some]
    rw [List.range'_succ, List.map_cons, verifyLoop, hproof, Option.bind_eq_bind, Option.bind_some,
      verifyStep_stratum hindex (by omega), Option.bind_some]
    exact verifyLoop_stratum hindex n (height + 1) (by omega)

/-- `VerifyMapInclusionProof` accepts, against the root of the map `L`, the proof that holds at
each height the stored node of the key's sibling, with the key's value: an empty one where `L`
has no leaf at the key, and one whose `HashLeaf` is the leaf there otherwise. -/
theorem verifyMapInclusionProof_complete {index leaf : List UInt8}
    (hindex : index.length * 8 = h.bitLen)
    (hleaf : leaf = [] ∧ L (toNatBE index) = none ∨
      ∃ x, leaf ≠ [] ∧ h.hashLeaf treeID index leaf = .ok x ∧ L (toNatBE index) = some x) :
    verifyMapInclusionProof treeID index leaf (smtRoot h treeID L)
        ((List.range h.bitLen).map fun t => stratum h treeID L t (toNatBE index >>> t ^^^ 1)) h =
      some (.ok ()) := by
  -- the key is below `2^BitLen`, so its node at the top is the root
  have hk : toNatBE index >>> h.bitLen = 0 := by
    rw [Nat.shiftRight_eq_div_pow, Nat.div_eq_zero_iff_lt (Nat.two_pow_pos _), ← hindex,
      Nat.mul_comm]
    exact toNatBE_lt index
  -- the running hash starts from the key's leaf
  have hstart : (if leaf.length ≠ 0 then (h.hashLeaf treeID index leaf).map some else .ok none) =
      (.ok (stratum h treeID L 0 (toNatBE index >>> 0)) : Except String (Option α)) := by
    rw [Nat.shiftRight_zero, stratum_zero]
    rcases hleaf with ⟨rfl, hnone⟩ | ⟨x, hne, hx, hsome⟩
    · rw [if_neg (by simp), hnone]
    · rw [if_pos (by simpa using hne), hx, hsome]
      rfl
  have hloop : verifyLoop h treeID (newNodeIDFromHash index)
      ((List.range h.bitLen).map fun t => stratum h treeID L t (toNatBE index >>> t ^^^ 1))
      0 ((List.range' 0 h.bitLen).map fun t => nodeIDAt h.bitLen t (toNatBE index >>> t ^^^ 1))
      (stratum h treeID L 0 (toNatBE index >>> 0)) =
        some (stratum h treeID L h.bitLen (toNatBE index >>> h.bitLen)) :=
    verifyLoop_stratum hindex h.bitLen 0 (Nat.zero_add _)
  rw [← List.range_eq_range', hk] at hloop
  unfold verifyMapInclusionProof
  rw [if_neg (by omega), if_neg (by simp), hstart]
  simp only [siblings_newNodeIDFromHash, hindex, Option.bind_eq_bind, Option.bind_some, hloop]
  by_cases he : SubtreeEmpty L h.bitLen 0
  · -- an empty map: the empty hash of the root, under the root's ID
    have hmask := maskLeft_zero (n := newNodeIDFromHash index) (by simp [newNodeIDFromHash])
    have hpath : List.replicate (newNodeIDFromHash index).path.length 0 = emptyIndex h.bitLen 0 h.bitLen := by
      rw [emptyIndex, Nat.zero_mul, bigEndian_of_zero]
      simp only [newNodeIDFromHash]
      congr 1
      omega
    rw [stratum_eq_none_iff.mpr he]
    simp only [hmask, Option.bind_some, Option.pure_def, hpath, smtRoot, smtNode_of_subtreeEmpty he,
      if_true]
  · rw [stratum_of_not_subtreeEmpty he]
    simp only [Option.pure_def, Option.bind_some, smtRoot, if_true]

/-- A proof of absence: key 6 beside the only leaf, at key 5. -/
theorem verifyMapInclusionProof_complete_absent :
    ([6] : List UInt8).length * 8 = (symHasher 8).bitLen ∧
    (fun k => if k = 5 then some (SymHash.leaf 0 [5] [1]) else none) (toNatBE [6]) = none ∧
    verifyMapInclusionProof 0 [6] []
      (smtRoot (symHasher 8) 0 fun k => if k = 5 then some (.leaf 0 [5] [1]) else none)
      ((List.range 8).map fun t => stratum (symHasher 8) 0
        (fun k => if k = 5 then some (.leaf 0 [5] [1]) else none) t (toNatBE [6] >>> t ^^^ 1))
      (symHasher 8) = some (.ok ()) :=
  ⟨rfl, rfl, verifyMapInclusionProof_complete rfl (Or.inl ⟨rfl, rfl⟩)⟩

/-- A store that serves `L` answers the reader's sibling lookups with the strata of `L`. -/
theorem StoreServes.siblings {nodes : MapNodes α} (hserves : StoreServes h treeID L nodes)
    {index : List UInt8} (hindex : index.length * 8 = h.bitLen) :
    ((List.range (index.length * 8)).map fun t =>
        nodes (nodeIDAt (index.length * 8) t (toNatBE index >>> t ^^^ 1))) =
      (List.range h.bitLen).map fun t => stratum h treeID L t (toNatBE index >>> t ^^^ 1) := by
  have hk : toNatBE index < 2 ^ h.bitLen := by
    rw [← hindex, Nat.mul_comm]
    exact toNatBE_lt index
  rw [hindex]
  refine List.map_congr_left fun t ht => ?_
  have ht' : t < h.bitLen := List.mem_range.mp ht
  exact hserves t _ ht'.le (sibling_lt hk ht')

end Completeness

/-- Writing a batch and then reading an inclusion proof for any key of the tree's width gives a
proof that verifies against the written root: for a key of the batch its new value, for any
other key the value the store held before, or its absence. -/
theorem writeLeaves_inclusionProof_verifies [DecidableEq α] {h : MapHasher α} {treeID : ℤ}
    {L : ℕ → Option α} {size : ℕ} (hsize : size * 8 = h.bitLen) (hdeep : topSubtreeSize < h.bitLen)
    {kvs : List (HashKeyValue α)} (hkeys : ∀ kv ∈ kvs, kv.hashedKey.length = size)
    (hnd : (kvs.map fun kv => kv.hashedKey).Nodup) {nodes : MapNodes α}
    (hserves : StoreServes h treeID L nodes) {index leaf : List UInt8} (hindex : index.length = size)
    (hleaf : leaf = [] ∧ writeKeys L kvs (toNatBE index) = none ∨
      ∃ x, leaf ≠ [] ∧ h.hashLeaf treeID index leaf = .ok x ∧ writeKeys L kvs (toNatBE index) = some x) :
    ∃ root nodes' proof, writeLeaves h treeID size kvs nodes = some (.ok root, nodes') ∧
      inclusionProof nodes' index = some (.ok proof) ∧
      verifyMapInclusionProof treeID index leaf root proof h = some (.ok ()) := by
  obtain ⟨nodes', hwrite, hserves'⟩ := writeLeaves_eq hsize hdeep hkeys hnd hserves
  have hbits : index.length * 8 = h.bitLen := by rw [hindex, hsize]
  refine ⟨_, nodes', _, hwrite, inclusionProof_eq nodes' index, ?_⟩
  rw [hserves'.siblings hbits]
  exact verifyMapInclusionProof_complete hbits hleaf

/-- The batch of three leaves written into an empty store, and the proof of the first key. -/
theorem writeLeaves_inclusionProof_verifies_three_leaves :
    ∃ root nodes' proof, writeLeaves (symHasher 16) 0 2
        [⟨[1, 7], .leaf 0 [1, 7] [1]⟩, ⟨[1, 200], .leaf 0 [1, 200] [2]⟩, ⟨[3, 4], .leaf 0 [3, 4] [3]⟩]
        (fun _ => none) = some (.ok root, nodes') ∧
      inclusionProof nodes' [1, 7] = some (.ok proof) ∧
      verifyMapInclusionProof 0 [1, 7] [1] root proof (symHasher 16) = some (.ok ()) :=
  writeLeaves_inclusionProof_verifies (by decide) (by decide) (by decide) (by decide) storeServes_empty
    rfl (Or.inr ⟨.leaf 0 [1, 7] [1], by decide, rfl, by decide⟩)

end Map

end Trillian
