import Trillian.CompactMerkleTree

/-! `NodeID` and `NewNodeIDForTreeCoords` of `storage/types.go`: the storage key of the node at
a depth and index of a log tree. The depth is kept in `PrefixLenBits` and the index, shifted
left by the depth, in the bit set `Path`. -/

namespace Trillian

/-- `NodeID`. `Path` is a big-endian bit set of `maxPathBits / 8` bytes; it is kept here as the
number its bytes spell. -/
structure NodeID where
  path : ℕ
  prefixLenBits : ℤ
deriving DecidableEq, Repr

/-- `NewNodeIDForTreeCoords`. `uint64(index) << uint(depth)` wraps modulo `2^64`, and writing it
into `maxPathBits / 8` bytes keeps its low `maxPathBits` bits. The bit length is that of the
storage package's `bitLen`, which is the compact tree's for the nonnegative indices it is asked
about and `0` for negative ones. -/
def newNodeIDForTreeCoords (depth index maxPathBits : ℤ) : Except String NodeID :=
  let bl := bitLen index.toNat
  if index < 0 ∨ depth < 0 ∨ (bl : ℤ) > maxPathBits - depth ∨ maxPathBits % 8 ≠ 0 then
    .error s!"depth/index combination out of range: depth={depth} index={index} maxPathBits={maxPathBits}"
  else .ok ⟨index.toNat * 2 ^ depth.toNat % 2 ^ 64 % 2 ^ maxPathBits.toNat, maxPathBits - depth⟩

/-- The ID of the node at a depth and index of a tree of 64-bit paths, as `maxTreeDepth = 64`
gives it. -/
def nodeIDOf (depth index : ℕ) : NodeID := ⟨index * 2 ^ depth, 64 - depth⟩

theorem newNodeIDForTreeCoords_eq {depth index : ℕ} (hd : depth ≤ 64)
    (hi : index < 2 ^ (64 - depth)) :
    newNodeIDForTreeCoords depth index 64 = .ok (nodeIDOf depth index) := by
  have hbl : bitLen index ≤ 64 - depth := bitLen_le_iff.mpr hi
  have hpath : index * 2 ^ depth < 2 ^ 64 := by
    calc index * 2 ^ depth < 2 ^ (64 - depth) * 2 ^ depth :=
          Nat.mul_lt_mul_of_pos_right hi (Nat.two_pow_pos depth)
      _ = 2 ^ 64 := by rw [← pow_add, Nat.sub_add_cancel hd]
  have h64 : (64 : ℤ).toNat = 64 := rfl
  unfold newNodeIDForTreeCoords
  simp only [Int.toNat_natCast, h64]
  rw [if_neg (by omega), Nat.mod_eq_of_lt hpath, Nat.mod_eq_of_lt hpath]
  rfl

theorem nodeIDOf_inj {l₁ j₁ l₂ j₂ : ℕ} (h : nodeIDOf l₁ j₁ = nodeIDOf l₂ j₂) :
    l₁ = l₂ ∧ j₁ = j₂ := by
  simp only [nodeIDOf, NodeID.mk.injEq] at h
  obtain ⟨hpath, hprefix⟩ := h
  have hl : l₁ = l₂ := by omega
  subst hl
  exact ⟨rfl, Nat.eq_of_mul_eq_mul_right (Nat.two_pow_pos l₁) hpath⟩

end Trillian
