import Trillian.NodeID
import Trillian.Suffix
import Trillian.Bytes

/-! `NodeID` of `storage/types.go` at the level of its bytes, split into a subtree prefix and a
suffix key. Go's integer division truncates, `Int.tdiv` and `Int.tmod` here; a panic is
`none`. -/

namespace Trillian

namespace Storage

open Bytes

structure NodeID where
  path : List UInt8
  prefixLenBits : ℤ
deriving DecidableEq

namespace NodeID

def pathLenBits (n : NodeID) : ℤ := n.path.length * 8

/-- `Bit`: the bit `i` places from the right end of the path. An `i` past the left end panics,
and so does a negative one, whose byte index is past the right end. -/
def bit (n : NodeID) (i : ℤ) : Option ℕ :=
  if i > n.pathLenBits - 1 then none
  else
    let bIndex := (n.pathLenBits - i - 1).tdiv 8
    match n.path[bIndex.toNat]? with
    | none => none
    | some b => some (b.toNat >>> (i.tmod 8).toNat &&& 0x01)

/-- `String`: the first `PrefixLenBits` bits of the path, as `'0'` and `'1'`. -/
def string (n : NodeID) : Option (List Char) :=
  -- for i := PathLenBits() - 1; i >= PathLenBits() - PrefixLenBits; i--
  (List.range n.prefixLenBits.toNat).mapM fun k =>
    (n.bit (n.pathLenBits - 1 - k)).map fun b => Char.ofNat ('0'.toNat + b)

/-- `Equivalent`: the two IDs name the same bits. -/
def equivalent (n other : NodeID) : Option Bool := do
  let a ← n.string
  let b ← other.string
  pure (a == b)

end NodeID

def bytesForBits (numBits : ℤ) : ℤ := (numBits + 7) >>> 3

namespace NodeID

/-- `Split`: the first `prefixBytes` bytes of the path, and the suffix of the bits after them,
with the bits past its end masked off in its last byte. The count of suffix bits is stored in a
byte. -/
def split (n : NodeID) (prefixBytes suffixBits : ℤ) : Option (List UInt8 × Suffix) :=
  if n.prefixLenBits = 0 then some ([], ⟨0, [0]⟩)
  else
    let a := n.path
    let bits := n.prefixLenBits - prefixBytes * 8
    if bits > suffixBits then none
    else if bits = 0 then none
    else
      let suffixBytes := bytesForBits bits
      -- the slice a[prefixBytes : prefixBytes+suffixBytes] within the capacity of a
      if prefixBytes < 0 ∨ suffixBytes < 0 ∨ a.length < prefixBytes + suffixBytes then none
      else
        let sfxBits : UInt8 := (bits % 256).toNat.toUInt8
        let sfxPath := (a.drop prefixBytes.toNat).take suffixBytes.toNat
        let maskIndex := (bits - 1).tdiv 8
        let maskLowBits := (sfxBits - 1) % 8 + 1
        match sfxPath[maskIndex.toNat]? with
        | none => none
        | some b =>
          let mask := shl (shl 0x01 maskLowBits - 1) (8 - maskLowBits)
          some (a.take prefixBytes.toNat, ⟨sfxBits, sfxPath.set maskIndex.toNat (b &&& mask)⟩)

end NodeID

/-- `NewNodeIDFromPrefixSuffix`, which undoes `Split`. -/
def newNodeIDFromPrefixSuffix (pfx : List UInt8) (suffix : Suffix) (maxPathBits : ℤ) :
    Option NodeID :=
  let pathLen := maxPathBits.tdiv 8
  if pathLen < 0 then none
  else
    let path := copy (List.replicate pathLen.toNat 0) pfx
    -- path[len(prefix):] is within path
    if path.length < pfx.length then none
    else some ⟨copyAt path pfx.length suffix.path, pfx.length * 8 + suffix.bits.toNat⟩

/-- `NewNodeIDFromPrefix`: the node `index` at `depth` below the root of the subtree of
`subDepth` levels at the prefix `pfx`, in a tree of `totalDepth` levels. -/
def newNodeIDFromPrefix (pfx : List UInt8) (depth index subDepth totalDepth : ℤ) :
    Option NodeID :=
  if totalDepth.tmod 8 ≠ 0 then none
  else if subDepth.tmod 8 ≠ 0 then none
  else if depth < 0 then none
  else
    let pathLen := totalDepth.tdiv 8
    if pathLen < 0 then none
    else
      let path := copy (List.replicate pathLen.toNat 0) pfx
      let height := subDepth - depth
      -- index << uint(height) on an int64, written as a uint64: a negative height is a huge
      -- count, which shifts every bit out
      let subIndex := if 0 ≤ height ∧ height < 64 then (index * 2 ^ height.toNat) % 2 ^ 64 else 0
      let subPath := bigEndian 8 subIndex.toNat
      let unusedHighBytes := 64 / 8 - subDepth.tdiv 8
      if unusedHighBytes < 0 ∨ 8 < unusedHighBytes ∨ path.length < pfx.length then none
      else
        some ⟨copyAt path pfx.length (subPath.drop unusedHighBytes.toNat),
          pfx.length * 8 + depth⟩

/-- `NewNodeIDFromHash`: the node at the bottom of the tree that the hash names. -/
def newNodeIDFromHash (h : List UInt8) : NodeID := ⟨h, h.length * 8⟩

/-- `leftmask`: at `x`, the byte with its left `x` bits set, and `0xFF` at `0`. -/
def leftmask : List UInt8 := [0xFF, 0x80, 0xC0, 0xE0, 0xF0, 0xF8, 0xFC, 0xFE]

namespace NodeID

/-- `SetBit`: the bit `i` places from the right end of the path set to `b`. A byte index past
either end of the path panics. -/
def setBit (n : NodeID) (i : ℤ) (b : ℕ) : Option NodeID :=
  let bIndex := (n.pathLenBits - i - 1).tdiv 8
  -- `1 << uint(i%8)`: a negative count converts to a huge one, which shifts the bit out
  let bitMask : UInt8 := if 0 ≤ i.tmod 8 then shl 1 (i.tmod 8).toNat.toUInt8 else 0
  if bIndex < 0 then none
  else
    match n.path[bIndex.toNat]? with
    | none => none
    | some x =>
      some ⟨n.path.set bIndex.toNat (if b = 0 then x &&& ~~~bitMask else x ||| bitMask),
        n.prefixLenBits⟩

def flipRightBit (n : NodeID) (i : ℤ) : Option NodeID := do
  let b ← n.bit i
  n.setBit i (b ^^^ 1)

/-- `MaskLeft`: the path with only its left `depth` bits kept, and the prefix cut to them. The
slice `n.Path[:depthBytes]` panics past the end of the path. -/
def maskLeft (n : NodeID) (depth : ℤ) : Option NodeID := do
  let r := List.replicate n.path.length (0 : UInt8)
  let r ← if depth > 0 then
      let depthBytes := bytesForBits depth
      if (n.path.length : ℤ) < depthBytes then none
      else
        let r := copy r (n.path.take depthBytes.toNat)
        match r[(depthBytes - 1).toNat]?, leftmask[(depth.tmod 8).toNat]? with
        | some x, some m => some (r.set (depthBytes - 1).toNat (x &&& m))
        | _, _ => none
    else pure r
  pure ⟨r, if depth < n.prefixLenBits then depth else n.prefixLenBits⟩

/-- `Neighbor`: the last bit of the prefix flipped. -/
def neighbor (n : NodeID) : Option NodeID :=
  n.flipRightBit (n.pathLenBits - n.prefixLenBits)

/-- `Siblings`: for each height from the bottom, the sibling of the node at that height above
`n`. `Copy` is the identity on these values. A negative prefix length panics in `make`. -/
def siblings (n : NodeID) : Option (List NodeID) :=
  if n.prefixLenBits < 0 then none
  else
    (List.range n.prefixLenBits.toNat).mapM fun (height : ℕ) => do
      let masked ← n.maskLeft (n.prefixLenBits - height)
      masked.neighbor

end NodeID

theorem bit_newNodeIDFromHash {index : List UInt8} {n : ℕ} (hn : n < 8 * index.length) :
    (newNodeIDFromHash index).bit n = some (toNatBE index >>> n % 2) := by
  have hi : index.length - 1 - n / 8 < index.length := by omega
  have hbIndex : ((index.length * 8 - n - 1 : ℤ).tdiv 8).toNat = index.length - 1 - n / 8 := by
    rw [Int.tdiv_eq_ediv_of_nonneg (by omega)]
    omega
  have hshift : ((n : ℤ).tmod 8).toNat = n % 8 := by
    rw [Int.tmod_eq_emod_of_nonneg (by omega)]
    omega
  -- the bit of the number is the bit of its byte
  have htest := testBit_toNatBE index n hn
  rw [List.getD_eq_getElem?_getD, List.getElem?_eq_getElem hi, Option.getD_some,
    Nat.testBit_eq_decide_div_mod_eq, Nat.testBit_eq_decide_div_mod_eq, decide_eq_decide] at htest
  unfold NodeID.bit NodeID.pathLenBits newNodeIDFromHash
  rw [if_neg (by push_cast; omega)]
  simp only [hbIndex, List.getElem?_eq_getElem hi, hshift, Nat.and_one_is_mod,
    Nat.shiftRight_eq_div_pow, Option.some.injEq]
  omega

end Storage

/-- The log's node ID as the bytes Go keeps: `NewNodeIDForTreeCoords` writes the shifted index
into the `maxPathBits / 8` bytes of the path from the right. -/
def NodeID.toStorage (n : NodeID) (maxPathBits : ℕ) : Storage.NodeID :=
  ⟨Bytes.bigEndian (maxPathBits / 8) n.path, n.prefixLenBits⟩

end Trillian
