import Mathlib

/-! Padded Base64 of Go's `encoding/base64`, over byte lists. The decoder's loops over groups and
over the characters of a group are one loop here; the fast paths of `Decode`, which give the same
bytes, and the strict mode are left out. -/

namespace Base64

/-- An alphabet of 64 distinct bytes and a pad byte, none of them a line break: the conditions
`NewEncoding` and `WithPadding` check before an encoding can be used. -/
structure Encoding where
  encode : Vector UInt8 64
  padChar : UInt8
  encode_injective : Function.Injective encode.get
  pad_not_mem : ∀ i, encode.get i ≠ padChar
  newline_not_mem : ∀ i, encode.get i ≠ 10 ∧ encode.get i ≠ 13
  pad_ne_newline : padChar ≠ 10 ∧ padChar ≠ 13

/-- The line breaks `\n` and `\r`, which the decoder skips. -/
def isNewline (c : UInt8) : Bool := c == 10 || c == 13

namespace Encoding

variable (enc : Encoding)

/-- `decodeMap`: the index of a byte in the alphabet, and `0xFF` for a byte not in it. -/
def decodeMap (c : UInt8) : UInt8 :=
  match (List.finRange 64).find? (fun i => enc.encode.get i == c) with
  | some i => i.val.toUInt8
  | none => 0xFF

/-- The character of the six bits of `val` from bit `shift` on: `encode[val>>shift&0x3F]`. -/
def char (val shift : ℕ) : UInt8 :=
  enc.encode.get ⟨val >>> shift &&& 0x3F, Nat.lt_of_le_of_lt Nat.and_le_right (by decide)⟩

/-- `EncodeToString`: each group of three bytes as four characters, and a last group of one or
two bytes padded to four. -/
def encodeToString : List UInt8 → List UInt8
  | b₀ :: b₁ :: b₂ :: src =>
    let val := b₀.toNat <<< 16 ||| b₁.toNat <<< 8 ||| b₂.toNat
    [enc.char val 18, enc.char val 12, enc.char val 6, enc.char val 0] ++ encodeToString src
  | [b₀, b₁] =>
    let val := b₀.toNat <<< 16 ||| b₁.toNat <<< 8
    [enc.char val 18, enc.char val 12, enc.char val 6, enc.padChar]
  | [b₀] =>
    let val := b₀.toNat <<< 16
    [enc.char val 18, enc.char val 12, enc.padChar, enc.padChar]
  | [] => []

end Encoding

/-- `CorruptInputError`: the offset of the input byte at which decoding failed. -/
structure CorruptInputError where
  offset : ℕ
deriving DecidableEq

/-- The bytes of a group of `dlen` sextets, `dlen - 1` of them; the sextets not read are `0`. -/
def quantumBytes (dbuf : List UInt8) : List UInt8 :=
  let d := fun i => (dbuf.getD i 0).toNat
  let val := d 0 <<< 18 ||| d 1 <<< 12 ||| d 2 <<< 6 ||| d 3
  [(val >>> 16).toUInt8, (val >>> 8).toUInt8, val.toUInt8].take (dbuf.length - 1)

def skipNewlines : List UInt8 → ℕ → List UInt8 × ℕ
  | c :: src, si => if isNewline c then skipNewlines src (si + 1) else (c :: src, si)
  | [], si => ([], si)

namespace Encoding

variable (enc : Encoding)

/-- The padding of a group of `j` sextets after its first pad byte: a group of two needs a
second pad, which may come after line breaks. The input after the padding and its offset, or
the error. -/
def readPadding (j : ℕ) (src : List UInt8) (si : ℕ) :
    Except CorruptInputError (List UInt8 × ℕ) :=
  if j = 2 then
    -- "==" is expected, the first "=" is already consumed
    match skipNewlines src si with
    | ([], si) => .error ⟨si⟩
    | (c :: src, si) => if c ≠ enc.padChar then .error ⟨si - 1⟩ else .ok (src, si + 1)
  else .ok (src, si)

/-- The end of decoding at a pad byte read at offset `padAt`, with the group's sextets `dbuf`
and the input after the pad from offset `si`. The group is decoded unless its padding is wrong;
anything but line breaks after the padding is an error reported with it. -/
def decodePadding (src : List UInt8) (si padAt : ℕ) (dbuf out : List UInt8) :
    List UInt8 × Option CorruptInputError :=
  if dbuf.length ≤ 1 then (out, some ⟨padAt⟩)
  else
    match enc.readPadding dbuf.length src si with
    | .error err => (out, some err)
    | .ok (src, si) =>
      match skipNewlines src si with
      | ([], _) => (out ++ quantumBytes dbuf, none)
      | (_, si) => (out ++ quantumBytes dbuf, some ⟨si⟩)

/-- The decoder at offset `si`, with the sextets `dbuf` of the group begun and the bytes `out`
decoded so far. -/
def decodeLoop : List UInt8 → ℕ → List UInt8 → List UInt8 → List UInt8 × Option CorruptInputError
  | [], si, dbuf, out =>
    -- the input ends between groups, or inside a group that is not padded
    if dbuf = [] then (out, none) else (out, some ⟨si - dbuf.length⟩)
  | c :: src, si, dbuf, out =>
    let v := enc.decodeMap c
    if v ≠ 0xFF then
      if dbuf.length = 3 then decodeLoop src (si + 1) [] (out ++ quantumBytes (dbuf ++ [v]))
      else decodeLoop src (si + 1) (dbuf ++ [v]) out
    else if isNewline c then decodeLoop src (si + 1) dbuf out
    else if c ≠ enc.padChar then (out, some ⟨si⟩)
    else enc.decodePadding src (si + 1) si dbuf out

/-- `DecodeString`: the bytes decoded, and the error that stopped decoding, if any. -/
def decodeString (s : List UInt8) : List UInt8 × Option CorruptInputError :=
  enc.decodeLoop s 0 [] []

end Encoding

/-- `StdEncoding`: the alphabet `A`-`Z`, `a`-`z`, `0`-`9`, `+`, `/` of RFC 4648, padded with `=`. -/
def stdEncoding : Encoding where
  encode := #v[65, 66, 67, 68, 69, 70, 71, 72, 73, 74, 75, 76, 77, 78, 79, 80, 81, 82, 83, 84,
    85, 86, 87, 88, 89, 90, 97, 98, 99, 100, 101, 102, 103, 104, 105, 106, 107, 108, 109, 110,
    111, 112, 113, 114, 115, 116, 117, 118, 119, 120, 121, 122, 48, 49, 50, 51, 52, 53, 54, 55,
    56, 57, 43, 47]
  padChar := 61
  encode_injective := by decide
  pad_not_mem := by decide
  newline_not_mem := by decide
  pad_ne_newline := by decide


theorem or_three_bytes {b₀ b₁ b₂ : ℕ} (h₁ : b₁ < 2 ^ 8) (h₂ : b₂ < 2 ^ 8) :
    b₀ <<< 16 ||| b₁ <<< 8 ||| b₂ = (b₀ * 2 ^ 8 + b₁) * 2 ^ 8 + b₂ := by
  rw [show 16 = 8 + 8 from rfl, Nat.shiftLeft_add, ← Nat.shiftLeft_or_distrib,
    ← Nat.shiftLeft_add_eq_or_of_lt h₂, ← Nat.shiftLeft_add_eq_or_of_lt h₁, Nat.shiftLeft_eq,
    Nat.shiftLeft_eq]

theorem or_four_sextets {d₀ d₁ d₂ d₃ : ℕ} (h₁ : d₁ < 2 ^ 6) (h₂ : d₂ < 2 ^ 6) (h₃ : d₃ < 2 ^ 6) :
    d₀ <<< 18 ||| d₁ <<< 12 ||| d₂ <<< 6 ||| d₃ = ((d₀ * 2 ^ 6 + d₁) * 2 ^ 6 + d₂) * 2 ^ 6 + d₃ := by
  rw [show 18 = 6 + 6 + 6 from rfl, show 12 = 6 + 6 from rfl, Nat.shiftLeft_add, Nat.shiftLeft_add,
    Nat.shiftLeft_add, ← Nat.shiftLeft_or_distrib, ← Nat.shiftLeft_or_distrib,
    ← Nat.shiftLeft_or_distrib, ← Nat.shiftLeft_add_eq_or_of_lt h₁,
    ← Nat.shiftLeft_add_eq_or_of_lt h₂, ← Nat.shiftLeft_add_eq_or_of_lt h₃, Nat.shiftLeft_eq,
    Nat.shiftLeft_eq, Nat.shiftLeft_eq]

/-- The sextet of `val` from bit `shift` on, as the decoder maps its character back. -/
def sextet (val shift : ℕ) : UInt8 := (val >>> shift &&& 0x3F).toUInt8

theorem toNat_sextet (val shift : ℕ) : (sextet val shift).toNat = val / 2 ^ shift % 64 := by
  have h : val >>> shift &&& 0x3F = val / 2 ^ shift % 2 ^ 6 := by
    rw [← Nat.and_two_pow_sub_one_eq_mod, Nat.shiftRight_eq_div_pow]
  rw [sextet, UInt8.toNat_ofNat', h]
  omega

theorem quantumBytes_four (val : ℕ) :
    quantumBytes [sextet val 18, sextet val 12, sextet val 6, sextet val 0] =
      [(val >>> 16).toUInt8, (val >>> 8).toUInt8, val.toUInt8] := by
  simp only [quantumBytes, List.getD_cons_zero, List.getD_cons_succ, toNat_sextet]
  rw [or_four_sextets (by omega) (by omega) (by omega)]
  simp only [List.length_cons, List.length_nil, List.take_succ_cons, List.take_zero,
    Nat.shiftRight_eq_div_pow, List.cons.injEq, and_true, ← UInt8.toNat_inj, UInt8.toNat_ofNat']
  norm_num
  omega

theorem quantumBytes_three (val : ℕ) :
    quantumBytes [sextet val 18, sextet val 12, sextet val 6] =
      [(val >>> 16).toUInt8, (val >>> 8).toUInt8] := by
  simp only [quantumBytes, List.getD_cons_zero, List.getD_cons_succ, List.getD_nil, toNat_sextet]
  rw [or_four_sextets (by omega) (by omega) (by decide)]
  simp only [List.length_cons, List.length_nil, List.take_succ_cons, List.take_zero,
    Nat.shiftRight_eq_div_pow, List.cons.injEq, and_true, ← UInt8.toNat_inj, UInt8.toNat_ofNat']
  norm_num
  omega

theorem quantumBytes_two (val : ℕ) :
    quantumBytes [sextet val 18, sextet val 12] = [(val >>> 16).toUInt8] := by
  simp only [quantumBytes, List.getD_cons_zero, List.getD_cons_succ, List.getD_nil, toNat_sextet]
  rw [or_four_sextets (by omega) (by decide) (by decide)]
  simp only [List.length_cons, List.length_nil, List.take_succ_cons, List.take_zero,
    Nat.shiftRight_eq_div_pow, List.cons.injEq, and_true, ← UInt8.toNat_inj, UInt8.toNat_ofNat']
  norm_num
  omega

theorem sextet_ne_ff (val shift : ℕ) : sextet val shift ≠ 0xFF := by
  have h := toNat_sextet val shift
  intro heq
  rw [heq] at h
  have : val / 2 ^ shift % 64 < 64 := Nat.mod_lt _ (by decide)
  simp only [UInt8.reduceToNat] at h
  omega

theorem bytes_of_or (b₀ b₁ b₂ : UInt8) :
    ((b₀.toNat <<< 16 ||| b₁.toNat <<< 8 ||| b₂.toNat) >>> 16).toUInt8 = b₀ ∧
      ((b₀.toNat <<< 16 ||| b₁.toNat <<< 8 ||| b₂.toNat) >>> 8).toUInt8 = b₁ ∧
      (b₀.toNat <<< 16 ||| b₁.toNat <<< 8 ||| b₂.toNat).toUInt8 = b₂ := by
  have h₀ := b₀.toNat_lt
  have h₁ := b₁.toNat_lt
  have h₂ := b₂.toNat_lt
  rw [or_three_bytes h₁ h₂]
  simp only [Nat.shiftRight_eq_div_pow, ← UInt8.toNat_inj, UInt8.toNat_ofNat']
  norm_num at *
  omega

namespace Encoding

variable (enc : Encoding)

theorem decodeMap_get (i : Fin 64) : enc.decodeMap (enc.encode.get i) = i.val.toUInt8 := by
  have hsome : ((List.finRange 64).find? fun j => enc.encode.get j == enc.encode.get i).isSome :=
    List.find?_isSome.mpr ⟨i, List.mem_finRange i, by simp⟩
  obtain ⟨j, hj⟩ := Option.isSome_iff_exists.mp hsome
  have hji : j = i := enc.encode_injective (by simpa using List.find?_some hj)
  rw [decodeMap, hj, hji]

theorem decodeMap_of_forall_ne {c : UInt8} (h : ∀ i, enc.encode.get i ≠ c) :
    enc.decodeMap c = 0xFF := by
  have hnone : ((List.finRange 64).find? fun j => enc.encode.get j == c) = none :=
    List.find?_eq_none.mpr fun j _ => by simpa using h j
  rw [decodeMap, hnone]

theorem decodeMap_char (val shift : ℕ) : enc.decodeMap (enc.char val shift) = sextet val shift := by
  rw [char, decodeMap_get]
  rfl

theorem decodeLoop_char_of_lt {val shift : ℕ} {src : List UInt8} {si : ℕ} {dbuf : List UInt8}
    (out : List UInt8) (h : dbuf.length < 3) :
    enc.decodeLoop (enc.char val shift :: src) si dbuf out =
      enc.decodeLoop src (si + 1) (dbuf ++ [sextet val shift]) out := by
  rw [decodeLoop, decodeMap_char, if_pos (sextet_ne_ff val shift), if_neg h.ne]

theorem decodeLoop_char_of_eq {val shift : ℕ} {src : List UInt8} {si : ℕ} {dbuf : List UInt8}
    (out : List UInt8) (h : dbuf.length = 3) :
    enc.decodeLoop (enc.char val shift :: src) si dbuf out =
      enc.decodeLoop src (si + 1) [] (out ++ quantumBytes (dbuf ++ [sextet val shift])) := by
  rw [decodeLoop, decodeMap_char, if_pos (sextet_ne_ff val shift), if_pos h]

theorem decodeMap_padChar : enc.decodeMap enc.padChar = 0xFF :=
  enc.decodeMap_of_forall_ne enc.pad_not_mem

theorem isNewline_padChar : isNewline enc.padChar = false := by
  simp [isNewline, enc.pad_ne_newline.1, enc.pad_ne_newline.2]

theorem decodeLoop_padChar (src : List UInt8) (si : ℕ) (dbuf out : List UInt8) :
    enc.decodeLoop (enc.padChar :: src) si dbuf out = enc.decodePadding src (si + 1) si dbuf out := by
  simp [decodeLoop, decodeMap_padChar, isNewline_padChar]

theorem decodeLoop_encodeToString (bs : List UInt8) (si : ℕ) (out : List UInt8) :
    enc.decodeLoop (enc.encodeToString bs) si [] out = (out ++ bs, none) := by
  fun_induction enc.encodeToString bs generalizing si out with
  | case1 b₀ b₁ b₂ src val ih =>
    simp only [List.cons_append]
    rw [decodeLoop_char_of_lt _ _ (by simp), decodeLoop_char_of_lt _ _ (by simp),
      decodeLoop_char_of_lt _ _ (by simp), decodeLoop_char_of_eq _ _ (by simp)]
    obtain ⟨h₀, h₁, h₂⟩ := bytes_of_or b₀ b₁ b₂
    simp only [List.nil_append, List.cons_append, quantumBytes_four, val, h₀, h₁, h₂, ih,
      List.append_assoc]
  | case2 b₀ b₁ val =>
    rw [decodeLoop_char_of_lt _ _ (by simp), decodeLoop_char_of_lt _ _ (by simp),
      decodeLoop_char_of_lt _ _ (by simp), decodeLoop_padChar]
    have hb := bytes_of_or b₀ b₁ 0
    simp only [UInt8.toNat_zero, Nat.or_zero] at hb
    simp [decodePadding, readPadding, quantumBytes_three, skipNewlines, val, hb.1, hb.2.1]
  | case3 b₀ val =>
    rw [decodeLoop_char_of_lt _ _ (by simp), decodeLoop_char_of_lt _ _ (by simp),
      decodeLoop_padChar]
    simp [decodePadding, readPadding, quantumBytes_two, skipNewlines, isNewline_padChar, val]
  | case4 => simp [decodeLoop]

/-- `DecodeString` undoes `EncodeToString`. -/
theorem decodeString_encodeToString (bs : List UInt8) :
    enc.decodeString (enc.encodeToString bs) = (bs, none) :=
  enc.decodeLoop_encodeToString bs 0 []

end Encoding

example : stdEncoding.encodeToString [77, 97, 110, 121] = [84, 87, 70, 117, 101, 81, 61, 61] := by
  decide

theorem length_quantumBytes (dbuf : List UInt8) :
    (quantumBytes dbuf).length = min (dbuf.length - 1) 3 := by
  simp [quantumBytes]

namespace Encoding

variable (enc : Encoding)

/-- A pad byte either stops decoding with the bytes so far, or decodes its group of at least
two sextets. -/
theorem decodePadding_cases (src : List UInt8) (si padAt : ℕ) (dbuf out : List UInt8) :
    (∃ err, enc.decodePadding src si padAt dbuf out = (out, some err)) ∨
      (2 ≤ dbuf.length ∧
        ∃ e, enc.decodePadding src si padAt dbuf out = (out ++ quantumBytes dbuf, e)) := by
  unfold decodePadding
  split_ifs with hshort
  · exact Or.inl ⟨_, rfl⟩
  · split
    · exact Or.inl ⟨_, rfl⟩
    · refine Or.inr ⟨by omega, ?_⟩
      split <;> exact ⟨_, rfl⟩

theorem decodeLoop_prefix (src : List UInt8) (si : ℕ) (dbuf out : List UInt8) :
    out <+: (enc.decodeLoop src si dbuf out).1 := by
  induction src generalizing si dbuf out with
  | nil =>
    unfold decodeLoop
    split <;> exact List.prefix_refl out
  | cons c src ih =>
    unfold decodeLoop
    dsimp only
    split_ifs
    · exact (List.prefix_append out _).trans (ih _ _ _)
    · exact ih _ _ _
    · exact ih _ _ _
    · exact List.prefix_refl out
    · rcases enc.decodePadding_cases src (si + 1) si dbuf out with ⟨err, h⟩ | ⟨-, e, h⟩
      · rw [h]
      · rw [h]
        exact List.prefix_append _ _

theorem decodeMap_of_isNewline {c : UInt8} (h : isNewline c = true) : enc.decodeMap c = 0xFF := by
  apply enc.decodeMap_of_forall_ne
  intro i hi
  have := enc.newline_not_mem i
  simp only [isNewline, Bool.or_eq_true, beq_iff_eq] at h
  rcases h with rfl | rfl
  · exact this.1 hi
  · exact this.2 hi

theorem decodeLoop_lengthen {src : List UInt8} {si : ℕ} {dbuf out res : List UInt8}
    (h : enc.decodeLoop src si dbuf out = (res, none)) (hd : dbuf ≠ []) :
    out.length < res.length := by
  induction src generalizing si dbuf out with
  | nil =>
    rw [decodeLoop, if_neg hd] at h
    simp at h
  | cons c src ih =>
    unfold decodeLoop at h
    dsimp only at h
    split_ifs at h
    · -- the group is complete: three bytes, and decoding goes on after them
      have hpre := enc.decodeLoop_prefix src (si + 1) [] (out ++ quantumBytes (dbuf ++ [enc.decodeMap c]))
      rw [h] at hpre
      have hlen := hpre.length_le
      simp only [List.length_append, length_quantumBytes, List.length_singleton] at hlen
      omega
    · exact ih h (by simp)
    · exact ih h hd
    · simp at h
    · rcases enc.decodePadding_cases src (si + 1) si dbuf out with ⟨err, hp⟩ | ⟨hd2, e, hp⟩
      · rw [hp] at h
        simp at h
      · rw [hp, Prod.mk.injEq] at h
        rw [← h.1, List.length_append, length_quantumBytes]
        omega

/-- Decoding from between two groups yields a byte or fails once a byte that is not a line
break is read. -/
theorem decodeLoop_lengthen_of_not_newline {src : List UInt8} {si : ℕ} {out res : List UInt8}
    (h : enc.decodeLoop src si [] out = (res, none)) (hc : ∃ c ∈ src, isNewline c = false) :
    out.length < res.length := by
  induction src generalizing si out with
  | nil => simp at hc
  | cons c src ih =>
    unfold decodeLoop at h
    dsimp only at h
    split_ifs at h with hv h3 hn
    · simp at h3
    · exact enc.decodeLoop_lengthen h (by simp)
    · obtain ⟨c', hc', hnl⟩ := hc
      rcases List.mem_cons.mp hc' with rfl | hsrc
      · rw [hn] at hnl
        contradiction
      · exact ih h ⟨c', hsrc, hnl⟩
    · simp at h
    · rcases enc.decodePadding_cases src (si + 1) si [] out with ⟨err, hp⟩ | ⟨hd2, -⟩
      · rw [hp] at h
        simp at h
      · simp at hd2

theorem decodeLoop_of_forall_newline {src : List UInt8} (hs : ∀ c ∈ src, isNewline c = true)
    (si : ℕ) (out : List UInt8) : enc.decodeLoop src si [] out = (out, none) := by
  induction src generalizing si with
  | nil => simp [decodeLoop]
  | cons c src ih =>
    have hc := hs c List.mem_cons_self
    rw [decodeLoop]
    simp only [enc.decodeMap_of_isNewline hc, ne_eq, not_true_eq_false, if_false, hc, if_true]
    exact ih (fun c' h => hs c' (List.mem_cons_of_mem c h)) _

/-- `DecodeString` returns no bytes and no error exactly on the inputs made of line breaks,
the empty one among them. -/
theorem decodeString_eq_nil_iff (s : List UInt8) :
    enc.decodeString s = ([], none) ↔ ∀ c ∈ s, isNewline c = true := by
  constructor
  · intro h
    by_contra hs
    obtain ⟨c, hc, hnl⟩ : ∃ c ∈ s, isNewline c = false := by simpa using hs
    have hlt := enc.decodeLoop_lengthen_of_not_newline h ⟨c, hc, hnl⟩
    simp at hlt
  · intro hs
    exact enc.decodeLoop_of_forall_newline hs 0 []

end Encoding

example : stdEncoding.decodeString [13, 10, 10] = ([], none) := by
  decide

end Base64
