import Mathlib

/-! Byte slices as Go handles them: the builtin `copy`, the eight big-endian bytes
`binary.Write` puts out for a `uint64` with the number they are read back as, and shifts of a
byte, which drop every bit shifted past the top instead of taking the count modulo eight as
`UInt8` does. -/

namespace Bytes

variable {α : Type*}

/-- The builtin `copy(dst, src)`: the first `min(len(dst), len(src))` elements of `dst` become
those of `src`. -/
def copy (dst src : List α) : List α := src.take dst.length ++ dst.drop src.length

/-- `copy(dst[off:], src)`, for an offset within `dst`. -/
def copyAt (dst : List α) (off : ℕ) (src : List α) : List α :=
  dst.take off ++ copy (dst.drop off) src

/-- The `n` bytes of `v` in big-endian order, the last one its lowest. -/
def bigEndian (n v : ℕ) : List UInt8 :=
  (List.range n).map fun i => (v >>> (8 * (n - 1 - i))).toUInt8

/-- The number whose big-endian bytes `b` are. -/
def toNatBE (b : List UInt8) : ℕ := b.foldl (fun acc x => acc * 256 + x.toNat) 0

/-- `x << s` on bytes. -/
def shl (x s : UInt8) : UInt8 := (x.toNat <<< s.toNat).toUInt8

@[simp] theorem length_copy (dst src : List α) : (copy dst src).length = dst.length := by
  simp only [copy, List.length_append, List.length_take, List.length_drop]
  omega

@[simp] theorem length_copyAt (dst : List α) (off : ℕ) (src : List α) (h : off ≤ dst.length) :
    (copyAt dst off src).length = dst.length := by
  simp only [copyAt, List.length_append, List.length_take, length_copy, List.length_drop]
  omega

@[simp] theorem length_bigEndian (n v : ℕ) : (bigEndian n v).length = n := by
  simp [bigEndian]

theorem copy_of_length_le {dst src : List α} (h : src.length ≤ dst.length) :
    copy dst src = src ++ dst.drop src.length := by
  rw [copy, List.take_of_length_le h]

theorem copyAt_append (P R src : List α) : copyAt (P ++ R) P.length src = P ++ copy R src := by
  rw [copyAt, List.take_left, List.drop_left]

theorem toNatBE_append_singleton (b : List UInt8) (x : UInt8) :
    toNatBE (b ++ [x]) = toNatBE b * 256 + x.toNat := by
  simp [toNatBE, List.foldl_append]

theorem toNatBE_lt (b : List UInt8) : toNatBE b < 2 ^ (8 * b.length) := by
  induction b using List.reverseRecOn with
  | nil => simp [toNatBE]
  | append_singleton b x ih =>
    rw [toNatBE_append_singleton, List.length_append, List.length_singleton,
      show 8 * (b.length + 1) = 8 * b.length + 8 by ring, pow_add]
    have hx := x.toNat_lt
    have : toNatBE b * 256 + x.toNat < (toNatBE b + 1) * 256 := by omega
    calc toNatBE b * 256 + x.toNat < (toNatBE b + 1) * 256 := this
      _ ≤ 2 ^ (8 * b.length) * 2 ^ 8 := Nat.mul_le_mul_right _ ih

/-- Bit `n` from the right of big-endian bytes is bit `n % 8` of the byte `n / 8` from the
right. -/
theorem testBit_toNatBE : ∀ (b : List UInt8) (n : ℕ), n < 8 * b.length →
    (toNatBE b).testBit n = (b.getD (b.length - 1 - n / 8) 0).toNat.testBit (n % 8) := by
  intro b
  induction b using List.reverseRecOn with
  | nil => intro n hn; simp at hn
  | append_singleton b x ih =>
    intro n hn
    rw [List.length_append, List.length_singleton] at hn ⊢
    rw [toNatBE_append_singleton, Nat.mul_comm, Nat.testBit_two_pow_mul_add _ x.toNat_lt]
    split_ifs with h8
    · -- the bit is in the last byte
      rw [show b.length + 1 - 1 - n / 8 = b.length by omega, List.getD_append_right _ _ _ _ le_rfl,
        Nat.sub_self, Nat.mod_eq_of_lt h8]
      rfl
    · -- the bit is in the bytes before
      have hidx : b.length + 1 - 1 - n / 8 = b.length - 1 - (n - 8) / 8 := by omega
      have hlt : b.length - 1 - (n - 8) / 8 < b.length := by omega
      have hmod : (n - 8) % 8 = n % 8 := by omega
      rw [ih (n - 8) (by omega), hidx, List.getD_append _ _ _ _ hlt, hmod]

theorem bigEndian_succ (n v : ℕ) : bigEndian (n + 1) v = bigEndian n (v >>> 8) ++ [v.toUInt8] := by
  simp only [bigEndian, List.range_succ, List.map_append, List.map_cons, List.map_nil,
    Nat.add_sub_cancel, Nat.sub_self, Nat.mul_zero, Nat.shiftRight_zero, List.append_cancel_right_eq,
    List.map_inj_left, List.mem_range]
  intro i hi
  rw [← Nat.shiftRight_add]
  congr 2
  omega

@[simp] theorem bigEndian_zero (v : ℕ) : bigEndian 0 v = [] := rfl

theorem bigEndian_of_zero (n : ℕ) : bigEndian n 0 = List.replicate n 0 := by
  induction n with
  | zero => rfl
  | succ n ih => rw [bigEndian_succ, Nat.zero_shiftRight, ih, List.replicate_succ']; rfl

theorem toUInt8_mul_add {a w : ℕ} (ha : 256 ∣ a) : (a + w).toUInt8 = w.toUInt8 := by
  apply UInt8.toNat_inj.mp
  simp only [Nat.toUInt8_eq, UInt8.toNat_ofNat']
  omega

theorem bigEndian_add (n v : ℕ) : ∀ (m w : ℕ), w < 2 ^ (8 * m) →
    bigEndian (n + m) (v * 2 ^ (8 * m) + w) = bigEndian n v ++ bigEndian m w := by
  intro m
  induction m with
  | zero =>
    intro w hw
    have hw0 : w = 0 := by simpa using hw
    simp [hw0]
  | succ m ih =>
    intro w hw
    -- drop the lowest byte, which is `w`'s
    have hshift : (v * 2 ^ (8 * (m + 1)) + w) >>> 8 = v * 2 ^ (8 * m) + w >>> 8 := by
      rw [Nat.shiftRight_eq_div_pow, Nat.shiftRight_eq_div_pow, Nat.mul_succ, pow_add,
        ← Nat.mul_assoc, Nat.add_comm, Nat.add_mul_div_right _ _ (Nat.two_pow_pos 8), Nat.add_comm]
    have hw' : w >>> 8 < 2 ^ (8 * m) := by
      rw [Nat.shiftRight_eq_div_pow, Nat.div_lt_iff_lt_mul (Nat.two_pow_pos 8), ← pow_add]
      simpa [Nat.mul_succ] using hw
    have h256 : 256 ∣ v * 2 ^ (8 * (m + 1)) :=
      ⟨v * 2 ^ (8 * m), by rw [Nat.mul_succ, pow_add]; ring⟩
    have hlow : (v * 2 ^ (8 * (m + 1)) + w).toUInt8 = w.toUInt8 := toUInt8_mul_add h256
    rw [← Nat.add_assoc, bigEndian_succ, hshift, ih _ hw', hlow, bigEndian_succ m w, List.append_assoc]

/-- A value's big-endian bytes copied into the low end of zero bytes are its big-endian bytes
at the longer length. -/
theorem copyAt_replicate_bigEndian {n m v : ℕ} (hm : m ≤ n) (hv : v < 2 ^ (8 * m)) :
    copyAt (List.replicate n 0) (n - m) (bigEndian m v) = bigEndian n v := by
  have hsplit : bigEndian n v = bigEndian (n - m) 0 ++ bigEndian m v := by
    have h := bigEndian_add (n - m) 0 m v hv
    rwa [Nat.zero_mul, Nat.zero_add, Nat.sub_add_cancel hm] at h
  rw [hsplit, bigEndian_of_zero, copyAt, List.take_replicate, List.drop_replicate,
    Nat.min_eq_left (Nat.sub_le n m), copy_of_length_le (by simp; omega)]
  have hzero : n - (n - m) - m = 0 := by omega
  simp [hzero]

theorem bigEndian_toNatBE (b : List UInt8) : bigEndian b.length (toNatBE b) = b := by
  induction b using List.reverseRecOn with
  | nil => rfl
  | append_singleton b x ih =>
    have hx := x.toNat_lt
    have hhigh : (toNatBE b * 256 + x.toNat) >>> 8 = toNatBE b := by
      rw [Nat.shiftRight_eq_div_pow]
      omega
    have hlow : (toNatBE b * 256 + x.toNat).toUInt8 = x := by
      rw [toUInt8_mul_add (Nat.dvd_mul_left 256 _)]
      exact UInt8.ofNat_toNat
    rw [List.length_append, List.length_singleton, bigEndian_succ, toNatBE_append_singleton,
      hhigh, hlow, ih]

theorem bigEndian_one (v : ℕ) : bigEndian 1 v = [v.toUInt8] := by
  rw [bigEndian_succ]
  rfl

theorem drop_bigEndian (n v : ℕ) : (bigEndian (n + 1) v).drop n = [v.toUInt8] := by
  rw [bigEndian_succ, List.drop_left' (length_bigEndian n _)]

theorem toNatBE_bigEndian : ∀ (n v : ℕ), v < 2 ^ (8 * n) → toNatBE (bigEndian n v) = v
  | 0, v, hv => by
    have hv0 : v = 0 := by simpa using hv
    rw [hv0]
    rfl
  | n + 1, v, hv => by
    have hhigh : v >>> 8 < 2 ^ (8 * n) := by
      rw [Nat.shiftRight_eq_div_pow, Nat.div_lt_iff_lt_mul (Nat.two_pow_pos 8), ← pow_add]
      exact hv
    have hlow : (v.toUInt8).toNat = v % 256 := by simp
    rw [bigEndian_succ, toNatBE_append_singleton, toNatBE_bigEndian n _ hhigh, hlow,
      Nat.shiftRight_eq_div_pow]
    omega

theorem toNatBE_append (a b : List UInt8) :
    toNatBE (a ++ b) = toNatBE a * 2 ^ (8 * b.length) + toNatBE b := by
  induction b using List.reverseRecOn with
  | nil => simp [toNatBE]
  | append_singleton b x ih =>
    rw [← List.append_assoc, toNatBE_append_singleton, toNatBE_append_singleton, ih,
      List.length_append, List.length_singleton, Nat.mul_add 8, pow_add]
    ring

@[simp] theorem toNatBE_replicate_zero (m : ℕ) : toNatBE (List.replicate m 0) = 0 := by
  induction m with
  | zero => rfl
  | succ m ih =>
    rw [List.replicate_succ', toNatBE_append_singleton, ih]
    rfl

theorem toNatBE_append_shiftRight (a b : List UInt8) :
    toNatBE (a ++ b) >>> (8 * b.length) = toNatBE a := by
  rw [toNatBE_append, Nat.shiftRight_eq_div_pow, Nat.mul_comm, Nat.mul_add_div (Nat.two_pow_pos _),
    Nat.div_eq_of_lt (toNatBE_lt b), Nat.add_zero]

theorem toNatBE_inj {a b : List UInt8} (hlen : a.length = b.length) (h : toNatBE a = toNatBE b) :
    a = b := by
  rw [← bigEndian_toNatBE a, ← bigEndian_toNatBE b, hlen, h]

theorem toNatBE_take (b : List UInt8) (k : ℕ) :
    toNatBE (b.take k) = toNatBE b >>> (8 * (b.length - k)) := by
  have hsplit := toNatBE_append_shiftRight (b.take k) (b.drop k)
  rw [List.take_append_drop, List.length_drop] at hsplit
  exact hsplit.symm

theorem eq_bigEndian_of_testBit {b : List UInt8} {v : ℕ} (hv : v < 2 ^ (8 * b.length))
    (hbit : ∀ i < 8 * b.length,
      (b.getD (b.length - 1 - i / 8) 0).toNat.testBit (i % 8) = v.testBit i) :
    b = bigEndian b.length v := by
  have hval : toNatBE b = v := by
    apply Nat.eq_of_testBit_eq
    intro i
    by_cases hi : i < 8 * b.length
    · rw [testBit_toNatBE b i hi, hbit i hi]
    · -- past the bytes neither number has a bit
      have hle : 2 ^ (8 * b.length) ≤ 2 ^ i := Nat.pow_le_pow_right two_pos (by omega)
      rw [Nat.testBit_lt_two_pow (lt_of_lt_of_le (toNatBE_lt b) hle),
        Nat.testBit_lt_two_pow (lt_of_lt_of_le hv hle)]
  rw [← hval, bigEndian_toNatBE]

end Bytes
