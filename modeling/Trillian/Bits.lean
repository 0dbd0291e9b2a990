import Mathlib

/-! Bits of the indices and sizes that the Merkle tree algorithms walk over: the run of
trailing one bits of `n`, and how the bits of `n + 1` follow from it (a binary counter's
carry). -/

namespace Rfc6962

/-- The number of trailing one bits of `n`. -/
def trailingOnes (n : ℕ) : ℕ := if n % 2 = 1 then trailingOnes (n / 2) + 1 else 0
termination_by n
decreasing_by omega

theorem trailingOnes_of_odd {n : ℕ} (h : n % 2 = 1) :
    trailingOnes n = trailingOnes (n / 2) + 1 := by
  rw [trailingOnes, if_pos h]

theorem trailingOnes_of_even {n : ℕ} (h : n % 2 = 0) : trailingOnes n = 0 := by
  rw [trailingOnes, if_neg (by omega)]

theorem mod_trailingOnes (n : ℕ) : n % 2 ^ (trailingOnes n + 1) = 2 ^ trailingOnes n - 1 := by
  induction n using Nat.strong_induction_on with
  | _ n ih =>
    rw [trailingOnes]
    split_ifs with h
    · have hn := ih (n / 2) (by omega)
      have hp : 2 ^ (trailingOnes (n / 2) + 1 + 1) = 2 * 2 ^ (trailingOnes (n / 2) + 1) := by
        ring
      have hq : 2 ^ (trailingOnes (n / 2) + 1) = 2 * 2 ^ trailingOnes (n / 2) := by ring
      rw [hp, Nat.mod_mul, hn, hq]
      have := Nat.two_pow_pos (trailingOnes (n / 2))
      omega
    · simp only [zero_add, pow_one, pow_zero]
      omega

theorem trailingOnes_eq_of_mod {n t : ℕ} (h : n % 2 ^ (t + 1) = 2 ^ t - 1) :
    trailingOnes n = t := by
  induction t generalizing n with
  | zero =>
    rw [trailingOnes, if_neg (by simpa using h)]
  | succ t ih =>
    have hp : 2 ^ (t + 1 + 1) = 2 * 2 ^ (t + 1) := by ring
    have hq : 2 ^ (t + 1) = 2 * 2 ^ t := by ring
    have hpos := Nat.two_pow_pos t
    rw [hp, Nat.mod_mul] at h
    have hodd : n % 2 = 1 := by omega
    rw [trailingOnes, if_pos hodd, ih (by omega)]

theorem mod_two_pow_of_le_trailingOnes {n a : ℕ} (h : a ≤ trailingOnes n) :
    n % 2 ^ a = 2 ^ a - 1 := by
  have hm := mod_trailingOnes n
  have hdvd : 2 ^ a ∣ 2 ^ (trailingOnes n + 1) := Nat.pow_dvd_pow 2 (by omega)
  obtain ⟨c, hc⟩ := Nat.pow_dvd_pow 2 h
  have hpos := Nat.two_pow_pos a
  have hc1 : 1 ≤ c := by
    rcases c with _ | c
    · simp at hc
    · omega
  rw [← Nat.mod_mod_of_dvd n hdvd, hm, hc]
  have : 2 ^ a * c - 1 = 2 ^ a * (c - 1) + (2 ^ a - 1) := by
    rw [Nat.mul_sub, mul_one]
    have : 2 ^ a ≤ 2 ^ a * c := Nat.le_mul_of_pos_right _ hc1
    omega
  rw [this, Nat.mul_add_mod, Nat.mod_eq_of_lt (by omega)]

theorem div_trailingOnes_succ_mul (n : ℕ) :
    (n / 2 ^ trailingOnes n + 1) * 2 ^ trailingOnes n = n + 1 := by
  have hm := mod_two_pow_of_le_trailingOnes (le_refl (trailingOnes n))
  have hd := Nat.div_add_mod n (2 ^ trailingOnes n)
  have hpos := Nat.two_pow_pos (trailingOnes n)
  rw [add_mul, one_mul, mul_comm]
  omega

theorem trailingOnes_lt {n a : ℕ} (h : n < 2 ^ a - 1) : trailingOnes n < a := by
  by_contra hge
  have := mod_two_pow_of_le_trailingOnes (show a ≤ trailingOnes n by omega)
  have := Nat.mod_le n (2 ^ a)
  omega

theorem trailingOnes_two_pow_sub_one (a : ℕ) : trailingOnes (2 ^ a - 1) = a := by
  apply trailingOnes_eq_of_mod
  have hp : 2 ^ (a + 1) = 2 * 2 ^ a := by ring
  have := Nat.two_pow_pos a
  rw [Nat.mod_eq_of_lt (by omega)]

theorem trailingOnes_add_two_pow {n a : ℕ} (h : n < 2 ^ a - 1) :
    trailingOnes (n + 2 ^ a) = trailingOnes n := by
  have hlt := trailingOnes_lt h
  apply trailingOnes_eq_of_mod
  obtain ⟨c, hc⟩ := Nat.pow_dvd_pow 2 (show trailingOnes n + 1 ≤ a by omega)
  rw [hc, Nat.add_mul_mod_self_left, mod_trailingOnes]

-- `n + 1` clears the trailing ones of `n`, sets the bit above them, and keeps the higher bits.

theorem testBit_iff_div_mod (n i : ℕ) : n.testBit i = true ↔ n / 2 ^ i % 2 = 1 := by
  rw [Nat.testBit_eq_decide_div_mod_eq, decide_eq_true_iff]

theorem testBit_of_lt_trailingOnes {n i : ℕ} (h : i < trailingOnes n) : n.testBit i = true := by
  have hm := mod_two_pow_of_le_trailingOnes (show i + 1 ≤ trailingOnes n by omega)
  have hp : 2 ^ (i + 1) = 2 * 2 ^ i := by ring
  have hlt := Nat.mod_lt n (Nat.two_pow_pos i)
  rw [Nat.mod_pow_succ] at hm
  rw [testBit_iff_div_mod]
  rcases Nat.mod_two_eq_zero_or_one (n / 2 ^ i) with h0 | h1
  · rw [h0] at hm
    omega
  · exact h1

theorem testBit_trailingOnes (n : ℕ) : n.testBit (trailingOnes n) = false := by
  have hm := mod_trailingOnes n
  have hlt := Nat.mod_lt n (Nat.two_pow_pos (trailingOnes n))
  rw [Nat.mod_pow_succ] at hm
  rw [Bool.eq_false_iff, ne_eq, testBit_iff_div_mod]
  intro h1
  rw [h1] at hm
  omega

theorem lt_trailingOnes_iff {n i : ℕ} (hi : i ≤ trailingOnes n) :
    i < trailingOnes n ↔ n.testBit i = true := by
  constructor
  · exact testBit_of_lt_trailingOnes
  · intro h
    rcases Nat.lt_or_eq_of_le hi with hlt | rfl
    · exact hlt
    · rw [testBit_trailingOnes] at h
      exact absurd h Bool.false_ne_true

theorem and_two_eq_zero_iff (t : ℕ) : t &&& 2 = 0 ↔ t.testBit 1 = false := by
  have h := Nat.and_two_pow t 1
  rw [pow_one] at h
  rw [h]
  cases t.testBit 1 <;> simp

theorem succ_div_trailingOnes (n : ℕ) :
    (n + 1) / 2 ^ trailingOnes n = n / 2 ^ trailingOnes n + 1 := by
  rw [← div_trailingOnes_succ_mul n, Nat.mul_div_cancel _ (Nat.two_pow_pos _)]

theorem succ_div_of_trailingOnes_lt {n i : ℕ} (h : trailingOnes n < i) :
    (n + 1) / 2 ^ i = n / 2 ^ i := by
  have heven : n / 2 ^ trailingOnes n % 2 = 0 := by
    have := testBit_trailingOnes n
    rw [Bool.eq_false_iff, ne_eq, testBit_iff_div_mod] at this
    omega
  have hsplit : 2 ^ i = 2 ^ trailingOnes n * 2 * 2 ^ (i - trailingOnes n - 1) := by
    rw [← pow_succ, ← pow_add]
    congr 1
    omega
  rw [hsplit, ← Nat.div_div_eq_div_mul, ← Nat.div_div_eq_div_mul, ← Nat.div_div_eq_div_mul,
    ← Nat.div_div_eq_div_mul, succ_div_trailingOnes, show
      (n / 2 ^ trailingOnes n + 1) / 2 = n / 2 ^ trailingOnes n / 2 by omega]

theorem testBit_succ_of_lt_trailingOnes {n i : ℕ} (h : i < trailingOnes n) :
    (n + 1).testBit i = false := by
  -- `2^(i+1)` divides `n + 1`, so bit `i` of `n + 1` is clear
  have hdvd : 2 ^ (i + 1) ∣ n + 1 :=
    dvd_trans (Nat.pow_dvd_pow 2 (show i + 1 ≤ trailingOnes n by omega))
      ⟨n / 2 ^ trailingOnes n + 1, by rw [mul_comm]; exact (div_trailingOnes_succ_mul n).symm⟩
  obtain ⟨c, hc⟩ := hdvd
  rw [Bool.eq_false_iff, ne_eq, testBit_iff_div_mod, hc, pow_succ, mul_assoc,
    Nat.mul_div_cancel_left _ (Nat.two_pow_pos i)]
  omega

theorem testBit_succ_trailingOnes (n : ℕ) : (n + 1).testBit (trailingOnes n) = true := by
  have heven : n / 2 ^ trailingOnes n % 2 = 0 := by
    have := testBit_trailingOnes n
    rw [Bool.eq_false_iff, ne_eq, testBit_iff_div_mod] at this
    omega
  rw [testBit_iff_div_mod, succ_div_trailingOnes]
  omega

theorem testBit_succ_of_trailingOnes_lt {n i : ℕ} (h : trailingOnes n < i) :
    (n + 1).testBit i = n.testBit i := by
  rw [Nat.testBit_eq_decide_div_mod_eq, Nat.testBit_eq_decide_div_mod_eq,
    succ_div_of_trailingOnes_lt h]

-- The bit tests of the Go code (`t&1`, `t&2`, `size&(1<<bit)`, `t>>1`) in terms of `testBit` and
-- division by powers of two.

theorem div_two_pow_succ (i l : ℕ) : i / 2 ^ (l + 1) = i / 2 ^ l / 2 := by
  rw [pow_succ, Nat.div_div_eq_div_mul]

theorem div_two_pow_shiftRight_one (n b : ℕ) : (n / 2 ^ b) >>> 1 = n / 2 ^ (b + 1) := by
  rw [Nat.shiftRight_eq_div_pow, pow_one, div_two_pow_succ]

theorem div_two_pow_pos_of_testBit {n b : ℕ} (h : n.testBit b = true) : 0 < n / 2 ^ b := by
  rw [testBit_iff_div_mod] at h
  exact Nat.pos_of_ne_zero fun h0 => by simp [h0] at h

theorem pred_div_two_pow_mul_add_le {n b : ℕ} (h : n.testBit b = true) :
    (n / 2 ^ b - 1) * 2 ^ b + 2 ^ b ≤ n := by
  have hpos := div_two_pow_pos_of_testBit h
  calc (n / 2 ^ b - 1) * 2 ^ b + 2 ^ b = (n / 2 ^ b - 1 + 1) * 2 ^ b := by rw [Nat.succ_mul]
    _ = n / 2 ^ b * 2 ^ b := by rw [Nat.sub_add_cancel hpos]
    _ ≤ n := Nat.div_mul_le_self n (2 ^ b)

theorem div_two_pow_and_one_eq_zero_iff (n b : ℕ) :
    n / 2 ^ b &&& 1 = 0 ↔ n.testBit b = false := by
  rw [Nat.and_one_is_mod, Nat.testBit_eq_decide_div_mod_eq, decide_eq_false_iff_not]
  omega

theorem div_two_pow_and_two_eq_zero_iff (n b : ℕ) :
    n / 2 ^ b &&& 2 = 0 ↔ n.testBit (b + 1) = false := by
  rw [and_two_eq_zero_iff, Nat.testBit_div_two_pow, add_comm]

theorem and_one_shiftLeft_ne_zero (n b : ℕ) : (n &&& 1 <<< b != 0) = n.testBit b := by
  rw [Nat.one_shiftLeft, Nat.and_two_pow]
  cases n.testBit b <;> simp

theorem mod_two_pow_succ_of_testBit {n b : ℕ} (h : n.testBit b = true) :
    n % 2 ^ (b + 1) = n % 2 ^ b + 2 ^ b := by
  rw [testBit_iff_div_mod] at h
  rw [Nat.mod_pow_succ, h, mul_one]

theorem mod_two_pow_succ_of_not_testBit {n b : ℕ} (h : n.testBit b = false) :
    n % 2 ^ (b + 1) = n % 2 ^ b := by
  rw [Nat.testBit_eq_decide_div_mod_eq, decide_eq_false_iff_not] at h
  rw [Nat.mod_pow_succ, show n / 2 ^ b % 2 = 0 by omega, mul_zero, add_zero]

theorem mod_two_pow_ne_zero_of_testBit {x c b : ℕ} (hc : x.testBit c = true) (hcb : c < b) :
    x % 2 ^ b ≠ 0 := by
  intro h0
  have hbit := Nat.testBit_mod_two_pow x b c
  rw [h0, Nat.zero_testBit, hc, decide_eq_true hcb] at hbit
  exact Bool.false_ne_true hbit

theorem succ_mod_two_pow_trailingOnes (n : ℕ) : (n + 1) % 2 ^ trailingOnes n = 0 := by
  rw [← div_trailingOnes_succ_mul n, Nat.mul_mod_left]

/-- The set bits of `n + 1` with a set bit below them are the set bits of `n` above its
trailing ones. -/
theorem testBit_succ_and_mod_iff {n b : ℕ} :
    ((n + 1).testBit b = true ∧ (n + 1) % 2 ^ b ≠ 0) ↔
      (n.testBit b = true ∧ trailingOnes n < b) := by
  constructor
  · rintro ⟨hbit, hmod⟩
    rcases Nat.lt_trichotomy b (trailingOnes n) with hlt | rfl | hgt
    · rw [testBit_succ_of_lt_trailingOnes hlt] at hbit
      exact absurd hbit Bool.false_ne_true
    · exact absurd (succ_mod_two_pow_trailingOnes n) hmod
    · rw [testBit_succ_of_trailingOnes_lt hgt] at hbit
      exact ⟨hbit, hgt⟩
  · rintro ⟨hbit, hgt⟩
    rw [testBit_succ_of_trailingOnes_lt hgt]
    exact ⟨hbit, mod_two_pow_ne_zero_of_testBit (testBit_succ_trailingOnes n) hgt⟩

/-- `n` lies in the right half of the block of `2^(b+1)` numbers from `j * 2^(b+1)` exactly
when `j` is its block and bit `b` of `n` is set. -/
theorem right_half_iff {n j b : ℕ} :
    (j * 2 ^ (b + 1) + 2 ^ b ≤ n ∧ n < (j + 1) * 2 ^ (b + 1)) ↔
      (j = n / 2 ^ (b + 1) ∧ n.testBit b = true) := by
  have hsplit := Nat.div_add_mod' n (2 ^ (b + 1))
  have hmod : n % 2 ^ (b + 1) = n % 2 ^ b + 2 ^ b * (n / 2 ^ b % 2) := Nat.mod_pow_succ
  have hlt := Nat.mod_lt n (Nat.two_pow_pos b)
  have hp : 2 ^ (b + 1) = 2 * 2 ^ b := by ring
  have hpos := Nat.two_pow_pos (b + 1)
  rw [testBit_iff_div_mod, Nat.add_mul, one_mul]
  constructor
  · rintro ⟨h1, h2⟩
    have hj : j = n / 2 ^ (b + 1) := by
      apply le_antisymm
      · exact (Nat.le_div_iff_mul_le hpos).mpr (by omega)
      · exact Nat.lt_succ_iff.mp ((Nat.div_lt_iff_lt_mul hpos).mpr (by rw [Nat.succ_mul]; omega))
    subst hj
    refine ⟨rfl, ?_⟩
    rcases Nat.mod_two_eq_zero_or_one (n / 2 ^ b) with h0 | h1
    · rw [h0, mul_zero] at hmod
      omega
    · exact h1
  · rintro ⟨rfl, hbit⟩
    rw [hbit, mul_one] at hmod
    omega

theorem div_two_pow_of_not_testBit {n l : ℕ} (hb : n.testBit l = false) :
    n / 2 ^ l = n / 2 ^ (l + 1) * 2 := by
  rw [Nat.testBit_eq_decide_div_mod_eq, decide_eq_false_iff_not] at hb
  rw [div_two_pow_succ]
  omega

/-- Where bit `l - 1` of `N - 1` is set, or `l = 0`, the block of `2^l` leaves holding leaf
`N - 1` has begun its right half. -/
theorem div_two_pow_mul_add_half_lt {N l : ℕ} (hN : 0 < N)
    (h : l = 0 ∨ (N - 1).testBit (l - 1) = true) : (N - 1) / 2 ^ l * 2 ^ l + 2 ^ l / 2 < N := by
  rcases l with _ | l
  · simp
    omega
  · have hb : (N - 1).testBit l = true := by simpa using h
    have hmod := mod_two_pow_succ_of_testBit hb
    have hsplit := Nat.div_add_mod' (N - 1) (2 ^ (l + 1))
    have hhalf : 2 ^ (l + 1) / 2 = 2 ^ l := by rw [pow_succ, Nat.mul_div_cancel _ two_pos]
    omega

theorem xor_one_xor_one (n : ℕ) : n ^^^ 1 ^^^ 1 = n := by
  rw [Nat.xor_assoc, Nat.xor_self, Nat.xor_zero]

end Rfc6962
