import Mathlib.Data.Nat.Bitwise
import Mathlib.Tactic.Common

/-! Memories bit by bit, the most significant bit of every byte first. A big-endian number of `n`
bytes is then a row of `8 * n` bits, its last one at the right end, and a write changes the bits of
its row and no others.

        byte       a        a + 1            a + n - 1
        bit     8a ………… | …………………  ⋯  …………… 8(a + n) - 1
        number  8n - 1 …   …………………  ⋯  ………………… 1  0      -/

namespace RdmaDriver.Schemes

/-- A byte at every address. -/
abbrev Memory := ℕ → BitVec 8

/-- Bit `i` of a memory. -/
def bit (m : Memory) (i : ℕ) : Bool := (m (i / 8)).toNat.testBit (7 - i % 8)

/-- The big-endian number of `n` bytes at address `a`. -/
def beRead (m : Memory) (a : ℕ) : ℕ → ℕ
  | 0 => 0
  | n + 1 => 2 ^ 8 * beRead m a n + (m (a + n)).toNat

/-- The number `v` written to the `n` bytes at address `a`, as far as they hold it. -/
def beWrite (m : Memory) (a n v : ℕ) (x : ℕ) : BitVec 8 :=
  if a ≤ x ∧ x < a + n then BitVec.ofNat 8 (v >>> (8 * (a + n - 1 - x))) else m x

/-- `n` bytes of `m'` at `b`, copied to address `a`. -/
def copyBytes (m : Memory) (a : ℕ) (m' : Memory) (b n : ℕ) (x : ℕ) : BitVec 8 :=
  if a ≤ x ∧ x < a + n then m' (b + (x - a)) else m x

variable {m m' : Memory} {a b n i k v x : ℕ}

/-- A byte has eight bits. -/
theorem testBit_byte (b : BitVec 8) (hk : 8 ≤ k) : b.toNat.testBit k = false :=
  Nat.testBit_lt_two_pow (b.isLt.trans_le (Nat.pow_le_pow_right Nat.two_pos hk))

theorem bit_byte (m : Memory) (x : ℕ) (hk : k < 8) :
    bit m (8 * x + (7 - k)) = (m x).toNat.testBit k := by
  rw [bit, show (8 * x + (7 - k)) / 8 = x by omega, show 7 - (8 * x + (7 - k)) % 8 = k by omega]

/-- A byte is given by its bits. -/
theorem byte_ext (h : ∀ k < 8, bit m (8 * x + k) = bit m' (8 * x + k)) : m x = m' x := by
  refine BitVec.eq_of_toNat_eq (Nat.eq_of_testBit_eq fun k => ?_)
  rcases Nat.lt_or_ge k 8 with hk | hk
  · rw [← bit_byte m x hk, ← bit_byte m' x hk]
    exact h (7 - k) (by omega)
  · rw [testBit_byte _ hk, testBit_byte _ hk]

/-- READ: the bits of a number, from the right end of its row. -/
theorem testBit_beRead (m : Memory) (a n k : ℕ) :
    (beRead m a n).testBit k = (decide (k < 8 * n) && bit m (8 * (a + n) - 1 - k)) := by
  induction n generalizing k with
  | zero => simp [beRead]
  | succ n ih =>
    rw [beRead, Nat.testBit_two_pow_mul_add _ (m (a + n)).isLt]
    split_ifs with hk
    · rw [← bit_byte m (a + n) hk, show 8 * (a + (n + 1)) - 1 - k = 8 * (a + n) + (7 - k) by omega,
        decide_eq_true (by omega : k < 8 * (n + 1)), Bool.true_and]
    · rw [ih, show 8 * (a + n) - 1 - (k - 8) = 8 * (a + (n + 1)) - 1 - k by omega]
      congr 1
      exact decide_eq_decide.mpr (by omega)

/-- A number depends on its own bytes only. -/
theorem beRead_congr (h : ∀ x, a ≤ x → x < a + n → m x = m' x) : beRead m a n = beRead m' a n := by
  induction n with
  | zero => rfl
  | succ n ih =>
    rw [beRead, beRead, ih fun x h1 h2 => h x h1 (by omega), h (a + n) (by omega) (by omega)]

/-- WRITE: the bits of the row are those of the number, the others stay. -/
theorem bit_beWrite (m : Memory) (a n v i : ℕ) : bit (beWrite m a n v) i =
    if 8 * a ≤ i ∧ i < 8 * (a + n) then v.testBit (8 * (a + n) - 1 - i) else bit m i := by
  unfold bit beWrite
  by_cases hin : 8 * a ≤ i ∧ i < 8 * (a + n)
  · rw [if_pos (by omega), if_pos hin, BitVec.toNat_ofNat, Nat.testBit_mod_two_pow,
      decide_eq_true (by omega : 7 - i % 8 < 8), Bool.true_and, Nat.testBit_shiftRight,
      show 8 * (a + n - 1 - i / 8) + (7 - i % 8) = 8 * (a + n) - 1 - i by omega]
  · rw [if_neg (by omega), if_neg hin]

/-- COPY: the bits of the copy. -/
theorem bit_copyBytes (m : Memory) (a : ℕ) (m' : Memory) (b n i : ℕ) :
    bit (copyBytes m a m' b n) i =
      if 8 * a ≤ i ∧ i < 8 * (a + n) then bit m' (8 * b + (i - 8 * a)) else bit m i := by
  unfold bit copyBytes
  by_cases hin : 8 * a ≤ i ∧ i < 8 * (a + n)
  · rw [if_pos (by omega), if_pos hin, show (8 * b + (i - 8 * a)) / 8 = b + (i / 8 - a) by omega,
      show 7 - (8 * b + (i - 8 * a)) % 8 = 7 - i % 8 by omega]
  · rw [if_neg (by omega), if_neg hin]

/-- A number that is written is read back, as far as its bytes hold it. -/
theorem beRead_beWrite (m : Memory) (a n : ℕ) (hv : v < 2 ^ (8 * n)) :
    beRead (beWrite m a n v) a n = v := by
  refine Nat.eq_of_testBit_eq fun k => ?_
  rw [testBit_beRead]
  rcases Nat.lt_or_ge k (8 * n) with hk | hk
  · rw [decide_eq_true hk, Bool.true_and, bit_beWrite, if_pos (by omega)]
    congr 1
    omega
  · rw [decide_eq_false (by omega), Bool.false_and,
      Nat.testBit_lt_two_pow (hv.trans_le (Nat.pow_le_pow_right Nat.two_pos hk))]

/-- A number that is read and written back is a copy of its bytes. -/
theorem beWrite_beRead (m m' : Memory) (a n x : ℕ) :
    beWrite m a n (beRead m' a n) x = if a ≤ x ∧ x < a + n then m' x else m x := by
  split_ifs with hin
  · refine byte_ext fun k hk => ?_
    rw [bit_beWrite, if_pos (by omega), testBit_beRead, decide_eq_true (by omega), Bool.true_and]
    congr 1
    omega
  · exact if_neg hin

end RdmaDriver.Schemes
