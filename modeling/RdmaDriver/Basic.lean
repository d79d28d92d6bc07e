import Mathlib.Data.Nat.Basic
import Mathlib.Algebra.Order.Ring.Int
import Mathlib.Tactic.Linarith

/-! What every part of the driver shares: the error codes its functions return, C integer
    conversions, and the kernel's power-of-two and bitmap helpers. Counters and addresses are natural
    numbers; a conversion to a `w`-bit unsigned type is an explicit reduction modulo `2 ^ w`. -/

namespace RdmaDriver

/-- The negative error codes returned by the modelled functions. -/
inductive Errno where
  | eperm | enoent | eio | e2big | eagain | enomem | efault | eexist | einval | enospc | enosys
  | eopnotsupp | emsgsize | enotconn | ehwpoison
  deriving DecidableEq

/-- Conversion of a C value to an unsigned type of `w` bits. -/
def toU (w : ℕ) (n : ℤ) : ℕ := (n % 2 ^ w).toNat

/-- Conversion of a C value to `int`. -/
def toInt (n : ℤ) : ℤ := (n + 2 ^ 31) % 2 ^ 32 - 2 ^ 31

theorem toU_lt (w : ℕ) (n : ℤ) : toU w n < 2 ^ w := by
  have h : n % 2 ^ w < 2 ^ w := Int.emod_lt_of_pos _ (by positivity)
  have h0 : 0 ≤ n % 2 ^ w := Int.emod_nonneg _ (by positivity)
  unfold toU
  zify
  rw [Int.toNat_of_nonneg h0]
  exact h

theorem toU_of_lt {w n : ℕ} (h : n < 2 ^ w) : toU w n = n := by
  unfold toU
  rw [Int.emod_eq_of_lt (by omega) (by exact_mod_cast h)]
  exact Int.toNat_natCast n

theorem toU_eq_mod (w n : ℕ) : toU w n = n % 2 ^ w := by
  unfold toU
  rw [show (2 : ℤ) ^ w = ((2 ^ w : ℕ) : ℤ) by push_cast; rfl, ← Int.natCast_emod]
  exact Int.toNat_natCast _

theorem toU_sub {w n m : ℕ} (h : n < 2 ^ w) (hm : m ≤ n) : toU w ((n : ℤ) - m) = n - m := by
  rw [← Nat.cast_sub hm]
  exact toU_of_lt (by omega)

theorem toInt_of_lt {n : ℕ} (h : n < 2 ^ 31) : toInt n = n := by
  unfold toInt
  omega

/-- `ALIGN(n, a)` for a power of two `a`. -/
def align (n a : ℕ) : ℕ := (n + a - 1) / a * a

theorem le_align (n : ℕ) {a : ℕ} (ha : 0 < a) : n ≤ align n a := by
  have := Nat.lt_div_mul_add (a := n + a - 1) ha
  unfold align
  omega

theorem dvd_align (n a : ℕ) : a ∣ align n a := Dvd.intro_left _ rfl

/-- `DIV_ROUND_UP(n, d)`. -/
def divRoundUp (n d : ℕ) : ℕ := (n + d - 1) / d

/-- `roundup_pow_of_two(n)`: the smallest power of two that is not below `n`, for `0 < n`. -/
def roundupPowOfTwo (n : ℕ) : ℕ := if n ≤ 1 then 1 else 2 ^ (Nat.log2 (n - 1) + 1)

theorem exists_roundupPowOfTwo (n : ℕ) : ∃ k, roundupPowOfTwo n = 2 ^ k := by
  unfold roundupPowOfTwo
  split
  · exact ⟨0, rfl⟩
  · exact ⟨_, rfl⟩

theorem le_roundupPowOfTwo (n : ℕ) : n ≤ roundupPowOfTwo n := by
  unfold roundupPowOfTwo
  split
  · assumption
  · have h : n - 1 < 2 ^ (Nat.log2 (n - 1) + 1) := Nat.lt_log2_self
    omega

theorem roundupPowOfTwo_le {n k : ℕ} (h : n ≤ 2 ^ k) : roundupPowOfTwo n ≤ 2 ^ k := by
  unfold roundupPowOfTwo
  split
  · exact Nat.one_le_two_pow
  · refine Nat.pow_le_pow_right (by norm_num) ?_
    have hlt : n - 1 < 2 ^ k := by omega
    exact (Nat.log2_lt (by omega)).mpr hlt

/-- `find_first_bit`. -/
def findFirstBit (f : ℕ → Bool) (m : ℕ) : ℕ := ((List.range m).find? f).getD m

theorem findFirstBit_spec {f : ℕ → Bool} {n : ℕ} (h : ∃ i < n, f i = true) :
    findFirstBit f n < n ∧ f (findFirstBit f n) = true := by
  unfold findFirstBit
  rcases hfind : (List.range n).find? f with _ | i
  · obtain ⟨i, hi, hf⟩ := h
    exact absurd hf (List.find?_eq_none.mp hfind i (List.mem_range.mpr hi))
  · exact ⟨List.mem_range.mp (List.mem_of_find?_eq_some hfind), List.find?_some hfind⟩

end RdmaDriver
