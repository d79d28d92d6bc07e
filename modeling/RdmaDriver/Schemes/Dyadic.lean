import Mathlib.Algebra.BigOperators.Group.Finset.Basic
import Mathlib.Algebra.Order.BigOperators.Group.Finset
import Mathlib.Data.Nat.Bitwise
import Mathlib.Order.Interval.Finset.Nat

/-! Blocks of a power of two of units. Block `s` of order `o` has the units `u` with `u / 2 ^ o = s`;
    its buddy is block `s ^^^ 1`, and both make up block `s / 2` of the next order. A family of sets
    of blocks is given by a bitmap for each order. At a unit there is one candidate of each order, so
    that the blocks over a unit can be counted order by order.

        order 2   +------ 0 ------+
        order 1   +-- 0 --+-- 1 --+
        order 0   + 0 + 1 + 2 + 3 + -/

namespace RdmaDriver.Schemes
open Function
open Finset (range)

/-- 1 for a unit of the block, 0 for any other. -/
def inBlock (o s u : ℕ) : ℕ := if u / 2 ^ o = s then 1 else 0

/-- One bit of the bitmaps. -/
def setBit (bits : ℕ → ℕ → Bool) (o s : ℕ) (v : Bool) : ℕ → ℕ → Bool :=
  update bits o (update (bits o) s v)

/-- How many blocks of the bitmaps up to order `m` lie over a unit. -/
def blocksAt (m : ℕ) (bits : ℕ → ℕ → Bool) (u : ℕ) : ℕ :=
  ∑ o ∈ range (m + 1), if bits o (u / 2 ^ o) then 1 else 0

/-- How many of the first `n` bits of a bitmap are set. -/
def setBits (f : ℕ → Bool) (n : ℕ) : ℕ := ((range n).filter fun s => f s = true).card

variable {m o s u : ℕ} {bits : ℕ → ℕ → Bool}

theorem setBit_same (bits : ℕ → ℕ → Bool) (o s : ℕ) (v : Bool) : setBit bits o s v o s = v := by
  simp [setBit]

theorem setBit_ne {o' s' : ℕ} (v : Bool) (h : ¬ (o' = o ∧ s' = s)) :
    setBit bits o s v o' s' = bits o' s' := by
  unfold setBit
  by_cases ho : o' = o
  · subst ho
    rw [update_self, update_of_ne fun hs => h ⟨rfl, hs⟩]
  · rw [update_of_ne ho]

theorem setBit_order {o' : ℕ} (v : Bool) (h : o' ≠ o) : setBit bits o s v o' = bits o' :=
  update_of_ne h _ _

theorem xor_one_even (k : ℕ) : (2 * k) ^^^ 1 = 2 * k + 1 := by
  refine Nat.eq_of_testBit_eq fun i => ?_
  cases i with
  | zero => simp
  | succ i => simp

theorem xor_one_odd (k : ℕ) : (2 * k + 1) ^^^ 1 = 2 * k := by
  rw [← xor_one_even, Nat.xor_assoc, Nat.xor_self, Nat.xor_zero]

theorem xor_one_div (s : ℕ) : (s ^^^ 1) / 2 = s / 2 := by
  rcases Nat.even_or_odd' s with ⟨k, rfl | rfl⟩
  · rw [xor_one_even]
    omega
  · rw [xor_one_odd]
    omega

theorem xor_one_xor_one (s : ℕ) : (s ^^^ 1) ^^^ 1 = s := by
  rw [Nat.xor_assoc, Nat.xor_self, Nat.xor_zero]

theorem xor_one_ne (s : ℕ) : s ^^^ 1 ≠ s := by
  rcases Nat.even_or_odd' s with ⟨k, rfl | rfl⟩
  · rw [xor_one_even]
    omega
  · rw [xor_one_odd]
    omega

/-- A block and its buddy are the block of the next order. -/
theorem inBlock_buddies (o s u : ℕ) :
    inBlock (o + 1) (s / 2) u = inBlock o s u + inBlock o (s ^^^ 1) u := by
  unfold inBlock
  rw [Nat.pow_succ, ← Nat.div_div_eq_div_mul]
  rcases Nat.even_or_odd' s with ⟨k, rfl | rfl⟩
  · rw [xor_one_even]
    split_ifs <;> omega
  · rw [xor_one_odd]
    split_ifs <;> omega

/-- A block of order `o` has `2 ^ o` units. -/
theorem sum_inBlock (ho : o ≤ m) (hs : s < 2 ^ (m - o)) :
    ∑ u ∈ range (2 ^ m), inBlock o s u = 2 ^ o := by
  have hle : (s + 1) * 2 ^ o ≤ 2 ^ (m - o) * 2 ^ o := Nat.mul_le_mul_right _ hs
  rw [← Nat.pow_add, Nat.sub_add_cancel ho, Nat.succ_mul] at hle
  have hunits : (range (2 ^ m)).filter (fun u => u / 2 ^ o = s) =
      Finset.Ico (s * 2 ^ o) (s * 2 ^ o + 2 ^ o) := by
    ext u
    rw [Finset.mem_filter, Finset.mem_range, Finset.mem_Ico, Nat.div_eq_iff (Nat.two_pow_pos o)]
    have hpos := Nat.two_pow_pos o
    omega
  unfold inBlock
  rw [← Finset.sum_filter, hunits, ← Finset.card_eq_sum_ones, Nat.card_Ico, Nat.add_sub_cancel_left]

theorem blocksAt_split (ho : o ≤ m) (bits : ℕ → ℕ → Bool) (u : ℕ) :
    blocksAt m bits u = (if bits o (u / 2 ^ o) then 1 else 0) +
      ∑ o' ∈ (range (m + 1)).erase o, if bits o' (u / 2 ^ o') then 1 else 0 :=
  (Finset.add_sum_erase _ _ (Finset.mem_range.mpr (by omega))).symm

theorem blocksAt_rest (v : Bool) (u : ℕ) :
    (∑ o' ∈ (range (m + 1)).erase o, if setBit bits o s v o' (u / 2 ^ o') then 1 else 0) =
      ∑ o' ∈ (range (m + 1)).erase o, if bits o' (u / 2 ^ o') then 1 else 0 := by
  refine Finset.sum_congr rfl fun o' ho' => ?_
  rw [setBit_order v (Finset.ne_of_mem_erase ho')]

/-- A block more. -/
theorem blocksAt_set (ho : o ≤ m) (h : bits o s = false) (u : ℕ) :
    blocksAt m (setBit bits o s true) u = blocksAt m bits u + inBlock o s u := by
  rw [blocksAt_split ho, blocksAt_split ho bits, blocksAt_rest]
  unfold inBlock
  by_cases hu : u / 2 ^ o = s
  · rw [hu, setBit_same, h]
    simp [Nat.add_comm]
  · rw [setBit_ne true fun hc => hu hc.2, if_neg hu]
    rfl

/-- A block less. -/
theorem blocksAt_clear (ho : o ≤ m) (h : bits o s = true) (u : ℕ) :
    blocksAt m (setBit bits o s false) u + inBlock o s u = blocksAt m bits u := by
  rw [blocksAt_split ho, blocksAt_split ho bits, blocksAt_rest]
  unfold inBlock
  by_cases hu : u / 2 ^ o = s
  · rw [hu, setBit_same, h]
    simp [Nat.add_comm]
  · rw [setBit_ne false fun hc => hu hc.2, if_neg hu]
    rfl

/-- A block of the bitmaps is counted over its units. -/
theorem blocksAt_pos (ho : o ≤ m) (h : bits o (u / 2 ^ o) = true) : 1 ≤ blocksAt m bits u := by
  rw [blocksAt_split ho, h, if_pos rfl]
  exact Nat.le_add_right 1 _

theorem exists_of_blocksAt (h : blocksAt m bits u ≠ 0) : ∃ o ≤ m, bits o (u / 2 ^ o) = true := by
  obtain ⟨o, ho, hne⟩ := Finset.exists_ne_zero_of_sum_ne_zero h
  refine ⟨o, Nat.lt_succ_iff.mp (Finset.mem_range.mp ho), ?_⟩
  by_contra hbit
  exact hne (if_neg hbit)

/-- COVERED: when no block and its buddy are both there, a block all of whose units are covered lies
    in one block of the bitmaps. -/
theorem exists_block (hbuddy : ∀ o s, bits o s = true → bits o (s ^^^ 1) = false) :
    ∀ o s, (∀ u, u / 2 ^ o = s → blocksAt m bits u ≠ 0) →
      ∃ k, o + k ≤ m ∧ bits (o + k) (s / 2 ^ k) = true := by
  intro o
  induction o with
  | zero =>
    intro s hcov
    obtain ⟨k, hk, hbit⟩ := exists_of_blocksAt (hcov s (by simp))
    exact ⟨k, by omega, by rwa [Nat.zero_add]⟩
  | succ o ih =>
    intro s hcov
    have hhalf (t : ℕ) (ht : t / 2 = s) : ∃ k, o + k ≤ m ∧ bits (o + k) (t / 2 ^ k) = true := by
      refine ih t fun u hu => hcov u ?_
      rw [Nat.pow_succ, ← Nat.div_div_eq_div_mul, hu, ht]
    have hup (t k : ℕ) (ht : t / 2 = s) (hk : o + (k + 1) ≤ m)
        (hbit : bits (o + (k + 1)) (t / 2 ^ (k + 1)) = true) :
        ∃ k, o + 1 + k ≤ m ∧ bits (o + 1 + k) (s / 2 ^ k) = true := by
      refine ⟨k, by omega, ?_⟩
      rw [Nat.pow_succ, Nat.mul_comm, ← Nat.div_div_eq_div_mul, ht] at hbit
      rwa [Nat.add_right_comm]
    obtain ⟨k₀, hk₀, hbit₀⟩ := hhalf (2 * s) (by omega)
    obtain ⟨k₁, hk₁, hbit₁⟩ := hhalf (2 * s + 1) (by omega)
    rcases k₀ with _ | k₀
    · rcases k₁ with _ | k₁
      · -- both halves as blocks of their own
        have hcon := hbuddy _ _ hbit₀
        rw [Nat.pow_zero, Nat.div_one, xor_one_even] at hcon
        rw [Nat.pow_zero, Nat.div_one] at hbit₁
        rw [hcon] at hbit₁
        cases hbit₁
      · exact hup (2 * s + 1) k₁ (by omega) hk₁ hbit₁
    · exact hup (2 * s) k₀ (by omega) hk₀ hbit₀

theorem setBits_set {f : ℕ → Bool} {n : ℕ} (hs : s < n) (h : f s = false) :
    setBits (update f s true) n = setBits f n + 1 := by
  have hins : (range n).filter (fun i => update f s true i = true) =
      insert s ((range n).filter fun i => f i = true) := by
    ext i
    by_cases hi : i = s
    · subst hi
      simp [hs]
    · simp [hi]
  unfold setBits
  rw [hins, Finset.card_insert_of_notMem (by simp [h])]

theorem setBits_clear {f : ℕ → Bool} {n : ℕ} (hs : s < n) (h : f s = true) :
    setBits (update f s false) n + 1 = setBits f n := by
  rw [← setBits_set hs (update_self s false f), update_idem, ← h, update_eq_self]

theorem setBits_le (f : ℕ → Bool) (n : ℕ) : setBits f n ≤ n :=
  (Finset.card_filter_le _ _).trans (Finset.card_range n).le

theorem setBits_eq_zero {f : ℕ → Bool} {n : ℕ} : setBits f n = 0 ↔ ∀ i < n, f i = false := by
  unfold setBits
  rw [Finset.card_eq_zero, Finset.filter_eq_empty_iff]
  simp

end RdmaDriver.Schemes
