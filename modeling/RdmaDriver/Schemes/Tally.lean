import Mathlib.Data.Nat.Count
import Mathlib.Algebra.BigOperators.Group.Finset.Basic
import Mathlib.Algebra.Order.BigOperators.Group.Finset
import Mathlib.Tactic.Abel

/-! Tallies over the indices below a bound: how many have a property, and how much they hold in all.
    One index changes at a time. -/

namespace RdmaDriver.Schemes
open Finset Function

section Count
variable {p q : ℕ → Prop} [DecidablePred p] [DecidablePred q]

theorem count_congr : ∀ {n : ℕ}, (∀ k < n, p k ↔ q k) → Nat.count p n = Nat.count q n
  | 0, _ => by simp
  | n + 1, h => by
    rw [Nat.count_succ, Nat.count_succ, count_congr fun k hk => h k (Nat.lt_succ_of_lt hk)]
    simp only [h n (Nat.lt_succ_self n)]

/-- One more index has the property. -/
theorem count_insert {i : ℕ} (hp : ¬ p i) (hq : q i) (h : ∀ k, k ≠ i → (p k ↔ q k)) :
    ∀ {n : ℕ}, i < n → Nat.count q n = Nat.count p n + 1
  | n + 1, hi => by
    rw [Nat.count_succ, Nat.count_succ]
    rcases Nat.lt_succ_iff_lt_or_eq.mp hi with hlt | rfl
    · rw [count_insert hp hq h hlt]
      simp only [h n (by omega)]
      omega
    · rw [if_pos hq, if_neg hp, count_congr fun k hk => (h k (by omega)).symm]

end Count

section Sum
variable {f g : ℕ → ℤ} {n i : ℕ}

/-- One index holds more or less. -/
theorem sum_change (hi : i < n) (h : ∀ k, k ≠ i → f k = g k) :
    ∑ k ∈ range n, f k = ∑ k ∈ range n, g k + (f i - g i) := by
  have hf := add_sum_erase (range n) f (mem_range.mpr hi)
  have hg := add_sum_erase (range n) g (mem_range.mpr hi)
  have hrest : ∑ k ∈ (range n).erase i, f k = ∑ k ∈ (range n).erase i, g k :=
    sum_congr rfl fun k hk => h k (ne_of_mem_erase hk)
  omega

/-- Where nothing is held in all, no index holds anything. -/
theorem eq_zero_of_sum (hf : ∀ k, 0 ≤ f k) (h : ∑ k ∈ range n, f k = 0) (hi : i < n) : f i = 0 :=
  (sum_eq_zero_iff_of_nonneg fun k _ => hf k).mp h i (mem_range.mpr hi)

end Sum

section Update
variable {ι β M : Type*} [Fintype ι] [DecidableEq ι] [AddCommMonoid M]

/-- One index takes another value. -/
theorem sum_update (f : β → M) (c : ι → β) (i : ι) (b : β) :
    ∑ k, f (update c i b k) + f (c i) = ∑ k, f (c k) + f b := by
  rw [← add_sum_erase univ (fun k => f (update c i b k)) (mem_univ i),
    ← add_sum_erase univ (fun k => f (c k)) (mem_univ i), update_self]
  have hrest : ∑ k ∈ univ.erase i, f (update c i b k) = ∑ k ∈ univ.erase i, f (c k) :=
    sum_congr rfl fun k hk => by rw [update_of_ne (ne_of_mem_erase hk)]
  rw [hrest]
  abel

end Update

end RdmaDriver.Schemes
