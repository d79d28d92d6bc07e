import Mathlib.Algebra.Order.BigOperators.Group.Multiset

/-! Of a multiset of numbers the least one is taken out, again and again. What is left is the
    largest sum that so many of the numbers have. -/

namespace RdmaDriver.Schemes

/-- No other choice of as many numbers of `g` has a larger sum than `r`. -/
def Best (g r : Multiset ℕ) : Prop := ∀ s ≤ g, s.card = r.card → s.sum ≤ r.sum

theorem Best.refl (g : Multiset ℕ) : Best g g := fun _ hs hc =>
  (congrArg Multiset.sum (Multiset.eq_of_le_of_card_le hs hc.ge)).le

/-- STEP: the least number is not missed while fewer numbers than there are will be left. -/
theorem Best.takeLeast {x : ℕ} {g r : Multiset ℕ} (h : Best g r) (hx : ∀ y ∈ g, x ≤ y)
    (hr : r ≤ g) : Best (x ::ₘ g) r := by
  intro s hs hc
  by_cases hmem : x ∈ s
  · obtain ⟨t, rfl⟩ := Multiset.exists_cons_of_mem hmem
    have ht : t < g := by
      refine lt_of_le_of_ne ((Multiset.cons_le_cons_iff x).mp hs) ?_
      rintro rfl
      have := Multiset.card_le_card hr
      rw [Multiset.card_cons] at hc
      omega
    -- another number stands in for `x`
    obtain ⟨y, hy⟩ := Multiset.lt_iff_cons_le.mp ht
    have hle := h _ hy (by simpa using hc)
    have hxy := hx y (Multiset.mem_of_le hy (Multiset.mem_cons_self y t))
    rw [Multiset.sum_cons] at hle ⊢
    omega
  · exact h s ((Multiset.le_cons_of_notMem hmem).mp hs) hc

end RdmaDriver.Schemes
