import Mathlib.Data.Nat.Basic

/-! Circular doubly linked lists. The places of a list with `n` elements are `0`, its head, and
    `1, …, n` in the order of the links. A search with a moving cursor starts behind the place where
    the cursor stands, goes round, and ends at the first place that is found; when there is none it
    ends where it started. The head is a place like the others: what is looked for may be found
    there by accident.

        +- 0 ⇄ 1 ⇄ 2 ⇄ … ⇄ n -+
        +----------------------+ -/

namespace RdmaDriver.Schemes

/-- The next place. -/
def ringNext (n i : ℕ) : ℕ := if i = n then 0 else i + 1

/-- The place before. -/
def ringPrev (n i : ℕ) : ℕ := if i = 0 then n else i - 1

/-- The loop of the search, at `pos`; it ends when it is back at `start`. -/
def ringLoop (move : ℕ → ℕ) (found : ℕ → Bool) (start : ℕ) : ℕ → ℕ → ℕ
  | 0, _ => start
  | fuel + 1, pos =>
    if pos = start then start
    else if found pos then pos
    else ringLoop move found start fuel (move pos)

/-- The search in the direction of `move`. A round has `n + 1` places. -/
def ringSearch (n : ℕ) (move : ℕ → ℕ) (found : ℕ → Bool) (start : ℕ) : ℕ :=
  ringLoop move found start (n + 1) (move start)

variable {n start t : ℕ} {found : ℕ → Bool}

theorem ringLoop_next {fuel : ℕ} : ∀ {pos : ℕ}, start < pos → pos ≤ t → t ≤ n → t - pos < fuel →
    found t = true → (∀ i, pos ≤ i → i < t → found i = false) →
    ringLoop (ringNext n) found start fuel pos = t := by
  induction fuel with
  | zero => intro pos _ _ _ hf; omega
  | succ fuel ih =>
    intro pos hs hp ht hf hit hmiss
    unfold ringLoop
    rw [if_neg (by omega)]
    rcases Nat.eq_or_lt_of_le hp with rfl | hlt
    · rw [if_pos hit]
    · rw [if_neg (by simp [hmiss pos le_rfl hlt])]
      have hnext : ringNext n pos = pos + 1 := if_neg (by omega)
      rw [hnext]
      exact ih (by omega) hlt ht (by omega) hit fun i h₁ h₂ => hmiss i (by omega) h₂

/-- Forward to a place further on. -/
theorem ringSearch_next (hs : start < t) (ht : t ≤ n) (hit : found t = true)
    (hmiss : ∀ i, start < i → i < t → found i = false) :
    ringSearch n (ringNext n) found start = t := by
  have hnext : ringNext n start = start + 1 := if_neg (by omega)
  unfold ringSearch
  rw [hnext]
  exact ringLoop_next (by omega) hs ht (by omega) hit fun i h₁ h₂ => hmiss i h₁ h₂

theorem ringLoop_prev {fuel : ℕ} : ∀ {pos : ℕ}, pos < start → t ≤ pos → pos - t < fuel →
    found t = true → (∀ i, t < i → i ≤ pos → found i = false) →
    ringLoop (ringPrev n) found start fuel pos = t := by
  induction fuel with
  | zero => intro pos _ _ hf; omega
  | succ fuel ih =>
    intro pos hs hp hf hit hmiss
    unfold ringLoop
    rw [if_neg (by omega)]
    rcases Nat.eq_or_lt_of_le hp with rfl | hlt
    · rw [if_pos hit]
    · rw [if_neg (by simp [hmiss pos hlt le_rfl])]
      have hprev : ringPrev n pos = pos - 1 := if_neg (by omega)
      exact ih (by omega) (by omega) (by omega) hit fun i h₁ h₂ => hmiss i h₁ (by omega)

/-- Backward to a place that lies before. -/
theorem ringSearch_prev (ht : t < start) (hs : start ≤ n) (hit : found t = true)
    (hmiss : ∀ i, t < i → i < start → found i = false) :
    ringSearch n (ringPrev n) found start = t := by
  have hprev : ringPrev n start = start - 1 := if_neg (by omega)
  unfold ringSearch
  rw [hprev]
  exact ringLoop_prev (by omega) (by omega) (by omega) hit fun i h₁ h₂ => hmiss i h₁ (by omega)

/-- The search ends where it started or at a place that is found. -/
theorem ringSearch_or (move : ℕ → ℕ) :
    ringSearch n move found start = start ∨ found (ringSearch n move found start) = true := by
  unfold ringSearch
  generalize n + 1 = fuel
  generalize move start = pos
  induction fuel generalizing pos with
  | zero => exact .inl rfl
  | succ fuel ih =>
    unfold ringLoop
    split_ifs with h hit
    · exact .inl rfl
    · exact .inr hit
    · exact ih (move pos)

end RdmaDriver.Schemes
