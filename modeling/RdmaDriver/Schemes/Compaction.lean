import Mathlib.Data.List.Range
import Mathlib.Logic.Function.Basic
import Mathlib.Tactic.Common

/-! Compaction in place, from the end of a row: entries that are to go are counted, the others move
    up by the number of those above them. A move may leave a mark in the place it goes to; only the
    key of the entry travels.

        row      a  ✗  b  ✗  c          swept from the right
        after    a  ✗  a  b  c          keys from 2 on: a b c, the marks stay where they were -/

namespace RdmaDriver.Schemes
open Function

variable {α κ μ : Type*}

/-- A row and the entries that were removed from it, the last one first. -/
structure Sweep (α : Type*) where
  cell : ℕ → α
  removed : List α

/-- One entry of the sweep: it is removed, or moved up by the number of removed ones. -/
def sweepStep (gone : α → Bool) (move : α → α → α) (s : Sweep α) (i : ℕ) : Sweep α :=
  if gone (s.cell i) then { s with removed := s.removed ++ [s.cell i] }
  else if s.removed.length ≠ 0 then
    let dest := i + s.removed.length
    { s with cell := update s.cell dest (move (s.cell dest) (s.cell i)) }
  else s

/-- The entries from `i` up to `k`. -/
def window (cell : ℕ → α) (i k : ℕ) : List α := (List.range' i (k - i)).map cell

theorem window_cons {cell : ℕ → α} {i k : ℕ} (h : i < k) :
    window cell i k = cell i :: window cell (i + 1) k := by
  rw [window, show k - i = k - (i + 1) + 1 by omega, List.range'_succ, List.map_cons, window]

theorem window_self (cell : ℕ → α) (i : ℕ) : window cell i i = [] := by simp [window]

theorem window_congr {cell cell' : ℕ → α} {i k : ℕ} (h : ∀ j, i ≤ j → j < k → cell' j = cell j) :
    window cell' i k = window cell i k := by
  refine List.map_congr_left fun j hj => h j ?_ ?_
  · exact (List.mem_range'_1.mp hj).1
  · have := List.mem_range'_1.mp hj
    omega

theorem window_zero (f : ℕ → α) (m : ℕ) : window f 0 m = (List.range m).map f := by
  rw [window, Nat.sub_zero, List.range_eq_range']

theorem mem_window {f : ℕ → α} {i k j : ℕ} (hi : i ≤ j) (hk : j < k) : f j ∈ window f i k :=
  List.mem_map.mpr ⟨j, List.mem_range'_1.mpr ⟨hi, by omega⟩, rfl⟩

theorem of_mem_window {f : ℕ → α} {i k : ℕ} {a : α} (h : a ∈ window f i k) :
    ∃ j, i ≤ j ∧ j < k ∧ f j = a := by
  obtain ⟨j, hj, rfl⟩ := List.mem_map.mp h
  have := List.mem_range'_1.mp hj
  exact ⟨j, this.1, by omega, rfl⟩

/-- A window read from another origin. -/
theorem window_shift {f g : ℕ → α} {a k : ℕ} (h : ∀ j < k - a, g j = f (a + j)) :
    window g 0 (k - a) = window f a k := by
  rw [window_zero, window, List.range'_eq_map_range, List.map_map]
  exact List.map_congr_left fun j hj => h j (List.mem_range.mp hj)

/-- SPLIT: a window in two. -/
theorem window_append (f : ℕ → α) {a k m : ℕ} (hak : a ≤ k) (hkm : k ≤ m) :
    window f a m = window f a k ++ window f k m := by
  rw [window, window, window, ← List.map_append]
  congr 1
  have hsplit := @List.range'_append_1 a (k - a) (m - k)
  rw [show a + (k - a) = k by omega, show k - a + (m - k) = m - a by omega] at hsplit
  exact hsplit.symm

/-- INVARIANT: what the sweep has done to the entries from `i` up to `k` of the row `item`. -/
structure Swept (gone : α → Bool) (key : α → κ) (mark : α → μ) (item : ℕ → α) (k i : ℕ)
    (s : Sweep α) : Prop where
  room : i + s.removed.length ≤ k
  removed : s.removed = ((window item i k).filter gone).reverse
  kept : ∀ j < i + s.removed.length, s.cell j = item j
  above : ∀ j, k ≤ j → s.cell j = item j
  marks : ∀ j, mark (s.cell j) = mark (item j)
  keys : (window s.cell (i + s.removed.length) k).map key =
    ((window item i k).filter fun a => !gone a).map key

section Run

variable {gone : α → Bool} {move : α → α → α} {key : α → κ} {mark : α → μ} {item : ℕ → α}
  {k i : ℕ} {s : Sweep α}

theorem Swept.start (item : ℕ → α) (k : ℕ) : Swept gone key mark item k k ⟨item, []⟩ where
  room := le_rfl
  removed := by simp [window_self]
  kept _ _ := rfl
  above _ _ := rfl
  marks _ := rfl
  keys := by simp [window_self]

theorem sweepStep_gone (h : gone (s.cell i) = true) :
    sweepStep gone move s i = ⟨s.cell, s.removed ++ [s.cell i]⟩ := if_pos h

section
variable (hkey : ∀ d a, key (move d a) = key a) (hmark : ∀ d a, mark (move d a) = mark d)
include hkey hmark

/-- An entry that stays is the key of its new place, which is its own if none was removed. -/
theorem sweepStep_stays (h : ¬ gone (s.cell i) = true) :
    ∃ cell, sweepStep gone move s i = ⟨cell, s.removed⟩ ∧
      key (cell (i + s.removed.length)) = key (s.cell i) ∧ (∀ j, mark (cell j) = mark (s.cell j)) ∧
      ∀ j, j ≠ i + s.removed.length → cell j = s.cell j := by
  unfold sweepStep
  rw [if_neg h]
  split_ifs with h0
  · refine ⟨_, rfl, ?_, fun j => ?_, fun j hj => update_of_ne hj _ _⟩
    · rw [update_self, hkey]
    · by_cases hj : j = i + s.removed.length
      · rw [hj, update_self, hmark]
      · rw [update_of_ne hj]
  · refine ⟨s.cell, rfl, ?_, fun _ => rfl, fun _ _ => rfl⟩
    rw [not_not.mp h0, Nat.add_zero]

/-- STEP: one more entry. -/
theorem Swept.step (h : Swept gone key mark item k (i + 1) s) :
    Swept gone key mark item k i (sweepStep gone move s i) := by
  have hroom := h.room
  have hi : i < k := by omega
  have hcell : s.cell i = item i := h.kept i (by omega)
  by_cases hgone : gone (s.cell i) = true
  · have hnext : i + (s.removed ++ [s.cell i]).length = i + 1 + s.removed.length := by
      rw [List.length_append, List.length_singleton]
      omega
    rw [sweepStep_gone hgone]
    rw [hcell] at hgone
    constructor
    · exact hnext.le.trans hroom
    · rw [window_cons hi, List.filter_cons_of_pos hgone, List.reverse_cons, ← h.removed, hcell]
    · exact fun j hj => h.kept j (hj.trans_eq hnext)
    · exact h.above
    · exact h.marks
    · rw [window_cons hi, List.filter_cons_of_neg (by simp [hgone]), ← h.keys]
      exact congrArg (fun a => (window s.cell a k).map key) hnext
  · obtain ⟨cell, hsweep, hself, hmarks, hother⟩ := sweepStep_stays hkey hmark hgone
    rw [hsweep]
    rw [hcell] at hgone hself
    have hlt : i + s.removed.length < k := by omega
    constructor
    · exact hlt.le
    · rw [window_cons hi, List.filter_cons_of_neg hgone]
      exact h.removed
    · intro j (hj : j < i + s.removed.length)
      exact (hother j hj.ne).trans (h.kept j (by omega))
    · intro j hj
      exact (hother j (by omega)).trans (h.above j hj)
    · exact fun j => (hmarks j).trans (h.marks j)
    · have hrest : window cell (i + s.removed.length + 1) k =
          window s.cell (i + 1 + s.removed.length) k := by
        rw [show i + 1 + s.removed.length = i + s.removed.length + 1 by omega]
        exact window_congr fun j hj _ => hother j (by omega)
      rw [window_cons hi, List.filter_cons_of_pos (by simp [hgone]), window_cons hlt, hrest,
        List.map_cons, List.map_cons, h.keys, hself]

end

end Run

end RdmaDriver.Schemes
