import Mathlib.Data.List.Nodup
import RdmaDriver.Schemes.Ring

/-! The part of a ring between two indices. The ring has the slots `0, …, n`; the window from `t` to
    `h` has the slots after `t` up to and with `h`, so it is empty when they are the same, and one
    slot of the ring is always outside.

        0  1  2  3  4  5  6      t = 5, h = 1:  the window is 6, 0, 1
        ▪  h           t  ▪ -/

namespace RdmaDriver.Schemes

/-- How many slots lie after `t` up to `h`. -/
def ringDist (n t h : ℕ) : ℕ := if t ≤ h then h - t else h + n + 1 - t

/-- The `i`-th slot after `t`. -/
def ringSlot (n t i : ℕ) : ℕ := if t + 1 + i ≤ n then t + 1 + i else t + i - n

/-- The slots after `t` up to `h`, in the order of the ring. -/
def ringWindow (n t h : ℕ) : List ℕ := (List.range (ringDist n t h)).map (ringSlot n t)

variable {n t h i : ℕ}

theorem ringNext_le (ht : t ≤ n) : ringNext n t ≤ n := by
  unfold ringNext
  split <;> omega

theorem ringDist_le (ht : t ≤ n) (hh : h ≤ n) : ringDist n t h ≤ n := by
  unfold ringDist
  split <;> omega

@[simp] theorem ringWindow_self (n t : ℕ) : ringWindow n t t = [] := by
  simp [ringWindow, ringDist]

section
variable (ht : t ≤ n) (hh : h ≤ n)
include ht hh

/-- The window begins with the slot after `t`. -/
theorem ringWindow_cons (hne : t ≠ h) :
    ringWindow n t h = ringNext n t :: ringWindow n (ringNext n t) h := by
  have hd : ringDist n t h = ringDist n (ringNext n t) h + 1 := by
    unfold ringDist ringNext
    split_ifs <;> omega
  have hslot : ∀ i < ringDist n (ringNext n t) h,
      ringSlot n t (i + 1) = ringSlot n (ringNext n t) i := by
    intro i hi
    have := ringDist_le (ringNext_le ht) hh
    unfold ringSlot ringNext
    split_ifs <;> omega
  unfold ringWindow
  rw [hd, List.range_succ_eq_map, List.map_cons, List.map_map]
  congr 1
  · unfold ringSlot ringNext
    split_ifs <;> omega
  · refine List.map_congr_left fun i hi => ?_
    exact hslot i (List.mem_range.1 hi)

/-- A slot more at the end. -/
theorem ringWindow_next (hne : ringNext n h ≠ t) :
    ringWindow n t (ringNext n h) = ringWindow n t h ++ [ringNext n h] := by
  have hd : ringDist n t (ringNext n h) = ringDist n t h + 1 := by
    unfold ringNext at hne
    unfold ringDist ringNext
    split_ifs at hne ⊢ <;> omega
  have hs : ringSlot n t (ringDist n t h) = ringNext n h := by
    unfold ringSlot ringDist ringNext
    split_ifs at hne ⊢ <;> omega
  unfold ringWindow
  rw [hd, List.range_succ, List.map_append, List.map_singleton, hs]

theorem ringWindow_nodup : (ringWindow n t h).Nodup := by
  refine List.Nodup.map_on (fun i hi j hj he => ?_) List.nodup_range
  have := ringDist_le ht hh
  rw [List.mem_range] at hi hj
  unfold ringSlot at he
  split_ifs at he <;> omega

theorem le_of_mem_ringWindow (hi : i ∈ ringWindow n t h) : i ≤ n := by
  obtain ⟨j, hj, rfl⟩ := List.mem_map.1 hi
  have := ringDist_le ht hh
  rw [List.mem_range] at hj
  unfold ringSlot
  split_ifs <;> omega

/-- The slot after `h` is not in the window if it is not `t`. -/
theorem next_not_mem_ringWindow (hne : ringNext n h ≠ t) : ringNext n h ∉ ringWindow n t h := by
  have hnd := ringWindow_nodup ht (ringNext_le hh)
  rw [ringWindow_next ht hh hne] at hnd
  exact fun hm => (List.nodup_append.1 hnd).2.2 _ hm _ (List.mem_singleton_self _) rfl

end

/-- SPLIT: what lies after a slot of the window is the window from that slot. -/
theorem ringWindow_split (hh : h ≤ n) : ∀ {pre post : List ℕ} {t : ℕ}, t ≤ n →
    ringWindow n t h = pre ++ i :: post → post = ringWindow n i h
  | [], post, t, ht, he => by
    have hne : t ≠ h := by
      rintro rfl
      simp at he
    rw [ringWindow_cons ht hh hne, List.nil_append] at he
    obtain ⟨rfl, rfl⟩ := List.cons.inj he
    rfl
  | p :: pre, post, t, ht, he => by
    have hne : t ≠ h := by
      rintro rfl
      simp at he
    rw [ringWindow_cons ht hh hne, List.cons_append] at he
    exact ringWindow_split hh (ringNext_le ht) (List.cons.inj he).2

end RdmaDriver.Schemes
