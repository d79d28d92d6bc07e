import Mathlib.Data.List.Basic
import Mathlib.Algebra.Order.Group.Nat

/-! Scattered memory. A buffer is a list of segments, each a contiguous range of addresses; the byte
    at offset `j` of the buffer lies in the segment that the lengths before it lead to.

        offset   0 ┄┄┄┄ len₀ ┄┄┄┄ len₀+len₁ ┄┄┄
        address  [addr₀ …)   [addr₁ …)   [addr₂ … -/

namespace RdmaDriver.Schemes

/-- One contiguous range of addresses. -/
structure Seg where
  addr : ℕ
  len : ℕ
  deriving DecidableEq

/-- The number of bytes of a segment list. -/
def total : List Seg → ℕ
  | [] => 0
  | s :: r => s.len + total r

/-- The address of byte `j` of the buffer. -/
def byteAt : List Seg → ℕ → Option ℕ
  | [], _ => none
  | s :: r, j => if j < s.len then some (s.addr + j) else byteAt r (j - s.len)

variable {s : Seg} {r l l' : List Seg} {j : ℕ}

@[simp] theorem total_nil : total [] = 0 := rfl

@[simp] theorem total_cons : total (s :: r) = s.len + total r := rfl

/-- A byte of the first segment. -/
theorem byteAt_of_lt (h : j < s.len) : byteAt (s :: r) j = some (s.addr + j) := if_pos h

/-- A byte behind the first segment. -/
theorem byteAt_of_le (h : s.len ≤ j) : byteAt (s :: r) j = byteAt r (j - s.len) :=
  if_neg (Nat.not_lt.mpr h)

/-- The length of a list of bounded segments. -/
theorem total_le {m : ℕ} : ∀ {l : List Seg}, (∀ s ∈ l, s.len ≤ m) → total l ≤ l.length * m
  | [], _ => by simp
  | s :: r, h => by
      have hs := h s (List.mem_cons_self ..)
      have hr := total_le fun t ht => h t (List.mem_cons_of_mem _ ht)
      simp only [total_cons, List.length_cons, Nat.add_mul]
      omega

theorem total_append : total (l ++ l') = total l + total l' := by
  induction l with
  | nil => simp
  | cons s l ih => simp [ih, Nat.add_assoc]

/-- A byte of the first of two lists. -/
theorem byteAt_append_left (h : j < total l) : byteAt (l ++ l') j = byteAt l j := by
  induction l generalizing j with
  | nil => simp at h
  | cons s l ih =>
    rcases Nat.lt_or_ge j s.len with hj | hj
    · rw [List.cons_append, byteAt_of_lt hj, byteAt_of_lt hj]
    · rw [List.cons_append, byteAt_of_le hj, byteAt_of_le hj, ih]
      rw [total_cons] at h
      omega

/-- A byte of the second of two lists. -/
theorem byteAt_append_right (h : total l ≤ j) : byteAt (l ++ l') j = byteAt l' (j - total l) := by
  induction l generalizing j with
  | nil => simp
  | cons s l ih =>
    rw [total_cons] at h
    rw [List.cons_append, byteAt_of_le (by omega), ih (by omega), total_cons, Nat.sub_sub]

/-- The bytes of the first part of a segment. -/
theorem byteAt_cut {n : ℕ} (hn : n ≤ s.len) (h : j < total l + n) :
    byteAt (l ++ s :: r) j = byteAt (l ++ [⟨s.addr, n⟩]) j := by
  rcases Nat.lt_or_ge j (total l) with hold | hnew
  · rw [byteAt_append_left hold, byteAt_append_left hold]
  · rw [byteAt_append_right hnew, byteAt_append_right hnew, byteAt_of_lt (by omega),
      byteAt_of_lt (by simp only; omega)]

theorem byteAt_ne_none (h : j < total l) : byteAt l j ≠ none := by
  induction l generalizing j with
  | nil => simp at h
  | cons s l ih =>
    rcases Nat.lt_or_ge j s.len with hj | hj
    · rw [byteAt_of_lt hj]
      exact Option.some_ne_none _
    · rw [byteAt_of_le hj]
      rw [total_cons] at h
      exact ih (by omega)

/-- The list without its first `off` bytes, all of which lie in the first segment. -/
def skip (off : ℕ) : List Seg → List Seg
  | [] => []
  | s :: r => ⟨s.addr + off, s.len - off⟩ :: r

theorem byteAt_skip {off : ℕ} (h : ∀ s ∈ l.head?, off < s.len) :
    byteAt (skip off l) j = byteAt l (off + j) := by
  cases l with
  | nil => rfl
  | cons s l =>
    have hoff := h s rfl
    rcases Nat.lt_or_ge j (s.len - off) with hj | hj
    · rw [skip, byteAt_of_lt hj, byteAt_of_lt (by omega), Nat.add_assoc]
    · rw [skip, byteAt_of_le hj, byteAt_of_le (by omega)]
      congr 1
      simp only
      omega

@[simp] theorem skip_zero : skip 0 l = l := by
  cases l <;> rfl

end RdmaDriver.Schemes
