import Mathlib.Data.List.Basic
import Mathlib.Data.List.Perm.Basic

/-! Insertion into a list that is sorted by a key: behind everything with a key that is not larger. -/

namespace RdmaDriver.Schemes

variable {α : Type*} {key : α → ℕ} {x : α} {l : List α}

/-- The insertion: in front of the first element with a larger key. -/
def insertByKey (key : α → ℕ) (x : α) (l : List α) : List α :=
  (l.takeWhile fun y => key y ≤ key x) ++ x :: l.dropWhile fun y => key y ≤ key x

theorem insertByKey_perm (key : α → ℕ) (x : α) (l : List α) : (insertByKey key x l).Perm (x :: l) := by
  unfold insertByKey
  refine List.perm_middle.trans ?_
  rw [List.takeWhile_append_dropWhile]

@[simp] theorem mem_insertByKey {y : α} : y ∈ insertByKey key x l ↔ y = x ∨ y ∈ l := by
  rw [(insertByKey_perm key x l).mem_iff, List.mem_cons]

theorem insertByKey_cons_le {y : α} (h : key y ≤ key x) :
    insertByKey key x (y :: l) = y :: insertByKey key x l := by
  unfold insertByKey
  rw [List.takeWhile_cons_of_pos (by simpa using h), List.dropWhile_cons_of_pos (by simpa using h)]
  rfl

theorem insertByKey_cons_lt {y : α} (h : key x < key y) :
    insertByKey key x (y :: l) = x :: y :: l := by
  unfold insertByKey
  rw [List.takeWhile_cons_of_neg (by simpa using h), List.dropWhile_cons_of_neg (by simpa using h)]
  rfl

/-- And strictly so, when the key is new. -/
theorem insertByKey_strict (h : l.Pairwise fun y z => key y < key z) (hnew : ∀ y ∈ l, key y ≠ key x) :
    (insertByKey key x l).Pairwise fun y z => key y < key z := by
  induction l with
  | nil => simp [insertByKey]
  | cons y l ih =>
    obtain ⟨hy, hl⟩ := List.pairwise_cons.mp h
    obtain ⟨hne, hnew⟩ := List.forall_mem_cons.mp hnew
    rcases Nat.lt_or_ge (key x) (key y) with hlt | hle
    · rw [insertByKey_cons_lt hlt]
      refine List.pairwise_cons.mpr ⟨fun z hz => ?_, h⟩
      rcases List.mem_cons.mp hz with rfl | hz
      · exact hlt
      · exact Nat.lt_trans hlt (hy z hz)
    · rw [insertByKey_cons_le hle]
      refine List.pairwise_cons.mpr ⟨fun z hz => ?_, ih hl hnew⟩
      rcases mem_insertByKey.mp hz with rfl | hz
      · omega
      · exact hy z hz

end RdmaDriver.Schemes
