import Mathlib.Data.List.GetD
import Mathlib.Data.List.Range

/-! Byte-addressed memories: a memory gives a byte at every address, a slice is the bytes of an
    interval in order, and a write replaces the bytes of an interval and nothing else.

        slice m a (i + j) = slice m a i ++ slice m (a + i) j -/

namespace RdmaDriver.Schemes

variable {m : ℕ → ℕ} {a n : ℕ}

/-- The `n` bytes from address `a` on. -/
def slice (m : ℕ → ℕ) (a n : ℕ) : List ℕ := (List.range n).map fun i => m (a + i)

/-- The memory with the bytes `l` written from address `a` on. -/
def writeAt (m : ℕ → ℕ) (a : ℕ) (l : List ℕ) (x : ℕ) : ℕ :=
  if a ≤ x ∧ x < a + l.length then l.getD (x - a) 0 else m x

@[simp] theorem length_slice (m : ℕ → ℕ) (a n : ℕ) : (slice m a n).length = n := by simp [slice]

/-- COPY: a slice of another memory is written. -/
theorem writeAt_slice (m m' : ℕ → ℕ) (a p n x : ℕ) :
    writeAt m a (slice m' p n) x = if a ≤ x ∧ x < a + n then m' (p + (x - a)) else m x := by
  simp only [writeAt, length_slice]
  split_ifs with h
  · have hlt : x - a < n := by omega
    simp [slice, hlt]
  · rfl

end RdmaDriver.Schemes
