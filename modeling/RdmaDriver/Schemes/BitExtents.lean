import Mathlib.Data.List.Basic
import Mathlib.Data.List.Pairwise
import Mathlib.Algebra.Ring.Nat
import Mathlib.Tactic.Common

/-! Extents in a bitmap. An allocator of runs of bits sets the bits of a run that is clear and
    clears them when the run is given back. What is set are then the runs that are out, which never
    meet:

        bits    · ▪ ▪ ▪ · · ▪ · ▪ ▪ ·
        runs      +-x-+     y   +z+

    The finder of clear runs is a parameter with its specification. -/

namespace RdmaDriver.Schemes

/-- A bitmap of `len` bits. -/
structure Bitmap where
  len : ℕ
  bit : ℕ → Bool

namespace Bitmap

/-- No bit is set. -/
def zero (len : ℕ) : Bitmap := ⟨len, fun _ => false⟩

/-- The bits from `i` on, `n` of them, are set. -/
def set (m : Bitmap) (i n : ℕ) : Bitmap :=
  { m with bit := fun k => if i ≤ k ∧ k < i + n then true else m.bit k }

/-- The bits from `i` on, `n` of them, are cleared. -/
def clear (m : Bitmap) (i n : ℕ) : Bitmap :=
  { m with bit := fun k => if i ≤ k ∧ k < i + n then false else m.bit k }

/-- The bits from `i` on, `n` of them, are clear. -/
def Free (m : Bitmap) (i n : ℕ) : Prop := ∀ k, i ≤ k → k < i + n → m.bit k = false

variable {m : Bitmap} {i j n k : ℕ}

theorem set_bit : (m.set i n).bit k = true ↔ (i ≤ k ∧ k < i + n) ∨ m.bit k = true := by
  simp only [set]
  split_ifs with h
  · exact iff_of_true rfl (.inl h)
  · exact ⟨.inr, fun h' => h'.resolve_left h⟩

theorem clear_bit : (m.clear i n).bit k = true ↔ ¬ (i ≤ k ∧ k < i + n) ∧ m.bit k = true := by
  simp only [clear]
  split_ifs with h
  · exact ⟨(fun h' => by cases h'), fun h' => absurd h h'.1⟩
  · exact ⟨fun h' => ⟨h, h'⟩, fun h' => h'.2⟩

/-- A run that was clear is as it was after it was set and cleared. -/
theorem clear_set (h : m.Free i n) : (m.set i n).clear i n = m := by
  obtain ⟨len, bit⟩ := m
  simp only [set, clear, Bitmap.mk.injEq, true_and]
  funext k
  split_ifs with hk
  · exact (h k hk.1 hk.2).symm
  · rfl

end Bitmap

/-- What is documented of `bitmap_find_next_zero_area`: an index below `size` that it returns is
    that of a clear run inside `size`, not before `start`, and a multiple of a power of two `a` when
    `align_mask` is `a - 1`. -/
structure FindsZeroArea (find : Bitmap → ℕ → ℕ → ℕ → ℕ → ℕ) : Prop where
  start : ∀ m size start nr mask, find m size start nr mask < size →
    start ≤ find m size start nr mask
  inside : ∀ m size start nr mask, find m size start nr mask < size →
    find m size start nr mask + nr ≤ size
  free : ∀ m size start nr mask, find m size start nr mask < size →
    m.Free (find m size start nr mask) nr
  aligned : ∀ m size start nr a, find m size start nr (2 ^ a - 1) < size →
    2 ^ a ∣ find m size start nr (2 ^ a - 1)

/-- The first clear run that fits. -/
def findZeroArea (m : Bitmap) (size start nr mask : ℕ) : ℕ :=
  ((List.range size).find? fun i => start ≤ i ∧ i + nr ≤ size ∧ (mask + 1) ∣ i ∧
    (List.range nr).all fun j => !m.bit (i + j)).getD size

theorem findZeroArea_spec {m : Bitmap} {size start nr mask : ℕ}
    (h : findZeroArea m size start nr mask < size) :
    start ≤ findZeroArea m size start nr mask ∧ findZeroArea m size start nr mask + nr ≤ size ∧
      (mask + 1) ∣ findZeroArea m size start nr mask ∧
      m.Free (findZeroArea m size start nr mask) nr := by
  revert h
  rw [findZeroArea]
  rcases hf : (List.range size).find? _ with - | i
  · exact fun h => absurd h (Nat.lt_irrefl size)
  · intro _
    have hi := List.find?_some hf
    simp only [decide_eq_true_eq, List.all_eq_true, List.mem_range, Bool.not_eq_true'] at hi
    refine ⟨hi.1, hi.2.1, hi.2.2.1, fun k hk hk' => ?_⟩
    rw [Option.getD_some] at hk hk'
    have := hi.2.2.2 (k - i) (by omega)
    rwa [Nat.add_sub_cancel' hk] at this

theorem findZeroArea_finds : FindsZeroArea findZeroArea where
  start _ _ _ _ _ h := (findZeroArea_spec h).1
  inside _ _ _ _ _ h := (findZeroArea_spec h).2.1
  free _ _ _ _ _ h := (findZeroArea_spec h).2.2.2
  aligned m size start nr a h := by
    have := (findZeroArea_spec h).2.2.1
    rwa [Nat.sub_add_cancel Nat.one_le_two_pow] at this

/-- Two runs that do not meet. -/
def Separate (x y : ℕ × ℕ) : Prop := x.1 + x.2 ≤ y.1 ∨ y.1 + y.2 ≤ x.1

theorem Separate.symm {x y : ℕ × ℕ} (h : Separate x y) : Separate y x := h.elim .inr .inl

/-- The set bits are those of the runs `xs`, which lie inside and do not meet. -/
structure Tiled (m : Bitmap) (xs : List (ℕ × ℕ)) : Prop where
  bits : ∀ k, m.bit k = true ↔ ∃ x ∈ xs, x.1 ≤ k ∧ k < x.1 + x.2
  apart : xs.Pairwise Separate
  inside : ∀ x ∈ xs, 0 < x.2 ∧ x.1 + x.2 ≤ m.len

variable {m : Bitmap} {xs ys : List (ℕ × ℕ)} {i n : ℕ}

theorem Tiled.zero (len : ℕ) : Tiled (.zero len) [] :=
  ⟨fun _ => ⟨fun h => (by cases h), fun ⟨_, h, _⟩ => absurd h List.not_mem_nil⟩, .nil,
    fun _ h => absurd h List.not_mem_nil⟩

theorem Tiled.perm (h : Tiled m xs) (hp : xs.Perm ys) : Tiled m ys :=
  ⟨fun k => (h.bits k).trans (exists_congr fun _ => and_congr_left fun _ => hp.mem_iff),
    (hp.pairwise_iff Separate.symm).1 h.apart, fun x hx => h.inside x (hp.mem_iff.2 hx)⟩

/-- SET: a clear run goes out. -/
theorem Tiled.set (h : Tiled m xs) (hf : m.Free i n) (hn : 0 < n) (hl : i + n ≤ m.len) :
    Tiled (m.set i n) ((i, n) :: xs) := by
  refine ⟨fun k => ?_, List.pairwise_cons.2 ⟨fun x hx => ?_, h.apart⟩, fun x hx => ?_⟩
  · rw [Bitmap.set_bit, h.bits]
    simp only [List.mem_cons, exists_eq_or_imp]
  · -- a bit of both would be set and clear
    obtain ⟨hpos, -⟩ := h.inside x hx
    by_contra hmeet
    simp only [Separate] at hmeet
    have hset : m.bit (max i x.1) = true := (h.bits _).2 ⟨x, hx, by omega, by omega⟩
    have hclear := hf (max i x.1) (by omega) (by omega)
    rw [hset] at hclear
    cases hclear
  · rcases List.mem_cons.1 hx with rfl | hx
    · exact ⟨hn, hl⟩
    · exact h.inside x hx

/-- CLEAR: a run comes back. -/
theorem Tiled.clear (h : Tiled m ((i, n) :: xs)) : Tiled (m.clear i n) xs := by
  obtain ⟨hap, hrest⟩ := List.pairwise_cons.1 h.apart
  refine ⟨fun k => ?_, hrest, fun x hx => h.inside x (List.mem_cons_of_mem _ hx)⟩
  rw [Bitmap.clear_bit, h.bits]
  simp only [List.mem_cons, exists_eq_or_imp]
  constructor
  · rintro ⟨hno, hin | hx⟩
    · exact absurd hin hno
    · exact hx
  · rintro ⟨x, hx, hk⟩
    refine ⟨fun hin => ?_, .inr ⟨x, hx, hk⟩⟩
    rcases hap x hx with hlt | hlt <;> (dsimp only at hlt; omega)

end RdmaDriver.Schemes
