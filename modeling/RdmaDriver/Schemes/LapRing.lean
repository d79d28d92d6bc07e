import Mathlib.Data.Nat.ModEq
import Mathlib.Logic.Function.Basic

/-! Rings read lap by lap. The slots are reused without being cleared: the writer marks every entry
    with the parity of the lap in which it is written, and the reader takes a slot only if the mark
    is that of its own lap. What was left there a lap ago does not pass for a new entry.

        lap 0:  a₀⁰ a₁⁰ a₂⁰ a₃⁰        c = 2, p = 5 of 4 slots:
        lap 1:  a₄¹                    a₄¹ a₁⁰ a₂⁰ a₃⁰, and slot 1 is not yet an a₅ -/

namespace RdmaDriver.Schemes
open Function

variable {α : Type*} {n c p : ℕ} {cell : ℕ → Option (ℕ × α)} {item item' : ℕ → α}

/-- The mark of the lap that index `i` lies in. -/
def lap (n i : ℕ) : ℕ := i / n % 2

/-- What a reader finds at index `i`. -/
def lapRead (n : ℕ) (cell : ℕ → Option (ℕ × α)) (i : ℕ) : Option α :=
  (cell (i % n)).bind fun x => if x.1 = lap n i then some x.2 else none

/-- The entries from `c` to `p` are in the ring, and no slot passes for a later one. -/
structure LapRing (n : ℕ) (cell : ℕ → Option (ℕ × α)) (item : ℕ → α) (c p : ℕ) : Prop where
  le : c ≤ p
  room : p ≤ c + n
  full : ∀ j, c ≤ j → j < p → cell (j % n) = some (lap n j, item j)
  empty : ∀ j, p ≤ j → j < c + n → ∀ a, cell (j % n) ≠ some (lap n j, a)

/-- Two indices less than a lap apart have different slots. -/
theorem mod_ne_mod {j k : ℕ} (h : j < k) (hk : k < j + n) : j % n ≠ k % n := by
  intro he
  have hdvd : n ∣ k - j := (Nat.modEq_iff_dvd' h.le).1 he
  exact absurd (Nat.le_of_dvd (by omega) hdvd) (by omega)

/-- A lap later the mark is the other one. -/
theorem lap_add (hn : 0 < n) (i : ℕ) : lap n (i + n) ≠ lap n i := by
  simp only [lap, Nat.add_div_right i hn]
  omega

/-- A ring of cleared slots holds nothing. -/
theorem LapRing.start (h : ∀ i < n, cell i = none) : LapRing n cell item 0 0 where
  le := le_rfl
  room := Nat.zero_le _
  full := by omega
  empty j _ hj a := by rw [h _ (Nat.mod_lt _ (by omega))]; exact nofun

/-- READ: the reader finds the next entry if there is one, and nothing otherwise. -/
theorem LapRing.read (h : LapRing n cell item c p) (hn : 0 < n) :
    lapRead n cell c = if c < p then some (item c) else none := by
  unfold lapRead
  split
  · next hlt => simp [h.full c le_rfl hlt]
  · next hge =>
    have hne := h.empty c (by omega) (by omega)
    cases hc : cell (c % n) with
    | none => rfl
    | some x =>
      have : x.1 ≠ lap n c := fun he => hne x.2 (by rw [hc, ← he])
      simp [this]

/-- WRITE: the next entry goes into a slot whose entry was read. -/
theorem LapRing.write (h : LapRing n cell item c p) (hp : p < c + n)
    (hi : ∀ j, c ≤ j → j < p → item' j = item j) :
    LapRing n (update cell (p % n) (some (lap n p, item' p))) item' c (p + 1) where
  le := Nat.le_succ_of_le h.le
  room := hp
  full j hc hj := by
    rcases Nat.lt_succ_iff_lt_or_eq.1 hj with hj | rfl
    · have hne : j % n ≠ p % n := mod_ne_mod hj (by omega)
      rw [update_of_ne hne, h.full j hc hj, hi j hc hj]
    · rw [update_self]
  empty j hj hc a := by
    have hne : j % n ≠ p % n := (mod_ne_mod (by omega) (by have := h.le; omega)).symm
    rw [update_of_ne hne]
    exact h.empty j (by omega) hc a

/-- CONSUME: the slot just read does not pass for the entry a lap later. -/
theorem LapRing.consume (h : LapRing n cell item c p) (hc : c < p) :
    LapRing n cell item (c + 1) p where
  le := hc
  room := by have := h.room; omega
  full j hj hp := h.full j (by omega) hp
  empty j hp hj a := by
    rcases Nat.lt_or_ge j (c + n) with hlt | hge
    · exact h.empty j hp hlt a
    · obtain rfl : j = c + n := by omega
      rw [Nat.add_mod_right, h.full c le_rfl hc]
      intro he
      have : lap n c = lap n (c + n) := congrArg Prod.fst (Option.some.inj he)
      exact lap_add (by omega) c this.symm

end RdmaDriver.Schemes
