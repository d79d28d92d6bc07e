import Mathlib.Data.List.Basic

/-! Tables written piece by piece. A tile carries values for a range of entries; tiles that follow
one another without a hole write a window of the table, every entry of it once. `Good i v` says
that entry `i` may get the value `v`.

        lo                                hi
        +- tile -+- tile -+---- tile -----+  -/

namespace RdmaDriver.Schemes

/-- Values for `count` entries from `first` on. -/
structure Tile (α : Type*) where
  first : ℕ
  count : ℕ
  val : ℕ → α

variable {α : Type*} {Good Good' : ℕ → α → Prop} {lo mid hi i k : ℕ} {t : Tile α}
  {ts : List (Tile α)} {table : ℕ → α}

/-- The table after a tile is written. -/
def Tile.write (table : ℕ → α) (t : Tile α) (i : ℕ) : α :=
  if t.first ≤ i ∧ i < t.first + t.count then t.val (i - t.first) else table i

/-- The tiles lie side by side from `lo` up to `hi` and carry good values. -/
def Tiles (Good : ℕ → α → Prop) : ℕ → ℕ → List (Tile α) → Prop
  | lo, hi, [] => lo = hi
  | lo, hi, t :: ts =>
    t.first = lo ∧ (∀ k < t.count, Good (lo + k) (t.val k)) ∧ Tiles Good (lo + t.count) hi ts

theorem Tiles.nil : Tiles Good lo lo [] := rfl

theorem tiles_cons : Tiles Good lo hi (t :: ts) ↔ t.first = lo ∧
    (∀ k < t.count, Good (lo + k) (t.val k)) ∧ Tiles Good (lo + t.count) hi ts := Iff.rfl

theorem Tiles.le (h : Tiles Good lo hi ts) : lo ≤ hi := by
  induction ts generalizing lo with
  | nil => exact Nat.le_of_eq h
  | cons t ts ih =>
    obtain ⟨-, -, h⟩ := tiles_cons.mp h
    have := ih h
    omega

theorem Tiles.imp (h : Tiles Good lo hi ts) (hG : ∀ i v, i < hi → Good i v → Good' i v) :
    Tiles Good' lo hi ts := by
  induction ts generalizing lo with
  | nil => exact h
  | cons t ts ih =>
    obtain ⟨hfirst, hval, h⟩ := tiles_cons.mp h
    have hle := h.le
    exact ⟨hfirst, fun k hk => hG _ _ (by omega) (hval k hk), ih h⟩

/-- SNOC: one more tile at the end. -/
theorem Tiles.snoc (h : Tiles Good lo mid ts) (hfirst : t.first = mid)
    (hval : ∀ k < t.count, Good (mid + k) (t.val k)) :
    Tiles Good lo (mid + t.count) (ts ++ [t]) := by
  induction ts generalizing lo with
  | nil =>
    obtain rfl : lo = mid := h
    exact ⟨hfirst, hval, rfl⟩
  | cons s ts ih =>
    obtain ⟨h1, h2, h3⟩ := tiles_cons.mp h
    exact ⟨h1, h2, ih h3⟩

section
variable (h : Tiles Good lo hi ts)
include h

/-- Every tile lies in the window and carries good values. -/
theorem Tiles.mem (ht : t ∈ ts) :
    lo ≤ t.first ∧ t.first + t.count ≤ hi ∧ ∀ k < t.count, Good (t.first + k) (t.val k) := by
  induction ts generalizing lo with
  | nil => exact absurd ht List.not_mem_nil
  | cons s ts ih =>
    obtain ⟨hfirst, hval, h⟩ := tiles_cons.mp h
    have hle := h.le
    rcases List.mem_cons.mp ht with rfl | ht
    · exact ⟨by omega, by omega, fun k hk => by rw [hfirst]; exact hval k hk⟩
    · obtain ⟨h1, h2, h3⟩ := ih h ht
      exact ⟨by omega, h2, h3⟩

/-- No two tiles overlap. -/
theorem Tiles.disjoint : ts.Pairwise fun t t' => t.first + t.count ≤ t'.first := by
  induction ts generalizing lo with
  | nil => exact .nil
  | cons s ts ih =>
    obtain ⟨hfirst, -, h⟩ := tiles_cons.mp h
    refine List.pairwise_cons.mpr ⟨fun t ht => ?_, ih h⟩
    have := (h.mem ht).1
    omega

/-- Every entry of the window lies in a tile. -/
theorem Tiles.covers (hlo : lo ≤ i) (hhi : i < hi) :
    ∃ t ∈ ts, t.first ≤ i ∧ i < t.first + t.count := by
  induction ts generalizing lo with
  | nil =>
    obtain rfl : lo = hi := h
    omega
  | cons s ts ih =>
    obtain ⟨hfirst, -, h⟩ := tiles_cons.mp h
    rcases Nat.lt_or_ge i (lo + s.count) with hin | hout
    · exact ⟨s, List.mem_cons_self, by omega, by omega⟩
    · obtain ⟨t, ht, hi⟩ := ih h hout
      exact ⟨t, List.mem_cons_of_mem _ ht, hi⟩

/-- WRITTEN: the entries of the window get good values, the others keep theirs. -/
theorem Tiles.written (i : ℕ) : (lo ≤ i → i < hi → Good i (ts.foldl Tile.write table i)) ∧
      (i < lo ∨ hi ≤ i → ts.foldl Tile.write table i = table i) := by
  induction ts generalizing lo table with
  | nil =>
    obtain rfl : lo = hi := h
    exact ⟨fun h1 h2 => absurd h2 (by omega), fun _ => rfl⟩
  | cons s ts ih =>
    obtain ⟨hfirst, hval, h⟩ := tiles_cons.mp h
    obtain ⟨hin, hout⟩ := @ih _ (Tile.write table s) h
    have hle := h.le
    refine ⟨fun h1 h2 => ?_, fun hi' => ?_⟩
    · rcases Nat.lt_or_ge i (lo + s.count) with hlt | hge
      · rw [List.foldl_cons, hout (.inl hlt), Tile.write, if_pos (by omega)]
        have hgood := hval (i - lo) (by omega)
        rwa [show lo + (i - lo) = i by omega, ← hfirst] at hgood
      · exact hin hge h2
    · rw [List.foldl_cons, hout (by omega), Tile.write, if_neg (by omega)]

end

end RdmaDriver.Schemes
