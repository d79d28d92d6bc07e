import Mathlib.Data.Nat.ModEq
import Mathlib.Tactic.Common

/-! A count that only grows is read modulo `w`. Its user gets the differences of the readings, one
    after the other; together they never exceed what was counted since the user came:

        base ······ last ······ cache ······ top
              given        next        unread                                           -/

namespace RdmaDriver.Schemes

/-- `cache` and `last` are readings of the count since `base`, and `given` was told about of what
    was there at `last`. The count is at `top`. -/
def Meter (w base top given cache last : ℕ) : Prop :=
  ∃ S L, cache = S % w ∧ last = L % w ∧ base + given ≤ L ∧ L ≤ S ∧ S ≤ top

variable {w base top top' given cache last : ℕ}

/-- A difference of readings is at most the difference of the counts. -/
theorem delta_le {S L : ℕ} (hw : 0 < w) (h : L ≤ S) : (S % w + w - L % w) % w ≤ S - L := by
  obtain ⟨d, rfl⟩ := Nat.exists_eq_add_of_le h
  have hL := Nat.mod_lt L hw
  have hd := Nat.mod_lt d hw
  have hle := Nat.mod_le d w
  rw [Nat.add_sub_cancel_left, Nat.add_mod]
  rcases Nat.lt_or_ge (L % w + d % w) w with hlt | hge
  · rw [Nat.mod_eq_of_lt hlt, show L % w + d % w + w - L % w = d % w + w by omega,
      Nat.add_mod_right, Nat.mod_mod]
    exact hle
  · rw [Nat.mod_eq_sub_mod hge, Nat.mod_eq_of_lt (by omega : L % w + d % w - w < w),
      show L % w + d % w - w + w - L % w = d % w by omega, Nat.mod_mod]
    exact hle

/-- A user comes, and the reading is up to date. -/
theorem Meter.start (h : cache = top % w) : Meter w top top 0 cache cache :=
  ⟨top, top, h, h, le_rfl, le_rfl, le_rfl⟩

/-- The count goes on. -/
theorem Meter.mono (m : Meter w base top given cache last) (h : top ≤ top') :
    Meter w base top' given cache last := by
  obtain ⟨S, L, hc, hl, hg, hls, hst⟩ := m
  exact ⟨S, L, hc, hl, hg, hls, hst.trans h⟩

/-- The count is read. -/
theorem Meter.update (m : Meter w base top given cache last) :
    Meter w base top given (top % w) last := by
  obtain ⟨S, L, -, hl, hg, hls, hst⟩ := m
  exact ⟨top, L, rfl, hl, hg, hls.trans hst, le_rfl⟩

/-- The user is told. -/
theorem Meter.tell (hw : 0 < w) (m : Meter w base top given cache last) :
    Meter w base top (given + (cache + w - last) % w) cache cache := by
  obtain ⟨S, L, rfl, rfl, hg, hls, hst⟩ := m
  have hd := delta_le hw hls
  exact ⟨S, S, rfl, rfl, by omega, le_rfl, hst⟩

theorem Meter.le (m : Meter w base top given cache last) : base + given ≤ top := by
  obtain ⟨S, L, -, -, hg, hls, hst⟩ := m
  omega

end RdmaDriver.Schemes
