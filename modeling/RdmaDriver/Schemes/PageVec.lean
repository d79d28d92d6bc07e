import Mathlib.Data.List.Range
import Mathlib.Data.Nat.ModEq
import Mathlib.Tactic.Ring
import RdmaDriver.Schemes.Segments

/-! Page vectors. A vector of page addresses describes scattered memory if every byte, counted from
    the start of the first page, is found at its place in its page. A segment can be added when it
    starts at the same place of a page at which the bytes before it end.

        pages    [ p₀      ][ p₁      ][ p₂      ]
        bytes        +-- seg₀ -++- seg₁ --+
                 off                              -/

namespace RdmaDriver.Schemes

/-- The address that a page vector gives to the byte at distance `y` from the start of page 0. -/
def pageByte (ps : ℕ) (pv : List ℕ) (y : ℕ) : Option ℕ := pv[y / ps]?.map (· + y % ps)

/-- `n` pages from page number `f` on. -/
def pagesFrom (ps f n : ℕ) : List ℕ := (List.range n).map fun j => (f + j) * ps

/-- The number of pages that reach up to `e`. -/
def pageEnd (ps e : ℕ) : ℕ := (e + ps - 1) / ps

/-- The vector holds the bytes of `segs`, which start `off` bytes into page 0, and no page more. -/
structure Covers (ps off : ℕ) (segs : List Seg) (pv : List ℕ) : Prop where
  bytes : ∀ x < total segs, pageByte ps pv (off + x) = byteAt segs x
  count : segs ≠ [] → pv.length = pageEnd ps (off + total segs)
  aligned : ∀ p ∈ pv, ps ∣ p

variable {ps off e f n a l : ℕ} {segs : List Seg} {pv : List ℕ}

@[simp] theorem pagesFrom_length : (pagesFrom ps f n).length = n := by simp [pagesFrom]

@[simp] theorem pagesFrom_zero : pagesFrom ps f 0 = [] := rfl

theorem pagesFrom_succ : pagesFrom ps f (n + 1) = f * ps :: pagesFrom ps (f + 1) n := by
  simp only [pagesFrom, List.range_succ_eq_map, List.map_cons, List.map_map]
  congr 1
  refine List.map_congr_left fun j _ => ?_
  simp only [Function.comp_apply, Nat.succ_eq_add_one]
  ring

theorem pagesFrom_get {j : ℕ} (h : j < n) : (pagesFrom ps f n)[j]? = some ((f + j) * ps) := by
  simp [pagesFrom, h]

theorem pagesFrom_snoc : pagesFrom ps f (n + 1) = pagesFrom ps f n ++ [(f + n) * ps] := by
  simp [pagesFrom, List.range_succ]

/-- A page starts below `e` exactly if its number is below the page end of `e`. -/
theorem lt_pageEnd_iff (hps : 0 < ps) : f < pageEnd ps e ↔ f * ps < e := by
  rw [pageEnd, Nat.lt_div_iff_mul_lt hps]
  omega

theorem pageEnd_le_iff (hps : 0 < ps) : pageEnd ps e ≤ f ↔ e ≤ f * ps := by
  rw [← not_lt, lt_pageEnd_iff hps, not_lt]

theorem pageEnd_mul (hps : 0 < ps) : pageEnd ps (n * ps) = n := by
  refine Nat.le_antisymm ((pageEnd_le_iff hps).mpr le_rfl) ?_
  exact Nat.le_of_mul_le_mul_right ((pageEnd_le_iff hps).mp le_rfl) hps

/-- Page ends move with whole pages. -/
theorem pageEnd_shift (hps : 0 < ps) {q : ℕ} (hq : q % ps = a % ps) :
    pageEnd ps (q + l) + a / ps = pageEnd ps (a + l) + q / ps := by
  have hqa : pageEnd ps (q + l) = pageEnd ps (q % ps + l) + q / ps := by
    rw [pageEnd, pageEnd, ← Nat.add_mul_div_right _ _ hps]
    congr 1
    have := Nat.div_add_mod' q ps
    omega
  have haa : pageEnd ps (a + l) = pageEnd ps (a % ps + l) + a / ps := by
    rw [pageEnd, pageEnd, ← Nat.add_mul_div_right _ _ hps]
    congr 1
    have := Nat.div_add_mod' a ps
    omega
  rw [hqa, haa, hq]
  omega

/-- More pages do not move the bytes. -/
theorem Covers.bytes_append (h : Covers ps off segs pv) {more : List ℕ} {x : ℕ}
    (hx : x < total segs) : pageByte ps (pv ++ more) (off + x) = byteAt segs x := by
  have hb := h.bytes x hx
  have hidx : (off + x) / ps < pv.length := by
    by_contra hge
    rw [pageByte, List.getElem?_eq_none (not_lt.mp hge), Option.map_none] at hb
    exact absurd hb.symm (byteAt_ne_none hx)
  rw [pageByte, List.getElem?_append_left hidx]
  exact hb

/-- SNOC: a segment that starts where the bytes so far end, seen modulo the page size, is added by
    the pages that are not there yet. -/
theorem Covers.snoc (hps : 0 < ps) (h : Covers ps off segs pv) {q : ℕ} (hq : q = off + total segs)
    (hmod : q % ps = a % ps) (hl : 0 < l)
    (hlast : pv.length = q / ps ∨ pv.length = q / ps + 1 ∧ pv[q / ps]? = some (a / ps * ps)) :
    Covers ps off (segs ++ [⟨a, l⟩])
      (pv ++ pagesFrom ps (a / ps + (pv.length - q / ps)) (pageEnd ps (q + l) - pv.length)) := by
  have hlen : q / ps ≤ pv.length ∧ pv.length ≤ pageEnd ps (q + l) := by
    have hlt : q / ps < pageEnd ps (q + l) := by
      rw [lt_pageEnd_iff hps]
      have := Nat.div_mul_le_self q ps
      omega
    omega
  refine ⟨fun x hx => ?_, fun _ => ?_, fun p hp => ?_⟩
  · simp only [total_append, total_cons, total_nil] at hx
    rcases Nat.lt_or_ge x (total segs) with hold | hnew
    · rw [byteAt_append_left hold]
      exact h.bytes_append hold
    · rw [byteAt_append_right hnew, byteAt_of_lt (by simp only; omega), pageByte]
      -- the page of the byte, counted from the page in which the segment starts
      have hy : (off + x) / ps * ps + (off + x) % ps = off + x := Nat.div_add_mod' _ _
      have hqd : q / ps * ps + q % ps = q := Nat.div_add_mod' _ _
      have had : a / ps * ps + a % ps = a := Nat.div_add_mod' _ _
      have hle : q / ps ≤ (off + x) / ps := Nat.div_le_div_right (by omega)
      have hpage : (pv ++ pagesFrom ps (a / ps + (pv.length - q / ps))
          (pageEnd ps (q + l) - pv.length))[(off + x) / ps]? =
            some ((a / ps + ((off + x) / ps - q / ps)) * ps) := by
        rcases Nat.lt_or_ge ((off + x) / ps) pv.length with hin | hout
        · rw [List.getElem?_append_left hin]
          rcases hlast with hl' | ⟨hl', hget⟩
          · omega
          · rw [show (off + x) / ps = q / ps by omega, hget, Nat.sub_self, Nat.add_zero]
        · have hend : (off + x) / ps < pageEnd ps (q + l) := by
            rw [lt_pageEnd_iff hps]
            omega
          rw [List.getElem?_append_right hout, pagesFrom_get (by omega)]
          congr 2
          omega
      rw [hpage, Option.map_some]
      congr 1
      have hsub : (a / ps + ((off + x) / ps - q / ps)) * ps + q / ps * ps =
          a / ps * ps + (off + x) / ps * ps := by
        rw [← Nat.add_mul, ← Nat.add_mul]
        congr 1
        omega
      simp only
      omega
  · simp only [List.length_append, pagesFrom_length, total_append, total_cons, total_nil,
      Nat.add_zero]
    rw [← Nat.add_assoc, ← hq]
    omega
  · rcases List.mem_append.mp hp with hp | hp
    · exact h.aligned p hp
    · obtain ⟨j, _, rfl⟩ := List.mem_map.mp hp
      exact Nat.dvd_mul_left ..

/-- The page in which the bytes end, unless they end on a page boundary. -/
theorem Covers.last (hps : 0 < ps) (h : Covers ps off (segs ++ [⟨a, l⟩]) pv)
    (hmod : (off + total segs) % ps = a % ps) (hl : 0 < l) (hend : (a + l) % ps ≠ 0) :
    pv[(off + total segs + l) / ps]? = some ((a + l) / ps * ps) := by
  have hend' : (off + total segs + l) % ps = (a + l) % ps := Nat.ModEq.add_right l hmod
  have hb := h.bytes (total segs + (l - 1)) (by
    simp only [total_append, total_cons]
    omega)
  rw [byteAt_append_right (by omega), byteAt_of_lt (by simp only; omega), pageByte] at hb
  have hlast : off + (total segs + (l - 1)) = off + total segs + l - 1 := by omega
  have hdiv := Nat.div_add_mod' (off + total segs + l) ps
  have hlt := Nat.mod_lt (off + total segs + l) hps
  have hidx : (off + total segs + l - 1) / ps = (off + total segs + l) / ps :=
    Nat.div_eq_of_lt_le (by omega) (by rw [Nat.succ_mul]; omega)
  have hrem := Nat.div_add_mod' (off + total segs + l - 1) ps
  rw [hidx] at hrem
  rw [hlast, hidx] at hb
  obtain ⟨p, hp, hpb⟩ := Option.map_eq_some_iff.mp hb
  rw [hp]
  congr 1
  have had := Nat.div_add_mod' (a + l) ps
  simp only at hpb
  omega

end RdmaDriver.Schemes
