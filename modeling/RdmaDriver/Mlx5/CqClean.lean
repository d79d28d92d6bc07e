import RdmaDriver.Mlx5.CqRing
import RdmaDriver.Mlx5.Srq
import RdmaDriver.Schemes.Compaction
import RdmaDriver.Schemes.LapRing

/-! @src drivers/infiniband/hw/mlx5/cq.c | name:Cleaning a completion queue | scheme:ring |
    family:compaction

    When a QP is reset, its CQEs must leave the CQ. The driver looks for the producer index, then
    sweeps backwards over the pending CQEs: those of the QP are counted, the older ones move up by
    the count and take the ownership bit of the slot they move to, and the consumer index advances
    by the count.

        cons > c₀ ✗ c₂ ✗ c₄ | hardware
               ·  · c₀ c₂ c₄| hardware      cons moves up to c₀

    The scan for the producer index stops at the last slot of the ring even if software owns it, so
    on a full ring the sweep starts below the last CQE. -/

namespace RdmaDriver.CqClean
open Schemes Mlx5Cq Function
open Mlx5Srq (Srq freeSrqWqe)

/-! ### Code -/

/-- `is_equal_rsn`. -/
def isEqualRsn (rsn : ℕ) (cqe64 : Cqe) : Bool := rsn = cqe64.sopDropQpn &&& 0xffffff

/-- `memcpy(dest, cqe, cqe_sz)`, with the ownership bit of `dest` restored. -/
def moveCqe (dest cqe : Cqe) : Cqe := { cqe with opOwn := cqe.opOwn / 2 * 2 + dest.owner }

/-- The WQE of a removed CQE goes back to the SRQ, if it came from one. -/
def releaseWqe (srq : Option Srq) (cqe64 : Cqe) : Option Srq :=
  if cqe64.srqn &&& 0xffffff ≠ 0 then srq.map (freeSrqWqe · cqe64.wqeCounter) else srq

/-- The loop that finds the producer index; it ends at `cons_index + cqe` at the latest, so the ring
    size bounds the number of turns. -/
def scanLoop (cq : Ring) : ℕ → ℕ → Option ℕ
  | 0, _ => none
  | fuel + 1, prodIndex =>
    match getSwCqe cq prodIndex with
    | none => some prodIndex
    | some _ =>
      if prodIndex = toU 32 (cq.consIndex + cq.cqe : ℕ) then some prodIndex
      else scanLoop cq fuel (toU 32 (prodIndex + 1 : ℕ))

/-- What the sweep changes. -/
structure Clean where
  buf : CqBuf
  srq : Option Srq
  nfreed : ℕ

/-- The body of the sweep. -/
def cleanOne (cq : Ring) (rsn prodIndex : ℕ) (s : Clean) : Clean :=
  let cqe64 := s.buf.mem (prodIndex &&& cq.cqe)
  if isEqualRsn rsn cqe64 then { s with srq := releaseWqe s.srq cqe64, nfreed := s.nfreed + 1 }
  else if s.nfreed ≠ 0 then
    let dest := toU 32 (prodIndex + s.nfreed : ℕ) &&& cq.cqe
    { s with buf := { s.buf with
      mem := update s.buf.mem dest (moveCqe (s.buf.mem dest) cqe64) } }
  else s

/-- `while ((int) --prod_index - (int) cons_index >= 0)`; the difference of two `int`s wraps. -/
def cleanLoop (cq : Ring) (rsn : ℕ) : ℕ → ℕ → Clean → Option Clean
  | 0, _, _ => none
  | fuel + 1, prodIndex, s =>
    let prodIndex := toU 32 ((prodIndex : ℤ) - 1)
    if 0 ≤ toInt (toInt prodIndex - toInt cq.consIndex) then
      cleanLoop cq rsn fuel prodIndex (cleanOne cq rsn prodIndex s)
    else some s

/-- `mlx5_cq_set_ci`. -/
def cqSetCi (cq : Ring) : Ring := { cq with ciDb := cq.consIndex % 2 ^ 24 }

/-- `__mlx5_ib_cq_clean`: the CQ and the SRQ, if one is given. The loops end (`none` is no
    outcome). -/
def mlx5IbCqClean (cq : Ring) (rsn : ℕ) (srq : Option Srq) : Option (Ring × Option Srq) := do
  let prodIndex ← scanLoop cq (cq.cqe + 1) cq.consIndex
  let s ← cleanLoop cq rsn (cq.cqe + 1) prodIndex ⟨cq.buf, srq, 0⟩
  if s.nfreed ≠ 0 then
    return (cqSetCi { cq with
      buf := s.buf, consIndex := toU 32 (cq.consIndex + s.nfreed : ℕ) }, s.srq)
  else return ({ cq with buf := s.buf }, s.srq)

/-! ### What is promised -/

/-- What `get_sw_cqe` delivers from counter `n` on, for one lap at most. -/
def pendingFrom (cq : Ring) : ℕ → ℕ → List Cqe
  | 0, _ => []
  | fuel + 1, n =>
    match swCqe cq n with
    | none => []
    | some c => c :: pendingFrom cq fuel (n + 1)

/-- The pending CQEs. -/
def pending (cq : Ring) : List Cqe := pendingFrom cq (cq.cqe + 1) cq.consIndex

/-- What a clean for `rsn` leaves. -/
structure Cleaned (cq : Ring) (rsn : ℕ) (srq : Option Srq) (cq' : Ring) (srq' : Option Srq) :
    Prop where
  delivers : (pending cq').map Cqe.contents =
    ((pending cq).filter fun c => !isEqualRsn rsn c).map Cqe.contents
  hardware : ∀ j, (pending cq).length ≤ j → j ≤ cq.cqe →
    cq'.buf.mem ((cq.consIndex + j) &&& cq.cqe) = cq.buf.mem ((cq.consIndex + j) &&& cq.cqe)
  consIndex : cq'.consIndex =
    toU 32 (cq.consIndex + ((pending cq).filter (isEqualRsn rsn)).length : ℕ)
  size : cq'.cqe = cq.cqe ∧ cq'.cqeSz = cq.cqeSz
  srq : srq' = ((pending cq).filter (isEqualRsn rsn)).reverse.foldl releaseWqe srq

/-- The ring is full, and its last CQE belongs to `rsn`. -/
def LastStays (cq : Ring) (rsn : ℕ) : Prop :=
  (pending cq).length = cq.cqe + 1 ∧ ∃ c ∈ (pending cq).getLast?, isEqualRsn rsn c = true

/-! ### Pending CQEs -/

section Pending

variable {cq : Ring} {b n n' m fuel : ℕ}

/-- Software owns `m` CQEs in a row from counter `n` on, of `fuel` at most. -/
structure Span (cq : Ring) (n fuel m : ℕ) : Prop where
  le : m ≤ fuel
  owned : ∀ j < m, getSwCqe cq (n + j) ≠ none
  stop : m < fuel → getSwCqe cq (n + m) = none

/-- The CQE in the slot of counter `n + j`. -/
def cell (cq : Ring) (n : ℕ) (buf : CqBuf) (j : ℕ) : Cqe := buf.mem ((n + j) &&& cq.cqe)

theorem exists_span (cq : Ring) : ∀ fuel n, ∃ m, Span cq n fuel m
  | 0, _ => ⟨0, le_rfl, fun _ hj => absurd hj (Nat.not_lt_zero _), fun h => absurd h (by omega)⟩
  | fuel + 1, n => by
    by_cases h : getSwCqe cq n = none
    · exact ⟨0, Nat.zero_le _, fun _ hj => absurd hj (Nat.not_lt_zero _), fun _ => h⟩
    · obtain ⟨m, hle, howned, hstop⟩ := exists_span cq fuel (n + 1)
      refine ⟨m + 1, Nat.succ_le_succ hle, fun j hj => ?_, fun hlt => ?_⟩
      · cases j with
        | zero => exact h
        | succ j =>
          rw [show n + (j + 1) = n + 1 + j by omega]
          exact howned j (by omega)
      · rw [show n + (m + 1) = n + 1 + m by omega]
        exact hstop (by omega)

/-- A span depends on the counter modulo two laps only. -/
theorem Span.congr (hb : cq.cqe + 1 = 2 ^ b) (h : n % 2 ^ (b + 1) = n' % 2 ^ (b + 1))
    (hs : Span cq n fuel m) : Span cq n' fuel m := by
  have hget : ∀ j, getSwCqe cq (n' + j) = getSwCqe cq (n + j) := fun j =>
    getSwCqe_congr hb (by rw [Nat.add_mod, ← h, ← Nat.add_mod])
  exact ⟨hs.le, fun j hj => hget j ▸ hs.owned j hj, fun hlt => hget m ▸ hs.stop hlt⟩

theorem getSwCqe_eq (h : getSwCqe cq n ≠ none) : getSwCqe cq n = some (n &&& cq.cqe) := by
  unfold getSwCqe at h ⊢
  dsimp only at h ⊢
  split_ifs at h ⊢
  · rfl
  · exact absurd rfl h

/-- What is pending is what stands in the slots of the span. -/
theorem Span.pendingFrom_eq (h : Span cq n fuel m) :
    pendingFrom cq fuel n = window (cell cq n cq.buf) 0 m := by
  rw [window_zero]
  induction fuel generalizing n m with
  | zero =>
    obtain rfl : m = 0 := Nat.le_zero.mp h.le
    rfl
  | succ fuel ih =>
    cases m with
    | zero =>
      have hnone := h.stop (Nat.succ_pos fuel)
      rw [Nat.add_zero] at hnone
      rw [pendingFrom, swCqe, hnone]
      rfl
    | succ m =>
      have hrest : Span cq (n + 1) fuel m := by
        refine ⟨Nat.le_of_succ_le_succ h.le, fun j hj => ?_, fun hlt => ?_⟩
        · rw [show n + 1 + j = n + (j + 1) by omega]
          exact h.owned (j + 1) (by omega)
        · rw [show n + 1 + m = n + (m + 1) by omega]
          exact h.stop (by omega)
      have hfirst := getSwCqe_eq (h.owned 0 (Nat.succ_pos m))
      rw [Nat.add_zero] at hfirst
      rw [pendingFrom, swCqe, hfirst, List.range_succ_eq_map, List.map_cons, List.map_map]
      rw [ih hrest]
      refine congrArg₂ List.cons rfl (List.map_congr_left fun j _ => ?_)
      rw [comp_apply, cell, cell, show n + 1 + j = n + j.succ by omega]

end Pending

/-! ### The loops -/

section Loops

variable {cq : Ring} {b m fuel rsn i : ℕ} {srq : Option Srq}

/-- A counter kept in 32 bits reads the same slot on the same lap. -/
theorem getSwCqe_toU (hb : cq.cqe + 1 = 2 ^ b) (hb31 : b ≤ 31) (n j : ℕ) :
    getSwCqe cq (toU 32 n + j) = getSwCqe cq (n + j) :=
  getSwCqe_congr hb (toU32_add_mod (by omega) n j)

theorem toU_succ (n : ℕ) : toU 32 (toU 32 n + 1 : ℕ) = toU 32 (n + 1 : ℕ) := by
  rw [toU_eq_mod, toU_eq_mod, toU_eq_mod]
  omega

/-- SCAN: the producer index, or the last slot of a full ring. -/
theorem scanLoop_eq (hb : cq.cqe + 1 = 2 ^ b) (hb31 : b ≤ 31)
    (hspan : Span cq cq.consIndex (cq.cqe + 1) m) : ∀ d i fuel, i + d = min m cq.cqe → d < fuel →
      scanLoop cq fuel (toU 32 (cq.consIndex + i : ℕ)) =
        some (toU 32 (cq.consIndex + min m cq.cqe : ℕ))
  | d, i, 0, _, hfuel => absurd hfuel (Nat.not_lt_zero d)
  | d, i, fuel + 1, hid, hfuel => by
    have hlt : cq.cqe < 2 ^ 31 := by
      have := Nat.pow_le_pow_right Nat.two_pos hb31
      omega
    have hget := getSwCqe_toU hb hb31 (cq.consIndex + i) 0
    rw [Nat.add_zero, Nat.add_zero] at hget
    rw [scanLoop, hget]
    cases d with
    | zero =>
      rw [Nat.add_zero] at hid
      by_cases him : i = m
      · have hstop := hspan.stop (by omega)
        rw [← hid, him, hstop]
      · have hfull : i = cq.cqe := by omega
        rw [getSwCqe_eq (hspan.owned i (by omega)), ← hid, hfull]
        exact if_pos rfl
    | succ d =>
      have hne : toU 32 (cq.consIndex + i : ℕ) ≠ toU 32 (cq.consIndex + cq.cqe : ℕ) := by
        rw [toU_eq_mod, toU_eq_mod]
        omega
      rw [getSwCqe_eq (hspan.owned i (by omega))]
      dsimp only
      rw [if_neg hne, toU_succ, Nat.add_assoc]
      exact scanLoop_eq hb hb31 hspan d (i + 1) fuel (by omega) (by omega)

/-- The sweep over the slots below `i`. -/
def cleanRun (cq : Ring) (rsn : ℕ) : ℕ → Clean → Clean
  | 0, s => s
  | i + 1, s => cleanRun cq rsn i (cleanOne cq rsn (toU 32 (cq.consIndex + i : ℕ)) s)

/-- The signed difference of two wrapping counters. -/
theorem toInt_sub (c : ℕ) {d : ℤ} (hlo : -2 ^ 31 ≤ d) (hhi : d < 2 ^ 31) :
    toInt (toInt (toU 32 (c + d)) - toInt c) = d := by
  unfold toInt toU
  omega

/-- LOOP: the sweep goes down to the consumer index and ends. -/
theorem cleanLoop_eq (cq : Ring) (rsn : ℕ) : ∀ i fuel s, i < fuel → i < 2 ^ 31 →
    cleanLoop cq rsn fuel (toU 32 (cq.consIndex + i : ℕ)) s = some (cleanRun cq rsn i s)
  | i, 0, _, hfuel, _ => absurd hfuel (Nat.not_lt_zero i)
  | 0, fuel + 1, s, _, _ => by
    have hprev : toU 32 ((toU 32 (cq.consIndex + 0 : ℕ) : ℤ) - 1) =
        toU 32 (cq.consIndex + (-1 : ℤ)) := by
      unfold toU
      omega
    rw [cleanLoop, hprev]
    rw [toInt_sub _ (by norm_num) (by norm_num)]
    exact if_neg (by norm_num)
  | i + 1, fuel + 1, s, hfuel, hi => by
    have hprev : toU 32 ((toU 32 (cq.consIndex + (i + 1) : ℕ) : ℤ) - 1) =
        toU 32 (cq.consIndex + i : ℕ) := by
      unfold toU
      omega
    have hdiff : toInt (toInt (toU 32 (cq.consIndex + i : ℕ)) - toInt cq.consIndex) = i := by
      have := @toInt_sub cq.consIndex (i : ℤ) (by omega) (by omega)
      rwa [← Nat.cast_add] at this
    rw [cleanLoop, hprev]
    rw [hdiff, if_pos (Int.natCast_nonneg i)]
    exact cleanLoop_eq cq rsn i fuel _ (by omega) (by omega)

end Loops

/-! ### The sweep -/

section Sweep

variable {cq : Ring} {b k rsn i j : ℕ} {srq : Option Srq} {s : Clean} {sw : Sweep Cqe}

/-- A move leaves the contents of the one CQE and the ownership bit of the other. -/
theorem contents_moveCqe (dest c : Cqe) : (moveCqe dest c).contents = c.contents := by
  simp only [Cqe.contents, moveCqe, Cqe.owner]
  congr 1
  omega

theorem owner_moveCqe (dest c : Cqe) : (moveCqe dest c).owner = dest.owner := by
  simp only [moveCqe, Cqe.owner]
  omega

/-- A ring of a power of two reads the low bits of a counter. -/
theorem and_cqe (hb : cq.cqe + 1 = 2 ^ b) (n : ℕ) : n &&& cq.cqe = n % (cq.cqe + 1) := by
  rw [hb, ← Nat.and_two_pow_sub_one_eq_mod, ← hb, Nat.add_sub_cancel]

theorem toU_and_cqe (hb : cq.cqe + 1 = 2 ^ b) (hb31 : b ≤ 31) (n f : ℕ) :
    toU 32 (toU 32 n + f : ℕ) &&& cq.cqe = (n + f) &&& cq.cqe := by
  rw [and_cqe hb, and_cqe hb, hb, toU_eq_mod, Nat.mod_mod_of_dvd _ (Nat.pow_dvd_pow 2 (by omega))]
  exact toU32_add_mod (by omega) n f

/-- The slots of one lap are different. -/
theorem slot_inj (hb : cq.cqe + 1 = 2 ^ b) (hi : i ≤ cq.cqe) (hj : j ≤ cq.cqe)
    (h : (cq.consIndex + i) &&& cq.cqe = (cq.consIndex + j) &&& cq.cqe) : i = j := by
  rw [and_cqe hb, and_cqe hb] at h
  rcases Nat.lt_trichotomy i j with hlt | heq | hlt
  · exact absurd h (mod_ne_mod (by omega) (by omega))
  · exact heq
  · exact absurd h.symm (mod_ne_mod (by omega) (by omega))

/-- The ring holds the row, and what was removed went to the SRQ. -/
structure Sim (cq : Ring) (srq : Option Srq) (s : Clean) (sw : Sweep Cqe) : Prop where
  cells : ∀ j ≤ cq.cqe, cell cq cq.consIndex s.buf j = sw.cell j
  nfreed : s.nfreed = sw.removed.length
  srq : s.srq = sw.removed.foldl releaseWqe srq

/-- STEP: the code's turn is a turn of the compaction. -/
theorem Sim.step (hb : cq.cqe + 1 = 2 ^ b) (hb31 : b ≤ 31) (h : Sim cq srq s sw)
    (hroom : i + sw.removed.length ≤ cq.cqe) :
    Sim cq srq (cleanOne cq rsn (toU 32 (cq.consIndex + i : ℕ)) s)
      (sweepStep (isEqualRsn rsn) moveCqe sw i) := by
  have hread : s.buf.mem (toU 32 (cq.consIndex + i : ℕ) &&& cq.cqe) = sw.cell i := by
    have hslot := @toU_and_cqe cq b hb hb31 (cq.consIndex + i) 0
    rw [Nat.add_zero, Nat.add_zero, toU_of_lt (toU_lt 32 _)] at hslot
    rw [hslot]
    exact h.cells i (by omega)
  unfold cleanOne sweepStep
  rw [hread]
  by_cases hgone : isEqualRsn rsn (sw.cell i) = true
  · rw [if_pos hgone, if_pos hgone]
    refine ⟨h.cells, ?_, ?_⟩
    · dsimp only
      rw [h.nfreed, List.length_append, List.length_singleton]
    · dsimp only
      rw [h.srq, List.foldl_append, List.foldl_cons, List.foldl_nil]
  rw [if_neg hgone, if_neg hgone]
  by_cases h0 : s.nfreed = 0
  · rw [if_neg (not_not.mpr h0), if_neg (by rw [← h.nfreed]; exact not_not.mpr h0)]
    exact h
  rw [if_pos h0, if_pos (by rw [← h.nfreed]; exact h0), toU_and_cqe hb hb31, h.nfreed,
    Nat.add_assoc]
  have hdest := h.cells (i + sw.removed.length) hroom
  refine ⟨fun j hj => ?_, rfl, h.srq⟩
  change update s.buf.mem _ _ ((cq.consIndex + j) &&& cq.cqe) = update sw.cell _ _ j
  by_cases hj' : j = i + sw.removed.length
  · subst hj'
    rw [update_self, update_self, ← hdest]
    rfl
  · rw [update_of_ne hj', ← h.cells j hj, update_of_ne fun heq => hj' (slot_inj hb hj hroom heq)]
    rfl

/-- RUN: the code's sweep is a compaction of the row. -/
theorem Sim.run (hb : cq.cqe + 1 = 2 ^ b) (hb31 : b ≤ 31) (hk : k ≤ cq.cqe) {item : ℕ → Cqe}
    (hsim : Sim cq srq s sw) (hswept : Swept (isEqualRsn rsn) Cqe.contents Cqe.owner item k i sw) :
    ∃ sw', Sim cq srq (cleanRun cq rsn i s) sw' ∧
      Swept (isEqualRsn rsn) Cqe.contents Cqe.owner item k 0 sw' := by
  induction i generalizing s sw with
  | zero => exact ⟨sw, hsim, hswept⟩
  | succ i ih =>
    have hroom := hswept.room
    exact ih (hsim.step hb hb31 (by omega)) (hswept.step contents_moveCqe owner_moveCqe)

end Sweep

/-! ### The ring after a clean -/

section After

variable {cq cq' : Ring} {b m rsn j : ℕ} {srq : Option Srq} {sw : Sweep Cqe}

/-- What the code leaves of a sweep. -/
structure Left (cq : Ring) (sw : Sweep Cqe) (cq' : Ring) : Prop where
  cells : ∀ j ≤ cq.cqe, cell cq cq.consIndex cq'.buf j = sw.cell j
  consIndex : cq'.consIndex = toU 32 (cq.consIndex + sw.removed.length : ℕ)
  cqe : cq'.cqe = cq.cqe
  cqeSz : cq'.cqeSz = cq.cqeSz

/-- The pending CQEs in a row. -/
def row (cq : Ring) : ℕ → Cqe := cell cq cq.consIndex cq.buf

/-- The sweep of the code, below the last slot of the ring. -/
def SweptRow (cq : Ring) (rsn m : ℕ) (sw : Sweep Cqe) : Prop :=
  Swept (isEqualRsn rsn) Cqe.contents Cqe.owner (row cq) (min m cq.cqe) 0 sw

theorem mlx5IbCqClean_of_loops {prodIndex : ℕ} {s : Clean}
    (hscan : scanLoop cq (cq.cqe + 1) cq.consIndex = some prodIndex)
    (hloop : cleanLoop cq rsn (cq.cqe + 1) prodIndex ⟨cq.buf, srq, 0⟩ = some s) :
    mlx5IbCqClean cq rsn srq = if s.nfreed ≠ 0 then
        some (cqSetCi { cq with
          buf := s.buf, consIndex := toU 32 (cq.consIndex + s.nfreed : ℕ) }, s.srq)
      else some ({ cq with buf := s.buf }, s.srq) := by
  rw [mlx5IbCqClean, hscan, Option.bind_eq_bind, Option.bind_some, hloop, Option.bind_eq_bind,
    Option.bind_some]
  by_cases h0 : s.nfreed ≠ 0
  · rw [if_pos h0, if_pos h0]
    rfl
  · rw [if_neg h0, if_neg h0]
    rfl

/-- CLEAN: the code ends, with the row compacted. -/
theorem mlx5IbCqClean_eq (hb : cq.cqe + 1 = 2 ^ b) (hb31 : b ≤ 31) (hcons : cq.consIndex < 2 ^ 32)
    (hspan : Span cq cq.consIndex (cq.cqe + 1) m) (srq : Option Srq) :
    ∃ sw cq', SweptRow cq rsn m sw ∧ Left cq sw cq' ∧
      mlx5IbCqClean cq rsn srq = some (cq', sw.removed.foldl releaseWqe srq) := by
  have hlt : cq.cqe < 2 ^ 31 := by
    have := Nat.pow_le_pow_right Nat.two_pos hb31
    omega
  have hscan := scanLoop_eq hb hb31 hspan (min m cq.cqe) 0 (cq.cqe + 1) (Nat.zero_add _) (by omega)
  rw [Nat.add_zero cq.consIndex, toU_of_lt hcons] at hscan
  have hloop := cleanLoop_eq cq rsn (min m cq.cqe) (cq.cqe + 1) ⟨cq.buf, srq, 0⟩ (by omega)
    (by omega)
  have hstart : Sim cq srq ⟨cq.buf, srq, 0⟩ ⟨row cq, []⟩ := ⟨fun _ _ => rfl, rfl, rfl⟩
  obtain ⟨sw, hsim, hswept⟩ := hstart.run hb hb31 (Nat.min_le_right m cq.cqe)
    (Swept.start (row cq) (min m cq.cqe))
  rw [mlx5IbCqClean_of_loops hscan hloop]
  generalize cleanRun cq rsn (min m cq.cqe) ⟨cq.buf, srq, 0⟩ = s at hsim
  by_cases h0 : s.nfreed = 0
  · rw [if_neg (not_not.mpr h0), hsim.srq]
    refine ⟨sw, _, hswept, ?_, rfl⟩
    refine ⟨hsim.cells, ?_, rfl, rfl⟩
    rw [← hsim.nfreed, h0, Nat.add_zero, toU_of_lt hcons]
  · rw [if_pos h0, hsim.srq]
    refine ⟨sw, _, hswept, ?_, rfl⟩
    refine ⟨hsim.cells, ?_, rfl, rfl⟩
    rw [← hsim.nfreed]
    rfl

/-- Software owns a slot if its opcode is valid and its bit is that of the lap. -/
theorem getSwCqe_ne_none {cq : Ring} {n : ℕ} : getSwCqe cq n ≠ none ↔
    (cq.buf.mem (n &&& cq.cqe)).opcode ≠ INVALID ∧
      (cq.buf.mem (n &&& cq.cqe)).owner = swOwnershipBit n (cq.cqe + 1) := by
  unfold getSwCqe
  dsimp only
  split_ifs with h <;> simp [h]

theorem opcode_contents (c : Cqe) : c.contents.opcode = c.opcode := by
  simp only [Cqe.opcode, Cqe.contents]
  omega

/-- A slot of the row keeps its owner. -/
theorem SweptRow.owned (hspan : Span cq cq.consIndex (cq.cqe + 1) m)
    (hswept : SweptRow cq rsn m sw) (hleft : Left cq sw cq') (hj : j < m) :
    getSwCqe cq' (cq.consIndex + j) ≠ none := by
  have hle := hspan.le
  have hcell : cq'.buf.mem ((cq.consIndex + j) &&& cq'.cqe) = sw.cell j := by
    rw [hleft.cqe]
    exact hleft.cells j (by omega)
  obtain ⟨hvalid, howner⟩ := getSwCqe_ne_none.mp (hspan.owned j hj)
  have hmark : (sw.cell j).owner = (row cq j).owner := hswept.marks j
  rw [getSwCqe_ne_none, hcell, hleft.cqe, hmark]
  refine ⟨?_, howner⟩
  by_cases hin : sw.removed.length ≤ j ∧ j < min m cq.cqe
  · -- the contents are those of a pending CQE
    have hmem := List.mem_map_of_mem (f := Cqe.contents)
      (@mem_window _ sw.cell (0 + sw.removed.length) _ j (by omega) hin.2)
    rw [hswept.keys] at hmem
    obtain ⟨c, hc, heq⟩ := List.mem_map.mp hmem
    obtain ⟨l, -, hl, rfl⟩ := of_mem_window (List.mem_of_mem_filter hc)
    rw [← opcode_contents, ← heq, opcode_contents]
    exact (getSwCqe_ne_none.mp (hspan.owned l (by omega))).1
  · have hsame : sw.cell j = row cq j := by
      rcases Nat.lt_or_ge j (min m cq.cqe) with hlt | hge
      · exact hswept.kept j (by omega)
      · exact hswept.above j hge
    rw [hsame]
    exact hvalid

end After

/-! ### What is delivered -/

section Delivered

variable {cq cq' : Ring} {b m rsn : ℕ} {srq : Option Srq} {sw : Sweep Cqe}

section
variable (hb : cq.cqe + 1 = 2 ^ b) (hb31 : b ≤ 31) (hspan : Span cq cq.consIndex (cq.cqe + 1) m)
  (hswept : SweptRow cq rsn m sw) (hleft : Left cq sw cq')
include hb hb31 hspan hswept hleft

/-- The CQEs that stay are owned by software, and nothing behind them. -/
theorem SweptRow.span : Span cq' cq'.consIndex (cq'.cqe + 1) (m - sw.removed.length) := by
  have hle := hspan.le
  have hroom := hswept.room
  have hb' : cq'.cqe + 1 = 2 ^ b := hleft.cqe ▸ hb
  have hmod : (cq.consIndex + sw.removed.length) % 2 ^ (b + 1) = cq'.consIndex % 2 ^ (b + 1) := by
    have := @toU32_add_mod (b + 1) (by omega) (cq.consIndex + sw.removed.length) 0
    rw [hleft.consIndex]
    exact this.symm
  refine Span.congr hb' hmod ⟨by rw [hleft.cqe]; omega, fun j hj => ?_, fun hlt => ?_⟩
  · rw [Nat.add_assoc]
    exact hswept.owned hspan hleft (by omega)
  · rw [Nat.add_assoc, Nat.add_sub_cancel' (by omega)]
    by_cases hm : m = cq.cqe + 1
    · -- the ring was full: the first slot holds a CQE of the lap before
      have hfirst := hswept.owned hspan hleft (j := 0) (by omega)
      rw [hm, hb]
      exact getSwCqe_lap hb' (Option.ne_none_iff_isSome.mp hfirst)
    · have hcell := hleft.cells m (by omega)
      have hsame : sw.cell m = row cq m := hswept.above m (Nat.min_le_left _ _)
      have hmem : cq'.buf.mem ((cq.consIndex + m) &&& cq.cqe) =
          cq.buf.mem ((cq.consIndex + m) &&& cq.cqe) := hcell.trans hsame
      have hstop := hspan.stop (by omega)
      unfold getSwCqe at hstop ⊢
      rw [hleft.cqe, hmem]
      exact hstop

theorem SweptRow.pending_eq : pending cq' = window sw.cell sw.removed.length m := by
  have hle := hspan.le
  rw [pending, (hswept.span hb hb31 hspan hleft).pendingFrom_eq]
  refine window_shift fun j hj => ?_
  have hcells := hleft.cells (sw.removed.length + j) (by omega)
  rw [← hcells, cell, cell, hleft.cqe, and_cqe hb, and_cqe hb, hleft.consIndex, hb,
    ← Nat.add_assoc]
  congr 1
  exact toU32_add_mod (by omega) _ _

end

end Delivered

section Cleaned

variable {cq cq' : Ring} {b m rsn : ℕ} {srq : Option Srq} {sw : Sweep Cqe}

/-- The CQEs that the sweep does not reach: the last one of a full ring. -/
def unswept (cq : Ring) (m : ℕ) : List Cqe := window (row cq) (min m cq.cqe) m

theorem unswept_of_lt (h : m ≤ cq.cqe) : unswept cq m = [] := by
  rw [unswept, Nat.min_eq_left h, window_self]

theorem unswept_full : unswept cq (cq.cqe + 1) = [row cq cq.cqe] := by
  rw [unswept, Nat.min_eq_right (Nat.le_succ _), window_cons (Nat.lt_succ_self _), window_self]

section
variable (hspan : Span cq cq.consIndex (cq.cqe + 1) m)
include hspan

theorem pending_split : pending cq = window (row cq) 0 (min m cq.cqe) ++ unswept cq m :=
  hspan.pendingFrom_eq.trans (window_append _ (Nat.zero_le _) (Nat.min_le_left _ _))

theorem length_pending : (pending cq).length = m := by
  rw [pending, hspan.pendingFrom_eq, window_zero, List.length_map, List.length_range]

/-- The last CQE stays exactly if the sweep leaves one out that should go. -/
theorem lastStays_iff : LastStays cq rsn ↔ ¬ ∀ c ∈ unswept cq m, isEqualRsn rsn c = false := by
  rw [LastStays, length_pending hspan]
  rcases Nat.lt_or_ge m (cq.cqe + 1) with hlt | hge
  · rw [unswept_of_lt (Nat.le_of_lt_succ hlt)]
    constructor
    · exact fun h => absurd h.1 hlt.ne
    · exact fun h => absurd (fun c hc => absurd hc List.not_mem_nil) h
  · obtain rfl : m = cq.cqe + 1 := le_antisymm hspan.le hge
    rw [pending_split hspan, unswept_full, List.getLast?_concat]
    simp

end

/-- CLEAN: what was promised is left exactly if nothing that should go is left out. -/
theorem cleaned_iff (hb : cq.cqe + 1 = 2 ^ b) (hb31 : b ≤ 31)
    (hspan : Span cq cq.consIndex (cq.cqe + 1) m) (hswept : SweptRow cq rsn m sw)
    (hleft : Left cq sw cq') : Cleaned cq rsn srq cq' (sw.removed.foldl releaseWqe srq) ↔
      ∀ c ∈ unswept cq m, isEqualRsn rsn c = false := by
  have hroom := hswept.room
  have hrow := pending_split hspan
  have hrest : window sw.cell (min m cq.cqe) m = unswept cq m :=
    window_congr fun j hj _ => hswept.above j hj
  have hpend : pending cq' = window sw.cell sw.removed.length (min m cq.cqe) ++ unswept cq m := by
    rw [hswept.pending_eq hb hb31 hspan hleft, window_append sw.cell (by omega)
      (Nat.min_le_left m cq.cqe), hrest]
  have hkeys := hswept.keys
  rw [Nat.zero_add] at hkeys
  constructor
  · intro h c hc
    have hdel := h.delivers
    rw [hpend, hrow, List.map_append, List.filter_append, List.map_append, hkeys] at hdel
    have hlen := congrArg List.length (List.append_cancel_left hdel)
    rw [List.length_map, List.length_map] at hlen
    have hall := List.length_filter_eq_length_iff.mp hlen.symm c hc
    simpa using hall
  · intro h
    have hnone : (unswept cq m).filter (isEqualRsn rsn) = [] :=
      List.filter_eq_nil_iff.mpr fun c hc => by simp [h c hc]
    have hall : ((unswept cq m).filter fun c => !isEqualRsn rsn c) = unswept cq m :=
      List.filter_eq_self.mpr fun c hc => by simp [h c hc]
    have hremoved : sw.removed = ((pending cq).filter (isEqualRsn rsn)).reverse := by
      rw [hrow, List.filter_append, hnone, List.append_nil]
      exact hswept.removed
    refine ⟨?_, fun j hj hjle => ?_, ?_, ⟨hleft.cqe, hleft.cqeSz⟩, by rw [hremoved]⟩
    · rw [hpend, hrow, List.map_append, List.filter_append, List.map_append, hkeys, hall]
    · rw [length_pending hspan] at hj
      exact (hleft.cells j hjle).trans (hswept.above j ((Nat.min_le_left _ _).trans hj))
    · rw [hleft.consIndex, hremoved, List.length_reverse]

end Cleaned

/-- CORRECT only in part: the clean ends, and removes the CQEs of `rsn` in place, unless the ring is
    full and its last CQE is one of them: the sweep starts below that CQE. -/
theorem cq_clean (cq : Ring) (b rsn : ℕ) (srq : Option Srq) (hb : cq.cqe + 1 = 2 ^ b)
    (hb31 : b ≤ 31) (hcons : cq.consIndex < 2 ^ 32) :
    ∃ cq' srq', mlx5IbCqClean cq rsn srq = some (cq', srq') ∧
      (Cleaned cq rsn srq cq' srq' ↔ ¬ LastStays cq rsn) := by
  obtain ⟨m, hspan⟩ := exists_span cq (cq.cqe + 1) cq.consIndex
  obtain ⟨sw, cq', hswept, hleft, hclean⟩ := mlx5IbCqClean_eq hb hb31 hcons hspan srq
  refine ⟨cq', _, hclean, ?_⟩
  rw [cleaned_iff hb hb31 hspan hswept hleft, lastStays_iff hspan, not_not]

/-- A CQE of resource `rsn`. -/
def cqeOf (rsn opOwn : ℕ) : Cqe :=
  ⟨opOwn, 0, rsn, 0, 0, 0, 0, 0, 0, 0, 0, 0, 0, 0, 0, 0, 0, 0, 0, 0, 0⟩

/-- A ring of four CQEs, all of them pending, for the resources 7, 8, 7 and `last`. -/
def fullRing (last : ℕ) : Ring := ⟨3, 64, 4, 0, ⟨0, 64, 4, fun i =>
  cqeOf (if i = 3 then last else if i = 1 then 8 else 7) 1⟩, none⟩

theorem cq_clean_demo : ∃ cq' srq', mlx5IbCqClean (fullRing 8) 7 none = some (cq', srq') ∧
    (Cleaned (fullRing 8) 7 none cq' srq' ↔ ¬ LastStays (fullRing 8) 7) :=
  cq_clean (fullRing 8) 2 7 none (by decide) (by decide) (by decide)

/-- BROKEN: the last CQE of a full ring is left, although it is one of those to remove. -/
theorem cq_clean_broken : ∃ cq' srq', mlx5IbCqClean (fullRing 7) 7 none = some (cq', srq') ∧
    (pending cq').map (·.sopDropQpn) = [8, 7] ∧ ¬ Cleaned (fullRing 7) 7 none cq' srq' := by
  have hrun : (mlx5IbCqClean (fullRing 7) 7 none).map
      (fun r => (pending r.1).map (·.sopDropQpn)) = some [8, 7] := by
    decide +kernel
  obtain ⟨⟨cq', srq'⟩, hclean, hpend⟩ := Option.map_eq_some_iff.mp hrun
  refine ⟨cq', srq', hclean, hpend, fun h => ?_⟩
  have hdel := congrArg List.length h.delivers
  have hlen := congrArg List.length hpend
  rw [List.length_map] at hdel hlen
  rw [hlen] at hdel
  revert hdel
  decide +kernel

end RdmaDriver.CqClean
