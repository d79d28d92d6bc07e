import Mathlib.Data.List.Nodup
import Mathlib.Data.List.Range
import Mathlib.Data.Nat.ModEq
import RdmaDriver.Basic
import RdmaDriver.Schemes.Run

/-! @src drivers/infiniband/hw/mlx5/gsi.c, cq.c | name:GSI send queue | scheme:run | family:ring

    The GSI QP sends through several hardware QPs and gives its user one completion queue in posting
    order. A posted WR takes the slot `outstanding_pi % max_send_wr`; its hardware completion marks the
    slot, and `generate_completions` moves marked slots, oldest first, to the `wc_list` of the CQ,
    from which polling takes them. A WR for which there is no QP is completed when it is posted.
    Each section under `gsi->lock` is one step; a poll between two iterations of
    `generate_completions` sees a shorter list, as a poll of fewer entries after it does.

        post --> [ci … pi) in slots --completed, in order--> wc_list --> polled
                     ^ hardware completes in any order -/

namespace RdmaDriver.Mlx5Gsi
open Schemes Function
open List (append_assoc foldl_cons map_append mem_append)

/-- The fields of `struct ib_wc` that are set here; `gsiQp` says that `qp` is the GSI QP. -/
structure Wc where
  wrId : ℕ
  status : ℕ
  opcode : ℕ
  vendorErr : ℕ
  pkeyIndex : ℕ
  gsiQp : Bool
  deriving DecidableEq

def IB_WC_SUCCESS : ℕ := 0
def IB_WC_SEND : ℕ := 0
def IB_WC_WR_FLUSH_ERR : ℕ := 5
def MLX5_CQE_SYNDROME_WR_FLUSH_ERR : ℕ := 0x05

/-- `struct mlx5_ib_gsi_wr`. -/
structure Slot where
  wc : Wc
  inUse : Bool
  completed : Bool
  deriving DecidableEq

/-- What `mlx5_ib_gsi_post_send` reads of `struct ib_ud_wr`, `xmit_port` through its address handle. -/
structure Wr where
  wrId : ℕ
  pkeyIndex : ℕ
  xmitPort : ℕ
  deriving DecidableEq

/-- What `get_tx_qp` reads. A QP is a number; `tx_qps i` is `none` while `setup_qp` has not made it. -/
structure Qps where
  numQps : ℕ
  lagActive : Bool
  rxQp : ℕ
  txQps : ℕ → Option ℕ

/-- The outstanding part of `struct mlx5_ib_gsi_qp` with the `wc_list` of its CQ. A list node is named
    by its slot. `hw` are the slots whose WR a hardware QP holds; `polled` the completions returned so
    far and `posted` the `wr_id`s of the WRs posted with success, which the code does not keep. -/
structure Gsi where
  pi : ℕ
  ci : ℕ
  slots : ℕ → Slot
  wcList : List ℕ
  hw : List ℕ
  polled : List Wc
  posted : List ℕ

/-- `u32` addition. -/
def add32 (a b : ℕ) : ℕ := (a + b) % 2 ^ 32

/-- A change of one slot. -/
def Gsi.setSlot (s : Gsi) (i : ℕ) (slot : Slot) : Gsi :=
  { s with slots := update s.slots i slot }

/-- One iteration of `generate_completions`: `mlx5_ib_generate_wc` for the oldest slot. The loop's
    `index` is kept in `ci`; nobody reads `ci` before the lock is dropped. -/
def Gsi.retire (m : ℕ) (s : Gsi) : Gsi :=
  let i := s.ci % m
  { s.setSlot i { s.slots i with inUse := true, completed := false } with
    wcList := s.wcList ++ [i]
    ci := add32 s.ci 1 }

/-- `generate_completions`, for a bound on the number of iterations. -/
def generateCompletions (m : ℕ) : ℕ → Gsi → Gsi
  | 0, s => s
  | fuel + 1, s =>
    if s.ci = s.pi then s
    else if !(s.slots (s.ci % m)).completed then s
    else generateCompletions m fuel (s.retire m)

/-- `index` is a `u32`: it meets `outstanding_pi` after less than `2 ^ 32` iterations. -/
def Gsi.generate (m : ℕ) (s : Gsi) : Gsi := generateCompletions m (2 ^ 32) s

/-- `handle_single_completion` of the slot `i`. -/
def handleSingleCompletion (m : ℕ) (s : Gsi) (i : ℕ) (wc : Wc) : Gsi :=
  (s.setSlot i { s.slots i with
    completed := true
    wc := { wc with wrId := (s.slots i).wc.wrId, gsiQp := true } }).generate m

/-- What `mlx5_ib_add_outstanding_wr` writes into a slot. -/
def newSlot (slot : Slot) (wr : Wr) : Option Wc → Slot
  | none => { slot with wc := ⟨wr.wrId, IB_WC_SUCCESS, IB_WC_SEND, 0, wr.pkeyIndex, false⟩ }
  | some wc => { slot with wc := wc, completed := true }

/-- `mlx5_ib_add_outstanding_wr`. -/
def addOutstandingWr (m : ℕ) (s : Gsi) (wr : Wr) (wc : Option Wc) : Except Errno Gsi :=
  if s.pi = add32 s.ci m then .error .enomem
  else
    let i := s.pi % m
    if (s.slots i).inUse then .error .enomem
    else .ok { s.setSlot i (newSlot (s.slots i) wr wc) with pi := add32 s.pi 1 }

/-- The completion of a WR that is not sent. -/
def dropWc (wr : Wr) : Wc := ⟨wr.wrId, IB_WC_SUCCESS, IB_WC_SEND, 0, 0, true⟩

/-- `mlx5_ib_gsi_silent_drop`. -/
def silentDrop (m : ℕ) (s : Gsi) (wr : Wr) : Except Errno Gsi :=
  (addOutstandingWr m s wr (some (dropWc wr))).map (Gsi.generate m)

/-- `get_tx_qp`. -/
def getTxQp (qps : Qps) (wr : Wr) : Option ℕ :=
  if qps.numQps = 0 then some qps.rxQp
  else
    let qpIndex := if qps.lagActive ∧ wr.xmitPort ≠ 0 then wr.xmitPort - 1 else wr.pkeyIndex
    if qpIndex ≥ qps.numQps then none else qps.txQps qpIndex

/-- `mlx5_ib_gsi_post_send` of one WR; `hwErr` is what `ib_post_send` returns. A list of WRs is posted
    one by one until one fails, and the lock is dropped between two of them. -/
def gsiPostSend (m : ℕ) (s : Gsi) (wr : Wr) (qps : Qps) (hwErr : Option Errno) :
    Option Errno × Gsi :=
  match getTxQp qps wr with
  | none => match silentDrop m s wr with
    | .error e => (some e, s)
    | .ok s => (none, s)
  | some _ => match addOutstandingWr m s wr none with
    | .error e => (some e, s)
    | .ok s' => match hwErr with
      -- undo the effect of adding the outstanding wr
      | some e => (some e, { s' with pi := toU 32 ((s'.pi : ℤ) - 1) })
      | none => (none, { s' with hw := s'.hw ++ [s.pi % m] })

/-- One entry of `poll_soft_wc`. -/
def Gsi.pollOne (s : Gsi) (isFatalErr : Bool) : Gsi :=
  match s.wcList with
  | [] => s
  | i :: l =>
    let wc := (s.slots i).wc
    let wc := if isFatalErr then { wc with
      status := IB_WC_WR_FLUSH_ERR
      vendorErr := MLX5_CQE_SYNDROME_WR_FLUSH_ERR } else wc
    { s.setSlot i { s.slots i with wc := wc, inUse := false } with
      wcList := l
      polled := s.polled ++ [wc] }

/-- `poll_soft_wc`. -/
def pollSoftWc (isFatalErr : Bool) : ℕ → Gsi → Gsi
  | 0, s => s
  | numEntries + 1, s => pollSoftWc isFatalErr numEntries (s.pollOne isFatalErr)

/-- What may happen next: a WR is posted, the hardware completes the WR it holds for slot `i`, or the
    CQ is polled. -/
inductive Act where
  | post (wr : Wr) (qps : Qps) (hwErr : Option Errno)
  | complete (i : ℕ) (wc : Wc)
  | poll (numEntries : ℕ) (isFatalErr : Bool)

/-- The machine. -/
def step (m : ℕ) (s : Gsi) : Act → Gsi
  | .post wr qps hwErr => match gsiPostSend m s wr qps hwErr with
    | (none, s') => { s' with posted := s.posted ++ [wr.wrId] }
    | (some _, s') => s'
  | .complete i wc =>
    if i ∈ s.hw then handleSingleCompletion m { s with hw := s.hw.erase i } i wc else s
  | .poll numEntries isFatalErr => pollSoftWc isFatalErr numEntries s

/-- `mlx5_ib_create_gsi`: everything is zero. -/
def init : Gsi where
  pi := 0
  ci := 0
  slots := fun _ => ⟨⟨0, 0, 0, 0, 0, false⟩, false, false⟩
  wcList := []
  hw := []
  polled := []
  posted := []

/-! ### The window -/

/-- The number of counter values from `ci` up to `pi`. -/
def gap (pi ci : ℕ) : ℕ := (pi + 2 ^ 32 - ci) % 2 ^ 32

/-- The slots of the counter values from `ci` up to `pi`. -/
def window (m pi ci : ℕ) : List ℕ := (List.range (gap pi ci)).map fun j => add32 ci j % m

/-- The slots of the outstanding WRs, oldest first. -/
def Gsi.outs (m : ℕ) (s : Gsi) : List ℕ := window m s.pi s.ci

/-- The slots that hold a WR not yet polled, oldest first. -/
def Gsi.live (m : ℕ) (s : Gsi) : List ℕ := s.wcList ++ s.outs m

/-- The `wr_id` that a slot holds. -/
def idOf (slots : ℕ → Slot) (i : ℕ) : ℕ := (slots i).wc.wrId

/-- No counter of the window that lies before the wrap shares its slot with the next one. -/
def NoClash (m : ℕ) (s : Gsi) : Prop :=
  s.pi < s.ci → ∀ a, s.ci ≤ a → a < 2 ^ 32 → a % m ≠ s.pi % m

/-- A WR is posted to a full ring or to a slot of its own. -/
def ok (m : ℕ) (s : Gsi) : Act → Prop
  | .post _ _ _ => s.pi = add32 s.ci m ∨ NoClash m s
  | _ => True

/-- What holds between any two steps. -/
structure Inv (m : ℕ) (s : Gsi) : Prop where
  piLt : s.pi < 2 ^ 32
  ciLt : s.ci < 2 ^ 32
  gapLe : gap s.pi s.ci ≤ m
  nodup : (s.live m).Nodup
  inUse : ∀ i, (s.slots i).inUse = true ↔ i ∈ s.wcList
  completed : ∀ i, (s.slots i).completed = true → i ∈ s.outs m
  hwNodup : s.hw.Nodup
  hwIff : ∀ i, i ∈ s.hw ↔ i ∈ s.outs m ∧ (s.slots i).completed = false
  posted : s.posted = s.polled.map Wc.wrId ++ (s.live m).map (idOf s.slots)

section Window

variable {m pi ci : ℕ}

theorem add32_lt (a b : ℕ) : add32 a b < 2 ^ 32 := Nat.mod_lt _ (by norm_num)

section
variable (hpi : pi < 2 ^ 32) (hci : ci < 2 ^ 32)
include hpi hci

theorem add32_gap : add32 ci (gap pi ci) = pi := by
  unfold add32 gap
  omega

theorem gap_eq_zero_iff : gap pi ci = 0 ↔ ci = pi := by
  unfold gap
  omega

/-- The ring is full exactly when the window has `max_send_wr` values. -/
theorem full_iff (hm : m < 2 ^ 32) : pi = add32 ci m ↔ gap pi ci = m := by
  unfold add32 gap
  omega

theorem gap_retire (hne : ci ≠ pi) : gap pi ci = gap pi (add32 ci 1) + 1 := by
  unfold add32 gap
  omega

theorem gap_push (hlt : gap pi ci + 1 < 2 ^ 32) : gap (add32 pi 1) ci = gap pi ci + 1 := by
  unfold add32 gap at *
  omega

/-- The window loses its oldest value. -/
theorem window_retire (hne : ci ≠ pi) : window m pi ci = ci % m :: window m pi (add32 ci 1) := by
  unfold window
  rw [gap_retire hpi hci hne, List.range_succ_eq_map, List.map_cons, List.map_map]
  congr 1
  · unfold add32
    rw [Nat.add_zero, Nat.mod_eq_of_lt hci]
  · refine List.map_congr_left fun j _ => ?_
    simp only [comp_apply, add32]
    congr 1
    omega

/-- The window gets a newest value. -/
theorem window_push (hlt : gap pi ci + 1 < 2 ^ 32) :
    window m (add32 pi 1) ci = window m pi ci ++ [pi % m] := by
  unfold window
  rw [gap_push hpi hci hlt, List.range_succ, map_append, List.map_singleton, add32_gap hpi hci]

/-- Where the ring is not full and no value before the wrap clashes, the next slot is outside the
    window. -/
theorem not_mem_window (hlt : gap pi ci < m)
    (hclash : pi < ci → ∀ a, ci ≤ a → a < 2 ^ 32 → a % m ≠ pi % m) : pi % m ∉ window m pi ci := by
  intro hmem
  obtain ⟨j, hj, heq⟩ := List.mem_map.mp hmem
  rw [List.mem_range] at hj
  -- a value at most `m - 1` behind `pi` has another remainder
  have hnear : ∀ a, a < pi → pi - a < m → a % m ≠ pi % m := by
    intro a ha hd h
    have hdvd : m ∣ pi - a := (Nat.modEq_iff_dvd' ha.le).mp h
    exact absurd (Nat.le_of_dvd (by omega) hdvd) (by omega)
  unfold gap at hj hlt
  rcases Nat.lt_or_ge (ci + j) (2 ^ 32) with hno | hwrap
  · have ha : add32 ci j = ci + j := Nat.mod_eq_of_lt hno
    rw [ha] at heq
    rcases Nat.lt_or_ge pi ci with hcross | hle
    · exact hclash hcross _ (by omega) hno heq
    · exact hnear _ (by omega) (by omega) heq
  · have ha : add32 ci j = ci + j - 2 ^ 32 := by
      unfold add32
      omega
    exact hnear _ (by omega) (by omega) heq

end

end Window

/-! ### What a step keeps -/

section Keep

variable {m : ℕ} {s : Gsi}

/-- The `wr_id`s of a list of slots are not changed by a slot outside the list. -/
theorem map_idOf_update {slots : ℕ → Slot} {l : List ℕ} {i : ℕ} (slot : Slot) (h : i ∉ l) :
    l.map (idOf (update slots i slot)) = l.map (idOf slots) := by
  refine List.map_congr_left fun j hj => ?_
  have hne : j ≠ i := fun hji => h (hji ▸ hj)
  unfold idOf
  rw [update_of_ne hne]

/-- A slot that keeps its `wr_id` changes nothing. -/
theorem idOf_update {slots : ℕ → Slot} {i : ℕ} {slot : Slot} (h : slot.wc.wrId = idOf slots i) :
    idOf (update slots i slot) = idOf slots := by
  funext j
  rcases eq_or_ne j i with rfl | hne
  · rw [← h]
    unfold idOf
    rw [update_self]
  · unfold idOf
    rw [update_of_ne hne]

/-- STEP: a completed oldest slot moves to the `wc_list`. -/
theorem Inv.retire (inv : Inv m s) (hne : s.ci ≠ s.pi)
    (hc : (s.slots (s.ci % m)).completed = true) : Inv m (s.retire m) := by
  have hout : s.outs m = s.ci % m :: (s.retire m).outs m :=
    window_retire inv.piLt inv.ciLt hne
  have hlive : (s.retire m).live m = s.live m := by
    simp only [Gsi.live, hout, Gsi.retire, append_assoc, List.singleton_append]
  have hnd : (s.ci % m :: (s.retire m).outs m).Nodup :=
    hout ▸ (List.nodup_append.mp inv.nodup).2.1
  have hni : s.ci % m ∉ (s.retire m).outs m := (List.nodup_cons.mp hnd).1
  constructor
  · exact inv.piLt
  · exact add32_lt _ _
  · have := gap_retire inv.piLt inv.ciLt hne
    have hle := inv.gapLe
    change gap s.pi (add32 s.ci 1) ≤ m
    omega
  · exact hlive ▸ inv.nodup
  · intro i
    rcases eq_or_ne i (s.ci % m) with rfl | hi
    · simp [Gsi.retire, Gsi.setSlot]
    · simp only [Gsi.retire, Gsi.setSlot, update_of_ne hi, mem_append,
        List.mem_singleton, hi, or_false]
      exact inv.inUse i
  · intro i h
    rcases eq_or_ne i (s.ci % m) with rfl | hi
    · simp [Gsi.retire, Gsi.setSlot] at h
    · simp only [Gsi.retire, Gsi.setSlot, update_of_ne hi] at h
      have hmem := inv.completed i h
      rw [hout] at hmem
      exact (List.mem_cons.mp hmem).resolve_left hi
  · exact inv.hwNodup
  · intro i
    change i ∈ s.hw ↔ _
    rw [inv.hwIff i, hout]
    rcases eq_or_ne i (s.ci % m) with rfl | hi
    · simp [hc, hni]
    · simp [Gsi.retire, Gsi.setSlot, hi]
  · rw [hlive]
    have hid : idOf (s.retire m).slots = idOf s.slots := idOf_update rfl
    rw [hid]
    exact inv.posted

/-- STEP: `generate_completions`. -/
theorem Inv.generateCompletions (inv : Inv m s) (fuel : ℕ) :
    Inv m (generateCompletions m fuel s) := by
  induction fuel generalizing s with
  | zero => exact inv
  | succ fuel ih =>
    unfold Mlx5Gsi.generateCompletions
    split_ifs with hne hc
    · exact inv
    · exact inv
    · exact ih (inv.retire hne (by simpa using hc))

/-- After `generate_completions` the oldest outstanding WR is not completed. -/
theorem generateCompletions_head (inv : Inv m s) {fuel : ℕ} (hf : gap s.pi s.ci < fuel) :
    (generateCompletions m fuel s).ci = (generateCompletions m fuel s).pi ∨
      ((generateCompletions m fuel s).slots
        ((generateCompletions m fuel s).ci % m)).completed = false := by
  induction fuel generalizing s with
  | zero => omega
  | succ fuel ih =>
    unfold Mlx5Gsi.generateCompletions
    split_ifs with heq hc
    · exact .inl heq
    · exact .inr (by simpa using hc)
    · refine ih (inv.retire heq (by simpa using hc)) ?_
      have hgap := gap_retire inv.piLt inv.ciLt heq
      change gap s.pi (add32 s.ci 1) < fuel
      omega

/-- Where everything outstanding is held by the hardware and the oldest is completed or gone. -/
def Settled (m : ℕ) (s : Gsi) : Prop := s.ci = s.pi ∨ (s.slots (s.ci % m)).completed = false

theorem Inv.generate (inv : Inv m s) : Inv m (s.generate m) ∧ Settled m (s.generate m) :=
  ⟨inv.generateCompletions _, generateCompletions_head inv (Nat.mod_lt _ (by norm_num))⟩

/-- STEP: one polled entry. -/
theorem Inv.pollOne (inv : Inv m s) (isFatalErr : Bool) : Inv m (s.pollOne isFatalErr) := by
  unfold Gsi.pollOne
  cases hl : s.wcList with
  | nil => exact inv
  | cons i l =>
    have hlive : s.live m = i :: (l ++ s.outs m) := by
      unfold Gsi.live
      rw [hl]
      rfl
    have hnd := inv.nodup
    rw [hlive] at hnd
    have hni : i ∉ l ++ s.outs m := (List.nodup_cons.mp hnd).1
    constructor
    · exact inv.piLt
    · exact inv.ciLt
    · exact inv.gapLe
    · exact (List.nodup_cons.mp hnd).2
    · intro j
      rcases eq_or_ne j i with rfl | hne
      · have : j ∉ l := fun h => hni (List.mem_append_left _ h)
        simp [Gsi.setSlot, this]
      · simp only [Gsi.setSlot, update_of_ne hne]
        rw [inv.inUse j, hl, List.mem_cons]
        exact or_iff_right hne
    · intro j h
      rcases eq_or_ne j i with rfl | hne
      · simp only [Gsi.setSlot, update_self] at h
        exact inv.completed j h
      · simp only [Gsi.setSlot, update_of_ne hne] at h
        exact inv.completed j h
    · exact inv.hwNodup
    · intro j
      rcases eq_or_ne j i with rfl | hne
      · simp only [Gsi.setSlot, update_self]
        exact inv.hwIff j
      · simp only [Gsi.setSlot, update_of_ne hne]
        exact inv.hwIff j
    · have hpost := inv.posted
      rw [hlive, List.map_cons] at hpost
      simp only [Gsi.setSlot, Gsi.live, map_append, append_assoc] at hpost ⊢
      have hid : ∀ slot : Slot, slot.wc.wrId = idOf s.slots i →
          idOf (update s.slots i slot) = idOf s.slots := fun _ h => idOf_update h
      rw [hid _ (by cases isFatalErr <;> rfl), hpost]
      cases isFatalErr <;> rfl

/-- STEP: `poll_soft_wc`. -/
theorem Inv.pollSoftWc (inv : Inv m s) (isFatalErr : Bool) (numEntries : ℕ) :
    Inv m (pollSoftWc isFatalErr numEntries s) := by
  induction numEntries generalizing s with
  | zero => exact inv
  | succ n ih => exact ih (inv.pollOne isFatalErr)

/-- A polled entry leaves `completed` alone. -/
theorem pollOne_completed (isFatalErr : Bool) (i : ℕ) :
    ((s.pollOne isFatalErr).slots i).completed = (s.slots i).completed := by
  unfold Gsi.pollOne
  split
  · rfl
  · rename_i j l hl
    rcases eq_or_ne i j with rfl | hne
    · simp [Gsi.setSlot]
    · simp [Gsi.setSlot, hne]

theorem pollOne_counters (isFatalErr : Bool) :
    (s.pollOne isFatalErr).ci = s.ci ∧ (s.pollOne isFatalErr).pi = s.pi := by
  unfold Gsi.pollOne
  split <;> exact ⟨rfl, rfl⟩

theorem Settled.pollSoftWc (h : Settled m s) (isFatalErr : Bool) (numEntries : ℕ) :
    Settled m (pollSoftWc isFatalErr numEntries s) := by
  induction numEntries generalizing s with
  | zero => exact h
  | succ n ih =>
    refine ih ?_
    unfold Settled
    rw [(pollOne_counters isFatalErr).1, (pollOne_counters isFatalErr).2, pollOne_completed]
    exact h

/-- STEP: the hardware completes a WR that it holds. -/
theorem Inv.complete (inv : Inv m s) {i : ℕ} (hi : i ∈ s.hw) {slot : Slot}
    (hid : slot.wc.wrId = idOf s.slots i) (huse : slot.inUse = (s.slots i).inUse)
    (hc : slot.completed = true) : Inv m ({ s with hw := s.hw.erase i }.setSlot i slot) := by
  have hout : i ∈ s.outs m := ((inv.hwIff i).mp hi).1
  constructor
  · exact inv.piLt
  · exact inv.ciLt
  · exact inv.gapLe
  · exact inv.nodup
  · intro j
    rcases eq_or_ne j i with rfl | hne
    · simp only [Gsi.setSlot, update_self, huse]
      exact inv.inUse j
    · simp only [Gsi.setSlot, update_of_ne hne]
      exact inv.inUse j
  · intro j h
    rcases eq_or_ne j i with rfl | hne
    · exact hout
    · simp only [Gsi.setSlot, update_of_ne hne] at h
      exact inv.completed j h
  · exact inv.hwNodup.erase i
  · intro j
    simp only [Gsi.setSlot]
    rw [inv.hwNodup.mem_erase_iff]
    rcases eq_or_ne j i with rfl | hne
    · simp [hc]
    · rw [update_of_ne hne, inv.hwIff j]
      exact and_iff_right hne
  · have hids : idOf ({ s with hw := s.hw.erase i }.setSlot i slot).slots = idOf s.slots :=
      idOf_update hid
    rw [hids]
    exact inv.posted

/-- The slot of the next WR holds none. -/
theorem Inv.next_not_mem (inv : Inv m s) (hm : m < 2 ^ 32) (hfull : s.pi ≠ add32 s.ci m)
    (hclash : NoClash m s) (hfree : (s.slots (s.pi % m)).inUse = false) :
    s.pi % m ∉ s.live m := by
  have hlt : gap s.pi s.ci < m :=
    lt_of_le_of_ne inv.gapLe fun h => hfull ((full_iff inv.piLt inv.ciLt hm).mpr h)
  unfold Gsi.live
  rw [mem_append]
  rintro (hq | ho)
  · rw [← inv.inUse, hfree] at hq
    cases hq
  · exact not_mem_window inv.piLt inv.ciLt hlt hclash ho

/-- STEP: a WR takes the next slot. -/
theorem Inv.push (inv : Inv m s) (hm : m < 2 ^ 32) (hfull : s.pi ≠ add32 s.ci m)
    (hclash : NoClash m s) (hfree : (s.slots (s.pi % m)).inUse = false) {slot : Slot}
    (huse : slot.inUse = false) :
    Inv m { s.setSlot (s.pi % m) slot with
      pi := add32 s.pi 1
      hw := if slot.completed then s.hw else s.hw ++ [s.pi % m]
      posted := s.posted ++ [slot.wc.wrId] } := by
  have hni := inv.next_not_mem hm hfull hclash hfree
  have hno : s.pi % m ∉ s.outs m := fun h => hni (List.mem_append_right _ h)
  have hnq : s.pi % m ∉ s.wcList := fun h => hni (List.mem_append_left _ h)
  have hnh : s.pi % m ∉ s.hw := fun h => hno ((inv.hwIff _).mp h).1
  have hlt : gap s.pi s.ci < m :=
    lt_of_le_of_ne inv.gapLe fun h => hfull ((full_iff inv.piLt inv.ciLt hm).mpr h)
  have hout : window m (add32 s.pi 1) s.ci = s.outs m ++ [s.pi % m] :=
    window_push inv.piLt inv.ciLt (by omega)
  have hlive : s.wcList ++ window m (add32 s.pi 1) s.ci = s.live m ++ [s.pi % m] := by
    rw [hout, ← append_assoc]
    rfl
  constructor
  · exact add32_lt _ _
  · exact inv.ciLt
  · change gap (add32 s.pi 1) s.ci ≤ m
    rw [gap_push inv.piLt inv.ciLt (by omega)]
    exact hlt
  · change (s.wcList ++ window m (add32 s.pi 1) s.ci).Nodup
    rw [hlive, List.nodup_append]
    refine ⟨inv.nodup, List.nodup_singleton _, fun a ha b hb => ?_⟩
    rw [List.mem_singleton.mp hb]
    exact fun h => hni (h ▸ ha)
  · intro j
    rcases eq_or_ne j (s.pi % m) with rfl | hne
    · simp [Gsi.setSlot, huse, hnq]
    · simp only [Gsi.setSlot, update_of_ne hne]
      exact inv.inUse j
  · intro j h
    change j ∈ window m (add32 s.pi 1) s.ci
    rw [hout, mem_append, List.mem_singleton]
    rcases eq_or_ne j (s.pi % m) with rfl | hne
    · exact .inr rfl
    · simp only [Gsi.setSlot, update_of_ne hne] at h
      exact .inl (inv.completed j h)
  · cases slot.completed with
    | true => exact inv.hwNodup
    | false =>
      refine List.nodup_append.mpr ⟨inv.hwNodup, List.nodup_singleton _, fun a ha b hb => ?_⟩
      rw [List.mem_singleton.mp hb]
      exact fun h => hnh (h ▸ ha)
  · intro j
    change j ∈ (if slot.completed then s.hw else s.hw ++ [s.pi % m]) ↔
      j ∈ window m (add32 s.pi 1) s.ci ∧ (update s.slots _ slot j).completed = false
    rw [hout, mem_append, List.mem_singleton]
    rcases eq_or_ne j (s.pi % m) with rfl | hne
    · cases hc : slot.completed <;> simp [hnh, hc]
    · rw [update_of_ne hne, or_iff_left hne, ← inv.hwIff j]
      cases slot.completed <;> simp [hne]
  · change s.posted ++ [slot.wc.wrId] = s.polled.map Wc.wrId ++
      (s.wcList ++ window m (add32 s.pi 1) s.ci).map (idOf (update s.slots _ slot))
    rw [hlive, map_append, map_idOf_update slot hni, ← append_assoc, ← inv.posted]
    simp [idOf]

/-- STEP: a slot that holds no WR may be written. -/
theorem Inv.overwrite (inv : Inv m s) {i : ℕ} (hi : i ∉ s.live m) (wc : Wc) :
    Inv m (s.setSlot i { s.slots i with wc := wc }) := by
  have hin : ∀ j, ((s.setSlot i { s.slots i with wc := wc }).slots j).inUse =
      (s.slots j).inUse := by
    intro j
    rcases eq_or_ne j i with rfl | hne
    · simp [Gsi.setSlot]
    · simp [Gsi.setSlot, hne]
  have hco : ∀ j, ((s.setSlot i { s.slots i with wc := wc }).slots j).completed =
      (s.slots j).completed := by
    intro j
    rcases eq_or_ne j i with rfl | hne
    · simp [Gsi.setSlot]
    · simp [Gsi.setSlot, hne]
  constructor
  · exact inv.piLt
  · exact inv.ciLt
  · exact inv.gapLe
  · exact inv.nodup
  · intro j
    rw [hin]
    exact inv.inUse j
  · intro j h
    rw [hco] at h
    exact inv.completed j h
  · exact inv.hwNodup
  · intro j
    rw [hco]
    exact inv.hwIff j
  · change s.posted = s.polled.map Wc.wrId ++ (s.live m).map (idOf (update s.slots i _))
    rw [map_idOf_update _ hi]
    exact inv.posted

/-- The next slot is taken. -/
def Gsi.pushSlot (m : ℕ) (s : Gsi) (wr : Wr) (wc : Option Wc) : Gsi :=
  { s.setSlot (s.pi % m) (newSlot (s.slots (s.pi % m)) wr wc) with pi := add32 s.pi 1 }

/-- `mlx5_ib_add_outstanding_wr` fails, or it found room and a free slot. -/
theorem addOutstandingWr_cases (wr : Wr) (wc : Option Wc) :
    addOutstandingWr m s wr wc = .error .enomem ∨
      s.pi ≠ add32 s.ci m ∧ (s.slots (s.pi % m)).inUse = false ∧
        addOutstandingWr m s wr wc = .ok (s.pushSlot m wr wc) := by
  unfold addOutstandingWr
  by_cases hfull : s.pi = add32 s.ci m
  · exact .inl (if_pos hfull)
  · rw [if_neg hfull]
    cases huse : (s.slots (s.pi % m)).inUse with
    | true => exact .inl (by simp [huse])
    | false => exact .inr ⟨hfull, rfl, by simp [huse, Gsi.pushSlot]⟩

/-- Everything a post can do: fail and change nothing, complete the WR at once, hand it to the
    hardware, or fail after the slot was written. -/
theorem step_post_cases (hpi : s.pi < 2 ^ 32) (wr : Wr) (qps : Qps) (hwErr : Option Errno) :
    step m s (.post wr qps hwErr) = s ∨ s.pi ≠ add32 s.ci m ∧ (s.slots (s.pi % m)).inUse = false ∧
      (step m s (.post wr qps hwErr) = { (s.pushSlot m wr (some (dropWc wr))).generate m with
            posted := s.posted ++ [wr.wrId] } ∨ step m s (.post wr qps hwErr) =
          { s.pushSlot m wr none with
            hw := s.hw ++ [s.pi % m], posted := s.posted ++ [wr.wrId] } ∨
        step m s (.post wr qps hwErr) =
          s.setSlot (s.pi % m) (newSlot (s.slots (s.pi % m)) wr none)) := by
  unfold step gsiPostSend silentDrop
  cases hq : getTxQp qps wr with
  | none =>
    rcases addOutstandingWr_cases (m := m) (s := s) wr (some (dropWc wr)) with herr | ⟨hfull, hfree, hok⟩
    · simp only [hq, herr]
      exact .inl rfl
    · simp only [hq, hok]
      exact .inr ⟨hfull, hfree, .inl rfl⟩
  | some qp =>
    rcases addOutstandingWr_cases (m := m) (s := s) wr none with herr | ⟨hfull, hfree, hok⟩
    · simp only [hq, herr]
      exact .inl trivial
    · simp only [hq, hok]
      refine .inr ⟨hfull, hfree, .inr ?_⟩
      cases hwErr with
      | none => exact .inl rfl
      | some e =>
        -- the counter steps back to where it was
        have hundo : toU 32 ((add32 s.pi 1 : ℕ) - 1 : ℤ) = s.pi := by
          unfold toU add32
          omega
        exact .inr (by simp only [Gsi.pushSlot, hundo, Gsi.setSlot])

theorem generateCompletions_posted (l : List ℕ) (fuel : ℕ) :
    generateCompletions m fuel { s with posted := l } =
      { generateCompletions m fuel s with posted := l } := by
  induction fuel generalizing s with
  | zero => rfl
  | succ fuel ih =>
    unfold generateCompletions
    split_ifs
    · rfl
    · rfl
    · exact @ih (s.retire m)

/-- A free slot is not completed. -/
theorem Inv.completed_eq_false (inv : Inv m s) {i : ℕ} (h : i ∉ s.live m) :
    (s.slots i).completed = false := by
  by_contra hc
  exact h (List.mem_append_right _ (inv.completed i (by simpa using hc)))

/-- A slot that is written and stays uncompleted leaves the oldest WR as it was. -/
theorem Settled.update (h : Settled m s) {i : ℕ} {slot : Slot} (hc : slot.completed = false)
    (hhead : s.ci = s.pi → s.ci % m = i) :
    (Function.update s.slots i slot (s.ci % m)).completed = false := by
  rcases eq_or_ne (s.ci % m) i with heq | hne
  · rw [heq, update_self]
    exact hc
  · rw [update_of_ne hne]
    exact h.resolve_left fun he => hne (hhead he)

/-- STEP: a post, whatever it meets. -/
theorem Inv.post (inv : Inv m s) (hset : Settled m s) (hm : m < 2 ^ 32) {wr : Wr} {qps : Qps}
    {hwErr : Option Errno} (hok : s.pi = add32 s.ci m ∨ NoClash m s) :
    Inv m (step m s (.post wr qps hwErr)) ∧ Settled m (step m s (.post wr qps hwErr)) := by
  rcases step_post_cases inv.piLt wr qps hwErr with hs | ⟨hfull, hfree, hs⟩
  · rw [hs]
    exact ⟨inv, hset⟩
  have hclash := hok.resolve_left hfull
  have hni := inv.next_not_mem hm hfull hclash hfree
  have hc := inv.completed_eq_false hni
  have huse : ∀ wc, (newSlot (s.slots (s.pi % m)) wr wc).inUse = false := by
    intro wc
    cases wc <;> exact hfree
  rcases hs with hs | hs | hs
  · rw [hs, Gsi.generate, ← generateCompletions_posted]
    exact (inv.push hm hfull hclash hfree (huse (some (dropWc wr)))).generate
  · have hpush := inv.push hm hfull hclash hfree (huse none)
    rw [show (newSlot (s.slots (s.pi % m)) wr none).completed = false from hc] at hpush
    rw [hs]
    exact ⟨hpush, .inr (hset.update hc fun h => h ▸ rfl)⟩
  · rw [hs]
    exact ⟨inv.overwrite hni _, hset.imp_right fun _ => hset.update hc fun h => h ▸ rfl⟩

/-- STEP: every step that `ok` admits keeps the invariant. -/
theorem Inv.step (inv : Inv m s) (hset : Settled m s) (hm : m < 2 ^ 32) {a : Act} (hok : ok m s a) :
    Inv m (step m s a) ∧ Settled m (step m s a) := by
  cases a with
  | post wr qps hwErr => exact inv.post hset hm hok
  | complete i wc =>
    unfold Mlx5Gsi.step
    simp only
    split_ifs with hi
    · have hdone : Inv m ({ s with hw := s.hw.erase i }.setSlot i { s.slots i with
          completed := true
          wc := { wc with wrId := (s.slots i).wc.wrId, gsiQp := true } }) :=
        inv.complete hi rfl rfl rfl
      exact hdone.generate
    · exact ⟨inv, hset⟩
  | poll numEntries isFatalErr =>
    exact ⟨inv.pollSoftWc isFatalErr numEntries, hset.pollSoftWc isFatalErr numEntries⟩

/-- RUN: the invariant holds in every state of every run. -/
theorem reach_inv (hm : m < 2 ^ 32) (h : Reach (Mlx5Gsi.step m) (ok m) init s) :
    Inv m s ∧ Settled m s := by
  refine @Reach.invariant _ _ _ _ _ _ (fun s => Inv m s ∧ Settled m s) h ⟨?_, .inl rfl⟩
    fun s a hok ⟨inv, hset⟩ => inv.step hset hm hok
  constructor <;> simp [init, gap, window, Gsi.live, Gsi.outs]

/-- Nothing is outstanding when the hardware holds no WR. -/
theorem Inv.outs_eq_nil (inv : Inv m s) (hset : Settled m s) (hhw : s.hw = []) :
    s.outs m = [] := by
  by_cases hne : s.ci = s.pi
  · have hgap : gap s.pi s.ci = 0 := (gap_eq_zero_iff inv.piLt inv.ciLt).mpr hne
    simp [Gsi.outs, window, hgap]
  · have hmem : s.ci % m ∈ s.outs m := by
      unfold Gsi.outs
      rw [window_retire inv.piLt inv.ciLt hne]
      exact List.mem_cons_self
    have hin := (inv.hwIff _).mpr ⟨hmem, hset.resolve_left hne⟩
    rw [hhw] at hin
    cases hin

/-- A ring size that divides `2 ^ 32` never clashes. -/
theorem ok_of_dvd (inv : Inv m s) (hm : m < 2 ^ 32) (hdvd : m ∣ 2 ^ 32) (a : Act) : ok m s a := by
  cases a with
  | post wr qps hwErr =>
    by_cases hfull : s.pi = add32 s.ci m
    · exact .inl hfull
    · refine .inr fun hcross a hge hlt heq => ?_
      have hgap : gap s.pi s.ci < m :=
        lt_of_le_of_ne inv.gapLe fun h => hfull ((full_iff inv.piLt inv.ciLt hm).mpr h)
      unfold gap at hgap
      have hmod : a ≡ s.pi + 2 ^ 32 [MOD m] := by
        have h0 : 2 ^ 32 ≡ 0 [MOD m] := (Nat.modEq_zero_iff_dvd).mpr hdvd
        exact Nat.ModEq.trans heq (h0.add_left s.pi).symm
      have hd : m ∣ s.pi + 2 ^ 32 - a := (Nat.modEq_iff_dvd' (by omega)).mp hmod
      exact absurd (Nat.le_of_dvd (by omega) hd) (by omega)
  | complete i wc => trivial
  | poll numEntries isFatalErr => trivial

/-- CORRECT: in every run whose posts meet no clash at the wrap of the counters, the completions that
    were polled or are queued are those of the posted WRs, in posting order, up to the WRs still
    outstanding; once the hardware has completed everything none is outstanding. A slot holds one WR
    at most, and a post that succeeds takes a slot that holds none. -/
theorem gsi_completions_in_order (hm : m < 2 ^ 32) (h : Reach (Mlx5Gsi.step m) (ok m) init s) :
    s.posted = (s.polled.map Wc.wrId ++ s.wcList.map (idOf s.slots)) ++
        (s.outs m).map (idOf s.slots) ∧
      (s.hw = [] → s.posted = s.polled.map Wc.wrId ++ s.wcList.map (idOf s.slots)) ∧
      (s.wcList ++ s.outs m).Nodup ∧
      (∀ i, i ∈ s.hw ↔ i ∈ s.outs m ∧ (s.slots i).completed = false) ∧
      (∀ wr qps hwErr s', ok m s (.post wr qps hwErr) →
        gsiPostSend m s wr qps hwErr = (none, s') → s.pi % m ∉ s.wcList ++ s.outs m) := by
  obtain ⟨inv, hset⟩ := reach_inv hm h
  have hposted := inv.posted
  rw [Gsi.live, map_append, ← append_assoc] at hposted
  refine ⟨hposted, fun hhw => ?_, inv.nodup, inv.hwIff, ?_⟩
  · rwa [inv.outs_eq_nil hset hhw, List.map_nil, List.append_nil] at hposted
  · intro wr qps hwErr s' hok hpost
    have hroom : s.pi ≠ add32 s.ci m ∧ (s.slots (s.pi % m)).inUse = false := by
      unfold gsiPostSend silentDrop at hpost
      rcases addOutstandingWr_cases (m := m) (s := s) wr (some (dropWc wr)) with herr | hroom
      · rcases addOutstandingWr_cases (m := m) (s := s) wr none with herr' | hroom
        · cases hq : getTxQp qps wr <;> simp [hq, herr, herr', Except.map] at hpost
        · exact ⟨hroom.1, hroom.2.1⟩
      · exact ⟨hroom.1, hroom.2.1⟩
    exact inv.next_not_mem hm hroom.1 (hok.resolve_left hroom.1) hroom.2

/-- RUN: with a ring size that divides `2 ^ 32` this holds of every run whatsoever. -/
theorem reach_ok_of_dvd (hm : m < 2 ^ 32) (hdvd : m ∣ 2 ^ 32)
    (h : Reach (Mlx5Gsi.step m) (fun _ _ => True) init s) :
    Reach (Mlx5Gsi.step m) (ok m) init s := by
  induction h with
  | start => exact .start
  | next _ _ ih => exact .next ih (ok_of_dvd (reach_inv hm ih).1 hm hdvd _)

/-! ### The wrap -/

/-- A post that finds a hardware QP, room and a free slot. -/
theorem step_post_hw {wr : Wr} {qps : Qps} {qp : ℕ} (hqp : getTxQp qps wr = some qp)
    (hfull : s.pi ≠ add32 s.ci m) (hfree : (s.slots (s.pi % m)).inUse = false) :
    Mlx5Gsi.step m s (.post wr qps none) = { s.pushSlot m wr none with
      hw := s.hw ++ [s.pi % m], posted := s.posted ++ [wr.wrId] } := by
  have hadd : addOutstandingWr m s wr none = .ok (s.pushSlot m wr none) := by
    unfold addOutstandingWr
    simp [hfull, hfree, Gsi.pushSlot]
  simp only [Mlx5Gsi.step, gsiPostSend, hqp, hadd]
  rfl

/-- A post that finds no QP, but room and a free slot. -/
theorem step_post_drop {wr : Wr} {qps : Qps} (hqp : getTxQp qps wr = none)
    (hfull : s.pi ≠ add32 s.ci m) (hfree : (s.slots (s.pi % m)).inUse = false) :
    Mlx5Gsi.step m s (.post wr qps none) = { (s.pushSlot m wr (some (dropWc wr))).generate m with
      posted := s.posted ++ [wr.wrId] } := by
  have hadd : addOutstandingWr m s wr (some (dropWc wr)) =
      .ok (s.pushSlot m wr (some (dropWc wr))) := by
    unfold addOutstandingWr
    simp [hfull, hfree, Gsi.pushSlot]
  simp only [Mlx5Gsi.step, gsiPostSend, hqp, silentDrop, hadd]
  rfl

/-- `generate_completions` that finds the oldest WR completed and the next one not, or none. -/
theorem generate_one (hne : s.ci ≠ s.pi) (hc : (s.slots (s.ci % m)).completed = true)
    (hstop : Settled m (s.retire m)) : s.generate m = s.retire m := by
  change Mlx5Gsi.generateCompletions m (4294967294 + 1 + 1) s = _
  unfold Mlx5Gsi.generateCompletions
  rw [if_neg hne, if_neg (by simp [hc])]
  unfold Mlx5Gsi.generateCompletions
  rcases hstop with heq | hnc
  · rw [if_pos heq]
  · split_ifs
    · rfl
    · rfl
    · simp_all

/-- Nothing is posted that was not polled, and the counters stand at `k`. -/
structure Idle (k : ℕ) (s : Gsi) : Prop where
  pi : s.pi = k
  ci : s.ci = k
  wcList : s.wcList = []
  hw : s.hw = []
  free : ∀ i, (s.slots i).inUse = false ∧ (s.slots i).completed = false
  posted : s.posted = s.polled.map Wc.wrId

/-- No QP has been made yet. -/
def noQps : Qps := ⟨1, false, 0, fun _ => none⟩

/-- The P_Key's QP is number 1. -/
def oneQp : Qps := ⟨1, false, 0, fun _ => some 1⟩

/-- A WR that is dropped and polled moves both counters by one. -/
theorem Idle.next {k : ℕ} (h : Idle k s) (hk : k + 1 < 2 ^ 32) (hm : m ≠ 0) (hlt : m < 2 ^ 32) :
    Idle (k + 1) (Mlx5Gsi.step m (Mlx5Gsi.step m s (.post ⟨0, 0, 0⟩ noQps none))
      (.poll 1 false)) := by
  obtain ⟨rfl, hci, hwc, hhw, hfree, hposted⟩ := h
  have hfull : s.pi ≠ add32 s.ci m := by
    unfold add32
    omega
  have hone : add32 s.pi 1 = s.pi + 1 := Nat.mod_eq_of_lt hk
  have hgen := generate_one (m := m) (s := s.pushSlot m ⟨0, 0, 0⟩ (some (dropWc ⟨0, 0, 0⟩)))
    (by simp [Gsi.pushSlot, Gsi.setSlot, hci, hone]) (by simp [Gsi.pushSlot, Gsi.setSlot, hci,
      newSlot]) (.inl (by simp [Gsi.retire, Gsi.pushSlot, Gsi.setSlot, hci]))
  rw [step_post_drop rfl hfull (hfree _).1, hgen]
  simp only [Mlx5Gsi.step, Mlx5Gsi.pollSoftWc, Gsi.pollOne, Gsi.retire, Gsi.pushSlot, Gsi.setSlot,
    hwc, hci, hone]
  constructor
  · rfl
  · rfl
  · rfl
  · exact hhw
  · intro i
    rcases eq_or_ne i (s.pi % m) with rfl | hne
    · simp
    · simpa [hne] using hfree i
  · simp [hposted, newSlot, dropWc]

theorem exists_idle {k : ℕ} (hk : k < 2 ^ 32) (hm : m ≠ 0) (hlt : m < 2 ^ 32) :
    ∃ s, Reach (Mlx5Gsi.step m) (fun _ _ => True) init s ∧ Idle k s := by
  induction k with
  | zero => exact ⟨init, .start, rfl, rfl, rfl, rfl, fun _ => ⟨rfl, rfl⟩, rfl⟩
  | succ k ih =>
    obtain ⟨s, hreach, hidle⟩ := ih (by omega)
    exact ⟨_, (hreach.next trivial).next trivial, hidle.next hk hm hlt⟩

/-- What hardware reports. -/
def hwWc : Wc := ⟨0, IB_WC_SUCCESS, IB_WC_SEND, 0, 0, false⟩

/-- With 85 slots, the counters `2 ^ 32 - 1` and `0` name the same slot. -/
theorem two_posts_share_slot (h : Idle (2 ^ 32 - 1) s) :
    ∃ t, [.post ⟨1, 0, 0⟩ oneQp none, .post ⟨2, 0, 0⟩ oneQp none].foldl (Mlx5Gsi.step 85) s = t ∧
      t.pi = 1 ∧ t.ci = 2 ^ 32 - 1 ∧ t.wcList = [] ∧ t.hw = [0, 0] ∧
      (t.slots 0).wc.wrId = 2 ∧ (t.slots 0).completed = false ∧ (t.slots 0).inUse = false ∧
      t.posted = s.posted ++ [1, 2] ∧ t.polled = s.polled := by
  obtain ⟨hpi, hci, hwc, hhw, hfree, -⟩ := h
  have h1 := @step_post_hw 85 s ⟨1, 0, 0⟩ oneQp 1 rfl
    (by rw [hpi, hci]; decide) (hfree _).1
  rw [foldl_cons, foldl_cons, List.foldl_nil, h1]
  refine ⟨_, @step_post_hw _ _ _ _ 1 rfl ?_ ?_, ?_⟩
  · simp [Gsi.pushSlot, Gsi.setSlot, hpi, hci, add32]
  · simp [Gsi.pushSlot, Gsi.setSlot, hpi, add32, newSlot, (hfree 0).1]
  · simp [Gsi.pushSlot, Gsi.setSlot, hpi, hci, hwc, hhw, add32, newSlot, (hfree 0).1, (hfree 0).2]

/-- A hardware completion for slot 0, while the oldest outstanding WR has that slot and is the last or
    is followed by a WR that is not completed; then one poll. -/
theorem step_complete_poll {wc : Wc} (hhw : 0 ∈ s.hw) (hwc : s.wcList = []) (hne : s.ci ≠ s.pi)
    (hslot : s.ci % m = 0)
    (hstop : add32 s.ci 1 = s.pi ∨ add32 s.ci 1 % m = 0 ∨
      (s.slots (add32 s.ci 1 % m)).completed = false) :
    ∃ t, [.complete 0 wc, .poll 1 false].foldl (Mlx5Gsi.step m) s = t ∧
      t.pi = s.pi ∧ t.ci = add32 s.ci 1 ∧ t.wcList = [] ∧ t.hw = s.hw.erase 0 ∧
      (t.slots 0).wc.wrId = (s.slots 0).wc.wrId ∧ (t.slots 0).completed = false ∧
      t.posted = s.posted ∧
      t.polled.map Wc.wrId = s.polled.map Wc.wrId ++ [(s.slots 0).wc.wrId] := by
  have hgen := generate_one (m := m) (s := { s with hw := s.hw.erase 0 }.setSlot 0 { s.slots 0 with
      completed := true
      wc := { wc with wrId := (s.slots 0).wc.wrId, gsiQp := true } })
    hne (by simp [Gsi.setSlot, hslot]) (by
      rcases hstop with heq | hzero | hnc
      · exact .inl heq
      · exact .inr (by simp [Gsi.retire, Gsi.setSlot, hslot, hzero])
      · refine .inr ?_
        rcases eq_or_ne (add32 s.ci 1 % m) 0 with hz | hz
        · simp [Gsi.retire, Gsi.setSlot, hslot, hz]
        · simpa [Gsi.retire, Gsi.setSlot, hslot, hz] using hnc)
  refine ⟨_, rfl, ?_⟩
  rw [foldl_cons, foldl_cons, List.foldl_nil]
  simp only [Mlx5Gsi.step, hhw, handleSingleCompletion]
  rw [hgen]
  simp [Mlx5Gsi.pollSoftWc, Gsi.pollOne, Gsi.retire, Gsi.setSlot, hslot, hwc]

end Keep

/-- A queue of 85, counters about to wrap: the WRs 1 and 2 take the same slot, and when both are done
    and polled, the completion of WR 2 was delivered twice and that of WR 1 never. -/
theorem gsi_wrap_loses_completion :
    ∃ s, Reach (step 85) (fun _ _ => True) init s ∧ s.hw = [] ∧ s.wcList = [] ∧
      ∃ l, s.posted = l ++ [1, 2] ∧ s.polled.map Wc.wrId = l ++ [2, 2] := by
  obtain ⟨s, hreach, hidle⟩ := exists_idle (m := 85) (k := 2 ^ 32 - 1) (by norm_num) (by norm_num)
    (by norm_num)
  obtain ⟨t, ht, hpi, hci, hwc, hhw, hid, hc, -, hposted, hpolled⟩ := two_posts_share_slot hidle
  obtain ⟨u, hu, hpi₁, hci₁, hwc₁, hhw₁, hid₁, -, hposted₁, hpolled₁⟩ :=
    @step_complete_poll 85 t hwWc (by simp [hhw]) hwc (by rw [hci, hpi]; decide)
      (by rw [hci]; decide) (.inr (.inl (by rw [hci]; decide)))
  obtain ⟨v, hv, -, -, hwc₂, hhw₂, -, -, hposted₂, hpolled₂⟩ :=
    @step_complete_poll 85 u hwWc (by simp [hhw₁, hhw]) hwc₁
      (by rw [hci₁, hpi₁, hci, hpi]; decide) (by rw [hci₁, hci]; decide)
      (.inl (by rw [hci₁, hpi₁, hci, hpi]; decide))
  have hrun : ∀ (l : List Act) (w : Gsi), Runs (step 85) (fun _ _ => True) w l := by
    intro l
    induction l with
    | nil => exact fun _ => trivial
    | cons a l ih => exact fun w => ⟨trivial, ih _⟩
  refine ⟨v, ?_, ?_, hwc₂, s.posted, ?_, ?_⟩
  · subst hv hu ht
    exact ((hreach.runs (hrun _ s)).runs (hrun _ _)).runs (hrun _ _)
  · rw [hhw₂, hhw₁, hhw]
    decide
  · rw [hposted₂, hposted₁, hposted]
  · rw [hpolled₂, hpolled₁, hid₁, hid, hpolled, hidle.posted]
    simp

/-- Two WRs through a ring of four slots: WR 7 is dropped, WR 8 goes to hardware. -/
theorem gsi_completions_in_order_pair : ∃ s, Reach (step 4) (ok 4) init s ∧ s.posted = [7, 8] ∧
    s.posted = (s.polled.map Wc.wrId ++ s.wcList.map (idOf s.slots)) ++
      (s.outs 4).map (idOf s.slots) := by
  have hrun : Reach (step 4) (fun _ _ => True) init
      (step 4 (step 4 init (.post ⟨7, 0, 0⟩ noQps none)) (.post ⟨8, 0, 0⟩ oneQp none)) :=
    (Reach.start.next trivial).next trivial
  have hreach := reach_ok_of_dvd (by norm_num) (by norm_num) hrun
  exact ⟨_, hreach, rfl, (gsi_completions_in_order (by norm_num) hreach).1⟩

end RdmaDriver.Mlx5Gsi
