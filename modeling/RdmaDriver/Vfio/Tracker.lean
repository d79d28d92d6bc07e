import Mathlib.Data.Nat.Bitwise
import RdmaDriver.Basic
import RdmaDriver.Schemes.LapRing
import RdmaDriver.Schemes.Run

/-! @src drivers/vfio/pci/mlx5/cmd.c | name:Dirty page tracker | scheme:ring | family:report

    The device reports dirty pages as messages. Each takes the next posted receive, lands in the
    pages of that receive and leaves a CQE; `mlx5vf_tracker_read_and_clear` polls the CQEs, sets the
    reported addresses in the bitmap and posts the receive again:

        RQ  wqe₀ wqe₁ … wqeₙ₋₁      slot i always means the pages at i * max_msg_size
        CQ  cqe₀ cqe₁ … cqeₙ₋₁      read at cons_index, marked by the lap it was written in
            ▴ polled     ▴ sent     polled ≤ sent ≤ polled + n

    Buffers are kept by the address a reader or writer computes, page and offset, so that the
    driver's and the device's ways to an entry are compared and not assumed equal. -/

namespace RdmaDriver.Tracker
open RdmaDriver.Schemes Function
open Nat (log2 mod_lt)

/-- What the machine gives: the page shift and the cache line size; and the key and the tracked page
    size of the receive buffer. -/
structure Config where
  pageShift : ℕ
  cacheLine : ℕ
  mkey : ℕ
  trackedPageSize : ℕ
  lePageShift : 12 ≤ pageShift
  pageShiftLe : pageShift ≤ 31

/-- `struct mlx5_frag_buf_ctrl`, without the fragments. -/
structure Fbc where
  logStride : ℕ
  logSz : ℕ
  szM1 : ℕ
  logFragStrides : ℕ
  fragSzM1 : ℕ
  stridesOffset : ℕ

/-- `mlx5_init_fbc`. -/
def mlx5InitFbc (pageShift logStride logSz : ℕ) : Fbc where
  logStride := logStride
  logSz := logSz
  szM1 := 2 ^ logSz - 1
  logFragStrides := pageShift - logStride
  fragSzM1 := 2 ^ (pageShift - logStride) - 1
  stridesOffset := 0

/-- `mlx5_frag_buf_get_wqe`: the fragment and the offset in it. -/
def mlx5FragBufGetWqe (fbc : Fbc) (ix : ℕ) : ℕ × ℕ :=
  let ix := ix + fbc.stridesOffset
  (ix >>> fbc.logFragStrides, (fbc.fragSzM1 &&& ix) <<< fbc.logStride)

/-- Where the device finds byte `off` of a buffer: the page of its page list, the offset in it. -/
def bufAt (pageShift off : ℕ) : ℕ × ℕ := (off / 2 ^ pageShift, off % 2 ^ pageShift)

def SZ_2M : ℕ := 2 ^ 21

/-- `MLX5_SEND_WQE_DS`. -/
def MLX5_SEND_WQE_DS : ℕ := 16

/-- `MLX5_CQE_INVALID`, `MLX5_CQE_RESP_SEND_IMM`. -/
def MLX5_CQE_INVALID : ℕ := 15
def MLX5_CQE_RESP_SEND_IMM : ℕ := 3

/-- `MLX5_PAGE_TRACK_STATE_*`. -/
def TRACKING : ℕ := 0
def REPORTING : ℕ := 1
def ERROR : ℕ := 2

namespace Config

variable (cfg : Config)

/-- `PAGE_SIZE`. -/
def pageSize : ℕ := 2 ^ cfg.pageShift

/-- `max_msg_size` of `mlx5vf_start_page_tracker`. -/
def maxMsgSize : ℕ := cfg.pageSize

/-- `max_recv_wr` of `mlx5vf_start_page_tracker`. -/
def maxRecvWr : ℕ := divRoundUp SZ_2M cfg.maxMsgSize

/-- `cq->ncqe`, as `mlx5vf_create_cq` rounds it. -/
def ncqe : ℕ := roundupPowOfTwo cfg.maxRecvWr

/-- `rq.wqe_cnt`, as `mlx5vf_create_rc_qp` rounds it. -/
def wqeCnt : ℕ := roundupPowOfTwo cfg.maxRecvWr

/-- `recv_buf.npages`, as `mlx5vf_alloc_qp_recv_resources` computes it. -/
def npages : ℕ := divRoundUp SZ_2M cfg.pageSize

/-- `cqe_size` of `mlx5vf_create_cq`. -/
def cqeSize : ℕ := if cfg.cacheLine = 128 then 128 else 64

/-- The control of the CQ buffer, as `alloc_cq_frag_buf` sets it up. -/
def cqFbc : Fbc :=
  mlx5InitFbc cfg.pageShift (6 + if cfg.cqeSize = 128 then 1 else 0) (log2 cfg.cqeSize)

/-- The control of the receive queue, as `mlx5vf_create_rc_qp` sets it up. -/
def rqFbc : Fbc := mlx5InitFbc cfg.pageShift (log2 MLX5_SEND_WQE_DS) (log2 cfg.wqeCnt)

/-- The address of the `struct mlx5_cqe64` at index `i`, as `get_sw_cqe` and `init_cq_frag_buf`
    compute it. -/
def cqe64 (i : ℕ) : ℕ × ℕ :=
  let cqe := mlx5FragBufGetWqe cfg.cqFbc i
  if cfg.cqeSize = 64 then cqe else (cqe.1, cqe.2 + 64)

/-- The address of the receive WQE at index `i`. -/
def wqe (i : ℕ) : ℕ × ℕ := mlx5FragBufGetWqe cfg.rqFbc i

/-- Where the device writes CQE `i`: into the last 64 bytes of its entry. -/
def deviceCqe (i : ℕ) : ℕ × ℕ := bufAt cfg.pageShift (i * cfg.cqeSize + (cfg.cqeSize - 64))

/-- Where the device reads receive WQE `i`. -/
def deviceWqe (i : ℕ) : ℕ × ℕ := bufAt cfg.pageShift (i * MLX5_SEND_WQE_DS)

end Config

/-- `page_track_report_entry`. -/
structure Entry where
  dirtyAddressHigh : ℕ
  dirtyAddressLow : ℕ
  deriving DecidableEq, Inhabited

/-- The address in an entry. -/
def Entry.addr (e : Entry) : ℕ := e.dirtyAddressLow ||| e.dirtyAddressHigh <<< 32

/-- A report message: its immediate, its length, and the entries it carries. -/
structure Msg where
  imm : ℕ
  byteCnt : ℕ
  data : ℕ → Entry

instance : Inhabited Msg := ⟨⟨0, 0, default⟩⟩

/-- The tracker state a message reports. -/
def Msg.status (m : Msg) : ℕ := m.imm >>> 28

/-- The addresses in the `byte_cnt` bytes of a message. -/
def Msg.addrs (m : Msg) : List ℕ := (List.range (m.byteCnt / 8)).map fun i => (m.data i).addr

/-- The part of `struct mlx5_cqe64` that the tracker reads. -/
structure Cqe where
  opOwn : ℕ
  wqeCounter : ℕ
  byteCnt : ℕ
  immediate : ℕ
  deriving DecidableEq

/-- `struct mlx5_wqe_data_seg`. -/
structure Wqe where
  byteCount : ℕ
  lkey : ℕ
  addr : ℕ
  deriving DecidableEq

/-- Where a call of `mlx5vf_tracker_read_and_clear` stands. -/
inductive Phase where
  /-- at the test of the `while` -/
  | loop
  /-- the CQ was empty and is armed, the second poll is next -/
  | armed
  /-- a CQE was polled, `mlx5_cq_set_ci` is next -/
  | setCi
  /-- in `wait_for_completion(&mvdev->tracker_comp)` -/
  | wait
  deriving DecidableEq

/-- A call that returned: whether it succeeded, and the messages of its report it left. -/
structure Ret where
  ok : Bool
  left : List Msg

/-- The tracker and its device. `rqMem`, `cqMem` and `pages` are the two buffers and the pages of
    the receive buffer; `dirty` is what was set in the bitmap. The device has used `rqNext`
    receives and written `cqProd` CQEs, and has yet to send `todo`. `polled` counts the CQEs taken,
    `sent` keeps the messages sent. -/
structure Sys where
  pc : ℕ
  cc : ℕ
  nextRqOffset : ℕ
  rqDb : ℕ
  rqMem : ℕ × ℕ → Wqe
  consIndex : ℕ
  ciDb : ℕ
  cqMem : ℕ × ℕ → Cqe
  pages : ℕ → ℕ → Entry
  status : ℕ
  isErr : Bool
  objectChanged : Bool
  phase : Option Phase
  dirty : List ℕ
  warn : Bool
  rqNext : ℕ
  cqProd : ℕ
  todo : List Msg
  sent : List Msg
  polled : ℕ
  rets : List Ret

section
variable (cfg : Config)

/-- `mlx5vf_post_recv`. -/
def mlx5vfPostRecv (s : Sys) : Sys :=
  let ix := s.pc &&& (cfg.wqeCnt - 1)
  { s with
    warn := s.warn || decide (toU 32 ((s.pc : ℤ) - s.cc) ≥ cfg.wqeCnt)
    rqMem := update s.rqMem (cfg.wqe ix) ⟨cfg.maxMsgSize, cfg.mkey, s.nextRqOffset⟩
    pc := (s.pc + 1) % 2 ^ 32
    rqDb := ((s.pc + 1) % 2 ^ 32) % 2 ^ 16 }

/-- The posts of `mlx5vf_activate_qp`. -/
def mlx5vfActivateQp : ℕ → Sys → Sys
  | 0, s => s
  | n + 1, s =>
    let s := mlx5vfPostRecv cfg s
    mlx5vfActivateQp n { s with nextRqOffset := s.nextRqOffset + cfg.maxMsgSize }

/-- `init_cq_frag_buf`, over `nent` entries. -/
def initCqFragBuf : ℕ → (ℕ × ℕ → Cqe) → ℕ × ℕ → Cqe
  | 0, mem => mem
  | i + 1, mem =>
    let mem := initCqFragBuf i mem
    update mem (cfg.cqe64 i) { mem (cfg.cqe64 i) with opOwn := MLX5_CQE_INVALID <<< 4 }

/-- A started tracker, whatever was in the memory it got. -/
def Sys.start (rqMem : ℕ × ℕ → Wqe) (cqMem : ℕ × ℕ → Cqe) (pages : ℕ → ℕ → Entry) : Sys :=
  mlx5vfActivateQp cfg cfg.wqeCnt
    { pc := 0, cc := 0, nextRqOffset := 0, rqDb := 0, rqMem := rqMem, consIndex := 0, ciDb := 0
      cqMem := initCqFragBuf cfg cfg.ncqe cqMem, pages := pages, status := TRACKING
      isErr := false, objectChanged := false, phase := none, dirty := [], warn := false
      rqNext := 0, cqProd := 0, todo := [], sent := [], polled := 0, rets := [] }

/-- `set_report_output`. -/
def setReportOutput (s : Sys) (size index : ℕ) : Sys :=
  let nent := size / 8
  if index ≥ cfg.npages ∨ nent > cfg.maxMsgSize / 8 then { s with warn := true }
  else { s with dirty := s.dirty ++ (List.range nent).map fun i => (s.pages index i).addr }

/-- `mlx5vf_rq_cqe`; its own `WARN_ON` on an empty report changes nothing. -/
def mlx5vfRqCqe (s : Sys) (cqe : Cqe) : Sys :=
  let ix := cqe.wqeCounter &&& (cfg.wqeCnt - 1)
  let s := { s with
    cc := (s.cc + 1) % 2 ^ 32
    status := cqe.immediate >>> 28
    polled := s.polled + 1 }
  let s := if cqe.byteCnt ≠ 0 then setReportOutput cfg s cqe.byteCnt ix else s
  mlx5vfPostRecv cfg { s with nextRqOffset := ix * cfg.maxMsgSize }

/-- `get_sw_cqe`. -/
def getSwCqe (s : Sys) (n : ℕ) : Option Cqe :=
  let cqe := s.cqMem (cfg.cqe64 (n &&& (cfg.ncqe - 1)))
  if cqe.opOwn >>> 4 ≠ MLX5_CQE_INVALID ∧
      cqe.opOwn % 2 = (if n &&& cfg.ncqe = 0 then 0 else 1) then some cqe
  else none

/-- `CQ_OK`, `CQ_EMPTY`, `CQ_POLL_ERR`. -/
inductive Poll where
  | ok
  | empty
  | pollErr

/-- `mlx5vf_cq_poll_one`. -/
def mlx5vfCqPollOne (s : Sys) : Sys × Poll :=
  match getSwCqe cfg s s.consIndex with
  | none => (s, .empty)
  | some cqe =>
    let s := { s with consIndex := (s.consIndex + 1) % 2 ^ 32 }
    if cqe.opOwn >>> 4 = MLX5_CQE_RESP_SEND_IMM then (mlx5vfRqCqe cfg s cqe, .ok)
    else (s, .pollErr)

/-- A call returns. -/
def endCall (s : Sys) (ok : Bool) : Sys :=
  { s with phase := none, rets := ⟨ok, s.sent.drop s.polled ++ s.todo⟩ :: s.rets }

/-- `mlx5vf_tracker_read_and_clear` up to its loop. `modify`: the command succeeds, and the device
    starts to report `msgs`. -/
def startCall (s : Sys) (modify : Bool) (msgs : List Msg) : Sys :=
  match s.phase with
  | some _ => s
  | none =>
    if s.isErr then endCall s false
    else if modify then
      { s with status := REPORTING, phase := some .loop, todo := s.todo ++ msgs }
    else endCall s false

/-- What follows the loop. -/
def finishCall (s : Sys) : Sys :=
  let s := { s with isErr := s.isErr || decide (s.status = ERROR) }
  endCall s (!s.isErr)

/-- The result of a poll in the loop. -/
def polled (onEmpty : Phase) : Sys × Poll → Sys
  | (s, .ok) => { s with phase := some .setCi }
  | (s, .empty) => { s with phase := some onEmpty }
  | (s, .pollErr) => endCall s false

/-- The next piece of the loop in `mlx5vf_tracker_read_and_clear`. `query` is what
    `mlx5vf_cmd_query_tracker` would bring: a state, or a failure. -/
def turn (s : Sys) (query : Option ℕ) : Sys :=
  match s.phase with
  | none => s
  | some .loop =>
    if s.status = REPORTING ∧ s.isErr = false then polled .armed (mlx5vfCqPollOne cfg s)
    else finishCall s
  | some .armed => polled .wait (mlx5vfCqPollOne cfg s)
  | some .setCi => { s with phase := some .loop, ciDb := s.consIndex % 2 ^ 24 }
  | some .wait =>
    if s.objectChanged then
      match query with
      | some st => { s with objectChanged := false, status := st, phase := some .loop }
      | none => endCall { s with objectChanged := false } false
    else { s with phase := some .loop }

/-- The device sends its next message, if a receive is posted: the data goes where the WQE says, and
    a CQE to the next place in the CQ buffer. -/
def deliver (s : Sys) : Sys :=
  match s.todo with
  | [] => s
  | m :: todo =>
    if s.rqDb = s.rqNext % 2 ^ 16 then s
    else
      let w := s.rqMem (cfg.deviceWqe (s.rqNext % cfg.wqeCnt))
      { s with
        pages := fun p i =>
          let off := p * cfg.pageSize + 8 * i
          if w.addr ≤ off ∧ off < w.addr + m.byteCnt / 8 * 8 then m.data ((off - w.addr) / 8)
          else s.pages p i
        cqMem := update s.cqMem (cfg.deviceCqe (s.cqProd % cfg.ncqe))
          { opOwn := MLX5_CQE_RESP_SEND_IMM * 16 + lap cfg.ncqe s.cqProd
            wqeCounter := s.rqNext % 2 ^ 16
            byteCnt := m.byteCnt
            immediate := m.imm }
        rqNext := s.rqNext + 1
        cqProd := s.cqProd + 1
        todo := todo
        sent := s.sent ++ [m] }

/-- The steps. -/
inductive Ev where
  /-- a call of `mlx5vf_tracker_read_and_clear`, and the report the device makes of it -/
  | start (modify : Bool) (msgs : List Msg)
  /-- the call goes on -/
  | turn (query : Option ℕ)
  /-- the device sends a message -/
  | deliver
  /-- `set_tracker_change_event` -/
  | objectChange
  /-- `set_tracker_error` -/
  | error

def step (s : Sys) : Ev → Sys
  | .start modify msgs => startCall s modify msgs
  | .turn query => turn cfg s query
  | .deliver => deliver cfg s
  | .objectChange => { s with objectChanged := true }
  | .error => { s with isErr := true }

/-- A report: only its last message has a state other than REPORTING. -/
def Report : List Msg → Prop
  | [] => False
  | [m] => m.status ≠ REPORTING
  | m :: l => m.status = REPORTING ∧ Report l

/-- What the device keeps to: it reports in the way above, in messages that fit a receive. -/
def ok (_ : Sys) : Ev → Prop
  | .start _ msgs => Report msgs ∧ ∀ m ∈ msgs, m.byteCnt ≤ cfg.maxMsgSize
  | _ => True

end

/-- The condition: where the loop queries the tracker, the query succeeds and brings REPORTING or
    ERROR, or the tracker is in error anyway. -/
def Meets (s : Sys) : Ev → Prop
  | .turn query => s.phase = some .wait → s.objectChanged = true →
    query = some REPORTING ∨ query = some ERROR ∨ s.isErr = true
  | _ => True

theorem divRoundUp_two_pow (a b : ℕ) : divRoundUp (2 ^ a) (2 ^ b) = 2 ^ (a - b) := by
  unfold divRoundUp
  rcases Nat.le_total b a with h | h
  · have hb : 0 < 2 ^ b := Nat.two_pow_pos b
    have hsplit : 2 ^ a + 2 ^ b - 1 = 2 ^ b - 1 + 2 ^ b * 2 ^ (a - b) := by
      have hmul : 2 ^ b * 2 ^ (a - b) = 2 ^ a := by rw [← pow_add, Nat.add_sub_cancel' h]
      omega
    rw [hsplit, Nat.add_mul_div_left _ _ hb, Nat.div_eq_of_lt (by omega), Nat.zero_add]
  · have hle : 2 ^ a ≤ 2 ^ b := Nat.pow_le_pow_right (by decide) h
    have ha : 0 < 2 ^ a := Nat.two_pow_pos a
    rw [Nat.sub_eq_zero_of_le h, pow_zero]
    exact Nat.div_eq_of_lt_le (by omega) (by omega)

theorem roundupPowOfTwo_two_pow (k : ℕ) : roundupPowOfTwo (2 ^ k) = 2 ^ k :=
  Nat.le_antisymm (roundupPowOfTwo_le le_rfl) (le_roundupPowOfTwo _)

/-- GEOMETRY: an entry of `2 ^ logStride` bytes lies where its place in the buffer is; the size of
    the ring, `logSz`, plays no part. -/
theorem mlx5FragBufGetWqe_eq {pageShift logStride : ℕ} (logSz ix : ℕ) (h : logStride ≤ pageShift) :
    mlx5FragBufGetWqe (mlx5InitFbc pageShift logStride logSz) ix =
      bufAt pageShift (ix * 2 ^ logStride) := by
  have hsplit : 2 ^ pageShift = 2 ^ (pageShift - logStride) * 2 ^ logStride := by
    rw [← pow_add, Nat.sub_add_cancel h]
  simp only [mlx5FragBufGetWqe, mlx5InitFbc, bufAt, Nat.add_zero, Nat.shiftRight_eq_div_pow,
    Nat.shiftLeft_eq, Nat.and_comm _ ix, Nat.and_two_pow_sub_one_eq_mod, hsplit]
  rw [Nat.mul_div_mul_right _ _ (Nat.two_pow_pos _), Nat.mul_mod_mul_right]

theorem bufAt_inj {pageShift a b : ℕ} (h : bufAt pageShift a = bufAt pageShift b) : a = b := by
  obtain ⟨hd, hm⟩ := Prod.mk.inj h
  rw [← Nat.div_add_mod a (2 ^ pageShift), ← Nat.div_add_mod b (2 ^ pageShift), hd, hm]

namespace Config

variable (cfg : Config)

theorem wqeCnt_eq : cfg.wqeCnt = 2 ^ (21 - cfg.pageShift) := by
  unfold wqeCnt maxRecvWr SZ_2M maxMsgSize pageSize
  rw [divRoundUp_two_pow, roundupPowOfTwo_two_pow]

theorem ncqe_eq : cfg.ncqe = cfg.wqeCnt := rfl

theorem npages_eq : cfg.npages = cfg.wqeCnt := by
  rw [wqeCnt_eq]
  exact divRoundUp_two_pow 21 cfg.pageShift

theorem wqeCnt_pos : 0 < cfg.wqeCnt := by
  rw [wqeCnt_eq]
  exact Nat.two_pow_pos _

theorem cqeSize_cases : cfg.cqeSize = 64 ∨ cfg.cqeSize = 128 := by
  unfold cqeSize
  split
  · exact .inr rfl
  · exact .inl rfl

/-- The driver looks for a CQE where the device puts it, whatever size CQEs have. -/
theorem cqe64_eq (i : ℕ) : cfg.cqe64 i = cfg.deviceCqe i := by
  have hps := cfg.lePageShift
  rcases cfg.cqeSize_cases with h | h
  · have hstride : cfg.cqFbc = mlx5InitFbc cfg.pageShift 6 (log2 64) := by simp [cqFbc, h]
    simp [cqe64, deviceCqe, h, hstride, mlx5FragBufGetWqe_eq _ i (show 6 ≤ cfg.pageShift by omega)]
  · have hstride : cfg.cqFbc = mlx5InitFbc cfg.pageShift 7 (log2 128) := by simp [cqFbc, h]
    obtain ⟨q, hq⟩ : 128 ∣ 2 ^ cfg.pageShift := Nat.pow_dvd_pow 2 (show 7 ≤ cfg.pageShift by omega)
    -- 64 bytes further on is still the same entry, so the same page
    have hlo : i * 128 / 128 = i ∧ i * 128 % 128 = 0 := by omega
    have hhi : (i * 128 + 64) / 128 = i ∧ (i * 128 + 64) % 128 = 64 := by omega
    simp only [cqe64, deviceCqe, h, hstride,
      mlx5FragBufGetWqe_eq _ i (show 7 ≤ cfg.pageShift by omega), bufAt, hq, Nat.mod_mul,
      ← Nat.div_div_eq_div_mul, Nat.reducePow, hlo, hhi, Nat.reduceEqDiff, if_false]
    rw [Nat.zero_add, Nat.add_comm]

/-- The device reads a receive WQE where the driver writes it. -/
theorem wqe_eq (i : ℕ) : cfg.wqe i = cfg.deviceWqe i := by
  have hps := cfg.lePageShift
  have hlog : log2 MLX5_SEND_WQE_DS = 4 := by decide +kernel
  unfold wqe deviceWqe rqFbc
  rw [hlog, mlx5FragBufGetWqe_eq _ i (by omega)]
  rfl

theorem deviceCqe_inj {i j : ℕ} (h : cfg.deviceCqe i = cfg.deviceCqe j) : i = j := by
  have := bufAt_inj h
  rcases cfg.cqeSize_cases with hs | hs <;> rw [hs] at this <;> omega

theorem deviceWqe_inj {i j : ℕ} (h : cfg.deviceWqe i = cfg.deviceWqe j) : i = j := by
  have := bufAt_inj h
  unfold MLX5_SEND_WQE_DS at this
  omega

end Config

/-- CQ slot `i` as a slot of a ring read lap by lap. -/
def cell (cfg : Config) (cqMem : ℕ × ℕ → Cqe) (i : ℕ) : Option (ℕ × Cqe) :=
  let cqe := cqMem (cfg.cqe64 i)
  if cqe.opOwn >>> 4 = MLX5_CQE_INVALID then none else some (cqe.opOwn % 2, cqe)

/-- The CQE the device writes for message `j`. -/
def cqeOf (cfg : Config) (sent : List Msg) (j : ℕ) : Cqe where
  opOwn := MLX5_CQE_RESP_SEND_IMM * 16 + lap cfg.ncqe j
  wqeCounter := j % 2 ^ 16
  byteCnt := (sent.getD j default).byteCnt
  immediate := (sent.getD j default).imm

/-- The receive that slot `i` stands for: its own page range. -/
def ownWqe (cfg : Config) (i : ℕ) : Wqe := ⟨cfg.maxMsgSize, cfg.mkey, i * cfg.maxMsgSize⟩

/-- The invariant. `polled` CQEs were taken of `sent.length`, and `wqeCnt` more receives were posted
    than CQEs taken. -/
structure Inv (cfg : Config) (s : Sys) : Prop where
  ring : LapRing cfg.ncqe (cell cfg s.cqMem) (cqeOf cfg s.sent) s.polled s.sent.length
  consIndex : s.consIndex = s.polled % 2 ^ 32
  cc : s.cc = s.polled % 2 ^ 32
  pc : s.pc = (s.polled + cfg.wqeCnt) % 2 ^ 32
  rqDb : s.rqDb = (s.polled + cfg.wqeCnt) % 2 ^ 16
  rqNext : s.rqNext = s.sent.length
  cqProd : s.cqProd = s.sent.length
  wqes : ∀ i < cfg.wqeCnt, s.rqMem (cfg.wqe i) = ownWqe cfg i
  pages : ∀ j, s.polled ≤ j → j < s.sent.length → ∀ i < (s.sent.getD j default).byteCnt / 8,
    s.pages (j % cfg.wqeCnt) i = (s.sent.getD j default).data i
  sizes : ∀ m ∈ s.sent ++ s.todo, m.byteCnt ≤ cfg.maxMsgSize
  dirty : s.dirty = (s.sent.take s.polled).flatMap Msg.addrs
  warn : s.warn = false
  idle : s.phase = none → s.isErr = true ∨ s.sent.drop s.polled ++ s.todo = []
  running : s.phase ≠ none → s.isErr = true ∨
    s.status = REPORTING ∧ Report (s.sent.drop s.polled ++ s.todo) ∨
    s.status ≠ REPORTING ∧ (s.status = ERROR ∨ s.sent.drop s.polled ++ s.todo = [])
  waiting : s.phase = some .armed ∨ s.phase = some .wait → s.status = REPORTING ∨ s.isErr = true
  rets : ∀ r ∈ s.rets, r.ok = true → r.left = []

/-- Masking a wrapped counter is the counter modulo the ring. -/
theorem mask_eq {m : ℕ} (hm : m ≤ 32) (n : ℕ) : (n % 2 ^ 32) &&& (2 ^ m - 1) = n % 2 ^ m := by
  rw [Nat.and_two_pow_sub_one_eq_mod, Nat.mod_mod_of_dvd _ (Nat.pow_dvd_pow 2 hm)]

/-- The bit above the mask is the mark of the lap. -/
theorem bit_eq_lap {m : ℕ} (hm : m < 32) (n : ℕ) :
    (if (n % 2 ^ 32) &&& 2 ^ m = 0 then 0 else 1) = lap (2 ^ m) n := by
  have hbit : (n % 2 ^ 32).testBit m = decide (n / 2 ^ m % 2 = 1) := by
    rw [Nat.testBit_mod_two_pow, Nat.testBit_eq_decide_div_mod_eq]
    simp [hm]
  rw [Nat.and_two_pow, hbit]
  unfold lap
  rcases Nat.mod_two_eq_zero_or_one (n / 2 ^ m) with h | h <;> simp [h]

theorem toU_counter_sub {k : ℕ} (n : ℕ) (hk : k < 2 ^ 32) :
    toU 32 (((n + k) % 2 ^ 32 : ℕ) - ((n % 2 ^ 32 : ℕ) : ℤ)) = k := by
  unfold toU
  omega

variable {cfg : Config} {s : Sys}

theorem Config.wqeCnt_lt (cfg : Config) : cfg.wqeCnt < 2 ^ 16 := by
  rw [cfg.wqeCnt_eq]
  exact Nat.pow_lt_pow_right (by decide) (by have := cfg.lePageShift; omega)

/-- READ: the driver reads the CQ as a ring read lap by lap. -/
theorem getSwCqe_eq (n : ℕ) :
    getSwCqe cfg s (n % 2 ^ 32) = lapRead cfg.ncqe (cell cfg s.cqMem) n := by
  have hps := cfg.lePageShift
  unfold getSwCqe lapRead cell
  rw [cfg.ncqe_eq, cfg.wqeCnt_eq, mask_eq (by omega), bit_eq_lap (by omega)]
  simp only
  split_ifs <;> simp_all

/-- SLOT: the slot of a wrapped 16-bit counter. -/
theorem slot16_eq (j : ℕ) : (j % 2 ^ 16) &&& (cfg.wqeCnt - 1) = j % cfg.wqeCnt := by
  have hps := cfg.lePageShift
  rw [cfg.wqeCnt_eq, Nat.and_two_pow_sub_one_eq_mod,
    Nat.mod_mod_of_dvd _ (Nat.pow_dvd_pow 2 (show 21 - cfg.pageShift ≤ 16 by omega))]

theorem slot32_eq (j : ℕ) : (j % 2 ^ 32) &&& (cfg.wqeCnt - 1) = j % cfg.wqeCnt := by
  have hps := cfg.lePageShift
  rw [cfg.wqeCnt_eq, mask_eq (by omega)]

/-- POST: a receive posted for its own slot leaves the receive queue as it was. -/
theorem mlx5vfPostRecv_own {p k : ℕ} (hpc : s.pc = (p + k) % 2 ^ 32) (hcc : s.cc = p % 2 ^ 32)
    (hk : k < cfg.wqeCnt) (hoff : s.nextRqOffset = (p + k) % cfg.wqeCnt * cfg.maxMsgSize)
    (hw : ∀ i < cfg.wqeCnt, s.rqMem (cfg.wqe i) = ownWqe cfg i) :
    mlx5vfPostRecv cfg s =
      { s with pc := (p + k + 1) % 2 ^ 32, rqDb := (p + k + 1) % 2 ^ 16 } := by
  have hlt := cfg.wqeCnt_lt
  have hroom : toU 32 ((s.pc : ℤ) - s.cc) = k := by
    rw [hpc, hcc, toU_counter_sub p (by omega)]
  have hslot : s.pc &&& (cfg.wqeCnt - 1) = (p + k) % cfg.wqeCnt := by rw [hpc, slot32_eq]
  have hmem : update s.rqMem (cfg.wqe ((p + k) % cfg.wqeCnt))
      ⟨cfg.maxMsgSize, cfg.mkey, s.nextRqOffset⟩ = s.rqMem := by
    rw [update_eq_self_iff, hw _ (mod_lt _ cfg.wqeCnt_pos), ownWqe, hoff]
  have hnext : (s.pc + 1) % 2 ^ 32 = (p + k + 1) % 2 ^ 32 := by omega
  have hdb : (p + k + 1) % 2 ^ 32 % 2 ^ 16 = (p + k + 1) % 2 ^ 16 := by omega
  have hwarn : decide (k ≥ cfg.wqeCnt) = false := by simp [hk]
  simp only [mlx5vfPostRecv, hroom, hslot, hmem, hnext, hdb, hwarn, Bool.or_false]

/-- REPORT: from its own pages, exactly the addresses of the message are set. -/
theorem setReportOutput_eq {m : Msg} {ix : ℕ} (hix : ix < cfg.wqeCnt)
    (hlen : m.byteCnt ≤ cfg.maxMsgSize)
    (hpage : ∀ i < m.byteCnt / 8, s.pages ix i = m.data i) :
    setReportOutput cfg s m.byteCnt ix = { s with dirty := s.dirty ++ m.addrs } := by
  have hn : ¬ (ix ≥ cfg.npages ∨ m.byteCnt / 8 > cfg.maxMsgSize / 8) := by
    rw [cfg.npages_eq]
    omega
  simp only [setReportOutput, if_neg hn]
  congr 2
  refine List.map_congr_left fun i hi => ?_
  rw [hpage i (List.mem_range.1 hi)]

/-- What a poll leaves when it takes the CQE of message `m`. -/
def afterPoll (cfg : Config) (s : Sys) (m : Msg) : Sys :=
  { s with
    consIndex := (s.polled + 1) % 2 ^ 32
    cc := (s.polled + 1) % 2 ^ 32
    pc := (s.polled + 1 + cfg.wqeCnt) % 2 ^ 32
    rqDb := (s.polled + 1 + cfg.wqeCnt) % 2 ^ 16
    nextRqOffset := s.polled % cfg.wqeCnt * cfg.maxMsgSize
    status := m.status
    polled := s.polled + 1
    dirty := s.dirty ++ m.addrs }

/-- CQE: the CQE of message `m`, the next one, leads to `afterPoll`. -/
theorem mlx5vfRqCqe_eq (hi : Inv cfg s) (hlt : s.polled < s.sent.length) :
    mlx5vfRqCqe cfg { s with consIndex := (s.polled + 1) % 2 ^ 32 } (cqeOf cfg s.sent s.polled) =
      afterPoll cfg s (s.sent.getD s.polled default) := by
  have hpos := cfg.wqeCnt_pos
  have hslot : (cqeOf cfg s.sent s.polled).wqeCounter &&& (cfg.wqeCnt - 1) =
      s.polled % cfg.wqeCnt := slot16_eq s.polled
  have hlen : (s.sent.getD s.polled default).byteCnt ≤ cfg.maxMsgSize := by
    refine hi.sizes _ (List.mem_append_left _ ?_)
    rw [List.getD_eq_getElem _ _ hlt]
    exact List.getElem_mem hlt
  have hcc : (s.cc + 1) % 2 ^ 32 = (s.polled + 1) % 2 ^ 32 := by
    rw [hi.cc]
    omega
  simp only [mlx5vfRqCqe, hslot, hcc]
  -- whether or not it carries data, the message's addresses are what is set
  have hset : ∀ t : Sys, t.pages = s.pages →
      (if (cqeOf cfg s.sent s.polled).byteCnt ≠ 0 then
        setReportOutput cfg t (cqeOf cfg s.sent s.polled).byteCnt (s.polled % cfg.wqeCnt) else t) =
      { t with dirty := t.dirty ++ (s.sent.getD s.polled default).addrs } := by
    intro t ht
    have hcnt : (cqeOf cfg s.sent s.polled).byteCnt = (s.sent.getD s.polled default).byteCnt := rfl
    rw [hcnt]
    split_ifs with h0
    · exact setReportOutput_eq (mod_lt _ hpos) hlen fun i hi' => by
        rw [ht]
        exact hi.pages s.polled le_rfl hlt i hi'
    · have hnone : (s.sent.getD s.polled default).addrs = [] := by
        rw [Msg.addrs, not_not.1 h0]
        rfl
      rw [hnone, List.append_nil]
  rw [hset { s with
    consIndex := (s.polled + 1) % 2 ^ 32
    cc := (s.polled + 1) % 2 ^ 32
    status := (cqeOf cfg s.sent s.polled).immediate >>> 28
    polled := s.polled + 1 } rfl]
  have hk : s.polled + 1 + (cfg.wqeCnt - 1) = s.polled + cfg.wqeCnt := by omega
  refine (mlx5vfPostRecv_own (p := s.polled + 1) (k := cfg.wqeCnt - 1) ?_ ?_ ?_ ?_ ?_).trans ?_
  · rw [hk]
    exact hi.pc
  · rfl
  · omega
  · rw [hk, Nat.add_mod_right]
  · exact hi.wqes
  · rw [hk, Nat.add_right_comm s.polled]
    rfl

/-- POLL: `mlx5vf_cq_poll_one` takes the next CQE the device wrote, sets what its message reports
    and posts the receive again; without a CQE it does nothing. -/
theorem mlx5vfCqPollOne_eq (hi : Inv cfg s) :
    mlx5vfCqPollOne cfg s = if s.polled < s.sent.length then
      (afterPoll cfg s (s.sent.getD s.polled default), .ok) else (s, .empty) := by
  unfold mlx5vfCqPollOne
  rw [hi.consIndex, getSwCqe_eq, hi.ring.read (by rw [cfg.ncqe_eq]; exact cfg.wqeCnt_pos)]
  split_ifs with hlt
  · have hop : (cqeOf cfg s.sent s.polled).opOwn >>> 4 = MLX5_CQE_RESP_SEND_IMM := by
      have : lap cfg.ncqe s.polled < 2 := mod_lt _ (by decide)
      simp only [cqeOf]
      omega
    simp only [hop, if_true]
    rw [← mlx5vfRqCqe_eq hi hlt, Nat.mod_add_mod]
  · rfl

/-- The messages of the report that are not yet taken. -/
def Sys.left (s : Sys) : List Msg := s.sent.drop s.polled ++ s.todo

theorem report_cons {m : Msg} {l : List Msg} (h : Report (m :: l)) :
    m.status = REPORTING ∧ Report l ∨ m.status ≠ REPORTING ∧ l = [] := by
  cases l with
  | nil => exact .inr ⟨h, rfl⟩
  | cons _ _ => exact .inl h

/-- STEP: a message is taken. Its state is REPORTING if more of the report is to come. -/
theorem Inv.afterPoll (hi : Inv cfg s) (hlt : s.polled < s.sent.length) (hph : s.phase ≠ none)
    (hst : s.status = REPORTING ∨ s.isErr = true) :
    Inv cfg { afterPoll cfg s (s.sent.getD s.polled default) with phase := some .setCi } :=
    { hi with
  ring := hi.ring.consume hlt
  consIndex := rfl
  cc := rfl
  pc := rfl
  rqDb := rfl
  pages j hj := hi.pages j (Nat.le_of_succ_le hj)
  dirty := by
    rw [List.getD_eq_getElem _ _ hlt]
    change s.dirty ++ s.sent[s.polled].addrs = (s.sent.take (s.polled + 1)).flatMap Msg.addrs
    rw [List.take_succ_eq_append_getElem hlt, List.flatMap_append, List.flatMap_singleton, hi.dirty]
  idle := nofun
  running _ := by
    by_cases herr : s.isErr = true
    · exact .inl herr
    have hrep : Report (s.sent.drop s.polled ++ s.todo) := by
      rcases hi.running hph with h | ⟨-, h⟩ | ⟨h, -⟩
      · exact absurd h herr
      · exact h
      · exact absurd (hst.resolve_right herr) h
    rw [List.drop_eq_getElem_cons hlt, List.cons_append] at hrep
    rw [List.getD_eq_getElem _ _ hlt]
    rcases report_cons hrep with ⟨hm, hl⟩ | ⟨hm, hl⟩
    · exact .inr (.inl ⟨hm, hl⟩)
    · exact .inr (.inr ⟨hm, .inr hl⟩)
  waiting := by simp }

/-- A call that returns with success has left nothing, and one that leaves something of its report
    has marked the tracker. -/
theorem Inv.endCall (hi : Inv cfg s) {good : Bool} (hgood : good = true → s.left = [])
    (hleft : s.isErr = true ∨ s.left = []) : Inv cfg (endCall s good) := { hi with
  idle _ := hleft
  running := by simp [Tracker.endCall]
  waiting := by simp [Tracker.endCall]
  rets r hr := by
    rcases List.mem_cons.1 hr with rfl | hr
    · exact hgood
    · exact hi.rets r hr }

/-- The next phase of a call, with a state that fits. -/
theorem Inv.goOn (hi : Inv cfg s) {ph : Phase} (st ci : ℕ) (changed : Bool)
    (hrun : s.isErr = true ∨ st = REPORTING ∧ Report s.left ∨
      st ≠ REPORTING ∧ (st = ERROR ∨ s.left = []))
    (hwait : ph = .armed ∨ ph = .wait → st = REPORTING ∨ s.isErr = true) :
    Inv cfg { s with status := st, phase := some ph, ciDb := ci, objectChanged := changed } :=
    { hi with
  idle := nofun
  running _ := hrun
  waiting h := hwait (by simpa using h) }

/-- STEP: `mlx5vf_tracker_read_and_clear` begins, with a report that goes to its end. -/
theorem Inv.startCall (hi : Inv cfg s) (modify : Bool) {msgs : List Msg} (hrep : Report msgs)
    (hsize : ∀ m ∈ msgs, m.byteCnt ≤ cfg.maxMsgSize) :
    Inv cfg (startCall s modify msgs) := by
  unfold Tracker.startCall
  split
  · exact hi
  · next hph =>
    split_ifs with herr
    · exact hi.endCall nofun (.inl herr)
    · have hnil : s.sent.drop s.polled = [] ∧ s.todo = [] :=
        List.append_eq_nil_iff.1 ((hi.idle hph).resolve_left herr)
      exact { hi with
        sizes := by
          intro m hm
          simp only [hnil.2, List.nil_append, List.mem_append] at hm
          exact hm.elim (fun h => hi.sizes m (List.mem_append_left _ h)) (hsize m)
        idle := nofun
        running := fun _ => .inr (.inl ⟨rfl, by simpa [hnil] using hrep⟩)
        waiting := by simp }
    · exact hi.endCall nofun (hi.idle hph)

/-- STEP: the end of the loop, where the state is not REPORTING or the tracker is in error. -/
theorem Inv.finishCall (hi : Inv cfg s) (hph : s.phase ≠ none)
    (hst : ¬ (s.status = REPORTING ∧ s.isErr = false)) : Inv cfg (finishCall s) := by
  have hrun := hi.running hph
  have hmark : Inv cfg { s with isErr := s.isErr || decide (s.status = ERROR) } := {
    hi with
    idle := fun h => absurd h hph
    running := fun _ => by
      rcases hrun with h | h
      · exact .inl (by simp [h])
      · exact .inr h
    waiting := fun h => (hi.waiting h).imp id fun h => by simp [h] }
  have hend : (s.isErr || decide (s.status = ERROR)) = true ∨ s.left = [] := by
    rcases hrun with h | ⟨h, -⟩ | ⟨-, h | h⟩
    · exact .inl (by simp [h])
    · have herr : s.isErr = true := by simpa [h] using hst
      exact .inl (by simp [herr])
    · exact .inl (by simp [h])
    · exact .inr h
  exact hmark.endCall (fun hg => hend.resolve_left (by simpa using hg)) hend

/-- STEP: a poll in the loop. -/
theorem Inv.polled (hi : Inv cfg s) {onEmpty : Phase} (hph : s.phase ≠ none)
    (hst : s.status = REPORTING ∨ s.isErr = true) :
    Inv cfg (Tracker.polled onEmpty (mlx5vfCqPollOne cfg s)) := by
  rw [mlx5vfCqPollOne_eq hi]
  split_ifs with hlt
  · exact hi.afterPoll hlt hph hst
  · exact hi.goOn s.status s.ciDb s.objectChanged (hi.running hph) fun _ => hst

/-- STEP: a piece of the loop, under the condition. -/
theorem Inv.turn (hi : Inv cfg s) (query : Option ℕ) (hm : Meets s (.turn query)) :
    Inv cfg (turn cfg s query) := by
  unfold Tracker.turn
  split
  · exact hi
  · next hph =>
    split_ifs with hst
    · exact hi.polled (by simp [hph]) (.inl hst.1)
    · exact hi.finishCall (by simp [hph]) hst
  · next hph => exact hi.polled (by simp [hph]) (hi.waiting (.inl hph))
  · next hph =>
    exact hi.goOn s.status _ s.objectChanged (hi.running (by simp [hph])) (by simp)
  · next hph =>
    have hrun := hi.running (by simp [hph])
    split_ifs with hch
    · have hquery := hm hph hch
      split
      · next st =>
        refine hi.goOn st s.ciDb false ?_ (by simp)
        rcases hrun with h | ⟨-, h⟩ | ⟨h, -⟩
        · exact .inl h
        · rcases hquery with hq | hq | hq
          · exact .inr (.inl ⟨Option.some.inj hq, h⟩)
          · obtain rfl := Option.some.inj hq
            exact .inr (.inr ⟨by decide, .inl rfl⟩)
          · exact .inl hq
        · exact .inl ((hi.waiting (.inr hph)).resolve_left h)
      · have herr : s.isErr = true := by
          rcases hquery with hq | hq | hq
          · exact absurd hq nofun
          · exact absurd hq nofun
          · exact hq
        have hsame : Inv cfg { s with objectChanged := false } := { hi with }
        exact hsame.endCall nofun (.inl herr)
    · exact hi.goOn s.status s.ciDb s.objectChanged hrun (by simp)

/-- The device's CQE is one slot of the ring. -/
theorem cell_update (cqMem : ℕ × ℕ → Cqe) (i : ℕ) {cqe : Cqe}
    (hop : cqe.opOwn >>> 4 ≠ MLX5_CQE_INVALID) :
    cell cfg (update cqMem (cfg.deviceCqe i) cqe) =
      update (cell cfg cqMem) i (some (cqe.opOwn % 2, cqe)) := by
  funext j
  rcases eq_or_ne j i with rfl | hne
  · simp [cell, cfg.cqe64_eq, hop]
  · have hne' : cfg.deviceCqe j ≠ cfg.deviceCqe i := fun h => hne (cfg.deviceCqe_inj h)
    simp [cell, cfg.cqe64_eq, hne, hne']

theorem cqeOf_op (sent : List Msg) (j : ℕ) :
    (cqeOf cfg sent j).opOwn >>> 4 = MLX5_CQE_RESP_SEND_IMM ∧
      (cqeOf cfg sent j).opOwn % 2 = lap cfg.ncqe j := by
  have : lap cfg.ncqe j < 2 := mod_lt _ (by decide)
  simp only [cqeOf]
  omega

/-- A message of slot `a` does not reach into the page of another slot `b`. -/
theorem page_apart {a b i len : ℕ} (hne : b ≠ a) (hi : i < len / 8) (hlen : len ≤ cfg.pageSize)
    {m : ℕ} (hm : m ≤ cfg.pageSize) :
    ¬ (a * cfg.pageSize ≤ b * cfg.pageSize + 8 * i ∧
      b * cfg.pageSize + 8 * i < a * cfg.pageSize + m / 8 * 8) := by
  rintro ⟨hlo, hhi⟩
  rcases Nat.lt_or_gt_of_ne hne with h | h
  · have := Nat.mul_le_mul_right cfg.pageSize (Nat.succ_le_of_lt h)
    rw [Nat.succ_mul] at this
    omega
  · have := Nat.mul_le_mul_right cfg.pageSize (Nat.succ_le_of_lt h)
    rw [Nat.succ_mul] at this
    omega

/-- STEP: the device sends a message. It finds a receive's own page range in the next WQE, and the
    CQ slot it writes is one whose CQE was taken. -/
theorem Inv.deliver (hi : Inv cfg s) : Inv cfg (deliver cfg s) := by
  unfold Tracker.deliver
  split
  · exact hi
  · next m todo htodo =>
    split_ifs with hdb
    · exact hi
    have hpos := cfg.wqeCnt_pos
    have hroom : s.sent.length < s.polled + cfg.ncqe := by
      refine lt_of_le_of_ne hi.ring.room fun h => hdb ?_
      rw [hi.rqDb, hi.rqNext, h, cfg.ncqe_eq]
    have hle : s.polled ≤ s.sent.length := hi.ring.le
    have hw : s.rqMem (cfg.deviceWqe (s.sent.length % cfg.wqeCnt)) =
        ownWqe cfg (s.sent.length % cfg.wqeCnt) := by
      rw [← cfg.wqe_eq]
      exact hi.wqes _ (mod_lt _ hpos)
    have hget : ∀ j, j < s.sent.length → (s.sent ++ [m]).getD j default = s.sent.getD j default :=
      fun j hj => List.getD_append _ _ _ _ hj
    have hlast : (s.sent ++ [m]).getD s.sent.length default = m := by simp
    have hsize : ∀ m' ∈ s.sent ++ [m] ++ todo, m'.byteCnt ≤ cfg.maxMsgSize := by
      rw [List.append_assoc, List.singleton_append, ← htodo]
      exact hi.sizes
    have hleft : (s.sent ++ [m]).drop s.polled ++ todo = s.sent.drop s.polled ++ s.todo := by
      rw [List.drop_append_of_le_length hle, List.append_assoc, List.singleton_append, htodo]
    have hcqe : (⟨MLX5_CQE_RESP_SEND_IMM * 16 + lap cfg.ncqe s.sent.length,
        s.sent.length % 2 ^ 16, m.byteCnt, m.imm⟩ : Cqe) =
        cqeOf cfg (s.sent ++ [m]) s.sent.length := by
      simp only [cqeOf, hlast]
    simp only [hi.rqNext, hi.cqProd, hw, hcqe, ownWqe]
    refine { hi with
      ring := ?_
      rqNext := by simp
      cqProd := by simp
      pages := ?_
      sizes := hsize
      dirty := by
        rw [List.take_append_of_le_length hle]
        exact hi.dirty
      idle := fun h => by
        rw [hleft]
        exact hi.idle h
      running := fun h => by
        rw [hleft]
        exact hi.running h }
    · have hop := @cqeOf_op cfg (s.sent ++ [m]) s.sent.length
      rw [cell_update _ _ (by rw [hop.1]; decide), hop.2, List.length_append]
      refine hi.ring.write hroom fun j _ hj => ?_
      simp only [cqeOf, hget j hj]
    · intro j hj hj' i hlt
      have hj : s.polled ≤ j := hj
      rw [List.length_append, List.length_singleton] at hj'
      rcases Nat.lt_succ_iff_lt_or_eq.1 hj' with hj' | rfl
      · rw [hget j hj'] at hlt ⊢
        have hne : j % cfg.wqeCnt ≠ s.sent.length % cfg.wqeCnt :=
          mod_ne_mod hj' (by have := cfg.ncqe_eq; omega)
        have hjlen : (s.sent.getD j default).byteCnt ≤ cfg.maxMsgSize := by
          rw [List.getD_eq_getElem _ _ hj']
          exact hi.sizes _ (List.mem_append_left _ (List.getElem_mem hj'))
        have hout := page_apart hne hlt hjlen (hsize m (by simp))
        exact (if_neg hout).trans <| hi.pages j hj hj' i hlt
      · rw [hlast] at hlt ⊢
        have hin : s.sent.length % cfg.wqeCnt * cfg.pageSize ≤
              s.sent.length % cfg.wqeCnt * cfg.pageSize + 8 * i ∧
            s.sent.length % cfg.wqeCnt * cfg.pageSize + 8 * i <
              s.sent.length % cfg.wqeCnt * cfg.pageSize + m.byteCnt / 8 * 8 := by omega
        refine (if_pos hin).trans ?_
        simp only [Config.maxMsgSize]
        rw [Nat.add_sub_cancel_left, Nat.mul_div_cancel_left _ (by decide)]

/-- The cleared CQ is a ring that holds nothing. -/
theorem initCqFragBuf_cell (cqMem : ℕ × ℕ → Cqe) : ∀ n, ∀ i < n,
    cell cfg (initCqFragBuf cfg n cqMem) i = none
  | n + 1, i, h => by
    rw [initCqFragBuf]
    rcases Nat.lt_succ_iff_lt_or_eq.1 h with h | rfl
    · have hne : cfg.cqe64 i ≠ cfg.cqe64 n := by
        rw [cfg.cqe64_eq, cfg.cqe64_eq]
        exact fun he => h.ne (cfg.deviceCqe_inj he)
      have := initCqFragBuf_cell cqMem n i h
      simpa [cell, hne] using this
    · simp [cell]

/-- A post in `mlx5vf_activate_qp`. -/
theorem mlx5vfPostRecv_first {a : ℕ} (ha : a < cfg.wqeCnt) (hpc : s.pc = a) (hcc : s.cc = 0)
    (hoff : s.nextRqOffset = a * cfg.maxMsgSize) :
    mlx5vfPostRecv cfg s =
      { s with rqMem := update s.rqMem (cfg.wqe a) (ownWqe cfg a)
               pc := a + 1, rqDb := (a + 1) % 2 ^ 16 } := by
  have hlt := cfg.wqeCnt_lt
  have hslot : a &&& (cfg.wqeCnt - 1) = a := by
    rw [cfg.wqeCnt_eq, Nat.and_two_pow_sub_one_eq_mod, ← cfg.wqeCnt_eq, Nat.mod_eq_of_lt ha]
  have hroom : toU 32 ((a : ℤ) - (0 : ℕ)) = a := by
    unfold toU
    omega
  have hwarn : decide (a ≥ cfg.wqeCnt) = false := by simp [ha]
  have hnext : (a + 1) % 2 ^ 32 = a + 1 := by omega
  simp only [mlx5vfPostRecv, hpc, hcc, hslot, hroom, hwarn, hnext, hoff, Bool.or_false, ownWqe]

/-- The posts of `mlx5vf_activate_qp`: each slot gets its own page range. -/
theorem mlx5vfActivateQp_eq : ∀ (n a : ℕ) (s : Sys), a + n ≤ cfg.wqeCnt → s.pc = a → s.cc = 0 →
    s.nextRqOffset = a * cfg.maxMsgSize → s.rqDb = a % 2 ^ 16 →
    (∀ i < a, s.rqMem (cfg.wqe i) = ownWqe cfg i) →
    ∃ rqMem, (∀ i < a + n, rqMem (cfg.wqe i) = ownWqe cfg i) ∧
      mlx5vfActivateQp cfg n s =
        { s with pc := a + n, rqMem := rqMem, rqDb := (a + n) % 2 ^ 16
                 nextRqOffset := (a + n) * cfg.maxMsgSize }
  | 0, a, s, _, hpc, _, hoff, hdb, hw => by
    refine ⟨s.rqMem, hw, ?_⟩
    rw [Nat.add_zero, ← hdb, ← hoff, ← hpc]
    rfl
  | n + 1, a, s, hle, hpc, hcc, hoff, hdb, hw => by
    rw [mlx5vfActivateQp, mlx5vfPostRecv_first (by omega) hpc hcc hoff]
    obtain ⟨rqMem, hmem, heq⟩ := mlx5vfActivateQp_eq n (a + 1)
      { s with rqMem := update s.rqMem (cfg.wqe a) (ownWqe cfg a)
               pc := a + 1, rqDb := (a + 1) % 2 ^ 16
               nextRqOffset := s.nextRqOffset + cfg.maxMsgSize }
      (by omega) rfl hcc (by rw [hoff, Nat.succ_mul]) rfl (by
        intro i hi
        rcases Nat.lt_succ_iff_lt_or_eq.1 hi with hi | rfl
        · have hne : cfg.wqe i ≠ cfg.wqe a := by
            rw [cfg.wqe_eq, cfg.wqe_eq]
            exact fun h => hi.ne (cfg.deviceWqe_inj h)
          exact (update_of_ne hne _ _).trans (hw i hi)
        · exact update_self ..)
    refine ⟨rqMem, fun i hi => hmem i (by omega), heq.trans ?_⟩
    rw [Nat.add_right_comm a 1 n, ← Nat.add_assoc a n 1]

theorem inv_start (rqMem : ℕ × ℕ → Wqe) (cqMem : ℕ × ℕ → Cqe) (pages : ℕ → ℕ → Entry) :
    Inv cfg (Sys.start cfg rqMem cqMem pages) := by
  have hlt := cfg.wqeCnt_lt
  obtain ⟨rqMem', hmem, heq⟩ := @mlx5vfActivateQp_eq cfg cfg.wqeCnt 0
    { pc := 0, cc := 0, nextRqOffset := 0, rqDb := 0, rqMem := rqMem, consIndex := 0, ciDb := 0
      cqMem := initCqFragBuf cfg cfg.ncqe cqMem, pages := pages, status := TRACKING
      isErr := false, objectChanged := false, phase := none, dirty := [], warn := false
      rqNext := 0, cqProd := 0, todo := [], sent := [], polled := 0, rets := [] }
    (by omega) rfl rfl (by simp) rfl nofun
  rw [Nat.zero_add] at hmem
  have hpc : (0 + cfg.wqeCnt) % 2 ^ 32 = 0 + cfg.wqeCnt := Nat.mod_eq_of_lt (by omega)
  unfold Sys.start
  rw [heq]
  exact {
    ring := .start fun i hi => initCqFragBuf_cell cqMem _ i hi
    consIndex := rfl
    cc := rfl
    pc := hpc.symm
    rqDb := rfl
    rqNext := rfl
    cqProd := rfl
    wqes := hmem
    pages := nofun
    sizes := nofun
    dirty := rfl
    warn := rfl
    idle := fun _ => .inr rfl
    running := fun h => absurd rfl h
    waiting := by simp
    rets := nofun }

/-- STEP: every step keeps the invariant. -/
theorem Inv.step (hi : Inv cfg s) {e : Ev} (hok : ok cfg s e) (hm : Meets s e) :
    Inv cfg (Tracker.step cfg s e) := by
  cases e with
  | start modify msgs => exact hi.startCall modify hok.1 hok.2
  | turn query => exact hi.turn query hm
  | deliver => exact hi.deliver
  | objectChange => exact { hi with }
  | error =>
    exact { hi with
      idle := fun _ => .inl rfl
      running := fun _ => .inl rfl
      waiting := fun _ => .inr rfl }

/-- What holds of a tracker at any time. -/
structure Sound (cfg : Config) (s : Sys) : Prop where
  /-- at the consumer index the driver finds the CQE the device wrote there, or none -/
  cqe : getSwCqe cfg s s.consIndex =
    if s.polled < s.sent.length then some (cqeOf cfg s.sent s.polled) else none
  /-- a message that is not yet taken lies in the pages of its receive -/
  pages : ∀ j, s.polled ≤ j → j < s.sent.length → ∀ i < (s.sent.getD j default).byteCnt / 8,
    s.pages (j % cfg.wqeCnt) i = (s.sent.getD j default).data i
  /-- set are exactly the addresses of the messages that were taken, each once -/
  bitmap : s.dirty = (s.sent.take s.polled).flatMap Msg.addrs
  /-- as many receives were posted as the queue has, and one more for each CQE taken -/
  posted : s.pc = (s.polled + cfg.wqeCnt) % 2 ^ 32
  /-- the receives that the device has not used are not more than the queue has -/
  pending : s.polled ≤ s.sent.length ∧ s.sent.length ≤ s.polled + cfg.wqeCnt
  /-- every posted receive has its slot's own page range -/
  wqes : ∀ i < cfg.wqeCnt, s.rqMem (cfg.wqe i) = ownWqe cfg i
  /-- no `WARN_ON` of a full queue or of a report out of range was hit -/
  warn : s.warn = false
  /-- a call that succeeded left no message of its report -/
  success : ∀ r ∈ s.rets, r.ok = true → r.left = []

/-- RUN: what the invariant says of the code. -/
theorem Inv.sound (hi : Inv cfg s) : Sound cfg s := { hi with
  cqe := by
    rw [hi.consIndex, getSwCqe_eq, hi.ring.read (by rw [cfg.ncqe_eq]; exact cfg.wqeCnt_pos)]
  bitmap := hi.dirty
  posted := hi.pc
  pending := ⟨hi.ring.le, hi.ring.room⟩
  success := hi.rets }

/-- CORRECT: whatever was in the memory, whatever the device reports and however its messages, the
    polls, object changes and errors interleave, in a run whose queries meet the condition no page
    is lost. -/
theorem tracker {rqMem : ℕ × ℕ → Wqe} {cqMem : ℕ × ℕ → Cqe} {pages : ℕ → ℕ → Entry}
    (h : Reach (Tracker.step cfg) (fun s e => ok cfg s e ∧ Meets s e)
      (Sys.start cfg rqMem cqMem pages) s) : Sound cfg s :=
  (h.invariant (inv_start rqMem cqMem pages) fun _ _ hok hi => hi.step hok.1 hok.2).sound

/-- 64 KiB pages: queues of 32 entries. -/
def demoConfig : Config := ⟨16, 64, 7, 4096, by decide, by decide⟩

def demoStart : Sys :=
  Sys.start demoConfig (fun _ => ⟨0, 0, 0⟩) (fun _ => ⟨0, 0, 0, 0⟩) fun _ _ => ⟨0, 0⟩

/-- A report of two messages. -/
def demoReport : List Msg :=
  [⟨REPORTING <<< 28, 16, fun i => ⟨1, 4096 * i⟩⟩, ⟨TRACKING <<< 28, 8, fun _ => ⟨0, 8192⟩⟩]

/-- A call that polls one message, finds the CQ empty, and is woken by the other. -/
def demoRun : List Ev :=
  [.start true demoReport, .deliver, .turn (some REPORTING), .turn (some REPORTING),
   .turn (some REPORTING), .deliver, .turn (some REPORTING), .turn (some REPORTING),
   .turn (some REPORTING)]

theorem tracker_demo :
    let s := demoRun.foldl (Tracker.step demoConfig) demoStart
    Sound demoConfig s ∧ s.dirty = [2 ^ 32, 2 ^ 32 + 4096, 8192] ∧ s.rets.map Ret.ok = [true] := by
  have hrun : Runs (Tracker.step demoConfig) (fun s e => ok demoConfig s e ∧ Meets s e) demoStart
      demoRun := by
    have hsize : ∀ m ∈ demoReport, m.byteCnt ≤ demoConfig.maxMsgSize := by decide +kernel
    have hrep : Report demoReport := by
      simp [Report, demoReport, Msg.status, REPORTING, TRACKING]
    simpa [demoRun, Runs, ok, Meets, hrep] using hsize
  exact ⟨tracker (Reach.start.runs hrun), by decide +kernel, by decide +kernel⟩

/-- The CQ is empty when the loop looks, the device's object changes, a message arrives, and the
    query finds the device back in TRACKING. -/
def queryEndsCall : List Ev :=
  [.start true demoReport, .turn none, .turn none, .objectChange, .deliver, .turn (some TRACKING),
   .turn none]

/-- The state that a query brings ends the loop with success, with a message in the CQ and another
    to come. -/
theorem tracker_broken :
    let s := queryEndsCall.foldl (Tracker.step demoConfig) demoStart
    s.dirty = [] ∧ s.rets.map (fun r => (r.ok, r.left.length)) = [(true, 2)] ∧
      ¬ Sound demoConfig s := by
  have hret : (queryEndsCall.foldl (Tracker.step demoConfig) demoStart).rets.map
      (fun r => (r.ok, r.left.length)) = [(true, 2)] := by decide +kernel
  refine ⟨by decide +kernel, hret, fun h => ?_⟩
  obtain ⟨r, hr, he⟩ := List.mem_map.1 (hret ▸ List.mem_singleton.2 rfl)
  obtain ⟨hgood, hlen⟩ := Prod.mk.inj he
  rw [h.success r hr hgood] at hlen
  exact absurd hlen (by decide)

end RdmaDriver.Tracker
