import RdmaDriver.Basic
import RdmaDriver.Schemes.Run
import Mathlib.Logic.Function.Basic

/-! @src mlx5/core/steering/dr_send.c | name:steering send ring | scheme:run | family:ring

    Rules are written to device memory by posts to one send queue: a write takes two work requests, a
    piece of an argument one. `pending_wqe` counts what is posted and not yet acknowledged, every
    eighth request is signalled, and its completion takes eight off the counter. Data of a write is
    copied to one of eight slots of a buffer that hardware reads. A forced drain posts the same request
    structure again and again: the copy has left in it the device address of the slot and the flag of
    a signalled request stays set.

        log   w r w r w r w r | w r a w r |
              acked ----------^           ^-- posted, pending_wqe = 5 -/

namespace RdmaDriver.DrSendRing
open Schemes Function

/-- `send_ring->signal_th`: `QUEUE_SIZE / SIGNAL_PER_DIV_QUEUE`. -/
def signalTh : ℕ := 128 / 16

/-- `TH_NUMS_TO_DRAIN`. -/
def thNumsToDrain : ℕ := 2

/-- `DR_ACTION_CACHE_LINE_SIZE`. -/
def actionCacheLineSize : ℕ := 64

/-- `qp->sq.wqe_cnt`. -/
def wqeCnt : ℕ := roundupPowOfTwo 128

/-- `send_ring->max_post_send_size`. -/
def maxPostSendSize : ℕ := 64 * 1024

/-- `info.max_inline_size`; `max_inline_data` of the zeroed queue pair is never set. -/
def maxInlineSize : ℕ := min 0 64

/-- An addition on a `u32`. -/
def addU32 (a b : ℕ) : ℕ := (a + b) % 2 ^ 32

/-- A subtraction on a `u32`. -/
def subU32 (a b : ℕ) : ℕ := (a + (2 ^ 32 - b)) % 2 ^ 32

/-- What an address refers to: memory of the driver with its content, the device address of a slot of
    `send_ring->buf`, or that of the sync buffer. -/
inductive Addr (α : Type) where
  | host (bytes : List α)
  | dma (slot : ℕ)
  | sync
  deriving DecidableEq

/-- A local key. -/
inductive Lkey where
  | zero | mr | syncMr
  deriving DecidableEq

/-- `struct dr_data_seg`; of the flags there is only `IB_SEND_SIGNALED`. -/
structure DataSeg (α : Type) where
  addr : Addr α
  length : ℕ
  lkey : Lkey
  sendFlags : Bool

/-- `enum send_info_type`. -/
inductive SendInfoType where
  | writeIcm | gtaArg
  deriving DecidableEq

/-- `struct postsend_info`. -/
structure PostsendInfo (α : Type) where
  type : SendInfoType
  write : DataSeg α
  read : DataSeg α
  remoteAddr : ℕ
  rkey : ℕ

/-- A `postsend_info` that is zero but for what its caller sets. -/
def sendInfo {α : Type} (type : SendInfoType) (addr : Addr α) (length remoteAddr rkey : ℕ) :
    PostsendInfo α :=
  ⟨type, ⟨addr, length, .zero, false⟩, ⟨.host [], 0, .zero, false⟩, remoteAddr, rkey⟩

/-- The opcodes of the work requests. -/
inductive Opcode where
  | rdmaWrite | rdmaRead | flowTblAccess
  deriving DecidableEq

/-- The basic blocks of a work request: `DIV_ROUND_UP(size * 16, MLX5_SEND_WQE_BB)`, for segments of
    16 + 16 + 16 bytes, or 16 + 48 + 64. -/
def Opcode.bbs : Opcode → ℕ
  | .flowTblAccess => divRoundUp ((16 + 48 + 64) / 16 * 16) 64
  | _ => divRoundUp ((16 + 16 + 16) / 16 * 16) 64

/-- A posted work request: the producer counter at which it is, what `dr_rdma_segments` writes, and
    for the argument access the bytes that it copies. Recorded with it are the counter `pending_wqe` at
    which it was prepared, how many requests hardware had completed, the bytes that the caller of the
    post has passed, and whether the request structure had been posted before. -/
structure Wqe (α : Type) where
  pc : ℕ
  opcode : Opcode
  signaled : Bool
  remoteAddr : ℕ
  rkey : ℕ
  data : DataSeg α
  count : ℕ
  done : ℕ
  passed : Option (List α)
  again : Bool

/-- What the environment does before a poll: hardware completes requests, the device fails. -/
structure Hw where
  completes : ℕ
  fails : Bool
  deriving DecidableEq

/-- `struct mlx5dr_send_ring` with its queues. `log` has all that was ever posted, in this order
    `completed` of them are completed and `acked` acknowledged, that is, not after the last request
    whose completion was polled. `hw` is what the environment will do during the call; when it is used
    up the call is `cut` off at a poll. `waitsOk` says that so far no poll of a drain has found
    nothing without a signalled request outstanding. -/
structure Ring (α : Type) where
  pendingWqe : ℕ
  txHead : ℕ
  pc : ℕ
  errState : Bool
  buf : ℕ → Option (List α)
  log : List (Wqe α)
  completed : ℕ
  acked : ℕ
  internalError : Bool
  hw : List Hw
  cut : Bool
  waitsOk : Bool

section Source

variable {α : Type}

/-- The ring after `mlx5dr_send_ring_alloc`. -/
def newRing : Ring α where
  pendingWqe := 0
  txHead := 0
  pc := 0
  errState := false
  buf := fun _ => none
  log := []
  completed := 0
  acked := 0
  internalError := false
  hw := []
  cut := false
  waitsOk := true

/-- Hardware completes requests in order, and only what is posted. -/
def Ring.advance (r : Ring α) (h : Hw) : Ring α :=
  { r with
    completed := min (r.completed + h.completes) r.log.length
    internalError := r.internalError || h.fails }

/-- The first signalled one of the next `n` requests. -/
def nextSignaled (log : List (Wqe α)) : ℕ → ℕ → Option ℕ
  | 0, _ => none
  | n + 1, i => if (log[i]?.any fun x => x.signaled) then some i else nextSignaled log n (i + 1)

/-- The request of the completion that `mlx5_cqwq_get_cqe` finds. -/
def Ring.cqe (r : Ring α) : Option ℕ := nextSignaled r.log (r.completed - r.acked) r.acked

/-- A signalled request is not acknowledged. -/
def Ring.outstanding (r : Ring α) : Bool :=
  (nextSignaled r.log (r.log.length - r.acked) r.acked).isSome

/-- The loop of `dr_handle_pending_wc`, with a poll for each entry of the list. -/
def drainLoop (isDrain : Bool) : List Hw → Ring α → Ring α × Bool
  | [], r => ({ r with hw := [], cut := true }, false)
  | h :: hw, r =>
    match (r.advance h).cqe with
    | some i =>
      drainLoop isDrain hw { r.advance h with
        acked := i + 1
        pendingWqe := subU32 r.pendingWqe signalTh }
    | none =>
      if (r.advance h).internalError then ({ r.advance h with hw := hw, errState := true }, false)
      else if isDrain ∧ signalTh ≤ r.pendingWqe then
        drainLoop isDrain hw { r.advance h with
          waitsOk := r.waitsOk && (r.advance h).outstanding }
      else ({ r.advance h with hw := hw }, true)

/-- `dr_handle_pending_wc`; false for an error, and for a call that is cut off. -/
def drHandlePendingWc (r : Ring α) : Ring α × Bool :=
  if r.pendingWqe < signalTh then (r, true)
  else drainLoop (decide (signalTh * thNumsToDrain ≤ r.pendingWqe)) r.hw r

/-- `dr_fill_write_args_segs`. -/
def drFillWriteArgsSegs (r : Ring α) (info : PostsendInfo α) : Ring α × PostsendInfo α :=
  ({ r with pendingWqe := addU32 r.pendingWqe 1 }, { info with write := { info.write with
        sendFlags := if addU32 r.pendingWqe 1 % signalTh = 0 then true else false } })

/-- The bytes that a `memcpy` from an address gets; none where the address is none of the driver. -/
def memcpy (addr : Addr α) (length : ℕ) : Option (List α) :=
  match addr with
  | .host bytes => some (bytes.take length)
  | _ => none

/-- The copy to the ring buffer in `dr_fill_write_icm_segs`. -/
def copyToRing (r : Ring α) (info : PostsendInfo α) : Ring α × PostsendInfo α :=
  if maxInlineSize < info.write.length then
    ({ r with
        buf := update r.buf (r.txHead % signalTh) (memcpy info.write.addr info.write.length)
        txHead := addU32 r.txHead 1 },
      { info with write := { info.write with addr := .dma (r.txHead % signalTh), lkey := .mr } })
  else (r, info)

/-- The counters and flags in `dr_fill_write_icm_segs`. -/
def countIcm (r : Ring α) (info : PostsendInfo α) : Ring α × PostsendInfo α :=
  ({ r with pendingWqe := addU32 (addU32 r.pendingWqe 1) 1 }, { info with
      write := { info.write with
        sendFlags := if addU32 r.pendingWqe 1 % signalTh = 0 then true
          else info.write.sendFlags }
      read := ⟨.sync, info.write.length, .syncMr,
        if addU32 (addU32 r.pendingWqe 1) 1 % signalTh = 0 then true else false⟩ })

/-- `dr_fill_write_icm_segs`. -/
def drFillWriteIcmSegs (r : Ring α) (info : PostsendInfo α) : Ring α × PostsendInfo α :=
  countIcm (copyToRing r info).1 (copyToRing r info).2

/-- `dr_fill_data_segs`. -/
def drFillDataSegs (r : Ring α) (info : PostsendInfo α) : Ring α × PostsendInfo α :=
  match info.type with
  | .writeIcm => drFillWriteIcmSegs r info
  | .gtaArg => drFillWriteArgsSegs r info

/-- The request that `dr_rdma_segments` builds. -/
def segmentsWqe (r : Ring α) (info : PostsendInfo α) (seg : DataSeg α) (opcode : Opcode)
    (count : ℕ) (passed : Option (List α)) (again : Bool) : Wqe α :=
  ⟨r.pc, opcode, seg.sendFlags, info.remoteAddr, info.rkey, seg, count, r.completed, passed, again⟩

/-- The request is posted. -/
def Ring.append (r : Ring α) (x : Wqe α) : Ring α :=
  { r with log := r.log ++ [x], pc := addU32 r.pc x.opcode.bbs }

/-- `dr_rdma_segments`. -/
def drRdmaSegments (r : Ring α) (info : PostsendInfo α) (seg : DataSeg α) (opcode : Opcode)
    (count : ℕ) (passed : Option (List α)) (again : Bool) : Ring α :=
  r.append (segmentsWqe r info seg opcode count passed again)

/-- `dr_post_send`. -/
def drPostSend (r : Ring α) (info : PostsendInfo α) (passed : List α) (again : Bool) : Ring α :=
  match info.type with
  | .writeIcm =>
    drRdmaSegments (drRdmaSegments r info info.write .rdmaWrite (r.pendingWqe - 1) (some passed)
      again) info info.read .rdmaRead r.pendingWqe none again
  | .gtaArg => drRdmaSegments r info info.write .flowTblAccess r.pendingWqe (some passed) again

/-- `dr_postsend_icm_data`. -/
def drPostsendIcmData (r : Ring α) (info : PostsendInfo α) (passed : List α) (again : Bool) :
    Ring α × PostsendInfo α × Bool :=
  if r.internalError || r.errState then (r, info, true)
  else
    match drHandlePendingWc r with
    | (r, false) => (r, info, false)
    | (r, true) =>
      (drPostSend (drFillDataSegs r info).1 (drFillDataSegs r info).2 passed again,
        (drFillDataSegs r info).2, true)

/-- A write of `mlx5dr_send_postsend_ste` and the other functions that write to device memory. -/
def postsendWrite (r : Ring α) (data : List α) (remoteAddr rkey : ℕ) : Ring α × Bool :=
  let p := drPostsendIcmData r (sendInfo .writeIcm (.host data) data.length remoteAddr rkey)
    data false
  (p.1, p.2.2)

/-- The loop of `mlx5dr_send_postsend_args`, for at most `n` pieces. -/
def argsLoop : ℕ → Ring α → ℕ → List α → Ring α × Bool
  | 0, r, _, _ => (r, true)
  | n + 1, r, arg, data =>
    match drPostsendIcmData r (sendInfo .gtaArg (.host data) (min data.length actionCacheLineSize)
        arg 0) (data.take actionCacheLineSize) false with
    | (r, _, false) => (r, false)
    | (r, _, true) =>
      if data.length ≤ actionCacheLineSize then (r, true)
      else argsLoop n r (arg + 1) (data.drop actionCacheLineSize)

/-- `mlx5dr_send_postsend_args`. -/
def mlx5drSendPostsendArgs (r : Ring α) (argId : ℕ) (data : List α) : Ring α × Bool :=
  argsLoop (data.length + 1) r argId data

/-- The loop of `mlx5dr_send_ring_force_drain`. -/
def forceDrainLoop (data : List α) : ℕ → Ring α → PostsendInfo α → Bool → Ring α × Bool
  | 0, r, _, _ => (r, true)
  | n + 1, r, info, again =>
    match drPostsendIcmData r info data again with
    | (r, _, false) => (r, false)
    | (r, info, true) => forceDrainLoop data n r info true

/-- `mlx5dr_send_ring_force_drain`, with what is in its array `data` on the stack. -/
def mlx5drSendRingForceDrain (r : Ring α) (data : List α) (syncAddr syncMkey : ℕ) :
    Ring α × Bool :=
  match forceDrainLoop data (signalTh * thNumsToDrain / 2) r
      (sendInfo .writeIcm (.host data) 64 syncAddr syncMkey) false with
  | (r, false) => (r, false)
  | (r, true) => drHandlePendingWc r

/-- The bytes that hardware takes for a request: `byte_count` of them from the address. -/
def Wqe.bytes (buf : ℕ → Option (List α)) (x : Wqe α) : Option (List α) :=
  match x.data.addr with
  | .host bytes => some (bytes.take x.data.length)
  | .dma slot => (buf slot).map (List.take x.data.length)
  | .sync => none

end Source

/-! ### The log -/

/-- Two requests share no basic block of the send queue. -/
def Apart {α : Type} (x y : Wqe α) : Prop :=
  x.pc % wqeCnt + x.opcode.bbs ≤ y.pc % wqeCnt ∨ y.pc % wqeCnt + y.opcode.bbs ≤ x.pc % wqeCnt

section Log

variable {α : Type} {r r' : Ring α} {x y : Wqe α} {log : List (Wqe α)} {n i : ℕ}

/-- What holds of the ring while `n` requests are counted and not yet posted. -/
structure Core (n : ℕ) (r : Ring α) : Prop where
  ackedLe : r.acked ≤ r.completed
  completedLe : r.completed ≤ r.log.length
  ackedMod : r.acked % 8 = 0
  pending : r.pendingWqe + r.acked = r.log.length + n
  pendingLe : r.pendingWqe ≤ 17
  pcLt : r.pc < 2 ^ 32
  txLt : r.txHead < 2 ^ 32
  waits : r.waitsOk = true
  sig : ∀ (i : ℕ) (x : Wqe α), r.log[i]? = some x →
    (x.signaled = true ↔ (i + 1) % 8 = 0) ∧ x.count % 8 = (i + 1) % 8
  fits : ∀ (i : ℕ) (x : Wqe α), r.log[i]? = some x → x.pc % wqeCnt + x.opcode.bbs ≤ wqeCnt
  dist : ∀ (i : ℕ) (x : Wqe α), r.log[i]? = some x →
    ∃ d, x.opcode.bbs ≤ d ∧ d ≤ 2 * (r.log.length - i) ∧ (x.pc + d) % 2 ^ 32 = r.pc
  slot : ∀ (i : ℕ) (x : Wqe α) (k : ℕ), r.log[i]? = some x → x.data.addr = .dma k →
    k < 8 ∧ ∃ d, 1 ≤ d ∧ 2 * d ≤ r.log.length + n - i ∧ (k + d) % 8 = r.txHead % 8
  apart : ∀ (i j : ℕ) (x y : Wqe α), i < j → r.log[i]? = some x → r.log[j]? = some y →
    y.done ≤ i → Apart x y
  reuse : ∀ (i j : ℕ) (x y : Wqe α) (k : ℕ), i < j → r.log[i]? = some x → r.log[j]? = some y →
    x.data.addr = .dma k → y.data.addr = .dma k → i < y.done
  bytes : ∀ (i : ℕ) (x : Wqe α) (d : List α), r.completed ≤ i → r.log[i]? = some x →
    x.again = false → x.passed = some d → x.bytes r.buf = some d

theorem getElem?_concat (h : (log ++ [x])[i]? = some y) :
    log[i]? = some y ∧ i < log.length ∨ i = log.length ∧ y = x := by
  rcases Nat.lt_trichotomy i log.length with hlt | rfl | hgt
  · rw [List.getElem?_append_left hlt] at h
    exact .inl ⟨h, hlt⟩
  · rw [List.getElem?_concat_length] at h
    exact .inr ⟨rfl, (Option.some.inj h).symm⟩
  · rw [List.getElem?_eq_none (by rw [List.length_append, List.length_singleton]; omega)] at h
    cases h

theorem lt_of_getElem? (h : log[i]? = some x) : i < log.length := (List.getElem?_eq_some_iff.mp h).1

theorem bbs_bounds (op : Opcode) : 1 ≤ op.bbs ∧ op.bbs ≤ 2 := by
  cases op <;> decide

/-- What the next request must be. -/
structure Next (n : ℕ) (r : Ring α) (x : Wqe α) : Prop where
  sig : x.signaled = true ↔ (r.log.length + 1) % 8 = 0
  count : x.count % 8 = (r.log.length + 1) % 8
  pc : x.pc = r.pc
  fits : x.pc % wqeCnt + x.opcode.bbs ≤ wqeCnt
  done : x.done = r.completed
  slot : ∀ k, x.data.addr = .dma k → k < 8 ∧ 1 ≤ n ∧ (k + 1) % 8 = r.txHead % 8 ∧
    ∀ i y, r.log[i]? = some y → y.data.addr = .dma k → i < r.completed
  bytes : x.again = false → ∀ d, x.passed = some d → x.bytes r.buf = some d

/-- STEP: a request is posted. What it could overlap with is completed, as the ring has room for many
    more than can be pending. -/
theorem Core.append (core : Core (n + 1) r) (next : Next n r x) : Core n (r.append x) := by
  have hbbs := bbs_bounds x.opcode
  have hack := core.ackedLe
  have hpend := core.pending
  have hle := core.pendingLe
  have hlen : (r.append x).log.length = r.log.length + 1 := by
    unfold Ring.append
    rw [List.length_append, List.length_singleton]
  have hpc : (r.append x).pc = (r.pc + x.opcode.bbs) % 2 ^ 32 := rfl
  refine ⟨core.ackedLe, ?_, core.ackedMod, ?_, core.pendingLe, Nat.mod_lt _ (by norm_num),
    core.txLt, core.waits, ?_, ?_, ?_, ?_, ?_, ?_, ?_⟩
  · exact hlen ▸ core.completedLe.trans (Nat.le_succ _)
  · rw [hlen]
    change r.pendingWqe + r.acked = _
    omega
  · intro i y h
    rcases getElem?_concat h with ⟨h, -⟩ | ⟨rfl, rfl⟩
    · exact core.sig i y h
    · exact ⟨next.sig, next.count⟩
  · intro i y h
    rcases getElem?_concat h with ⟨h, -⟩ | ⟨rfl, rfl⟩
    · exact core.fits i y h
    · exact next.fits
  · intro i y h
    rw [hlen, hpc]
    rcases getElem?_concat h with ⟨h, hi⟩ | ⟨rfl, rfl⟩
    · obtain ⟨d, hd, hd', heq⟩ := core.dist i y h
      refine ⟨d + x.opcode.bbs, by omega, by omega, ?_⟩
      omega
    · exact ⟨_, le_rfl, by omega, by rw [next.pc]⟩
  · intro i y k h hk
    rcases getElem?_concat h with ⟨h, hi⟩ | ⟨rfl, rfl⟩
    · obtain ⟨hk8, d, hd, hd', heq⟩ := core.slot i y k h hk
      exact ⟨hk8, d, hd, by omega, heq⟩
    · obtain ⟨hk8, hn, heq, -⟩ := next.slot k hk
      exact ⟨hk8, 1, le_rfl, by omega, heq⟩
  · intro i j y z hij hy hz hdone
    rcases getElem?_concat hz with ⟨hz, hj⟩ | ⟨rfl, rfl⟩
    · rcases getElem?_concat hy with ⟨hy, -⟩ | ⟨rfl, rfl⟩
      · exact core.apart i j y z hij hy hz hdone
      · omega
    · rcases getElem?_concat hy with ⟨hy, hi⟩ | ⟨rfl, rfl⟩
      · obtain ⟨d, hd, hd', heq⟩ := core.dist i y hy
        rw [next.done] at hdone
        have hcnt : wqeCnt = 128 := by decide
        unfold Apart
        rw [next.pc, hcnt] at *
        omega
      · omega
  · intro i j y z k hij hy hz hky hkz
    rcases getElem?_concat hz with ⟨hz, hj⟩ | ⟨rfl, rfl⟩
    · rcases getElem?_concat hy with ⟨hy, -⟩ | ⟨rfl, rfl⟩
      · exact core.reuse i j y z k hij hy hz hky hkz
      · omega
    · rcases getElem?_concat hy with ⟨hy, hi⟩ | ⟨rfl, rfl⟩
      · rw [next.done]
        exact (next.slot k hkz).2.2.2 i y hy hky
      · omega
  · intro i y d hi h hagain hd
    rcases getElem?_concat h with ⟨h, -⟩ | ⟨rfl, rfl⟩
    · exact core.bytes i y d hi h hagain hd
    · exact next.bytes hagain d hd

end Log

/-! ### Completions -/

section Completions

variable {α : Type} {r r' : Ring α} {log : List (Wqe α)} {n i j : ℕ}

theorem nextSignaled_some : ∀ {n i : ℕ}, nextSignaled log n i = some j →
    i ≤ j ∧ j < i + n ∧ (∃ x, log[j]? = some x ∧ x.signaled = true) ∧
      ∀ k x, i ≤ k → k < j → log[k]? = some x → x.signaled = false
  | 0, _, h => by cases h
  | n + 1, i, h => by
    unfold nextSignaled at h
    split at h
    · rename_i hsig
      cases h
      refine ⟨le_rfl, by omega, ?_, fun k _ _ _ => by omega⟩
      rcases hx : log[j]? with _ | x
      · rw [hx] at hsig
        cases hsig
      · rw [hx] at hsig
        exact ⟨x, rfl, hsig⟩
    · rename_i hsig
      obtain ⟨hle, hlt, hex, hmin⟩ := nextSignaled_some h
      refine ⟨by omega, by omega, hex, fun k x hk hkj hx => ?_⟩
      rcases Nat.eq_or_lt_of_le hk with rfl | hk
      · simpa [hx] using hsig
      · exact hmin k x hk hkj hx

theorem nextSignaled_none : ∀ {n i : ℕ}, nextSignaled log n i = none →
    ∀ k x, i ≤ k → k < i + n → log[k]? = some x → x.signaled = false
  | 0, _, _, k, _, hk, hlt, _ => by omega
  | n + 1, i, h, k, x, hk, hlt, hx => by
    unfold nextSignaled at h
    split at h
    · cases h
    · rename_i hsig
      rcases Nat.eq_or_lt_of_le hk with rfl | hk
      · simpa [hx] using hsig
      · exact nextSignaled_none h k x hk (by omega) hx

/-- The completion that is found is that of the eighth request after the acknowledged ones. -/
theorem Core.cqe_eq (core : Core n r) (h : r.cqe = some i) : i = r.acked + 7 := by
  obtain ⟨hle, hlt, ⟨x, hx, hs⟩, hmin⟩ := nextSignaled_some h
  have hmod := core.ackedMod
  have hsig := (core.sig i x hx).1.mp hs
  have hi := lt_of_getElem? hx
  by_contra hne
  have hlt' : r.acked + 7 < i := by omega
  have hget := List.getElem?_eq_getElem (lt_trans hlt' hi)
  have hno := hmin _ _ (by omega) hlt' hget
  rw [(core.sig _ _ hget).1.mpr (by omega)] at hno
  cases hno

/-- With eight requests pending one of them is signalled. -/
theorem Core.outstanding (core : Core 0 r) (h : 8 ≤ r.pendingWqe) : r.outstanding = true := by
  by_contra hnot
  have hnone : nextSignaled r.log (r.log.length - r.acked) r.acked = none := by
    simpa [Ring.outstanding] using hnot
  have hpend := core.pending
  have hmod := core.ackedMod
  have hget := List.getElem?_eq_getElem (show r.acked + 7 < r.log.length by omega)
  have hno := nextSignaled_none hnone _ _ (by omega) (by omega) hget
  rw [(core.sig _ _ hget).1.mpr (by omega)] at hno
  cases hno

theorem Core.advance (core : Core n r) (h : Hw) : Core n (r.advance h) := by
  have hle := core.completedLe
  have hack := core.ackedLe
  have hgrow : r.completed ≤ (r.advance h).completed := by
    change _ ≤ min _ _
    omega
  exact { core with
      ackedLe := hack.trans hgrow, completedLe := (min_le_right ..),
      bytes := fun i x d hi => core.bytes i x d (hgrow.trans hi) }

/-- STEP: a completion is polled. -/
theorem Core.ack (core : Core 0 r) (h : r.cqe = some i) :
    subU32 r.pendingWqe signalTh + 8 = r.pendingWqe ∧
      Core 0 { r with acked := i + 1, pendingWqe := subU32 r.pendingWqe signalTh } := by
  obtain ⟨hle, hlt, -, -⟩ := nextSignaled_some h
  have heq := core.cqe_eq h
  have hpend := core.pending
  have hmod := core.ackedMod
  have hcle := core.completedLe
  have hple := core.pendingLe
  have hsub : subU32 r.pendingWqe signalTh + 8 = r.pendingWqe := by
    change (r.pendingWqe + (2 ^ 32 - 8)) % 2 ^ 32 + 8 = _
    omega
  refine ⟨hsub, ?_, core.completedLe, ?_, ?_, ?_, core.pcLt, core.txLt, core.waits, core.sig,
    core.fits, core.dist, core.slot, core.apart, core.reuse, core.bytes⟩
  · change i + 1 ≤ r.completed
    omega
  · change (i + 1) % 8 = 0
    omega
  · change subU32 r.pendingWqe signalTh + (i + 1) = r.log.length + 0
    omega
  · change subU32 r.pendingWqe signalTh ≤ 17
    omega

/-- What polling leaves alone. -/
structure Quiet (r r' : Ring α) : Prop where
  log : r'.log = r.log
  pc : r'.pc = r.pc
  parity : r'.pendingWqe % 2 = r.pendingWqe % 2
  error : r'.internalError = false → r.internalError = false
  errState : r'.errState = false → r.errState = false

theorem Quiet.refl (r : Ring α) : Quiet r r := ⟨rfl, rfl, rfl, id, id⟩

theorem Quiet.trans {r'' : Ring α} (h : Quiet r r') (h' : Quiet r' r'') : Quiet r r'' :=
  ⟨h'.log.trans h.log, h'.pc.trans h.pc, h'.parity.trans h.parity, fun e => h.error (h'.error e),
    fun e => h.errState (h'.errState e)⟩

theorem advance_quiet (r : Ring α) (h : Hw) : Quiet r (r.advance h) :=
  ⟨rfl, rfl, rfl, fun e => (Bool.or_eq_false_iff.mp e).1, id⟩

/-- RUN: the polls of one call. -/
theorem drainLoop_run (isDrain : Bool) : ∀ (hw : List Hw) {r : Ring α}, Core 0 r →
    Core 0 (drainLoop isDrain hw r).1 ∧ Quiet r (drainLoop isDrain hw r).1 ∧
      ((drainLoop isDrain hw r).2 = true →
        (drainLoop isDrain hw r).1.pendingWqe ≤ r.pendingWqe ∧
        (isDrain = true → (drainLoop isDrain hw r).1.pendingWqe < 8))
  | [], r, core =>
    ⟨{ core with }, ⟨rfl, rfl, rfl, id, id⟩, fun h => (by cases h)⟩
  | h :: hw, r, core => by
    have hadv := core.advance h
    have hq := advance_quiet r h
    unfold drainLoop
    rcases hcqe : (r.advance h).cqe with _ | i
    · dsimp only
      by_cases herr : (r.advance h).internalError = true
      · rw [if_pos herr]
        exact ⟨{ hadv with },
          ⟨rfl, rfl, rfl, hq.error, fun e => (by cases e)⟩, fun e => (by cases e)⟩
      · rw [if_neg herr]
        by_cases hwait : isDrain = true ∧ signalTh ≤ r.pendingWqe
        · -- the poll of a drain finds nothing
          rw [if_pos hwait]
          have hout : (r.advance h).outstanding = true := hadv.outstanding hwait.2
          have hok : (r.waitsOk && (r.advance h).outstanding) = true := by
            rw [hout, Bool.and_true]
            exact core.waits
          have hcore : Core 0 { r.advance h with
              waitsOk := r.waitsOk && (r.advance h).outstanding } :=
            { hadv with waits := hok }
          have hstep : Quiet r { r.advance h with
              waitsOk := r.waitsOk && (r.advance h).outstanding } :=
            ⟨rfl, rfl, rfl, hq.error, hq.errState⟩
          obtain ⟨hrun, hquiet, hend⟩ := drainLoop_run isDrain hw hcore
          exact ⟨hrun, hstep.trans hquiet, hend⟩
        · rw [if_neg hwait]
          refine ⟨{ hadv with }, ⟨rfl, rfl, rfl, hq.error, id⟩,
            fun _ => ⟨le_rfl, fun hd => ?_⟩⟩
          exact Nat.lt_of_not_le fun hle => hwait ⟨hd, hle⟩
    · dsimp only
      obtain ⟨hsub, hcore⟩ := hadv.ack hcqe
      obtain ⟨hrun, hquiet, hend⟩ := drainLoop_run isDrain hw hcore
      change subU32 r.pendingWqe signalTh + 8 = r.pendingWqe at hsub
      have hparity : subU32 r.pendingWqe signalTh % 2 = r.pendingWqe % 2 := by omega
      have hstep : Quiet r { r.advance h with
          acked := i + 1, pendingWqe := subU32 r.pendingWqe signalTh } :=
        ⟨rfl, rfl, hparity, hq.error, hq.errState⟩
      refine ⟨hrun, hstep.trans hquiet, fun e => ?_⟩
      · obtain ⟨hle, hlt⟩ := hend e
        exact ⟨hle.trans (show subU32 r.pendingWqe signalTh ≤ r.pendingWqe by omega), hlt⟩

/-- After `dr_handle_pending_wc` there is room. -/
theorem handlePending_run (core : Core 0 r) :
    Core 0 (drHandlePendingWc r).1 ∧ Quiet r (drHandlePendingWc r).1 ∧
      ((drHandlePendingWc r).2 = true → (drHandlePendingWc r).1.pendingWqe ≤ 15) := by
  unfold drHandlePendingWc
  split_ifs with hfew
  · exact ⟨core, Quiet.refl r, fun _ => (show r.pendingWqe < 8 from hfew).le.trans (by norm_num)⟩
  · obtain ⟨hrun, hquiet, hend⟩ :=
      drainLoop_run (decide (signalTh * thNumsToDrain ≤ r.pendingWqe)) r.hw core
    refine ⟨hrun, hquiet, fun e => ?_⟩
    obtain ⟨hle, hlt⟩ := hend e
    by_cases hfull : signalTh * thNumsToDrain ≤ r.pendingWqe
    · have := hlt (decide_eq_true hfull)
      omega
    · change ¬ 16 ≤ r.pendingWqe at hfull
      omega

end Completions

/-! ### Posts -/

section Posts

variable {α : Type} {r r' : Ring α} {info : PostsendInfo α} {passed : List α} {again : Bool}

theorem addU32_eq {a b : ℕ} (h : a + b < 2 ^ 32) : addU32 a b = a + b := Nat.mod_eq_of_lt h

theorem addU32_two {a : ℕ} (h : a ≤ 15) : addU32 (addU32 a 1) 1 = a + 2 := by
  have hone : addU32 a 1 = a + 1 := addU32_eq (by omega)
  rw [hone, addU32_eq (by omega)]

theorem addU32_mod (a b : ℕ) : addU32 a b % 8 = (a + b) % 8 := by
  unfold addU32
  omega

/-- Whoever reads the slot that is next has completed: eight copies ago is sixteen requests ago. -/
theorem Core.slot_free (core : Core 0 r) (hle : r.pendingWqe ≤ 15) {i : ℕ} {y : Wqe α}
    (hy : r.log[i]? = some y) (haddr : y.data.addr = .dma (r.txHead % signalTh)) :
    i < r.completed := by
  obtain ⟨-, d, hd, hd', heq⟩ := core.slot i y _ hy haddr
  change (r.txHead % 8 + d) % 8 = _ at heq
  have hpend := core.pending
  have hack := core.ackedLe
  omega

/-- STEP: data is copied to its slot and two requests are counted. -/
theorem Core.fillIcm (core : Core 0 r) (hle : r.pendingWqe ≤ 15) :
    Core 2 (drFillWriteIcmSegs r info).1 := by
  have hpend := core.pending
  have hadd := addU32_two hle
  unfold drFillWriteIcmSegs copyToRing countIcm
  by_cases hcopy : maxInlineSize < info.write.length
  · rw [if_pos hcopy]
    refine { core with
        pending := ?_, pendingLe := ?_, txLt := Nat.mod_lt _ (by norm_num),
        slot := fun i x k hx hk => ?_, bytes := fun i x d hi hx hagain hd => ?_ }
    · change addU32 (addU32 r.pendingWqe 1) 1 + r.acked = r.log.length + 2
      omega
    · change addU32 (addU32 r.pendingWqe 1) 1 ≤ 17
      omega
    · obtain ⟨hk8, d, hd, hd', heq⟩ := core.slot i x k hx hk
      refine ⟨hk8, d + 1, by omega, ?_, ?_⟩
      · change 2 * (d + 1) ≤ r.log.length + 2 - i
        omega
      · change _ = addU32 r.txHead 1 % 8
        rw [addU32_mod]
        omega
    · have hold := core.bytes i x d hi hx hagain hd
      unfold Wqe.bytes at hold ⊢
      rcases haddr : x.data.addr with bytes | slot | _
      · rw [haddr] at hold
        exact hold
      · rw [haddr] at hold
        by_cases hslot : slot = r.txHead % signalTh
        · exact absurd (core.slot_free hle hx (hslot ▸ haddr)) (Nat.not_lt.mpr hi)
        · dsimp only
          rw [update_of_ne hslot]
          exact hold
      · rw [haddr] at hold
        exact hold
  · rw [if_neg hcopy]
    refine { core with pending := ?_, pendingLe := ?_, slot := fun i x k hx hk => ?_ }
    · change addU32 (addU32 r.pendingWqe 1) 1 + r.acked = r.log.length + 2
      omega
    · change addU32 (addU32 r.pendingWqe 1) 1 ≤ 17
      omega
    · obtain ⟨hk8, d, hd, hd', heq⟩ := core.slot i x k hx hk
      exact ⟨hk8, d, hd, hd'.trans (Nat.sub_le_sub_right (Nat.le_add_right _ 2) i), heq⟩

/-- A request structure from which the next write may be posted. -/
structure Usable (info : PostsendInfo α) (passed : List α) (again : Bool) : Prop where
  type : info.type = .writeIcm
  flag : info.write.sendFlags = false
  src : (∃ bytes, info.write.addr = .host bytes) ∨ maxInlineSize < info.write.length
  bytes : again = false → ∃ bytes, info.write.addr = .host bytes ∧
    passed = bytes.take info.write.length

/-- What a post adds to the log, and what it leaves alone. -/
structure Posted (r r' : Ring α) (passed : List α) (again : Bool) : Prop where
  core : Core 0 r'
  pc : r'.pc % 2 = 0
  error : r'.internalError = r.internalError
  errState : r'.errState = r.errState
  log : ∃ new, r'.log = r.log ++ new ∧ (∀ x ∈ new, x.again = again) ∧
    new.filterMap (fun x => x.passed) = [passed]

/-- The write of a post and the counter at it. -/
theorem fillIcm_fields (info : PostsendInfo α) (hle : r.pendingWqe ≤ 15) :
    (drFillWriteIcmSegs r info).1.pendingWqe = r.pendingWqe + 2 ∧
      (drFillWriteIcmSegs r info).1.log = r.log ∧ (drFillWriteIcmSegs r info).1.pc = r.pc ∧
      (drFillWriteIcmSegs r info).1.completed = r.completed ∧
      (drFillWriteIcmSegs r info).1.internalError = r.internalError ∧
      (drFillWriteIcmSegs r info).1.errState = r.errState ∧
      (drFillWriteIcmSegs r info).2.type = info.type ∧
      (drFillWriteIcmSegs r info).2.write.length = info.write.length ∧
      (drFillWriteIcmSegs r info).2.read.addr = .sync ∧
      (drFillWriteIcmSegs r info).2.read.sendFlags = decide ((r.pendingWqe + 2) % 8 = 0) := by
  have hadd := addU32_two hle
  have hflag : (if addU32 (addU32 r.pendingWqe 1) 1 % signalTh = 0 then true else false) =
      decide ((r.pendingWqe + 2) % 8 = 0) := by
    rw [hadd]
    change (if (r.pendingWqe + 2) % 8 = 0 then true else false) = _
    split_ifs with h <;> simp [h]
  unfold drFillWriteIcmSegs copyToRing countIcm
  by_cases hcopy : maxInlineSize < info.write.length
  · rw [if_pos hcopy]
    exact ⟨hadd, rfl, rfl, rfl, rfl, rfl, rfl, rfl, rfl, hflag⟩
  · rw [if_neg hcopy]
    exact ⟨hadd, rfl, rfl, rfl, rfl, rfl, rfl, rfl, rfl, hflag⟩

theorem fillIcm_flag (hle : r.pendingWqe ≤ 15)
    (hflag : info.write.sendFlags = false) :
    (drFillWriteIcmSegs r info).2.write.sendFlags = decide ((r.pendingWqe + 1) % 8 = 0) := by
  have hval : (if addU32 r.pendingWqe 1 % signalTh = 0 then true else info.write.sendFlags) =
      decide ((r.pendingWqe + 1) % 8 = 0) := by
    rw [addU32_eq (by omega), hflag]
    change (if (r.pendingWqe + 1) % 8 = 0 then true else false) = _
    split_ifs with h <;> simp [h]
  unfold drFillWriteIcmSegs copyToRing countIcm
  by_cases hcopy : maxInlineSize < info.write.length
  · rw [if_pos hcopy]
    exact hval
  · rw [if_neg hcopy]
    exact hval

/-- The write of a post may be the next request. -/
theorem next_write (core : Core 0 r) (hpc : r.pc % 2 = 0) (hle : r.pendingWqe ≤ 15)
    (use : Usable info passed again) :
    Next 1 (drFillWriteIcmSegs r info).1 (segmentsWqe (drFillWriteIcmSegs r info).1
      (drFillWriteIcmSegs r info).2 (drFillWriteIcmSegs r info).2.write .rdmaWrite
      ((drFillWriteIcmSegs r info).1.pendingWqe - 1) (some passed) again) := by
  have hflag := fillIcm_flag hle use.flag
  obtain ⟨hpend, hlog, hpceq, hcomp, -⟩ := fillIcm_fields info hle
  have hcount := core.pending
  have hmod := core.ackedMod
  unfold segmentsWqe
  refine ⟨?_, ?_, rfl, ?_, rfl, fun k hk => ?_, fun hagain d hd => ?_⟩
  · dsimp only
    rw [hflag, hlog, decide_eq_true_eq]
    omega
  · dsimp only
    rw [hpend, hlog]
    omega
  · dsimp only
    rw [hpceq]
    change r.pc % 128 + 1 ≤ 128
    omega
  · rw [hlog, hcomp]
    unfold drFillWriteIcmSegs copyToRing countIcm at hk ⊢
    by_cases hcopy : maxInlineSize < info.write.length
    · rw [if_pos hcopy] at hk ⊢
      cases hk
      refine ⟨Nat.mod_lt _ (by decide), le_rfl, ?_, fun i y hy => core.slot_free hle hy⟩
      change (r.txHead % 8 + 1) % 8 = addU32 r.txHead 1 % 8
      rw [addU32_mod]
      omega
    · rw [if_neg hcopy] at hk
      obtain ⟨bytes, haddr⟩ := use.src.resolve_right hcopy
      rw [haddr] at hk
      cases hk
  · cases hd
    obtain ⟨bytes, haddr, hpassed⟩ := use.bytes hagain
    unfold drFillWriteIcmSegs copyToRing countIcm Wqe.bytes
    by_cases hcopy : maxInlineSize < info.write.length
    · rw [if_pos hcopy]
      change (update r.buf _ (memcpy info.write.addr _) _).map (List.take info.write.length) = _
      rw [update_self, haddr, hpassed, memcpy, Option.map_some, List.take_take, Nat.min_self]
    · rw [if_neg hcopy]
      rw [haddr, hpassed]

/-- And after it the read. -/
theorem next_read (core : Core 0 r) (hpc : r.pc % 2 = 0) (hle : r.pendingWqe ≤ 15) (x : Wqe α)
    (hx : x.opcode = .rdmaWrite) :
    Next 0 ((drFillWriteIcmSegs r info).1.append x)
      (segmentsWqe ((drFillWriteIcmSegs r info).1.append x) (drFillWriteIcmSegs r info).2
        (drFillWriteIcmSegs r info).2.read .rdmaRead (drFillWriteIcmSegs r info).1.pendingWqe none
        again) := by
  obtain ⟨hpend, hlog, hpceq, -, -, -, -, -, hraddr, hrflag⟩ := fillIcm_fields info hle
  have hcount := core.pending
  have hmod := core.ackedMod
  have hlen : ((drFillWriteIcmSegs r info).1.append x).log.length = r.log.length + 1 := by
    unfold Ring.append
    rw [List.length_append, hlog, List.length_singleton]
  unfold segmentsWqe
  refine ⟨?_, ?_, rfl, ?_, rfl, fun k hk => ?_, fun _ d hd => (by cases hd)⟩
  · dsimp only
    rw [hlen, hrflag, decide_eq_true_eq]
    omega
  · dsimp only
    omega
  · change addU32 (drFillWriteIcmSegs r info).1.pc x.opcode.bbs % 128 + 1 ≤ 128
    rw [hpceq, hx]
    change (r.pc + 1) % 2 ^ 32 % 128 + 1 ≤ 128
    omega
  · dsimp only at hk
    cases hk

theorem drPostSend_icm (h : info.type = .writeIcm) :
    drPostSend r info passed again = drRdmaSegments (drRdmaSegments r info info.write .rdmaWrite
      (r.pendingWqe - 1) (some passed) again) info info.read .rdmaRead r.pendingWqe none again := by
  unfold drPostSend
  rw [h]

theorem drPostSend_args (h : info.type = .gtaArg) :
    drPostSend r info passed again = drRdmaSegments r info info.write .flowTblAccess r.pendingWqe
      (some passed) again := by
  unfold drPostSend
  rw [h]

/-- STEP: a write is posted. -/
theorem post_icm (core : Core 0 r) (hpc : r.pc % 2 = 0) (hle : r.pendingWqe ≤ 15)
    (use : Usable info passed again) :
    Posted r (drPostSend (drFillDataSegs r info).1 (drFillDataSegs r info).2 passed again) passed
      again ∧
      (drPostSend (drFillDataSegs r info).1 (drFillDataSegs r info).2 passed again).pendingWqe =
        r.pendingWqe + 2 := by
  obtain ⟨hpend, hlog, hpceq, hcomp, herr, hstate, htype, -⟩ := fillIcm_fields info hle
  have hdata : drFillDataSegs r info = drFillWriteIcmSegs r info := by
    unfold drFillDataSegs
    rw [use.type]
  have hcore₁ := (core.fillIcm hle).append (next_write core hpc hle use)
  have hcore₂ := hcore₁.append (@next_read _ _ _ again core hpc hle _ rfl)
  rw [hdata, drPostSend_icm (htype.trans use.type)]
  refine ⟨⟨hcore₂, ?_, herr, hstate, ?_⟩, hpend⟩
  · change addU32 (addU32 (drFillWriteIcmSegs r info).1.pc 1) 1 % 2 = 0
    unfold addU32
    omega
  · refine ⟨_, (List.append_assoc ..).trans (by rw [hlog]), ?_, rfl⟩
    intro x hx
    rcases List.mem_cons.mp hx with rfl | hx
    · rfl
    · rw [List.mem_singleton.mp hx]
      rfl

/-- STEP: a piece of an argument is posted. Its request has two blocks and starts at an even one. -/
theorem post_args (core : Core 0 r) (hpc : r.pc % 2 = 0) (hle : r.pendingWqe ≤ 15)
    (htype : info.type = .gtaArg) {bytes : List α} (haddr : info.write.addr = .host bytes)
    (hpassed : passed = bytes.take info.write.length) :
    Posted r (drPostSend (drFillDataSegs r info).1 (drFillDataSegs r info).2 passed again) passed
      again := by
  have hcount := core.pending
  have hmod := core.ackedMod
  have hadd : addU32 r.pendingWqe 1 = r.pendingWqe + 1 := addU32_eq (by omega)
  have hflag : (if addU32 r.pendingWqe 1 % signalTh = 0 then true else false) =
      decide ((r.pendingWqe + 1) % 8 = 0) := by
    rw [hadd]
    change (if (r.pendingWqe + 1) % 8 = 0 then true else false) = _
    split_ifs with h <;> simp [h]
  have hdata : drFillDataSegs r info = drFillWriteArgsSegs r info := by
    unfold drFillDataSegs
    rw [htype]
  have hcore : Core 1 (drFillWriteArgsSegs r info).1 := by
    refine { core with pending := ?_, pendingLe := ?_, slot := fun i x k hx hk => ?_ }
    · change addU32 r.pendingWqe 1 + r.acked = r.log.length + 1
      omega
    · change addU32 r.pendingWqe 1 ≤ 17
      omega
    · obtain ⟨hk8, d, hd, hd', heq⟩ := core.slot i x k hx hk
      exact ⟨hk8, d, hd, hd'.trans (Nat.sub_le_sub_right (Nat.le_add_right _ 1) i), heq⟩
  have hnext : Next 0 (drFillWriteArgsSegs r info).1
      (segmentsWqe (drFillWriteArgsSegs r info).1 (drFillWriteArgsSegs r info).2
        (drFillWriteArgsSegs r info).2.write .flowTblAccess
        (drFillWriteArgsSegs r info).1.pendingWqe (some passed) again) := by
    unfold segmentsWqe drFillWriteArgsSegs
    refine ⟨?_, ?_, rfl, ?_, rfl, fun k hk => ?_, fun _ d hd => ?_⟩
    · dsimp only
      rw [hflag, decide_eq_true_eq]
      omega
    · dsimp only
      omega
    · change r.pc % 128 + 2 ≤ 128
      omega
    · change info.write.addr = _ at hk
      rw [haddr] at hk
      cases hk
    · cases hd
      unfold Wqe.bytes
      rw [haddr, hpassed]
  rw [hdata, drPostSend_args (show (drFillWriteArgsSegs r info).2.type = _ from htype)]
  refine ⟨hcore.append hnext, ?_, rfl, rfl, _, rfl, ?_, rfl⟩
  · change addU32 r.pc 2 % 2 = 0
    unfold addU32
    omega
  · intro x hx
    rw [List.mem_singleton.mp hx]
    rfl

/-- What one or more posts of a call add to the log; all of it was posted unless there was an error. -/
structure Sent (r r' : Ring α) (ret : Bool) (passed : List (List α)) (again : Bool) : Prop where
  core : Core 0 r'
  pc : r'.pc % 2 = 0
  error : r'.internalError = false → r.internalError = false
  errState : r'.errState = false → r.errState = false
  log : ∃ new, r'.log = r.log ++ new ∧ (∀ x ∈ new, x.again = true → again = true) ∧
    (ret = true → r'.internalError = false → r'.errState = false →
      new.filterMap (fun x => x.passed) = passed)

theorem Sent.trans {r'' : Ring α} {p p' : List (List α)} {ret : Bool}
    (h : Sent r r' true p again) (h' : Sent r' r'' ret p' again) : Sent r r'' ret (p ++ p') again := by
  obtain ⟨new, hlog, hagain, hpassed⟩ := h.log
  obtain ⟨new', hlog', hagain', hpassed'⟩ := h'.log
  refine ⟨h'.core, h'.pc, fun e => h.error (h'.error e), fun e => h.errState (h'.errState e),
    new ++ new', by rw [hlog', hlog, List.append_assoc], fun x hx => ?_, fun e e₁ e₂ => ?_⟩
  · rcases List.mem_append.mp hx with hx | hx
    · exact hagain x hx
    · exact hagain' x hx
  · rw [List.filterMap_append, hpassed rfl (h'.error e₁) (h'.errState e₂), hpassed' e e₁ e₂]

/-- A call of `dr_postsend_icm_data`, given what its post does. -/
theorem postsend_sent (core : Core 0 r) (hpc : r.pc % 2 = 0)
    (hpost : ∀ r₁ : Ring α, Core 0 r₁ → r₁.pc % 2 = 0 → r₁.pendingWqe ≤ 15 →
      Posted r₁ (drPostSend (drFillDataSegs r₁ info).1 (drFillDataSegs r₁ info).2 passed again)
        passed again) :
    Sent r (drPostsendIcmData r info passed again).1 (drPostsendIcmData r info passed again).2.2
      [passed] again := by
  unfold drPostsendIcmData
  split_ifs with herr
  · refine ⟨core, hpc, id, id, [], (List.append_nil _).symm, fun _ hx => (by cases hx),
      fun _ e₁ e₂ => ?_⟩
    rw [e₁, e₂] at herr
    cases herr
  · obtain ⟨hcore, hquiet, hend⟩ := handlePending_run core
    rcases hres : drHandlePendingWc r with ⟨r₁, _ | _⟩
    all_goals
      rw [hres] at hcore hquiet hend
      dsimp only at hcore hquiet hend ⊢
    · exact ⟨hcore, hquiet.pc ▸ hpc, hquiet.error, hquiet.errState, [],
        by rw [hquiet.log, List.append_nil], fun _ hx => (by cases hx), fun e => (by cases e)⟩
    · have h := hpost r₁ hcore (hquiet.pc ▸ hpc) (hend rfl)
      obtain ⟨new, hlog, hagain, hpassed⟩ := h.log
      exact ⟨h.core, h.pc, fun e => hquiet.error (h.error ▸ e),
        fun e => hquiet.errState (h.errState ▸ e), new, by rw [hlog, hquiet.log],
        fun x hx e => (hagain x hx).symm.trans e, fun _ _ _ => hpassed⟩

theorem Sent.fail {p p' : List (List α)} (h : Sent r r' false p again) :
    Sent r r' false p' again := by
  obtain ⟨new, hlog, hagain, -⟩ := h.log
  exact ⟨h.core, h.pc, h.error, h.errState, new, hlog, hagain, fun e => (by cases e)⟩

theorem write_sent (core : Core 0 r) (hpc : r.pc % 2 = 0) (data : List α) (remoteAddr rkey : ℕ) :
    Sent r (postsendWrite r data remoteAddr rkey).1 (postsendWrite r data remoteAddr rkey).2 [data]
      false :=
  postsend_sent core hpc fun _ core₁ hpc₁ hle => (post_icm core₁ hpc₁ hle
    ⟨rfl, rfl, .inl ⟨data, rfl⟩, fun _ => ⟨data, rfl, (List.take_length ..).symm⟩⟩).1

theorem piece_sent (core : Core 0 r) (hpc : r.pc % 2 = 0) (data : List α) (arg : ℕ) :
    Sent r (drPostsendIcmData r (sendInfo .gtaArg (.host data)
        (min data.length actionCacheLineSize) arg 0) (data.take actionCacheLineSize) false).1
      (drPostsendIcmData r (sendInfo .gtaArg (.host data)
        (min data.length actionCacheLineSize) arg 0) (data.take actionCacheLineSize) false).2.2
      [data.take actionCacheLineSize] false := by
  have htake : data.take actionCacheLineSize = data.take (min data.length actionCacheLineSize) :=
    List.take_eq_take_iff.mpr (by omega)
  exact postsend_sent core hpc fun _ core₁ hpc₁ hle => post_args core₁ hpc₁ hle rfl rfl htake

/-- RUN: the pieces of an argument make it up. -/
theorem argsLoop_sent : ∀ (n : ℕ) {r : Ring α} (arg : ℕ) (data : List α), data.length < n →
    Core 0 r → r.pc % 2 = 0 → ∃ pieces, pieces.flatten = data ∧
      Sent r (argsLoop n r arg data).1 (argsLoop n r arg data).2 pieces false
  | 0, _, _, _, hn, _, _ => by omega
  | n + 1, r, arg, data, hn, core, hpc => by
    have hone := piece_sent core hpc data arg
    unfold argsLoop
    rcases hres : drPostsendIcmData r (sendInfo .gtaArg (.host data)
      (min data.length actionCacheLineSize) arg 0) (data.take actionCacheLineSize) false with
      ⟨r₁, info, _ | _⟩
    all_goals
      rw [hres] at hone
      dsimp only at hone ⊢
    · exact ⟨[data], by simp, hone.fail⟩
    · by_cases hlen : data.length ≤ actionCacheLineSize
      · rw [if_pos hlen]
        exact ⟨_, by rw [List.flatten_singleton, List.take_of_length_le hlen], hone⟩
      · rw [if_neg hlen]
        have hdrop : (data.drop actionCacheLineSize).length < n := by
          rw [List.length_drop]
          change data.length - 64 < n
          change ¬ data.length ≤ 64 at hlen
          omega
        obtain ⟨pieces, hflat, hsent⟩ := argsLoop_sent n (arg + 1) _ hdrop hone.core hone.pc
        exact ⟨data.take actionCacheLineSize :: pieces, by
          rw [List.flatten_cons, hflat, List.take_append_drop], hone.trans hsent⟩

theorem args_sent (core : Core 0 r) (hpc : r.pc % 2 = 0) (argId : ℕ) (data : List α) :
    ∃ pieces, pieces.flatten = data ∧ Sent r (mlx5drSendPostsendArgs r argId data).1
      (mlx5drSendPostsendArgs r argId data).2 pieces false :=
  argsLoop_sent _ argId data (Nat.lt_succ_self _) core hpc

/-- STEP: one request of a drain, at an even counter: the write is never the signalled one, and the
    flag stays clear. -/
theorem drain_step (core : Core 0 r) (hpc : r.pc % 2 = 0) (heven : r.pendingWqe % 2 = 0)
    (use : Usable info passed again) (hlen : maxInlineSize < info.write.length) :
    Core 0 (drPostsendIcmData r info passed again).1 ∧
      (drPostsendIcmData r info passed again).1.pc % 2 = 0 ∧
      ((drPostsendIcmData r info passed again).2.2 = true →
        (drPostsendIcmData r info passed again).1.pendingWqe % 2 = 0 ∧
        Usable (drPostsendIcmData r info passed again).2.1 passed true ∧
        maxInlineSize < (drPostsendIcmData r info passed again).2.1.write.length) := by
  have hsent := postsend_sent core hpc fun r₁ core₁ hpc₁ hle => (post_icm core₁ hpc₁ hle use).1
  refine ⟨hsent.core, hsent.pc, fun e => ?_⟩
  unfold drPostsendIcmData at e ⊢
  by_cases herr : (r.internalError || r.errState) = true
  · rw [if_pos herr]
    exact ⟨heven, { use with bytes := fun h => (by cases h) }, hlen⟩
  · rw [if_neg herr] at e ⊢
    obtain ⟨hcore, hquiet, hend⟩ := handlePending_run core
    rcases hres : drHandlePendingWc r with ⟨r₁, _ | _⟩
    all_goals
      rw [hres] at hcore hquiet hend e
      dsimp only at hcore hquiet hend e ⊢
    · cases e
    · have hle := hend rfl
      have hpar := hquiet.parity
      have hpend := (post_icm hcore (hquiet.pc ▸ hpc) hle use).2
      obtain ⟨-, -, -, -, -, -, htype, hlen', -⟩ := fillIcm_fields info hle
      have hflag := fillIcm_flag hle use.flag
      have hdata : drFillDataSegs r₁ info = drFillWriteIcmSegs r₁ info := by
        unfold drFillDataSegs
        rw [use.type]
      rw [hpend, hdata]
      refine ⟨by omega, ⟨htype.trans use.type, ?_, .inr ?_, fun h => (by cases h)⟩, ?_⟩
      · rw [hflag, decide_eq_false_iff_not]
        omega
      · rw [hlen']
        exact hlen
      · rw [hlen']
        exact hlen

/-- RUN: a drain that starts at an even counter. -/
theorem forceDrainLoop_run (data : List α) : ∀ (n : ℕ) {r : Ring α} {info : PostsendInfo α}
    {again : Bool}, Core 0 r → r.pc % 2 = 0 → r.pendingWqe % 2 = 0 → Usable info data again →
      maxInlineSize < info.write.length → Core 0 (forceDrainLoop data n r info again).1 ∧
        (forceDrainLoop data n r info again).1.pc % 2 = 0
  | 0, _, _, _, core, hpc, _, _, _ => ⟨core, hpc⟩
  | n + 1, r, info, again, core, hpc, heven, use, hlen => by
    obtain ⟨hcore, hpc', hnext⟩ := drain_step core hpc heven use hlen
    unfold forceDrainLoop
    rcases hres : drPostsendIcmData r info data again with ⟨r₁, info₁, _ | _⟩
    all_goals
      rw [hres] at hcore hpc' hnext
      dsimp only at hcore hpc' hnext ⊢
    · exact ⟨hcore, hpc'⟩
    · obtain ⟨heven', use', hlen'⟩ := hnext rfl
      exact forceDrainLoop_run data n hcore hpc' heven' use' hlen'

theorem drain_run (core : Core 0 r) (hpc : r.pc % 2 = 0) (heven : r.pendingWqe % 2 = 0)
    {data : List α} (hdata : data.length = 64) (syncAddr syncMkey : ℕ) :
    Core 0 (mlx5drSendRingForceDrain r data syncAddr syncMkey).1 ∧
      (mlx5drSendRingForceDrain r data syncAddr syncMkey).1.pc % 2 = 0 := by
  have use : Usable (sendInfo .writeIcm (.host data) 64 syncAddr syncMkey) data false :=
    ⟨rfl, rfl, .inl ⟨data, rfl⟩, fun _ => ⟨data, rfl, (List.take_of_length_le hdata.le).symm⟩⟩
  have hloop := forceDrainLoop_run data (signalTh * thNumsToDrain / 2) core hpc heven use
    (show maxInlineSize < 64 by decide)
  unfold mlx5drSendRingForceDrain
  rcases hres : forceDrainLoop data (signalTh * thNumsToDrain / 2) r
    (sendInfo .writeIcm (.host data) 64 syncAddr syncMkey) false with ⟨r₁, _ | _⟩
  all_goals
    rw [hres] at hloop
  · exact hloop
  · obtain ⟨hcore, hquiet, -⟩ := handlePending_run hloop.1
    exact ⟨hcore, hquiet.pc ▸ hloop.2⟩

end Posts

/-! ### Runs -/

/-- A call, with what the environment does meanwhile, or the environment between two calls. -/
inductive Act (α : Type) where
  | write (data : List α) (remoteAddr rkey : ℕ) (hw : List Hw)
  | args (argId : ℕ) (data : List α) (hw : List Hw)
  | drain (data : List α) (syncAddr syncMkey : ℕ) (hw : List Hw)
  | env (h : Hw)

section Runs

variable {α : Type} {r : Ring α}

/-- A call begins. -/
def Ring.begin (r : Ring α) (hw : List Hw) : Ring α := { r with hw := hw }

/-- One call. -/
def step (r : Ring α) : Act α → Ring α
  | .write data remoteAddr rkey hw => (postsendWrite (r.begin hw) data remoteAddr rkey).1
  | .args argId data hw => (mlx5drSendPostsendArgs (r.begin hw) argId data).1
  | .drain data syncAddr syncMkey hw =>
    (mlx5drSendRingForceDrain (r.begin hw) data syncAddr syncMkey).1
  | .env h => r.advance h

/-- The last call has returned, and what is written fits in a slot. -/
def ok (r : Ring α) : Act α → Prop
  | .write data _ _ _ => r.cut = false ∧ data.length ≤ maxPostSendSize
  | .args _ data _ => r.cut = false ∧ data.length % 8 = 0
  | .drain data _ _ _ => r.cut = false ∧ data.length = 64
  | .env _ => True

/-- A drain begins with an even counter. -/
def evenDrain (r : Ring α) (a : Act α) : Prop :=
  ok r a ∧ match a with
    | .drain .. => r.pendingWqe % 2 = 0
    | _ => True

/-- There is no drain. -/
def noDrain (r : Ring α) (a : Act α) : Prop :=
  ok r a ∧ match a with
    | .drain .. => False
    | _ => True

instance (r : Ring α) (a : Act α) : Decidable (ok r a) := by
  cases a <;> unfold ok <;> infer_instance

instance (r : Ring α) (a : Act α) : Decidable (noDrain r a) := by
  cases a <;> unfold noDrain <;> infer_instance

theorem Core.begin (core : Core 0 r) (hw : List Hw) : Core 0 (r.begin hw) :=
  { core with }

theorem newRing_core : Core 0 (newRing : Ring α) :=
  ⟨le_rfl, le_rfl, rfl, rfl, Nat.zero_le _, Nat.two_pow_pos _, Nat.two_pow_pos _, rfl,
    fun i x h => (by cases h), fun i x h => (by cases h), fun i x h => (by cases h),
    fun i x k h => (by cases h),
    fun i j x y _ h => (by cases h), fun i j x y k _ h => (by cases h),
    fun i x d _ h => (by cases h)⟩

theorem step_core (a : Act α) (h : evenDrain r a) (core : Core 0 r) (hpc : r.pc % 2 = 0) :
    Core 0 (step r a) ∧ (step r a).pc % 2 = 0 := by
  cases a with
  | write data remoteAddr rkey hw =>
    have hsent := write_sent (core.begin hw) hpc data remoteAddr rkey
    exact ⟨hsent.core, hsent.pc⟩
  | args argId data hw =>
    obtain ⟨pieces, -, hsent⟩ := args_sent (core.begin hw) hpc argId data
    exact ⟨hsent.core, hsent.pc⟩
  | drain data syncAddr syncMkey hw =>
    exact drain_run (core.begin hw) hpc h.2 h.1.2 syncAddr syncMkey
  | env e => exact ⟨core.advance e, hpc⟩

/-- RUN: with drains at even counters only. -/
theorem reach_core (h : Reach step evenDrain (newRing : Ring α) r) :
    Core 0 r ∧ r.pc % 2 = 0 := by
  induction h with
  | start => exact ⟨newRing_core, rfl⟩
  | next _ hok ih => exact step_core _ hok ih.1 ih.2

theorem noDrain_even (r : Ring α) (a : Act α) (h : noDrain r a) : evenDrain r a := by
  refine ⟨h.1, ?_⟩
  cases a with
  | drain => exact h.2.elim
  | _ => trivial

theorem Sent.once {r' : Ring α} {ret : Bool} {p : List (List α)} (h : Sent r r' ret p false)
    (hold : ∀ x ∈ r.log, x.again = false) : ∀ x ∈ r'.log, x.again = false := by
  obtain ⟨new, hlog, hagain, -⟩ := h.log
  intro x hx
  rw [hlog] at hx
  rcases List.mem_append.mp hx with hx | hx
  · exact hold x hx
  · exact Bool.eq_false_iff.mpr fun e => Bool.false_ne_true (hagain x hx e)

/-- RUN: without a drain no request structure is posted twice. -/
theorem reach_once (h : Reach step noDrain (newRing : Ring α) r) :
    ∀ x ∈ r.log, x.again = false := by
  induction h with
  | start => exact fun x hx => (by cases hx)
  | @next r a hreach hok ih =>
    obtain ⟨core, hpc⟩ := reach_core (hreach.mono noDrain_even)
    cases a with
    | write data remoteAddr rkey hw =>
      exact (write_sent (core.begin hw) hpc data remoteAddr rkey).once ih
    | args argId data hw =>
      obtain ⟨pieces, -, hsent⟩ := args_sent (core.begin hw) hpc argId data
      exact hsent.once ih
    | drain => exact hok.2.elim
    | env => exact ih

/-- What is promised for the ring, but for the bytes that are posted. -/
structure Sound (r : Ring α) : Prop where
  pending : r.pendingWqe + r.acked = r.log.length
  lastAcked : r.acked = 0 ∨ ∃ x, r.log[r.acked - 1]? = some x ∧ x.signaled = true
  ackedLe : r.acked ≤ r.completed ∧ r.completed ≤ r.log.length
  signaled : ∀ (i : ℕ) (x : Wqe α), r.log[i]? = some x → (x.signaled = true ↔ x.count % signalTh = 0)
  inside : ∀ (i : ℕ) (x : Wqe α), r.log[i]? = some x → x.pc % wqeCnt + x.opcode.bbs ≤ wqeCnt
  apart : ∀ (i j : ℕ) (x y : Wqe α), i < j → r.log[i]? = some x → r.log[j]? = some y →
    y.done ≤ i → Apart x y
  reuse : ∀ (i j : ℕ) (x y : Wqe α) (k : ℕ), i < j → r.log[i]? = some x → r.log[j]? = some y →
    x.data.addr = .dma k → y.data.addr = .dma k → i < y.done
  waits : r.waitsOk = true

/-- What hardware finds for the requests that are not completed is what was passed. -/
def BytesOk (r : Ring α) : Prop :=
  ∀ (i : ℕ) (x : Wqe α) (d : List α), r.completed ≤ i → r.log[i]? = some x → x.passed = some d →
    x.bytes r.buf = some d

theorem Core.sound (core : Core 0 r) : Sound r := by
  refine ⟨core.pending, ?_, ⟨core.ackedLe, core.completedLe⟩, fun i x hx => ?_, core.fits,
    core.apart, core.reuse, core.waits⟩
  · rcases Nat.eq_zero_or_pos r.acked with hzero | hpos
    · exact .inl hzero
    · have hle := core.ackedLe.trans core.completedLe
      have hmod := core.ackedMod
      have hget := List.getElem?_eq_getElem (show r.acked - 1 < r.log.length by omega)
      exact .inr ⟨_, hget, (core.sig _ _ hget).1.mpr (by omega)⟩
  · obtain ⟨hsig, hcount⟩ := core.sig i x hx
    rw [hsig, ← hcount]
    exact Iff.rfl

/-- A write call that met no error has posted its data, as has one for an argument, in pieces. -/
def PostsData (r : Ring α) : Prop :=
  (∀ data remoteAddr rkey hw, (postsendWrite (r.begin hw) data remoteAddr rkey).2 = true →
    (postsendWrite (r.begin hw) data remoteAddr rkey).1.internalError = false →
    (postsendWrite (r.begin hw) data remoteAddr rkey).1.errState = false →
    ∃ new, (postsendWrite (r.begin hw) data remoteAddr rkey).1.log = r.log ++ new ∧
      new.filterMap (fun x => x.passed) = [data]) ∧ (∀ argId data hw,
    (mlx5drSendPostsendArgs (r.begin hw) argId data).2 = true →
    (mlx5drSendPostsendArgs (r.begin hw) argId data).1.internalError = false →
    (mlx5drSendPostsendArgs (r.begin hw) argId data).1.errState = false →
    ∃ new, (mlx5drSendPostsendArgs (r.begin hw) argId data).1.log = r.log ++ new ∧
      (new.filterMap fun x => x.passed).flatten = data)

theorem Core.postsData (core : Core 0 r) (hpc : r.pc % 2 = 0) : PostsData r := by
  refine ⟨fun data remoteAddr rkey hw e₀ e₁ e₂ => ?_, fun argId data hw e₀ e₁ e₂ => ?_⟩
  · obtain ⟨new, hlog, -, hpassed⟩ := (write_sent (core.begin hw) hpc data remoteAddr rkey).log
    exact ⟨new, hlog, hpassed e₀ e₁ e₂⟩
  · obtain ⟨pieces, hflat, hsent⟩ := args_sent (core.begin hw) hpc argId data
    obtain ⟨new, hlog, -, hpassed⟩ := hsent.log
    exact ⟨new, hlog, by rw [hpassed e₀ e₁ e₂, hflat]⟩

end Runs

end RdmaDriver.DrSendRing
