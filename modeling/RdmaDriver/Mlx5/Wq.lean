import Mathlib.Logic.Function.Basic
import RdmaDriver.Basic

/-! @src drivers/infiniband/hw/mlx5/mlx5_ib.h, drivers/infiniband/hw/mlx5/cq.c |
    name:Work queue bookkeeping | scheme:trail

    A work queue keeps, beside the ring that hardware reads, one record per basic block: the
    caller's `wrid`, the kind of request, the value of `head` when it was posted, and in `w_list`
    the index at which the next WQE starts. `last_poll` walks along `w_list` as completions are
    polled. Counters run freely and are masked with `wqe_cnt - 1` on every access. -/

namespace RdmaDriver.Mlx5Wq

/-- `enum ib_qp_type`, with the driver's own types. -/
inductive QpType where
  | SMI | GSI | RC | UC | UD | RAW_PACKET | XRC_INI | XRC_TGT | DRIVER
  | REG_UMR | HW_GSI | DCI | DCT | SW_CNAK
  deriving DecidableEq

/-- `is_qp1`. -/
def isQp1 (t : QpType) : Bool := t = .HW_GSI || t = .GSI

/-- Values of `wr_data` that the completion path tells apart (`IB_WR_*` and `MLX5_IB_WR_*`). -/
def WR_LOCAL_INV : ℕ := 7
def WR_REG_MR : ℕ := 0x20
def WR_UMR : ℕ := 0xf0
def WR_SIG_CANCELED : ℕ := 0xf2

/-- `struct wr_list`. -/
structure WrList where
  opcode : ℕ
  next : ℕ
  deriving DecidableEq

/-- The bookkeeping of `struct mlx5_ib_wq`. `head` and `tail` are 32-bit, `cur_post` and `last_poll`
    16-bit counters; the tables are indexed by basic block. -/
structure Wq where
  wqeCnt : ℕ
  maxPost : ℕ
  maxGs : ℕ
  head : ℕ
  tail : ℕ
  curPost : ℕ
  lastPoll : ℕ
  wrid : ℕ → ℕ
  wrData : ℕ → ℕ
  wqeHead : ℕ → ℕ
  wList : ℕ → WrList

/-- `wqe_cnt - 1`, the mask of every index computation. -/
def Wq.mask (wq : Wq) : ℕ := toU 32 ((wq.wqeCnt : ℤ) - 1)

/-- The walk of `handle_atomics` from `tail` to the block `head`. The indices are 16-bit, so a walk
    that misses `head` for `2 ^ 16` turns goes on forever. -/
def handleAtomicsLoop (wq : Wq) (head : ℕ) : ℕ → ℕ → Option ℕ
  | 0, _ => none
  | fuel + 1, tail =>
    let idx := tail &&& wq.mask
    if idx = head then some idx else handleAtomicsLoop wq head fuel (wq.wList idx).next

/-- `handle_atomics`; `none` when it does not return. -/
def handleAtomics (wq : Wq) (head : ℕ) : Option Wq :=
  match handleAtomicsLoop wq head (2 ^ 16) wq.lastPoll with
  | none => none
  | some idx => some { wq with lastPoll := (wq.wList idx).next }

end RdmaDriver.Mlx5Wq
