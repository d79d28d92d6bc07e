import Mathlib.Logic.Function.Basic
import RdmaDriver.Mlx5.SqEdge

/-! @src drivers/infiniband/hw/mlx5/wr.c | name:Doorbell | scheme:ring | family:post-send

    A list of work requests is written into the ring as WQEs, and one doorbell is rung for all of
    them. The doorbell carries the first 8 bytes of a control segment: the one that `ctrl` points to
    when the loop is left.

        begin_wqe              checks of the request          finish_wqe
        ctrl := next stride --> segments --> (error) --+ --> writes the 8 bytes
                                                       +--> out: ctrl keeps pointing here

    A check that fails after `begin_wqe` leaves `ctrl` at a stride whose 8 bytes are old. -/

namespace RdmaDriver.Doorbell

def IB_WR_RDMA_WRITE : ℕ := 0
def IB_WR_RDMA_WRITE_WITH_IMM : ℕ := 1
def IB_WR_SEND : ℕ := 2
def IB_WR_SEND_WITH_IMM : ℕ := 3
def IB_WR_RDMA_READ : ℕ := 4
def IB_WR_ATOMIC_CMP_AND_SWP : ℕ := 5
def IB_WR_ATOMIC_FETCH_AND_ADD : ℕ := 6
def IB_WR_LOCAL_INV : ℕ := 7
def IB_WR_SEND_WITH_INV : ℕ := 9
def IB_WR_LSO : ℕ := 10
def IB_WR_MASKED_ATOMIC_CMP_AND_SWP : ℕ := 12
def IB_WR_REG_MR : ℕ := 0x20
def IB_WR_REG_MR_INTEGRITY : ℕ := 0x21
def MLX5_IB_WR_UMR : ℕ := 0xf0

def MLX5_OPCODE_SET_PSV : ℕ := 0x20
def MLX5_OPCODE_UMR : ℕ := 0x25
def MLX5_IB_SQ_UMR_INLINE_THRESHOLD : ℕ := 64

/-- `mlx5_ib_opcode`, by the opcode of a request. -/
def mlx5IbOpcode : ℕ → ℕ
  | 0 => 0x08
  | 1 => 0x09
  | 2 => 0x0a
  | 3 => 0x0b
  | 4 => 0x10
  | 5 => 0x11
  | 6 => 0x12
  | 7 => MLX5_OPCODE_UMR
  | 9 => 0x01
  | 10 => 0x0e
  | 12 => 0x14
  | 13 => 0x15
  | 0x20 => MLX5_OPCODE_UMR
  | 0xf0 => MLX5_OPCODE_UMR
  | _ => 0

/-- The types of a QP that posts here; a GSI QP is passed on to `mlx5_ib_gsi_post_send`. -/
inductive QpType where
  | rc | xrcIni | uc | smi | hwGsi | ud | other
  deriving DecidableEq

/-- `enum ib_signature_type`. -/
inductive SigType where
  | none | t10Dif | other
  deriving DecidableEq

/-- What the device says of changes by UMR. -/
structure UmrCaps where
  atomic : Bool
  umrModifyAtomicDisabled : Bool
  relaxedOrderingWrite : Bool
  relaxedOrderingWriteUmr : Bool
  relaxedOrderingRead : Bool
  relaxedOrderingReadPciEnabled : Bool
  relaxedOrderingReadUmr : Bool

/-- What a request reads of an MR. -/
structure Mr where
  ndescs : ℕ
  metaNdescs : ℕ
  descSize : ℕ
  dataLength : ℕ
  dataIova : ℕ
  metaLength : ℕ
  piIova : ℕ

/-- The part of `struct ib_reg_wr`: the MR, its `pi_mr`, what there is of a signature context (with
    `sig_status_checked`), the domains and the access. -/
structure RegWr where
  mr : Mr
  piMr : Option Mr
  sig : Option Bool
  mem : SigType
  wire : SigType
  remoteAtomic : Bool
  relaxedOrdering : Bool

/-- A work request; an entry is its length. -/
structure Wr where
  opcode : ℕ
  sgs : List ℕ
  sigPipelined : Bool
  inl : Bool
  hlen : ℕ
  reg : RegWr

/-- What does not change while requests are posted. -/
structure Qp where
  type : QpType
  head : ℕ
  tail : ℕ
  maxPost : ℕ
  wqeCnt : ℕ
  maxGs : ℕ
  maxInlineData : ℤ
  qpn : ℕ
  signaturePipeline : Bool
  ipoibUdLso : Bool
  integrityEn : Bool
  hasSmi : Bool
  caps : UmrCaps

/-- `opmod_idx_opcode` and `qpn_ds`, the first 8 bytes of a control segment. -/
abbrev Word := ℕ × ℕ

/-- The queue while requests are posted: the first 8 bytes of every stride, `ctrl`, and what
    `mlx5r_finish_wqe` wrote last in this call. -/
structure St where
  curPost : ℕ
  ring : ℕ → Word
  ctrl : Option ℕ
  last : Option Word

/-- The stride of `cur_post`. -/
def slot (q : Qp) (s : St) : ℕ := s.curPost &&& (q.wqeCnt - 1)

/-- `mlx5r_wq_overflow`. -/
def mlx5rWqOverflow (q : Qp) (nreq : ℕ) : Bool :=
  decide (q.maxPost ≤ toU 32 ((q.head : ℤ) - q.tail + nreq))

/-- `mlx5r_begin_wqe`: the stride, and the queue with `ctrl` there. -/
def mlx5rBeginWqe (q : Qp) (nreq : ℕ) (s : St) : Option (ℕ × St) :=
  if mlx5rWqOverflow q nreq then none else some (slot q s, { s with ctrl := some (slot q s) })

/-- The 8 bytes that `mlx5r_finish_wqe` writes. -/
def ctrlWord (q : Qp) (curPost size opcode : ℕ) : Word :=
  (toU 32 (curPost <<< 8 ||| opcode : ℕ), toU 32 (toU 8 size ||| q.qpn <<< 8 : ℕ))

/-- `mlx5r_finish_wqe` of the control segment at `c`. -/
def mlx5rFinishWqe (q : Qp) (c size opcode : ℕ) (s : St) : St :=
  { s with
    ring := Function.update s.ring c (ctrlWord q s.curPost size opcode)
    curPost := toU 16 (s.curPost + divRoundUp (toU 8 size * 16) SqEdge.MLX5_SEND_WQE_BB : ℕ)
    last := some (ctrlWord q s.curPost size opcode) }

section Segments

/-- `mlx5r_umr_can_reconfig` from no access flags. -/
def mlx5rUmrCanReconfig (c : UmrCaps) (r : RegWr) : Bool :=
  !(r.remoteAtomic && c.atomic && c.umrModifyAtomicDisabled) &&
  !(r.relaxedOrdering && c.relaxedOrderingWrite && !c.relaxedOrderingWriteUmr) &&
  !(r.relaxedOrdering && (c.relaxedOrderingRead || c.relaxedOrderingReadPciEnabled) &&
    !c.relaxedOrderingReadUmr)

/-- `set_reg_wr`: the size with the UMR and mkey segments and the descriptors, or an error. -/
def setRegWr (c : UmrCaps) (r : RegWr) (mr : Mr) (inl : Bool) (size : ℕ) : Except Errno ℕ :=
  if !mlx5rUmrCanReconfig c r then .error .einval
  else if inl then .error .einval
  else
    let mrListSize := (mr.ndescs + mr.metaNdescs) * mr.descSize
    if mrListSize ≤ MLX5_IB_SQ_UMR_INLINE_THRESHOLD then
      .ok (align (size + 3 + 4 + align mrListSize 16 / 16) (SqEdge.MLX5_SEND_WQE_BB >>> 4))
    else .ok (size + 3 + 4 + 1)

/-- `mlx5_set_bsf`. -/
def mlx5SetBsf (r : RegWr) : Except Errno Unit :=
  if r.mem = .other then .error .einval
  else if r.wire = .other then .error .einval
  else .ok ()

/-- `set_sig_data_segment`: data and protection, and the BSF. -/
def setSigDataSegment (r : RegWr) (pi : Mr) (size : ℕ) : Except Errno ℕ :=
  let prot := pi.metaNdescs ≠ 0
  if ¬prot ∨ (pi.dataIova = pi.piIova ∧ pi.dataLength = pi.metaLength) then
    (mlx5SetBsf r).map fun _ => size + 4 + 4
  else if r.mem ≠ .t10Dif then .error .einval
  else (mlx5SetBsf r).map fun _ => size + 4 + 4

/-- `set_pi_umr_wr`. -/
def setPiUmrWr (q : Qp) (wr : Wr) (pi : Mr) (size : ℕ) : Except Errno ℕ :=
  if wr.sgs ≠ [] ∨ wr.reg.remoteAtomic ∨ wr.reg.sig = none ∨ !q.integrityEn ∨
      wr.reg.sig = some false then .error .einval
  else setSigDataSegment wr.reg pi (size + 3 + 4)

/-- `set_psv_wr`. -/
def setPsvWr (ty : SigType) (size : ℕ) : Except Errno ℕ :=
  if ty = .other then .error .einval else .ok (size + 1)

/-- `handle_qpt_rc`, but for MRs with integrity: the size and the entries that are left. -/
def handleQptRc (q : Qp) (wr : Wr) (size : ℕ) : Except Errno (ℕ × List ℕ) :=
  if wr.opcode ∈ [IB_WR_RDMA_READ, IB_WR_RDMA_WRITE, IB_WR_RDMA_WRITE_WITH_IMM] then
    .ok (size + 1, wr.sgs)
  else if wr.opcode ∈ [IB_WR_ATOMIC_CMP_AND_SWP, IB_WR_ATOMIC_FETCH_AND_ADD,
      IB_WR_MASKED_ATOMIC_CMP_AND_SWP] then .error .eopnotsupp
  else if wr.opcode = IB_WR_LOCAL_INV then .ok (size + 3 + 4, [])
  else if wr.opcode = IB_WR_REG_MR then
    (setRegWr q.caps wr.reg wr.reg.mr wr.inl size).map fun size => (size, [])
  else .ok (size, wr.sgs)

/-- `handle_qpt_uc`. -/
def handleQptUc (wr : Wr) (size : ℕ) : ℕ :=
  if wr.opcode ∈ [IB_WR_RDMA_WRITE, IB_WR_RDMA_WRITE_WITH_IMM] then size + 1 else size

/-- The size after `set_eth_seg`; the header of a LSO request goes in from byte 14 on. -/
def setEthSeg (wr : Wr) (size : ℕ) : ℕ :=
  if wr.opcode = IB_WR_LSO then size + align (14 + wr.hlen) 16 / 16 else size + 1

/-- `handle_qpt_ud`. -/
def handleQptUd (q : Qp) (wr : Wr) (size : ℕ) : ℕ :=
  if q.ipoibUdLso then setEthSeg wr (size + 3 + 1) else size + 3

/-- The segments of a request by the type of the QP. -/
def typeSegs (q : Qp) (wr : Wr) (size : ℕ) : Except Errno (ℕ × List ℕ) :=
  match q.type with
  | .xrcIni => handleQptRc q wr (size + 1)
  | .rc => handleQptRc q wr size
  | .uc => .ok (handleQptUc wr size, wr.sgs)
  | .smi => if !q.hasSmi then .error .eperm else .ok (size + 3, wr.sgs)
  | .hwGsi => .ok (size + 3, wr.sgs)
  | .ud => .ok (handleQptUd q wr size, wr.sgs)
  | .other => .ok (size, wr.sgs)

/-- The data of a request: inline, or a pointer for each entry that is not empty. -/
def dataSegs (q : Qp) (wr : Wr) (size : ℕ) (sgs : List ℕ) : Except Errno ℕ :=
  if wr.inl ∧ sgs ≠ [] then
    match SqEdge.inlAcc q.maxInlineData sgs 0 with
    | none => .error .enomem
    | some inl => .ok (size + align (toU 64 (inl + 4)) 16 / 16)
  else .ok (size + (sgs.filter (· ≠ 0)).length)

/-- A request that is to be pipelined behind a signature. -/
def sigPiped (wr : Wr) : Prop :=
  wr.opcode ∈ [IB_WR_SEND, IB_WR_SEND_WITH_IMM, IB_WR_SEND_WITH_INV] ∧ wr.sigPipelined

instance (wr : Wr) : Decidable (sigPiped wr) := inferInstanceAs (Decidable (_ ∧ _))

/-- The size of a request that is one WQE, or the check that it fails after `begin_wqe`. -/
def wrSegs (q : Qp) (wr : Wr) : Except Errno ℕ :=
  if sigPiped wr ∧ !q.signaturePipeline then .error .einval
  else
    match typeSegs q wr 1 with
    | .error e => .error e
    | .ok (size, sgs) => dataSegs q wr size sgs

end Segments

section Post
/- What the segments of a WQE at a stride put into the ring, up to its end or to the check that
   fails, is no matter here. -/
variable (q : Qp) (fill : Wr → ℕ → (ℕ → Word) → ℕ → Word)

/-- The segments of a WQE are written, and it is finished unless there is an error. -/
def writeWqe (wr : Wr) (c : ℕ) (size : Except Errno ℕ) (opcode : ℕ) (s : St) :
    Option Errno × St :=
  let s := { s with ring := fill wr c s.ring }
  match size with
  | .error e => (some e, s)
  | .ok size => (none, mlx5rFinishWqe q c size opcode s)

/-- The next step, unless there was an error. -/
def andThen (r : Option Errno × St) (f : St → Option Errno × St) : Option Errno × St :=
  match r with
  | (some e, s) => (some e, s)
  | (none, s) => f s

/-- `handle_psv`. -/
def handlePsv (wr : Wr) (nreq : ℕ) (ty : SigType) (s : St) : Option Errno × St :=
  match mlx5rBeginWqe q nreq s with
  | none => (some .enomem, s)
  | some (c, s) => writeWqe q fill wr c (setPsvWr ty 1) MLX5_OPCODE_SET_PSV s

/-- `handle_reg_mr_integrity`, in a WQE that was begun at `c`. -/
def handleRegMrIntegrity (wr : Wr) (nreq c size : ℕ) (s : St) : Option Errno × St :=
  let rest := fun (pi : Mr) (c size : ℕ) (s : St) =>
    andThen (writeWqe q fill wr c (setPiUmrWr q wr pi size) MLX5_OPCODE_UMR s) fun s =>
      andThen (handlePsv q fill wr nreq wr.reg.mem s) fun s =>
        handlePsv q fill wr nreq wr.reg.wire s
  match wr.reg.piMr with
  | some pi =>
    andThen (writeWqe q fill wr c (setRegWr q.caps wr.reg pi false size) MLX5_OPCODE_UMR s)
      fun s =>
        match mlx5rBeginWqe q nreq s with
        | none => (some .enomem, s)
        | some (c, s) => rest pi c 1 s
  | none => rest wr.reg.mr c size s

/-- One turn of the loop of `mlx5_ib_post_send`. -/
def postOne (nreq : ℕ) (wr : Wr) (s : St) : Option Errno × St :=
  if wr.opcode ≥ MLX5_IB_WR_UMR + 1 then (some .einval, s)
  else if wr.sgs.length > q.maxGs then (some .einval, s)
  else
    match mlx5rBeginWqe q nreq s with
    | none => (some .enomem, s)
    | some (c, s) =>
      if (q.type = .rc ∨ q.type = .xrcIni) ∧ wr.opcode = IB_WR_REG_MR_INTEGRITY then
        handleRegMrIntegrity q fill wr nreq c (if q.type = .xrcIni then 2 else 1) s
      else writeWqe q fill wr c (wrSegs q wr) (mlx5IbOpcode wr.opcode) s

/-- The loop of `mlx5_ib_post_send`: the error, `nreq` and the queue. -/
def postLoop : ℕ → List Wr → St → Option Errno × ℕ × St
  | nreq, [], s => (none, nreq, s)
  | nreq, wr :: l, s =>
    match postOne q fill nreq wr s with
    | (some e, s) => (some e, nreq, s)
    | (none, s) => postLoop (nreq + 1) l s

/-- `mlx5_ib_post_send` of a device that works, in a queue with a position and the contents of the
    ring: the error, what is written to the doorbell if it is rung, and the queue. -/
def mlx5IbPostSend (curPost : ℕ) (ring : ℕ → Word) (wrs : List Wr) :
    Option Errno × Option (Option Word) × St :=
  match postLoop q fill 0 wrs ⟨curPost, ring, none, none⟩ with
  | (e, nreq, s) => (e, if nreq = 0 then none else some (s.ctrl.map s.ring), s)

end Post

section Parts
variable {q : Qp} {fill : Wr → ℕ → (ℕ → Word) → ℕ → Word}

/-- A WQE of a request: its size, unless a check of the request fails, and its opcode. -/
structure Part where
  size : Except Errno ℕ
  opcode : ℕ

/-- The WQEs that a request is made of. -/
def parts (q : Qp) (wr : Wr) : List Part :=
  let rest := fun (pi : Mr) (size : ℕ) => [⟨setPiUmrWr q wr pi size, MLX5_OPCODE_UMR⟩,
    ⟨setPsvWr wr.reg.mem 1, MLX5_OPCODE_SET_PSV⟩, ⟨setPsvWr wr.reg.wire 1, MLX5_OPCODE_SET_PSV⟩]
  if (q.type = .rc ∨ q.type = .xrcIni) ∧ wr.opcode = IB_WR_REG_MR_INTEGRITY then
    let size := if q.type = .xrcIni then 2 else 1
    match wr.reg.piMr with
    | some pi => ⟨setRegWr q.caps wr.reg pi false size, MLX5_OPCODE_UMR⟩ :: rest pi 1
    | none => rest wr.reg.mr size
  else [⟨wrSegs q wr, mlx5IbOpcode wr.opcode⟩]

/-- A request passes the checks that are made before `begin_wqe`. -/
def Admitted (q : Qp) (nreq : ℕ) (wr : Wr) : Prop :=
  wr.opcode < MLX5_IB_WR_UMR + 1 ∧ wr.sgs.length ≤ q.maxGs ∧ mlx5rWqOverflow q nreq = false

/-- A WQE is completed at the position of the queue. -/
def lay (q : Qp) (fill : Wr → ℕ → (ℕ → Word) → ℕ → Word) (wr : Wr) (size opcode : ℕ) (s : St) :
    St :=
  mlx5rFinishWqe q (slot q s) size opcode
    { s with ctrl := some (slot q s), ring := fill wr (slot q s) s.ring }

/-- The WQEs of a request one after the other, up to the first one that fails a check. -/
def layParts (q : Qp) (fill : Wr → ℕ → (ℕ → Word) → ℕ → Word) (wr : Wr) :
    List Part → St → Option Errno × St
  | [], s => (none, s)
  | p :: ps, s =>
    match p.size with
    | .error e =>
      (some e, { s with ctrl := some (slot q s), ring := fill wr (slot q s) s.ring })
    | .ok size => layParts q fill wr ps (lay q fill wr size p.opcode s)

theorem parts_ne_nil (q : Qp) (wr : Wr) : parts q wr ≠ [] := by
  unfold parts
  simp only
  split_ifs <;> try exact List.cons_ne_nil _ _
  all_goals cases wr.reg.piMr <;> exact List.cons_ne_nil _ _

theorem begin_of_room {nreq : ℕ} (h : mlx5rWqOverflow q nreq = false) (s : St) :
    mlx5rBeginWqe q nreq s = some (slot q s, { s with ctrl := some (slot q s) }) := by
  rw [mlx5rBeginWqe, h, if_neg Bool.false_ne_true]

/-- The first WQE is begun; what is left is laid once it is finished. -/
theorem write_then (wr : Wr) (size : Except Errno ℕ) (opcode : ℕ) (ps : List Part) (s : St)
    {f : St → Option Errno × St} (hf : ∀ s, f s = layParts q fill wr ps s) :
    andThen (writeWqe q fill wr (slot q s) size opcode { s with ctrl := some (slot q s) }) f =
      layParts q fill wr (⟨size, opcode⟩ :: ps) s := by
  cases size with
  | error e => rfl
  | ok size => exact hf _

theorem write_last (wr : Wr) (size : Except Errno ℕ) (opcode : ℕ) (s : St) :
    writeWqe q fill wr (slot q s) size opcode { s with ctrl := some (slot q s) } =
      layParts q fill wr [⟨size, opcode⟩] s := by
  rw [layParts]
  cases size <;> rfl

theorem handlePsv_eq {wr : Wr} {nreq : ℕ} (h : mlx5rWqOverflow q nreq = false) (ty : SigType)
    (s : St) : handlePsv q fill wr nreq ty s =
      layParts q fill wr [⟨setPsvWr ty 1, MLX5_OPCODE_SET_PSV⟩] s := by
  rw [handlePsv, begin_of_room h, ← write_last]

/-- A request that is not admitted leaves the queue as it is. -/
theorem postOne_of_not_admitted {nreq : ℕ} {wr : Wr} (h : ¬Admitted q nreq wr) (s : St) :
    ∃ e, postOne q fill nreq wr s = (some e, s) := by
  rw [postOne]
  by_cases hop : wr.opcode ≥ MLX5_IB_WR_UMR + 1
  · exact ⟨_, if_pos hop⟩
  rw [if_neg hop]
  by_cases hgs : wr.sgs.length > q.maxGs
  · exact ⟨_, if_pos hgs⟩
  rw [if_neg hgs, mlx5rBeginWqe]
  by_cases hroom : mlx5rWqOverflow q nreq
  · exact ⟨.enomem, by rw [if_pos hroom]⟩
  · exact absurd ⟨Nat.not_le.mp hop, Nat.not_lt.mp hgs, Bool.not_eq_true _ ▸ hroom⟩ h

/-- A request that is admitted is laid WQE by WQE. -/
theorem postOne_of_admitted {nreq : ℕ} {wr : Wr} (h : Admitted q nreq wr) (s : St) :
    postOne q fill nreq wr s = layParts q fill wr (parts q wr) s := by
  obtain ⟨hop, hgs, hroom⟩ := h
  have hrest : ∀ (pi : Mr) (size : ℕ) (s : St),
      andThen (writeWqe q fill wr (slot q s) (setPiUmrWr q wr pi size) MLX5_OPCODE_UMR
        { s with ctrl := some (slot q s) }) (fun s =>
          andThen (handlePsv q fill wr nreq wr.reg.mem s) fun s =>
            handlePsv q fill wr nreq wr.reg.wire s) =
      layParts q fill wr [⟨setPiUmrWr q wr pi size, MLX5_OPCODE_UMR⟩,
        ⟨setPsvWr wr.reg.mem 1, MLX5_OPCODE_SET_PSV⟩,
        ⟨setPsvWr wr.reg.wire 1, MLX5_OPCODE_SET_PSV⟩] s := by
    intro pi size s
    refine write_then wr _ _ _ s fun s => ?_
    rw [handlePsv, begin_of_room hroom]
    exact write_then wr _ _ _ s fun s => handlePsv_eq hroom _ s
  rw [postOne, if_neg (by omega), if_neg (by omega), begin_of_room hroom]
  unfold parts
  simp only
  by_cases hint : (q.type = .rc ∨ q.type = .xrcIni) ∧ wr.opcode = IB_WR_REG_MR_INTEGRITY
  · rw [if_pos hint, if_pos hint, handleRegMrIntegrity]
    cases wr.reg.piMr with
    | none => exact hrest _ _ s
    | some pi =>
      refine write_then wr _ _ _ s fun s => ?_
      rw [begin_of_room hroom]
      exact hrest pi 1 s
  · rw [if_neg hint, if_neg hint]
    exact write_last wr _ _ s

/-- `ctrl` points at the WQE that was finished last, and it has the number of the QP. -/
def Settled (q : Qp) (s : St) : Prop :=
  ∃ c w, s.ctrl = some c ∧ s.last = some w ∧ s.ring c = w ∧ w.2 / 256 = q.qpn % 2 ^ 24

/-- The number of the QP is above the size. -/
theorem ctrlWord_qpn (q : Qp) (curPost size opcode : ℕ) :
    (ctrlWord q curPost size opcode).2 / 256 = q.qpn % 2 ^ 24 := by
  have hlt : toU 8 (size : ℤ) < 2 ^ 8 := by
    unfold toU
    omega
  have hor : toU 8 (size : ℤ) ||| q.qpn <<< 8 = q.qpn * 256 + toU 8 (size : ℤ) := by
    rw [Nat.or_comm, ← Nat.shiftLeft_add_eq_or_of_lt hlt, Nat.shiftLeft_eq]
  change toU 32 ((toU 8 (size : ℤ) ||| q.qpn <<< 8 : ℕ) : ℤ) / 256 = _
  rw [hor]
  unfold toU
  omega

/-- STEP: a WQE that is finished is the one that `ctrl` points at. -/
theorem settled_lay (wr : Wr) (size opcode : ℕ) (s : St) :
    Settled q (lay q fill wr size opcode s) :=
  ⟨slot q s, _, rfl, rfl, Function.update_self _ _ _, ctrlWord_qpn _ _ _ _⟩

/-- STEP: WQEs without an error leave the queue settled, if there are any. -/
theorem settled_layParts {wr : Wr} : ∀ (ps : List Part) {s s' : St}, ps ≠ [] ∨ Settled q s →
    layParts q fill wr ps s = (none, s') → Settled q s'
  | [], s, s', h, hrun => by
    obtain rfl : s = s' := (Prod.mk.inj hrun).2
    exact h.resolve_left fun h => h rfl
  | ⟨.error e, op⟩ :: ps, s, s', h, hrun => by cases hrun
  | ⟨.ok size, op⟩ :: ps, s, s', h, hrun =>
    settled_layParts ps (.inr (settled_lay wr size op s)) hrun

/-- STEP: WQEs with an error are finished up to the one that fails. -/
theorem layParts_error {wr : Wr} {e : Errno} : ∀ (ps : List Part) {s s' : St},
    layParts q fill wr ps s = (some e, s') →
    ∃ done p rest s₁, ps = done ++ p :: rest ∧ layParts q fill wr done s = (none, s₁) ∧
      p.size = .error e ∧
      s' = { s₁ with ctrl := some (slot q s₁), ring := fill wr (slot q s₁) s₁.ring }
  | [], s, s', hrun => by cases hrun
  | ⟨.error e', op⟩ :: ps, s, s', hrun => by
    obtain ⟨he, rfl⟩ := Prod.mk.inj hrun
    obtain rfl := Option.some.inj he
    exact ⟨[], _, ps, s, rfl, rfl, rfl, rfl⟩
  | ⟨.ok size, op⟩ :: ps, s, s', hrun => by
    obtain ⟨done, p, rest, s₁, rfl, hdone, hp, hs⟩ := layParts_error ps hrun
    exact ⟨⟨.ok size, op⟩ :: done, p, rest, s₁, rfl, hdone, hp, hs⟩

theorem layParts_append {wr : Wr} (ps' : List Part) : ∀ (ps : List Part) {s s₁ : St},
    layParts q fill wr ps s = (none, s₁) →
    layParts q fill wr (ps ++ ps') s = layParts q fill wr ps' s₁
  | [], s, s₁, h => by
    obtain rfl : s = s₁ := (Prod.mk.inj h).2
    rfl
  | ⟨.error e, op⟩ :: ps, s, s₁, h => by cases h
  | ⟨.ok size, op⟩ :: ps, s, s₁, h => layParts_append ps' ps h

/-- STEP: a request that is completed leaves the queue settled. -/
theorem settled_postOne {nreq : ℕ} {wr : Wr} {s s' : St}
    (h : postOne q fill nreq wr s = (none, s')) : Settled q s' := by
  by_cases ha : Admitted q nreq wr
  · rw [postOne_of_admitted ha] at h
    exact settled_layParts _ (.inl (parts_ne_nil q wr)) h
  · obtain ⟨e, he⟩ := @postOne_of_not_admitted q fill nreq wr ha s
    rw [he] at h
    cases h

/-- RUN: requests that are all completed leave the queue settled, if there are any. -/
theorem settled_postLoop : ∀ (l : List Wr) {nreq n : ℕ} {s s' : St}, l ≠ [] ∨ Settled q s →
    postLoop q fill nreq l s = (none, n, s') → n = nreq + l.length ∧ Settled q s'
  | [], nreq, n, s, s', h, hrun => by
    obtain ⟨rfl, rfl⟩ := Prod.mk.inj (Prod.mk.inj hrun).2
    exact ⟨rfl, h.resolve_left fun h => h rfl⟩
  | wr :: l, nreq, n, s, s', h, hrun => by
    rw [postLoop] at hrun
    cases hone : postOne q fill nreq wr s with
    | mk e s₁ =>
      rw [hone] at hrun
      cases e with
      | some e => cases hrun
      | none =>
        obtain ⟨rfl, hs⟩ := settled_postLoop l (.inr (settled_postOne hone)) hrun
        exact ⟨by rw [List.length_cons]; omega, hs⟩

/-- RUN: the loop completes all requests, or those before one that fails. -/
theorem postLoop_error {e : Errno} : ∀ (l : List Wr) {nreq n : ℕ} {s s' : St},
    postLoop q fill nreq l s = (some e, n, s') →
    ∃ done wr rest s₁, l = done ++ wr :: rest ∧ n = nreq + done.length ∧
      postLoop q fill nreq done s = (none, n, s₁) ∧ postOne q fill n wr s₁ = (some e, s')
  | [], nreq, n, s, s', h => by cases h
  | wr :: l, nreq, n, s, s', h => by
    rw [postLoop] at h
    cases hone : postOne q fill nreq wr s with
    | mk e' s₁ =>
      rw [hone] at h
      cases e' with
      | some e' =>
        obtain ⟨he, hn⟩ := Prod.mk.inj h
        obtain ⟨rfl, rfl⟩ := Prod.mk.inj hn
        obtain rfl := Option.some.inj he
        exact ⟨[], wr, l, s, rfl, rfl, rfl, hone⟩
      | none =>
        obtain ⟨done, wr', rest, s₂, rfl, rfl, hdone, hlast⟩ := postLoop_error l h
        refine ⟨wr :: done, wr', rest, s₂, rfl, by rw [List.length_cons]; omega, ?_, hlast⟩
        rw [postLoop, hone]
        exact hdone

theorem postLoop_append (l' : List Wr) : ∀ (l : List Wr) {nreq n : ℕ} {s s₁ : St},
    postLoop q fill nreq l s = (none, n, s₁) →
    postLoop q fill nreq (l ++ l') s = postLoop q fill n l' s₁
  | [], nreq, n, s, s₁, h => by
    obtain ⟨rfl, rfl⟩ := Prod.mk.inj (Prod.mk.inj h).2
    rfl
  | wr :: l, nreq, n, s, s₁, h => by
    rw [postLoop] at h
    rw [List.cons_append, postLoop]
    cases hone : postOne q fill nreq wr s with
    | mk e s₂ =>
      rw [hone] at h
      cases e with
      | some e => cases h
      | none => exact postLoop_append l' l h

/-- What the doorbell is meant to carry: if it is rung, the first 8 bytes of the WQE that was
    finished last, with the number of this QP. -/
def RingsLast (q : Qp) (fill : Wr → ℕ → (ℕ → Word) → ℕ → Word) (curPost : ℕ) (ring : ℕ → Word)
    (wrs : List Wr) : Prop :=
  ∀ e db s, mlx5IbPostSend q fill curPost ring wrs = (e, some db, s) →
    ∃ w, db = some w ∧ s.last = some w ∧ w.2 / 256 = q.qpn % 2 ^ 24

/-- In state `s`, after other requests were completed and `done` of this one, a WQE of the request
    `wr` fails a check that is made after `begin_wqe`. -/
def CutOff (q : Qp) (fill : Wr → ℕ → (ℕ → Word) → ℕ → Word) (curPost : ℕ)
    (ring : ℕ → Word) (wrs : List Wr) (wr : Wr) (s : St) : Prop :=
  ∃ before after s₀, wrs = before ++ wr :: after ∧ before ≠ [] ∧
    postLoop q fill 0 before ⟨curPost, ring, none, none⟩ = (none, before.length, s₀) ∧
    Admitted q before.length wr ∧
    ∃ done p rest e, parts q wr = done ++ p :: rest ∧ layParts q fill wr done s₀ = (none, s) ∧
      p.size = .error e

/-- CORRECT: the doorbell carries the WQE that was finished last exactly when no request but the
    first is cut off in a WQE that was begun, or the stride where that WQE begins happens to hold
    the same 8 bytes. -/
theorem doorbell_contents_iff (curPost : ℕ) (ring : ℕ → Word) (wrs : List Wr) :
    RingsLast q fill curPost ring wrs ↔ ∀ wr s, CutOff q fill curPost ring wrs wr s →
      s.last = some (fill wr (slot q s) s.ring (slot q s)) := by
  constructor
  · rintro h wr s ⟨before, after, s₀, rfl, hne, hbefore, ha, done, p, rest, e, hparts, hdone, hp⟩
    have hpart : layParts q fill wr (p :: rest) s =
        (some e, { s with ctrl := some (slot q s), ring := fill wr (slot q s) s.ring }) := by
      rw [layParts, hp]
    have hone : postOne q fill before.length wr s₀ =
        (some e, { s with ctrl := some (slot q s), ring := fill wr (slot q s) s.ring }) := by
      rw [postOne_of_admitted ha, hparts, layParts_append _ _ hdone, hpart]
    have hrun : mlx5IbPostSend q fill curPost ring (before ++ wr :: after) =
        (some e, some (some (fill wr (slot q s) s.ring (slot q s))),
          { s with ctrl := some (slot q s), ring := fill wr (slot q s) s.ring }) := by
      rw [mlx5IbPostSend, postLoop_append _ _ hbefore, postLoop, hone]
      simp only [List.length_eq_zero_iff, if_neg hne, Option.map_some]
    obtain ⟨w, hw, hlast, -⟩ := h _ _ _ hrun
    rw [← Option.some.inj hw] at hlast
    exact hlast
  · intro h e db s hrun
    rw [mlx5IbPostSend] at hrun
    cases hloop : postLoop q fill 0 wrs ⟨curPost, ring, none, none⟩ with
    | mk e' r =>
      obtain ⟨n, s'⟩ := r
      rw [hloop] at hrun
      obtain ⟨rfl, hrest⟩ := Prod.mk.inj hrun
      obtain ⟨hdb, rfl⟩ := Prod.mk.inj hrest
      have hn : n ≠ 0 := by
        rintro rfl
        cases hdb
      rw [if_neg hn] at hdb
      obtain rfl := Option.some.inj hdb
      have hsettled : Settled q s' → ∃ w, s'.ctrl.map s'.ring = some w ∧ s'.last = some w ∧
          w.2 / 256 = q.qpn % 2 ^ 24 := by
        rintro ⟨c, w, hc, hl, hr, hq⟩
        exact ⟨w, by rw [hc, Option.map_some, hr], hl, hq⟩
      cases e' with
      | none =>
        refine hsettled (settled_postLoop wrs (.inl ?_) hloop).2
        rintro rfl
        exact hn (Prod.mk.inj (Prod.mk.inj hloop).2).1.symm
      | some e =>
        obtain ⟨before, wr, after, s₀, rfl, rfl, hbefore, hone⟩ := postLoop_error wrs hloop
        rw [Nat.zero_add] at hbefore hone hn
        have hne : before ≠ [] := fun he => hn (by rw [he]; rfl)
        have hs₀ := (settled_postLoop before (.inl hne) hbefore).2
        by_cases ha : Admitted q before.length wr
        · rw [postOne_of_admitted ha] at hone
          obtain ⟨done, p, rest, s₁, hparts, hdone, hp, rfl⟩ := layParts_error _ hone
          have hl := h wr s₁ ⟨before, after, s₀, rfl, hne, hbefore, ha, done, p, rest, e, hparts,
            hdone, hp⟩
          obtain ⟨c, w, -, hw, -, hq⟩ := settled_layParts done (.inr hs₀) hdone
          obtain rfl := Option.some.inj (hw.symm.trans hl)
          exact ⟨_, rfl, hw, hq⟩
        · obtain ⟨e', he'⟩ := @postOne_of_not_admitted q fill before.length wr ha s₀
          obtain rfl : s₀ = s' := (Prod.mk.inj (he'.symm.trans hone)).2
          exact hsettled hs₀

end Parts

section Broken

/-- A QP of type RC with room for 64 requests. -/
def rcQp : Qp :=
  ⟨.rc, 0, 0, 64, 64, 4, 0, 0x48, false, false, false, false,
    ⟨false, false, false, false, false, false, false⟩⟩

/-- A request without data. -/
def bare (opcode : ℕ) : Wr :=
  ⟨opcode, [], false, false, 0, ⟨⟨0, 0, 0, 0, 0, 0, 0⟩, none, none, .none, .none, false, false⟩⟩

/-- BROKEN: a write and an atomic operation; the doorbell carries what was at the second stride. -/
theorem doorbell_contents_broken :
    ¬RingsLast rcQp (fun _ _ ring => ring) 0 (fun _ => (0, 0))
      [bare IB_WR_RDMA_WRITE, bare IB_WR_ATOMIC_CMP_AND_SWP] := by
  intro h
  obtain ⟨w, hdb, hlast, -⟩ := h (some .eopnotsupp) (some (0, 0)) _ rfl
  obtain rfl := Option.some.inj hdb
  revert hlast
  decide

end Broken

end RdmaDriver.Doorbell
