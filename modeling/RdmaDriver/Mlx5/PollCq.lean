import RdmaDriver.Mlx5.CqRing
import RdmaDriver.Mlx5.Srq
import RdmaDriver.Mlx5.Wq

/-! @src drivers/infiniband/hw/mlx5/cq.c | name:Polling a completion queue | scheme:ring

    `mlx5_ib_poll_cq` hands out software-generated completions first and then one completion per
    hardware CQE; CQEs that report a signature error or the end of a resized ring are consumed on
    the way (`goto repoll`). On a device in internal error it makes up flush completions instead.
    `mlx5_ib_poll_cq_with_cqe` is a second copy of the whole machine that also tells its caller, in
    `*cqe`, which slot it read. Both copies are written out here and compared.

        next_cqe_sw --> none: EAGAIN
             | slot
             v
        RESIZE_CQ, new ring waiting --> switch ring, repoll
        SIG_ERR                     --> note error in the sig context, repoll
        REQ / RESP / errors         --> fill wc, 0 -/

namespace RdmaDriver.Mlx5Poll
open Mlx5Cq Mlx5Wq Function
open Mlx5Srq (Srq freeSrqWqe)

/-- `enum ib_wc_status`. -/
inductive WcStatus where
  | SUCCESS | LOC_LEN_ERR | LOC_QP_OP_ERR | LOC_EEC_OP_ERR | LOC_PROT_ERR | WR_FLUSH_ERR
  | MW_BIND_ERR | BAD_RESP_ERR | LOC_ACCESS_ERR | REM_INV_REQ_ERR | REM_ACCESS_ERR | REM_OP_ERR
  | RETRY_EXC_ERR | RNR_RETRY_EXC_ERR | LOC_RDD_VIOL_ERR | REM_INV_RD_REQ_ERR | REM_ABORT_ERR
  | INV_EECN_ERR | INV_EEC_STATE_ERR | FATAL_ERR | RESP_TIMEOUT_ERR | GENERAL_ERR
  | SIG_PIPELINE_CANCELED
  deriving DecidableEq

/-- `enum ib_wc_opcode`. -/
inductive WcOpcode where
  | SEND | RDMA_WRITE | RDMA_READ | COMP_SWAP | FETCH_ADD | BIND_MW | LOCAL_INV | LSO
  | ATOMIC_WRITE | REG_MR | MASKED_COMP_SWAP | MASKED_FETCH_ADD | FLUSH | RECV | RECV_RDMA_WITH_IMM
  deriving DecidableEq

/-- `enum ib_wc_flags`. -/
def WC_GRH : ℕ := 1
def WC_WITH_IMM : ℕ := 2
def WC_WITH_INVALIDATE : ℕ := 4
def WC_IP_CSUM_OK : ℕ := 8
def WC_WITH_VLAN : ℕ := 32
def WC_WITH_NETWORK_HDR_TYPE : ℕ := 64

/-- `enum rdma_network_type`. -/
inductive NetworkType where | IB | ROCE_V1 | IPV4 | IPV6
  deriving DecidableEq

/-- `struct ib_wc`; `qp` is a QP handle, `ex` the union of `imm_data` and `invalidate_rkey`. -/
structure Wc where
  wrId : ℕ
  status : WcStatus
  opcode : WcOpcode
  vendorErr : ℕ
  byteLen : ℕ
  qp : Option ℕ
  ex : ℕ
  srcQp : ℕ
  slid : ℕ
  wcFlags : ℕ
  pkeyIndex : ℕ
  sl : ℕ
  dlidPathBits : ℕ
  vlanId : ℕ
  networkHdrType : NetworkType
  deriving DecidableEq

/-- The parts of `struct mlx5_ib_qp` that polling touches. -/
structure Qp where
  qpNum : ℕ
  type : QpType
  srq : Option ℕ
  xrcd : Bool
  port : ℕ
  sq : Wq
  rq : Wq

/-- `enum ib_sig_err_type`. -/
inductive SigErrType where | BAD_GUARD | BAD_REFTAG | BAD_APPTAG
  deriving DecidableEq

/-- `struct ib_sig_err`. -/
structure SigErr where
  errType : SigErrType
  expected : ℕ
  actual : ℕ
  sigErrOffset : ℕ
  key : ℕ
  deriving DecidableEq

/-- The error part of `struct mlx5_core_sig_ctx`. -/
structure SigCtx where
  errItem : SigErr
  sigErrExists : Bool
  sigerrCount : ℕ
  deriving DecidableEq

/-- `MLX5_UMR_STATE_*`. -/
inductive UmrState where | UNINIT | ACTIVE | RECOVER | ERR
  deriving DecidableEq

/-- `struct mlx5_ib_wc`, a software-generated completion. -/
structure SoftWc where
  wc : Wc
  inUse : Bool

/-- Everything a poll reads or writes besides the caller's array: the CQ, the QPs, SRQs and
    signature contexts behind their lookup tables (objects are named by handles), and the device
    state. `pkey_cache port` is missing where the port has no P_Key cache. -/
structure State where
  ring : Ring
  wcList : List ℕ
  softWcs : ℕ → SoftWc
  qpTable : ℕ → Option ℕ
  qps : ℕ → Qp
  srqTable : ℕ → Option ℕ
  srqs : ℕ → Srq
  sigMrs : ℕ → Option SigCtx
  umrcState : UmrState
  listSendQp : List ℕ
  listRecvQp : List ℕ
  internalError : Bool
  ethernet : Bool
  pkeyCache : ℕ → Option (List ℕ)

/-- Replace the QP behind handle `h`. -/
def State.setQp (s : State) (h : ℕ) (qp : Qp) : State := { s with qps := update s.qps h qp }

/-- Replace the SRQ behind handle `h`. -/
def State.setSrq (s : State) (h : ℕ) (srq : Srq) : State :=
  { s with srqs := update s.srqs h srq }

/-- Why a poll does not return: a lookup gave NULL and was followed, the walk of `handle_atomics`
    never meets its target, or the bound on `goto repoll` was too small. -/
inductive Fault where | nullPointer | atomicsLoop | repollBound
  deriving DecidableEq

/-- `get_umr_comp`; the constant `0` is `IB_WC_SEND`. -/
def getUmrComp (wq : Wq) (idx : ℕ) : WcOpcode :=
  if wq.wrData idx = WR_UMR then .SEND
  else if wq.wrData idx = WR_LOCAL_INV then .LOCAL_INV
  else if wq.wrData idx = WR_REG_MR then .REG_MR
  else .SEND

/-- `handle_good_req`; the cases are the values of `MLX5_OPCODE_*`. -/
def handleGoodReq (wc : Wc) (cqe : Cqe) (wq : Wq) (idx : ℕ) : Wc :=
  let wc := { wc with wcFlags := 0 }
  match cqe.sopDropQpn / 2 ^ 24 with
  | 0x09 => { wc with wcFlags := WC_WITH_IMM, opcode := .RDMA_WRITE }
  | 0x08 => { wc with opcode := .RDMA_WRITE }
  | 0x0b => { wc with wcFlags := WC_WITH_IMM, opcode := .SEND }
  | 0x00 => { wc with opcode := .SEND }
  | 0x0a => { wc with opcode := .SEND }
  | 0x01 => { wc with opcode := .SEND }
  | 0x10 => { wc with opcode := .RDMA_READ, byteLen := cqe.byteCnt }
  | 0x11 => { wc with opcode := .COMP_SWAP, byteLen := 8 }
  | 0x12 => { wc with opcode := .FETCH_ADD, byteLen := 8 }
  | 0x14 => { wc with opcode := .MASKED_COMP_SWAP, byteLen := 8 }
  | 0x15 => { wc with opcode := .MASKED_FETCH_ADD, byteLen := 8 }
  | 0x25 => { wc with opcode := getUmrComp wq idx }
  | _ => wc

/-- The scan of `ib_find_cached_pkey` from index `i` on: the first full member, else the last
    partial one. -/
def findPkey (pkey : ℕ) : List ℕ → ℕ → Option ℕ → Option ℕ
  | [], _, partialIx => partialIx
  | e :: table, i, partialIx =>
    if e % 2 ^ 15 = pkey % 2 ^ 15 then
      if e.testBit 15 then some i else findPkey pkey table (i + 1) (some i)
    else findPkey pkey table (i + 1) partialIx

/-- `ib_find_cached_pkey`: the value left in `*index`, which held `index` before. -/
def ibFindCachedPkey (s : State) (port pkey index : ℕ) : ℕ :=
  match s.pkeyCache port with
  | none => index
  | some table => (findPkey pkey table 0 none).getD (2 ^ 16 - 1)

/-- The receive queue part of `handle_responder`: the completed WR and what is freed with it. -/
def completeRecv (s : State) (h : ℕ) (cqe : Cqe) (wc : Wc) : State × Wc :=
  let qp := s.qps h
  if qp.srq.isSome || qp.xrcd then
    match (if qp.xrcd then s.srqTable cqe.srqn else qp.srq) with
    | none => (s, wc)
    | some q =>
      (s.setSrq q (freeSrqWqe (s.srqs q) cqe.wqeCounter),
        { wc with wrId := (s.srqs q).wrid cqe.wqeCounter })
  else
    (s.setQp h { qp with rq := { qp.rq with tail := (qp.rq.tail + 1) % 2 ^ 32 } },
      { wc with wrId := qp.rq.wrid (qp.rq.tail &&& qp.rq.mask) })

/-- The opcode-dependent fields of a responder completion. -/
def responderOpcode (cqe : Cqe) (wc : Wc) : Wc :=
  if cqe.opcode = RESP_WR_IMM then
    { wc with opcode := .RECV_RDMA_WITH_IMM, wcFlags := WC_WITH_IMM, ex := cqe.immediate }
  else if cqe.opcode = RESP_SEND then
    { wc with
      opcode := .RECV
      wcFlags := if cqe.hdsIpExt.testBit 1 && cqe.hdsIpExt.testBit 2 then WC_IP_CSUM_OK
        else 0 }
  else if cqe.opcode = RESP_SEND_IMM then
    { wc with opcode := .RECV, wcFlags := WC_WITH_IMM, ex := cqe.immediate }
  else if cqe.opcode = RESP_SEND_INV then
    { wc with opcode := .RECV, wcFlags := WC_WITH_INVALIDATE, ex := cqe.immediate }
  else wc

/-- The Ethernet fields at the end of `handle_responder`. -/
def responderEth (cqe : Cqe) (wc : Wc) : Wc :=
  let wc := { wc with slid := 0 }
  let wc :=
    if cqe.l4L3HdrType.testBit 0 then
      { wc with
        vlanId := cqe.vlanInfo % 2 ^ 12, sl := cqe.vlanInfo / 2 ^ 13 % 2 ^ 3
        wcFlags := wc.wcFlags ||| WC_WITH_VLAN }
    else { wc with sl := 0 }
  let wc :=
    match cqe.flagsRqpn / 2 ^ 24 % 4 with
    | 0 => { wc with networkHdrType := .ROCE_V1 }
    | 1 => { wc with networkHdrType := .IPV6 }
    | 2 => { wc with networkHdrType := .IPV4 }
    | _ => wc
  { wc with wcFlags := wc.wcFlags ||| WC_WITH_NETWORK_HDR_TYPE }

/-- `handle_responder`. -/
def handleResponder (s : State) (h : ℕ) (cqe : Cqe) (wc : Wc) : State × Wc :=
  let qp := s.qps h
  let (s, wc) := completeRecv s h cqe wc
  let wc := responderOpcode cqe { wc with byteLen := cqe.byteCnt }
  let g := cqe.flagsRqpn / 2 ^ 28 % 4
  let wc := { wc with
    srcQp := cqe.flagsRqpn % 2 ^ 24, dlidPathBits := cqe.mlPath
    wcFlags := wc.wcFlags ||| (if g = 0 then 0 else WC_GRH)
    pkeyIndex :=
      if isQp1 qp.type then ibFindCachedPkey s qp.port (cqe.immediate % 2 ^ 16) wc.pkeyIndex
      else 0 }
  if s.ethernet then (s, responderEth cqe wc)
  else (s, { wc with slid := cqe.slid, sl := cqe.flagsRqpn / 2 ^ 24 % 2 ^ 4 })

/-- The status that `mlx5_handle_error_cqe` reports for a syndrome (`MLX5_CQE_SYNDROME_*`). -/
def syndromeStatus : ℕ → WcStatus
  | 0x01 => .LOC_LEN_ERR
  | 0x02 => .LOC_QP_OP_ERR
  | 0x04 => .LOC_PROT_ERR
  | 0x05 => .WR_FLUSH_ERR
  | 0x06 => .MW_BIND_ERR
  | 0x10 => .BAD_RESP_ERR
  | 0x11 => .LOC_ACCESS_ERR
  | 0x12 => .REM_INV_REQ_ERR
  | 0x13 => .REM_ACCESS_ERR
  | 0x14 => .REM_OP_ERR
  | 0x15 => .RETRY_EXC_ERR
  | 0x16 => .RNR_RETRY_EXC_ERR
  | 0x22 => .REM_ABORT_ERR
  | _ => .GENERAL_ERR

/-- `mlx5_handle_error_cqe`. -/
def handleErrorCqe (cqe : Cqe) (wc : Wc) : Wc :=
  { wc with status := syndromeStatus cqe.syndrome, vendorErr := cqe.vendorErrSynd }

/-- `get_sig_err_item`. -/
def getSigErrItem (cqe : Cqe) (item : SigErr) : SigErr :=
  let item :=
    if cqe.sigSyndrome.testBit 13 then
      { item with
        errType := .BAD_GUARD, expected := cqe.expectedTransSig / 2 ^ 16
        actual := cqe.actualTransSig / 2 ^ 16 }
    else if cqe.sigSyndrome.testBit 11 then
      { item with
        errType := .BAD_REFTAG, expected := cqe.expectedReftag, actual := cqe.actualReftag }
    else if cqe.sigSyndrome.testBit 12 then
      { item with
        errType := .BAD_APPTAG, expected := cqe.expectedTransSig % 2 ^ 16
        actual := cqe.actualTransSig % 2 ^ 16 }
    else item
  { item with sigErrOffset := cqe.errOffset, key := cqe.mkey }

/-- `mlx5_base_mkey`. -/
def baseMkey (key : ℕ) : ℕ := key / 2 ^ 8 * 2 ^ 8

/-- A slot of a CQ ring: the buffer it lies in and its index there. -/
structure Slot where
  buf : ℕ
  index : ℕ
  deriving DecidableEq

/-- What `mlx5_poll_one` leaves: its return value, the state, the QP of the last CQE, `*wc`, and its
    local `cqe`, the slot from which `*wc` was filled. -/
structure PollOne where
  ret : Option Errno
  s : State
  curQp : Option ℕ
  wc : Wc
  cqe : Option Slot

/-- `mlx5_poll_one` from label `repoll` on. -/
def repoll : ℕ → State → Option ℕ → Wc → Except Fault PollOne
  | 0, _, _, _ => .error .repollBound
  | fuel + 1, s, curQp, wc =>
    match getSwCqe s.ring s.ring.consIndex with
    | none => .ok ⟨some .eagain, s, curQp, wc, none⟩
    | some n =>
      let cqe : Slot := ⟨s.ring.buf.id, n⟩
      let cqe64 := s.ring.buf.mem n
      let s := { s with ring := { s.ring with consIndex := (s.ring.consIndex + 1) % 2 ^ 32 } }
      let opcode := cqe64.opcode
      match (if opcode = RESIZE_CQ then s.ring.resizeBuf else none) with
      | some buf =>
        let s := { s with ring := { s.ring with buf := buf, resizeBuf := none } }
        repoll fuel s curQp wc
      | none =>
        let qpn := cqe64.sopDropQpn % 2 ^ 24
        let found := match curQp with
          | some h => if qpn = (s.qps h).qpNum then some h else s.qpTable qpn
          | none => s.qpTable qpn
        match found with
        | none => .error .nullPointer
        | some h =>
          let qp := s.qps h
          let wc := { wc with qp := some h }
          if opcode = REQ then
            let idx := cqe64.wqeCounter &&& qp.sq.mask
            let wc := handleGoodReq wc cqe64 qp.sq idx
            match handleAtomics qp.sq idx with
            | none => .error .atomicsLoop
            | some sq =>
              let wc := { wc with
                wrId := sq.wrid idx
                status := if sq.wrData idx = WR_SIG_CANCELED then .SIG_PIPELINE_CANCELED
                  else .SUCCESS }
              let sq := { sq with tail := (sq.wqeHead idx + 1) % 2 ^ 32 }
              .ok ⟨none, s.setQp h { qp with sq := sq }, some h, wc, some cqe⟩
          else if opcode = RESP_WR_IMM ∨ opcode = RESP_SEND ∨ opcode = RESP_SEND_IMM ∨
              opcode = RESP_SEND_INV then
            let (s, wc) := handleResponder s h cqe64 wc
            .ok ⟨none, s, some h, { wc with status := .SUCCESS }, some cqe⟩
          else if opcode = RESIZE_CQ then .ok ⟨none, s, some h, wc, some cqe⟩
          else if opcode = REQ_ERR ∨ opcode = RESP_ERR then
            let wc := handleErrorCqe cqe64 wc
            let s := if wc.status ≠ .WR_FLUSH_ERR ∧ qp.type = .REG_UMR then
                { s with umrcState := .RECOVER }
              else s
            if opcode = REQ_ERR then
              let idx := cqe64.wqeCounter &&& qp.sq.mask
              let wc := { wc with wrId := qp.sq.wrid idx }
              let sq := { qp.sq with tail := (qp.sq.wqeHead idx + 1) % 2 ^ 32 }
              .ok ⟨none, s.setQp h { qp with sq := sq }, some h, wc, some cqe⟩
            else match qp.srq with
              | some q =>
                let wc := { wc with wrId := (s.srqs q).wrid cqe64.wqeCounter }
                .ok ⟨none, s.setSrq q (freeSrqWqe (s.srqs q) cqe64.wqeCounter), some h, wc,
                  some cqe⟩
              | none =>
                let wc := { wc with wrId := qp.rq.wrid (qp.rq.tail &&& qp.rq.mask) }
                let rq := { qp.rq with tail := (qp.rq.tail + 1) % 2 ^ 32 }
                .ok ⟨none, s.setQp h { qp with rq := rq }, some h, wc, some cqe⟩
          else if opcode = SIG_ERR then
            let key := baseMkey cqe64.mkey
            match s.sigMrs key with
            | none => .error .nullPointer
            | some sig =>
              let sig := {
                errItem := getSigErrItem cqe64 sig.errItem, sigErrExists := true
                sigerrCount := (sig.sigerrCount + 1) % 2 ^ 32 }
              repoll fuel { s with sigMrs := update s.sigMrs key (some sig) } (some h) wc
          else .ok ⟨none, s, some h, wc, some cqe⟩

/-- The bound on `goto repoll`: a lap of the ring, and one of the ring that replaces it. -/
def repollFuel (r : Ring) : ℕ := 2 * (r.cqe + 1) + 2

/-- `mlx5_poll_one`. -/
def mlx5PollOne (s : State) (curQp : Option ℕ) (wc : Wc) : Except Fault PollOne :=
  repoll (repollFuel s.ring) s curQp wc

/-- `mlx5_poll_one_with_cqe` from label `repoll` on. Its `cqe` is the caller's pointer, written at
    every attempt. -/
def repollWithCqe : ℕ → State → Option ℕ → Wc → Option Slot → Except Fault PollOne
  | 0, _, _, _, _ => .error .repollBound
  | fuel + 1, s, curQp, wc, _ =>
    let cqe : Option Slot :=
      (getSwCqe s.ring s.ring.consIndex).map fun n => ⟨s.ring.buf.id, n⟩
    match cqe with
    | none => .ok ⟨some .eagain, s, curQp, wc, cqe⟩
    | some slot =>
      let cqe64 := s.ring.buf.mem slot.index
      let s := { s with ring := { s.ring with consIndex := (s.ring.consIndex + 1) % 2 ^ 32 } }
      let opcode := cqe64.opcode
      match (if opcode = RESIZE_CQ then s.ring.resizeBuf else none) with
      | some buf =>
        let s := { s with ring := { s.ring with buf := buf, resizeBuf := none } }
        repollWithCqe fuel s curQp wc cqe
      | none =>
        let qpn := cqe64.sopDropQpn % 2 ^ 24
        let found := match curQp with
          | some h => if qpn = (s.qps h).qpNum then some h else s.qpTable qpn
          | none => s.qpTable qpn
        match found with
        | none => .error .nullPointer
        | some h =>
          let qp := s.qps h
          let wc := { wc with qp := some h }
          if opcode = REQ then
            let idx := cqe64.wqeCounter &&& qp.sq.mask
            let wc := handleGoodReq wc cqe64 qp.sq idx
            match handleAtomics qp.sq idx with
            | none => .error .atomicsLoop
            | some sq =>
              let wc := { wc with
                wrId := sq.wrid idx
                status := if sq.wrData idx = WR_SIG_CANCELED then .SIG_PIPELINE_CANCELED
                  else .SUCCESS }
              let sq := { sq with tail := (sq.wqeHead idx + 1) % 2 ^ 32 }
              .ok ⟨none, s.setQp h { qp with sq := sq }, some h, wc, cqe⟩
          else if opcode = RESP_WR_IMM ∨ opcode = RESP_SEND ∨ opcode = RESP_SEND_IMM ∨
              opcode = RESP_SEND_INV then
            let (s, wc) := handleResponder s h cqe64 wc
            .ok ⟨none, s, some h, { wc with status := .SUCCESS }, cqe⟩
          else if opcode = RESIZE_CQ then .ok ⟨none, s, some h, wc, cqe⟩
          else if opcode = REQ_ERR ∨ opcode = RESP_ERR then
            let wc := handleErrorCqe cqe64 wc
            let s := if wc.status ≠ .WR_FLUSH_ERR ∧ qp.type = .REG_UMR then
                { s with umrcState := .RECOVER }
              else s
            if opcode = REQ_ERR then
              let idx := cqe64.wqeCounter &&& qp.sq.mask
              let wc := { wc with wrId := qp.sq.wrid idx }
              let sq := { qp.sq with tail := (qp.sq.wqeHead idx + 1) % 2 ^ 32 }
              .ok ⟨none, s.setQp h { qp with sq := sq }, some h, wc, cqe⟩
            else match qp.srq with
              | some q =>
                let wc := { wc with wrId := (s.srqs q).wrid cqe64.wqeCounter }
                .ok ⟨none, s.setSrq q (freeSrqWqe (s.srqs q) cqe64.wqeCounter), some h, wc, cqe⟩
              | none =>
                let wc := { wc with wrId := qp.rq.wrid (qp.rq.tail &&& qp.rq.mask) }
                let rq := { qp.rq with tail := (qp.rq.tail + 1) % 2 ^ 32 }
                .ok ⟨none, s.setQp h { qp with rq := rq }, some h, wc, cqe⟩
          else if opcode = SIG_ERR then
            let key := baseMkey cqe64.mkey
            match s.sigMrs key with
            | none => .error .nullPointer
            | some sig =>
              let sig := {
                errItem := getSigErrItem cqe64 sig.errItem, sigErrExists := true
                sigerrCount := (sig.sigerrCount + 1) % 2 ^ 32 }
              repollWithCqe fuel { s with sigMrs := update s.sigMrs key (some sig) }
                (some h) wc cqe
          else .ok ⟨none, s, some h, wc, cqe⟩

/-- `mlx5_poll_one_with_cqe`. -/
def mlx5PollOneWithCqe (s : State) (curQp : Option ℕ) (wc : Wc) (cqe : Option Slot) :
    Except Fault PollOne :=
  repollWithCqe (repollFuel s.ring) s curQp wc cqe

/-- The loop of `sw_comp` over `n` work requests, writing from `wc[p]` on. -/
def swCompLoop (h : ℕ) (isSend : Bool) : ℕ → Wq → (ℕ → Wc) → ℕ → Wq × (ℕ → Wc)
  | 0, wq, wc, _ => (wq, wc)
  | n + 1, wq, wc, p =>
    let idx := (if isSend then wq.lastPoll else wq.tail) &&& wq.mask
    let e := { wc p with
      wrId := wq.wrid idx, status := .WR_FLUSH_ERR, vendorErr := 0x05, qp := some h }
    let wq := { wq with
      tail := (wq.tail + 1) % 2 ^ 32
      lastPoll := if isSend then (wq.wList idx).next else wq.lastPoll }
    swCompLoop h isSend n wq (update wc p e) (p + 1)

/-- `sw_comp`: flush completions for the outstanding WRs of one queue, as many as still fit. -/
def swComp (s : State) (h : ℕ) (numEntries : ℤ) (wc : ℕ → Wc) (p npolled : ℕ) (isSend : Bool) :
    State × (ℕ → Wc) × ℕ :=
  let qp := s.qps h
  let wq := if isSend then qp.sq else qp.rq
  let cur := toU 32 ((wq.head : ℤ) - wq.tail)
  let n := Nat.min cur (numEntries - npolled).toNat
  let (wq, wc) := swCompLoop h isSend n wq wc p
  (s.setQp h (if isSend then { qp with sq := wq } else { qp with rq := wq }), wc, npolled + n)

/-- One of the two list walks of `mlx5_ib_poll_sw_comp`; `true` when it returned from the middle. -/
def pollSwCompList (numEntries : ℤ) (base : ℕ) (isSend : Bool) :
    List ℕ → State → (ℕ → Wc) → ℕ → Bool × State × (ℕ → Wc) × ℕ
  | [], s, wc, npolled => (false, s, wc, npolled)
  | h :: qps, s, wc, npolled =>
    let (s, wc, npolled) := swComp s h numEntries wc (base + npolled) npolled isSend
    if npolled ≥ numEntries then (true, s, wc, npolled)
    else pollSwCompList numEntries base isSend qps s wc npolled

/-- `mlx5_ib_poll_sw_comp`, writing from `wc[base]` on. -/
def mlx5IbPollSwComp (s : State) (numEntries : ℤ) (wc : ℕ → Wc) (base : ℕ) :
    State × (ℕ → Wc) × ℕ :=
  let (full, s, wc, npolled) := pollSwCompList numEntries base true s.listSendQp s wc 0
  if full then (s, wc, npolled)
  else
    let (_, s, wc, npolled) := pollSwCompList numEntries base false s.listRecvQp s wc npolled
    (s, wc, npolled)

/-- The walk of `poll_soft_wc` over `wc_list`. -/
def pollSoftWcLoop (numEntries : ℤ) (isFatalErr : Bool) :
    List ℕ → State → (ℕ → Wc) → ℕ → State × (ℕ → Wc) × ℕ
  | [], s, wc, npolled => (s, wc, npolled)
  | e :: l, s, wc, npolled =>
    if npolled ≥ numEntries then (s, wc, npolled)
    else
      let soft := s.softWcs e
      let soft := if isFatalErr then
          { soft with wc := { soft.wc with status := .WR_FLUSH_ERR, vendorErr := 0x05 } }
        else soft
      let wc := update wc npolled soft.wc
      let s := { s with
        wcList := l, softWcs := update s.softWcs e { soft with inUse := false } }
      pollSoftWcLoop numEntries isFatalErr l s wc (npolled + 1)

/-- `poll_soft_wc`. -/
def pollSoftWc (s : State) (numEntries : ℤ) (wc : ℕ → Wc) (isFatalErr : Bool) :
    State × (ℕ → Wc) × ℕ :=
  pollSoftWcLoop numEntries isFatalErr s.wcList s wc 0

/-- `mlx5_cq_set_ci`. -/
def cqSetCi (s : State) : State :=
  { s with ring := { s.ring with ciDb := s.ring.consIndex % 2 ^ 24 } }

/-- What a poll call leaves: the returned count, the state and the caller's array. -/
structure PollCq where
  ret : ℕ
  s : State
  wc : ℕ → Wc

/-- The hardware loop of `mlx5_ib_poll_cq`, `n` turns at most, writing from `wc[base + npolled]`.
    `last` is the slot of the last completion; nothing reads it. -/
def pollLoop (base : ℕ) : ℕ → State → Option ℕ → (ℕ → Wc) → ℕ → Option Slot →
    Except Fault (PollCq × Option Slot)
  | 0, s, _, wc, npolled, last => .ok (⟨npolled, s, wc⟩, last)
  | n + 1, s, curQp, wc, npolled, last =>
    match mlx5PollOne s curQp (wc (base + npolled)) with
    | .error f => .error f
    | .ok p =>
      let wc := update wc (base + npolled) p.wc
      match p.ret with
      | some _ => .ok (⟨npolled, p.s, wc⟩, last)
      | none => pollLoop base n p.s p.curQp wc (npolled + 1) p.cqe

/-- `mlx5_ib_poll_cq`, with the slot of the last hardware completion. -/
def mlx5IbPollCq (s : State) (numEntries : ℤ) (wc : ℕ → Wc) :
    Except Fault (PollCq × Option Slot) :=
  if s.internalError then
    let (s, wc, softPolled) := pollSoftWc s numEntries wc true
    let (s, wc, npolled) := mlx5IbPollSwComp s (numEntries - softPolled) wc softPolled
    .ok (⟨softPolled + npolled, s, wc⟩, none)
  else
    let (s, wc, softPolled) := pollSoftWc s numEntries wc false
    match pollLoop softPolled (numEntries - softPolled).toNat s none wc 0 none with
    | .error f => .error f
    | .ok (r, last) =>
      .ok (⟨softPolled + r.ret, if r.ret = 0 then r.s else cqSetCi r.s, r.wc⟩, last)

/-- The hardware loop of `mlx5_ib_poll_cq_with_cqe`. -/
def pollLoopWithCqe (base : ℕ) : ℕ → State → Option ℕ → (ℕ → Wc) → ℕ → Option Slot →
    Except Fault (PollCq × Option Slot)
  | 0, s, _, wc, npolled, cqe => .ok (⟨npolled, s, wc⟩, cqe)
  | n + 1, s, curQp, wc, npolled, cqe =>
    match mlx5PollOneWithCqe s curQp (wc (base + npolled)) cqe with
    | .error f => .error f
    | .ok p =>
      let wc := update wc (base + npolled) p.wc
      match p.ret with
      | some _ => .ok (⟨npolled, p.s, wc⟩, p.cqe)
      | none => pollLoopWithCqe base n p.s p.curQp wc (npolled + 1) p.cqe

/-- `mlx5_ib_poll_cq_with_cqe`, with what it leaves in `*cqe`, which held `cqe` before. -/
def mlx5IbPollCqWithCqe (s : State) (numEntries : ℤ) (wc : ℕ → Wc) (cqe : Option Slot) :
    Except Fault (PollCq × Option Slot) :=
  if s.internalError then
    let (s, wc, softPolled) := pollSoftWc s numEntries wc true
    let (s, wc, npolled) := mlx5IbPollSwComp s (numEntries - softPolled) wc softPolled
    .ok (⟨softPolled + npolled, s, wc⟩, cqe)
  else
    let (s, wc, softPolled) := pollSoftWc s numEntries wc false
    match pollLoopWithCqe softPolled (numEntries - softPolled).toNat s none wc 0 cqe with
    | .error f => .error f
    | .ok (r, cqe) =>
      .ok (⟨softPolled + r.ret, if r.ret = 0 then r.s else cqSetCi r.s, r.wc⟩, cqe)

/-! ### The two machines take the same steps -/

/-- STEP: a poll of one completion does the same in both copies, `*cqe` being the local `cqe`. -/
theorem repollWithCqe_eq : ∀ fuel s curQp wc cqe,
    repollWithCqe fuel s curQp wc cqe = repoll fuel s curQp wc
  | 0, _, _, _, _ => rfl
  | fuel + 1, s, curQp, wc, cqe => by
      rw [repollWithCqe, repoll]
      cases hn : getSwCqe s.ring s.ring.consIndex with
      | none => rfl
      | some n => simp only [Option.map_some, repollWithCqe_eq fuel]

/-- The ring after the next completion was taken from it, CQEs without one skipped on the way. -/
def nextCompletion : ℕ → Ring → Option Ring
  | 0, _ => none
  | fuel + 1, r =>
    match getSwCqe r r.consIndex with
    | none => none
    | some n =>
      let opcode := (r.buf.mem n).opcode
      let r := { r with consIndex := (r.consIndex + 1) % 2 ^ 32 }
      match (if opcode = RESIZE_CQ then r.resizeBuf else none) with
      | some buf => nextCompletion fuel { r with buf := buf, resizeBuf := none }
      | none => if opcode = SIG_ERR then nextCompletion fuel r else some r

/-- The ring holds at least `n` completions. -/
def ready : ℕ → Ring → Bool
  | 0, _ => true
  | n + 1, r =>
    match nextCompletion (repollFuel r) r with
    | none => false
    | some r => ready n r

@[simp] theorem handleResponder_ring (s : State) (h : ℕ) (cqe : Cqe) (wc : Wc) :
    (handleResponder s h cqe wc).1.ring = s.ring := by
  have hrecv : (completeRecv s h cqe wc).1.ring = s.ring := by
    unfold completeRecv
    simp only
    split
    · split <;> rfl
    · rfl
  unfold handleResponder
  simp only
  split <;> exact hrecv

/-- A poll of one completion takes the next completion off the ring, and fails exactly when there is
    none. -/
theorem repoll_ring : ∀ {fuel s curQp wc p}, repoll fuel s curQp wc = .ok p →
    (p.ret = none ∧ nextCompletion fuel s.ring = some p.s.ring ∧ p.cqe.isSome = true) ∨
      (p.ret.isSome = true ∧ nextCompletion fuel s.ring = none ∧ p.cqe = none)
  | 0, _, _, _, _, h => by cases h
  | fuel + 1, s, curQp, wc, p, h => by
      rw [repoll] at h
      rw [nextCompletion]
      cases hn : getSwCqe s.ring s.ring.consIndex with
      | none =>
        rw [hn] at h
        cases h
        exact .inr ⟨rfl, rfl, rfl⟩
      | some n =>
        rw [hn] at h
        simp only at h ⊢
        cases hres : (if (s.ring.buf.mem n).opcode = RESIZE_CQ then s.ring.resizeBuf else none) with
        | some buf =>
          rw [hres] at h
          exact repoll_ring h
        | none =>
          rw [hres] at h
          simp only at h ⊢
          split at h
          · cases h
          · by_cases hsig : (s.ring.buf.mem n).opcode = SIG_ERR
            · simp only [hsig, REQ, RESP_WR_IMM, RESP_SEND, RESP_SEND_IMM, RESP_SEND_INV, RESIZE_CQ,
                REQ_ERR, RESP_ERR, SIG_ERR, Nat.reduceEqDiff, or_self, if_false, if_true] at h ⊢
              split at h
              · cases h
              · exact repoll_ring h
            · rw [if_neg hsig] at h ⊢
              refine .inl ?_
              split at h
              · -- REQ
                split at h
                · cases h
                · cases h
                  exact ⟨rfl, rfl, rfl⟩
              split at h
              · -- responder completions
                cases h
                refine ⟨rfl, ?_, rfl⟩
                simp only [handleResponder_ring]
              split at h
              · -- RESIZE_CQ without a waiting ring
                cases h
                exact ⟨rfl, rfl, rfl⟩
              split at h
              · -- error completions
                split at h
                · cases h
                  refine ⟨rfl, ?_, rfl⟩
                  simp only
                  split <;> rfl
                split at h
                · cases h
                  refine ⟨rfl, ?_, rfl⟩
                  simp only
                  split <;> rfl
                · cases h
                  refine ⟨rfl, ?_, rfl⟩
                  simp only
                  split <;> rfl
              · -- an opcode the switch does not know
                cases h
                exact ⟨rfl, rfl, rfl⟩

/-- RUN: the hardware loops agree in everything but the slot they leave. `*cqe` is the slot of the
    last completion when all turns found one, and NULL when one of them did not. -/
theorem pollLoopWithCqe_ok (base : ℕ) : ∀ {n s curQp wc npolled last r last'} (cqe : Option Slot),
    pollLoop base n s curQp wc npolled last = .ok (r, last') →
    pollLoopWithCqe base n s curQp wc npolled cqe =
      .ok (r, if ready n s.ring then (if n = 0 then cqe else last') else none)
  | 0, _, _, _, _, _, _, _, _, h => by
      cases h
      rfl
  | n + 1, s, curQp, wc, npolled, last, r, last', cqe, h => by
      rw [pollLoop, mlx5PollOne] at h
      rw [pollLoopWithCqe, mlx5PollOneWithCqe, repollWithCqe_eq]
      cases hp : repoll (repollFuel s.ring) s curQp (wc (base + npolled)) with
      | error f =>
        rw [hp] at h
        cases h
      | ok p =>
        rw [hp] at h
        simp only at h ⊢
        rcases repoll_ring hp with ⟨hret, hnext, hcqe⟩ | ⟨hret, hnext, hcqe⟩
        · rw [hret] at h ⊢
          simp only at h ⊢
          rw [pollLoopWithCqe_ok base p.cqe h, ready, hnext]
          simp only
          cases n with
          | zero => cases h; rfl
          | succ n => simp only [Nat.add_eq_zero_iff, one_ne_zero, and_false, if_false]
        · obtain ⟨e, he⟩ := Option.isSome_iff_exists.mp hret
          rw [he] at h ⊢
          cases h
          simp only [ready, hnext, hcqe, if_false, Bool.false_eq_true]

theorem pollLoopWithCqe_error (base : ℕ) : ∀ {n s curQp wc npolled last f} (cqe : Option Slot),
    pollLoop base n s curQp wc npolled last = .error f →
    pollLoopWithCqe base n s curQp wc npolled cqe = .error f
  | 0, _, _, _, _, _, _, _, h => by cases h
  | n + 1, s, curQp, wc, npolled, last, f, cqe, h => by
      rw [pollLoop, mlx5PollOne] at h
      rw [pollLoopWithCqe, mlx5PollOneWithCqe, repollWithCqe_eq]
      cases hp : repoll (repollFuel s.ring) s curQp (wc (base + npolled)) with
      | error f' =>
        rw [hp] at h
        cases h
        rfl
      | ok p =>
        rw [hp] at h
        simp only at h ⊢
        cases hret : p.ret with
        | some e =>
          rw [hret] at h
          cases h
        | none =>
          rw [hret] at h
          exact pollLoopWithCqe_error base p.cqe h

/-- The loop leaves a last completion exactly when it started with one or the ring held one. -/
theorem pollLoop_last (base : ℕ) : ∀ {n s curQp wc npolled last r last'},
    pollLoop base n s curQp wc npolled last = .ok (r, last') →
    (last'.isSome = true ↔ last.isSome = true ∨ (n ≠ 0 ∧ ready 1 s.ring = true))
  | 0, _, _, _, _, _, _, _, h => by
      cases h
      simp
  | n + 1, s, curQp, wc, npolled, last, r, last', h => by
      rw [pollLoop, mlx5PollOne] at h
      cases hp : repoll (repollFuel s.ring) s curQp (wc (base + npolled)) with
      | error f =>
        rw [hp] at h
        cases h
      | ok p =>
        rw [hp] at h
        simp only at h
        rcases repoll_ring hp with ⟨hret, hnext, hcqe⟩ | ⟨hret, hnext, hcqe⟩
        · rw [hret] at h
          simp only at h
          rw [pollLoop_last base h]
          simp [hcqe, ready, hnext]
        · obtain ⟨e, he⟩ := Option.isSome_iff_exists.mp hret
          rw [he] at h
          cases h
          simp [ready, hnext]

/-! ### The whole call -/

/-- The number of software completions that a call hands out. -/
def softCount (s : State) (numEntries : ℤ) : ℕ := Nat.min s.wcList.length numEntries.toNat

theorem pollSoftWcLoop_count {numEntries : ℤ} {fatal : Bool} : ∀ (l : List ℕ) (s : State)
    (wc : ℕ → Wc) (npolled : ℕ), (pollSoftWcLoop numEntries fatal l s wc npolled).2.2 =
      npolled + Nat.min l.length (numEntries - npolled).toNat ∧
    (pollSoftWcLoop numEntries fatal l s wc npolled).1.ring = s.ring
  | [], _, _, _ => by simp [pollSoftWcLoop]
  | e :: l, s, wc, npolled => by
      rw [pollSoftWcLoop]
      split
      · rename_i hfull
        refine ⟨?_, rfl⟩
        have hzero : (numEntries - npolled).toNat = 0 := by omega
        simp [hzero]
      · rename_i hfull
        obtain ⟨hcount, hring⟩ := @pollSoftWcLoop_count numEntries fatal l _ _ (npolled + 1)
        refine ⟨hcount.trans ?_, hring⟩
        simp only [List.length_cons, Nat.min_def]
        split <;> split <;> omega

/-! ### `goto repoll` ends -/

theorem getSwCqe_wrap {r : Ring} {b : ℕ} (hb : r.cqe + 1 = 2 ^ b) (hb' : b ≤ 31) (n i : ℕ) :
    getSwCqe r ((n + 1) % 2 ^ 32 + i) = getSwCqe r (n + (i + 1)) := by
  refine getSwCqe_congr hb ?_
  rw [Nat.add_mod, Nat.mod_mod_of_dvd _ (Nat.pow_dvd_pow 2 (by omega)), ← Nat.add_mod]
  congr 1
  omega

/-- STEP: every turn that does not return has consumed a CQE, and switches to a waiting ring at
    most. -/
theorem repoll_bound_step {fuel : ℕ} {s : State} {curQp : Option ℕ} {wc : Wc}
    (h : repoll (fuel + 1) s curQp wc = .error .repollBound) :
    (getSwCqe s.ring s.ring.consIndex).isSome = true ∧
      ∃ s' curQp' wc', repoll fuel s' curQp' wc' = .error .repollBound ∧
        s'.ring.cqe = s.ring.cqe ∧
        (s'.ring = { s.ring with consIndex := (s.ring.consIndex + 1) % 2 ^ 32 } ∨
          s'.ring.resizeBuf = none ∧ s.ring.resizeBuf.isSome = true) := by
  rw [repoll] at h
  cases hn : getSwCqe s.ring s.ring.consIndex with
  | none =>
    rw [hn] at h
    cases h
  | some n =>
    rw [hn] at h
    simp only at h
    refine ⟨rfl, ?_⟩
    cases hres : (if (s.ring.buf.mem n).opcode = RESIZE_CQ then s.ring.resizeBuf else none) with
    | some buf =>
      rw [hres] at h
      refine ⟨_, _, _, h, rfl, .inr ⟨rfl, ?_⟩⟩
      split at hres
      · rw [hres]
        rfl
      · cases hres
    | none =>
      rw [hres] at h
      simp only at h
      split at h
      · cases h
      · split at h
        · split at h <;> cases h
        split at h
        · cases h
        split at h
        · cases h
        split at h
        · split at h
          · cases h
          · split at h <;> cases h
        split at h
        · split at h
          · cases h
          · exact ⟨_, _, _, h, rfl, .inl rfl⟩
        · cases h

/-- RUN: turns that do not return consume the CQEs of one ring, until it is replaced. -/
theorem repoll_bound_run {b : ℕ} (hb' : b ≤ 31) : ∀ {fuel : ℕ} {s : State} {curQp : Option ℕ}
    {wc : Wc}, s.ring.cqe + 1 = 2 ^ b → repoll fuel s curQp wc = .error .repollBound →
    ∃ k ≤ fuel, (∀ i < k, (getSwCqe s.ring (s.ring.consIndex + i)).isSome = true) ∧
      (k = fuel ∨ ∃ s' curQp' wc', repoll (fuel - k) s' curQp' wc' = .error .repollBound ∧
        s'.ring.cqe = s.ring.cqe ∧ s'.ring.resizeBuf = none ∧ s.ring.resizeBuf.isSome = true)
  | 0, _, _, _, _, _ => ⟨0, le_rfl, fun i hi => absurd hi (by omega), .inl rfl⟩
  | fuel + 1, s, curQp, wc, hb, h => by
      obtain ⟨hsome, s', curQp', wc', hrep, hcqe, hring | ⟨hnone, hres⟩⟩ := repoll_bound_step h
      · obtain ⟨k, hk, hown, hrest⟩ := repoll_bound_run hb' (hcqe ▸ hb) hrep
        refine ⟨k + 1, by omega, fun i hi => ?_, ?_⟩
        · cases i with
          | zero => exact hsome
          | succ i =>
            have hi' := hown i (by omega)
            rw [hring] at hi'
            exact (congrArg Option.isSome (getSwCqe_wrap hb hb' s.ring.consIndex i)).symm.trans hi'
        · rcases hrest with rfl | ⟨s₂, c₂, w₂, hrep₂, hcqe₂, hnone₂, hsome₂⟩
          · exact .inl rfl
          · rw [hring] at hsome₂
            refine .inr ⟨s₂, c₂, w₂, ?_, hcqe₂.trans hcqe, hnone₂, hsome₂⟩
            rwa [show fuel + 1 - (k + 1) = fuel - k by omega]
      · refine ⟨1, by omega, fun i hi => ?_, .inr ⟨s', curQp', wc', hrep, hcqe, hnone, hres⟩⟩
        obtain rfl : i = 0 := by omega
        exact hsome

/-- A lap of consecutive CQEs is all that software can own. -/
theorem owned_le {r : Ring} {b k : ℕ} (hb : r.cqe + 1 = 2 ^ b)
    (h : ∀ i < k, (getSwCqe r (r.consIndex + i)).isSome = true) : k ≤ 2 ^ b := by
  by_contra hlt
  have hlap := getSwCqe_lap hb (h 0 (by have := Nat.two_pow_pos b; omega))
  have hagain := h (2 ^ b) (by omega)
  rw [Nat.add_zero] at hlap
  rw [hlap] at hagain
  cases hagain

/-- The bound on `goto repoll` is never reached on a ring of `2 ^ b` CQEs. -/
theorem mlx5PollOne_ne_repollBound {s : State} {b : ℕ} (hb : s.ring.cqe + 1 = 2 ^ b) (hb' : b ≤ 31)
    (curQp : Option ℕ) (wc : Wc) : mlx5PollOne s curQp wc ≠ .error .repollBound := by
  intro h
  rw [mlx5PollOne, repollFuel, hb] at h
  obtain ⟨k, hk, hown, rfl | ⟨s', curQp', wc', hrep, hcqe, hnone, -⟩⟩ :=
    repoll_bound_run hb' hb h
  · have := owned_le hb hown
    omega
  · have hfirst := owned_le hb hown
    obtain ⟨k', hk', hown', rfl | ⟨-, -, -, -, -, -, hsome⟩⟩ :=
      repoll_bound_run hb' (hcqe ▸ hb) hrep
    · have := owned_le (hcqe ▸ hb) hown'
      omega
    · rw [hnone] at hsome
      cases hsome

/-! ### Agreement of the two calls -/

/-- `mlx5_ib_poll_cq_with_cqe` returns the same count, completions and state as `mlx5_ib_poll_cq`,
    and where the last completion came from the ring, `*cqe` is its slot. -/
structure Agrees (s : State) (numEntries : ℤ) (wc : ℕ → Wc) (cqe : Option Slot) : Prop where
  same : (mlx5IbPollCqWithCqe s numEntries wc cqe).map Prod.fst =
    (mlx5IbPollCq s numEntries wc).map Prod.fst
  slot : ∀ r r' last cqe', mlx5IbPollCq s numEntries wc = .ok (r, some last) →
    mlx5IbPollCqWithCqe s numEntries wc cqe = .ok (r', cqe') → cqe' = some last

/-- Count, completions and state agree on every input, also where the call does not return. -/
theorem mlx5IbPollCqWithCqe_same (s : State) (numEntries : ℤ) (wc : ℕ → Wc) (cqe : Option Slot) :
    (mlx5IbPollCqWithCqe s numEntries wc cqe).map Prod.fst =
      (mlx5IbPollCq s numEntries wc).map Prod.fst := by
  rw [mlx5IbPollCqWithCqe, mlx5IbPollCq]
  split
  · rfl
  · obtain ⟨s', wc', soft⟩ := pollSoftWc s numEntries wc false
    simp only
    cases hloop : pollLoop soft (numEntries - soft).toNat s' none wc' 0 none with
    | error f =>
      rw [pollLoopWithCqe_error soft cqe hloop]
    | ok r =>
      rw [pollLoopWithCqe_ok soft cqe hloop]
      rfl

/-- The calls on a device that works, as their hardware loops leave them. -/
theorem mlx5IbPollCq_hw {s : State} {numEntries : ℤ} {wc : ℕ → Wc} {r : PollCq}
    {last : Option Slot} (herr : s.internalError = false)
    (h : mlx5IbPollCq s numEntries wc = .ok (r, last)) :
    (last.isSome = true ↔ (numEntries - softCount s numEntries).toNat ≠ 0 ∧
        ready 1 s.ring = true) ∧ ∀ cqe, mlx5IbPollCqWithCqe s numEntries wc cqe =
        .ok (r, if ready (numEntries - softCount s numEntries).toNat s.ring then
            (if (numEntries - softCount s numEntries).toNat = 0 then cqe else last)
          else none) := by
  obtain ⟨hcount, hring⟩ :=
    @pollSoftWcLoop_count numEntries false s.wcList s wc 0
  rw [Nat.zero_add, Nat.cast_zero, sub_zero] at hcount
  simp only [mlx5IbPollCq, herr, pollSoftWc] at h
  simp only [mlx5IbPollCqWithCqe, herr, Bool.false_eq_true, if_false, pollSoftWc]
  rw [show Nat.min s.wcList.length numEntries.toNat = softCount s numEntries from rfl] at hcount
  rw [hcount] at h ⊢
  cases hloop : pollLoop (softCount s numEntries) (numEntries - softCount s numEntries).toNat
      (pollSoftWcLoop numEntries false s.wcList s wc 0).1 none
      (pollSoftWcLoop numEntries false s.wcList s wc 0).2.1 0 none with
  | error f =>
    rw [hloop] at h
    cases h
  | ok p =>
    rw [hloop] at h
    cases h
    refine ⟨?_, fun cqe => ?_⟩
    · have hlast := pollLoop_last _ hloop
      rw [hring] at hlast
      simpa using hlast
    · rw [pollLoopWithCqe_ok _ cqe hloop, hring]

/-- CORRECT: for every state, every `num_entries` and every array, the two calls agree exactly when
    the hardware loop is not left through `-EAGAIN` after a completion: that attempt overwrites
    `*cqe` with NULL. -/
theorem poll_cq_with_cqe_agrees_iff {s : State} {numEntries : ℤ} {wc : ℕ → Wc} {r : PollCq}
    {last : Option Slot} (h : mlx5IbPollCq s numEntries wc = .ok (r, last)) (cqe : Option Slot) :
    Agrees s numEntries wc cqe ↔
      s.internalError = true ∨ ready 1 s.ring = false ∨
        ready (numEntries - softCount s numEntries).toNat s.ring = true := by
  constructor
  · intro hag
    by_contra hcond
    simp only [not_or, Bool.not_eq_true, Bool.not_eq_false] at hcond
    obtain ⟨herr, hone, hall⟩ := hcond
    obtain ⟨hlast, hwith⟩ := mlx5IbPollCq_hw herr h
    have hn : (numEntries - softCount s numEntries).toNat ≠ 0 := by
      intro h0
      rw [h0] at hall
      cases hall
    obtain ⟨slot, hslot⟩ := Option.isSome_iff_exists.mp (hlast.mpr ⟨hn, hone⟩)
    have hnull := hwith cqe
    rw [if_neg (Bool.eq_false_iff.mp hall)] at hnull
    subst hslot
    cases hag.slot r r slot none h hnull
  · intro hcond
    refine ⟨mlx5IbPollCqWithCqe_same s numEntries wc cqe, fun r₀ r' slot cqe' h₀ h' => ?_⟩
    obtain ⟨-, rfl⟩ : r = r₀ ∧ last = some slot := by
      rw [h] at h₀
      cases h₀
      exact ⟨rfl, rfl⟩
    cases herr : s.internalError with
    | true =>
      rw [mlx5IbPollCq, if_pos herr] at h
      cases h
    | false =>
      obtain ⟨hlast, hwith⟩ := mlx5IbPollCq_hw herr h
      obtain ⟨hn, hone⟩ := hlast.mp rfl
      have hall : ready (numEntries - softCount s numEntries).toNat s.ring = true := by
        rcases hcond with hc | hc | hc
        · rw [herr] at hc
          cases hc
        · rw [hone] at hc
          cases hc
        · exact hc
      rw [hwith cqe, if_pos hall, if_neg hn] at h'
      cases h'
      rfl

/-- A send queue of four blocks with one signalled SEND, posted as `wr_id` 7. -/
def oneSend : Wq :=
  { wqeCnt := 4, maxPost := 4, maxGs := 1, head := 1, tail := 0, curPost := 1, lastPoll := 0
    wrid := fun _ => 7, wrData := fun _ => 2, wqeHead := fun _ => 0
    wList := fun _ => ⟨0x0a, 1⟩ }

/-- A CQE that was never written. -/
def noCqe : Cqe :=
  { opOwn := INVALID * 16, wqeCounter := 0, sopDropQpn := 0, byteCnt := 0, srqn := 0
    immediate := 0, flagsRqpn := 0, mlPath := 0, slid := 0, hdsIpExt := 0, l4L3HdrType := 0
    vlanInfo := 0, syndrome := 0, vendorErrSynd := 0, sigSyndrome := 0
    expectedTransSig := 0, actualTransSig := 0, expectedReftag := 0, actualReftag := 0
    mkey := 0, errOffset := 0 }

/-- An entry of the caller's array before the call. -/
def emptyWc : Wc := ⟨0, .SUCCESS, .SEND, 0, 0, none, 0, 0, 0, 0, 0, 0, 0, 0, .IB⟩

/-- A device with one QP, whose CQ holds the completion of that SEND in slot 0. -/
def oneCqe : State :=
  { ring :=
      { cqe := 3, cqeSz := 64, consIndex := 0, ciDb := 0, resizeBuf := none
        buf := { id := 0, cqeSize := 64, nent := 4
                 mem := update (fun _ => noCqe) 0
                   { noCqe with opOwn := REQ * 16, sopDropQpn := 0x0a * 2 ^ 24 + 5 } } }
    wcList := [], softWcs := fun _ => ⟨emptyWc, false⟩
    qpTable := fun qpn => if qpn = 5 then some 0 else none
    qps := fun _ =>
      { qpNum := 5, type := .RC, srq := none, xrcd := false, port := 1, sq := oneSend
        rq := oneSend }
    srqTable := fun _ => none
    srqs := fun _ => ⟨2, 1, 1, 0, 1, 0, 0, fun _ => 0, fun _ => 0, fun _ _ => ⟨0, 0, 0⟩⟩
    sigMrs := fun _ => none, umrcState := .ACTIVE, listSendQp := [0], listRecvQp := []
    internalError := false, ethernet := true, pkeyCache := fun _ => none }

/-- The completions of three such SENDs, and a software completion before them. -/
def threeCqes : State :=
  { oneCqe with
    ring := { oneCqe.ring with
      buf := { oneCqe.ring.buf with
        mem := fun i => if i < 3
          then { noCqe with
            opOwn := REQ * 16, sopDropQpn := 0x0a * 2 ^ 24 + 5, wqeCounter := i }
          else noCqe } }
    wcList := [0], softWcs := fun _ => ⟨{ emptyWc with wrId := 99 }, false⟩
    qps := fun _ => { oneCqe.qps 0 with
      sq := { oneSend with head := 3, curPost := 3, wrid := fun i => 7 + i, wqeHead := id } } }

/-- Asked for three of the four completions, the calls hand out the software completion and two of
    the ring, and agree. -/
theorem poll_cq_with_cqe_agrees_one :
    ((mlx5IbPollCqWithCqe threeCqes 3 (fun _ => emptyWc) none).map fun p =>
      (p.1.ret, (List.range 3).map fun i => (p.1.wc i).wrId)) = .ok (3, [99, 7, 8]) ∧
    Agrees threeCqes 3 (fun _ => emptyWc) none :=
  ⟨by decide +kernel, (@poll_cq_with_cqe_agrees_iff threeCqes 3 (fun _ => emptyWc) _ _ rfl none).mpr
    (.inr (.inr (by decide)))⟩

/-- Asked for more, `mlx5_ib_poll_cq_with_cqe` returns one completion and a NULL slot. -/
theorem poll_cq_with_cqe_null_slot :
    ((mlx5IbPollCqWithCqe oneCqe 2 (fun _ => emptyWc) none).map fun p =>
      (p.1.ret, (p.1.wc 0).wrId, p.2)) =
        .ok (1, 7, none) ∧
      ¬ Agrees oneCqe 2 (fun _ => emptyWc) none := by
  refine ⟨rfl, fun hag => ?_⟩
  have hslot := hag.slot _ _ ⟨0, 0⟩ none rfl rfl
  cases hslot

end RdmaDriver.Mlx5Poll
