import RdmaDriver.Basic
import RdmaDriver.Schemes.Run
import RdmaDriver.Schemes.Ring
import RdmaDriver.Core.RmppRecv

/-! @src drivers/infiniband/core/mad_rmpp.c, mad.c | name:RMPP sender | scheme:run | family:window

    The segments of a message lie on a circular list. `send_next_seg` counts `seg_num` up and sends
    the segment of that number, found by a search that starts from `cur_seg`. A send completion, an
    ACK or a timeout leads to the next call: a completion goes on until `seg_num` equals `newwin`, an
    ACK moves `last_ack` and `newwin` on, and a timeout starts again behind `last_ack`. One DATA MAD
    is on its way at a time.

        list   1 - … - last_ack - … - seg_num - … - newwin - … - seg_count - (head) - 1
                       last_ack_seg   cur_seg                                           -/

namespace RdmaDriver.Rmpp
open Schemes

/-! ### The window of the answer -/

/-- What a receive is looked up by. -/
structure RecvKey where
  tid : ℕ
  srcQp : ℕ
  slid : ℕ
  mgmtClass : ℕ
  classVersion : ℕ
  method : ℕ
  deriving DecidableEq

/-- What `init_newwin` reads of the header of a send. -/
structure MadHdr where
  tid : ℕ
  mgmtClass : ℕ
  classVersion : ℕ
  method : ℕ
  deriving DecidableEq

def IB_MGMT_METHOD_RESP : ℕ := 0x80

/-- `process_ds_ack`, on the receives of the agent: the first that matches is updated. -/
def processDsAck (key : RecvKey) (newwin : ℤ) : List (RecvKey × Recv) → List (RecvKey × Recv)
  | [] => []
  | p :: l =>
    if p.1 = key then
      if p.2.state = .complete then (p.1, { p.2 with repwin := newwin }) :: l else p :: l
    else p :: processDsAck key newwin l

/-- `init_newwin`. `dlid` is the LID of the address handle, if it can be queried. -/
def initNewwin (hdr : MadHdr) (dlid : Option ℕ) (rmppList : List (RecvKey × Recv)) : ℤ :=
  if hdr.method &&& IB_MGMT_METHOD_RESP = 0 then 1
  else match rmppList.find? (fun p => p.1.tid = hdr.tid ∧ p.1.mgmtClass = hdr.mgmtClass ∧
      p.1.classVersion = hdr.classVersion ∧ p.1.method &&& IB_MGMT_METHOD_RESP = 0 ∧
      dlid = some p.1.slid) with
    | some p => p.2.repwin
    | none => 1

/-! ### The send -/

/-- A send as `ib_create_send_mad` and the client leave it: at least one segment. Places of the list
    are numbered as the segments, the head is place 0. -/
structure SendBuf where
  rmppList : List (List ℕ)
  segRmppSize : ℕ
  pad : ℕ
  /-- the length of the second scatter entry -/
  sgeLen : ℕ
  timeoutMs : ℕ
  retries : ℕ
  rmppStatus : ℕ
  /-- a pointer to a place, read as a `u32` -/
  addr : ℕ → ℕ
  /-- what lies where the head would have its data -/
  headData : List ℕ
  segCountPos : 1 ≤ rmppList.length
  segCountLt : rmppList.length < 2 ^ 31

/-- `seg_count`. -/
def SendBuf.segCount (b : SendBuf) : ℕ := b.rmppList.length

/-- `num` of the element at a place. What stands there at the head is the pointer `last_ack_seg`. -/
def SendBuf.num (b : SendBuf) (lastAckSeg place : ℕ) : ℕ :=
  if place = 0 then b.addr lastAckSeg else place

/-- `data` of the element at a place. -/
def SendBuf.dataAt (b : SendBuf) (place : ℕ) : List ℕ :=
  if place = 0 then b.headData else b.rmppList.getD (place - 1) []

/-- The RMPP control part of `struct ib_mad_send_wr_private`. -/
structure RmppControl where
  lastAckSeg : ℕ
  curSeg : ℕ
  lastAck : ℤ
  segNum : ℤ
  newwin : ℤ
  deriving DecidableEq

/-- A DATA MAD that was sent: its place, and the window at that time. -/
structure Tx where
  seg : Seg
  place : ℕ
  newwin : ℤ
  deriving DecidableEq

/-- What the environment decides when a MAD is sent: the two DMA mappings and the post. -/
structure SendEnv where
  headerOk : Bool
  payloadOk : Bool
  postOk : Bool
  deriving DecidableEq

def RmppControl.setSegNum (rc : RmppControl) (segNum : ℤ) : RmppControl :=
  { rc with segNum := segNum }

def RmppControl.setCurSeg (rc : RmppControl) (curSeg : ℕ) : RmppControl :=
  { rc with curSeg := curSeg }

def RmppControl.setNewwin (rc : RmppControl) (newwin : ℤ) : RmppControl :=
  { rc with newwin := newwin }

/-- The header and the payload of segment `seg_num`, the payload taken from `place`. -/
def dataMad (b : SendBuf) (segNum : ℤ) (place : ℕ) : Seg where
  rmppStatus := b.rmppStatus
  first := segNum = 1
  last := segNum = b.segCount
  segNum := toU 32 segNum
  paylen :=
    if segNum = b.segCount then toU 32 (b.segRmppSize - b.pad)
    else if segNum = 1 then toU 32 (b.segCount * b.segRmppSize - b.pad)
    else 0
  data := (b.dataAt place).take b.sgeLen

/-- `ib_get_rmpp_segment`, for the number `seg_num`: the place where `cur_seg` ends. -/
def getRmppSegment (b : SendBuf) (rc : RmppControl) : ℕ :=
  let num := b.num rc.lastAckSeg
  let n := toU 32 rc.segNum
  if num rc.curSeg < n then
    ringSearch b.segCount (ringNext b.segCount) (fun i => num i = n) rc.curSeg
  else if num rc.curSeg > n then
    ringSearch b.segCount (ringPrev b.segCount) (fun i => num i = n) rc.curSeg
  else rc.curSeg

/-- `send_next_seg` with `ib_send_mad`. -/
def sendNextSeg (b : SendBuf) (rc : RmppControl) (env : SendEnv) : RmppControl × Option Tx :=
  let rc := rc.setSegNum (toInt (rc.segNum + 1))
  if !env.headerOk then (rc, none)
  else
    let place := getRmppSegment b rc
    (rc.setCurSeg place,
      if env.payloadOk && env.postOk then some ⟨dataMad b rc.segNum place, place, rc.newwin⟩
      else none)

/-- `adjust_last_ack`. The cursor itself is what is read when it stands on the head. -/
def adjustLastAck (b : SendBuf) (rc : RmppControl) (segNum : ℤ) : RmppControl :=
  { rc with
    lastAck := segNum
    lastAckSeg := ringSearch b.segCount (ringNext b.segCount)
      (fun i => b.num 0 i = toU 32 segNum) rc.lastAckSeg }

/-- `enum ib_wc_status`, as far as sends end with it; `error` is any status of the hardware. -/
inductive WcStatus where
  | success | error | remAbortErr | respTimeoutErr | generalErr
  deriving DecidableEq

/-- The list of the agent that the send is on. -/
inductive AgentList where
  | send | wait | gone
  deriving DecidableEq

/-- `struct ib_mad_send_wr_private`. `timeout` says whether it is not 0, `posted` whether a MAD is on
    its way. -/
structure SendWr where
  rc : RmppControl
  timeout : Bool
  status : WcStatus
  refcount : ℤ
  retriesLeft : ℕ
  list : AgentList
  posted : Bool
  deriving DecidableEq

/-- What a call produces: a DATA MAD, the completion of the send, an ABORT, an ACK of the ACK. -/
structure SendOut where
  tx : Option Tx
  report : Option WcStatus
  nack : Option ℕ
  dsAck : Bool
  deriving DecidableEq

def SendOut.nothing : SendOut := ⟨none, none, none, false⟩

def SendWr.setRc (wr : SendWr) (rc : RmppControl) : SendWr := { wr with rc := rc }

/-- `send_next_seg` on the send: the timeout becomes 2 seconds if it has none or a longer one. -/
def SendWr.sendNext (b : SendBuf) (wr : SendWr) (env : SendEnv) : SendWr × Option Tx :=
  let p := sendNextSeg b wr.rc env
  ({ wr with
      rc := p.1
      timeout := wr.timeout || b.timeoutMs = 0 || 2000 < b.timeoutMs
      posted := wr.posted || p.2.isSome }, p.2)

/-- `ib_find_send_mad`, on the send that matches. -/
def SendWr.found (wr : SendWr) : Bool :=
  match wr.list with
  | .wait => wr.status = .success
  | .send => wr.timeout ∧ wr.status = .success
  | .gone => false

/-- The result of `ib_process_rmpp_send_wc`. -/
structure SendWc where
  wr : SendWr
  status : WcStatus
  tx : Option Tx
  consumed : Bool

/-- `ib_process_rmpp_send_wc`. -/
def ibProcessRmppSendWc (b : SendBuf) (wr : SendWr) (status : WcStatus) (env : SendEnv) : SendWc :=
  if status ≠ .success ∨ wr.status ≠ .success then ⟨wr, status, none, false⟩
  else if !wr.timeout then ⟨wr, status, none, false⟩
  else if wr.rc.lastAck = b.segCount then
    ⟨{ wr with timeout := 0 < b.timeoutMs }, status, none, false⟩
  else if wr.rc.segNum = wr.rc.newwin ∨ wr.rc.segNum = b.segCount then
    ⟨wr, status, none, false⟩
  else
    let p := wr.sendNext b env
    if p.2.isNone then ⟨p.1, .generalErr, none, false⟩ else ⟨p.1, status, p.2, true⟩

/-- The part of `ib_mad_complete_send_wr` after the RMPP layer: a reference is given back, and with
    the last one the send is done. -/
def putSendWr (wr : SendWr) (status : WcStatus) : SendWr × Option WcStatus :=
  let wr := if status ≠ .success ∧ wr.status = .success then
      { wr with status := status, refcount := wr.refcount - if wr.timeout then 1 else 0 }
    else wr
  let wr := { wr with refcount := wr.refcount - 1 }
  if 0 < wr.refcount then
    (if wr.refcount = 1 ∧ wr.timeout ∧ wr.status = .success then { wr with list := .wait } else wr,
      none)
  else ({ wr with list := .gone }, some (if wr.status ≠ .success then wr.status else status))

/-- `ib_mad_complete_send_wr`. -/
def ibMadCompleteSendWr (b : SendBuf) (wr : SendWr) (status : WcStatus) (env : SendEnv) :
    SendWr × SendOut :=
  let wc := ibProcessRmppSendWc b wr status env
  if wc.consumed then (wc.wr, ⟨wc.tx, none, none, false⟩)
  else
    let p := putSendWr wc.wr wc.status
    (p.1, ⟨wc.tx, p.2, none, false⟩)

/-- `ib_mark_mad_done`. -/
def ibMarkMadDone (wr : SendWr) : SendWr := { wr with timeout := false }

/-- The test that a send is already done. -/
def SendWr.alreadyDone (b : SendBuf) (wr : SendWr) : Bool :=
  wr.rc.lastAck = b.segCount ∨ wr.timeout = false ∨ wr.status ≠ .success

/-- `abort_send`. -/
def abortSend (b : SendBuf) (wr : SendWr) (env : SendEnv) : SendWr × SendOut :=
  if !wr.found then (wr, .nothing)
  else if wr.alreadyDone b then (wr, .nothing)
  else ibMadCompleteSendWr b (ibMarkMadDone wr) .remAbortErr env

def IB_MGMT_RMPP_STATUS_W2S : ℕ := 122
def IB_MGMT_RMPP_STATUS_S2B : ℕ := 123

/-- `abort_send` followed by `nack_recv`. -/
def abortNack (b : SendBuf) (wr : SendWr) (rmppStatus : ℕ) (env : SendEnv) : SendWr × SendOut :=
  let p := abortSend b wr env
  (p.1, { p.2 with nack := some rmppStatus })

/-- The last ACK came. -/
def lastAck (b : SendBuf) (wr : SendWr) (env : SendEnv) : SendWr × SendOut :=
  if b.timeoutMs = 0 then ibMadCompleteSendWr b (ibMarkMadDone wr) .success env
  else
    (if wr.refcount = 1 then { wr with timeout := true, list := .wait } else wr,
      ⟨none, none, none, true⟩)

/-- An ACK of `process_rmpp_ack` that is neither old nor too big. -/
def newAck (b : SendBuf) (wr : SendWr) (segNum newwin : ℤ) (env : SendEnv) : SendWr × SendOut :=
  let wr := if wr.rc.lastAck < segNum then
      { wr with rc := adjustLastAck b wr.rc segNum, retriesLeft := b.retries }
    else wr
  let wr := wr.setRc (wr.rc.setNewwin newwin)
  if wr.rc.lastAck = b.segCount then lastAck b wr env
  else if wr.refcount = 1 ∧ wr.rc.segNum < wr.rc.newwin ∧ wr.rc.segNum < b.segCount then
    let p := wr.sendNext b env
    (if p.2.isNone then p.1 else { p.1 with refcount := p.1.refcount + 1, list := .send },
      ⟨p.2, none, none, false⟩)
  else (wr, .nothing)

/-- `process_rmpp_ack`, on the send that the ACK matches. -/
def processRmppAck (b : SendBuf) (wr : SendWr) (ack : Ack) (env : SendEnv) : SendWr × SendOut :=
  let segNum := toInt ack.segNum
  let newwin := toInt ack.newwin
  if ack.rmppStatus ≠ 0 then abortNack b wr IB_MGMT_RMPP_STATUS_BAD_STATUS env
  else if newwin < segNum then abortNack b wr IB_MGMT_RMPP_STATUS_W2S env
  else if !wr.found then (wr, .nothing)
  else if wr.rc.lastAck = b.segCount ∧ wr.timeout then (wr, ⟨none, none, none, true⟩)
  else if wr.alreadyDone b then (wr, .nothing)
  else if (b.segCount : ℤ) < segNum ∨ wr.rc.newwin < segNum then
    abortNack b wr IB_MGMT_RMPP_STATUS_S2B env
  else if newwin < wr.rc.newwin ∨ segNum < wr.rc.lastAck then (wr, .nothing)
  else newAck b wr segNum newwin env

/-- The part of `ib_mad_complete_recv` for a response to the send. -/
def completeResponse (b : SendBuf) (wr : SendWr) (env : SendEnv) : SendWr × SendOut :=
  if wr.found then ibMadCompleteSendWr b (ibMarkMadDone wr) .success env else (wr, .nothing)

/-- `seg_num` and `cur_seg` go back to the last ACK. -/
def RmppControl.rewind (rc : RmppControl) : RmppControl :=
  { rc with segNum := rc.lastAck, curSeg := rc.lastAckSeg }

/-- `retry_send` with `ib_retry_rmpp`; `none` when it fails. -/
def retrySend (b : SendBuf) (wr : SendWr) (env : SendEnv) : SendWr × Option Tx :=
  if wr.retriesLeft = 0 then (wr, none)
  else
    let wr := { wr with retriesLeft := wr.retriesLeft - 1, timeout := 0 < b.timeoutMs }
    if wr.rc.lastAck = (b.segCount : ℤ) then (wr, none)
    else
      let p := (wr.setRc wr.rc.rewind).sendNext b env
      (if p.2.isNone then p.1 else { p.1 with refcount := p.1.refcount + 1, list := .send }, p.2)

/-- `timeout_sends`, when the send is the first of the wait list and its time is up. -/
def timeoutSends (b : SendBuf) (wr : SendWr) (env : SendEnv) : SendWr × SendOut :=
  if wr.list ≠ .wait then (wr, .nothing)
  else if wr.status = .success then
    let p := retrySend b wr env
    if p.2.isSome then (p.1, ⟨p.2, none, none, false⟩)
    else ({ p.1 with list := .gone }, ⟨none, some .respTimeoutErr, none, false⟩)
  else ({ wr with list := .gone }, ⟨none, some wr.status, none, false⟩)

/-- The send as `ib_post_send_mad` hands it to `ib_send_rmpp_mad`, with the references taken there. -/
def newSendWr (b : SendBuf) (newwin : ℤ) : SendWr where
  rc := ⟨1, 1, 0, 0, newwin⟩
  timeout := 0 < b.timeoutMs
  status := .success
  refcount := 2
  retriesLeft := b.retries
  list := .send
  posted := false

/-- `ib_send_rmpp_mad` in `ib_post_send_mad`: a send that fails is taken off the list. -/
def ibSendRmppMad (b : SendBuf) (newwin : ℤ) (env : SendEnv) : SendWr × SendOut :=
  let p := (newSendWr b newwin).sendNext b env
  (if p.2.isNone then { p.1 with list := .gone } else p.1, ⟨p.2, none, none, false⟩)

/-! ### Runs -/

/-- The receives of the agent, one send, and the DATA MADs sent so far. -/
structure SendWorld where
  rmppList : List (RecvKey × Recv)
  wr : Option SendWr
  sent : List Tx

/-- An ACK that matches no send, the post, the completion of a MAD, an ACK, a response, an ABORT or
    STOP, and a timeout. -/
inductive SendAct where
  | dsAck (key : RecvKey) (ack : Ack)
  | post (hdr : MadHdr) (dlid : Option ℕ) (env : SendEnv)
  | sendDone (status : WcStatus) (env : SendEnv)
  | ack (ack : Ack) (env : SendEnv)
  | response (env : SendEnv)
  | abort (env : SendEnv)
  | timeout (env : SendEnv)

/-- The completion of a MAD that is on its way. -/
def sendDone (b : SendBuf) (wr : SendWr) (status : WcStatus) (env : SendEnv) :
    SendWr × SendOut :=
  if wr.posted ∧ wr.list ≠ .gone then
    ibMadCompleteSendWr b { wr with posted := false } status env
  else (wr, .nothing)

/-- What an action does to the send. -/
def runAct (b : SendBuf) (wr : SendWr) : SendAct → SendWr × SendOut
  | .sendDone status env => sendDone b wr status env
  | .ack ack env => processRmppAck b wr ack env
  | .response env => completeResponse b wr env
  | .abort env => abortSend b wr env
  | .timeout env => timeoutSends b wr env
  | _ => (wr, .nothing)

/-- `process_rmpp_ack` without a send. -/
def unmatchedAck (key : RecvKey) (ack : Ack) (l : List (RecvKey × Recv)) :
    List (RecvKey × Recv) :=
  if ack.rmppStatus = 0 ∧ toInt ack.segNum ≤ toInt ack.newwin ∧ toInt ack.segNum = 0 then
    processDsAck key (toInt ack.newwin) l
  else l

/-- A call on the send, if there is one. -/
def SendWorld.onSend (w : SendWorld) (f : SendWr → SendWr × SendOut) : SendWorld :=
  match w.wr with
  | none => w
  | some wr => { w with wr := some (f wr).1, sent := w.sent ++ (f wr).2.tx.toList }

def sendStep (b : SendBuf) (w : SendWorld) : SendAct → SendWorld
  | .dsAck key ack => { w with rmppList := unmatchedAck key ack w.rmppList }
  | .post hdr dlid env =>
    match w.wr with
    | some _ => w
    | none =>
      let p := ibSendRmppMad b (initNewwin hdr dlid w.rmppList) env
      { w with wr := some p.1, sent := w.sent ++ p.2.tx.toList }
  | a => w.onSend fun wr => runAct b wr a

/-! ### The cursors -/

section Cursors

variable {b : SendBuf} {rc : RmppControl} {env : SendEnv}

/-- `cur_seg` is on an element, or on the head with a number there that lies before `seg_num`. -/
def PlaceOk (b : SendBuf) (rc : RmppControl) (segNum : ℤ) : Prop :=
  (1 ≤ rc.curSeg ∧ rc.curSeg ≤ b.segCount) ∨
    rc.curSeg = 0 ∧ (b.num rc.lastAckSeg 0 : ℤ) < segNum

theorem num_of_pos {q i : ℕ} (h : 1 ≤ i) : b.num q i = i := if_neg (by omega)

/-- `ib_get_rmpp_segment` finds the element of the number. -/
theorem getRmppSegment_eq (h₁ : 1 ≤ rc.segNum) (h₂ : rc.segNum ≤ b.segCount)
    (hcur : PlaceOk b rc rc.segNum) : (getRmppSegment b rc : ℤ) = rc.segNum := by
  obtain ⟨n, hn⟩ : ∃ n : ℕ, rc.segNum = n := ⟨rc.segNum.toNat, by omega⟩
  have hlt := b.segCountLt
  rw [hn] at h₁ h₂ hcur
  have hn₁ : 1 ≤ n := by exact_mod_cast h₁
  have hn₂ : n ≤ b.segCount := by exact_mod_cast h₂
  have hn32 : toU 32 (n : ℤ) = n := by
    refine toU_of_lt ?_
    have : n < 2 ^ 31 := lt_of_le_of_lt hn₂ hlt
    omega
  have hmiss : ∀ i, 1 ≤ i → i ≠ n → decide (b.num rc.lastAckSeg i = n) = false := by
    intro i hi hne
    rw [num_of_pos hi]
    simpa using hne
  have hhit : decide (b.num rc.lastAckSeg n = n) = true := by
    rw [num_of_pos hn₁]
    simp
  unfold getRmppSegment
  simp only [hn, hn32]
  rcases hcur with ⟨hc₁, hc₂⟩ | ⟨hc, hhead⟩
  · rw [num_of_pos hc₁]
    rcases lt_trichotomy rc.curSeg n with hlt | heq | hgt
    · rw [if_pos hlt, ringSearch_next hlt hn₂ hhit fun i h₁ h₂ => hmiss i (by omega) (by omega)]
    · rw [if_neg (by omega), if_neg (by omega), heq]
    · rw [if_neg (by omega), if_pos hgt,
        ringSearch_prev hgt hc₂ hhit fun i h₁ h₂ => hmiss i (by omega) (by omega)]
  · rw [hc, if_pos (by exact_mod_cast hhead),
      ringSearch_next (by omega) hn₂ hhit fun i h₁ h₂ => hmiss i (by omega) (by omega)]

/-- A DATA MAD as it should be: its number is one of the message, and the payload is that of the
    segment of this number. -/
def TxOk (b : SendBuf) (t : Tx) : Prop :=
  ∃ n : ℕ, 1 ≤ n ∧ n ≤ b.segCount ∧ t.place = n ∧ t.seg = dataMad b n n

/-- STEP: what `send_next_seg` does when there is a next segment. -/
theorem sendNextSeg_spec (h₀ : 0 ≤ rc.segNum) (hlt : rc.segNum < b.segCount)
    (hcur : PlaceOk b rc (rc.segNum + 1)) :
    (sendNextSeg b rc env).1.segNum = rc.segNum + 1 ∧
      (sendNextSeg b rc env).1.newwin = rc.newwin ∧
      (sendNextSeg b rc env).1.lastAck = rc.lastAck ∧
      (sendNextSeg b rc env).1.lastAckSeg = rc.lastAckSeg ∧
      (1 ≤ (sendNextSeg b rc env).1.curSeg ∧ (sendNextSeg b rc env).1.curSeg ≤ b.segCount ∨
        (sendNextSeg b rc env).1.curSeg = rc.curSeg ∧ (sendNextSeg b rc env).2 = none) ∧
      ∀ t, (sendNextSeg b rc env).2 = some t →
        TxOk b t ∧ t.place = rc.segNum + 1 ∧ t.newwin = rc.newwin := by
  have hcount : (b.segCount : ℤ) < 2 ^ 31 := by exact_mod_cast b.segCountLt
  have hnext : toInt (rc.segNum + 1) = rc.segNum + 1 := toInt_of_range (by omega) (by omega)
  unfold sendNextSeg
  rw [hnext]
  have hplace : (getRmppSegment b (rc.setSegNum (rc.segNum + 1)) : ℤ) = rc.segNum + 1 :=
    @getRmppSegment_eq b (rc.setSegNum (rc.segNum + 1)) (by change 1 ≤ rc.segNum + 1; omega)
      (by change rc.segNum + 1 ≤ _; omega) hcur
  by_cases hh : env.headerOk
  · rw [if_neg (by simp [hh])]
    refine ⟨rfl, rfl, rfl, rfl, .inl ⟨?_, ?_⟩, ?_⟩
    · change 1 ≤ getRmppSegment b (rc.setSegNum (rc.segNum + 1))
      omega
    · change getRmppSegment b (rc.setSegNum (rc.segNum + 1)) ≤ b.segCount
      omega
    · intro t ht
      split_ifs at ht
      cases ht
      refine ⟨⟨getRmppSegment b (rc.setSegNum (rc.segNum + 1)), by omega, by omega, rfl, ?_⟩,
        hplace, rfl⟩
      rw [hplace]
      rfl
  · rw [if_pos (by simp [hh])]
    exact ⟨rfl, rfl, rfl, rfl, .inr ⟨rfl, rfl⟩, fun t ht => by cases ht⟩

/-- `rc` after an ACK that is neither old nor too big. -/
def ackRc (b : SendBuf) (rc : RmppControl) (segNum newwin : ℤ) : RmppControl :=
  (if rc.lastAck < segNum then adjustLastAck b rc segNum else rc).setNewwin newwin

/-- `last_ack_seg` is the element numbered `last_ack`, or the first one. After an ACK of segment 1 it
    may be the head, if the number there is 1 by accident. -/
def AckSeg (b : SendBuf) (rc : RmppControl) : Prop :=
  (rc.lastAckSeg : ℤ) = max 1 rc.lastAck ∨ rc.lastAck = 1 ∧ rc.lastAckSeg = 0 ∧ b.addr 0 = 1

/-- What holds of the cursors whatever comes in. -/
structure RcInv (b : SendBuf) (rc : RmppControl) : Prop where
  lastAckNonneg : 0 ≤ rc.lastAck
  lastAckLe : rc.lastAck ≤ b.segCount
  segNumNonneg : 0 ≤ rc.segNum
  segNumLe : rc.segNum ≤ b.segCount
  curPos : 1 ≤ rc.curSeg
  curLe : rc.curSeg ≤ b.segCount
  ackSeg : AckSeg b rc

/-- `adjust_last_ack` goes to the element of the number. -/
theorem adjustLastAck_ackSeg {segNum : ℤ} (inv : RcInv b rc) (hlt : rc.lastAck < segNum)
    (hle : segNum ≤ b.segCount) : AckSeg b (adjustLastAck b rc segNum) := by
  have h₀ := inv.lastAckNonneg
  obtain ⟨n, rfl⟩ : ∃ n : ℕ, segNum = n := ⟨segNum.toNat, by omega⟩
  have hn : n ≤ b.segCount := by exact_mod_cast hle
  have hn₁ : 1 ≤ n := by omega
  have hn32 : toU 32 (n : ℤ) = n := by
    refine toU_of_lt ?_
    have : n < 2 ^ 31 := lt_of_le_of_lt hn b.segCountLt
    omega
  unfold AckSeg adjustLastAck
  simp only [hn32]
  have hfound : ∀ i, 1 ≤ i → (decide (b.num 0 i = n) = true ↔ i = n) := by
    intro i hi
    rw [num_of_pos hi]
    simp
  have hforward (hq : rc.lastAckSeg < n) :
      ringSearch b.segCount (ringNext b.segCount) (fun i => decide (b.num 0 i = n))
        rc.lastAckSeg = n :=
    ringSearch_next hq hn ((hfound n hn₁).mpr rfl) fun i h₁ h₂ =>
      Bool.eq_false_iff.mpr fun h => absurd ((hfound i (by omega)).mp h) (by omega)
  rcases inv.ackSeg with hq | ⟨hone, hq, -⟩
  · by_cases hqn : rc.lastAckSeg < n
    · rw [hforward hqn]
      exact .inl (by omega)
    · -- the first ACK is for segment 1, where the cursor stands
      have hn1 : n = 1 := by omega
      rcases @ringSearch_or b.segCount rc.lastAckSeg (fun i => decide (b.num 0 i = n))
        (ringNext b.segCount) with h | h
      · rw [h]
        exact .inl (by omega)
      · rcases Nat.eq_zero_or_pos (ringSearch b.segCount (ringNext b.segCount)
          (fun i => decide (b.num 0 i = n)) rc.lastAckSeg) with hz | hpos
        · rw [hz] at h ⊢
          refine .inr ⟨by omega, rfl, ?_⟩
          simpa [SendBuf.num, hn1] using h
        · rw [(hfound _ hpos).mp h]
          exact .inl (by omega)
  · rw [hforward (by omega)]
    exact .inl (by omega)

/-- STEP: an ACK. -/
theorem RcInv.ack (inv : RcInv b rc) {segNum newwin : ℤ} (hle : segNum ≤ b.segCount) :
    RcInv b (ackRc b rc segNum newwin) := by
  unfold ackRc
  split_ifs with h
  · exact ⟨inv.lastAckNonneg.trans h.le, hle, inv.segNumNonneg, inv.segNumLe, inv.curPos,
      inv.curLe, adjustLastAck_ackSeg inv h hle⟩
  · exact { inv with }

/-- STEP: the next segment. -/
theorem RcInv.next (inv : RcInv b rc) (hne : rc.segNum ≠ b.segCount) :
    RcInv b (sendNextSeg b rc env).1 ∧ ∀ t, (sendNextSeg b rc env).2 = some t → TxOk b t := by
  have hle := inv.segNumLe
  obtain ⟨hseg, -, hack, hackseg, hcur, ht⟩ := @sendNextSeg_spec b rc env inv.segNumNonneg
    (by omega) (.inl ⟨inv.curPos, inv.curLe⟩)
  have hcur' : 1 ≤ (sendNextSeg b rc env).1.curSeg ∧
      (sendNextSeg b rc env).1.curSeg ≤ b.segCount := by
    rcases hcur with h | ⟨h, -⟩
    · exact h
    · exact h ▸ ⟨inv.curPos, inv.curLe⟩
  have hseg₀ := inv.segNumNonneg
  refine ⟨⟨?_, ?_, by omega, by omega, hcur'.1, hcur'.2, ?_⟩, fun t h => (ht t h).1⟩
  · exact hack ▸ inv.lastAckNonneg
  · exact hack ▸ inv.lastAckLe
  · unfold AckSeg
    rw [hack, hackseg]
    exact inv.ackSeg

/-- STEP: the first segment after `last_ack` again. -/
theorem RcInv.retry (inv : RcInv b rc) (hne : rc.lastAck ≠ b.segCount) :
    ((sendNextSeg b rc.rewind env).2 ≠ none ∨ rc.lastAckSeg ≠ 0 →
        RcInv b (sendNextSeg b rc.rewind env).1) ∧
      ∀ t, (sendNextSeg b rc.rewind env).2 = some t → TxOk b t := by
  have h₀ := inv.lastAckNonneg
  have hle := inv.lastAckLe
  have hplace : PlaceOk b rc.rewind (rc.rewind.segNum + 1) := by
    change 1 ≤ rc.lastAckSeg ∧ rc.lastAckSeg ≤ b.segCount ∨
      rc.lastAckSeg = 0 ∧ (b.num rc.lastAckSeg 0 : ℤ) < rc.lastAck + 1
    rcases inv.ackSeg with hq | ⟨hone, hq, haddr⟩
    · exact .inl (by omega)
    · -- the head, which bears the number 1
      refine .inr ⟨hq, ?_⟩
      rw [hq, hone]
      unfold SendBuf.num
      rw [if_pos rfl, haddr]
      norm_num
  obtain ⟨hseg, -, hack, hackseg, hcur, ht⟩ := @sendNextSeg_spec b rc.rewind env h₀
    (by change rc.lastAck < _; omega) hplace
  change _ = rc.lastAck + 1 at hseg
  refine ⟨fun hsome => ?_, fun t h => (ht t h).1⟩
  have hcur' : 1 ≤ (sendNextSeg b rc.rewind env).1.curSeg ∧
      (sendNextSeg b rc.rewind env).1.curSeg ≤ b.segCount := by
    rcases hcur with h | ⟨hsame, hnone⟩
    · exact h
    · have hq : rc.lastAckSeg ≠ 0 := hsome.resolve_left fun h => h hnone
      rcases hplace with h | ⟨h, -⟩
      · exact hsame ▸ h
      · exact absurd h hq
  refine ⟨?_, ?_, by omega, by omega, hcur'.1, hcur'.2, ?_⟩
  · exact hack ▸ h₀
  · exact hack ▸ hle
  · unfold AckSeg
    rw [hack, hackseg]
    exact inv.ackSeg

end Cursors

/-! ### What a call does to the cursors -/

section Calls

variable {b : SendBuf} {wr : SendWr}

/-- `process_rmpp_ack` takes the numbers of the ACK. -/
structure AckTaken (b : SendBuf) (wr : SendWr) (ack : Ack) : Prop where
  status : ack.rmppStatus = 0
  found : wr.found = true
  timeout : wr.timeout = true
  notLast : wr.rc.lastAck ≠ b.segCount
  leCount : toInt ack.segNum ≤ b.segCount
  leNewwin : toInt ack.segNum ≤ wr.rc.newwin
  newwinLe : wr.rc.newwin ≤ toInt ack.newwin
  notOld : wr.rc.lastAck ≤ toInt ack.segNum

/-- A timeout makes `retry_send` send again. -/
structure Retries (b : SendBuf) (wr : SendWr) : Prop where
  list : wr.list = .wait
  status : wr.status = .success
  left : wr.retriesLeft ≠ 0
  notLast : wr.rc.lastAck ≠ b.segCount

/-- Everything an action can do to the cursors, and the DATA MAD that it sends. -/
inductive Effect (b : SendBuf) (wr : SendWr) (a : SendAct) (p : SendWr × SendOut) : Prop where
  | keep (hrc : p.1.rc = wr.rc) (htx : p.2.tx = none)
  | next (env : SendEnv) (hlive : wr.list ≠ .gone) (hwin : wr.rc.segNum ≠ wr.rc.newwin)
      (hcount : wr.rc.segNum ≠ b.segCount) (hrc : p.1.rc = (sendNextSeg b wr.rc env).1)
      (htx : p.2.tx = (sendNextSeg b wr.rc env).2)
  | ack (m : Ack) (env : SendEnv) (ha : a = .ack m env) (htaken : AckTaken b wr m)
      (hrc : p.1.rc = ackRc b wr.rc (toInt m.segNum) (toInt m.newwin)) (htx : p.2.tx = none)
  | ackNext (m : Ack) (env : SendEnv) (ha : a = .ack m env) (htaken : AckTaken b wr m)
      (hwin : wr.rc.segNum < toInt m.newwin) (hcount : wr.rc.segNum < b.segCount)
      (hrc : p.1.rc = (sendNextSeg b (ackRc b wr.rc (toInt m.segNum) (toInt m.newwin)) env).1)
      (htx : p.2.tx = (sendNextSeg b (ackRc b wr.rc (toInt m.segNum) (toInt m.newwin)) env).2)
  | retry (env : SendEnv) (ha : a = .timeout env) (hretry : Retries b wr)
      (hrc : p.1.rc = (sendNextSeg b wr.rc.rewind env).1)
      (htx : p.2.tx = (sendNextSeg b wr.rc.rewind env).2)
      (hgone : p.2.tx = none → p.1.list = .gone)

theorem putSendWr_rc (wr : SendWr) (status : WcStatus) : (putSendWr wr status).1.rc = wr.rc := by
  unfold putSendWr
  dsimp only
  split_ifs <;> rfl

section
variable (b : SendBuf) (wr : SendWr)

theorem ibProcessRmppSendWc_cases (status : WcStatus) (env : SendEnv) :
    ((ibProcessRmppSendWc b wr status env).wr.rc = wr.rc ∧
      (ibProcessRmppSendWc b wr status env).tx = none) ∨
    (status = .success ∧ wr.timeout = true ∧ wr.rc.segNum ≠ wr.rc.newwin ∧
      wr.rc.segNum ≠ b.segCount ∧
      (ibProcessRmppSendWc b wr status env).wr.rc = (sendNextSeg b wr.rc env).1 ∧
      (ibProcessRmppSendWc b wr status env).tx = (sendNextSeg b wr.rc env).2) := by
  unfold ibProcessRmppSendWc
  dsimp only
  split_ifs with h₁ h₂ h₃ h₄ h₅
  · exact .inl ⟨rfl, rfl⟩
  · exact .inl ⟨rfl, rfl⟩
  · exact .inl ⟨rfl, rfl⟩
  · exact .inl ⟨rfl, rfl⟩
  all_goals
    push Not at h₁ h₄
    refine .inr ⟨h₁.1, by simpa using h₂, h₄.1, h₄.2, rfl, ?_⟩
  · exact (Option.isNone_iff_eq_none.mp h₅).symm
  · rfl

/-- A completion goes on with the next segment or leaves the cursors alone. -/
theorem ibMadCompleteSendWr_cases (status : WcStatus) (env : SendEnv) :
    ((ibMadCompleteSendWr b wr status env).1.rc = wr.rc ∧
      (ibMadCompleteSendWr b wr status env).2.tx = none) ∨
    (status = .success ∧ wr.timeout = true ∧ wr.rc.segNum ≠ wr.rc.newwin ∧
      wr.rc.segNum ≠ b.segCount ∧
      (ibMadCompleteSendWr b wr status env).1.rc = (sendNextSeg b wr.rc env).1 ∧
      (ibMadCompleteSendWr b wr status env).2.tx = (sendNextSeg b wr.rc env).2) := by
  have h := ibProcessRmppSendWc_cases b wr status env
  unfold ibMadCompleteSendWr
  dsimp only
  split_ifs with hc
  · exact h
  · rw [putSendWr_rc]
    exact h

/-- A send that is marked done sends nothing more. -/
theorem complete_done (status : WcStatus) (env : SendEnv) :
    (ibMadCompleteSendWr b (ibMarkMadDone wr) status env).1.rc = wr.rc ∧
      (ibMadCompleteSendWr b (ibMarkMadDone wr) status env).2.tx = none := by
  rcases ibMadCompleteSendWr_cases b (ibMarkMadDone wr) status env with h | ⟨-, h, -⟩
  · exact h
  · cases h

theorem abortSend_rc (env : SendEnv) :
    (abortSend b wr env).1.rc = wr.rc ∧ (abortSend b wr env).2.tx = none := by
  unfold abortSend
  split_ifs
  · exact ⟨rfl, rfl⟩
  · exact ⟨rfl, rfl⟩
  · exact complete_done b wr .remAbortErr env

theorem completeResponse_rc (env : SendEnv) :
    (completeResponse b wr env).1.rc = wr.rc ∧ (completeResponse b wr env).2.tx = none := by
  unfold completeResponse
  split_ifs
  · exact complete_done b wr .success env
  · exact ⟨rfl, rfl⟩

theorem lastAck_rc (env : SendEnv) :
    (lastAck b wr env).1.rc = wr.rc ∧ (lastAck b wr env).2.tx = none := by
  unfold lastAck
  split_ifs
  · exact complete_done b wr .success env
  · exact ⟨rfl, rfl⟩
  · exact ⟨rfl, rfl⟩

end

/-- The send with the numbers of the ACK. -/
def SendWr.acked (b : SendBuf) (wr : SendWr) (segNum newwin : ℤ) : SendWr :=
  (if wr.rc.lastAck < segNum then
      { wr with rc := adjustLastAck b wr.rc segNum, retriesLeft := b.retries }
    else wr).setRc (ackRc b wr.rc segNum newwin)

section
variable (b : SendBuf)

theorem newAck_eq (wr : SendWr) (segNum newwin : ℤ) (env : SendEnv) :
    newAck b wr segNum newwin env = let u := wr.acked b segNum newwin
      if u.rc.lastAck = b.segCount then lastAck b u env
      else if u.refcount = 1 ∧ u.rc.segNum < u.rc.newwin ∧ u.rc.segNum < b.segCount then
        let p := u.sendNext b env
        (if p.2.isNone then p.1 else { p.1 with refcount := p.1.refcount + 1, list := .send },
          ⟨p.2, none, none, false⟩)
      else (u, .nothing) := by
  unfold newAck SendWr.acked ackRc
  by_cases h : wr.rc.lastAck < segNum
  · simp only [if_pos h]
  · simp only [if_neg h]

theorem ackRc_fields (rc : RmppControl) (segNum newwin : ℤ) :
    (ackRc b rc segNum newwin).newwin = newwin ∧ (ackRc b rc segNum newwin).segNum = rc.segNum ∧
      (ackRc b rc segNum newwin).curSeg = rc.curSeg ∧
      (ackRc b rc segNum newwin).lastAck = max rc.lastAck segNum := by
  unfold ackRc
  split_ifs with h
  · exact ⟨rfl, rfl, rfl, (max_eq_right h.le).symm⟩
  · exact ⟨rfl, rfl, rfl, (max_eq_left (not_lt.mp h)).symm⟩

theorem newAck_cases (wr : SendWr) (segNum newwin : ℤ) (env : SendEnv) :
    ((newAck b wr segNum newwin env).1.rc = ackRc b wr.rc segNum newwin ∧
      (newAck b wr segNum newwin env).2.tx = none) ∨
    (wr.rc.segNum < newwin ∧ wr.rc.segNum < b.segCount ∧ (newAck b wr segNum newwin env).1.rc =
        (sendNextSeg b (ackRc b wr.rc segNum newwin) env).1 ∧
      (newAck b wr segNum newwin env).2.tx =
        (sendNextSeg b (ackRc b wr.rc segNum newwin) env).2) := by
  obtain ⟨hnew, hseg, -, -⟩ := ackRc_fields b wr.rc segNum newwin
  have hrc : (wr.acked b segNum newwin).rc = ackRc b wr.rc segNum newwin := rfl
  rw [newAck_eq]
  dsimp only
  rw [← hrc] at hnew hseg ⊢
  generalize wr.acked b segNum newwin = u at *
  split_ifs with h₁ h₂ h₃
  · exact .inl (lastAck_rc b u env)
  · exact .inr ⟨by omega, by omega, rfl, rfl⟩
  · exact .inr ⟨by omega, by omega, rfl, rfl⟩
  · exact .inl ⟨rfl, rfl⟩

theorem processRmppAck_effect (wr : SendWr) (m : Ack) (env : SendEnv) :
    Effect b wr (.ack m env) (processRmppAck b wr m env) := by
  have hkeep := abortSend_rc b wr env
  unfold processRmppAck
  by_cases h₁ : m.rmppStatus ≠ 0
  · rw [if_pos h₁]
    exact .keep hkeep.1 hkeep.2
  rw [if_neg h₁]
  by_cases h₂ : toInt m.newwin < toInt m.segNum
  · rw [if_pos h₂]
    exact .keep hkeep.1 hkeep.2
  rw [if_neg h₂]
  by_cases h₃ : wr.found = true
  case neg =>
    rw [if_pos (by simpa using h₃)]
    exact .keep rfl rfl
  rw [if_neg (by simp [h₃])]
  by_cases h₄ : wr.rc.lastAck = b.segCount ∧ wr.timeout = true
  · rw [if_pos h₄]
    exact .keep rfl rfl
  rw [if_neg h₄]
  by_cases h₅ : wr.alreadyDone b = true
  · rw [if_pos h₅]
    exact .keep rfl rfl
  rw [if_neg h₅]
  by_cases h₆ : (b.segCount : ℤ) < toInt m.segNum ∨ wr.rc.newwin < toInt m.segNum
  · rw [if_pos h₆]
    exact .keep hkeep.1 hkeep.2
  rw [if_neg h₆]
  split_ifs with h₇
  · exact .keep rfl rfl
  push Not at h₁ h₆ h₇
  have hdone : wr.rc.lastAck ≠ b.segCount ∧ wr.timeout = true := by
    unfold SendWr.alreadyDone at h₅
    simp only [decide_eq_true_eq, not_or] at h₅
    exact ⟨h₅.1, by simpa using h₅.2.1⟩
  have htaken : AckTaken b wr m :=
    ⟨h₁, h₃, hdone.2, hdone.1, h₆.1, h₆.2, h₇.1, h₇.2⟩
  rcases newAck_cases b wr (toInt m.segNum) (toInt m.newwin) env with ⟨hrc, htx⟩ |
    ⟨hwin, hcount, hrc, htx⟩
  · exact .ack m env rfl htaken hrc htx
  · exact .ackNext m env rfl htaken hwin hcount hrc htx

/-- A retry fails before it sends or begins again behind `last_ack`. -/
theorem retrySend_cases (wr : SendWr) (env : SendEnv) :
    ((retrySend b wr env).1.rc = wr.rc ∧ (retrySend b wr env).2 = none) ∨
    (wr.retriesLeft ≠ 0 ∧ wr.rc.lastAck ≠ b.segCount ∧
      (retrySend b wr env).1.rc = (sendNextSeg b wr.rc.rewind env).1 ∧
      (retrySend b wr env).2 = (sendNextSeg b wr.rc.rewind env).2) := by
  unfold retrySend
  split_ifs with h₁
  · exact .inl ⟨rfl, rfl⟩
  dsimp only
  by_cases h₂ : wr.rc.lastAck = b.segCount
  · rw [if_pos h₂]
    exact .inl ⟨rfl, rfl⟩
  rw [if_neg h₂]
  refine .inr ⟨h₁, h₂, ?_, rfl⟩
  split_ifs
  · rfl
  · rfl

theorem timeoutSends_effect (wr : SendWr) (env : SendEnv) :
    Effect b wr (.timeout env) (timeoutSends b wr env) := by
  have hcases := retrySend_cases b wr env
  unfold timeoutSends
  by_cases h₁ : wr.list ≠ .wait
  · rw [if_pos h₁]
    exact .keep rfl rfl
  rw [if_neg h₁]
  push Not at h₁
  by_cases h₂ : wr.status = .success
  case neg =>
    rw [if_neg h₂]
    exact .keep rfl rfl
  rw [if_pos h₂]
  generalize retrySend b wr env = p at *
  by_cases hsome : p.2.isSome
  · rw [if_pos hsome]
    rcases hcases with ⟨-, htx⟩ | ⟨h₃, h₄, hrc, htx⟩
    · rw [htx] at hsome
      cases hsome
    · refine .retry env rfl ⟨h₁, h₂, h₃, h₄⟩ hrc htx fun hnone => ?_
      dsimp only at hnone
      rw [hnone] at hsome
      cases hsome
  · rw [if_neg hsome]
    rcases hcases with ⟨hrc, -⟩ | ⟨h₃, h₄, hrc, htx⟩
    · exact .keep hrc rfl
    · rw [Option.not_isSome_iff_eq_none.mp hsome] at htx
      exact .retry env rfl ⟨h₁, h₂, h₃, h₄⟩ hrc htx fun _ => rfl

theorem runAct_effect (wr : SendWr) (a : SendAct) : Effect b wr a (runAct b wr a) := by
  cases a with
  | dsAck key ack => exact .keep rfl rfl
  | post hdr dlid env => exact .keep rfl rfl
  | sendDone status env =>
    change Effect b wr _ (sendDone b wr status env)
    unfold sendDone
    split_ifs with h
    · rcases ibMadCompleteSendWr_cases b { wr with posted := false } status env with
        ⟨hrc, htx⟩ | ⟨-, -, hwin, hcount, hrc, htx⟩
      · exact .keep hrc htx
      · exact .next env h.2 hwin hcount hrc htx
    · exact .keep rfl rfl
  | ack m env => exact processRmppAck_effect b wr m env
  | response env => exact .keep (completeResponse_rc b wr env).1 (completeResponse_rc b wr env).2
  | abort env => exact .keep (abortSend_rc b wr env).1 (abortSend_rc b wr env).2
  | timeout env => exact timeoutSends_effect b wr env

theorem abortSend_lost (env : SendEnv) (h : wr.found = false) :
    abortSend b wr env = (wr, .nothing) := by
  unfold abortSend
  rw [if_pos (by simp [h])]

/-- An ACK that finds no send. -/
theorem processRmppAck_lost (m : Ack) (env : SendEnv) (h : wr.found = false) :
    ∃ nack, processRmppAck b wr m env = (wr, ⟨none, none, nack, false⟩) := by
  unfold processRmppAck abortNack
  rw [abortSend_lost b env h]
  by_cases h₁ : m.rmppStatus ≠ 0
  · rw [if_pos h₁]
    exact ⟨_, rfl⟩
  rw [if_neg h₁]
  by_cases h₂ : toInt m.newwin < toInt m.segNum
  · rw [if_pos h₂]
    exact ⟨_, rfl⟩
  rw [if_neg h₂, if_pos (by simp [h])]
  exact ⟨_, rfl⟩

/-- A send that is done stays as it is. -/
theorem runAct_gone (h : wr.list = .gone) (a : SendAct) :
    (runAct b wr a).1 = wr ∧ (runAct b wr a).2.tx = none ∧ (runAct b wr a).2.report = none := by
  have hfound : wr.found = false := by
    unfold SendWr.found
    rw [h]
  cases a with
  | dsAck key ack => exact ⟨rfl, rfl, rfl⟩
  | post hdr dlid env => exact ⟨rfl, rfl, rfl⟩
  | sendDone status env =>
    have hrun : runAct b wr (.sendDone status env) = (wr, .nothing) := if_neg (by simp [h])
    rw [hrun]
    exact ⟨rfl, rfl, rfl⟩
  | ack m env =>
    obtain ⟨nack, hrun⟩ := processRmppAck_lost b m env hfound
    have hrun' : runAct b wr (.ack m env) = (wr, ⟨none, none, nack, false⟩) := hrun
    rw [hrun']
    exact ⟨rfl, rfl, rfl⟩
  | response env =>
    have hrun : runAct b wr (.response env) = (wr, .nothing) := if_neg (by simp [hfound])
    rw [hrun]
    exact ⟨rfl, rfl, rfl⟩
  | abort env =>
    have hrun : runAct b wr (.abort env) = (wr, .nothing) := abortSend_lost b env hfound
    rw [hrun]
    exact ⟨rfl, rfl, rfl⟩
  | timeout env =>
    have hrun : runAct b wr (.timeout env) = (wr, .nothing) := if_pos (by simp [h])
    rw [hrun]
    exact ⟨rfl, rfl, rfl⟩

end

end Calls

/-! ### What every run keeps -/

/-- What holds whatever comes in. -/
structure SendInv (b : SendBuf) (w : SendWorld) : Prop where
  rc : ∀ wr, w.wr = some wr → wr.list ≠ .gone → RcInv b wr.rc
  tx : ∀ t ∈ w.sent, TxOk b t

/-- Nothing posted yet. -/
def sendInit (rmppList : List (RecvKey × Recv)) : SendWorld := ⟨rmppList, none, []⟩

theorem RcInv.new (b : SendBuf) (newwin : ℤ) : RcInv b (newSendWr b newwin).rc := by
  have hpos : 1 ≤ b.segCount := b.segCountPos
  exact ⟨le_rfl, Int.natCast_nonneg _, le_rfl, Int.natCast_nonneg _, le_rfl, hpos, .inl rfl⟩

theorem ibSendRmppMad_rc (b : SendBuf) (newwin : ℤ) (env : SendEnv) :
    (ibSendRmppMad b newwin env).1.rc = (sendNextSeg b (newSendWr b newwin).rc env).1 ∧
      (ibSendRmppMad b newwin env).2.tx = (sendNextSeg b (newSendWr b newwin).rc env).2 := by
  refine ⟨?_, rfl⟩
  unfold ibSendRmppMad
  dsimp only
  split_ifs
  · rfl
  · rfl

theorem mem_sent {sent : List Tx} {tx : Option Tx} {t : Tx} :
    t ∈ sent ++ tx.toList ↔ t ∈ sent ∨ tx = some t := by
  cases tx with
  | none => simp
  | some u => simp [eq_comm]

/-- STEP: one call, on a send that is not done yet. -/
theorem RcInv.run {b : SendBuf} {wr : SendWr} (inv : RcInv b wr.rc) (a : SendAct) :
    ((runAct b wr a).1.list ≠ .gone → RcInv b (runAct b wr a).1.rc) ∧
      ∀ t, (runAct b wr a).2.tx = some t → TxOk b t := by
  cases runAct_effect b wr a with
  | keep hrc htx =>
    rw [hrc, htx]
    exact ⟨fun _ => inv, fun t ht => by cases ht⟩
  | next env hlive hwin hcount hrc htx =>
    rw [hrc, htx]
    obtain ⟨hinv, ht⟩ := @RcInv.next b wr.rc env inv hcount
    exact ⟨fun _ => hinv, ht⟩
  | ack m env ha htaken hrc htx =>
    rw [hrc, htx]
    exact ⟨fun _ => inv.ack htaken.leCount, fun t ht => by cases ht⟩
  | ackNext m env ha htaken hwin hcount hrc htx =>
    rw [hrc, htx]
    have hack := @RcInv.ack b wr.rc inv _ (toInt m.newwin) htaken.leCount
    obtain ⟨-, hseg, -, -⟩ := ackRc_fields b wr.rc (toInt m.segNum) (toInt m.newwin)
    have hne : (ackRc b wr.rc (toInt m.segNum) (toInt m.newwin)).segNum ≠ b.segCount := by
      rw [hseg]
      exact ne_of_lt hcount
    obtain ⟨hinv, ht⟩ := @RcInv.next b _ env hack hne
    exact ⟨fun _ => hinv, ht⟩
  | retry env ha hretry hrc htx hgone =>
    obtain ⟨hinv, ht⟩ := @RcInv.retry b wr.rc env inv hretry.notLast
    rw [hrc, htx]
    refine ⟨fun hlist => hinv (.inl fun hnone => hlist (hgone (htx.trans hnone))), ht⟩

theorem SendInv.onSend {b : SendBuf} {w : SendWorld} (inv : SendInv b w) (a : SendAct) :
    SendInv b (w.onSend fun wr => runAct b wr a) := by
  unfold SendWorld.onSend
  cases hwr : w.wr with
  | none => exact inv
  | some wr =>
    dsimp only
    by_cases hgone : wr.list = .gone
    · obtain ⟨hrun, htx, -⟩ := runAct_gone b hgone a
      rw [hrun, htx, Option.toList_none, List.append_nil]
      refine ⟨fun wr' hwr' hlive => ?_, inv.tx⟩
      cases hwr'
      exact absurd hgone hlive
    · obtain ⟨hinv, ht⟩ := RcInv.run (inv.rc wr hwr hgone) a
      refine ⟨fun wr' hwr' hlive => ?_, fun t hmem => ?_⟩
      · cases hwr'
        exact hinv hlive
      · exact (mem_sent.mp hmem).elim (inv.tx t) (ht t)

theorem SendInv.step {b : SendBuf} {w : SendWorld} (inv : SendInv b w) (a : SendAct) :
    SendInv b (sendStep b w a) := by
  cases a with
  | dsAck key ack => exact ⟨inv.rc, inv.tx⟩
  | post hdr dlid env =>
    unfold sendStep
    cases hwr : w.wr with
    | some wr => exact inv
    | none =>
      obtain ⟨hrc, htx⟩ := ibSendRmppMad_rc b (initNewwin hdr dlid w.rmppList) env
      have hne : (newSendWr b (initNewwin hdr dlid w.rmppList)).rc.segNum ≠ b.segCount := by
        have hpos : 1 ≤ b.segCount := b.segCountPos
        change (0 : ℤ) ≠ b.segCount
        omega
      obtain ⟨hinv, ht⟩ :=
        @RcInv.next b _ env (RcInv.new b (initNewwin hdr dlid w.rmppList)) hne
      refine ⟨fun wr hwr' _ => ?_, fun t hmem => ?_⟩
      · cases hwr'
        rw [hrc]
        exact hinv
      · exact (mem_sent.mp hmem).elim (inv.tx t) fun h => ht t (htx ▸ h)
  | sendDone status env => exact inv.onSend _
  | ack m env => exact inv.onSend _
  | response env => exact inv.onSend _
  | abort env => exact inv.onSend _
  | timeout env => exact inv.onSend _

/-! ### The window -/

/-- The highest segment number sent so far. -/
def highest (sent : List Tx) : ℕ := (sent.map fun t => t.seg.segNum).foldr max 0

/-- The steps in which the sender keeps to its window: a window that is open at the beginning and
    whenever a retry sends again, ACKs of segments that were sent. An ACK of segment 1 must not find
    its number at the head of the list. -/
def sendOk (b : SendBuf) (w : SendWorld) : SendAct → Prop
  | .post hdr dlid _ => w.wr = none → 1 ≤ initNewwin hdr dlid w.rmppList
  | .ack m _ => ∀ wr, w.wr = some wr → AckTaken b wr m →
      toInt m.segNum ≤ highest w.sent ∧ (wr.rc.lastAck = 0 → toInt m.segNum = 1 → b.addr 0 ≠ 1)
  | .timeout _ => ∀ wr, w.wr = some wr → Retries b wr → wr.rc.lastAck < wr.rc.newwin
  | _ => True

/-- What the cursors keep to in such a run; `high` is the highest number sent. -/
structure WinInv (b : SendBuf) (high : ℕ) (rc : RmppControl) : Prop where
  cursors : RcInv b rc
  newwinPos : 1 ≤ rc.newwin
  segNumLe : rc.segNum ≤ rc.newwin
  ackLe : rc.lastAck ≤ rc.newwin
  ackSent : rc.lastAck ≤ high
  exact : (rc.lastAckSeg : ℤ) = max 1 rc.lastAck

/-- A DATA MAD inside the window. -/
def InWindow (b : SendBuf) (t : Tx) : Prop := TxOk b t ∧ (t.place : ℤ) ≤ t.newwin

section Window

variable {b : SendBuf} {high : ℕ} {rc : RmppControl} {env : SendEnv}

section
variable (inv : WinInv b high rc)
include inv

theorem WinInv.mono {high' : ℕ} (h : high ≤ high') : WinInv b high' rc :=
  { inv with ackSent := inv.ackSent.trans (by exact_mod_cast h) }

/-- STEP: an ACK of a segment that was sent. -/
theorem WinInv.ack {segNum newwin : ℤ} (hcount : segNum ≤ b.segCount)
    (hwin : segNum ≤ newwin) (hnew : rc.newwin ≤ newwin) (hsent : segNum ≤ high)
    (haddr : rc.lastAck = 0 → segNum = 1 → b.addr 0 ≠ 1) :
    WinInv b high (ackRc b rc segNum newwin) := by
  have hinv := @RcInv.ack b rc inv.cursors segNum newwin hcount
  have h₁ := inv.newwinPos
  have h₂ := inv.segNumLe
  have h₃ := inv.ackLe
  have h₄ := inv.ackSent
  have h₅ := inv.exact
  have h₆ := inv.cursors.lastAckNonneg
  obtain ⟨hn, hs, -, ha⟩ := ackRc_fields b rc segNum newwin
  refine ⟨hinv, by omega, by omega, by omega, by omega, ?_⟩
  refine hinv.ackSeg.resolve_right fun ⟨hone, hq, haddr'⟩ => ?_
  -- the cursor left segment 1 for the head: only an ACK of segment 1 does that
  by_cases hlt : rc.lastAck < segNum
  · exact haddr (by omega) (by omega) haddr'
  · have hsame : (ackRc b rc segNum newwin).lastAckSeg = rc.lastAckSeg := by
      unfold ackRc
      rw [if_neg hlt]
      rfl
    omega

/-- STEP: the next segment, when the window is open. -/
theorem WinInv.next (hcount : rc.segNum ≠ b.segCount) (hwin : rc.segNum ≠ rc.newwin) :
    WinInv b high (sendNextSeg b rc env).1 ∧
      ∀ t, (sendNextSeg b rc env).2 = some t → InWindow b t := by
  have h₁ := inv.cursors.segNumNonneg
  have h₂ := inv.cursors.segNumLe
  have h₃ := inv.segNumLe
  obtain ⟨hinv, -⟩ := @RcInv.next b rc env inv.cursors hcount
  obtain ⟨hs, hn, ha, hq, -, ht⟩ := @sendNextSeg_spec b rc env h₁ (by omega)
    (.inl ⟨inv.cursors.curPos, inv.cursors.curLe⟩)
  refine ⟨⟨hinv, ?_, by omega, ?_, ?_, ?_⟩, fun t h => ⟨(ht t h).1, ?_⟩⟩
  · exact hn ▸ inv.newwinPos
  · exact hn ▸ ha ▸ inv.ackLe
  · exact ha ▸ inv.ackSent
  · rw [hq, ha]
    exact inv.exact
  · obtain ⟨-, hplace, hnew⟩ := ht t h
    omega

/-- `seg_num` and `cur_seg` at the last ACK. -/
theorem WinInv.rewind : WinInv b high rc.rewind := by
  have h₁ := inv.cursors.lastAckNonneg
  have h₂ := inv.cursors.lastAckLe
  have h₃ := inv.exact
  have hpos : 1 ≤ b.segCount := b.segCountPos
  refine ⟨⟨h₁, h₂, h₁, h₂, ?_, ?_, inv.cursors.ackSeg⟩, inv.newwinPos, inv.ackLe, inv.ackLe,
    inv.ackSent, h₃⟩
  · change 1 ≤ rc.lastAckSeg
    omega
  · change rc.lastAckSeg ≤ b.segCount
    omega

end

theorem highest_append (sent : List Tx) (tx : Option Tx) :
    highest sent ≤ highest (sent ++ tx.toList) := by
  unfold highest
  induction sent with
  | nil => exact Nat.zero_le _
  | cons t l ih =>
    simp only [List.cons_append]
    exact max_le_max le_rfl ih

/-- STEP: one call on the send. -/
theorem WinInv.run {w : SendWorld} {wr : SendWr} (inv : WinInv b (highest w.sent) wr.rc)
    (hwr : w.wr = some wr) {a : SendAct} (hok : sendOk b w a) :
    WinInv b (highest w.sent) (runAct b wr a).1.rc ∧
      ∀ t, (runAct b wr a).2.tx = some t → InWindow b t := by
  cases runAct_effect b wr a with
  | keep hrc htx =>
    rw [hrc, htx]
    exact ⟨inv, fun t ht => by cases ht⟩
  | next env hlive hwin hcount hrc htx =>
    rw [hrc, htx]
    exact inv.next hcount hwin
  | ack m env ha htaken hrc htx =>
    rw [hrc, htx]
    subst ha
    obtain ⟨hsent, haddr⟩ := hok wr hwr htaken
    refine ⟨inv.ack htaken.leCount ?_ htaken.newwinLe hsent haddr, fun t ht => by cases ht⟩
    exact htaken.leNewwin.trans htaken.newwinLe
  | ackNext m env ha htaken hwin hcount hrc htx =>
    rw [hrc, htx]
    subst ha
    obtain ⟨hsent, haddr⟩ := hok wr hwr htaken
    have hack := inv.ack htaken.leCount (htaken.leNewwin.trans htaken.newwinLe)
      htaken.newwinLe hsent haddr
    obtain ⟨hn, hs, -, -⟩ := ackRc_fields b wr.rc (toInt m.segNum) (toInt m.newwin)
    refine hack.next ?_ ?_
    · rw [hs]
      exact ne_of_lt hcount
    · rw [hs, hn]
      exact ne_of_lt hwin
  | retry env ha hretry hrc htx hgone =>
    rw [hrc, htx]
    subst ha
    exact inv.rewind.next hretry.notLast (ne_of_lt (hok wr hwr hretry))

end Window

/-- What holds in a run in which the sender keeps to its window. -/
structure WindowInv (b : SendBuf) (w : SendWorld) : Prop where
  rc : ∀ wr, w.wr = some wr → WinInv b (highest w.sent) wr.rc
  tx : ∀ t ∈ w.sent, InWindow b t

theorem WindowInv.onSend {b : SendBuf} {w : SendWorld} (inv : WindowInv b w) {a : SendAct}
    (hok : sendOk b w a) : WindowInv b (w.onSend fun wr => runAct b wr a) := by
  unfold SendWorld.onSend
  cases hwr : w.wr with
  | none => exact inv
  | some wr =>
    obtain ⟨hinv, ht⟩ := (inv.rc wr hwr).run hwr hok
    refine ⟨fun wr' hwr' => ?_, fun t hmem => (mem_sent.mp hmem).elim (inv.tx t) (ht t)⟩
    cases hwr'
    exact hinv.mono (highest_append _ _)

theorem WindowInv.post {b : SendBuf} {w : SendWorld} (inv : WindowInv b w) {hdr : MadHdr}
    {dlid : Option ℕ} {env : SendEnv} (hok : sendOk b w (.post hdr dlid env)) :
    WindowInv b (sendStep b w (.post hdr dlid env)) := by
  unfold sendStep
  cases hwr : w.wr with
  | some wr => exact inv
  | none =>
    have hwin := hok hwr
    have hpos : 1 ≤ b.segCount := b.segCountPos
    dsimp only
    generalize initNewwin hdr dlid w.rmppList = newwin at *
    obtain ⟨hrc, htx⟩ := ibSendRmppMad_rc b newwin env
    have hnew : WinInv b (highest w.sent) (newSendWr b newwin).rc :=
      ⟨RcInv.new b newwin, hwin, Int.zero_le_ofNat 1 |>.trans hwin, Int.zero_le_ofNat 1 |>.trans hwin,
        Int.natCast_nonneg _, rfl⟩
    obtain ⟨hinv, ht⟩ := @WinInv.next b _ _ env hnew (by change (0 : ℤ) ≠ _; omega)
      (by change (0 : ℤ) ≠ newwin; omega)
    refine ⟨fun wr hwr' => ?_, fun t hmem => ?_⟩
    · cases hwr'
      rw [hrc]
      exact hinv.mono (highest_append _ _)
    · exact (mem_sent.mp hmem).elim (inv.tx t) fun h => ht t (htx ▸ h)

theorem WindowInv.step {b : SendBuf} {w : SendWorld} (inv : WindowInv b w) {a : SendAct}
    (hok : sendOk b w a) : WindowInv b (sendStep b w a) := by
  cases a with
  | dsAck key ack => exact ⟨inv.rc, inv.tx⟩
  | post hdr dlid env => exact inv.post hok
  | sendDone status env => exact inv.onSend hok
  | ack m env => exact inv.onSend hok
  | response env => exact inv.onSend hok
  | abort env => exact inv.onSend hok
  | timeout env => exact inv.onSend hok

theorem SendBuf.dataAt_eq (b : SendBuf) {n : ℕ} (h₁ : 1 ≤ n) (h₂ : n ≤ b.segCount) :
    b.rmppList[n - 1]? = some (b.dataAt n) := by
  have hidx : n - 1 < b.rmppList.length := by
    unfold SendBuf.segCount at h₂
    omega
  unfold SendBuf.dataAt
  rw [if_neg (by omega), List.getElem?_eq_getElem hidx, List.getD_eq_getElem?_getD,
    List.getElem?_eq_getElem hidx, Option.getD_some]

theorem InWindow.segment {b : SendBuf} {t : Tx} (h : InWindow b t) :
    1 ≤ t.seg.segNum ∧ (t.seg.segNum : ℤ) ≤ min t.newwin b.segCount ∧ t.place = t.seg.segNum ∧
      ∃ data, b.rmppList[t.seg.segNum - 1]? = some data ∧ t.seg.data = data.take b.sgeLen := by
  obtain ⟨⟨n, h₁, h₂, hplace, hseg⟩, hwin⟩ := h
  have hnum : t.seg.segNum = n := by
    rw [hseg]
    refine toU_of_lt ?_
    have : n < 2 ^ 31 := lt_of_le_of_lt h₂ b.segCountLt
    omega
  rw [hnum]
  refine ⟨h₁, le_min (hplace ▸ hwin) (by exact_mod_cast h₂), hplace, ?_⟩
  refine ⟨b.dataAt n, b.dataAt_eq h₁ h₂, ?_⟩
  rw [hseg]
  rfl

/-- CORRECT: in every run in which the window is open at the beginning and at every retry, and ACKs
    name segments that were sent, every DATA MAD lies inside the window and carries the segment of
    its number, `last_ack` was sent, and `last_ack_seg` is the element of that number. -/
theorem rmpp_send_window {b : SendBuf} {l : List (RecvKey × Recv)} {w : SendWorld}
    (h : Reach (sendStep b) (sendOk b) (sendInit l) w) :
    (∀ t ∈ w.sent, 1 ≤ t.seg.segNum ∧ (t.seg.segNum : ℤ) ≤ min t.newwin b.segCount ∧
      t.place = t.seg.segNum ∧
      ∃ data, b.rmppList[t.seg.segNum - 1]? = some data ∧
        t.seg.data = data.take b.sgeLen) ∧
    ∀ wr, w.wr = some wr → wr.rc.lastAck ≤ highest w.sent ∧
      (0 < wr.rc.lastAck → (wr.rc.lastAckSeg : ℤ) = wr.rc.lastAck) := by
  have inv : WindowInv b w := by
    refine @Reach.invariant _ _ _ _ _ _ (WindowInv b) h ⟨?_, ?_⟩ fun w a hok inv => inv.step hok
    · exact fun wr hwr => by cases hwr
    · exact fun t ht => by cases ht
  refine ⟨fun t ht => (inv.tx t ht).segment, fun wr hwr => ?_⟩
  have hwin := inv.rc wr hwr
  refine ⟨hwin.ackSent, fun hpos => ?_⟩
  rw [hwin.exact]
  exact max_eq_right hpos

/-- Three segments of one byte. -/
def threeSegs (timeoutMs addr : ℕ) : SendBuf :=
  ⟨[[1], [2], [3]], 220, 0, 200, timeoutMs, 3, 0, fun _ => addr, [], by decide, by decide⟩

/-- Every MAD can be sent. -/
def sendAll : SendEnv := ⟨true, true, true⟩

/-- A request, and a request that answers to it. -/
def requestKey : RecvKey := ⟨7, 1, 5, 3, 2, 0x12⟩
def request : MadHdr := ⟨7, 3, 2, 0x12⟩
def response : MadHdr := ⟨7, 3, 2, 0x92⟩

/-- The first segment, its ACK that opens the window to 2, the second segment. -/
theorem rmpp_send_window_pair : ∃ w, Reach (sendStep (threeSegs 0 0)) (sendOk (threeSegs 0 0))
    (sendInit []) w ∧ w.sent.map (fun t => t.seg.segNum) = [1, 2] ∧
    ∀ t ∈ w.sent, (t.seg.segNum : ℤ) ≤ min t.newwin (threeSegs 0 0).segCount := by
  have hreach : Reach (sendStep (threeSegs 0 0)) (sendOk (threeSegs 0 0)) (sendInit [])
      ([.post request (some 5) sendAll, .sendDone .success sendAll,
        .ack ⟨0, 1, 2⟩ sendAll].foldl (sendStep (threeSegs 0 0)) (sendInit [])) := by
    refine Reach.runs .start ⟨fun _ => by decide, trivial, fun wr hwr _ => ⟨by decide, ?_⟩, trivial⟩
    exact fun _ _ h => absurd h (by decide)
  exact ⟨_, hreach, by decide, fun t ht => ((rmpp_send_window hreach).1 t ht).2.1⟩

/-- An answer to a request whose ACK gave the window 0: all of it is sent outside the window. A window
    of 1, segment 1 acknowledged, a timeout: segment 2 is sent. A window of 3, an ACK of segment 3 when
    only segment 1 was sent: `last_ack` is 3. The number 1 at the head of the list: after the ACK of
    segment 1 `last_ack_seg` is the head. -/
theorem rmpp_send_leaves_window :
    (∃ w, Reach (sendStep (threeSegs 0 0)) (fun _ _ => True)
        (sendInit [(requestKey, (createRmppRecv (dataSeg 1 true)).setState .complete)]) w ∧
      w.sent.map (fun t => (t.seg.segNum, t.newwin)) = [(1, 0), (2, 0), (3, 0)]) ∧
    (∃ w, Reach (sendStep (threeSegs 0 0)) (fun _ _ => True) (sendInit []) w ∧
      w.sent.map (fun t => (t.seg.segNum, t.newwin)) = [(1, 1), (2, 1)]) ∧
    (∃ w, Reach (sendStep (threeSegs 0 0)) (fun _ _ => True) (sendInit []) w ∧
      w.wr.map (fun wr => wr.rc.lastAck) = some 3 ∧ highest w.sent = 1) ∧
    ∃ w, Reach (sendStep (threeSegs 0 1)) (fun _ _ => True) (sendInit []) w ∧
      w.wr.map (fun wr => (wr.rc.lastAck, wr.rc.lastAckSeg)) = some (1, 0) := by
  refine ⟨⟨_, Reach.runs (l := [.dsAck requestKey ⟨0, 0, 0⟩, .post response (some 5) sendAll,
      .sendDone .success sendAll, .sendDone .success sendAll]) .start ?_, ?_⟩,
    ⟨_, Reach.runs (l := [.post request (some 5) sendAll, .sendDone .success sendAll,
      .ack ⟨0, 1, 1⟩ sendAll, .timeout sendAll]) .start ?_, ?_⟩,
    ⟨_, Reach.runs (l := [.post request (some 5) sendAll, .ack ⟨0, 1, 3⟩ sendAll,
      .ack ⟨0, 3, 3⟩ sendAll]) .start ?_, ?_⟩,
    ⟨_, Reach.runs (l := [.post request (some 5) sendAll, .ack ⟨0, 1, 1⟩ sendAll]) .start ?_, ?_⟩⟩
  · exact ⟨trivial, trivial, trivial, trivial, trivial⟩
  · decide
  · exact ⟨trivial, trivial, trivial, trivial, trivial⟩
  · decide
  · exact ⟨trivial, trivial, trivial, trivial⟩
  · decide
  · exact ⟨trivial, trivial, trivial⟩
  · decide

end RdmaDriver.Rmpp
