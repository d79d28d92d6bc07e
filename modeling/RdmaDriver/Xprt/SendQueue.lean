import Mathlib.Algebra.Order.BigOperators.Group.List
import RdmaDriver.Basic
import RdmaDriver.Schemes.Run

/-! @src net/sunrpc/xprtrdma/svc_rdma_rw.c, svc_rdma_sendto.c | name:send queue credits |
    scheme:run | family:ledger

    `sc_sq_avail` counts the free entries of the Send Queue. A chain of WRs takes as many entries as it
    has WRs before it is posted and gives them back when its last WR completes, or at once when the
    queue turns out to be full or nothing of it could be posted. A reply is one chain: the RDMA Writes
    of its Write chunks and of its Reply chunk, then the Send. The RDMA Reads of a call are another.

        ready --sub--> reserved --post--> posted --completion: add--> put --release--> free
          ^  +-sub-> full                    (first WR fails: add) --> ^
          +--wake-- waiting <--add-+

    The two atomic operations around `ib_post_send` are steps of their own: any number of threads can be
    between them. The build has `HAVE_SVC_RDMA_PCL`. -/

namespace RdmaDriver.SendQueue
open Schemes

/-- How far a chain is: on the free list; before the `atomic_sub_return` that takes its entries; to give
    them back because there are too few; asleep until there are more; about to be posted; posted, with
    the number of WRs that `ib_post_send` took; put, its release queued (a Read chain: finished). -/
inductive Phase where
  | free | ready | full | waiting | reserved | posted (accepted : ℕ) | put
  deriving DecidableEq

/-- `struct svc_rdma_send_ctxt`: the chain of a reply. `sc_write_info_list` has the `cc_sqecount` of each
    linked `svc_rdma_write_info`, `sc_reply_info` that of the Reply chunk. `debt` is what the chain took
    from `sc_sq_avail` less what was given back for it, which the code does not keep. -/
structure SendCtxt where
  scSqecount : ℕ
  scWriteInfoList : List ℕ
  scReplyInfo : ℕ
  phase : Phase
  debt : ℤ
  deriving DecidableEq

/-- The `svc_rdma_chunk_ctxt` of the Read chunks of a call. -/
structure ReadCtxt where
  ccSqecount : ℕ
  phase : Phase
  debt : ℤ
  deriving DecidableEq

/-- The part of `struct svcxprt_rdma` that is read and written here, with its contexts. -/
structure Rdma where
  scSqAvail : ℤ
  xptClose : Bool
  sends : List SendCtxt
  reads : List ReadCtxt
  deriving DecidableEq

/-- What is fixed: `sc_sq_depth`, and whether the build has `HAVE_SVC_XPRT_DEFERRED_CLOSE`. -/
structure Build where
  scSqDepth : ℕ
  deferredClose : Bool

/-- `svc_rdma_accept`: `atomic_set(&newxprt->sc_sq_avail, newxprt->sc_sq_depth)`. -/
def svcRdmaAccept (b : Build) : Rdma := ⟨b.scSqDepth, false, [], []⟩

/-! A reply is put together. -/

/-- `svc_rdma_send_ctxt_get` of a context; `none` is a newly allocated one. -/
def svcRdmaSendCtxtGet (old : Option SendCtxt) : SendCtxt :=
  ⟨1, (old.map (·.scWriteInfoList)).getD [], 0, .free, 0⟩

/-- A Write chunk of the call and what building its RDMA Writes gives: the number of WRs, or the error
    of `xdr_buf_subsegment`, of the allocation, or of `svc_rdma_xb_write`. -/
structure WriteChunk where
  chPayloadLength : ℕ
  built : Except Errno ℕ

/-- `svc_rdma_prepare_write_chunk`. -/
def svcRdmaPrepareWriteChunk (b : Build) (c : SendCtxt) (chunk : WriteChunk) :
    Except Errno SendCtxt :=
  match chunk.built with
  | .error e => .error e
  | .ok ccSqecount =>
    if ccSqecount > b.scSqDepth then .error .einval
    else .ok { c with
      scSqecount := c.scSqecount + ccSqecount
      scWriteInfoList := ccSqecount :: c.scWriteInfoList }

/-- `svc_rdma_prepare_write_list`: the error, if any, and the chunks linked so far. -/
def svcRdmaPrepareWriteList (b : Build) : List WriteChunk → SendCtxt → Option Errno × SendCtxt
  | [], c => (none, c)
  | chunk :: pcl, c =>
    if chunk.chPayloadLength = 0 then (none, c)
    else
      match svcRdmaPrepareWriteChunk b c chunk with
      | .error e => (some e, c)
      | .ok c => svcRdmaPrepareWriteList b pcl c

/-- `svc_rdma_prepare_reply_chunk`: `built` is the error of `svc_rdma_xb_write`, if any, and the number of
    WRs built until then. -/
def svcRdmaPrepareReplyChunk (c : SendCtxt) (built : Option Errno × ℕ) : Option Errno × SendCtxt :=
  let c := { c with scReplyInfo := built.2 }
  match built.1 with
  | some e => (some e, c)
  | none => (none, { c with scSqecount := c.scSqecount + built.2 })

/-- What a reply meets: the Write list, the Reply chunk if there is one, and whether the header and the
    error header can be encoded and the message mapped. -/
structure Reply where
  writePcl : List WriteChunk
  replyPcl : Option (Option Errno × ℕ)
  reserveOk : Bool
  encodeOk : Bool
  errorOk : Bool

/-- Into `svc_rdma_post_send`, or to `svc_rdma_send_ctxt_put`. -/
def SendCtxt.next (c : SendCtxt) (post : Bool) : SendCtxt :=
  { c with phase := if post then .ready else .put }

/-- `svc_rdma_send_error_msg`. -/
def svcRdmaSendErrorMsg (c : SendCtxt) (errorOk : Bool) : SendCtxt := c.next errorOk

/-- `svc_rdma_sendto` up to the posting, with `svc_rdma_send_reply_msg`. -/
def svcRdmaSendto (b : Build) (c : SendCtxt) (r : Reply) : SendCtxt :=
  if !r.reserveOk then c.next false
  else
    match svcRdmaPrepareWriteList b r.writePcl c with
    | (some _, c) => c.next false
    | (none, c) =>
      match r.replyPcl with
      | none => c.next r.encodeOk
      | some built =>
        match svcRdmaPrepareReplyChunk c built with
        | (some e, c) =>
          if e ≠ .e2big ∧ e ≠ .einval then c.next false else svcRdmaSendErrorMsg c r.errorOk
        | (none, c) => c.next r.encodeOk

/-! The entries are taken and given back. -/

/-- A context taken from the free list, or a new one, becomes `c`. -/
def Rdma.setSend (w : Rdma) (get : Option ℕ) (c : SendCtxt) : Rdma :=
  match get with
  | none => { w with sends := w.sends ++ [c] }
  | some i => { w with sends := w.sends.set i c }

/-- `atomic_sub_return(sqecount, &rdma->sc_sq_avail) < 0` in `svc_rdma_post_send`. -/
def reserveSend (w : Rdma) (i : ℕ) (c : SendCtxt) : Rdma :=
  if w.xptClose then { w with sends := w.sends.set i { c with phase := .put } }
  else
    let avail := w.scSqAvail - c.scSqecount
    { w with
      scSqAvail := avail
      sends := w.sends.set i { c with
        phase := if avail < 0 then .full else .reserved
        debt := c.debt + c.scSqecount } }

/-- `svc_rdma_wake_send_waiters` of `n` entries of a reply's chain, which goes on in `phase`. -/
def creditSend (w : Rdma) (i : ℕ) (c : SendCtxt) (n : ℕ) (phase : Phase) : Rdma :=
  { w with
    scSqAvail := w.scSqAvail + n
    sends := w.sends.set i { c with phase, debt := c.debt - n } }

/-- `ib_post_send` in `svc_rdma_post_send`: it takes the first `k` WRs of the chain, and fails unless
    these are all. Without a deferred close the function returns 0 in each case. -/
def postSend (b : Build) (w : Rdma) (i : ℕ) (c : SendCtxt) (k : ℕ) : Rdma :=
  let posted := { w with sends := w.sends.set i { c with phase := .posted k } }
  if k = c.scSqecount then posted
  else
    let w := { w with xptClose := true }
    if b.deferredClose && k == 0 then creditSend w i c c.scSqecount .put
    else { posted with xptClose := true }

/-- `svc_rdma_wc_send`. -/
def svcRdmaWcSend (w : Rdma) (i : ℕ) (c : SendCtxt) (success : Bool) : Rdma :=
  let w := creditSend w i c c.scSqecount .put
  if success then w else { w with xptClose := true }

/-- `svc_rdma_write_chunk_release`: each linked `svc_rdma_write_info` gives its entries back. -/
def svcRdmaWriteChunkRelease : List ℕ → ℤ → ℤ
  | [], avail => avail
  | ccSqecount :: infos, avail => svcRdmaWriteChunkRelease infos (avail + ccSqecount)

/-- `svc_rdma_send_ctxt_release`, run by the queued work; `svc_rdma_reply_chunk_release` in it gives no
    entries back. -/
def svcRdmaSendCtxtRelease (w : Rdma) (i : ℕ) (c : SendCtxt) : Rdma :=
  { w with
    scSqAvail := svcRdmaWriteChunkRelease c.scWriteInfoList w.scSqAvail
    sends := w.sends.set i { c with
      scWriteInfoList := []
      phase := .free
      debt := c.debt - c.scWriteInfoList.sum } }

/-- `svc_rdma_post_chunk_ctxt` before its loop, for a Read chain of `cc_sqecount` WRs. -/
def svcRdmaProcessReadList (b : Build) (w : Rdma) (ccSqecount : ℕ) : Rdma :=
  if ccSqecount > b.scSqDepth then w
  else { w with reads := w.reads ++ [⟨ccSqecount, .ready, 0⟩] }

/-- `atomic_sub_return(cc->cc_sqecount, &rdma->sc_sq_avail) > 0` in `svc_rdma_post_chunk_ctxt`. -/
def reserveRead (w : Rdma) (j : ℕ) (c : ReadCtxt) : Rdma :=
  let avail := w.scSqAvail - c.ccSqecount
  { w with
    scSqAvail := avail
    reads := w.reads.set j { c with
      phase := if avail > 0 then .reserved else .full
      debt := c.debt + c.ccSqecount } }

/-- `atomic_add(cc->cc_sqecount, &rdma->sc_sq_avail)`. -/
def creditRead (w : Rdma) (j : ℕ) (c : ReadCtxt) (phase : Phase) : Rdma :=
  { w with
    scSqAvail := w.scSqAvail + c.ccSqecount
    reads := w.reads.set j { c with phase, debt := c.debt - c.ccSqecount } }

/-- `ib_post_send` in `svc_rdma_post_chunk_ctxt`. -/
def postRead (w : Rdma) (j : ℕ) (c : ReadCtxt) (k : ℕ) : Rdma :=
  let posted := { w with reads := w.reads.set j { c with phase := .posted k } }
  if k = c.ccSqecount then posted
  else if k ≠ 0 then { posted with xptClose := true }
  else creditRead { w with xptClose := true } j c .put

/-- `svc_rdma_wc_read_done`. -/
def svcRdmaWcReadDone (w : Rdma) (j : ℕ) (c : ReadCtxt) (success : Bool) : Rdma :=
  let w := creditRead w j c .put
  if success then w else { w with xptClose := true }

/-- What can happen. `get` names the free context that a reply, an error reply or a backchannel call
    takes, or none for a new one; `i` is a reply's context and `j` the Read chain of a call. -/
inductive Op where
  | sendto (get : Option ℕ) (r : Reply)
  | sendError (get : Option ℕ) (errorOk : Bool)
  | bcSendto (get : Option ℕ) (mapOk : Bool)
  | reserve (i : ℕ)
  | giveBack (i : ℕ)
  | wake (i : ℕ)
  | post (i k : ℕ)
  | wcSend (i : ℕ) (success : Bool)
  | release (i : ℕ)
  | processReadList (ccSqecount : ℕ)
  | readReserve (j : ℕ)
  | readGiveBack (j : ℕ)
  | readWake (j : ℕ)
  | readPost (j k : ℕ)
  | wcReadDone (j : ℕ) (success : Bool)

/-- A step of the reply whose context is `i`. -/
def Rdma.send (w : Rdma) (i : ℕ) (f : SendCtxt → Rdma) : Rdma := (w.sends[i]?).elim w f

def Rdma.read (w : Rdma) (j : ℕ) (f : ReadCtxt → Rdma) : Rdma := (w.reads[j]?).elim w f

/-- The context that is taken, ready to use. -/
def Rdma.get (w : Rdma) (get : Option ℕ) : SendCtxt :=
  svcRdmaSendCtxtGet (get.bind (w.sends[·]?))

def step (b : Build) (w : Rdma) : Op → Rdma
  | .sendto get r => w.setSend get (svcRdmaSendto b (w.get get) r)
  | .sendError get errorOk => w.setSend get (svcRdmaSendErrorMsg (w.get get) errorOk)
  | .bcSendto get mapOk => w.setSend get ((w.get get).next mapOk)
  | .reserve i => w.send i (reserveSend w i)
  | .giveBack i => w.send i fun c => creditSend w i c c.scSqecount .waiting
  | .wake i => w.send i fun c => { w with sends := w.sends.set i { c with phase := .ready } }
  | .post i k => w.send i fun c => postSend b w i c k
  | .wcSend i success => w.send i fun c => svcRdmaWcSend w i c success
  | .release i => w.send i (svcRdmaSendCtxtRelease w i)
  | .processReadList n => svcRdmaProcessReadList b w n
  | .readReserve j => w.read j (reserveRead w j)
  | .readGiveBack j => w.read j fun c => creditRead w j c .waiting
  | .readWake j => w.read j fun c => { w with reads := w.reads.set j { c with phase := .ready } }
  | .readPost j k => w.read j fun c => postRead w j c k
  | .wcReadDone j success => w.read j fun c => svcRdmaWcReadDone w j c success

def sendIs (w : Rdma) (i : ℕ) (p : SendCtxt → Bool) : Bool := (w.sends[i]?).any p

def readIs (w : Rdma) (j : ℕ) (p : ReadCtxt → Bool) : Bool := (w.reads[j]?).any p

/-- A chain of which `ib_post_send` took a WR, or all of its WRs, is completed once. -/
def Phase.isPosted (n : ℕ) : Phase → Bool
  | .posted k => k ≠ 0 || n == 0
  | _ => false

/-- The steps that a chain can take in its phase. A sleeping thread is woken when its condition holds. -/
def ok (w : Rdma) : Op → Bool
  | .sendto get _ | .sendError get _ | .bcSendto get _ =>
    get.all fun i => sendIs w i (·.phase = .free)
  | .reserve i => sendIs w i (·.phase = .ready)
  | .giveBack i => sendIs w i (·.phase = .full)
  | .wake i => sendIs w i fun c => c.phase = .waiting && w.scSqAvail > 0
  | .post i k => sendIs w i fun c => c.phase = .reserved && k ≤ c.scSqecount
  | .wcSend i _ => sendIs w i fun c => c.phase.isPosted c.scSqecount
  | .release i => sendIs w i (·.phase = .put)
  | .processReadList _ => true
  | .readReserve j => readIs w j (·.phase = .ready)
  | .readGiveBack j => readIs w j (·.phase = .full)
  | .readWake j => readIs w j fun c => c.phase = .waiting && w.scSqAvail > c.ccSqecount
  | .readPost j k => readIs w j fun c => c.phase = .reserved && k ≤ c.ccSqecount
  | .wcReadDone j _ => readIs w j fun c => c.phase.isPosted c.ccSqecount

/-! The entries that a chain of `n` WRs owes to `sc_sq_avail`. -/

/-- Entries taken by a thread that is about to post the chain, or to give them back. -/
def Phase.held (n : ℕ) : Phase → ℤ
  | .full | .reserved => n
  | _ => 0

/-- Entries of a chain that is posted and not yet credited back. A chain counts with all its entries as
    soon as one WR was posted. -/
def Phase.posted_ (n : ℕ) : Phase → ℤ
  | .posted k => if k ≠ 0 ∨ n = 0 then n else 0
  | _ => 0

def Phase.owed (n : ℕ) (ph : Phase) : ℤ := ph.held n + ph.posted_ n

def Rdma.held (w : Rdma) : ℤ :=
  (w.sends.map fun c => c.phase.held c.scSqecount).sum +
    (w.reads.map fun c => c.phase.held c.ccSqecount).sum

def Rdma.posted (w : Rdma) : ℤ :=
  (w.sends.map fun c => c.phase.posted_ c.scSqecount).sum +
    (w.reads.map fun c => c.phase.posted_ c.ccSqecount).sum

/-- What the entries of the queue add up to. -/
def Rdma.balance (w : Rdma) : ℤ :=
  w.scSqAvail + (w.sends.map fun c => c.phase.owed c.scSqecount).sum +
    (w.reads.map fun c => c.phase.owed c.ccSqecount).sum

theorem balance_eq (w : Rdma) : w.balance = w.scSqAvail + w.held + w.posted := by
  have h : ∀ {α : Type} (f g : α → ℤ) (l : List α),
      (l.map fun a => f a + g a).sum = (l.map f).sum + (l.map g).sum :=
    fun f g l => List.sum_map_add
  unfold Rdma.balance Rdma.held Rdma.posted Phase.owed
  rw [h, h]
  omega

/-- Replacing one element changes a sum by the difference. -/
theorem sum_set {α : Type} (f : α → ℤ) : ∀ {l : List α} {i : ℕ} {a : α} (b : α), l[i]? = some a →
    ((l.set i b).map f).sum = (l.map f).sum - f a + f b
  | [], _, _, _, h => by simp at h
  | x :: l, 0, a, b, h => by
    cases h
    simp only [List.set_cons_zero, List.map_cons, List.sum_cons]
    omega
  | x :: l, i + 1, a, b, h => by
    have ih := sum_set f (l := l) (i := i) b (by simpa using h)
    simp only [List.set_cons_succ, List.map_cons, List.sum_cons]
    omega

/-! One step. -/

section Step
variable {b : Build} {w : Rdma} {i j n : ℕ} {c : SendCtxt}

theorem sendIs_iff {p : SendCtxt → Bool} :
    sendIs w i p = true ↔ ∃ c, w.sends[i]? = some c ∧ p c = true := by
  unfold sendIs
  cases w.sends[i]? <;> simp

theorem readIs_iff {p : ReadCtxt → Bool} :
    readIs w j p = true ↔ ∃ c, w.reads[j]? = some c ∧ p c = true := by
  unfold readIs
  cases w.reads[j]? <;> simp

/-- A reply that is put together owes nothing yet. -/
theorem next_owed (c : SendCtxt) (post : Bool) : (c.next post).phase.owed n = 0 := by
  cases post <;> rfl

theorem sendto_owed (c : SendCtxt) (r : Reply) : (svcRdmaSendto b c r).phase.owed n = 0 := by
  unfold svcRdmaSendto svcRdmaSendErrorMsg
  repeat' split
  all_goals exact next_owed ..

theorem prepareWriteList_debt (b : Build) : ∀ (pcl : List WriteChunk) (c : SendCtxt),
    (svcRdmaPrepareWriteList b pcl c).2.debt = c.debt
  | [], _ => rfl
  | chunk :: pcl, c => by
    unfold svcRdmaPrepareWriteList
    split
    · rfl
    · cases hp : svcRdmaPrepareWriteChunk b c chunk with
      | error e => rfl
      | ok c' =>
        rw [prepareWriteList_debt b pcl c']
        unfold svcRdmaPrepareWriteChunk at hp
        split at hp
        · cases hp
        · split at hp
          · cases hp
          · cases hp
            rfl

theorem sendto_debt (c : SendCtxt) (r : Reply) : (svcRdmaSendto b c r).debt = c.debt := by
  unfold svcRdmaSendto
  split
  · rfl
  · have hw := prepareWriteList_debt b r.writePcl c
    rcases hl : svcRdmaPrepareWriteList b r.writePcl c with ⟨_ | e, c'⟩
    · rw [hl] at hw
      cases r.replyPcl with
      | none => exact hw
      | some built =>
        obtain ⟨_ | e, n⟩ := built
        · exact hw
        · simp only [svcRdmaPrepareReplyChunk]
          split <;> exact hw
    · rw [hl] at hw
      exact hw

theorem writeChunkRelease_eq : ∀ (infos : List ℕ) (avail : ℤ),
    svcRdmaWriteChunkRelease infos avail = avail + infos.sum
  | [], avail => by simp [svcRdmaWriteChunkRelease]
  | ccSqecount :: infos, avail => by
    rw [svcRdmaWriteChunkRelease, writeChunkRelease_eq infos, List.sum_cons]
    push_cast
    omega

/-- What a chain owes in each phase. -/
@[simp] theorem owed_free : Phase.free.owed n = 0 := rfl
@[simp] theorem owed_ready : Phase.ready.owed n = 0 := rfl
@[simp] theorem owed_full : Phase.full.owed n = n := by simp [Phase.owed, Phase.held, Phase.posted_]
@[simp] theorem owed_waiting : Phase.waiting.owed n = 0 := rfl
@[simp] theorem owed_reserved : Phase.reserved.owed n = n := by
  simp [Phase.owed, Phase.held, Phase.posted_]
@[simp] theorem owed_put : Phase.put.owed n = 0 := rfl

theorem owed_posted {ph : Phase} (h : ph.isPosted n = true) : ph.owed n = n := by
  cases ph <;> simp_all [Phase.isPosted, Phase.owed, Phase.held, Phase.posted_]

theorem owed_posted_of {k : ℕ} (h : k = 0 → n = 0) : (Phase.posted k).owed n = n :=
  owed_posted (by simp only [Phase.isPosted]; by_cases hk : k = 0 <;> simp [hk, h])

/-- The entries that a step makes too many or too few: those of the Write chunks linked to a released
    context, and those of a chain whose first WR was refused and that nobody gives back. -/
def gain (b : Build) (w : Rdma) : Op → ℤ
  | .release i => (w.sends[i]?).elim 0 fun c => c.scWriteInfoList.sum
  | .post i k => (w.sends[i]?).elim 0 fun c =>
    if !b.deferredClose && k == 0 && c.scSqecount != 0 then -c.scSqecount else 0
  | _ => 0

/-- What a step can do: one chain moves on, `sc_sq_avail` and the chain's ledger move together and
    `gain` is what this differs from what the chain owes; or a chain that owes nothing is begun. -/
inductive Move (w : Rdma) (gain : ℤ) : Rdma → Prop where
  | send {i : ℕ} {c : SendCtxt} (hc : w.sends[i]? = some c) (avail : ℤ) (close : Bool)
      (c' : SendCtxt) (ha : avail + c'.phase.owed c'.scSqecount =
        w.scSqAvail + c.phase.owed c.scSqecount + gain)
      (hd : avail + c'.debt = w.scSqAvail + c.debt) :
      Move w gain ⟨avail, close, w.sends.set i c', w.reads⟩
  | read {j : ℕ} {c : ReadCtxt} (hc : w.reads[j]? = some c) (avail : ℤ) (close : Bool)
      (c' : ReadCtxt) (ha : avail + c'.phase.owed c'.ccSqecount =
        w.scSqAvail + c.phase.owed c.ccSqecount + gain)
      (hd : avail + c'.debt = w.scSqAvail + c.debt) :
      Move w gain ⟨avail, close, w.sends, w.reads.set j c'⟩
  | taken (get : Option ℕ) (hget : get.all (fun i => sendIs w i (·.phase = .free)) = true)
      (c' : SendCtxt) (h0 : c'.phase.owed c'.scSqecount = 0) (hd : c'.debt = 0) (hg : gain = 0) :
      Move w gain (w.setSend get c')
  | call (n : ℕ) (hg : gain = 0) :
      Move w gain { w with reads := w.reads ++ [⟨n, .ready, 0⟩] }
  | refused (hg : gain = 0) : Move w gain w

/-- STEP: every step moves one chain, or begins one. -/
theorem step_move {op : Op} (hok : ok w op = true) : Move w (gain b w op) (step b w op) := by
  cases op with
  | sendto get r => exact .taken get hok _ (sendto_owed ..) (sendto_debt ..) rfl
  | sendError get errorOk => exact .taken get hok _ (next_owed ..) rfl rfl
  | bcSendto get mapOk => exact .taken get hok _ (next_owed ..) rfl rfl
  | reserve i =>
    obtain ⟨c, hc, hph⟩ := sendIs_iff.mp hok
    have hph : c.phase = .ready := of_decide_eq_true hph
    simp only [step, Rdma.send, hc, Option.elim_some, reserveSend, gain]
    split
    · exact .send hc _ _ _ (by simp [hph]) (by simp)
    · refine .send hc _ _ _ ?_ (by dsimp only; omega)
      split <;> simp [hph]
  | giveBack i =>
    obtain ⟨c, hc, hph⟩ := sendIs_iff.mp hok
    have hph : c.phase = .full := of_decide_eq_true hph
    simp only [step, Rdma.send, hc, gain]
    exact .send hc _ _ _ (by simp [hph]) (by dsimp only; omega)
  | wake i =>
    obtain ⟨c, hc, hph⟩ := sendIs_iff.mp hok
    have hph : c.phase = .waiting := of_decide_eq_true (Bool.and_eq_true_iff.mp hph).1
    simp only [step, Rdma.send, hc, gain]
    exact .send hc _ _ _ (by simp [hph]) rfl
  | post i k =>
    obtain ⟨c, hc, hph⟩ := sendIs_iff.mp hok
    have hres : c.phase = .reserved := of_decide_eq_true (Bool.and_eq_true_iff.mp hph).1
    have hgain : gain b w (.post i k) =
        if !b.deferredClose && k == 0 && c.scSqecount != 0 then -(c.scSqecount : ℤ) else 0 := by
      simp only [gain, hc, Option.elim_some]
    simp only [step, Rdma.send, hc, Option.elim_some, postSend, creditSend]
    split
    · rename_i hk
      refine .send hc _ _ _ ?_ rfl
      have hno : ¬ (!b.deferredClose && k == 0 && c.scSqecount != 0) = true := by
        rw [hk]
        simp
      rw [hgain, hres, owed_posted_of fun h => hk.symm.trans h, owed_reserved, if_neg hno, add_zero]
    · rename_i hk
      split
      · rename_i hdc
        simp only [Bool.and_eq_true] at hdc
        exact .send hc _ _ _ (by simp [hgain, hres, hdc.1]) (by dsimp only; omega)
      · rename_i hdc
        refine .send hc _ _ _ ?_ rfl
        rcases eq_or_ne k 0 with rfl | h0
        · -- the first WR is refused and the build has no deferred close: nobody gives the entries back
          have hdc : b.deferredClose = false := by simpa using hdc
          have hn : c.scSqecount ≠ 0 := fun h => hk h.symm
          simp [hgain, hres, hdc, hn, Phase.owed, Phase.held, Phase.posted_]
        · rw [hgain, hres, owed_posted_of fun h => absurd h h0]
          simp [h0]
  | wcSend i success =>
    obtain ⟨c, hc, hph⟩ := sendIs_iff.mp hok
    simp only [step, Rdma.send, hc, svcRdmaWcSend, creditSend, gain]
    split <;> exact .send hc _ _ _ (by simp [owed_posted hph]) (by dsimp only; omega)
  | release i =>
    obtain ⟨c, hc, hph⟩ := sendIs_iff.mp hok
    have hph : c.phase = .put := of_decide_eq_true hph
    simp only [step, Rdma.send, hc, gain]
    exact .send hc _ _ _ (by simp [hph, writeChunkRelease_eq])
      (by rw [writeChunkRelease_eq]; dsimp only; omega)
  | processReadList n =>
    simp only [step, svcRdmaProcessReadList]
    split
    · exact .refused rfl
    · exact .call n rfl
  | readReserve j =>
    obtain ⟨c, hc, hph⟩ := readIs_iff.mp hok
    have hph : c.phase = .ready := of_decide_eq_true hph
    simp only [step, Rdma.read, hc, gain]
    refine .read hc _ _ _ ?_ (by dsimp only; omega)
    split <;> simp [hph]
  | readGiveBack j =>
    obtain ⟨c, hc, hph⟩ := readIs_iff.mp hok
    have hph : c.phase = .full := of_decide_eq_true hph
    simp only [step, Rdma.read, hc, gain]
    exact .read hc _ _ _ (by simp [hph]) (by dsimp only; omega)
  | readWake j =>
    obtain ⟨c, hc, hph⟩ := readIs_iff.mp hok
    have hph : c.phase = .waiting := of_decide_eq_true (Bool.and_eq_true_iff.mp hph).1
    simp only [step, Rdma.read, hc, gain]
    exact .read hc _ _ _ (by simp [hph]) rfl
  | readPost j k =>
    obtain ⟨c, hc, hph⟩ := readIs_iff.mp hok
    have hph : c.phase = .reserved := of_decide_eq_true (Bool.and_eq_true_iff.mp hph).1
    simp only [step, Rdma.read, hc, Option.elim_some, postRead, gain]
    split
    · rename_i hk
      refine .read hc _ _ _ ?_ rfl
      rw [hph, owed_posted_of fun h => hk.symm.trans h]
      simp
    · split
      · rename_i h0
        refine .read hc _ _ _ ?_ rfl
        rw [hph, owed_posted_of fun h => absurd h h0]
        simp
      · exact .read hc _ _ _ (by simp [hph]) (by dsimp only; omega)
  | wcReadDone j success =>
    obtain ⟨c, hc, hph⟩ := readIs_iff.mp hok
    simp only [step, Rdma.read, hc, svcRdmaWcReadDone, creditRead, gain]
    split <;> exact .read hc _ _ _ (by simp [owed_posted hph]) (by dsimp only; omega)

/-- The sum moves by the gain of the step, and by nothing else. -/
theorem Move.balance {w' : Rdma} {g : ℤ} (h : Move w g w') : w'.balance = w.balance + g := by
  unfold Rdma.balance
  cases h with
  | send hc avail close c' ha hd =>
    dsimp only
    rw [sum_set _ _ hc]
    omega
  | read hc avail close c' ha hd =>
    dsimp only
    rw [sum_set _ _ hc]
    omega
  | taken get hget c' h0 hd hg =>
    cases get with
    | none => simp [Rdma.setSend, h0, hg]
    | some i =>
      obtain ⟨c, hc, hf⟩ := sendIs_iff.mp hget
      have hf : c.phase = .free := of_decide_eq_true hf
      dsimp only [Rdma.setSend]
      rw [sum_set _ _ hc, h0, hf, hg, owed_free]
      omega
  | call n hg => simp [hg]
  | refused hg => rw [hg, add_zero]

/-- What was taken for each chain and not given back is what it owes. -/
structure Ledger (w : Rdma) : Prop where
  sends : ∀ c ∈ w.sends, c.debt = c.phase.owed c.scSqecount
  reads : ∀ c ∈ w.reads, c.debt = c.phase.owed c.ccSqecount

/-- A step without gain keeps each chain's ledger. -/
theorem Ledger.move {w' : Rdma} (h : Ledger w) (hm : Move w 0 w') : Ledger w' := by
  cases hm with
  | send hc avail close c' ha hd =>
    have hold := h.sends _ (List.mem_of_getElem? hc)
    refine ⟨fun d hmem => ?_, h.reads⟩
    rcases List.mem_or_eq_of_mem_set hmem with hmem | rfl
    · exact h.sends d hmem
    · omega
  | read hc avail close c' ha hd =>
    have hold := h.reads _ (List.mem_of_getElem? hc)
    refine ⟨h.sends, fun d hmem => ?_⟩
    rcases List.mem_or_eq_of_mem_set hmem with hmem | rfl
    · exact h.reads d hmem
    · omega
  | taken get hget c' h0 hd hg =>
    have hnew : c'.debt = c'.phase.owed c'.scSqecount := hd.trans h0.symm
    cases get with
    | none =>
      refine ⟨fun d hmem => ?_, h.reads⟩
      rcases List.mem_append.mp hmem with hmem | hmem
      · exact h.sends d hmem
      · exact List.mem_singleton.mp hmem ▸ hnew
    | some i =>
      refine ⟨fun d hmem => ?_, h.reads⟩
      rcases List.mem_or_eq_of_mem_set hmem with hmem | rfl
      · exact h.sends d hmem
      · exact hnew
  | call n hg =>
    refine ⟨h.sends, fun d hmem => ?_⟩
    rcases List.mem_append.mp hmem with hmem | hmem
    · exact h.reads d hmem
    · rw [List.mem_singleton.mp hmem]
      rfl
  | refused hg => exact h

/-- No Write chunk with WRs is linked to a context that is released; and a first WR that is refused is
    given back, or is not refused. -/
def Meets (b : Build) (w : Rdma) : Op → Bool
  | .release i => sendIs w i fun c => c.scWriteInfoList.all (· == 0)
  | .post _ k => b.deferredClose || k != 0
  | _ => true

theorem sum_zero : ∀ {l : List ℕ}, l.all (· == 0) = true → l.sum = 0
  | [], _ => rfl
  | n :: l, h => by
    simp only [List.all_cons, Bool.and_eq_true, beq_iff_eq] at h
    rw [List.sum_cons, h.1, sum_zero h.2]

/-- A step that meets the condition makes no entries too many or too few. -/
theorem gain_eq_zero {op : Op} (hm : Meets b w op = true) : gain b w op = 0 := by
  cases op with
  | release i =>
    obtain ⟨c, hc, h0⟩ := sendIs_iff.mp hm
    simp only [gain, hc, Option.elim_some, sum_zero h0, Nat.cast_zero]
  | post i k =>
    simp only [gain]
    cases w.sends[i]? with
    | none => rfl
    | some c =>
      refine if_neg fun hc => ?_
      simp only [Bool.and_eq_true, Bool.not_eq_true', beq_iff_eq] at hc
      simp [Meets, hc.1.1, hc.1.2] at hm
  | _ => rfl

/-! Runs. -/

/-- What holds in every state. -/
structure Sound (b : Build) (w : Rdma) : Prop where
  /-- the free entries, those of threads between the two atomic operations, and the posted ones -/
  balance : w.scSqAvail + w.held + w.posted = b.scSqDepth
  /-- nobody is between them -/
  idle : (∀ c ∈ w.sends, c.phase ≠ .full ∧ c.phase ≠ .reserved) →
    (∀ c ∈ w.reads, c.phase ≠ .full ∧ c.phase ≠ .reserved) →
    w.scSqAvail + w.posted = b.scSqDepth
  le : w.scSqAvail ≤ b.scSqDepth
  ledger : Ledger w
  /-- a reply that does not get to be posted takes nothing and gives nothing back -/
  abandoned : (∀ get r, (step b w (.sendto get r)).scSqAvail = w.scSqAvail) ∧
    (∀ get errorOk, (step b w (.sendError get errorOk)).scSqAvail = w.scSqAvail) ∧
    (w.xptClose = true → ∀ i, (step b w (.reserve i)).scSqAvail = w.scSqAvail) ∧
    ∀ i, Meets b w (.release i) = true → (step b w (.release i)).scSqAvail = w.scSqAvail

theorem held_nonneg (ph : Phase) : 0 ≤ ph.held n := by
  cases ph <;> simp [Phase.held]

theorem posted_nonneg (ph : Phase) : 0 ≤ ph.posted_ n := by
  cases ph with
  | posted k =>
    simp only [Phase.posted_]
    split <;> omega
  | _ => exact le_rfl

theorem sum_nonneg {α : Type} {f : α → ℤ} (h : ∀ a, 0 ≤ f a) (l : List α) : 0 ≤ (l.map f).sum := by
  refine List.sum_nonneg fun x hx => ?_
  obtain ⟨a, -, rfl⟩ := List.mem_map.mp hx
  exact h a

theorem held_zero {ph : Phase} (h : ph ≠ .full ∧ ph ≠ .reserved) : ph.held n = 0 := by
  cases ph with
  | full => exact absurd rfl h.1
  | reserved => exact absurd rfl h.2
  | _ => rfl

theorem sum_eq_zero {α : Type} {f : α → ℤ} {l : List α} (h : ∀ a ∈ l, f a = 0) :
    (l.map f).sum = 0 := by
  refine List.sum_eq_zero fun x hx => ?_
  obtain ⟨a, ha, rfl⟩ := List.mem_map.mp hx
  exact h a ha

theorem setSend_avail (get : Option ℕ) (c : SendCtxt) :
    (w.setSend get c).scSqAvail = w.scSqAvail := by
  cases get <;> rfl

/-- RUN: in runs that meet the condition the sum and the ledgers are kept. -/
theorem reach_balance (h : Reach (step b) (fun w op => ok w op = true ∧ Meets b w op = true)
    (svcRdmaAccept b) w) : w.balance = b.scSqDepth ∧ Ledger w := by
  refine @Reach.invariant _ _ _ _ _ _ (fun w : Rdma => w.balance = b.scSqDepth ∧ Ledger w) h
    ⟨by simp [svcRdmaAccept, Rdma.balance], ⟨nofun, nofun⟩⟩ fun w op ⟨hok, hm⟩ ⟨hb, hl⟩ => ?_
  have hmove := step_move (b := b) hok
  rw [gain_eq_zero hm] at hmove
  exact ⟨by rw [hmove.balance, hb, add_zero], hl.move hmove⟩

end Step

/-- A reply of one Write chunk, sent and released with room for both its WRs. -/
def replyOps (r : Reply) : List Op :=
  [.sendto none r, .reserve 0, .post 0 2, .wcSend 0 true, .release 0]

/-- A reply without Write chunk, after a Read chain that finds the queue full. -/
def inlineOps : List Op :=
  [.processReadList 3, .sendto none ⟨[], none, true, true, true⟩, .reserve 0, .readReserve 0,
    .readGiveBack 0, .post 0 1, .wcSend 0 true, .release 0, .readWake 0, .readReserve 0,
    .readPost 0 3, .wcReadDone 0 false]

end RdmaDriver.SendQueue
