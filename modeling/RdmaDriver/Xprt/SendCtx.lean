import RdmaDriver.Schemes.RingWindow
import RdmaDriver.Schemes.Run
import Mathlib.Algebra.Ring.Nat
import Mathlib.Tactic.Common
import Mathlib.Logic.Function.Basic

/-! @src net/sunrpc/xprtrdma/rpc_rdma.c, verbs.c, frwr_ops.c | name:Send contexts | scheme:run |
    family:refcount

    A Call of the client is over when its reply is here, its registered memory is fenced, and its
    Send no longer needs the pages it was mapped from. `rl_kref` counts the first and the last:

        marshal: 1 - pages mapped -> 2 - reply -> 1 - Send completion -> 0, complete
                 +- nothing mapped - reply -> 0, complete

    Send contexts come from a ring, and a Send is signalled only now and then: a completion stands
    for the Sends before it as well, and the walk from the tail passes their contexts. When memory
    is still registered at the reply, its LocalInv completes the Call instead. A step is what runs
    under the transport's write lock, or a completion. -/

namespace RdmaDriver.SendCtx
open RdmaDriver.Schemes Function
open List (append_nil append_of_mem count_append flatMap_append length_append mem_append
  mem_append_left mem_cons mem_cons_of_mem mem_cons_self mem_filterMap mem_singleton nodup_cons
  pairwise_cons range' take_zero)
open Prod (fst)

def PAGE_SIZE : ℕ := 4096

/-- `struct rpcrdma_sendctx`: the SGEs from the third on, which are mapped for this Send alone, each
    with its address and its length. -/
structure Sendctx where
  req : ℕ
  sges : List (ℕ × ℕ)
  unmapCount : ℕ

/-- A WR in the Send Queue: a Send, by its context, or the last LocalInv of a request. -/
inductive Wr where
  | send (sc : ℕ) (signaled : Bool)
  | linv (req : ℕ)
  deriving DecidableEq

/-- How far a request is: free, or to be marshalled again; marshalled; posted; complete. -/
inductive Phase where
  | idle | marshalled | posted | done
  deriving DecidableEq

/-- `enum rpcrdma_chunktype` of a Call. -/
inductive Chunktype where
  | nochPullup | nochMapped | readch | areadch
  deriving DecidableEq

/-- The part of `struct xdr_buf` that is read here: the page list and the tail. -/
structure XdrBuf where
  pageBase : ℕ
  pageLen : ℕ
  tailBase : ℕ
  tailLen : ℕ

/-- `struct rpcrdma_xprt` with its buffer, endpoint, Send Queue and requests. A DMA address is fresh
    for each mapping; `maps` and `unmaps` log the pages mapped and unmapped for Sends. `completes`
    counts the calls of `rpcrdma_complete_rqst` for a request; `oops`: one without a reply; `warn`:
    a reference put that was not there; `hang`: a walk that does not meet its context. -/
structure Xprt where
  scLast : ℕ
  scHead : ℕ
  scTail : ℕ
  ctxs : ℕ → Sendctx
  sendCount : ℕ
  sendBatch : ℕ
  sq : List Wr
  current : Option ℕ
  closed : Bool
  phase : ℕ → Phase
  kref : ℕ → ℕ
  reply : ℕ → Option ℕ
  registered : ℕ → ℕ
  sendctx : ℕ → ℕ
  fresh : ℕ
  maps : List (ℕ × ℕ)
  unmaps : List (ℕ × ℕ)
  completes : ℕ → ℕ
  oops : Bool
  warn : Bool
  hang : Bool

/-- `rpcrdma_sendctx_next`. -/
def rpcrdmaSendctxNext (s : Xprt) (item : ℕ) : ℕ := if item < s.scLast then item + 1 else 0

/-- `rpcrdma_sendctx_get_locked`. -/
def rpcrdmaSendctxGetLocked (s : Xprt) : Xprt × Option ℕ :=
  let nextHead := rpcrdmaSendctxNext s s.scHead
  if nextHead = s.scTail then (s, none) else ({ s with scHead := nextHead }, some nextHead)

/-- `rpcrdma_complete_rqst`; it reads the reply. -/
def rpcrdmaCompleteRqst (s : Xprt) (r : ℕ) : Xprt :=
  let s := { s with completes := update s.completes r (s.completes r + 1) }
  if s.reply r = none then { s with oops := true }
  else { s with phase := update s.phase r .done }

/-- `kref_put` of `rl_kref`; both release functions complete the request. -/
def krefPut (s : Xprt) (r : ℕ) : Xprt :=
  if s.kref r = 0 then { s with warn := true }
  else
    let s := { s with kref := update s.kref r (s.kref r - 1) }
    if s.kref r = 0 then rpcrdmaCompleteRqst s r else s

/-- `rpcrdma_sendctx_unmap`. -/
def rpcrdmaSendctxUnmap (s : Xprt) (sc : ℕ) : Xprt :=
  if (s.ctxs sc).unmapCount = 0 then s
  else
    let s' := { s with
      unmaps := s.unmaps ++ (s.ctxs sc).sges.take (s.ctxs sc).unmapCount
      ctxs := update s.ctxs sc { s.ctxs sc with unmapCount := 0 } }
    krefPut s' (s.ctxs sc).req

/-- The loop of `rpcrdma_sendctx_put_locked`; none if it has gone round without meeting `sc`. -/
def putLoop : ℕ → Xprt → ℕ → ℕ → Option Xprt
  | 0, _, _, _ => none
  | fuel + 1, s, nextTail, sc =>
    let nextTail := rpcrdmaSendctxNext s nextTail
    let s := rpcrdmaSendctxUnmap s nextTail
    if nextTail = sc then some { s with scTail := nextTail } else putLoop fuel s nextTail sc

/-- `rpcrdma_sendctx_put_locked`. -/
def rpcrdmaSendctxPutLocked (s : Xprt) (sc : ℕ) : Xprt :=
  (putLoop (s.scLast + 1) s s.scTail sc).getD { s with hang := true }

/-- `ib_dma_map_page` of `len` bytes for the next SGE of `sc`; the `n`-th mapping for a Send works
    if `dma n`. -/
def dmaMapPage (s : Xprt) (sc len : ℕ) (dma : ℕ → Bool) : Xprt × Bool :=
  let c := s.ctxs sc
  if dma c.unmapCount then
    ({ s with
        ctxs := update s.ctxs sc
          { c with sges := c.sges ++ [(s.fresh, len)], unmapCount := c.unmapCount + 1 }
        maps := s.maps ++ [(s.fresh, len)]
        fresh := s.fresh + 1 }, true)
  else (s, false)

/-- The loop of `rpcrdma_prepare_pagelist`. -/
def pagelistLoop (sc : ℕ) (dma : ℕ → Bool) : ℕ → Xprt → ℕ → ℕ → Xprt × Bool
  | 0, s, _, _ => (s, true)
  | fuel + 1, s, pageBase, remaining =>
    if remaining = 0 then (s, true)
    else
      let len := min (PAGE_SIZE - pageBase) remaining
      match dmaMapPage s sc len dma with
      | (s, false) => (s, false)
      | (s, true) => pagelistLoop sc dma fuel s 0 (remaining - len)

/-- `rpcrdma_prepare_pagelist`. -/
def rpcrdmaPreparePagelist (s : Xprt) (sc : ℕ) (xdr : XdrBuf) (dma : ℕ → Bool) : Xprt × Bool :=
  pagelistLoop sc dma xdr.pageLen s (xdr.pageBase % PAGE_SIZE) xdr.pageLen

/-- `rpcrdma_prepare_noch_mapped`; `head`: the head iovec is mapped, or can be. -/
def rpcrdmaPrepareNochMapped (s : Xprt) (r : ℕ) (xdr : XdrBuf) (head : Bool) (dma : ℕ → Bool) :
    Xprt × Bool :=
  let sc := s.sendctx r
  if head = false then (s, false)
  else
    match if xdr.pageLen ≠ 0 then rpcrdmaPreparePagelist s sc xdr dma else (s, true) with
    | (s, false) => (s, false)
    | (s, true) =>
      match if xdr.tailLen ≠ 0 then dmaMapPage s sc xdr.tailLen dma else (s, true) with
      | (s, false) => (s, false)
      | (s, true) =>
        if (s.ctxs sc).unmapCount ≠ 0 then
          ({ s with kref := update s.kref r (s.kref r + 1) }, true)
        else (s, true)

/-- `rpcrdma_prepare_readch`. -/
def rpcrdmaPrepareReadch (s : Xprt) (r : ℕ) (xdr : XdrBuf) (head : Bool) (dma : ℕ → Bool) :
    Xprt × Bool :=
  let sc := s.sendctx r
  if head = false then (s, false)
  else if xdr.tailLen > 3 then
    match dmaMapPage s sc (xdr.tailLen - xdr.tailLen % 4) dma with
    | (s, false) => (s, false)
    | (s, true) => ({ s with kref := update s.kref r (s.kref r + 1) }, true)
  else (s, true)

/-- `rpcrdma_prepare_send_sges`. -/
def rpcrdmaPrepareSendSges (s : Xprt) (r : ℕ) (rtype : Chunktype) (xdr : XdrBuf) (head : Bool)
    (dma : ℕ → Bool) : Xprt × Bool :=
  match rpcrdmaSendctxGetLocked s with
  | (s, none) => (s, false)
  | (s, some sc) =>
    let s := { s with
      sendctx := update s.sendctx r sc
      ctxs := update s.ctxs sc ⟨r, [], 0⟩
      kref := update s.kref r 1 }
    let (s, ok) := match rtype with
      | .nochPullup => (s, head)
      | .nochMapped => rpcrdmaPrepareNochMapped s r xdr head dma
      | .readch => rpcrdmaPrepareReadch s r xdr head dma
      | .areadch => (s, true)
    if ok then (s, true) else (rpcrdmaSendctxUnmap s (s.sendctx r), false)

/-- `rpcrdma_marshal_req`, after `mrs` memory regions were registered for the chunks; `encode`: the
    chunk lists fit. If it fails `frwr_reset` puts the regions back. -/
def rpcrdmaMarshalReq (s : Xprt) (r : ℕ) (rtype : Chunktype) (xdr : XdrBuf) (mrs : ℕ)
    (encode head : Bool) (dma : ℕ → Bool) : Xprt :=
  if encode = false then s
  else
    match rpcrdmaPrepareSendSges s r rtype xdr head dma with
    | (s, false) => s
    | (s, true) => { s with
      registered := update s.registered r mrs
      phase := update s.phase r .marshalled
      current := some r }

/-- `frwr_send`, under the write lock; if nothing could be posted the connection is dropped. -/
def frwrSend (s : Xprt) (r : ℕ) (post : Bool) : Xprt :=
  let numWrs := 1 + s.registered r
  let signaled := decide (s.kref r > 1 ∨ numWrs > s.sendCount)
  let s := { s with
    sendCount := if signaled then min s.sendBatch ((numWrs + 2 ^ 32 - s.sendCount) % 2 ^ 32)
      else s.sendCount - numWrs
    current := none }
  if post then { s with
    sq := s.sq ++ [.send (s.sendctx r) signaled]
    phase := update s.phase r .posted }
  else { s with closed := true }

/-- `xprt_rdma_send_request` drops the connection instead of posting. -/
def dropConnection (s : Xprt) : Xprt := { s with current := none, closed := true }

/-- `rpcrdma_unpin_rqst`. -/
def rpcrdmaUnpinRqst (s : Xprt) (r : ℕ) : Xprt :=
  { s with reply := update s.reply r none }

/-- `frwr_unmap_async`: every region of the request is to be invalidated. -/
def frwrUnmapAsync (s : Xprt) (r : ℕ) (post : Bool) : Xprt :=
  let s := { s with registered := update s.registered r 0 }
  if post then { s with sq := s.sq ++ [.linv r] } else rpcrdmaUnpinRqst s r

/-- `rpcrdma_reply_handler` of reply `rep`, whose XID is that of request `r`; `inv`: the server has
    invalidated one of the regions. -/
def rpcrdmaReplyHandler (s : Xprt) (r rep : ℕ) (inv post : Bool) : Xprt :=
  let s := { s with reply := update s.reply r (some rep) }
  let s := if inv then
    { s with registered := update s.registered r (s.registered r - 1) } else s
  if s.registered r ≠ 0 then frwrUnmapAsync s r post else krefPut s r

/-- `frwr_wc_localinv_done`. -/
def frwrWcLocalinvDone (s : Xprt) (r : ℕ) (success : Bool) : Xprt :=
  if success then rpcrdmaCompleteRqst s r
  else if s.reply r = none then s else rpcrdmaUnpinRqst s r

/-- The HCA is done with the oldest WR. A Send that is not signalled completes only in error. -/
def hca (s : Xprt) (success : Bool) : Xprt :=
  match s.sq with
  | [] => s
  | .send sc signaled :: sq =>
    let s := { s with sq := sq }
    if signaled || !success then rpcrdmaSendctxPutLocked s sc else s
  | .linv r :: sq => frwrWcLocalinvDone { s with sq := sq } r success

/-- `xprt_rdma_free_slot`: the slot may be used for another Call. -/
def xprtRdmaFreeSlot (s : Xprt) (r : ℕ) : Xprt :=
  { s with
    phase := update s.phase r .idle
    reply := update s.reply r none
    completes := update s.completes r 0 }

/-- The steps. -/
inductive Ev where
  | marshal (r : ℕ) (rtype : Chunktype) (xdr : XdrBuf) (mrs : ℕ) (encode head : Bool)
      (dma : ℕ → Bool)
  | send (r : ℕ) (post : Bool)
  | drop
  | hca (success : Bool)
  | reply (r rep : ℕ) (inv post : Bool)
  | free (r : ℕ)

def step (s : Xprt) : Ev → Xprt
  | .marshal r rtype xdr mrs encode head dma => rpcrdmaMarshalReq s r rtype xdr mrs encode head dma
  | .send r post => frwrSend s r post
  | .drop => dropConnection s
  | .hca success => hca s success
  | .reply r rep inv post => rpcrdmaReplyHandler s r rep inv post
  | .free r => xprtRdmaFreeSlot s r

/-- What callers and the wire keep to: the write lock is held from marshalling to posting, a request
    is sent once, a reply is for a Call that was sent and has not been completed, and a slot is
    freed when its Call is complete. -/
def ok (s : Xprt) : Ev → Prop
  | .marshal r .. => s.current = none ∧ s.closed = false ∧ s.phase r = .idle
  | .send r _ => s.current = some r
  | .drop => s.current ≠ none
  | .hca _ => True
  | .reply r .. => s.phase r = .posted
  | .free r => s.phase r = .done

/-- A transport whose ring has `scLast + 1` contexts. -/
def Xprt.start (scLast sendBatch : ℕ) : Xprt where
  scLast := scLast
  scHead := 0
  scTail := 0
  ctxs _ := ⟨0, [], 0⟩
  sendCount := sendBatch
  sendBatch := sendBatch
  sq := []
  current := none
  closed := false
  phase _ := .idle
  kref _ := 0
  reply _ := none
  registered _ := 0
  sendctx _ := 0
  fresh := 0
  maps := []
  unmaps := []
  completes _ := 0
  oops := false
  warn := false
  hang := false

/-- How many pages and tails of a `rpcrdma_noch_mapped` Call are mapped. -/
def nochMappings (xdr : XdrBuf) : ℕ :=
  (xdr.pageBase % PAGE_SIZE + xdr.pageLen + PAGE_SIZE - 1) / PAGE_SIZE *
    (if xdr.pageLen = 0 then 0 else 1) + if xdr.tailLen = 0 then 0 else 1

/-- No mapping of a `rpcrdma_noch_mapped` Call fails after an earlier one of it worked, and a request that
    waits with a reply gets no other. -/
def clean (s : Xprt) : Ev → Prop
  | .marshal _ .nochMapped xdr _ _ head dma =>
    head = true → dma 0 = true → ∀ i < nochMappings xdr, dma i = true
  | .reply r .. => s.reply r = none
  | _ => True

/-! ### What holds between the steps -/

/-- The contexts in (tail, head]. -/
def Xprt.window (s : Xprt) : List ℕ := ringWindow s.scLast s.scTail s.scHead

/-- The contexts of the Sends in the Send Queue, oldest first. -/
def Xprt.sends (s : Xprt) : List ℕ := s.sq.filterMap fun
  | .send sc _ => some sc
  | .linv _ => none

/-- The SGEs of a context that are still mapped. -/
def Xprt.mapped (s : Xprt) (sc : ℕ) : List (ℕ × ℕ) := (s.ctxs sc).sges.take (s.ctxs sc).unmapCount

/-- The request's Send keeps pages mapped. -/
def Xprt.held (s : Xprt) (r : ℕ) : Prop :=
  (s.ctxs (s.sendctx r)).unmapCount ≠ 0 ∧ (s.ctxs (s.sendctx r)).req = r

/-- The reply of the request is still to come, or its memory is being invalidated. -/
def Xprt.owed (s : Xprt) (r : ℕ) : Prop := s.reply r = none ∨ .linv r ∈ s.sq

instance (s : Xprt) (r : ℕ) : Decidable (s.held r) := inferInstanceAs (Decidable (_ ∧ _))
instance (s : Xprt) (r : ℕ) : Decidable (s.owed r) := inferInstanceAs (Decidable (_ ∨ _))

/-- A request whose LocalInv is queued has no Send behind it, and no other LocalInv. -/
def After (ctxs : ℕ → Sendctx) : Wr → Wr → Prop
  | .linv r, .send sc _ => (ctxs sc).req ≠ r
  | .linv r, .linv r' => r ≠ r'
  | .send _ _, _ => True

/-- The ring: a context with mapped pages is in (tail, head], its Send signalled and in the queue,
    or about to be posted from the head. -/
structure Ring (s : Xprt) : Prop where
  head : s.scHead ≤ s.scLast
  tail : s.scTail ≤ s.scLast
  sends : s.sends.Sublist s.window
  out : ∀ i, i ∉ s.window → (s.ctxs i).unmapCount = 0
  inside : ∀ i ∈ s.window, (s.ctxs i).unmapCount ≠ 0 →
    .send i true ∈ s.sq ∧ s.phase (s.ctxs i).req = .posted ∨
      i = s.scHead ∧ s.phase (s.ctxs i).req = .marshalled
  own : ∀ i, (s.ctxs i).unmapCount ≠ 0 → s.sendctx (s.ctxs i).req = i
  sges : ∀ i, (s.ctxs i).unmapCount ≠ 0 → (s.ctxs i).unmapCount = (s.ctxs i).sges.length

/-- The requests: the references of each are those that `held` and `owed` say, and those `x` that
    the running function is about to put. -/
structure Reqs (x : ℕ → ℕ) (s : Xprt) : Prop where
  kref : ∀ r, s.phase r = .marshalled ∨ s.phase r = .posted →
    s.kref r = (if s.owed r then 1 else 0) + (if s.held r then 1 else 0) + x r ∧ 0 < s.kref r
  current : ∀ r, s.current = some r → s.phase r = .marshalled
  marshalled : ∀ r, s.phase r = .marshalled → (s.current = some r ∨ s.closed = true) ∧
    s.sendctx r = s.scHead ∧ (s.ctxs s.scHead).req = r ∧ s.scHead ∈ s.window ∧
    s.scHead ∉ s.sends ∧ s.reply r = none
  linv : ∀ r, .linv r ∈ s.sq → s.phase r = .posted ∧ s.reply r ≠ none
  order : s.sq.Pairwise (After s.ctxs)
  fenced : ∀ r, s.reply r ≠ none → s.registered r = 0
  idle : ∀ r, s.phase r = .idle → s.reply r = none ∧ s.registered r = 0 ∧ s.completes r = 0
  waiting : ∀ r, s.phase r = .marshalled ∨ s.phase r = .posted → s.completes r = 0
  done : ∀ r, s.phase r = .done → s.completes r = 1 ∧ s.reply r ≠ none

/-- The pages: each mapping is undone once, or belongs to one context. -/
structure Pages (s : Xprt) : Prop where
  fresh : ∀ x ∈ s.maps, x.1 < s.fresh
  nodup : (s.maps.map fst).Nodup
  count : ∀ x, s.maps.count x = s.unmaps.count x + (s.window.flatMap s.mapped).count x

structure Inv (x : ℕ → ℕ) (s : Xprt) : Prop where
  ring : Ring s
  reqs : Reqs x s
  pages : Pages s
  oops : s.oops = false
  warn : s.warn = false
  hang : s.hang = false

variable {s s' : Xprt} {x : ℕ → ℕ} {r sc : ℕ}

theorem rpcrdmaSendctxNext_eq {t : ℕ} (ht : t ≤ s.scLast) :
    rpcrdmaSendctxNext s t = ringNext s.scLast t := by
  unfold rpcrdmaSendctxNext ringNext
  split_ifs <;> omega

theorem rpcrdmaSendctxUnmap_zero (h : (s.ctxs sc).unmapCount = 0) :
    rpcrdmaSendctxUnmap s sc = s := if_pos h

/-- WALK: past contexts with nothing mapped the loop comes to the one it looks for, and stops. -/
theorem putLoop_spec (hh : s.scHead ≤ s.scLast) : ∀ {pre post : List ℕ} {t fuel : ℕ}, t ≤ s.scLast →
    ringWindow s.scLast t s.scHead = pre ++ sc :: post → pre.length < fuel → sc ∉ pre →
    (∀ i ∈ pre, (s.ctxs i).unmapCount = 0) →
    putLoop fuel s t sc = some { rpcrdmaSendctxUnmap s sc with scTail := sc }
  | _, _, _, 0, _, _, hf, _, _ => absurd hf (Nat.not_lt_zero _)
  | pre, post, t, fuel + 1, ht, hw, hf, hn, hz => by
    have hne : t ≠ s.scHead := by
      rintro rfl
      simp at hw
    rw [ringWindow_cons ht hh hne] at hw
    rw [putLoop, rpcrdmaSendctxNext_eq ht]
    cases pre with
    | nil =>
      obtain ⟨hsc, -⟩ := List.cons.inj hw
      rw [hsc]
      simp only [if_true]
    | cons p pre =>
      obtain ⟨hp, hw⟩ := List.cons.inj hw
      have hp0 := hz p (mem_cons_self ..)
      have hpsc : p ≠ sc := by
        rintro rfl
        exact hn (mem_cons_self ..)
      rw [hp] at hw ⊢
      simp only [rpcrdmaSendctxUnmap_zero hp0, if_neg hpsc]
      refine putLoop_spec hh ?_ hw ?_ ?_ ?_
      · rw [← hp]
        exact ringNext_le ht
      · simpa using hf
      · exact fun hm => hn (mem_cons_of_mem _ hm)
      · exact fun i hi => hz i (mem_cons_of_mem _ hi)

theorem Ring.window_nodup (h : Ring s) : s.window.Nodup := ringWindow_nodup h.tail h.head

theorem mem_sends {sg : Bool} (h : .send sc sg ∈ s.sq) : sc ∈ s.sends :=
  mem_filterMap.2 ⟨_, h, rfl⟩

/-- The oldest Send's context: those before it in the window have nothing mapped. -/
theorem Inv.split (h : Inv x s) {sg : Bool} {sq : List Wr} (hsq : s.sq = .send sc sg :: sq) :
    ∃ pre post, s.window = pre ++ sc :: post ∧ sc ∉ pre ∧ (∀ i ∈ pre, (s.ctxs i).unmapCount = 0) ∧
      ({ s with sq := sq } : Xprt).sends.Sublist post ∧ sc ∉ post ∧ s.scHead ∉ pre := by
  have hsends : s.sends = sc :: ({ s with sq := sq } : Xprt).sends := by
    simp [Xprt.sends, hsq]
  have hsub := h.ring.sends
  have hnd := h.ring.window_nodup
  rw [hsends] at hsub
  obtain ⟨l₁, l₂, hw, hmem, hrest⟩ := List.cons_sublist_iff.1 hsub
  obtain ⟨pre, mid, rfl⟩ := append_of_mem hmem
  rw [List.append_assoc, List.cons_append] at hw
  rw [hw] at hnd
  obtain ⟨-, hnd', hdis⟩ := List.nodup_append.1 hnd
  have hpre : sc ∉ pre := fun hm => hdis sc hm sc (mem_cons_self ..) rfl
  have hpost := (nodup_cons.1 hnd').1
  have hhead : s.scHead ∉ pre := by
    -- the head is the last of the window
    intro hi
    obtain ⟨a, b, rfl⟩ := append_of_mem hi
    rw [List.append_assoc, List.cons_append] at hw
    have := ringWindow_split h.ring.head h.ring.tail hw
    simp at this
  refine ⟨pre, mid ++ l₂, hw, hpre, fun i hi => ?_, hrest.trans (List.sublist_append_right ..),
    hpost, hhead⟩
  by_contra hne
  have hiw : i ∈ s.window := by
    rw [hw]
    exact mem_append_left _ hi
  rcases h.ring.inside i hiw hne with ⟨hm, -⟩ | ⟨rfl, -⟩
  · rw [hsq] at hm
    rcases mem_cons.1 hm with he | hm
    · obtain ⟨rfl, -⟩ := Wr.send.inj he
      exact hpre hi
    · have hmem' : i ∈ ({ s with sq := sq } : Xprt).sends := mem_filterMap.2 ⟨_, hm, rfl⟩
      have := (hrest.trans (List.sublist_append_right mid l₂)).subset hmem'
      exact hdis i hi i (mem_cons_of_mem _ this) rfl
  · exact hhead hi

/-- PUT: the completion of the oldest Send unmaps its context, and takes those before it back. -/
theorem Inv.put (h : Inv x s) {sg : Bool} {sq : List Wr} (hsq : s.sq = .send sc sg :: sq) :
    rpcrdmaSendctxPutLocked { s with sq := sq } sc =
      { rpcrdmaSendctxUnmap { s with sq := sq } sc with scTail := sc } := by
  obtain ⟨pre, post, hw, hpre, hz, -⟩ := h.split hsq
  have hlen : pre.length < s.scLast + 1 := by
    have hle := ringDist_le h.ring.tail h.ring.head
    have := congrArg List.length hw
    simp only [Xprt.window, ringWindow, List.length_map, List.length_range, length_append] at this
    omega
  have hloop := @putLoop_spec { s with sq := sq } sc h.ring.head pre post s.scTail (s.scLast + 1)
    h.ring.tail hw hlen hpre hz
  rw [rpcrdmaSendctxPutLocked, hloop]
  rfl

/-- Taking a Send with nothing mapped off the queue. -/
theorem Inv.popSend (h : Inv x s) {sg : Bool} {sq : List Wr} (hsq : s.sq = .send sc sg :: sq)
    (hz : (s.ctxs sc).unmapCount = 0) {tail : ℕ} (ht : tail = sc ∨ tail = s.scTail) :
    Inv x { s with sq := sq, scTail := tail } := by
  obtain ⟨pre, post, hw, hpre, hpz, hsub, hpost, hhead⟩ := h.split hsq
  have hsc : sc ≤ s.scLast := by
    refine le_of_mem_ringWindow h.ring.tail h.ring.head (i := sc) ?_
    change sc ∈ s.window
    rw [hw]
    simp
  -- the window that is left
  have hwin : ∃ l, ({ s with sq := sq, scTail := tail } : Xprt).window = l ++ post ∧
      l.Sublist (pre ++ [sc]) := by
    rcases ht with rfl | rfl
    · exact ⟨[], (ringWindow_split h.ring.head h.ring.tail hw).symm, List.nil_sublist _⟩
    · refine ⟨pre ++ [sc], ?_, List.Sublist.refl _⟩
      change s.window = _
      rw [hw]
      simp
  obtain ⟨l, hwin, hl⟩ := hwin
  have hlz : ∀ i ∈ pre ++ [sc], (s.ctxs i).unmapCount = 0 := by
    intro i hi
    rcases mem_append.1 hi with hi | hi
    · exact hpz i hi
    · rw [mem_singleton.1 hi]
      exact hz
  have hall : ∀ i ∈ s.window, i ∈ pre ++ [sc] ∨ i ∈ post := by
    intro i hi
    rw [hw] at hi
    simpa [or_assoc] using hi
  have hsubset : ∀ i ∈ post, i ∈ s.window := by
    intro i hi
    rw [hw]
    simp [hi]
  have hmem : ∀ w, w ∈ sq → w ∈ s.sq := by
    intro w hm
    rw [hsq]
    exact mem_cons_of_mem _ hm
  have howed : ∀ r, ({ s with sq := sq, scTail := tail } : Xprt).owed r ↔ s.owed r := by
    intro r
    simp [Xprt.owed, hsq]
  refine ⟨⟨h.ring.head, ?_, ?_, ?_, ?_, h.ring.own, h.ring.sges⟩,
    { h.reqs with kref := ?_, marshalled := ?_, linv := ?_, order := ?_ },
    { h.pages with count := ?_ }, h.oops, h.warn, h.hang⟩
  · rcases ht with rfl | rfl
    · exact hsc
    · exact h.ring.tail
  · rw [hwin]
    exact hsub.trans (List.sublist_append_right ..)
  · intro i hi
    rw [hwin] at hi
    by_cases hiw : i ∈ s.window
    · rcases hall i hiw with hm | hm
      · exact hlz i hm
      · exact absurd (List.mem_append_right _ hm) hi
    · exact h.ring.out i hiw
  · intro i hi hne
    have hip : i ∈ post := by
      rw [hwin] at hi
      rcases mem_append.1 hi with hm | hm
      · exact absurd (hlz i (hl.subset hm)) hne
      · exact hm
    refine (h.ring.inside i (hsubset i hip) hne).imp_left fun hs => ⟨?_, hs.2⟩
    have := hs.1
    rw [hsq] at this
    rcases mem_cons.1 this with he | hm
    · obtain ⟨rfl, -⟩ := Wr.send.inj he
      exact absurd hip hpost
    · exact hm
  · intro r hp
    have := h.reqs.kref r hp
    simp only [howed]
    exact this
  · intro r hp
    obtain ⟨hc, hs, hr, hm, hn, hrep⟩ := h.reqs.marshalled r hp
    refine ⟨hc, hs, hr, ?_, ?_, hrep⟩
    · rw [hwin]
      refine List.mem_append_right _ ?_
      rcases hall _ hm with hm | hm
      · rcases mem_append.1 hm with hm | hm
        · exact absurd hm hhead
        · refine absurd ?_ hn
          rw [mem_singleton.1 hm]
          have hm : .send sc sg ∈ s.sq := by
            rw [hsq]
            exact mem_cons_self ..
          exact mem_sends hm
      · exact hm
    · intro hm
      refine hn ?_
      have : s.sends = sc :: ({ s with sq := sq, scTail := tail } : Xprt).sends := by
        simp [Xprt.sends, hsq]
      rw [this]
      exact mem_cons_of_mem _ hm
  · exact fun r hm => h.reqs.linv r (hmem _ hm)
  · have := h.reqs.order
    rw [hsq] at this
    exact (pairwise_cons.1 this).2
  · intro x
    have hc := h.pages.count x
    have hnil : ∀ l : List ℕ, (∀ i ∈ l, (s.ctxs i).unmapCount = 0) → l.flatMap s.mapped = [] := by
      intro l hl
      refine List.flatMap_eq_nil_iff.2 fun i hi => ?_
      rw [Xprt.mapped, hl i hi, take_zero]
    rw [hw, show pre ++ sc :: post = (pre ++ [sc]) ++ post by simp, flatMap_append,
      hnil _ hlz] at hc
    rw [hwin, flatMap_append]
    change _ = s.unmaps.count x + (l.flatMap s.mapped ++ post.flatMap s.mapped).count x
    rw [hnil l fun i hi => hlz i (hl.subset hi)]
    exact hc

/-- A request whose Send keeps pages is marshalled or posted. -/
theorem Inv.held_phase (h : Inv x s) (hr : s.held r) :
    s.sendctx r ∈ s.window ∧ (s.phase r = .posted ∨ s.phase r = .marshalled) := by
  obtain ⟨hne, hreq⟩ := hr
  have hw : s.sendctx r ∈ s.window := by
    by_contra hn
    exact hne (h.ring.out _ hn)
  refine ⟨hw, ?_⟩
  rcases h.ring.inside _ hw hne with ⟨-, hp⟩ | ⟨-, hp⟩
  · rw [hreq] at hp
    exact .inl hp
  · rw [hreq] at hp
    exact .inr hp

/-- FINISH: a request whose Send keeps nothing and whose LocalInv is not queued may be completed,
    with a reply that is there. -/
theorem Inv.finish (h : Inv x s) (hp : s.phase r = .posted) (hheld : ¬ s.held r)
    (hlinv : .linv r ∉ s.sq) (hreg : s.registered r = 0) {rep : Option ℕ} (hrep : rep ≠ none)
    (k : ℕ) : Inv (update x r 0) { s with
      kref := update s.kref r k
      reply := update s.reply r rep
      completes := update s.completes r (s.completes r + 1)
      phase := update s.phase r .done } := by
  have hphase : ∀ {q ph}, ph ≠ .done → update s.phase r .done q = ph → q ≠ r ∧ s.phase q = ph := by
    intro q ph hne hq
    rcases eq_or_ne q r with rfl | hqr
    · rw [update_self] at hq
      exact absurd hq.symm hne
    · rw [update_of_ne hqr] at hq
      exact ⟨hqr, hq⟩
  have hopen : ∀ {q}, update s.phase r .done q = .marshalled ∨ update s.phase r .done q = .posted →
      q ≠ r ∧ (s.phase q = .marshalled ∨ s.phase q = .posted) := by
    rintro q (hq | hq)
    · exact (hphase (by decide) hq).imp_right .inl
    · exact (hphase (by decide) hq).imp_right .inr
  refine ⟨{ h.ring with inside := ?_ },
    ⟨?_, ?_, ?_, ?_, h.reqs.order, ?_, ?_, ?_, ?_⟩,
    { h.pages with }, h.oops, h.warn, h.hang⟩
  · intro i hi hne
    have hir : (s.ctxs i).req ≠ r := by
      rintro rfl
      refine hheld ?_
      rw [Xprt.held, h.ring.own i hne]
      exact ⟨hne, rfl⟩
    dsimp only
    rw [update_of_ne hir]
    exact h.ring.inside i hi hne
  · intro q hq
    obtain ⟨hqr, hq⟩ := hopen hq
    have hk := h.reqs.kref q hq
    simp only [Xprt.owed, update_of_ne hqr] at hk ⊢
    exact hk
  · intro q hq
    have := h.reqs.current q hq
    refine (update_of_ne ?_ _ _).trans this
    rintro rfl
    rw [hp] at this
    cases this
  · intro q hq
    obtain ⟨hqr, hq⟩ := hphase (by decide) hq
    obtain ⟨hc, hs, hr, hw, hn, hre⟩ := h.reqs.marshalled q hq
    exact ⟨hc, hs, hr, hw, hn, (update_of_ne hqr _ _).trans hre⟩
  · intro q hq
    have hqr : q ≠ r := by
      rintro rfl
      exact hlinv hq
    dsimp only
    rw [update_of_ne hqr, update_of_ne hqr]
    exact h.reqs.linv q hq
  · intro q hq
    rcases eq_or_ne q r with rfl | hqr
    · exact hreg
    · dsimp only at hq
      rw [update_of_ne hqr] at hq
      exact h.reqs.fenced q hq
  · intro q hq
    obtain ⟨hqr, hq⟩ := hphase (by decide) hq
    dsimp only
    rw [update_of_ne hqr, update_of_ne hqr]
    exact h.reqs.idle q hq
  · intro q hq
    obtain ⟨hqr, hq⟩ := hopen hq
    exact (update_of_ne hqr _ _).trans (h.reqs.waiting q hq)
  · intro q hq
    rcases eq_or_ne q r with rfl | hqr
    · simp [h.reqs.waiting q (.inr hp), hrep]
    · dsimp only at hq ⊢
      rw [update_of_ne hqr] at hq ⊢
      rw [update_of_ne hqr]
      exact h.reqs.done q hq

/-- PUT: a reference is given up; the last one completes the request. -/
theorem Inv.krefPut (h : Inv x s) (hp : s.phase r = .posted) (hx : x r = 1) :
    Inv (update x r 0) (SendCtx.krefPut s r) := by
  obtain ⟨hk, hpos⟩ := h.reqs.kref r (.inr hp)
  have h0 : s.kref r ≠ 0 := by omega
  rw [SendCtx.krefPut, if_neg h0]
  simp only [update_self]
  by_cases h1 : s.kref r - 1 = 0
  · -- nobody needs the request any more
    have howed : ¬ s.owed r := by
      intro ho
      rw [if_pos ho] at hk
      omega
    have hheld : ¬ s.held r := by
      intro ho
      rw [if_pos ho] at hk
      omega
    have hrep : s.reply r ≠ none := fun hn => howed (.inl hn)
    rw [if_pos h1, rpcrdmaCompleteRqst]
    simp only [if_neg hrep]
    have hf := h.finish hp hheld (fun hm => howed (.inr hm)) (h.reqs.fenced r hrep) hrep
      (s.kref r - 1)
    rwa [update_eq_self] at hf
  · rw [if_neg h1]
    refine ⟨{ h.ring with }, { h.reqs with kref := ?_ },
      { h.pages with }, h.oops, h.warn, h.hang⟩
    intro q hq
    have hkq := h.reqs.kref q hq
    rcases eq_or_ne q r with rfl | hqr
    · change update s.kref q (s.kref q - 1) q = (if s.owed q then 1 else 0) +
        (if s.held q then 1 else 0) + update x q 0 q ∧ 0 < update s.kref q (s.kref q - 1) q
      rw [update_self, update_self]
      omega
    · dsimp only
      rw [update_of_ne hqr, update_of_ne hqr]
      exact hkq

theorem count_flatMap_update {α β : Type*} [DecidableEq α] [BEq β] (f : α → List β) (a : α)
    (x : β) : ∀ {l : List α}, l.Nodup → a ∈ l →
    (l.flatMap f).count x = (f a).count x + (l.flatMap (update f a [])).count x
  | b :: l, hnd, hm => by
    obtain ⟨hb, hl⟩ := nodup_cons.1 hnd
    rw [List.flatMap_cons, List.flatMap_cons, count_append, count_append]
    rcases eq_or_ne b a with rfl | hne
    · have hsame : l.flatMap (update f b []) = l.flatMap f := by
        refine List.flatMap_congr fun c hc => ?_
        refine update_of_ne ?_ _ _
        rintro rfl
        exact hb hc
      rw [hsame, update_self]
      simp
    · have ih := count_flatMap_update f a x hl ((mem_cons.1 hm).resolve_left (Ne.symm hne))
      rw [update_of_ne hne, ih]
      omega

/-- UNMAP: a Send in the queue is known complete. Its pages are unmapped, and its request loses the
    reference they had. -/
theorem Inv.unmap (h : Inv (fun _ => 0) s) {sg : Bool} (hm : .send sc sg ∈ s.sq) :
    Inv (fun _ => 0) (rpcrdmaSendctxUnmap s sc) := by
  by_cases hz : (s.ctxs sc).unmapCount = 0
  · rwa [rpcrdmaSendctxUnmap_zero hz]
  have hwin : sc ∈ s.window := h.ring.sends.subset (mem_sends hm)
  have hown := h.ring.own sc hz
  generalize hreq : (s.ctxs sc).req = r at hown
  have hheld : s.held r := by
    rw [Xprt.held, hown]
    exact ⟨hz, hreq⟩
  have hposted : s.phase r = .posted := by
    rcases h.ring.inside sc hwin hz with ⟨-, hp⟩ | ⟨rfl, hp⟩
    · rwa [hreq] at hp
    · rw [hreq] at hp
      exact absurd (mem_sends hm) (h.reqs.marshalled r hp).2.2.2.2.1
  rw [rpcrdmaSendctxUnmap, if_neg hz, hreq]
  have hupd : update (update (fun _ : ℕ => 0) r 1) r 0 = fun _ => 0 := by
    funext q
    rcases eq_or_ne q r with rfl | hq <;> simp
  rw [← hupd]
  refine Inv.krefPut ?_ hposted (update_self ..)
  have hctx : ∀ i, (update s.ctxs sc { s.ctxs sc with unmapCount := 0 } i).unmapCount ≠ 0 →
      i ≠ sc ∧ (s.ctxs i).unmapCount ≠ 0 := by
    intro i hi
    rcases eq_or_ne i sc with rfl | hne
    · simp at hi
    · rw [update_of_ne hne] at hi
      exact ⟨hne, hi⟩
  have hreqs : ∀ i, (update s.ctxs sc { s.ctxs sc with unmapCount := 0 } i).req =
      (s.ctxs i).req := by
    intro i
    rcases eq_or_ne i sc with rfl | hne
    · simp
    · simp [hne]
  refine ⟨⟨h.ring.head, h.ring.tail, h.ring.sends, ?_, ?_, ?_, ?_⟩,
    { h.reqs with kref := ?_, marshalled := ?_, order := ?_ }, { h.pages with count := ?_ },
    h.oops, h.warn, h.hang⟩
  · intro i hi
    by_contra hne
    exact (hctx i hne).2 (h.ring.out i hi)
  · intro i hi hne
    rw [hreqs]
    exact h.ring.inside i hi (hctx i hne).2
  · intro i hne
    rw [hreqs]
    exact h.ring.own i (hctx i hne).2
  · intro i hne
    have := hctx i hne
    dsimp only
    rw [update_of_ne this.1]
    exact h.ring.sges i this.2
  · intro q hq
    have hk := h.reqs.kref q hq
    rcases eq_or_ne q r with rfl | hqr
    · have hnot : ¬ ({ s with
          unmaps := s.unmaps ++ (s.ctxs sc).sges.take (s.ctxs sc).unmapCount
          ctxs := update s.ctxs sc { s.ctxs sc with unmapCount := 0 } } :
            Xprt).held q := by
        rintro ⟨hne, -⟩
        exact (hctx _ hne).1 hown
      rw [if_pos hheld] at hk
      rw [if_neg hnot, update_self]
      exact hk
    · have hsame : ({ s with
          unmaps := s.unmaps ++ (s.ctxs sc).sges.take (s.ctxs sc).unmapCount
          ctxs := update s.ctxs sc { s.ctxs sc with unmapCount := 0 } } : Xprt).held q ↔
            s.held q := by
        constructor
        · rintro ⟨hne, he⟩
          exact ⟨(hctx _ hne).2, (hreqs _).symm.trans he⟩
        · rintro ⟨hne, he⟩
          have hsq : s.sendctx q ≠ sc := by
            rintro hs
            rw [hs, hreq] at he
            exact hqr he.symm
          refine ⟨?_, (hreqs _).trans he⟩
          dsimp only
          rwa [update_of_ne hsq]
      rw [update_of_ne hqr]
      simp only [hsame]
      exact hk
  · intro q hq
    obtain ⟨hc, hs, hr, hrest⟩ := h.reqs.marshalled q hq
    exact ⟨hc, hs, (hreqs _).trans hr, hrest⟩
  · refine h.reqs.order.imp fun {a b} hab => ?_
    cases a with
    | send => trivial
    | linv q =>
      cases b with
      | send i sg =>
        intro he
        exact hab ((hreqs i).symm.trans he)
      | linv q' => exact hab
  · intro y
    have hc := h.pages.count y
    have hsplit := count_flatMap_update s.mapped sc y h.ring.window_nodup hwin
    have hmap : Xprt.mapped { s with
        unmaps := s.unmaps ++ (s.ctxs sc).sges.take (s.ctxs sc).unmapCount
        ctxs := update s.ctxs sc { s.ctxs sc with unmapCount := 0 } } = update s.mapped sc [] := by
      funext i
      rcases eq_or_ne i sc with rfl | hne
      · simp [Xprt.mapped]
      · simp [Xprt.mapped, hne]
    rw [hmap]
    rw [count_append, hc, Nat.add_assoc]
    exact congrArg (s.unmaps.count y + ·) hsplit

theorem rpcrdmaSendctxUnmap_pop (s : Xprt) (sq : List Wr) (sc : ℕ) :
    rpcrdmaSendctxUnmap { s with sq := sq } sc = { rpcrdmaSendctxUnmap s sc with sq := sq } := by
  unfold rpcrdmaSendctxUnmap krefPut rpcrdmaCompleteRqst
  dsimp only
  split_ifs <;> rfl

theorem rpcrdmaSendctxUnmap_sq (s : Xprt) (sc : ℕ) : (rpcrdmaSendctxUnmap s sc).sq = s.sq := by
  unfold rpcrdmaSendctxUnmap krefPut rpcrdmaCompleteRqst
  dsimp only
  split_ifs <;> rfl

theorem rpcrdmaSendctxUnmap_ctxs (s : Xprt) (sc : ℕ) : (rpcrdmaSendctxUnmap s sc).ctxs =
    update s.ctxs sc { s.ctxs sc with unmapCount := 0 } := by
  by_cases hz : (s.ctxs sc).unmapCount = 0
  · rw [rpcrdmaSendctxUnmap_zero hz, ← hz, update_eq_self]
  · unfold rpcrdmaSendctxUnmap krefPut rpcrdmaCompleteRqst
    dsimp only
    split_ifs <;> rfl

theorem rpcrdmaSendctxUnmap_unmaps (s : Xprt) (sc : ℕ) : (rpcrdmaSendctxUnmap s sc).unmaps =
    s.unmaps ++ s.mapped sc := by
  by_cases hz : (s.ctxs sc).unmapCount = 0
  · rw [rpcrdmaSendctxUnmap_zero hz, Xprt.mapped, hz, take_zero, append_nil]
  · unfold rpcrdmaSendctxUnmap krefPut rpcrdmaCompleteRqst
    dsimp only
    split_ifs <;> rfl

/-- The Send of a request that waits for its LocalInv has completed. -/
theorem Inv.not_held (h : Inv x s) {sq : List Wr} (hsq : s.sq = .linv r :: sq) : ¬ s.held r := by
  rintro ⟨hne, hreq⟩
  have hw : s.sendctx r ∈ s.window := by
    by_contra hn
    exact hne (h.ring.out _ hn)
  have hp : s.phase r = .posted := (h.reqs.linv r (by rw [hsq]; exact mem_cons_self ..)).1
  rcases h.ring.inside _ hw hne with ⟨hm, -⟩ | ⟨-, hq⟩
  · rw [hsq] at hm
    have horder := h.reqs.order
    rw [hsq] at horder
    have hm : .send (s.sendctx r) true ∈ sq := by
      rcases mem_cons.1 hm with he | hm
      · cases he
      · exact hm
    exact (pairwise_cons.1 horder).1 _ hm hreq
  · rw [hreq, hp] at hq
    cases hq

/-- STEP: the last LocalInv of a request completes it, or leaves it to be sent again. -/
theorem Inv.localinvDone (h : Inv (fun _ => 0) s) {sq : List Wr} (hsq : s.sq = .linv r :: sq)
    (success : Bool) : Inv (fun _ => 0) (frwrWcLocalinvDone { s with sq := sq } r success) := by
  have hheld := h.not_held hsq
  have hmem : ∀ w, w ∈ sq → w ∈ s.sq := by
    intro w hm
    rw [hsq]
    exact mem_cons_of_mem _ hm
  obtain ⟨hp, hrep⟩ := h.reqs.linv r (by rw [hsq]; exact mem_cons_self ..)
  have horder := h.reqs.order
  rw [hsq] at horder
  obtain ⟨hafter, horder⟩ := pairwise_cons.1 horder
  have hgone : .linv r ∉ sq := fun hm => hafter _ hm rfl
  have hsends : ({ s with sq := sq } : Xprt).sends = s.sends := by
    simp [Xprt.sends, hsq]
  have hsend : ∀ {i}, .send i true ∈ s.sq → .send i true ∈ sq := by
    intro i hm
    rw [hsq] at hm
    rcases mem_cons.1 hm with he | hm
    · cases he
    · exact hm
  have hlinv : ∀ q ≠ r, .linv q ∈ sq ↔ .linv q ∈ s.sq := by
    intro q hq
    rw [hsq, mem_cons, or_iff_right]
    rintro he
    exact hq (Wr.linv.inj he)
  -- without its LocalInv the request waits for a reply again
  have hpop : Inv (fun _ => 0) { s with sq := sq, reply := update s.reply r none } := by
    have hkeep : ∀ {q}, q ≠ r → update s.reply r none q = s.reply q :=
      fun hq => update_of_ne hq _ _
    have hset : ∀ {q}, update s.reply r none q ≠ none → q ≠ r ∧ s.reply q ≠ none := by
      intro q hq
      rcases eq_or_ne q r with rfl | hqr
      · rw [update_self] at hq
        exact absurd rfl hq
      · rw [hkeep hqr] at hq
        exact ⟨hqr, hq⟩
    refine ⟨{ h.ring with sends := hsends ▸ h.ring.sends, inside := ?_ },
      ⟨?_, h.reqs.current, ?_, ?_, horder, ?_, ?_, h.reqs.waiting, ?_⟩, { h.pages with },
      h.oops, h.warn, h.hang⟩
    · intro i hi hne
      exact (h.ring.inside i hi hne).imp_left (And.imp_left hsend)
    · intro q hq
      have := h.reqs.kref q hq
      rcases eq_or_ne q r with rfl | hqr
      · have ho : s.owed q := .inr (by rw [hsq]; exact mem_cons_self ..)
        have ho' : ({ s with sq := sq, reply := update s.reply q none } : Xprt).owed q :=
          .inl (update_self ..)
        rw [if_pos ho']
        rw [if_pos ho] at this
        exact this
      · have ho : ({ s with sq := sq, reply := update s.reply r none } : Xprt).owed q ↔
            s.owed q := or_congr (by rw [← hkeep hqr]) (hlinv q hqr)
        rw [← if_congr ho rfl rfl] at this
        exact this
    · intro q hq
      obtain ⟨hc, hs, hr, hw, hn, hre⟩ := h.reqs.marshalled q hq
      refine ⟨hc, hs, hr, hw, fun hm => hn (hsends ▸ hm), ?_⟩
      by_contra hne
      exact (hset hne).2 hre
    · intro q hq
      have hqr : q ≠ r := by
        rintro rfl
        exact hgone hq
      obtain ⟨h1, h2⟩ := h.reqs.linv q (hmem _ hq)
      exact ⟨h1, fun hn => h2 ((hkeep hqr).symm.trans hn)⟩
    · exact fun q hq => h.reqs.fenced q (hset hq).2
    · intro q hq
      obtain ⟨h1, h2⟩ := h.reqs.idle q hq
      refine ⟨?_, h2⟩
      by_contra hne
      exact (hset hne).2 h1
    · intro q hq
      have hqr : q ≠ r := by
        rintro rfl
        rw [hp] at hq
        cases hq
      obtain ⟨h1, h2⟩ := h.reqs.done q hq
      exact ⟨h1, fun hn => h2 ((hkeep hqr).symm.trans hn)⟩
  cases success with
  | true =>
    rw [frwrWcLocalinvDone, if_pos rfl, rpcrdmaCompleteRqst]
    simp only [if_neg hrep]
    have hf := hpop.finish hp hheld hgone (h.reqs.fenced r hrep) hrep (s.kref r)
    simp only [update_idem, update_eq_self] at hf
    exact hf
  | false =>
    rw [frwrWcLocalinvDone, if_neg Bool.false_ne_true, if_neg hrep, rpcrdmaUnpinRqst]
    exact hpop

/-- STEP: the HCA is done with the oldest WR. -/
theorem Inv.hca (h : Inv (fun _ => 0) s) (success : Bool) :
    Inv (fun _ => 0) (SendCtx.hca s success) := by
  rcases hsq : s.sq with - | ⟨w, sq⟩
  · rwa [SendCtx.hca, hsq]
  cases w with
  | linv r =>
    rw [SendCtx.hca, hsq]
    exact h.localinvDone hsq success
  | send sc sg =>
    rw [SendCtx.hca, hsq]
    have hm : .send sc sg ∈ s.sq := by
      rw [hsq]
      exact mem_cons_self ..
    dsimp only
    split
    · rw [h.put hsq, rpcrdmaSendctxUnmap_pop]
      refine (h.unmap hm).popSend ((rpcrdmaSendctxUnmap_sq s sc).trans hsq) ?_ (.inl rfl)
      rw [rpcrdmaSendctxUnmap_ctxs, update_self]
    · -- nothing tells the driver that this Send is done
      rename_i hc
      have hsg : sg = false := by
        cases sg
        · rfl
        · exact absurd rfl hc
      subst hsg
      have hz : (s.ctxs sc).unmapCount = 0 := by
        by_contra hne
        have hnd := h.ring.sends.nodup h.ring.window_nodup
        have hw := h.ring.sends.subset (mem_sends hm)
        rcases h.ring.inside sc hw hne with ⟨ht, -⟩ | ⟨rfl, hp⟩
        · rw [Xprt.sends, hsq, List.filterMap_cons] at hnd
          rw [hsq] at ht
          rcases mem_cons.1 ht with he | ht
          · cases he
          · exact (nodup_cons.1 hnd).1 (mem_filterMap.2 ⟨_, ht, rfl⟩)
        · exact (h.reqs.marshalled _ hp).2.2.2.2.1 (mem_sends hm)
      exact h.popSend hsq hz (.inr rfl)

/-- REPLY: the reply is pinned and the request has no registered memory; the receive path has one
    reference to put. -/
theorem Inv.pin (h : Inv (fun _ => 0) s) (hp : s.phase r = .posted) (hc : s.reply r = none)
    (rep : ℕ) (n : ℕ) (hn : n = 0) : Inv (update (fun _ => 0) r 1) { s with
      reply := update s.reply r (some rep)
      registered := update s.registered r n } := by
  subst hn
  have hgone : .linv r ∉ s.sq := fun hm => (h.reqs.linv r hm).2 hc
  have hkeep : ∀ {q}, q ≠ r → update s.reply r (some rep) q = s.reply q :=
    fun hq => update_of_ne hq _ _
  have hreg : ∀ {q}, q ≠ r → update s.registered r 0 q = s.registered q :=
    fun hq => update_of_ne hq _ _
  have hne : ∀ {q ph}, ph ≠ .posted → s.phase q = ph → q ≠ r := by
    rintro q ph hph hq rfl
    exact hph (hq.symm.trans hp)
  refine ⟨{ h.ring with }, ⟨?_, h.reqs.current, ?_, ?_, h.reqs.order, ?_, ?_, h.reqs.waiting, ?_⟩,
    { h.pages with }, h.oops, h.warn, h.hang⟩
  · intro q hq
    have hk := h.reqs.kref q hq
    rcases eq_or_ne q r with rfl | hqr
    · have ho : ¬ ({ s with
          reply := update s.reply q (some rep)
          registered := update s.registered q 0 } : Xprt).owed q := by
        rintro (hn | hm)
        · have hn : update s.reply q (some rep) q = none := hn
          rw [update_self] at hn
          cases hn
        · exact hgone hm
      rw [if_pos (.inl hc)] at hk
      rw [if_neg ho, update_self]
      refine ⟨hk.1.trans ?_, hk.2⟩
      change 1 + (if s.held q then 1 else 0) + 0 = 0 + (if s.held q then 1 else 0) + 1
      omega
    · have ho : ({ s with
          reply := update s.reply r (some rep)
          registered := update s.registered r 0 } : Xprt).owed q ↔ s.owed q :=
        or_congr (by rw [← hkeep hqr]) Iff.rfl
      rw [← if_congr ho rfl rfl] at hk
      rw [update_of_ne hqr]
      exact hk
  · intro q hq
    obtain ⟨h1, h2, h3, h4, h5, h6⟩ := h.reqs.marshalled q hq
    exact ⟨h1, h2, h3, h4, h5, (hkeep (hne (by decide) hq)).trans h6⟩
  · intro q hq
    have hqr : q ≠ r := by
      rintro rfl
      exact hgone hq
    exact ⟨(h.reqs.linv q hq).1, fun hn => (h.reqs.linv q hq).2 ((hkeep hqr).symm.trans hn)⟩
  · intro q hq
    rcases eq_or_ne q r with rfl | hqr
    · exact update_self ..
    · exact (hreg hqr).trans (h.reqs.fenced q fun hn => hq ((hkeep hqr).trans hn))
  · intro q hq
    have hqr := hne (by decide) hq
    obtain ⟨h1, h2, h3⟩ := h.reqs.idle q hq
    exact ⟨(hkeep hqr).trans h1, (hreg hqr).trans h2, h3⟩
  · intro q hq
    have hqr := hne (by decide) hq
    exact ⟨(h.reqs.done q hq).1, fun hn => (h.reqs.done q hq).2 ((hkeep hqr).symm.trans hn)⟩

/-- REPLY: the reference that the reply holds goes over to a LocalInv. -/
theorem Inv.queueLinv (h : Inv x s) (hp : s.phase r = .posted) (hrep : s.reply r ≠ none)
    (hgone : .linv r ∉ s.sq) (hx : x r = 1) :
    Inv (update x r 0) { s with sq := s.sq ++ [.linv r] } := by
  have hlinv : ∀ {q}, q ≠ r → (.linv q ∈ s.sq ++ [.linv r] ↔ .linv q ∈ s.sq) := by
    intro q hq
    simp [hq]
  have hsends : ({ s with sq := s.sq ++ [.linv r] } : Xprt).sends = s.sends := by
    simp [Xprt.sends]
  refine ⟨{ h.ring with sends := hsends ▸ h.ring.sends, inside := ?_ },
    { h.reqs with kref := ?_, marshalled := ?_, linv := ?_, order := ?_ }, { h.pages with },
    h.oops, h.warn, h.hang⟩
  · intro i hi hz
    exact (h.ring.inside i hi hz).imp_left (And.imp_left (mem_append_left _))
  · intro q hq
    have hk := h.reqs.kref q hq
    rcases eq_or_ne q r with rfl | hqr
    · have ho : ¬ s.owed q := not_or.2 ⟨hrep, hgone⟩
      have ho' : ({ s with sq := s.sq ++ [.linv q] } : Xprt).owed q := .inr (by simp)
      rw [if_neg ho, hx] at hk
      rw [if_pos ho', update_self]
      change s.kref q = 1 + (if s.held q then 1 else 0) + 0 ∧ 0 < s.kref q
      omega
    · have ho : ({ s with sq := s.sq ++ [.linv r] } : Xprt).owed q ↔ s.owed q :=
        or_congr_right (hlinv hqr)
      rw [← if_congr ho rfl rfl] at hk
      rw [update_of_ne hqr]
      exact hk
  · intro q hq
    obtain ⟨h1, h2, h3, h4, h5, h6⟩ := h.reqs.marshalled q hq
    exact ⟨h1, h2, h3, h4, fun hm => h5 (hsends ▸ hm), h6⟩
  · intro q hq
    rcases eq_or_ne q r with rfl | hqr
    · exact ⟨hp, hrep⟩
    · exact h.reqs.linv q ((hlinv hqr).1 hq)
  · refine List.pairwise_append.2 ⟨h.reqs.order, List.pairwise_singleton .., fun a ha b hb => ?_⟩
    rw [mem_singleton.1 hb]
    cases a with
    | send => trivial
    | linv q =>
      rintro rfl
      exact hgone ha

/-- The regions of a posted request are gone, and its reply was dropped with them. -/
theorem Inv.unregister (h : Inv (fun _ => 0) s) (hc : s.reply r = none) :
    Inv (fun _ => 0) { s with
      registered := update s.registered r 0
      reply := update s.reply r none } := by
  rw [← hc, update_eq_self]
  have hzero : ∀ {q}, s.registered q = 0 → update s.registered r 0 q = 0 := by
    intro q hq
    rcases eq_or_ne q r with rfl | hqr
    · exact update_self ..
    · exact (update_of_ne hqr _ _).trans hq
  exact ⟨{ h.ring with }, { h.reqs with
        fenced := fun q hq => hzero (h.reqs.fenced q hq),
        idle := fun q hq =>
          ⟨(h.reqs.idle q hq).1, hzero (h.reqs.idle q hq).2.1, (h.reqs.idle q hq).2.2⟩ },
    { h.pages with }, h.oops, h.warn, h.hang⟩

/-- STEP: the first reply to a Call. -/
theorem Inv.replyHandler (h : Inv (fun _ => 0) s) (hp : s.phase r = .posted)
    (hc : s.reply r = none) (rep : ℕ) (inv post : Bool) :
    Inv (fun _ => 0) (rpcrdmaReplyHandler s r rep inv post) := by
  have hstep : ∀ n, Inv (fun _ => 0)
      (if update s.registered r n r ≠ 0 then
        frwrUnmapAsync { s with
          reply := update s.reply r (some rep)
          registered := update s.registered r n } r post
      else SendCtx.krefPut { s with
          reply := update s.reply r (some rep)
          registered := update s.registered r n } r) := by
    intro n
    rw [update_self]
    split
    · cases post with
      | true =>
        have := (h.pin hp hc rep 0 rfl).queueLinv hp (by simp) (fun hm => (h.reqs.linv r hm).2 hc)
          (update_self ..)
        rw [update_idem, update_eq_self_iff.2 rfl] at this
        simpa only [frwrUnmapAsync, update_idem, if_true] using this
      | false =>
        have := h.unregister hc
        simpa only [frwrUnmapAsync, rpcrdmaUnpinRqst, update_idem, if_false,
          Bool.false_eq_true] using this
    · rename_i hn
      have := Inv.krefPut (h.pin hp hc rep n (not_not.1 hn)) hp (update_self ..)
      rw [update_idem] at this
      rwa [update_eq_self_iff.2 rfl] at this
  cases inv with
  | true => exact hstep (s.registered r - 1)
  | false =>
    have := hstep (s.registered r)
    rw [update_eq_self] at this
    exact this

/-- The head is the last of the window, and its Send comes behind those in the queue. -/
theorem Ring.sends_head (h : Ring s) (hw : s.scHead ∈ s.window) (hn : s.scHead ∉ s.sends) :
    (s.sends ++ [s.scHead]).Sublist s.window := by
  obtain ⟨pre, post, he⟩ := append_of_mem hw
  have hpost : post = [] := (ringWindow_split h.head h.tail he).trans (ringWindow_self ..)
  subst hpost
  have hs := h.sends
  rw [he] at hs ⊢
  obtain ⟨l₁, l₂, heq, h₁, h₂⟩ := List.sublist_append_iff.1 hs
  refine List.Sublist.append ?_ (List.Sublist.refl _)
  rcases l₂ with - | ⟨a, l₂⟩
  · rw [heq, append_nil]
    exact h₁
  · have ha : a ∈ [s.scHead] := h₂.subset (mem_cons_self ..)
    refine absurd ?_ hn
    rw [heq, ← mem_singleton.1 ha]
    simp

/-- STEP: the marshalled request is posted. Its Send is signalled if it keeps pages. -/
theorem Inv.post (h : Inv (fun _ => 0) s) (hcur : s.current = some r) (n : ℕ) {sg : Bool}
    (hsg : s.kref r > 1 → sg = true) : Inv (fun _ => 0) { s with
      sendCount := n
      current := none
      sq := s.sq ++ [.send (s.sendctx r) sg]
      phase := update s.phase r .posted } := by
  have hp := h.reqs.current r hcur
  obtain ⟨-, hctx, hreq, hwin, hnot, hrep⟩ := h.reqs.marshalled r hp
  have hphase : ∀ {q}, q ≠ r → update s.phase r .posted q = s.phase q :=
    fun hq => update_of_ne hq _ _
  have hne : ∀ {q ph}, ph ≠ .posted → update s.phase r .posted q = ph → q ≠ r ∧ s.phase q = ph := by
    rintro q ph hph hq
    rcases eq_or_ne q r with rfl | hqr
    · rw [update_self] at hq
      exact absurd hq.symm hph
    · exact ⟨hqr, (hphase hqr).symm.trans hq⟩
  have hold : ∀ {q}, update s.phase r .posted q = .marshalled ∨
      update s.phase r .posted q = .posted → s.phase q = .marshalled ∨ s.phase q = .posted := by
    rintro q hq
    rcases eq_or_ne q r with rfl | hqr
    · exact .inl hp
    · rwa [hphase hqr] at hq
  have hlinv : ∀ {q}, .linv q ∈ s.sq ++ [.send (s.sendctx r) sg] ↔ .linv q ∈ s.sq := by
    intro q
    simp
  have hsends : ({ s with sq := s.sq ++ [.send (s.sendctx r) sg] } : Xprt).sends =
      s.sends ++ [s.scHead] := by
    simp [Xprt.sends, hctx]
  -- no other request is marshalled: the head is the context of this one
  have honly : ∀ {q}, s.phase q = .marshalled → q = r := by
    intro q hq
    obtain ⟨-, -, hq, -⟩ := h.reqs.marshalled q hq
    exact hq.symm.trans hreq
  refine ⟨{ h.ring with sends := hsends ▸ h.ring.sends_head hwin hnot, inside := ?_ },
    ⟨?_, fun q hq => absurd hq.symm (Option.some_ne_none q), ?_, ?_, ?_, h.reqs.fenced, ?_, ?_, ?_⟩,
    { h.pages with }, h.oops, h.warn, h.hang⟩
  · intro i hi hz
    left
    rcases h.ring.inside i hi hz with ⟨hm, hq⟩ | ⟨rfl, hq⟩
    · refine ⟨mem_append_left _ hm, ?_⟩
      rcases eq_or_ne (s.ctxs i).req r with he | hqr
      · exact he ▸ update_self ..
      · exact (hphase hqr).trans hq
    · have hheld : s.held r := by
        rw [Xprt.held, hctx]
        exact ⟨hz, hreq⟩
      have hk := (h.reqs.kref r (.inl hp)).1
      rw [if_pos (.inl hrep), if_pos hheld] at hk
      rw [hsg (by omega), hctx, hreq]
      exact ⟨by simp, update_self ..⟩
  · intro q hq
    have hk := h.reqs.kref q (hold hq)
    have ho : ({ s with
        sendCount := n
        current := none
        sq := s.sq ++ [.send (s.sendctx r) sg]
        phase := update s.phase r .posted } : Xprt).owed q ↔ s.owed q :=
      or_congr Iff.rfl hlinv
    rw [← if_congr ho rfl rfl] at hk
    exact hk
  · intro q hq
    obtain ⟨hqr, hq⟩ := hne (by decide) hq
    exact absurd (honly hq) hqr
  · intro q hq
    obtain ⟨h1, h2⟩ := h.reqs.linv q (hlinv.1 hq)
    refine ⟨(hphase ?_).trans h1, h2⟩
    rintro rfl
    exact h2 hrep
  · refine List.pairwise_append.2 ⟨h.reqs.order, List.pairwise_singleton .., fun a ha b hb => ?_⟩
    rw [mem_singleton.1 hb]
    cases a with
    | send => trivial
    | linv q =>
      intro he
      rw [hctx, hreq] at he
      exact (h.reqs.linv q ha).2 (he ▸ hrep)
  · exact fun q hq => h.reqs.idle q (hne (by decide) hq).2
  · exact fun q hq => h.reqs.waiting q (hold hq)
  · exact fun q hq => h.reqs.done q (hne (by decide) hq).2

/-- STEP: the connection is dropped instead. -/
theorem Inv.drop (h : Inv x s) (n : ℕ) :
    Inv x { s with sendCount := n, current := none, closed := true } :=
  ⟨{ h.ring with },
    { h.reqs with
        current := fun q hq => absurd hq.symm (Option.some_ne_none q),
        marshalled := fun q hq => ⟨.inr rfl, (h.reqs.marshalled q hq).2⟩ },
    { h.pages with }, h.oops, h.warn, h.hang⟩

/-- STEP: `frwr_send`. -/
theorem Inv.frwrSend (h : Inv (fun _ => 0) s) (hcur : s.current = some r) (post : Bool) :
    Inv (fun _ => 0) (SendCtx.frwrSend s r post) := by
  cases post with
  | true =>
    refine h.post hcur _ fun hk => ?_
    exact decide_eq_true (.inl hk)
  | false => exact h.drop _

/-- STEP: the slot of a complete Call is freed. -/
theorem Inv.freeSlot (h : Inv x s) (hd : s.phase r = .done) : Inv x (xprtRdmaFreeSlot s r) := by
  have hrep := (h.reqs.done r hd).2
  have hphase : ∀ {q}, q ≠ r → update s.phase r .idle q = s.phase q :=
    fun hq => update_of_ne hq _ _
  have hreply : ∀ {q}, q ≠ r → update s.reply r none q = s.reply q :=
    fun hq => update_of_ne hq _ _
  have hne : ∀ {q ph}, ph ≠ .idle → update s.phase r .idle q = ph → q ≠ r ∧ s.phase q = ph := by
    rintro q ph hph hq
    rcases eq_or_ne q r with rfl | hqr
    · rw [update_self] at hq
      exact absurd hq.symm hph
    · exact ⟨hqr, (hphase hqr).symm.trans hq⟩
  have hnd : ∀ {q ph}, ph ≠ .done → s.phase q = ph → q ≠ r := by
    rintro q ph hph hq rfl
    exact hph (hq.symm.trans hd)
  refine ⟨{ h.ring with inside := ?_ },
    ⟨?_, ?_, ?_, ?_, h.reqs.order, ?_, ?_, ?_, ?_⟩,
    { h.pages with }, h.oops, h.warn, h.hang⟩
  · intro i hi hz
    refine (h.ring.inside i hi hz).imp (fun ⟨hm, hq⟩ => ⟨hm, ?_⟩) fun ⟨hm, hq⟩ => ⟨hm, ?_⟩
    · exact (hphase (hnd (by decide) hq)).trans hq
    · exact (hphase (hnd (by decide) hq)).trans hq
  · intro q hq
    have hqr : q ≠ r := by
      rcases hq with hq | hq
      · exact (hne (by decide) hq).1
      · exact (hne (by decide) hq).1
    have hk := h.reqs.kref q (hq.imp (fun hq => (hne (by decide) hq).2)
      fun hq => (hne (by decide) hq).2)
    have ho : (xprtRdmaFreeSlot s r).owed q ↔ s.owed q :=
      or_congr (by rw [← hreply hqr]; rfl) Iff.rfl
    rw [← if_congr ho rfl rfl] at hk
    exact hk
  · intro q hq
    have := h.reqs.current q hq
    exact (hphase (hnd (by decide) this)).trans this
  · intro q hq
    obtain ⟨hqr, hq⟩ := hne (by decide) hq
    obtain ⟨h1, h2, h3, h4, h5, h6⟩ := h.reqs.marshalled q hq
    exact ⟨h1, h2, h3, h4, h5, (hreply hqr).trans h6⟩
  · intro q hq
    obtain ⟨h1, h2⟩ := h.reqs.linv q hq
    have hqr := hnd (by decide) h1
    exact ⟨(hphase hqr).trans h1, fun hn => h2 ((hreply hqr).symm.trans hn)⟩
  · intro q hq
    refine h.reqs.fenced q fun hn => hq ?_
    rcases eq_or_ne q r with rfl | hqr
    · exact update_self ..
    · exact (hreply hqr).trans hn
  · intro q hq
    rcases eq_or_ne q r with rfl | hqr
    · exact ⟨update_self .., h.reqs.fenced q hrep, update_self ..⟩
    · obtain ⟨h1, h2, h3⟩ := h.reqs.idle q ((hphase hqr).symm.trans hq)
      exact ⟨(hreply hqr).trans h1, h2, (update_of_ne hqr _ _).trans h3⟩
  · rintro q (hq | hq)
    · obtain ⟨hqr, hq⟩ := hne (by decide) hq
      exact (update_of_ne hqr _ _).trans (h.reqs.waiting q (.inl hq))
    · obtain ⟨hqr, hq⟩ := hne (by decide) hq
      exact (update_of_ne hqr _ _).trans (h.reqs.waiting q (.inr hq))
  · intro q hq
    obtain ⟨hqr, hq⟩ := hne (by decide) hq
    obtain ⟨h1, h2⟩ := h.reqs.done q hq
    exact ⟨(update_of_ne hqr _ _).trans h1, fun hn => h2 ((hreply hqr).symm.trans hn)⟩

/-! ### Mapping the pages of a Call -/

/-- The SGEs `l` are mapped for `sc`. -/
def mapOnto (s : Xprt) (sc : ℕ) (l : List (ℕ × ℕ)) : Xprt :=
  { s with
    ctxs := update s.ctxs sc { s.ctxs sc with
      sges := (s.ctxs sc).sges ++ l, unmapCount := (s.ctxs sc).unmapCount + l.length }
    maps := s.maps ++ l
    fresh := s.fresh + l.length }

/-- At most `n` mappings: those of `l` work, and if one does not it is the next. -/
structure Mapped (dma : ℕ → Bool) (s : Xprt) (sc : ℕ) (l : List (ℕ × ℕ)) (res : Xprt × Bool)
    (n : ℕ) : Prop where
  state : res.1 = mapOnto s sc l
  addrs : l.map fst = range' s.fresh l.length
  worked : ∀ i < l.length, dma ((s.ctxs sc).unmapCount + i) = true
  failed : res.2 = false → dma ((s.ctxs sc).unmapCount + l.length) = false ∧ l.length < n
  bound : l.length ≤ n

variable {dma : ℕ → Bool} {l l' : List (ℕ × ℕ)} {res : Xprt × Bool} {n n' : ℕ}

theorem mapOnto_nil (s : Xprt) (sc : ℕ) : mapOnto s sc [] = s := by
  simp [mapOnto]

theorem mapOnto_append (s : Xprt) (sc : ℕ) (l l' : List (ℕ × ℕ)) :
    mapOnto (mapOnto s sc l) sc l' = mapOnto s sc (l ++ l') := by
  simp [mapOnto, Nat.add_assoc]

theorem Mapped.nothing (dma : ℕ → Bool) (s : Xprt) (sc : ℕ) : Mapped dma s sc [] (s, true) 0 :=
  ⟨(mapOnto_nil s sc).symm, rfl, fun _ hi => absurd hi (Nat.not_lt_zero _), (fun h => by cases h),
    Nat.zero_le _⟩

theorem Mapped.trans (h : Mapped dma s sc l (s', true) n) (h' : Mapped dma s' sc l' res n') :
    Mapped dma s sc (l ++ l') res (n + n') := by
  have hs : s' = mapOnto s sc l := h.state
  have hcount : (s'.ctxs sc).unmapCount = (s.ctxs sc).unmapCount + l.length := by
    rw [hs]
    simp [mapOnto]
  have hfresh : s'.fresh = s.fresh + l.length := by
    rw [hs]
    rfl
  refine ⟨?_, ?_, ?_, ?_, ?_⟩
  · rw [h'.state, hs, mapOnto_append]
  · rw [List.map_append, h.addrs, h'.addrs, hfresh, length_append, List.range'_append_1]
  · intro i hi
    by_cases hil : i < l.length
    · exact h.worked i hil
    · rw [length_append] at hi
      have := h'.worked (i - l.length) (by omega)
      rw [hcount] at this
      rwa [show (s.ctxs sc).unmapCount + i = (s.ctxs sc).unmapCount + l.length + (i - l.length) by
        omega]
  · intro hf
    obtain ⟨hd, hlt⟩ := h'.failed hf
    rw [hcount] at hd
    have := h.bound
    rw [length_append, ← Nat.add_assoc]
    exact ⟨hd, by omega⟩
  · have := h.bound
    have := h'.bound
    rw [length_append]
    omega

/-- MAP: one page. -/
theorem dmaMapPage_mapped (s : Xprt) (sc len : ℕ) (dma : ℕ → Bool) :
    ∃ l, Mapped dma s sc l (dmaMapPage s sc len dma) 1 ∧
      (l ≠ [] ↔ (dmaMapPage s sc len dma).2) := by
  rw [dmaMapPage]
  cases hd : dma (s.ctxs sc).unmapCount with
  | true =>
    refine ⟨[(s.fresh, len)], ⟨rfl, rfl, ?_, (fun hf => by cases hf), Nat.le_refl _⟩, by simp⟩
    intro i hi
    have : i = 0 := by simpa using hi
    rwa [this]
  | false =>
    refine ⟨[], ⟨(mapOnto_nil s sc).symm, rfl, fun _ hi => absurd hi (Nat.not_lt_zero _), ?_,
      Nat.zero_le _⟩, by simp⟩
    exact fun _ => ⟨hd, Nat.one_pos⟩

/-- How many pages `remaining` bytes from `pageBase` on touch. -/
def pagesOf (pageBase remaining : ℕ) : ℕ :=
  (pageBase + remaining + PAGE_SIZE - 1) / PAGE_SIZE * if remaining = 0 then 0 else 1

theorem pagesOf_next {base rem : ℕ} (hb : base < PAGE_SIZE) (hr : rem ≠ 0) :
    pagesOf base rem = 1 + pagesOf 0 (rem - min (PAGE_SIZE - base) rem) := by
  unfold pagesOf
  unfold PAGE_SIZE at *
  rw [if_neg hr]
  by_cases hle : rem ≤ 4096 - base
  · rw [min_eq_right hle, Nat.sub_self, if_pos rfl]
    omega
  · rw [min_eq_left (by omega), if_neg (by omega)]
    omega

/-- MAP: the page list. -/
theorem pagelistLoop_mapped : ∀ (fuel : ℕ) (s : Xprt) {base rem : ℕ}, base < PAGE_SIZE →
    ∃ l, Mapped dma s sc l (pagelistLoop sc dma fuel s base rem) (pagesOf base rem)
  | 0, s, base, rem, _ => ⟨[], (mapOnto_nil s sc).symm, rfl,
      fun _ hi => absurd hi (Nat.not_lt_zero _), (fun h => by cases h), Nat.zero_le _⟩
  | fuel + 1, s, base, rem, hb => by
    rw [pagelistLoop]
    split
    · rename_i h0
      subst h0
      exact ⟨[], Mapped.nothing dma s sc⟩
    · rename_i h0
      rw [pagesOf_next hb h0]
      dsimp only
      obtain ⟨l, hl, hne⟩ := dmaMapPage_mapped s sc (min (PAGE_SIZE - base) rem) dma
      rcases hres : dmaMapPage s sc (min (PAGE_SIZE - base) rem) dma with ⟨s', b⟩
      rw [hres] at hl hne
      cases b with
      | false =>
        refine ⟨l, hl.state, hl.addrs, hl.worked, fun hf => ?_, ?_⟩
        · exact ⟨(hl.failed hf).1, Nat.lt_of_lt_of_le (hl.failed hf).2 (Nat.le_add_right ..)⟩
        · exact Nat.le_trans hl.bound (Nat.le_add_right ..)
      | true =>
        obtain ⟨l', hl'⟩ : ∃ l', Mapped dma s' sc l'
            (pagelistLoop sc dma fuel s' 0 (rem - min (PAGE_SIZE - base) rem))
            (pagesOf 0 (rem - min (PAGE_SIZE - base) rem)) :=
          pagelistLoop_mapped fuel s' (by decide)
        exact ⟨l ++ l', hl.trans hl'⟩

/-- The pages of request `r` are mapped, with a reference for them; or nothing has happened. -/
def Prepares (r : ℕ) (s : Xprt) (res : Xprt × Bool) : Prop :=
  if res.2 then ∃ l, l.map fst = range' s.fresh l.length ∧
    res.1 = { mapOnto s (s.sendctx r) l with
      kref := update s.kref r (s.kref r + if l = [] then 0 else 1) }
  else res.1 = s

theorem Prepares.nothing (r : ℕ) (s : Xprt) (ok : Bool) : Prepares r s (s, ok) := by
  cases ok with
  | true =>
    refine ⟨[], rfl, ?_⟩
    rw [mapOnto_nil, if_pos rfl, Nat.add_zero, update_eq_self]
  | false => rfl

theorem Mapped.ctxs_unmapCount (h : Mapped dma s sc l res n) (h0 : (s.ctxs sc).unmapCount = 0) :
    (res.1.ctxs sc).unmapCount = l.length := by
  rw [h.state]
  simp [mapOnto, h0]

/-- PREPARE: `rpcrdma_prepare_noch_mapped` maps everything or nothing, if no mapping fails after
    another one worked. -/
theorem nochMapped_prepares {xdr : XdrBuf} {head : Bool}
    (h0 : (s.ctxs (s.sendctx r)).unmapCount = 0)
    (hc : head = true → dma 0 = true → ∀ i < nochMappings xdr, dma i = true) :
    Prepares r s (rpcrdmaPrepareNochMapped s r xdr head dma) := by
  rw [rpcrdmaPrepareNochMapped]
  generalize hsc : s.sendctx r = sc at h0
  cases head with
  | false => exact Prepares.nothing r s false
  | true =>
    rw [if_neg Bool.false_ne_true.symm]
    -- a mapping that fails is the first one
    have hfail : ∀ {l : List (ℕ × ℕ)} {s' : Xprt} {n : ℕ}, Mapped dma s sc l (s', false) n →
        n ≤ nochMappings xdr → s' = s := by
      intro l s' n hl hn
      obtain ⟨hd, hlt⟩ := hl.failed rfl
      rw [h0, Nat.zero_add] at hd
      have hnil : l = [] := by
        by_contra hne
        have hpos : 0 < l.length := List.length_pos_iff.2 hne
        have hw := hl.worked 0 hpos
        rw [h0] at hw
        have := hc rfl hw l.length (Nat.lt_of_lt_of_le hlt hn)
        rw [hd] at this
        cases this
      have := hl.state
      rwa [hnil, mapOnto_nil] at this
    obtain ⟨l, hl⟩ : ∃ l, Mapped dma s sc l
        (if xdr.pageLen ≠ 0 then rpcrdmaPreparePagelist s sc xdr dma else (s, true))
        (pagesOf (xdr.pageBase % PAGE_SIZE) xdr.pageLen) := by
      split
      · exact pagelistLoop_mapped _ s (Nat.mod_lt _ (by decide))
      · rename_i hz
        rw [not_not.1 hz]
        refine ⟨[], ?_⟩
        have := Mapped.nothing dma s sc
        rwa [pagesOf, if_pos rfl, Nat.mul_zero]
    rcases hres : (if xdr.pageLen ≠ 0 then rpcrdmaPreparePagelist s sc xdr dma else (s, true))
      with ⟨s₁, ok₁⟩
    rw [hres] at hl
    cases ok₁ with
    | false =>
      rw [hfail hl (Nat.le_add_right ..)]
      exact Prepares.nothing r s false
    | true =>
      dsimp only
      obtain ⟨l', hl'⟩ : ∃ l', Mapped dma s₁ sc l'
          (if xdr.tailLen ≠ 0 then dmaMapPage s₁ sc xdr.tailLen dma else (s₁, true))
          (if xdr.tailLen = 0 then 0 else 1) := by
        split
        · obtain ⟨l', hl', -⟩ := dmaMapPage_mapped s₁ sc xdr.tailLen dma
          exact ⟨l', hl'⟩
        · rename_i hz
          rw [if_pos (not_not.1 hz)]
          exact ⟨[], Mapped.nothing dma s₁ sc⟩
      rcases hres' : (if xdr.tailLen ≠ 0 then dmaMapPage s₁ sc xdr.tailLen dma else (s₁, true))
        with ⟨s₂, ok₂⟩
      rw [hres'] at hl'
      have htr := hl.trans hl'
      cases ok₂ with
      | false =>
        rw [hfail htr (Nat.le_refl _)]
        exact Prepares.nothing r s false
      | true =>
        dsimp only
        have hcount := htr.ctxs_unmapCount h0
        have hs₂ : s₂ = mapOnto s sc (l ++ l') := htr.state
        rw [hcount]
        by_cases hnil : l ++ l' = []
        · rw [hnil] at hs₂ ⊢
          rw [if_neg (by simp), hs₂, mapOnto_nil]
          exact Prepares.nothing r s true
        · rw [if_pos (by simpa using hnil)]
          refine ⟨l ++ l', htr.addrs, ?_⟩
          rw [if_neg hnil, hs₂, hsc]
          rfl

/-- PREPARE: `rpcrdma_prepare_readch` maps the tail or nothing. -/
theorem readch_prepares (s : Xprt) (r : ℕ) (xdr : XdrBuf) (head : Bool) (dma : ℕ → Bool) :
    Prepares r s (rpcrdmaPrepareReadch s r xdr head dma) := by
  rw [rpcrdmaPrepareReadch]
  cases head with
  | false => exact Prepares.nothing r s false
  | true =>
    rw [if_neg Bool.false_ne_true.symm]
    split
    · obtain ⟨l, hl, hne⟩ := dmaMapPage_mapped s (s.sendctx r) (xdr.tailLen - xdr.tailLen % 4) dma
      rcases hres : dmaMapPage s (s.sendctx r) (xdr.tailLen - xdr.tailLen % 4) dma with ⟨s₁, ok⟩
      rw [hres] at hl hne
      have hs₁ : s₁ = mapOnto s (s.sendctx r) l := hl.state
      cases ok with
      | false =>
        have hnil : l = [] := by
          by_contra h
          exact Bool.false_ne_true (hne.1 h)
        rw [hnil, mapOnto_nil] at hs₁
        rw [hs₁]
        exact Prepares.nothing r s false
      | true =>
        refine ⟨l, hl.addrs, ?_⟩
        rw [if_neg (hne.2 rfl), hs₁]
        rfl
    · exact Prepares.nothing r s true

/-- A context is taken at the head for request `r`. -/
def advance (s : Xprt) (r n : ℕ) : Xprt :=
  { s with
    scHead := n
    sendctx := update s.sendctx r n
    ctxs := update s.ctxs n ⟨r, [], 0⟩
    kref := update s.kref r 1 }

/-- The request is marshalled, with the pages `l` mapped. -/
def marshal (s : Xprt) (r : ℕ) (l : List (ℕ × ℕ)) (mrs : ℕ) : Xprt :=
  { mapOnto s s.scHead l with
    kref := update s.kref r (s.kref r + if l = [] then 0 else 1)
    registered := update s.registered r mrs
    phase := update s.phase r .marshalled
    current := some r }

variable {mrs : ℕ}

theorem marshal_ctxs {i : ℕ} (hi : i ≠ s.scHead) : (marshal s r l mrs).ctxs i = s.ctxs i :=
  update_of_ne hi ..

theorem marshal_head (hctx : s.ctxs s.scHead = ⟨r, [], 0⟩) :
    (marshal s r l mrs).ctxs s.scHead = ⟨r, l, l.length⟩ := by
  simp [marshal, mapOnto, hctx]

theorem marshal_req (s : Xprt) (i : ℕ) : ((marshal s r l mrs).ctxs i).req = (s.ctxs i).req := by
  rcases eq_or_ne i s.scHead with rfl | hi
  · simp [marshal, mapOnto]
  · rw [marshal_ctxs hi]

theorem marshal_phase {q : ℕ} (hq : q ≠ r) : (marshal s r l mrs).phase q = s.phase q :=
  update_of_ne hq ..

/-- No request is marshalled when the next one may be. -/
theorem Inv.none_marshalled (h : Inv x s) (hcur : s.current = none) (hcl : s.closed = false)
    (q : ℕ) : s.phase q ≠ .marshalled := by
  intro hq
  rcases (h.reqs.marshalled q hq).1 with hc | hc
  · rw [hcur] at hc
    cases hc
  · rw [hcl] at hc
    cases hc

/-- The request of a context with mapped pages is not idle. -/
theorem Inv.req_ne (h : Inv x s) (hr : s.phase r = .idle) {i : ℕ} (hz : (s.ctxs i).unmapCount ≠ 0) :
    (s.ctxs i).req ≠ r := by
  rintro rfl
  have hi : i ∈ s.window := by
    by_contra hn
    exact hz (h.ring.out i hn)
  rcases h.ring.inside i hi hz with ⟨-, hp⟩ | ⟨-, hp⟩
  · rw [hr] at hp
    cases hp
  · rw [hr] at hp
    cases hp

/-- The ring with the pages mapped: only the context at the head may have more of them. -/
theorem Ring.marshal (h : Inv x s) (hr : s.phase r = .idle) (hctx : s.ctxs s.scHead = ⟨r, [], 0⟩)
    (hown : s.sendctx r = s.scHead) (hwin : s.scHead ∈ s.window) : Ring (marshal s r l mrs) := by
  refine ⟨h.ring.head, h.ring.tail, h.ring.sends, ?_, ?_, ?_, ?_⟩
  · intro i hi
    have hin : i ≠ s.scHead := by
      rintro rfl
      exact hi hwin
    rw [marshal_ctxs hin]
    exact h.ring.out i hi
  · intro i hi hz
    rcases eq_or_ne i s.scHead with rfl | hin
    · refine .inr ⟨rfl, ?_⟩
      rw [marshal_head hctx]
      exact update_self ..
    · rw [marshal_ctxs hin] at hz ⊢
      rw [marshal_phase (h.req_ne hr hz)]
      exact .inl ((h.ring.inside i hi hz).resolve_right fun hh => hin hh.1)
  · intro i hz
    rcases eq_or_ne i s.scHead with rfl | hin
    · rw [marshal_head hctx]
      exact hown
    · rw [marshal_ctxs hin] at hz ⊢
      exact h.ring.own i hz
  · intro i hz
    rcases eq_or_ne i s.scHead with rfl | hin
    · rw [marshal_head hctx]
    · rw [marshal_ctxs hin] at hz ⊢
      exact h.ring.sges i hz

/-- Its Send keeps pages mapped if it has some; those of the others are as before. -/
theorem marshal_held (hctx : s.ctxs s.scHead = ⟨r, [], 0⟩) (hown : s.sendctx r = s.scHead)
    (q : ℕ) : (marshal s r l mrs).held q ↔ if q = r then l ≠ [] else s.held q := by
  change ((marshal s r l mrs).ctxs (s.sendctx q)).unmapCount ≠ 0 ∧
    ((marshal s r l mrs).ctxs (s.sendctx q)).req = q ↔ _
  split_ifs with hqr
  · rw [hqr, hown, marshal_head hctx]
    simp
  · rcases eq_or_ne (s.sendctx q) s.scHead with he | hin
    · rw [Xprt.held, he, marshal_head hctx, hctx]
      exact iff_of_false (fun hx => hqr hx.2.symm) fun hx => hqr hx.2.symm
    · rw [marshal_ctxs hin]
      rfl

/-- The new mappings are new, and all belong to the context at the head. -/
theorem Pages.marshal (h : Inv x s) (hctx : s.ctxs s.scHead = ⟨r, [], 0⟩)
    (hwin : s.scHead ∈ s.window)
    (haddr : l.map fst = range' s.fresh l.length) :
    Pages (marshal s r l mrs) := by
  have hnew : ∀ y ∈ l, s.fresh ≤ y.1 ∧ y.1 < s.fresh + l.length := fun y hy => by
    have := List.mem_map_of_mem (f := fst) hy
    rwa [haddr, List.mem_range'_1] at this
  refine ⟨?_, ?_, ?_⟩
  · intro y hy
    rcases mem_append.1 hy with hy | hy
    · exact Nat.lt_of_lt_of_le (h.pages.fresh y hy) (Nat.le_add_right ..)
    · exact (hnew y hy).2
  · change ((s.maps ++ l).map fst).Nodup
    rw [List.map_append]
    refine List.nodup_append.2 ⟨h.pages.nodup, haddr ▸ List.nodup_range', ?_⟩
    rintro a ha b hb rfl
    obtain ⟨y, hy, rfl⟩ := List.mem_map.1 ha
    obtain ⟨z, hz, heq⟩ := List.mem_map.1 hb
    have := h.pages.fresh y hy
    have := (hnew z hz).1
    omega
  · intro y
    have hc := h.pages.count y
    have hsplit := count_flatMap_update (SendCtx.marshal s r l mrs).mapped s.scHead y
      h.ring.window_nodup hwin
    have hmap : update (SendCtx.marshal s r l mrs).mapped s.scHead [] = s.mapped := by
      funext i
      rcases eq_or_ne i s.scHead with rfl | hin
      · rw [update_self, Xprt.mapped, hctx]
        rfl
      · rw [update_of_ne hin, Xprt.mapped, marshal_ctxs hin]
        rfl
    have hnew : (SendCtx.marshal s r l mrs).mapped s.scHead = l := by
      rw [Xprt.mapped, marshal_head hctx]
      exact List.take_length
    rw [hmap, hnew] at hsplit
    change (s.maps ++ l).count y = s.unmaps.count y +
      (s.window.flatMap (SendCtx.marshal s r l mrs).mapped).count y
    rw [count_append, hc, hsplit]
    omega

section
variable (h : Inv (fun _ => 0) s) (hcur : s.current = none) (hcl : s.closed = false)
  (hr : s.phase r = .idle)
include h hcur hcl hr

/-- HEAD: the context after the head is taken. -/
theorem Inv.advance (hn : ringNext s.scLast s.scHead ≠ s.scTail) :
    Inv (fun _ => 0) (SendCtx.advance s r (ringNext s.scLast s.scHead)) := by
  have hnm := h.none_marshalled hcur hcl
  have hnw : ringNext s.scLast s.scHead ∉ s.window :=
    next_not_mem_ringWindow h.ring.tail h.ring.head hn
  have hwin : (SendCtx.advance s r (ringNext s.scLast s.scHead)).window =
      s.window ++ [ringNext s.scLast s.scHead] := ringWindow_next h.ring.tail h.ring.head hn
  have hle := ringNext_le h.ring.head
  generalize ringNext s.scLast s.scHead = n at hn hnw hwin hle ⊢
  have hctx : ∀ {i}, i ≠ n → update s.ctxs n ⟨r, [], 0⟩ i = s.ctxs i :=
    fun hi => update_of_ne hi _ _
  have hne : ∀ {i}, (update s.ctxs n ⟨r, [], 0⟩ i).unmapCount ≠ 0 →
      i ≠ n ∧ (s.ctxs i).unmapCount ≠ 0 := by
    intro i hi
    rcases eq_or_ne i n with rfl | hin
    · rw [update_self] at hi
      exact absurd rfl hi
    · exact ⟨hin, hctx hin ▸ hi⟩
  have hphase : ∀ {q}, s.phase q = .marshalled ∨ s.phase q = .posted → q ≠ r := by
    rintro q hq rfl
    rw [hr] at hq
    rcases hq with hq | hq
    · cases hq
    · cases hq
  refine ⟨⟨hle, h.ring.tail, ?_, ?_, ?_, ?_, ?_⟩, { h.reqs with
      kref := ?_, current := ?_, marshalled := fun q hq => absurd hq (hnm q), order := ?_ },
    { h.pages with count := ?_ }, h.oops, h.warn, h.hang⟩
  · rw [hwin]
    exact h.ring.sends.trans (List.sublist_append_left ..)
  · intro i hi
    rw [hwin] at hi
    by_contra hz
    exact (hne hz).2 (h.ring.out i fun hm => hi (mem_append_left _ hm))
  · intro i hi hz
    obtain ⟨hin, hz⟩ := hne hz
    have hiw : i ∈ s.window := by
      rw [hwin] at hi
      simpa [hin] using hi
    left
    change .send i true ∈ s.sq ∧ s.phase (update s.ctxs n ⟨r, [], 0⟩ i).req = .posted
    rw [hctx hin]
    rcases h.ring.inside i hiw hz with hs | ⟨-, hp⟩
    · exact hs
    · exact absurd hp (hnm _)
  · intro i hz
    obtain ⟨hin, hz⟩ := hne hz
    change update s.sendctx r n (update s.ctxs n ⟨r, [], 0⟩ i).req = i
    rw [hctx hin, update_of_ne (h.req_ne hr hz)]
    exact h.ring.own i hz
  · intro i hz
    obtain ⟨hin, hz⟩ := hne hz
    change (update s.ctxs n ⟨r, [], 0⟩ i).unmapCount = (update s.ctxs n ⟨r, [], 0⟩ i).sges.length
    rw [hctx hin]
    exact h.ring.sges i hz
  · intro q hq
    have hqr := hphase hq
    have hk := h.reqs.kref q hq
    have hh : (SendCtx.advance s r n).held q ↔ s.held q := by
      change
        (update s.ctxs n ⟨r, [], 0⟩ (update s.sendctx r n q)).unmapCount ≠ 0 ∧
        (update s.ctxs n ⟨r, [], 0⟩ (update s.sendctx r n q)).req = q ↔ s.held q
      rw [update_of_ne hqr]
      rcases eq_or_ne (s.sendctx q) n with he | hin
      · rw [he, update_self]
        refine iff_of_false (fun hx => hx.1 rfl) fun hx => hx.1 ?_
        rw [he]
        exact h.ring.out n hnw
      · rw [hctx hin]
        rfl
    rw [← if_congr hh rfl rfl] at hk
    change update s.kref r 1 q = _ ∧ 0 < update s.kref r 1 q
    rw [update_of_ne hqr]
    exact hk
  · intro q hq
    have hq : s.current = some q := hq
    rw [hcur] at hq
    cases hq
  · refine List.Pairwise.imp_of_mem (fun {a b} _ hb hab => ?_) h.reqs.order
    cases a with
    | send => trivial
    | linv q =>
      cases b with
      | linv q' => exact hab
      | send i sg =>
        have hin : i ≠ n := by
          rintro rfl
          exact hnw (h.ring.sends.subset (mem_sends hb))
        change (update s.ctxs n ⟨r, [], 0⟩ i).req ≠ q
        rw [hctx hin]
        exact hab
  · intro y
    have hmap : ∀ i ∈ s.window, (SendCtx.advance s r n).mapped i = s.mapped i := by
      intro i hi
      have hin : i ≠ n := by
        rintro rfl
        exact hnw hi
      rw [Xprt.mapped, Xprt.mapped, show (SendCtx.advance s r n).ctxs i = s.ctxs i from hctx hin]
    have hnil : (SendCtx.advance s r n).mapped n = [] := by
      rw [Xprt.mapped, show (SendCtx.advance s r n).ctxs n = ⟨r, [], 0⟩ from update_self ..]
      rfl
    rw [hwin, flatMap_append, List.flatMap_congr hmap, List.flatMap_singleton, hnil, append_nil]
    exact h.pages.count y

theorem Reqs.marshal (hctx : s.ctxs s.scHead = ⟨r, [], 0⟩) (hown : s.sendctx r = s.scHead)
    (hk : s.kref r = 1) (hwin : s.scHead ∈ s.window) (hnot : s.scHead ∉ s.sends) (mrs : ℕ) :
    Reqs (fun _ => 0) (marshal s r l mrs) := by
  have hnm := h.none_marshalled hcur hcl
  have hne : ∀ {q ph}, ph ≠ .marshalled → (SendCtx.marshal s r l mrs).phase q = ph →
      q ≠ r ∧ s.phase q = ph := by
    rintro q ph hph hq
    rcases eq_or_ne q r with rfl | hqr
    · exact absurd ((update_self ..).symm.trans hq).symm hph
    · exact ⟨hqr, (marshal_phase hqr).symm.trans hq⟩
  have hnr : ∀ {q ph}, ph ≠ .idle → s.phase q = ph → q ≠ r := by
    rintro q ph hph hq rfl
    exact hph (hq.symm.trans hr)
  obtain ⟨hrep, hreg, hcomp⟩ := h.reqs.idle r hr
  refine ⟨?_, ?_, ?_, ?_, ?_, ?_, ?_, ?_, ?_⟩
  · intro q hq
    rcases eq_or_ne q r with rfl | hqr
    · have ho : (SendCtx.marshal s q l mrs).owed q := Or.inl hrep
      have hh : (SendCtx.marshal s q l mrs).held q ↔ l ≠ [] := by
        rw [marshal_held hctx hown, if_pos rfl]
      rw [if_pos ho, if_congr hh rfl rfl]
      change update s.kref q (s.kref q + if l = [] then 0 else 1) q = _ ∧ 0 < update s.kref q _ q
      rw [update_self, hk, ite_not]
      exact ⟨rfl, Nat.lt_of_lt_of_le Nat.one_pos (Nat.le_add_right ..)⟩
    · have hh : (SendCtx.marshal s r l mrs).held q ↔ s.held q := by
        rw [marshal_held hctx hown, if_neg hqr]
      rw [if_congr hh rfl rfl]
      change update s.kref r _ q = _ ∧ 0 < update s.kref r _ q
      rw [update_of_ne hqr]
      exact h.reqs.kref q (hq.imp (marshal_phase hqr).symm.trans (marshal_phase hqr).symm.trans)
  · intro q hq
    obtain rfl := Option.some.inj hq
    exact update_self ..
  · intro q hq
    rcases eq_or_ne q r with rfl | hqr
    · exact ⟨.inl rfl, hown, congrArg Sendctx.req (marshal_head hctx), hwin, hnot, hrep⟩
    · exact absurd ((marshal_phase hqr).symm.trans hq) (hnm q)
  · intro q hq
    obtain ⟨h1, h2⟩ := h.reqs.linv q hq
    exact ⟨(marshal_phase (hnr (by decide) h1)).trans h1, h2⟩
  · refine h.reqs.order.imp fun {a b} hab => ?_
    cases a with
    | send => trivial
    | linv q =>
      cases b with
      | linv q' => exact hab
      | send i sg => exact fun he => hab ((marshal_req s i).symm.trans he)
  · intro q hq
    have hqr : q ≠ r := by
      rintro rfl
      exact hq hrep
    exact (update_of_ne hqr _ _).trans (h.reqs.fenced q hq)
  · intro q hq
    obtain ⟨hqr, hq⟩ := hne (by decide) hq
    obtain ⟨h1, h2, h3⟩ := h.reqs.idle q hq
    exact ⟨h1, (update_of_ne hqr _ _).trans h2, h3⟩
  · intro q hq
    rcases eq_or_ne q r with rfl | hqr
    · exact hcomp
    · exact h.reqs.waiting q
        (hq.imp (marshal_phase hqr).symm.trans (marshal_phase hqr).symm.trans)
  · exact fun q hq => h.reqs.done q (hne (by decide) hq).2

/-- STEP: the request with the context at the head is marshalled, with the pages `l` mapped. -/
theorem Inv.marshalled (hctx : s.ctxs s.scHead = ⟨r, [], 0⟩) (hown : s.sendctx r = s.scHead)
    (hk : s.kref r = 1) (hwin : s.scHead ∈ s.window) (hnot : s.scHead ∉ s.sends)
    (haddr : l.map fst = range' s.fresh l.length) (mrs : ℕ) :
    Inv (fun _ => 0) (marshal s r l mrs) :=
  ⟨Ring.marshal h hr hctx hown hwin, Reqs.marshal h hcur hcl hr hctx hown hk hwin hnot mrs,
    Pages.marshal h hctx hwin haddr, h.oops, h.warn, h.hang⟩

end

/-- PREPARE: a Send is set up whole, or a context was taken for nothing, or none. -/
theorem prepareSendSges_spec (hle : s.scHead ≤ s.scLast) (r : ℕ) (rtype : Chunktype) (xdr : XdrBuf)
    (head : Bool) (hc : rtype = .nochMapped → head = true → dma 0 = true →
      ∀ i < nochMappings xdr, dma i = true) :
    rpcrdmaPrepareSendSges s r rtype xdr head dma = (s, false) ∨
      ringNext s.scLast s.scHead ≠ s.scTail ∧ (rpcrdmaPrepareSendSges s r rtype xdr head dma =
            (advance s r (ringNext s.scLast s.scHead), false) ∨
          ∃ l, l.map fst = range' s.fresh l.length ∧
            rpcrdmaPrepareSendSges s r rtype xdr head dma =
              ({ mapOnto (advance s r (ringNext s.scLast s.scHead))
                  (ringNext s.scLast s.scHead) l with
                kref := update (advance s r (ringNext s.scLast s.scHead)).kref r
                  (1 + if l = [] then 0 else 1) }, true)) := by
  rw [rpcrdmaPrepareSendSges, rpcrdmaSendctxGetLocked, rpcrdmaSendctxNext_eq hle]
  split_ifs with hn
  · exact .inl rfl
  right
  refine ⟨hn, ?_⟩
  generalize ringNext s.scLast s.scHead = n
  have hown : (advance s r n).sendctx r = n := update_self ..
  have hctx : (advance s r n).ctxs n = ⟨r, [], 0⟩ := update_self ..
  have hk : (advance s r n).kref r = 1 := update_self ..
  have h0 : ((advance s r n).ctxs ((advance s r n).sendctx r)).unmapCount = 0 := by
    rw [hown, hctx]
  -- whatever the Call type is, all of its pages are mapped or none
  have hprep : ∀ res, Prepares r (advance s r n) res →
      (if res.2 then (res.1, true) else (rpcrdmaSendctxUnmap res.1 (res.1.sendctx r), false)) =
          (advance s r n, false) ∨ ∃ l, l.map fst = range' s.fresh l.length ∧
          (if res.2 then (res.1, true) else (rpcrdmaSendctxUnmap res.1 (res.1.sendctx r), false)) =
            ({ mapOnto (advance s r n) n l with
              kref := update (advance s r n).kref r (1 + if l = [] then 0 else 1) }, true) := by
    rintro ⟨s', ok⟩ hres
    cases ok with
    | true =>
      obtain ⟨l, haddr, hst⟩ := hres
      refine .inr ⟨l, haddr, ?_⟩
      rw [hown, hk] at hst
      exact congrArg (·, true) hst
    | false =>
      have hst : s' = advance s r n := hres
      subst hst
      left
      rw [if_neg Bool.false_ne_true, rpcrdmaSendctxUnmap_zero h0]
  cases rtype with
  | nochPullup => exact hprep (advance s r n, head) (Prepares.nothing ..)
  | nochMapped =>
    exact hprep (rpcrdmaPrepareNochMapped (advance s r n) r xdr head dma)
      (nochMapped_prepares h0 (hc rfl))
  | readch => exact hprep _ (readch_prepares (advance s r n) r xdr head dma)
  | areadch => exact hprep (advance s r n, true) (Prepares.nothing ..)

/-- STEP: `rpcrdma_marshal_req`. -/
theorem Inv.marshalReq (h : Inv (fun _ => 0) s) (hcur : s.current = none) (hcl : s.closed = false)
    (hr : s.phase r = .idle) (rtype : Chunktype) (xdr : XdrBuf) (mrs : ℕ) (encode head : Bool)
    (hc : rtype = .nochMapped → head = true → dma 0 = true → ∀ i < nochMappings xdr, dma i = true) :
    Inv (fun _ => 0) (rpcrdmaMarshalReq s r rtype xdr mrs encode head dma) := by
  rw [rpcrdmaMarshalReq]
  cases encode with
  | false => exact h
  | true =>
    rcases prepareSendSges_spec h.ring.head r rtype xdr head hc with hp | ⟨hn, hp⟩
    · rw [hp]
      exact h
    · have hadv := h.advance hcur hcl hr hn
      have hnw : ringNext s.scLast s.scHead ∉ s.window :=
        next_not_mem_ringWindow h.ring.tail h.ring.head hn
      have hwin : (SendCtx.advance s r (ringNext s.scLast s.scHead)).window =
          s.window ++ [ringNext s.scLast s.scHead] := ringWindow_next h.ring.tail h.ring.head hn
      rcases hp with hp | ⟨l, haddr, hp⟩
      · rw [hp]
        exact hadv
      · have hk : (SendCtx.advance s r (ringNext s.scLast s.scHead)).kref r = 1 :=
          update_self ..
        have hin : ringNext s.scLast s.scHead ∈
            (SendCtx.advance s r (ringNext s.scLast s.scHead)).window := by
          rw [hwin]
          exact List.mem_append_right _ (List.mem_singleton_self _)
        have hm := hadv.marshalled hcur hcl hr (update_self ..) (update_self ..)
          hk hin (fun hm => hnw (h.ring.sends.subset hm)) haddr mrs
        rw [marshal, hk] at hm
        rw [hp]
        exact hm

theorem Inv.start (scLast sendBatch : ℕ) : Inv (fun _ => 0) (Xprt.start scLast sendBatch) where
  ring := by
    refine ⟨Nat.zero_le _, Nat.zero_le _, List.nil_sublist _, fun _ _ => rfl, fun _ _ h => ?_,
      fun _ h => ?_, fun _ h => ?_⟩ <;> exact absurd rfl h
  reqs := by
    refine ⟨?_, ?_, ?_, ?_, List.Pairwise.nil, ?_, fun _ _ => ⟨rfl, rfl, rfl⟩, ?_, ?_⟩
    · rintro q (hq | hq) <;> cases hq
    · intro q hq
      cases hq
    · intro q hq
      cases hq
    · intro q hq
      cases hq
    · exact fun q hq => absurd rfl hq
    · rintro q (hq | hq) <;> cases hq
    · intro q hq
      cases hq
  pages := by
    refine ⟨fun y hy => ?_, List.nodup_nil, fun y => ?_⟩
    · cases hy
    · change 0 = 0 + ((ringWindow scLast 0 0).flatMap _).count y
      rfl
  oops := rfl
  warn := rfl
  hang := rfl

/-- STEP: every step that callers and the wire may take keeps the invariant, if it is clean. -/
theorem Inv.step (h : Inv (fun _ => 0) s) {e : Ev} (hok : ok s e) (hc : clean s e) :
    Inv (fun _ => 0) (SendCtx.step s e) := by
  cases e with
  | marshal r rtype xdr mrs encode head dma =>
    obtain ⟨hcur, hcl, hr⟩ := hok
    refine h.marshalReq hcur hcl hr rtype xdr mrs encode head fun ht => ?_
    subst ht
    exact hc
  | send r post => exact h.frwrSend hok post
  | drop => exact h.drop s.sendCount
  | hca success => exact h.hca success
  | reply r rep inv post => exact h.replyHandler hok hc rep inv post
  | free r => exact h.freeSlot hok

/-- RUN: the invariant holds in every state of every clean run. -/
theorem Inv.run {scLast sendBatch : ℕ} (h : Reach SendCtx.step (fun s e => ok s e ∧ clean s e)
    (Xprt.start scLast sendBatch) s) : Inv (fun _ => 0) s :=
  h.invariant (Inv.start scLast sendBatch) fun _ _ hoc hi => hi.step hoc.1 hoc.2

/-- MARSHAL: whatever fails, no Call is completed. -/
theorem Inv.marshal_completes (h : Inv x s) (r : ℕ) (rtype : Chunktype) (xdr : XdrBuf) (mrs : ℕ)
    (encode head : Bool)
    (hc : rtype = .nochMapped → head = true → dma 0 = true → ∀ i < nochMappings xdr, dma i = true) :
    (rpcrdmaMarshalReq s r rtype xdr mrs encode head dma).completes = s.completes := by
  rw [rpcrdmaMarshalReq]
  cases encode with
  | false => rfl
  | true =>
    rw [if_neg Bool.false_ne_true.symm]
    rcases prepareSendSges_spec h.ring.head r rtype xdr head hc with hp | ⟨-, hp | ⟨l, -, hp⟩⟩
    · rw [hp]
    · rw [hp]
      rfl
    · rw [hp]
      rfl

/-- The contexts that a completion passes are unmapped, each page of them once. -/
theorem Inv.put_passed (h : Inv (fun _ => 0) s) {sg : Bool} {sq : List Wr}
    (hsq : s.sq = .send sc sg :: sq) : ∃ pre post, s.window = pre ++ sc :: post ∧
      (rpcrdmaSendctxPutLocked { s with sq := sq } sc).scTail = sc ∧
      (rpcrdmaSendctxPutLocked { s with sq := sq } sc).unmaps =
        s.unmaps ++ (pre ++ [sc]).flatMap s.mapped ∧
      ∀ i ∈ pre ++ [sc], (rpcrdmaSendctxPutLocked { s with sq := sq } sc).mapped i = [] := by
  obtain ⟨pre, post, hw, -, hz, -⟩ := h.split hsq
  have hnil : pre.flatMap s.mapped = [] := by
    refine List.flatMap_eq_nil_iff.2 fun i hi => ?_
    rw [Xprt.mapped, hz i hi, take_zero]
  refine ⟨pre, post, hw, ?_, ?_, ?_⟩
  · rw [h.put hsq]
  · rw [h.put hsq, flatMap_append, hnil, List.nil_append, List.flatMap_singleton,
      rpcrdmaSendctxUnmap_pop]
    exact rpcrdmaSendctxUnmap_unmaps s sc
  · intro i hi
    rw [h.put hsq, rpcrdmaSendctxUnmap_pop]
    rw [Xprt.mapped, rpcrdmaSendctxUnmap_ctxs]
    rcases eq_or_ne i sc with rfl | hne
    · rw [update_self, take_zero]
    · rcases mem_append.1 hi with hi | hi
      · rw [update_of_ne hne, hz i hi, take_zero]
      · exact absurd (mem_singleton.1 hi) hne

/-- CORRECT: in every clean run, whatever the ring size. A context is not taken again while it is in
    (tail, head], and no two Sends in the queue have the same. A completion moves the tail to its
    own context and unmaps what it passes; each page is unmapped at most once, and is mapped until
    then. A Call is completed once, with its reply there, its memory fenced and its pages unmapped;
    one whose reply is here waits for a completion that will come; and marshalling completes none.
    -/
theorem call_completion {scLast sendBatch : ℕ} (h : Reach step (fun s e => ok s e ∧ clean s e)
    (Xprt.start scLast sendBatch) s) :
    (s.sends.Sublist s.window ∧ s.window.Nodup ∧
      ∀ sc, (rpcrdmaSendctxGetLocked s).2 = some sc → sc ∉ s.window) ∧
    (∀ sc sg sq, s.sq = .send sc sg :: sq → ∃ pre post, s.window = pre ++ sc :: post ∧
      (rpcrdmaSendctxPutLocked { s with sq := sq } sc).scTail = sc ∧
      (rpcrdmaSendctxPutLocked { s with sq := sq } sc).unmaps =
        s.unmaps ++ (pre ++ [sc]).flatMap s.mapped ∧
      ∀ i ∈ pre ++ [sc], (rpcrdmaSendctxPutLocked { s with sq := sq } sc).mapped i = []) ∧
    (∀ page, s.maps.count page ≤ 1 ∧
      s.maps.count page = s.unmaps.count page + (s.window.flatMap s.mapped).count page) ∧
    (s.hang = false ∧ s.oops = false ∧ s.warn = false) ∧
    (∀ r, s.completes r = if s.phase r = .done then 1 else 0) ∧
    (∀ r, s.phase r = .done → s.reply r ≠ none ∧ s.registered r = 0 ∧
      ∀ i, (s.ctxs i).req = r → s.mapped i = []) ∧
    (∀ r, s.phase r = .marshalled ∨ s.phase r = .posted → 0 < s.kref r) ∧
    (∀ r, s.phase r = .posted → s.reply r ≠ none →
      .linv r ∈ s.sq ∨ .send (s.sendctx r) true ∈ s.sq) ∧
    ∀ r rtype xdr mrs encode head dma, clean s (.marshal r rtype xdr mrs encode head dma) →
      (step s (.marshal r rtype xdr mrs encode head dma)).completes = s.completes := by
  have hi := Inv.run h
  refine ⟨⟨hi.ring.sends, hi.ring.window_nodup, fun sc hsc => ?_⟩, fun sc sg sq => hi.put_passed,
    fun page => ⟨?_, hi.pages.count page⟩, ⟨hi.hang, hi.oops, hi.warn⟩, fun r => ?_,
    fun r hr => ⟨(hi.reqs.done r hr).2, hi.reqs.fenced r (hi.reqs.done r hr).2, fun i hreq => ?_⟩,
    fun r hr => (hi.reqs.kref r hr).2, fun r hp hrep => ?_,
    fun r rtype xdr mrs encode head dma hc => ?_⟩
  · rw [rpcrdmaSendctxGetLocked, rpcrdmaSendctxNext_eq hi.ring.head] at hsc
    split at hsc
    · cases hsc
    · rename_i hn
      rw [← Option.some.inj hsc]
      exact next_not_mem_ringWindow hi.ring.tail hi.ring.head hn
  · exact List.nodup_iff_count_le_one.1 (hi.pages.nodup.of_map _) page
  · cases hp : s.phase r with
    | idle => exact (hi.reqs.idle r hp).2.2
    | marshalled => exact hi.reqs.waiting r (.inl hp)
    | posted => exact hi.reqs.waiting r (.inr hp)
    | done => exact (hi.reqs.done r hp).1
  · -- a context with mapped pages is of a request that is on its way
    have hz : (s.ctxs i).unmapCount = 0 := by
      by_contra hne
      have hw : i ∈ s.window := by
        by_contra hn
        exact hne (hi.ring.out i hn)
      rcases hi.ring.inside i hw hne with ⟨-, hp⟩ | ⟨-, hp⟩
      · rw [hreq, hr] at hp
        cases hp
      · rw [hreq, hr] at hp
        cases hp
    rw [Xprt.mapped, hz, take_zero]
  · by_cases hl : .linv r ∈ s.sq
    · exact .inl hl
    · right
      have hk := hi.reqs.kref r (.inr hp)
      have ho : ¬ s.owed r := fun ho => ho.elim hrep hl
      have hheld : s.held r := by
        by_contra hn
        rw [if_neg ho, if_neg hn] at hk
        omega
      obtain ⟨hw, -⟩ := hi.held_phase hheld
      rcases hi.ring.inside _ hw hheld.1 with ⟨hm, -⟩ | ⟨-, hq⟩
      · exact hm
      · rw [hheld.2, hp] at hq
        cases hq
  · refine hi.marshal_completes r rtype xdr mrs encode head fun ht => ?_
    subst ht
    exact hc

instance (s : Xprt) : (e : Ev) → Decidable (ok s e)
  | .marshal .. => inferInstanceAs (Decidable (_ ∧ _))
  | .send .. => inferInstanceAs (Decidable (_ = _))
  | .drop => inferInstanceAs (Decidable (_ ≠ _))
  | .hca _ => instDecidableTrue
  | .reply .. => inferInstanceAs (Decidable (_ = _))
  | .free _ => inferInstanceAs (Decidable (_ = _))

instance (s : Xprt) : (e : Ev) → Decidable (clean s e)
  | .marshal _ .nochMapped xdr _ _ head dma => inferInstanceAs
      (Decidable (head = true → dma 0 = true → ∀ i < nochMappings xdr, dma i = true))
  | .marshal _ .nochPullup _ _ _ _ _ => instDecidableTrue
  | .marshal _ .readch _ _ _ _ _ => instDecidableTrue
  | .marshal _ .areadch _ _ _ _ _ => instDecidableTrue
  | .reply .. => inferInstanceAs (Decidable (_ = _))
  | .send .. => instDecidableTrue
  | .drop => instDecidableTrue
  | .hca _ => instDecidableTrue
  | .free _ => instDecidableTrue

/-- A Call of two pages, one that is copied inline, and one whose memory is registered. -/
def threeCalls : List Ev :=
  [.marshal 0 .nochMapped ⟨0, 8192, 0, 0⟩ 0 true true fun _ => true, .send 0 true,
    .marshal 1 .nochPullup ⟨0, 0, 0, 0⟩ 0 true true fun _ => true, .send 1 true,
    .reply 1 10 false true,
    .marshal 2 .readch ⟨0, 8192, 0, 8⟩ 1 true true fun _ => true, .send 2 true,
    .reply 0 11 false true, .reply 2 12 false true, .hca true, .hca true, .hca true, .hca true]

theorem call_completion_demo :
    ((threeCalls.foldl step (Xprt.start 3 2)).completes 0 = 1 ∧
      (threeCalls.foldl step (Xprt.start 3 2)).completes 1 = 1 ∧
      (threeCalls.foldl step (Xprt.start 3 2)).completes 2 = 1) ∧
    (threeCalls.foldl step (Xprt.start 3 2)).oops = false := by
  have hrun : Runs step (fun s e => ok s e ∧ clean s e) (Xprt.start 3 2) threeCalls := by
    decide +kernel
  obtain ⟨-, -, -, ⟨-, hoops, -⟩, hc, -⟩ := call_completion (Reach.start.runs hrun)
  refine ⟨⟨(hc 0).trans ?_, (hc 1).trans ?_, (hc 2).trans ?_⟩, hoops⟩ <;> decide +kernel

/-- BROKEN: the second of two pages cannot be mapped, and the Call is completed without a reply by
    what undoes the first; or a second reply comes while the pages of the Send are still mapped, and
    completes the Call. -/
theorem call_completion_broken :
    (∃ s, Reach step ok (Xprt.start 3 2) s ∧ s.phase 0 = .idle ∧ s.completes 0 = 1 ∧
      s.oops = true) ∧
    ∃ s, Reach step ok (Xprt.start 3 2) s ∧ s.completes 0 = 1 ∧ s.mapped (s.sendctx 0) ≠ [] ∧
      (step s (.hca true)).warn = true := by
  have hrun₁ : Runs step ok (Xprt.start 3 2)
      [.marshal 0 .nochMapped ⟨0, 8192, 0, 0⟩ 0 true true fun i => i == 0] := by
    decide +kernel
  have hrun₂ : Runs step ok (Xprt.start 3 2)
      [.marshal 0 .nochMapped ⟨0, 4096, 0, 0⟩ 0 true true fun _ => true, .send 0 true,
        .reply 0 10 false true, .reply 0 11 false true] := by
    decide +kernel
  refine ⟨⟨_, Reach.start.runs hrun₁, ?_⟩, ⟨_, Reach.start.runs hrun₂, ?_⟩⟩ <;> decide +kernel

end RdmaDriver.SendCtx
