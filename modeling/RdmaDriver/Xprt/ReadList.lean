import RdmaDriver.Xprt.DecodeReq
import Mathlib.Algebra.Order.BigOperators.Group.List
import Mathlib.Data.List.Forall2

/-! @src xprtrdma/svc_rdma_rw.c, svc_rdma_recvfrom.c | name:pulling the Read list | scheme:stream |
    family:reassembly

    A call whose Read list is not empty is put together from pages. A cursor goes over `rq_pages`;
    what is pulled by RDMA Read or copied from the Receive buffer goes where it stands.

        one Read chunk      head ┄ Receive buffer | pages | tail ┄ Receive buffer
        several             inline | chunk | inline | chunk | inline       all in rq_pages
        position zero       call chunk                                     all in rq_pages
        with Read chunks    call | chunk | call | chunk | call             all in rq_pages

    Memory, DMA mappings and completions are there when they are asked for. -/

namespace RdmaDriver.ReadList
open Xdr DecodeReq
open List (length_append length_map map_cons map_nil rel_append sum_cons sum_nil)

variable {α : Type*}

def PAGE_SIZE : ℕ := 4096

/-- `xdr_align_size`. -/
def xdrAlignSize (n : ℕ) : ℕ := (n + 3) / 4 * 4

/-- The transport and the request: `ARRAY_SIZE(rqstp->rq_pages)` is one more than `RPCSVC_MAXPAGES`,
    and `wrs` says how many work requests `rdma_rw_ctx_init` makes. -/
structure Rdma where
  RPCSVC_MAXPAGES : ℕ
  small : RPCSVC_MAXPAGES * PAGE_SIZE < 2 ^ 28
  scSqDepth : ℕ
  wrs : ℕ → ℕ

/-- Why a function does not return zero: an error, or a bug that the kernel stops at. -/
inductive Stop where
  | err (e : Errno)
  | oops
  deriving DecidableEq

/-- An entry of a scatterlist; the page is one of `rq_pages`. -/
structure Sg where
  page : ℕ
  offset : ℕ
  length : ℕ
  deriving DecidableEq

/-- `struct svc_rdma_rw_ctxt`: where the bytes go, and where they come from. -/
structure RwCtxt where
  sgl : List Sg
  handle : ℕ
  offset : ℕ
  deriving DecidableEq

/-- What `struct svc_rdma_recv_ctxt` says while the Read list is pulled, and what is in `rq_pages`.
    -/
structure RecvCtxt (α : Type*) where
  rcPageoff : ℕ
  rcCurpage : ℕ
  rcReadbytes : ℕ
  rcPageCount : ℕ
  ccRwctxts : List RwCtxt
  ccSqecount : ℕ
  rqPages : ℕ → ℕ → α

/-- What has been received: the Receive buffer, the length of its transport header, and the chunks.
    -/
structure Received (α : Type*) where
  rcRecvBuf : ℕ → α
  rcByteLen : ℕ
  hdrLen : ℕ
  rcCallPcl : List Chunk
  rcReadPcl : List Chunk

/-! ### RDMA Reads -/

/-- `PAGE_ALIGN(rc_pageoff + len) >> PAGE_SHIFT`, in 32 bits. -/
def sgeNo (pageoff len : ℕ) : ℕ := (pageoff + len + (PAGE_SIZE - 1)) % 2 ^ 32 / PAGE_SIZE

/-- The cursor goes on. -/
def RecvCtxt.advance (head : RecvCtxt α) (n : ℕ) : RecvCtxt α :=
  let head :=
    if head.rcPageoff = 0 then { head with rcPageCount := head.rcPageCount + 1 } else head
  if head.rcPageoff + n = PAGE_SIZE then
    { head with rcCurpage := head.rcCurpage + 1, rcPageoff := 0 }
  else { head with rcPageoff := head.rcPageoff + n }

/-- The loop of `svc_rdma_build_read_segment`. -/
def sgLoop (rdma : Rdma) : ℕ → ℕ → RecvCtxt α → Except Stop (RecvCtxt α × List Sg)
  | 0, _, head => .ok (head, [])
  | n + 1, len, head =>
    let segLen := min len (PAGE_SIZE - head.rcPageoff)
    let sg := ⟨head.rcCurpage, head.rcPageoff, segLen⟩
    let head := head.advance segLen
    if len - segLen ≠ 0 ∧ rdma.RPCSVC_MAXPAGES + 1 < head.rcCurpage + 1 then .error (.err .einval)
    else match sgLoop rdma n (len - segLen) head with
      | .error e => .error e
      | .ok (head, sgl) => .ok (head, sg :: sgl)

/-- `svc_rdma_build_read_segment`. `sg_alloc_table_chained` stops at a list without entries, and
    `rdma_rw_ctx_init` runs past the end of one that has only empty entries. -/
def svcRdmaBuildReadSegment (rdma : Rdma) (head : RecvCtxt α) (segment : Segment) :
    Except Stop (RecvCtxt α) :=
  let sgeNo := sgeNo head.rcPageoff segment.rsLength
  if sgeNo = 0 then .error .oops
  else match sgLoop rdma sgeNo segment.rsLength head with
    | .error e => .error e
    | .ok (head, sgl) =>
      if sgl.all fun sg => sg.length = 0 then .error .oops
      else .ok { head with
        ccRwctxts := ⟨sgl, segment.rsHandle, segment.rsOffset⟩ :: head.ccRwctxts
        ccSqecount := head.ccSqecount + rdma.wrs sgl.length }

/-- `head->rc_readbytes += n`. -/
def RecvCtxt.addRead (head : RecvCtxt α) (n : ℕ) : RecvCtxt α :=
  { head with rcReadbytes := (head.rcReadbytes + n) % 2 ^ 32 }

/-- The loop of `svc_rdma_build_read_chunk`. -/
def chunkLoop (rdma : Rdma) : List Segment → RecvCtxt α → Except Stop (RecvCtxt α)
  | [], head => .ok head
  | segment :: segments, head =>
    match svcRdmaBuildReadSegment rdma head segment with
    | .error e => .error e
    | .ok head => chunkLoop rdma segments (head.addRead segment.rsLength)

/-- `svc_rdma_build_read_chunk`. -/
def svcRdmaBuildReadChunk (rdma : Rdma) (head : RecvCtxt α) (chunk : Chunk) :
    Except Stop (RecvCtxt α) :=
  if chunk.chSegments = [] then .error (.err .einval) else chunkLoop rdma chunk.chSegments head

/-! ### Inline content and ranges of the call chunk -/

/-- The loop of `svc_rdma_copy_inline_range`; `memcpy` goes to the page at offset `rc_curpage`. -/
def copyLoop (src : ℕ → α) : ℕ → ℕ → ℕ → RecvCtxt α → RecvCtxt α
  | 0, _, _, head => head
  | n + 1, offset, remaining, head =>
    let pageLen := min remaining (PAGE_SIZE - head.rcPageoff)
    let rqPages : ℕ → ℕ → α := fun p o =>
      if p = head.rcCurpage ∧ head.rcCurpage ≤ o ∧ o < head.rcCurpage + pageLen then
        src (offset + (o - head.rcCurpage))
      else head.rqPages p o
    copyLoop src n (offset + pageLen) (remaining - pageLen)
      (({ head with rqPages }.addRead pageLen).advance pageLen)

/-- `svc_rdma_copy_inline_range`. -/
def svcRdmaCopyInlineRange (req : Received α) (head : RecvCtxt α) (offset remaining : ℕ) :
    RecvCtxt α × Except Stop Unit :=
  (copyLoop req.rcRecvBuf (sgeNo head.rcPageoff remaining) offset remaining head,
    .error (.err .einval))

/-- The loop of `svc_rdma_read_chunk_range`; `ran` says that `ret` is no longer `-EINVAL`. -/
def rangeLoop (rdma : Rdma) : List Segment → ℕ → ℕ → Bool → RecvCtxt α → Except Stop (RecvCtxt α)
  | [], _, _, ran, head => if ran then .ok head else .error (.err .einval)
  | segment :: segments, offset, length, ran, head =>
    if segment.rsLength < offset then
      rangeLoop rdma segments (offset - segment.rsLength) length ran head
    else
      let dummy := ⟨segment.rsHandle, toU 32 ((min length segment.rsLength : ℕ) - (offset : ℤ)),
        (segment.rsOffset + offset) % 2 ^ 64⟩
      match svcRdmaBuildReadSegment rdma head dummy with
      | .error e => .error e
      | .ok head => rangeLoop rdma segments 0 (toU 32 ((length : ℤ) - dummy.rsLength)) true
          (head.addRead dummy.rsLength)

/-- `svc_rdma_read_chunk_range`. -/
def svcRdmaReadChunkRange (rdma : Rdma) (chunk : Chunk) (head : RecvCtxt α) (offset length : ℕ) :
    Except Stop (RecvCtxt α) :=
  rangeLoop rdma chunk.chSegments offset length false head

/-! ### The Read list -/

section Pull
variable (rdma : Rdma) (pull : RecvCtxt α → ℕ → ℕ → Except Stop (RecvCtxt α)) (total : ℕ)

/-- The loop that `svc_rdma_read_multiple_chunks` and `svc_rdma_read_call_chunk` have in common: a
    chunk, then what stands between it and the next one; `pull` takes that from a stream of length
    `total`. -/
def pullLoop : List Chunk → ℕ → ℕ → RecvCtxt α → Except Stop (RecvCtxt α)
  | [], _, _, head => .ok head
  | chunk :: chunks, start, length, head =>
    match svcRdmaBuildReadChunk rdma head chunk with
    | .error e => .error e
    | .ok head =>
      let start := (start + length) % 2 ^ 32
      match chunks with
      | [] => pull head start (toU 32 ((total : ℤ) - start))
      | next :: _ =>
        let length := toU 32 ((next.chPosition : ℤ) - head.rcReadbytes)
        match pull head start length with
        | .error e => .error e
        | .ok head => pullLoop chunks start length head

def pullList (pcl : List Chunk) (head : RecvCtxt α) : Except Stop (RecvCtxt α) :=
  match pcl with
  | [] => .error .oops
  | chunk :: _ =>
    match pull head 0 chunk.chPosition with
    | .error e => .error e
    | .ok head => pullLoop rdma pull total pcl 0 chunk.chPosition head

end Pull

/-- `svc_rdma_read_multiple_chunks`. -/
def svcRdmaReadMultipleChunks (rdma : Rdma) (req : Received α) (head : RecvCtxt α) :
    Except Stop (RecvCtxt α) :=
  pullList rdma (fun head offset remaining =>
    match svcRdmaCopyInlineRange req head offset remaining with
    | (_, .error e) => .error e
    | (head, .ok _) => .ok head) req.rcByteLen req.rcReadPcl head

/-- `svc_rdma_read_data_item`. -/
def svcRdmaReadDataItem (rdma : Rdma) (req : Received α) (head : RecvCtxt α) :
    Except Stop (RecvCtxt α) :=
  match req.rcReadPcl with
  | [] => .error .oops
  | chunk :: _ => svcRdmaBuildReadChunk rdma head chunk

/-- `svc_rdma_read_call_chunk`, which is all of `svc_rdma_read_special`. -/
def svcRdmaReadCallChunk (rdma : Rdma) (req : Received α) (head : RecvCtxt α) :
    Except Stop (RecvCtxt α) :=
  match req.rcCallPcl with
  | [] => .error .oops
  | callChunk :: _ =>
    if req.rcReadPcl = [] then svcRdmaBuildReadChunk rdma head callChunk
    else pullList rdma (svcRdmaReadChunkRange rdma callChunk) callChunk.chLength
      req.rcReadPcl head

/-- The RDMA Reads that `svc_rdma_process_read_list` builds. -/
def buildReads (rdma : Rdma) (req : Received α) (rqPages : ℕ → ℕ → α) : Except Stop (RecvCtxt α) :=
  let head : RecvCtxt α := ⟨0, 0, 0, 0, [], 0, rqPages⟩
  if req.rcCallPcl = [] then
    if req.rcReadPcl.length = 1 then svcRdmaReadDataItem rdma req head
    else svcRdmaReadMultipleChunks rdma req head
  else svcRdmaReadCallChunk rdma req head

/-- `svc_rdma_process_read_list`, with `svc_rdma_post_chunk_ctxt`. -/
def svcRdmaProcessReadList (rdma : Rdma) (req : Received α) (rqPages : ℕ → ℕ → α) :
    Except Stop (RecvCtxt α) :=
  match buildReads rdma req rqPages with
  | .error e => .error e
  | .ok head => if rdma.scSqDepth < head.ccSqecount then .error (.err .einval) else .ok head

/-! ### Completion -/

/-- The bytes of an RDMA Read go into the entries of its list, one after the other; `src` has what
    is still to be placed from `k` on. -/
def place (src : ℕ → α) : List Sg → ℕ → (ℕ → ℕ → α) → ℕ → ℕ → α
  | [], _, pages => pages
  | sg :: sgl, k, pages => place src sgl (k + sg.length) fun p o =>
    if p = sg.page ∧ sg.offset ≤ o ∧ o < sg.offset + sg.length then src (k + (o - sg.offset))
    else pages p o

/-- What is in the pages when all RDMA Reads are done; `mem` is the client's memory by handle. -/
def RecvCtxt.completed (mem : ℕ → ℕ → α) (head : RecvCtxt α) : ℕ → ℕ → α :=
  head.ccRwctxts.foldr (fun c pages => place (fun k => mem c.handle (c.offset + k)) c.sgl 0 pages)
    head.rqPages

/-- Where a `kvec` or a page list begins: in the Receive buffer, or with one of `rq_pages`. -/
inductive Base where
  | recvBuf (offset : ℕ)
  | page (p : ℕ)
  deriving DecidableEq

structure Kvec where
  iovBase : Base
  iovLen : ℕ
  deriving DecidableEq

/-- `struct xdr_buf`; `pages` is the number of the first page. -/
structure XdrBuf where
  head : Kvec
  pages : ℕ
  pageLen : ℕ
  tail : Kvec
  len : ℕ
  buflen : ℕ
  deriving DecidableEq

/-- `rc_saved_arg`: what `svc_rdma_build_arg_xdr` makes and `svc_rdma_xdr_decode_req` leaves. -/
def savedArg (req : Received α) : XdrBuf :=
  ⟨⟨.recvBuf req.hdrLen, req.rcByteLen - req.hdrLen⟩, 0, 0, ⟨.recvBuf 0, 0⟩,
    req.rcByteLen - req.hdrLen, req.rcByteLen⟩

/-- `svc_rdma_read_complete_one`; the head is still in the Receive buffer. -/
def svcRdmaReadCompleteOne (req : Received α) (chunk : Chunk) (buf : XdrBuf) : XdrBuf :=
  let length := xdrAlignSize chunk.chLength
  { buf with
    tail := ⟨.recvBuf (req.hdrLen + chunk.chPosition), buf.head.iovLen - chunk.chPosition⟩
    head := { buf.head with iovLen := chunk.chPosition }
    pages := 0
    pageLen := length
    len := buf.len + length
    buflen := buf.buflen + length }

/-- `svc_rdma_read_complete_multiple` and `svc_rdma_read_complete_pzrc`. -/
def svcRdmaReadCompletePages (head : RecvCtxt α) (buf : XdrBuf) : XdrBuf :=
  let iovLen := min PAGE_SIZE head.rcReadbytes
  { buf with
    len := buf.len + head.rcReadbytes
    buflen := buf.buflen + head.rcReadbytes
    head := ⟨.page 0, iovLen⟩
    pages := 1
    pageLen := head.rcReadbytes - iovLen }

/-- `svc_rdma_read_complete`. -/
def svcRdmaReadComplete (req : Received α) (head : RecvCtxt α) : XdrBuf :=
  match req.rcCallPcl, req.rcReadPcl with
  | [], [chunk] => svcRdmaReadCompleteOne req chunk (savedArg req)
  | _, _ => svcRdmaReadCompletePages head (savedArg req)

/-- `rqstp->rq_pages` after `svc_rdma_read_complete`: those that were pulled into, and behind them
    those of the request that is used now. -/
def arrived (mem : ℕ → ℕ → α) (head : RecvCtxt α) (rqPages : ℕ → ℕ → α) : ℕ → ℕ → α :=
  fun p => if p < head.rcPageCount then head.completed mem p else rqPages p

/-- A byte of a `kvec` or of a page list. -/
def Base.byte (recvBuf : ℕ → α) (pages : ℕ → ℕ → α) : Base → ℕ → α
  | .recvBuf offset, i => recvBuf (offset + i)
  | .page p, i => pages (p + i / PAGE_SIZE) (i % PAGE_SIZE)

def bytesFrom (recvBuf : ℕ → α) (pages : ℕ → ℕ → α) (base : Base) (n : ℕ) : List α :=
  (List.range n).map (base.byte recvBuf pages)

/-- Head, pages, tail. -/
def XdrBuf.bytes (recvBuf : ℕ → α) (pages : ℕ → ℕ → α) (buf : XdrBuf) : List α :=
  bytesFrom recvBuf pages buf.head.iovBase buf.head.iovLen ++
    bytesFrom recvBuf pages (.page buf.pages) buf.pageLen ++
    bytesFrom recvBuf pages buf.tail.iovBase buf.tail.iovLen

/-! ### What the client has cut -/

/-- A Read chunk, and what stands behind it in the rest of the message. -/
structure Item (α : Type*) where
  segments : List Segment
  gap : List α

/-- A call as the client has cut it: `first` and the gaps are sent inline, or in the call chunk. -/
structure Cut (α : Type*) where
  first : List α
  items : List (Item α)
  call : List Segment

section Cut
variable (mem : ℕ → ℕ → α)

/-- What the client has registered. -/
def segBytes (s : Segment) : List α :=
  (List.range s.rsLength).map fun i => mem s.rsHandle (s.rsOffset + i)

def payload (segments : List Segment) : List α := segments.flatMap (segBytes mem)

def total (segments : List Segment) : ℕ := (segments.map fun s => s.rsLength).sum

/-- A Read chunk padded to a multiple of four, whatever the pad bytes are, and what is behind it. -/
def Item.message (it : Item α) : List (Option α) :=
  (payload mem it.segments).map some ++
    List.replicate (xdrAlignSize (total it.segments) - total it.segments) none ++ it.gap.map some

/-- The RPC message. -/
def Cut.message (cut : Cut α) : List (Option α) :=
  cut.first.map some ++ cut.items.flatMap (Item.message mem)

/-- The message without the Read chunks. -/
def Cut.rest (cut : Cut α) : List α := cut.first ++ cut.items.flatMap fun it => it.gap

/-- The Read chunks, each at its position in the message. -/
def chunksFrom : ℕ → List (Item α) → List Chunk
  | _, [] => []
  | pos, it :: items => chunkOf pos it.segments ::
      chunksFrom (pos + xdrAlignSize (total it.segments) + it.gap.length) items

/-- How many bytes are pulled into pages. -/
def Cut.placed (cut : Cut α) : ℕ :=
  match cut.call, cut.items with
  | [], [it] => total it.segments
  | _, _ => (cut.message mem).length

/-- What the client sends is the cut. -/
structure Sends (cut : Cut α) (req : Received α) : Prop where
  read : req.rcReadPcl = chunksFrom cut.first.length cut.items
  call : req.rcCallPcl = if cut.call = [] then [] else [chunkOf 0 cut.call]
  len : req.rcByteLen = req.hdrLen + if cut.call = [] then cut.rest.length else 0
  inline : cut.call = [] → ∀ i (hi : i < cut.rest.length),
    req.rcRecvBuf (req.hdrLen + i) = cut.rest[i]
  rest : cut.call ≠ [] → payload mem cut.call = cut.rest
  chunks : cut.call ≠ [] ∨ cut.items ≠ []
  first : cut.items ≠ [] → 0 < cut.first.length
  segments : ∀ it ∈ cut.items, it.segments ≠ [] ∧ ∀ s ∈ it.segments, 0 < s.rsLength
  callSegments : ∀ s ∈ cut.call, 0 < s.rsLength

/-- The server has the message in `rq_arg`, and `len` is its length. -/
def Reassembles (rdma : Rdma) (cut : Cut α) (req : Received α) (rqPages rqPages' : ℕ → ℕ → α) :
    Prop :=
  ∃ head, svcRdmaProcessReadList rdma req rqPages = .ok head ∧
    (svcRdmaReadComplete req head).len = (cut.message mem).length ∧
    List.Forall₂ (fun m b => ∀ x, m = some x → b = x) (cut.message mem)
      ((svcRdmaReadComplete req head).bytes req.rcRecvBuf (arrived mem head rqPages'))

end Cut

/-! ### One segment -/

section Segment
variable {rdma : Rdma} {mem : ℕ → ℕ → α} {head head' : RecvCtxt α} {n len k a : ℕ} {sgl : List Sg}

/-- The bytes of the pages in a row. -/
def linear (pages : ℕ → ℕ → α) (a : ℕ) : α := pages (a / PAGE_SIZE) (a % PAGE_SIZE)

/-- Where the cursor stands. -/
def RecvCtxt.cursor (head : RecvCtxt α) : ℕ := head.rcCurpage * PAGE_SIZE + head.rcPageoff

/-- The cursor is inside its page, and each page that has been begun is counted. -/
structure RecvCtxt.Wf (head : RecvCtxt α) : Prop where
  pageoff : head.rcPageoff < PAGE_SIZE
  count : head.rcPageCount = (head.cursor + (PAGE_SIZE - 1)) / PAGE_SIZE

theorem PAGE_SIZE_eq : PAGE_SIZE = 4096 := rfl

theorem advance_rest (head : RecvCtxt α) (n : ℕ) :
    (head.advance n).ccRwctxts = head.ccRwctxts ∧ (head.advance n).rqPages = head.rqPages ∧
      (head.advance n).rcReadbytes = head.rcReadbytes := by
  unfold RecvCtxt.advance
  split <;> dsimp only <;> split <;> exact ⟨rfl, rfl, rfl⟩

theorem advance_cursor (hroom : head.rcPageoff + n ≤ PAGE_SIZE) :
    (head.advance n).cursor = head.cursor + n := by
  have h := PAGE_SIZE_eq ▸ hroom
  unfold RecvCtxt.advance RecvCtxt.cursor
  rw [PAGE_SIZE_eq]
  split <;> dsimp only <;> split <;> dsimp only <;> omega

theorem RecvCtxt.Wf.advance (hw : head.Wf) (hn : 0 < n) (h : head.rcPageoff + n ≤ PAGE_SIZE) :
    (head.advance n).Wf := by
  obtain ⟨hoff, hcount⟩ := hw
  refine ⟨?_, ?_⟩
  · unfold RecvCtxt.advance
    rw [PAGE_SIZE_eq] at *
    split <;> dsimp only <;> split <;> dsimp only <;> omega
  · have hc : (head.advance n).rcPageCount =
        if head.rcPageoff = 0 then head.rcPageCount + 1 else head.rcPageCount := by
      unfold RecvCtxt.advance
      split <;> dsimp only <;> split <;> rfl
    rw [advance_cursor h, hc, hcount]
    unfold RecvCtxt.cursor
    rw [PAGE_SIZE_eq] at *
    split <;> omega

/-- RUN: the entries of a segment cover the bytes from the cursor on. -/
theorem sgLoop_spec (rdma : Rdma) : ∀ {n len : ℕ} {head : RecvCtxt α}, head.Wf →
    len = 0 ∧ n = 0 ∨ 0 < len ∧ n = (head.rcPageoff + len + (PAGE_SIZE - 1)) / PAGE_SIZE →
    head.cursor + len ≤ rdma.RPCSVC_MAXPAGES * PAGE_SIZE →
    ∃ head' sgl, sgLoop rdma n len head = .ok (head', sgl) ∧ head'.Wf ∧
      head'.cursor = head.cursor + len ∧ head'.ccRwctxts = head.ccRwctxts ∧
      head'.rqPages = head.rqPages ∧ head'.rcReadbytes = head.rcReadbytes ∧
      (sgl.map fun sg => sg.length).sum = len ∧
      ∀ (src : ℕ → α) k pages a, linear (place src sgl k pages) a =
        if head.cursor ≤ a ∧ a < head.cursor + len then src (k + (a - head.cursor))
        else linear pages a := by
  intro n
  induction n with
  | zero =>
    intro len head hw hn hfit
    obtain rfl : len = 0 := by
      rw [PAGE_SIZE_eq] at hn
      omega
    exact ⟨head, [], rfl, hw, (Nat.add_zero _).symm, rfl, rfl, rfl, rfl, fun src k pages a => by
      rw [Nat.add_zero, if_neg fun h => absurd (h.1.trans_lt h.2) (lt_irrefl _)]
      rfl⟩
  | succ n ih =>
    intro len head hw hn hfit
    obtain ⟨hlen, hn⟩ :
        0 < len ∧ n + 1 = (head.rcPageoff + len + (PAGE_SIZE - 1)) / PAGE_SIZE := by
      omega
    have hoff := hw.pageoff
    obtain ⟨segLen, hseg⟩ : ∃ m, m = min len (PAGE_SIZE - head.rcPageoff) := ⟨_, rfl⟩
    have hroom : head.rcPageoff + segLen ≤ PAGE_SIZE := by omega
    have hpos : 0 < segLen := by omega
    have hw' := hw.advance hpos hroom
    have hcur := advance_cursor hroom
    obtain ⟨hctx, hpages, hread⟩ := advance_rest head segLen
    have hmore : len - segLen ≠ 0 → (head.advance segLen).rcPageoff = 0 := by
      intro hne
      unfold RecvCtxt.advance
      split <;> dsimp only <;> rw [if_pos (by omega)]
    obtain ⟨head', sgl, hloop, hwf, hcursor, hctx', hpages', hread', hsum, hplace⟩ :=
      @ih (len - segLen) _ hw' (by
        rcases Nat.eq_zero_or_pos (len - segLen) with hz | hp
        · refine .inl ⟨hz, ?_⟩
          rw [PAGE_SIZE_eq] at *
          omega
        · refine .inr ⟨hp, ?_⟩
          rw [hmore hp.ne']
          rw [PAGE_SIZE_eq] at *
          omega) (by omega)
    refine ⟨head', ⟨head.rcCurpage, head.rcPageoff, segLen⟩ :: sgl, ?_, hwf, by omega,
      hctx'.trans hctx, hpages'.trans hpages, hread'.trans hread, ?_, fun src k pages a => ?_⟩
    · unfold sgLoop
      dsimp only
      rw [← hseg, if_neg, hloop]
      rintro ⟨hne, hover⟩
      have hz := hmore hne
      have hc := hcur
      unfold RecvCtxt.cursor at hc hfit
      rw [PAGE_SIZE_eq] at *
      omega
    · rw [map_cons, sum_cons, hsum]
      dsimp only
      omega
    · rw [place, hplace, hcur]
      dsimp only
      unfold linear RecvCtxt.cursor
      dsimp only
      rw [PAGE_SIZE_eq] at *
      split_ifs with h₁ h₂ h₃ h₄ h₅
      · congr 1
        omega
      · omega
      · congr 1
        omega
      · omega
      · omega
      · rfl

end Segment

/-! ### One chunk -/

section Chunk
variable {rdma : Rdma} {mem : ℕ → ℕ → α} {head : RecvCtxt α} {done : List α} {s : Segment}
  {segments : List Segment}

/-- What is in the pages up to the cursor once the Reads are done. -/
structure Filled (mem : ℕ → ℕ → α) (head : RecvCtxt α) (done : List α) : Prop where
  wf : head.Wf
  cursor : head.cursor = done.length
  readbytes : head.rcReadbytes = done.length
  bytes : ∀ a (ha : a < done.length), linear (head.completed mem) a = done[a]

theorem segBytes_length (s : Segment) : (segBytes mem s).length = s.rsLength := by
  simp [segBytes]

theorem payload_length (mem : ℕ → ℕ → α) (segments : List Segment) :
    (payload mem segments).length = total segments := by
  induction segments with
  | nil => rfl
  | cons s segments ih =>
    unfold payload total at *
    rw [List.flatMap_cons, length_append, ih, segBytes_length, map_cons, sum_cons]

theorem total_cons (s : Segment) (segments : List Segment) :
    total (s :: segments) = s.rsLength + total segments := sum_cons

/-- STEP: a segment is read behind what there is. -/
theorem Filled.segment (rdma : Rdma) (h : Filled mem head done) (hs : 0 < s.rsLength)
    (hfit : done.length + s.rsLength ≤ rdma.RPCSVC_MAXPAGES * PAGE_SIZE) :
    ∃ head', svcRdmaBuildReadSegment rdma head s = .ok head' ∧
      Filled mem (head'.addRead s.rsLength) (done ++ segBytes mem s) := by
  have hsmall := rdma.small
  have hoff := h.wf.pageoff
  have hno : sgeNo head.rcPageoff s.rsLength =
      (head.rcPageoff + s.rsLength + (PAGE_SIZE - 1)) / PAGE_SIZE := by
    unfold sgeNo
    rw [Nat.mod_eq_of_lt]
    rw [PAGE_SIZE_eq] at hoff ⊢
    omega
  obtain ⟨head', sgl, hloop, hwf, hcur, hctx, hpages, hread, hsum, hplace⟩ :=
    sgLoop_spec rdma h.wf (.inr ⟨hs, hno⟩) (by rw [h.cursor]; exact hfit)
  have hpos : sgeNo head.rcPageoff s.rsLength ≠ 0 := by
    rw [hno, PAGE_SIZE_eq]
    omega
  have hsome : ¬ (sgl.all fun sg => sg.length = 0) = true := by
    intro hall
    have : (sgl.map fun sg => sg.length).sum = 0 := List.sum_eq_zero fun n hn => by
      obtain ⟨sg, hsg, rfl⟩ := List.mem_map.mp hn
      exact of_decide_eq_true (List.all_eq_true.mp hall sg hsg)
    omega
  have hbuild : svcRdmaBuildReadSegment rdma head s = .ok { head' with
      ccRwctxts := ⟨sgl, s.rsHandle, s.rsOffset⟩ :: head'.ccRwctxts
      ccSqecount := head'.ccSqecount + rdma.wrs sgl.length } := by
    unfold svcRdmaBuildReadSegment
    dsimp only
    rw [if_neg hpos, hloop]
    dsimp only
    rw [if_neg hsome]
  refine ⟨_, hbuild, ⟨hwf.pageoff, hwf.count⟩, ?_, ?_, fun a ha => ?_⟩
  · rw [length_append, segBytes_length, ← h.cursor]
    exact hcur
  · unfold RecvCtxt.addRead
    dsimp only
    rw [hread, h.readbytes, length_append, segBytes_length, Nat.mod_eq_of_lt (by omega)]
  · rw [length_append, segBytes_length] at ha
    unfold RecvCtxt.completed RecvCtxt.addRead
    dsimp only
    rw [List.foldr_cons, hplace, hctx, hpages, h.cursor]
    split
    · rename_i hin
      rw [List.getElem_append_right hin.1]
      simp [segBytes]
    · rw [List.getElem_append_left (by omega)]
      exact h.bytes a (by omega)

/-- RUN: the segments of a chunk are read one after the other. -/
theorem Filled.chunk (rdma : Rdma) :
    ∀ {segments : List Segment} {head : RecvCtxt α} {done : List α},
    Filled mem head done → (∀ s ∈ segments, 0 < s.rsLength) →
    done.length + total segments ≤ rdma.RPCSVC_MAXPAGES * PAGE_SIZE →
    ∃ head', chunkLoop rdma segments head = .ok head' ∧
      Filled mem head' (done ++ payload mem segments) := by
  intro segments
  induction segments with
  | nil =>
    intro head done h _ _
    exact ⟨head, rfl, by rwa [payload, List.flatMap_nil, List.append_nil]⟩
  | cons s segments ih =>
    intro head done h hs hfit
    rw [total_cons] at hfit
    obtain ⟨head', hbuild, h'⟩ := h.segment rdma (hs s (List.mem_cons_self ..)) (by omega)
    obtain ⟨head'', hloop, h''⟩ := ih h' (fun s hmem => hs s (List.mem_cons_of_mem _ hmem))
      (by rw [length_append, segBytes_length]; omega)
    refine ⟨head'', ?_, ?_⟩
    · unfold chunkLoop
      rw [hbuild]
      exact hloop
    · rwa [payload, List.flatMap_cons, ← List.append_assoc]

theorem filled_start (mem : ℕ → ℕ → α) (rqPages : ℕ → ℕ → α) :
    Filled mem ⟨0, 0, 0, 0, [], 0, rqPages⟩ [] where
  wf := ⟨by simp [PAGE_SIZE_eq], by simp [RecvCtxt.cursor, PAGE_SIZE_eq]⟩
  cursor := by simp [RecvCtxt.cursor]
  readbytes := rfl
  bytes := fun _ ha => absurd ha (Nat.not_lt_zero _)

/-- What has been read is in the pages that the request gets. -/
theorem Filled.arrived (h : Filled mem head done) (rqPages : ℕ → ℕ → α) {a : ℕ}
    (ha : a < done.length) :
    arrived mem head rqPages (a / PAGE_SIZE) (a % PAGE_SIZE) = done[a] := by
  unfold ReadList.arrived
  rw [if_pos, ← h.bytes a ha]
  · rfl
  · rw [h.wf.count, h.cursor, PAGE_SIZE_eq]
    omega

end Chunk

/-! ### One chunk alone -/

section One
variable {rdma : Rdma} {mem : ℕ → ℕ → α} {cut : Cut α} {req : Received α} {head : RecvCtxt α}
  {recvBuf : ℕ → α} {pages rqPages rqPages' : ℕ → ℕ → α} {base : Base} {l : List α} {it : Item α}

theorem bytesFrom_eq {n : ℕ} (hn : n = l.length)
    (h : ∀ i (hi : i < l.length), base.byte recvBuf pages i = l[i]) :
    bytesFrom recvBuf pages base n = l := by
  subst hn
  refine List.ext_getElem (by simp [bytesFrom]) fun i h₁ h₂ => ?_
  simp only [bytesFrom, List.getElem_map, List.getElem_range]
  exact h i h₂

theorem forall₂_some (l : List α) :
    List.Forall₂ (fun m b => ∀ x, m = some x → b = x) (l.map some) l := by
  rw [List.forall₂_map_left_iff]
  exact List.forall₂_same.mpr fun b _ x hx => Option.some.inj hx

theorem forall₂_none : ∀ (l : List α),
    List.Forall₂ (fun m b => ∀ x, m = some x → b = x) (List.replicate l.length none) l
  | [] => .nil
  | _ :: l => .cons nofun (forall₂_none l)

theorem xdrAlignSize_ge (n : ℕ) : n ≤ xdrAlignSize n ∧ xdrAlignSize n ≤ n + 3 := by
  unfold xdrAlignSize
  omega

theorem item_length (it : Item α) :
    (it.message mem).length = xdrAlignSize (total it.segments) + it.gap.length := by
  have := xdrAlignSize_ge (total it.segments)
  simp only [Item.message, length_append, length_map, payload_length, List.length_replicate]
  omega

/-- The pages hold what was read, and the bytes that pad it. -/
theorem pages_padded (recvBuf : ℕ → α) (rqPages : ℕ → ℕ → α) (h : Filled mem head l) {n : ℕ}
    (hn : l.length ≤ n) :
    ∃ pad : List α, pad.length = n - l.length ∧
      bytesFrom recvBuf (arrived mem head rqPages) (.page 0) n = l ++ pad := by
  obtain ⟨m, rfl⟩ := Nat.exists_eq_add_of_le hn
  refine ⟨(List.range m).map fun i => (Base.page 0).byte recvBuf (arrived mem head rqPages)
    (l.length + i), by simp, ?_⟩
  unfold bytesFrom
  rw [List.range_add, List.map_append, List.map_map]
  refine congrArg₂ (· ++ ·) (bytesFrom_eq rfl fun i hi => ?_) rfl
  unfold Base.byte
  dsimp only
  rw [Nat.zero_add]
  exact h.arrived rqPages hi

/-- A chunk alone is read from the first page on. -/
theorem filled_alone (mem : ℕ → ℕ → α) (pos : ℕ) {segments : List Segment} (hne : segments ≠ [])
    (hs : ∀ s ∈ segments, 0 < s.rsLength)
    (hfit : total segments ≤ rdma.RPCSVC_MAXPAGES * PAGE_SIZE) (rqPages : ℕ → ℕ → α) :
    ∃ head, svcRdmaBuildReadChunk rdma ⟨0, 0, 0, 0, [], 0, rqPages⟩ (chunkOf pos segments) =
      .ok head ∧ Filled mem head (payload mem segments) := by
  obtain ⟨head, hloop, hfilled⟩ :=
    Filled.chunk rdma (filled_start mem rqPages) hs (by simpa using hfit)
  exact ⟨head, (if_neg hne).trans hloop, hfilled⟩

/-- The Reads are posted. -/
theorem posted (hbuild : buildReads rdma req rqPages = .ok head)
    (hposts : ∀ head, buildReads rdma req rqPages = .ok head →
      head.ccSqecount ≤ rdma.scSqDepth) :
    svcRdmaProcessReadList rdma req rqPages = .ok head := by
  unfold svcRdmaProcessReadList
  rw [hbuild]
  exact if_neg (Nat.not_lt.mpr (hposts head hbuild))

/-- One Read chunk: its bytes stand between those before and behind its position. -/
theorem reassembles_one (h : Sends mem cut req) (hcall : cut.call = []) (hitems : cut.items = [it])
    (hfit : total it.segments ≤ rdma.RPCSVC_MAXPAGES * PAGE_SIZE)
    (hposts : ∀ head, buildReads rdma req rqPages = .ok head →
      head.ccSqecount ≤ rdma.scSqDepth) :
    Reassembles mem rdma cut req rqPages rqPages' := by
  have hsmall := rdma.small
  obtain ⟨hne, hs⟩ := h.segments it (by rw [hitems]; exact List.mem_singleton_self it)
  have hread : req.rcReadPcl = [chunkOf cut.first.length it.segments] := by
    rw [h.read, hitems]
    rfl
  have hcpcl : req.rcCallPcl = [] := by rw [h.call, if_pos hcall]
  have hrest : cut.rest = cut.first ++ it.gap := by simp [Cut.rest, hitems]
  have hlen := h.len
  rw [if_pos hcall, hrest, length_append] at hlen
  obtain ⟨head, hbuild, hfilled⟩ := filled_alone mem cut.first.length hne hs hfit
    rqPages
  have hreads : buildReads rdma req rqPages = .ok head := by
    unfold buildReads svcRdmaReadDataItem
    rw [if_pos hcpcl, hread]
    exact hbuild
  have hbyte : ∀ i (hi : i < (cut.first ++ it.gap).length),
      req.rcRecvBuf (req.hdrLen + i) = (cut.first ++ it.gap)[i] := by
    have := h.inline hcall
    rw [hrest] at this
    exact this
  have hch : (chunkOf cut.first.length it.segments).chLength = total it.segments :=
    Nat.mod_eq_of_lt (by unfold total at hfit; omega)
  have hge := xdrAlignSize_ge (total it.segments)
  obtain ⟨pad, hpad, hpages⟩ := pages_padded req.rcRecvBuf rqPages' hfilled
    (n := xdrAlignSize (total it.segments)) (by rw [payload_length]; exact hge.1)
  rw [payload_length] at hpad
  have hmsg : cut.message mem = cut.first.map some ++ ((payload mem it.segments).map some ++
      List.replicate pad.length none) ++ it.gap.map some := by
    simp [Cut.message, hitems, Item.message, hpad]
  refine ⟨head, posted hreads hposts, ?_, ?_⟩
  · unfold svcRdmaReadComplete
    rw [hcpcl, hread, hmsg]
    dsimp only [svcRdmaReadCompleteOne, savedArg]
    rw [hch]
    simp only [length_append, length_map, payload_length, List.length_replicate]
    omega
  · unfold svcRdmaReadComplete
    rw [hcpcl, hread, hmsg]
    dsimp only [svcRdmaReadCompleteOne, savedArg, XdrBuf.bytes]
    have hhead : bytesFrom req.rcRecvBuf (arrived mem head rqPages') (.recvBuf req.hdrLen)
        (chunkOf cut.first.length it.segments).chPosition = cut.first :=
      bytesFrom_eq rfl fun i hi => (hbyte i (by rw [length_append]; omega)).trans
        (List.getElem_append_left hi)
    have htail : bytesFrom req.rcRecvBuf (arrived mem head rqPages')
        (.recvBuf (req.hdrLen + (chunkOf cut.first.length it.segments).chPosition))
        (req.rcByteLen - req.hdrLen - (chunkOf cut.first.length it.segments).chPosition) =
          it.gap := by
      refine bytesFrom_eq (by dsimp only [chunkOf]; omega) fun i hi => ?_
      have := hbyte (cut.first.length + i) (by rw [length_append]; omega)
      rw [List.getElem_append_right (Nat.le_add_right ..)] at this
      simpa [Base.byte, chunkOf, Nat.add_assoc] using this
    rw [hch, hpages, hhead, htail]
    exact rel_append (rel_append (forall₂_some _)
      (rel_append (forall₂_some _) (forall₂_none _))) (forall₂_some _)

/-- A position-zero chunk alone: the message is in the pages. -/
theorem reassembles_call (h : Sends mem cut req) (hcall : cut.call ≠ []) (hitems : cut.items = [])
    (hfit : (cut.message mem).length ≤ rdma.RPCSVC_MAXPAGES * PAGE_SIZE)
    (hposts : ∀ head, buildReads rdma req rqPages = .ok head →
      head.ccSqecount ≤ rdma.scSqDepth) :
    Reassembles mem rdma cut req rqPages rqPages' := by
  have hread : req.rcReadPcl = [] := by
    rw [h.read, hitems]
    rfl
  have hcpcl : req.rcCallPcl = [chunkOf 0 cut.call] := by rw [h.call, if_neg hcall]
  have hpay : payload mem cut.call = cut.first := by
    rw [h.rest hcall]
    simp [Cut.rest, hitems]
  have hmsg : cut.message mem = (payload mem cut.call).map some := by
    simp [Cut.message, hitems, hpay]
  have hlen := h.len
  rw [if_neg hcall] at hlen
  rw [hmsg, length_map, payload_length] at hfit
  obtain ⟨head, hbuild, hfilled⟩ := filled_alone mem 0 hcall h.callSegments hfit
    rqPages
  have hreads : buildReads rdma req rqPages = .ok head := by
    unfold buildReads svcRdmaReadCallChunk
    rw [if_neg (by rw [hcpcl]; exact nofun), hcpcl, hread]
    exact hbuild
  have hbytes := hfilled.readbytes
  refine ⟨head, posted hreads hposts, ?_, ?_⟩
  · unfold svcRdmaReadComplete
    rw [hcpcl, hread, hmsg, length_map]
    dsimp only [svcRdmaReadCompletePages, savedArg]
    omega
  · unfold svcRdmaReadComplete
    rw [hcpcl, hread, hmsg]
    dsimp only [svcRdmaReadCompletePages, savedArg, XdrBuf.bytes]
    generalize payload mem cut.call = l at hfilled hbytes ⊢
    have hhead : bytesFrom req.rcRecvBuf (arrived mem head rqPages') (.page 0)
        (min PAGE_SIZE head.rcReadbytes) = l.take PAGE_SIZE := by
      refine bytesFrom_eq (by rw [List.length_take]; omega) fun i hi => ?_
      rw [List.length_take] at hi
      have := hfilled.arrived rqPages' (a := i) (by omega)
      rw [List.getElem_take, ← this]
      simp [Base.byte]
    have hpages : bytesFrom req.rcRecvBuf (arrived mem head rqPages') (.page 1)
        (head.rcReadbytes - min PAGE_SIZE head.rcReadbytes) = l.drop PAGE_SIZE := by
      refine bytesFrom_eq (by rw [List.length_drop]; omega) fun i hi => ?_
      rw [List.length_drop] at hi
      have := hfilled.arrived rqPages' (a := PAGE_SIZE + i) (by omega)
      rw [List.getElem_drop, ← this]
      unfold Base.byte
      dsimp only
      rw [PAGE_SIZE_eq]
      congr 1 <;> omega
    rw [hhead, hpages, List.take_append_drop, bytesFrom, List.range_zero, map_nil, List.append_nil]
    exact forall₂_some l

end One

/-! ### Several chunks -/

section Several
variable {rdma : Rdma} {mem : ℕ → ℕ → α} {cut : Cut α} {req : Received α} {head head' : RecvCtxt α}
  {rqPages rqPages' : ℕ → ℕ → α} {n len offset length : ℕ} {sgl : List Sg} {s : Segment}
  {segments init : List Segment}

/-- An empty segment gives a list of empty entries; the bytes read are counted by the caller. -/
theorem sgLoop_ok : ∀ {n len : ℕ} {head head' : RecvCtxt α} {sgl : List Sg},
    sgLoop rdma n len head = .ok (head', sgl) →
    head'.rcReadbytes = head.rcReadbytes ∧ (len = 0 → ∀ sg ∈ sgl, sg.length = 0) := by
  intro n
  induction n with
  | zero =>
    rintro len head head' sgl h
    cases h
    exact ⟨rfl, fun _ => nofun⟩
  | succ n ih =>
    intro len head head' sgl h
    unfold sgLoop at h
    dsimp only at h
    split at h
    · cases h
    · split at h
      · cases h
      · rename_i hloop
        cases h
        obtain ⟨hread, hzero⟩ := ih hloop
        refine ⟨hread.trans (advance_rest ..).2.2, fun hlen sg hsg => ?_⟩
        rcases List.mem_cons.mp hsg with rfl | hsg
        · dsimp only
          omega
        · exact hzero (by omega) sg hsg

theorem segment_ok (h : svcRdmaBuildReadSegment rdma head s = .ok head') :
    head'.rcReadbytes = head.rcReadbytes ∧ s.rsLength ≠ 0 := by
  unfold svcRdmaBuildReadSegment at h
  dsimp only at h
  split at h
  · cases h
  · split at h
    · cases h
    · rename_i hloop
      obtain ⟨hread, hzero⟩ := sgLoop_ok hloop
      split at h
      · cases h
      · rename_i hall
        cases h
        refine ⟨hread, fun hlen => hall (List.all_eq_true.mpr fun sg hsg => ?_)⟩
        exact decide_eq_true (hzero hlen sg hsg)

theorem chunk_ok : ∀ {segments : List Segment} {head : RecvCtxt α},
    chunkLoop rdma segments head = .ok head' → head.rcReadbytes < 2 ^ 32 →
      head'.rcReadbytes = (head.rcReadbytes + total segments) % 2 ^ 32 := by
  intro segments
  induction segments with
  | nil =>
    rintro head h hlt
    cases h
    exact (Nat.mod_eq_of_lt hlt).symm
  | cons s segments ih =>
    intro head h hlt
    unfold chunkLoop at h
    split at h
    · cases h
    · rename_i hbuild
      rw [ih h (Nat.mod_lt _ (by decide)), total_cons]
      unfold RecvCtxt.addRead
      dsimp only
      rw [(segment_ok hbuild).1]
      omega

theorem readChunk_ok {pos : ℕ}
    (h : svcRdmaBuildReadChunk rdma head (chunkOf pos segments) = .ok head')
    (hlt : head.rcReadbytes < 2 ^ 32) :
    head'.rcReadbytes = (head.rcReadbytes + total segments) % 2 ^ 32 := by
  unfold svcRdmaBuildReadChunk at h
  split at h
  · cases h
  · exact chunk_ok h hlt

/-- A range that begins with the call chunk has to go into its last segment: once it is exhausted,
    the segments that are left would be read with length zero. -/
theorem range_first : ∀ {init : List Segment} {length : ℕ} {ran : Bool} {head : RecvCtxt α},
    rangeLoop rdma (init ++ [s]) 0 length ran head = .ok head' → length < 2 ^ 32 →
    head.rcReadbytes < 2 ^ 32 → total init < length ∧ head'.rcReadbytes =
        (head.rcReadbytes + min length (total init + s.rsLength)) % 2 ^ 32 := by
  intro init
  induction init with
  | nil =>
    intro length ran head h hlen hlt
    rw [List.nil_append, rangeLoop, if_neg (Nat.not_lt_zero _)] at h
    dsimp only at h
    have hd : toU 32 ((min length s.rsLength : ℕ) - ((0 : ℕ) : ℤ)) = min length s.rsLength := by
      rw [toU_sub (by omega) (Nat.zero_le _), Nat.sub_zero]
    rw [hd] at h
    split at h
    · cases h
    · rename_i hbuild
      cases h
      obtain ⟨hread, hne⟩ := segment_ok hbuild
      dsimp only at hne
      refine ⟨by rw [total, map_nil, sum_nil]; omega, ?_⟩
      unfold RecvCtxt.addRead total
      dsimp only
      rw [hread, map_nil, sum_nil, Nat.zero_add]
  | cons r init ih =>
    intro length ran head h hlen hlt
    rw [List.cons_append, rangeLoop, if_neg (Nat.not_lt_zero _)] at h
    dsimp only at h
    have hd : toU 32 ((min length r.rsLength : ℕ) - ((0 : ℕ) : ℤ)) = min length r.rsLength := by
      rw [toU_sub (by omega) (Nat.zero_le _), Nat.sub_zero]
    rw [hd, toU_sub hlen (Nat.min_le_left ..)] at h
    split at h
    · cases h
    · rename_i hbuild
      obtain ⟨hread, -⟩ := segment_ok hbuild
      obtain ⟨hlast, hbytes⟩ := ih h (by omega) (Nat.mod_lt _ (by decide))
      rw [total_cons]
      refine ⟨by omega, ?_⟩
      rw [hbytes]
      unfold RecvCtxt.addRead
      dsimp only
      rw [hread]
      omega

/-- A range that begins behind the start of the last segment: what of it is skipped is taken off the
    length once more. -/
theorem range_next : ∀ {init : List Segment} {offset : ℕ}, total init < offset →
    rangeLoop rdma (init ++ [s]) offset length false head = .ok head' →
    offset ≤ total init + s.rsLength ∧ head'.rcReadbytes = (head.rcReadbytes +
      toU 32 ((min length s.rsLength : ℕ) - ((offset - total init : ℕ) : ℤ))) % 2 ^ 32 := by
  intro init
  induction init with
  | nil =>
    intro offset hoff h
    rw [List.nil_append, rangeLoop] at h
    split at h
    · cases h
    · dsimp only at h
      split at h
      · cases h
      · rename_i hbuild
        cases h
        obtain ⟨hread, -⟩ := segment_ok hbuild
        unfold RecvCtxt.addRead total
        dsimp only
        rw [hread, map_nil, sum_nil, Nat.sub_zero, Nat.zero_add]
        exact ⟨by omega, rfl⟩
  | cons r init ih =>
    intro offset hoff h
    rw [total_cons] at hoff ⊢
    rw [List.cons_append, rangeLoop, if_pos (by omega)] at h
    obtain ⟨hle, hbytes⟩ := ih (by omega) h
    rw [Nat.sub_sub] at hbytes
    exact ⟨by omega, hbytes⟩

theorem sum_gaps (items : List (Item α)) :
    (items.flatMap fun it => it.gap).length = (items.map fun it => it.gap.length).sum := by
  rw [List.length_flatMap]

/-- The bytes of the message behind the position of a chunk. -/
def behind (items : List (Item α)) : ℕ :=
  (items.map fun it => xdrAlignSize (total it.segments) + it.gap.length).sum

theorem behind_ge (items : List (Item α)) :
    (items.map fun it => it.gap.length).sum ≤ behind items := by
  unfold behind
  exact List.sum_le_sum fun it _ => Nat.le_add_left ..

/-- The count of the bytes read is short of `pos`, also after a range that was cut by `k`. -/
theorem count_short {r₁ r₂ pos d m k : ℕ} (h₁ : (r₁ : ℤ) = ((pos : ℤ) - d) % 2 ^ 32)
    (h₂ : r₂ = (r₁ + toU 32 ((m : ℤ) - k)) % 2 ^ 32) :
    (r₂ : ℤ) = ((pos : ℤ) + m - d - k) % 2 ^ 32 := by
  unfold toU at h₂
  omega

/-- RUN: after the first range the bytes that have been read fall short of the message, and each
    range makes it worse. -/
theorem pullLoop_short {T N : ℕ} (hT : total init + s.rsLength = T) (hTlt : T < 2 ^ 28)
    (hN : N < 2 ^ 28) : ∀ {items : List (Item α)} {pos start length D : ℕ} {head : RecvCtxt α},
    items ≠ [] → total init < start + length → start ≤ T → length < 2 ^ 31 →
    T ≤ start + length + (items.map fun it => it.gap.length).sum → D ≤ length + T →
    (head.rcReadbytes : ℤ) = ((pos : ℤ) - D) % 2 ^ 32 → pos + behind items = N →
    pullLoop rdma (svcRdmaReadChunkRange rdma (chunkOf 0 (init ++ [s]))) T (chunksFrom pos items)
      start length head = .ok head' → head'.rcReadbytes ≠ N := by
  intro items
  induction items with
  | nil => exact fun h => absurd rfl h
  | cons it items ih =>
    intro pos start length D head _ hin hstart hlength hgaps hD hread hbehind h
    have hge := xdrAlignSize_ge (total it.segments)
    rw [behind, map_cons, sum_cons] at hbehind
    rw [map_cons, sum_cons] at hgaps
    rw [chunksFrom, pullLoop] at h
    split at h
    · cases h
    · rename_i head₁ hchunk
      have hlt : head.rcReadbytes < 2 ^ 32 := by omega
      have h₁ : (head₁.rcReadbytes : ℤ) = ((pos + total it.segments : ℕ) - (D : ℤ)) % 2 ^ 32 := by
        have := readChunk_ok hchunk hlt
        clear ih hbehind hgaps
        omega
      rw [Nat.mod_eq_of_lt (by omega : start + length < 2 ^ 32)] at h
      cases items with
      | nil =>
        dsimp only at h
        obtain ⟨hle, h₂⟩ := range_next hin h
        rw [map_nil, sum_nil] at hgaps hbehind
        have hlast : toU 32 ((T : ℤ) - (start + length : ℕ)) = T - (start + length) :=
          toU_sub (by omega) (by omega)
        rw [hlast] at h₂
        have h₃ := count_short h₁ h₂
        clear ih h h₂ hread h₁
        omega
      | cons it' items =>
        dsimp only [chunksFrom] at h
        split at h
        · cases h
        · rename_i head₂ hrange
          obtain ⟨hle, h₂⟩ := range_next hin hrange
          have hpos : (chunkOf (pos + xdrAlignSize (total it.segments) + it.gap.length)
              it'.segments).chPosition =
            pos + xdrAlignSize (total it.segments) + it.gap.length := rfl
          obtain ⟨length', hl⟩ : ∃ l, l = xdrAlignSize (total it.segments) - total it.segments +
            it.gap.length + D := ⟨_, rfl⟩
          have hlen : toU 32 (((pos + xdrAlignSize (total it.segments) + it.gap.length : ℕ) : ℤ) -
              head₁.rcReadbytes) = length' := by
            unfold toU
            clear ih h h₂ hread
            omega
          rw [hpos, hlen] at h h₂
          have h₃ := count_short h₁ h₂
          have hcut : (head₂.rcReadbytes : ℤ) =
              ((pos + xdrAlignSize (total it.segments) + it.gap.length : ℕ) -
                ((length' - min length' s.rsLength + (start + length - total init) : ℕ) : ℤ)) %
                2 ^ 32 := by
            rw [h₃]
            congr 1
            clear ih h h₂ hread h₁ h₃ hlen
            omega
          clear hread h₁ h₂ h₃ hlen hrange
          exact ih (D := length' - min length' s.rsLength + (start + length - total init))
            (List.cons_ne_nil _ _) (by omega) (by omega) (by omega) (by omega) (by omega) hcut
            (by rw [behind]; omega) h

end Several

section Cut
variable {rdma : Rdma} {mem : ℕ → ℕ → α} {cut : Cut α} {req : Received α} {head : RecvCtxt α}
  {rqPages rqPages' : ℕ → ℕ → α}

theorem chunksFrom_length : ∀ (pos : ℕ) (items : List (Item α)),
    (chunksFrom pos items).length = items.length
  | _, [] => rfl
  | _, _ :: items => congrArg (· + 1) (chunksFrom_length _ items)

theorem message_length (cut : Cut α) :
    (cut.message mem).length = cut.first.length + behind cut.items := by
  unfold Cut.message behind
  rw [length_append, length_map, List.length_flatMap]
  simp only [item_length]

/-- A position-zero chunk with Read chunks: what is read never makes up the message. -/
theorem short_call (h : Sends mem cut req) (hcall : cut.call ≠ []) (hitems : cut.items ≠ [])
    (hfit : (cut.message mem).length ≤ rdma.RPCSVC_MAXPAGES * PAGE_SIZE)
    (hbuild : buildReads rdma req rqPages = .ok head) :
    head.rcReadbytes ≠ (cut.message mem).length := by
  have hsmall := rdma.small
  rw [message_length] at hfit ⊢
  have hcpcl : req.rcCallPcl = [chunkOf 0 cut.call] := by rw [h.call, if_neg hcall]
  have hrest : total cut.call = cut.first.length + (cut.items.map fun it => it.gap.length).sum := by
    rw [← payload_length mem, h.rest hcall, Cut.rest, length_append, sum_gaps]
  have hge := behind_ge cut.items
  have hfirst := h.first hitems
  obtain ⟨it, items, hit⟩ := List.exists_cons_of_ne_nil hitems
  have hread : req.rcReadPcl = chunksFrom cut.first.length cut.items := h.read
  obtain ⟨init, s, hsegs⟩ : ∃ init s, cut.call = init ++ [s] :=
    ⟨_, _, (List.dropLast_append_getLast hcall).symm⟩
  have htotal : total cut.call = total init + s.rsLength := by
    rw [hsegs, total, List.map_append, List.sum_append]
    rfl
  have hch : (chunkOf 0 cut.call).chLength = total cut.call := by
    refine Nat.mod_eq_of_lt ?_
    unfold total at hrest
    omega
  unfold buildReads svcRdmaReadCallChunk at hbuild
  rw [if_neg (by rw [hcpcl]; exact nofun), hcpcl, hread] at hbuild
  dsimp only at hbuild
  rw [if_neg (by rw [hit]; exact nofun), hch, hit, chunksFrom, pullList] at hbuild
  split at hbuild
  · cases hbuild
  · rename_i head₁ hrange
    rw [hsegs] at hrange
    obtain ⟨hlast, hbytes⟩ := range_first hrange (show cut.first.length < 2 ^ 32 by omega)
      (Nat.two_pow_pos 32)
    have hlast : total init < cut.first.length := hlast
    have hbytes : head₁.rcReadbytes = cut.first.length := by
      rw [hbytes]
      dsimp only [chunkOf]
      omega
    rw [← chunksFrom, ← hit, hsegs] at hbuild
    rw [hsegs] at hrest htotal
    refine pullLoop_short (D := 0) htotal.symm (by omega) (by omega) hitems
      (show total init < 0 + cut.first.length by omega) (Nat.zero_le _)
      (show cut.first.length < 2 ^ 31 by omega)
      (show _ ≤ 0 + cut.first.length + _ by omega) (Nat.zero_le _) ?_ rfl hbuild
    omega

/-- Several Read chunks: the inline content before the first one cannot be copied. -/
theorem fails_multiple (rdma : Rdma) (rqPages : ℕ → ℕ → α) (h : Sends mem cut req)
    (hcall : cut.call = []) (hitems : cut.items.length ≠ 1) :
    ∃ e, buildReads rdma req rqPages = .error e := by
  have hcpcl : req.rcCallPcl = [] := by rw [h.call, if_pos hcall]
  obtain ⟨it, items, hit⟩ := List.exists_cons_of_ne_nil (h.chunks.resolve_left (not_not.mpr hcall))
  refine ⟨.err .einval, ?_⟩
  unfold buildReads svcRdmaReadMultipleChunks
  rw [if_pos hcpcl, if_neg (by rw [h.read, chunksFrom_length]; exact hitems), h.read, hit]
  rfl

/-- CORRECT: the message arrives whole exactly when the client has cut off one chunk, as a Read
    chunk or at position zero. -/
theorem read_list (h : Sends mem cut req)
    (hfit : cut.placed mem ≤ rdma.RPCSVC_MAXPAGES * PAGE_SIZE)
    (hposts : ∀ head, buildReads rdma req rqPages = .ok head →
      head.ccSqecount ≤ rdma.scSqDepth) :
    Reassembles mem rdma cut req rqPages rqPages' ↔
      req.rcCallPcl.length + req.rcReadPcl.length = 1 := by
  have hread : req.rcReadPcl.length = cut.items.length := by rw [h.read, chunksFrom_length]
  rcases eq_or_ne cut.call [] with hcall | hcall
  · have hcpcl : req.rcCallPcl = [] := by rw [h.call, if_pos hcall]
    rw [hcpcl, hread, List.length_nil, Nat.zero_add]
    constructor
    · rintro ⟨head, hproc, -⟩
      by_contra hone
      obtain ⟨e, he⟩ := fails_multiple rdma rqPages h hcall hone
      unfold svcRdmaProcessReadList at hproc
      rw [he] at hproc
      cases hproc
    · intro hone
      obtain ⟨it, hit⟩ := List.length_eq_one_iff.mp hone
      rw [Cut.placed, hcall, hit] at hfit
      exact reassembles_one h hcall hit hfit hposts
  · have hcpcl : req.rcCallPcl = [chunkOf 0 cut.call] := by rw [h.call, if_neg hcall]
    have hplaced : cut.placed mem = (cut.message mem).length := by
      unfold Cut.placed
      split
      · exact absurd ‹_› hcall
      · rfl
    rw [hplaced] at hfit
    rw [hcpcl, hread, List.length_singleton]
    constructor
    · rintro ⟨head, hproc, hlen, -⟩
      by_contra hone
      have hitems : cut.items ≠ [] := fun hnil => hone (by rw [hnil]; rfl)
      unfold svcRdmaProcessReadList at hproc
      split at hproc
      · cases hproc
      · rename_i head' hbuild
        split at hproc
        · cases hproc
        · cases hproc
          refine short_call h hcall hitems hfit hbuild ?_
          rw [← hlen]
          have hlen' := h.len
          rw [if_neg hcall] at hlen'
          unfold svcRdmaReadComplete
          rw [hcpcl]
          dsimp only [svcRdmaReadCompletePages, savedArg]
          omega
    · intro hone
      have hitems : cut.items = [] := List.length_eq_zero_iff.mp (by omega)
      exact reassembles_call h hcall hitems hfit hposts

end Cut

/-- 259 pages, a Send Queue of 100, and one work request for each entry. -/
def demoRdma : Rdma := ⟨259, by decide, 100, id⟩

/-- The client's memory: the byte at an address is the address. -/
def demoMem (_ addr : ℕ) : ℕ := addr

/-- What arrives when a cut is sent inline behind a header of 28 bytes. -/
def demoReceived (cut : Cut ℕ) : Received ℕ :=
  ⟨fun i => cut.rest.getD (i - 28) 0, 28 + cut.rest.length, 28, [],
    chunksFrom cut.first.length cut.items⟩

theorem demo_sends (cut : Cut ℕ) (hcall : cut.call = []) (hne : cut.items ≠ [])
    (hfirst : 0 < cut.first.length)
    (hs : ∀ it ∈ cut.items, it.segments ≠ [] ∧ ∀ s ∈ it.segments, 0 < s.rsLength) :
    Sends demoMem cut (demoReceived cut) where
  read := rfl
  call := by rw [if_pos hcall]; rfl
  len := by rw [if_pos hcall]; rfl
  inline := fun _ i hi => by
    simp [demoReceived, hi]
  rest := fun h => absurd hcall h
  chunks := .inr hne
  first := fun _ => hfirst
  segments := hs
  callSegments := fun s hs => by
    rw [hcall] at hs
    cases hs

/-- One Read chunk of two segments, seven bytes long, and a pad byte behind it. -/
def demoOne : Cut ℕ := ⟨[1, 2, 3, 4], [⟨[⟨7, 5, 100⟩, ⟨8, 2, 200⟩], [5, 6, 7, 8]⟩], []⟩

theorem read_list_demo : Reassembles demoMem demoRdma demoOne (demoReceived demoOne)
    (fun _ _ => 0) fun _ _ => 0 := by
  refine (read_list (demo_sends demoOne rfl (by decide) (by decide) (by decide)) (by decide)
    fun head h => ?_).mpr rfl
  have hcount : (buildReads demoRdma (demoReceived demoOne) fun _ _ => 0).toOption.map
      (fun head => head.ccSqecount) = some 2 := by decide +kernel
  rw [h] at hcount
  exact (Option.some.inj hcount).trans_le (by decide)

/-- Two Read chunks, at positions 4 and 12. -/
def demoTwo : Cut ℕ :=
  ⟨[1, 2, 3, 4], [⟨[⟨7, 4, 100⟩], [5, 6, 7, 8]⟩, ⟨[⟨8, 4, 200⟩], [9, 9, 9, 9]⟩], []⟩

theorem read_list_broken : Sends demoMem demoTwo (demoReceived demoTwo) ∧
    demoTwo.placed demoMem ≤ demoRdma.RPCSVC_MAXPAGES * PAGE_SIZE ∧
    svcRdmaProcessReadList demoRdma (demoReceived demoTwo) (fun _ _ => 0) = .error (.err .einval) ∧
    ¬ Reassembles demoMem demoRdma demoTwo (demoReceived demoTwo) (fun _ _ => 0) fun _ _ => 0 := by
  refine ⟨demo_sends demoTwo rfl (by decide) (by decide) (by decide), by decide, rfl, ?_⟩
  rintro ⟨head, h, -⟩
  cases h

end RdmaDriver.ReadList
