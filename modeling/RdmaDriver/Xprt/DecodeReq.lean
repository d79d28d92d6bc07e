import RdmaDriver.Xprt.Xdr
import RdmaDriver.Schemes.SortedInsert
import Mathlib.Data.List.Basic
import Mathlib.Data.List.Infix

/-! @src xprtrdma/svc_rdma_recvfrom.c, svc_rdma_pcl.c | name:transport header of a call |
    scheme:stream | family:parser

    The decoder goes over the Read list three times: it counts the segments, and then collects those of
    the position-zero chunk and those of the other chunks. The two later passes go as far as their own
    count says.

        Read list     0  0  8  4  8        counted: 2 at zero, 3 others
        call pass     0  0                 takes the position-zero ones of the first 2
        read pass     0  0  8              takes the others of the first 3                    -/

namespace RdmaDriver.DecodeReq
open Xdr Schemes
open List (append_assoc append_nil flatMap_cons forall_mem_cons length_append length_cons
  length_map map_nil mem_cons mem_cons_self mem_singleton)

/-- `struct svc_rdma_chunk`; `ch_segcount` is the number of its segments. -/
structure Chunk where
  chPosition : ℕ
  chLength : ℕ
  chPayloadLength : ℕ
  chSegments : List Segment
  deriving DecidableEq

/-- `struct svc_rdma_pcl`. -/
structure Pcl where
  clCount : ℕ
  clChunks : List Chunk
  deriving DecidableEq

/-- What the decoder uses of `struct svc_rdma_recv_ctxt`, and how many chunks were asked for. -/
structure RecvCtxt where
  rcStream : ℕ
  rcMsgtype : ℕ
  rcCallPcl : Pcl
  rcReadPcl : Pcl
  rcWritePcl : Pcl
  rcReplyPcl : Pcl
  rcCurResultPayload : Option Chunk
  allocs : ℕ
  deriving DecidableEq

/-- What the decoder uses of `struct xdr_buf`: the head, and the length. -/
structure RqArg where
  iovBase : ℕ
  iovLen : ℕ
  len : ℕ
  deriving DecidableEq

/-! ### Chunk lists -/

section Pcl

variable (kmalloc : ℕ → ℕ → Bool) (buf : List ℕ) (st : ℕ)

/-- `pcl_alloc_chunk`: the header of a chunk has 32 bytes and a segment 16. -/
def pclAllocChunk (allocs segcount position : ℕ) : Option Chunk :=
  if kmalloc allocs (32 + 16 * segcount) then some ⟨position, 0, 0, []⟩ else none

/-- `pcl_lookup_position`. -/
def pclLookupPosition (pcl : Pcl) (position : ℕ) : Option Chunk :=
  pcl.clChunks.find? fun pos => pos.chPosition = position

/-- `pcl_insert_position`. -/
def pclInsertPosition (pcl : Pcl) (chunk : Chunk) : Pcl :=
  ⟨pcl.clCount + 1, (pcl.clChunks.takeWhile fun pos => pos.chPosition ≤ chunk.chPosition) ++
    chunk :: pcl.clChunks.dropWhile fun pos => pos.chPosition ≤ chunk.chPosition⟩

/-- `pcl_set_read_segment`. -/
def pclSetReadSegment (chunk : Chunk) (segment : Segment) : Chunk :=
  { chunk with
    chLength := (chunk.chLength + segment.rsLength) % 2 ^ 32
    chSegments := chunk.chSegments ++ [segment] }

/-- The segment is put into the chunk at a position. -/
def pclSetAt (pcl : Pcl) (position : ℕ) (segment : Segment) : Pcl :=
  { pcl with clChunks := pcl.clChunks.map fun chunk =>
      if chunk.chPosition = position then pclSetReadSegment chunk segment else chunk }

/-- The loop of `pcl_alloc_call`. -/
def pclAllocCallLoop (segcount : ℕ) : ℕ → ℕ → Pcl → ℕ → Option (Bool × Pcl × ℕ)
  | 0, _, pcl, allocs => some (true, pcl, allocs)
  | n + 1, p, pcl, allocs =>
    match decodeReadSegment buf st (p + 1) with
    | none => none
    | some (position, segment) =>
      if position ≠ 0 then pclAllocCallLoop segcount n (p + 6) pcl allocs
      else
        match pcl.clChunks with
        | [] =>
          match pclAllocChunk kmalloc allocs segcount position with
          | none => some (false, pcl, allocs + 1)
          | some chunk => pclAllocCallLoop segcount n (p + 6)
              (pclInsertPosition pcl (pclSetReadSegment chunk segment)) (allocs + 1)
        | chunk :: chunks => pclAllocCallLoop segcount n (p + 6)
            { pcl with clChunks := pclSetReadSegment chunk segment :: chunks } allocs

/-- `pcl_alloc_call`. -/
def pclAllocCall (rctxt : RecvCtxt) (p : ℕ) : Option (Bool × RecvCtxt) :=
  match pclAllocCallLoop kmalloc buf rctxt.rcStream rctxt.rcCallPcl.clCount
      rctxt.rcCallPcl.clCount p { rctxt.rcCallPcl with clCount := 0 } rctxt.allocs with
  | none => none
  | some (ok, pcl, allocs) => some (ok, { rctxt with rcCallPcl := pcl, allocs := allocs })

/-- The loop of `pcl_alloc_read`. -/
def pclAllocReadLoop (segcount : ℕ) : ℕ → ℕ → Pcl → ℕ → Option (Bool × Pcl × ℕ)
  | 0, _, pcl, allocs => some (true, pcl, allocs)
  | n + 1, p, pcl, allocs =>
    match decodeReadSegment buf st (p + 1) with
    | none => none
    | some (position, segment) =>
      if position = 0 then pclAllocReadLoop segcount n (p + 6) pcl allocs
      else
        match pclLookupPosition pcl position with
        | none =>
          match pclAllocChunk kmalloc allocs segcount position with
          | none => some (false, pcl, allocs + 1)
          | some chunk => pclAllocReadLoop segcount n (p + 6)
              (pclSetAt (pclInsertPosition pcl chunk) position segment) (allocs + 1)
        | some _ => pclAllocReadLoop segcount n (p + 6) (pclSetAt pcl position segment) allocs

/-- `pcl_alloc_read`. -/
def pclAllocRead (rctxt : RecvCtxt) (p : ℕ) : Option (Bool × RecvCtxt) :=
  match pclAllocReadLoop kmalloc buf rctxt.rcStream rctxt.rcReadPcl.clCount
      rctxt.rcReadPcl.clCount p { rctxt.rcReadPcl with clCount := 0 } rctxt.allocs with
  | none => none
  | some (ok, pcl, allocs) => some (ok, { rctxt with rcReadPcl := pcl, allocs := allocs })

/-- The inner loop of `pcl_alloc_write`; it returns the next place too. -/
def pclWriteSegments : ℕ → ℕ → Chunk → Option (ℕ × Chunk)
  | 0, p, chunk => some (p, chunk)
  | n + 1, p, chunk =>
    match decodeRdmaSegment buf st p with
    | none => none
    | some segment => pclWriteSegments n (p + 4) (pclSetReadSegment chunk segment)

/-- `pcl_alloc_write`, for the chunks of a list. -/
def pclAllocWrite : ℕ → ℕ → Pcl → ℕ → Option (Bool × Pcl × ℕ)
  | 0, _, pcl, allocs => some (true, pcl, allocs)
  | n + 1, p, pcl, allocs =>
    match deref buf st (p + 1) with
    | none => none
    | some segcount =>
      match pclAllocChunk kmalloc allocs segcount 0 with
      | none => some (false, pcl, allocs + 1)
      | some chunk =>
        match pclWriteSegments buf st segcount (p + 2) chunk with
        | none => none
        | some (p, chunk) =>
          pclAllocWrite n p { pcl with clChunks := pcl.clChunks ++ [chunk] } (allocs + 1)

end Pcl

/-! ### The decoder -/

section Decode

variable (kmalloc : ℕ → ℕ → Bool) (buf : List ℕ)

/-- A segment is counted, with those at position zero or with the others. -/
def countSegment (rctxt : RecvCtxt) (position : ℕ) : RecvCtxt :=
  if position ≠ 0 then
    { rctxt with rcReadPcl := { rctxt.rcReadPcl with clCount := rctxt.rcReadPcl.clCount + 1 } }
  else
    { rctxt with rcCallPcl := { rctxt.rcCallPcl with clCount := rctxt.rcCallPcl.clCount + 1 } }

/-- `xdr_count_read_segments`; `p` is the last discriminator that was handed out. -/
def xdrCountReadSegments : ℕ → RecvCtxt → ℕ → Option (Bool × RecvCtxt)
  | 0, _, _ => none
  | fuel + 1, rctxt, p =>
    match deref buf rctxt.rcStream p with
    | none => none
    | some item =>
      if item = 0 then some (true, rctxt)
      else
        match inlineDecode buf rctxt.rcStream 5 with
        | none => some (false, rctxt)
        | some st =>
          match decodeReadSegment buf st rctxt.rcStream with
          | none => none
          | some (position, _) =>
            if position ≠ 0 ∧ position % 4 ≠ 0 then some (false, { rctxt with rcStream := st })
            else
              match inlineDecode buf st 1 with
              | none => some (false, { countSegment rctxt position with rcStream := st })
              | some st' =>
                xdrCountReadSegments fuel { countSegment rctxt position with rcStream := st' } st

/-- `xdr_check_read_list`. -/
def xdrCheckReadList (rctxt : RecvCtxt) : Option (Bool × RecvCtxt) :=
  let p := rctxt.rcStream
  match inlineDecode buf p 1 with
  | none => some (false, rctxt)
  | some st =>
    match xdrCountReadSegments buf (buf.length + 1)
        { rctxt with
          rcStream := st
          rcCallPcl := { rctxt.rcCallPcl with clCount := 0 }
          rcReadPcl := { rctxt.rcReadPcl with clCount := 0 } } p with
    | none => none
    | some (false, rctxt) => some (false, rctxt)
    | some (true, rctxt) =>
      match pclAllocCall kmalloc buf rctxt p with
      | none => none
      | some (false, rctxt) => some (false, rctxt)
      | some (true, rctxt) => pclAllocRead kmalloc buf rctxt p

/-- `xdr_check_write_chunk`; the product is taken in 32 bits. -/
def xdrCheckWriteChunk (rctxt : RecvCtxt) : Option (Bool × RecvCtxt) :=
  match inlineDecode buf rctxt.rcStream 1 with
  | none => some (false, rctxt)
  | some st =>
    match deref buf st rctxt.rcStream with
    | none => none
    | some segcount =>
      match inlineDecode buf st (segcount * 4 % 2 ^ 32) with
      | none => some (false, { rctxt with rcStream := st })
      | some st' => some (true, { rctxt with rcStream := st' })

/-- `xdr_count_write_chunks`. -/
def xdrCountWriteChunks : ℕ → RecvCtxt → ℕ → Option (Bool × RecvCtxt)
  | 0, _, _ => none
  | fuel + 1, rctxt, p =>
    match deref buf rctxt.rcStream p with
    | none => none
    | some item =>
      if item = 0 then some (true, rctxt)
      else
        match xdrCheckWriteChunk buf rctxt with
        | none => none
        | some (false, rctxt) => some (false, rctxt)
        | some (true, rctxt) =>
          let counted := { rctxt with rcWritePcl :=
            { rctxt.rcWritePcl with clCount := rctxt.rcWritePcl.clCount + 1 } }
          match inlineDecode buf counted.rcStream 1 with
          | none => some (false, counted)
          | some st => xdrCountWriteChunks fuel { counted with rcStream := st } counted.rcStream

/-- `xdr_check_write_list`. -/
def xdrCheckWriteList (rctxt : RecvCtxt) : Option (Bool × RecvCtxt) :=
  let p := rctxt.rcStream
  match inlineDecode buf p 1 with
  | none => some (false, rctxt)
  | some st =>
    match xdrCountWriteChunks buf (buf.length + 1)
        { rctxt with
          rcStream := st
          rcWritePcl := { rctxt.rcWritePcl with clCount := 0 } } p with
    | none => none
    | some (false, rctxt) => some (false, rctxt)
    | some (true, rctxt) =>
      match pclAllocWrite kmalloc buf rctxt.rcStream rctxt.rcWritePcl.clCount p
          rctxt.rcWritePcl rctxt.allocs with
      | none => none
      | some (false, pcl, allocs) => some (false, { rctxt with rcWritePcl := pcl, allocs := allocs })
      | some (true, pcl, allocs) => some (true, { rctxt with
          rcWritePcl := pcl
          rcCurResultPayload := pcl.clChunks.head?
          allocs := allocs })

/-- `xdr_check_reply_chunk`. -/
def xdrCheckReplyChunk (rctxt : RecvCtxt) : Option (Bool × RecvCtxt) :=
  let p := rctxt.rcStream
  match inlineDecode buf p 1 with
  | none => some (false, rctxt)
  | some st =>
    match deref buf st p with
    | none => none
    | some item =>
      if item = 0 then some (true, { rctxt with rcStream := st })
      else
        match xdrCheckWriteChunk buf { rctxt with rcStream := st } with
        | none => none
        | some (false, rctxt) => some (false, rctxt)
        | some (true, rctxt) =>
          match pclAllocWrite kmalloc buf rctxt.rcStream 1 p
              { rctxt.rcReplyPcl with clCount := 1 } rctxt.allocs with
          | none => none
          | some (ok, pcl, allocs) =>
            some (ok, { rctxt with rcReplyPcl := pcl, allocs := allocs })

/-- `svc_rdma_xdr_decode_req`; -22 is `-EINVAL` and -93 `-EPROTONOSUPPORT`. -/
def svcRdmaXdrDecodeReq (rqArg : RqArg) (rctxt : RecvCtxt) : Option (ℤ × RqArg × RecvCtxt) :=
  let rctxt := { rctxt with rcStream := 0 }
  match inlineDecode buf 0 4 with
  | none => some (-22, rqArg, rctxt)
  | some st =>
    match deref buf st 1, deref buf st 3 with
    | some vers, some proc =>
      if vers ≠ 1 then some (-93, rqArg, { rctxt with rcStream := st })
      else
        let rctxt := { rctxt with rcStream := st, rcMsgtype := proc }
        if proc = 3 ∨ proc = 4 then some (0, rqArg, rctxt)
        else if proc ≠ 0 ∧ proc ≠ 1 then some (-22, rqArg, rctxt)
        else
          match xdrCheckReadList kmalloc buf rctxt with
          | none => none
          | some (false, rctxt) => some (-22, rqArg, rctxt)
          | some (true, rctxt) =>
            match xdrCheckWriteList kmalloc buf rctxt with
            | none => none
            | some (false, rctxt) => some (-22, rqArg, rctxt)
            | some (true, rctxt) =>
              match xdrCheckReplyChunk kmalloc buf rctxt with
              | none => none
              | some (false, rctxt) => some (-22, rqArg, rctxt)
              | some (true, rctxt) =>
                let hdrLen := 4 * rctxt.rcStream
                some (hdrLen, ⟨rqArg.iovBase + hdrLen, rqArg.iovLen - hdrLen,
                  rqArg.len - hdrLen⟩, rctxt)
    | _, _ => none

end Decode

/-! ### What a header says -/

/-- A segment of the Read list, behind its discriminator. -/
structure ReadItem where
  present : ℕ
  position : ℕ
  segment : Segment
  deriving DecidableEq

def ReadItem.words (r : ReadItem) : List ℕ := r.present :: r.position :: r.segment.words

structure ReadItem.Fits (r : ReadItem) : Prop where
  present : r.present ≠ 0
  position : r.position % 4 = 0
  segment : r.segment.Fits

/-- A Write chunk or the Reply chunk, behind its discriminator. -/
structure WriteItem where
  present : ℕ
  segments : List Segment
  deriving DecidableEq

def WriteItem.words (c : WriteItem) : List ℕ :=
  c.present :: c.segments.length :: c.segments.flatMap Segment.words

structure WriteItem.Fits (c : WriteItem) : Prop where
  present : c.present ≠ 0
  segments : ∀ s ∈ c.segments, s.Fits

/-- A version-1 header of an `RDMA_MSG` or `RDMA_NOMSG`. -/
structure Header where
  xid : ℕ
  credits : ℕ
  proc : ℕ
  reads : List ReadItem
  writes : List WriteItem
  reply : Option WriteItem
  deriving DecidableEq

/-- The words of a Reply chunk that may be absent. -/
def replyWords : Option WriteItem → List ℕ
  | none => [0]
  | some c => c.words

def Header.words (h : Header) : List ℕ :=
  [h.xid, 1, h.credits, h.proc] ++ (h.reads.flatMap ReadItem.words ++ [0]) ++
    (h.writes.flatMap WriteItem.words ++ [0]) ++ replyWords h.reply

structure Header.Fits (h : Header) : Prop where
  proc : h.proc = 0 ∨ h.proc = 1
  reads : ∀ r ∈ h.reads, r.Fits
  writes : ∀ c ∈ h.writes, c.Fits
  reply : ∀ c, h.reply = some c → c.Fits

/-- A chunk of segments. -/
def chunkOf (position : ℕ) (segments : List Segment) : Chunk :=
  ⟨position, (segments.map fun s => s.rsLength).sum % 2 ^ 32, 0, segments⟩

/-- The segments of the Read list at a position. -/
def segmentsAt (reads : List ReadItem) (position : ℕ) : List Segment :=
  (reads.filter fun r => r.position = position).map fun r => r.segment

/-- The call chunk holds the position-zero segments, in order; without any there is none. -/
def CallExact (reads : List ReadItem) (chunks : List Chunk) : Prop :=
  chunks = if segmentsAt reads 0 = [] then [] else [chunkOf 0 (segmentsAt reads 0)]

/-- The other chunks, sorted by position: each holds the segments at its position, in order. -/
structure ReadExact (reads : List ReadItem) (chunks : List Chunk) : Prop where
  sorted : chunks.Pairwise fun c d => c.chPosition < d.chPosition
  chunk : ∀ c ∈ chunks, c.chPosition ≠ 0 ∧ segmentsAt reads c.chPosition ≠ [] ∧
    c = chunkOf c.chPosition (segmentsAt reads c.chPosition)
  all : ∀ r ∈ reads, r.position ≠ 0 → ∃ c ∈ chunks, c.chPosition = r.position

section Header

variable {segments : List Segment} {s : Segment} {position : ℕ} {reads : List ReadItem} {r : ReadItem}
  {chunks : List Chunk}

theorem chunkOf_nil (position : ℕ) : chunkOf position [] = ⟨position, 0, 0, []⟩ := rfl

@[simp] theorem set_chunkOf : pclSetReadSegment (chunkOf position segments) s =
    chunkOf position (segments ++ [s]) := by
  unfold pclSetReadSegment chunkOf
  rw [List.map_append, List.sum_append]
  simp

theorem segmentsAt_append (reads reads' : List ReadItem) (position : ℕ) :
    segmentsAt (reads ++ reads') position = segmentsAt reads position ++ segmentsAt reads' position := by
  unfold segmentsAt
  rw [List.filter_append, List.map_append]

theorem segmentsAt_self (r : ReadItem) : segmentsAt [r] r.position = [r.segment] := by
  simp [segmentsAt]

theorem segmentsAt_other (h : r.position ≠ position) : segmentsAt [r] position = [] := by
  simp [segmentsAt, h]

theorem length_segmentsAt (reads : List ReadItem) (position : ℕ) :
    (segmentsAt reads position).length = reads.countP fun r => r.position = position := by
  unfold segmentsAt
  rw [length_map, List.countP_eq_length_filter]

end Header

/-! ### The passes over the Read list -/

section Passes

variable {kmalloc : ℕ → ℕ → Bool} {buf rest : List ℕ} {st segcount : ℕ} {r : ReadItem}
  {reads done : List ReadItem} {chunks : List Chunk} {pcl : Pcl}

theorem read_words_length (r : ReadItem) : r.words.length = 6 := rfl

theorem reads_words_length (reads : List ReadItem) :
    (reads.flatMap ReadItem.words).length = 6 * reads.length := by
  induction reads with
  | nil => rfl
  | cons r reads ih =>
    rw [flatMap_cons, length_append, ih, read_words_length, length_cons]
    omega

/-- The first segment of the list is decoded, and the others follow. -/
theorem decode_item {p : ℕ} (h : buf.drop p = (r :: reads).flatMap ReadItem.words ++ rest)
    (hst : p + 6 ≤ st) :
    decodeReadSegment buf st (p + 1) = some (r.position, r.segment) ∧
      buf.drop (p + 6) = reads.flatMap ReadItem.words ++ rest := by
  rw [flatMap_cons, append_assoc] at h
  have h₁ := drop_succ h
  have h₂ := drop_succ h₁
  refine ⟨?_, ?_⟩
  · unfold decodeReadSegment
    rw [deref_drop h₁ (by omega), Option.bind_eq_bind, Option.bind_some,
      decodeRdmaSegment_words h₂ (by omega)]
    rfl
  · have h₃ := drop_append h
    rwa [read_words_length] at h₃

/-- One segment of the call pass. -/
def callStep (pcl : Pcl) (r : ReadItem) : Pcl :=
  if r.position ≠ 0 then pcl
  else
    match pcl.clChunks with
    | [] => pclInsertPosition pcl (chunkOf 0 [r.segment])
    | chunk :: chunks => { pcl with clChunks := pclSetReadSegment chunk r.segment :: chunks }

/-- One segment of the read pass. -/
def readStep (pcl : Pcl) (r : ReadItem) : Pcl :=
  if r.position = 0 then pcl
  else
    match pclLookupPosition pcl r.position with
    | none => pclSetAt (pclInsertPosition pcl (chunkOf r.position [])) r.position r.segment
    | some _ => pclSetAt pcl r.position r.segment

/-- RUN: the call pass takes the first segments of the list one after the other. -/
theorem callLoop_run : ∀ (n p : ℕ) (pcl : Pcl) (allocs : ℕ) {reads : List ReadItem},
    buf.drop p = reads.flatMap ReadItem.words ++ rest → n ≤ reads.length →
      p + 6 * reads.length ≤ st → ∃ ok pcl' allocs',
        pclAllocCallLoop kmalloc buf st segcount n p pcl allocs = some (ok, pcl', allocs') ∧
          (ok = true → pcl' = (reads.take n).foldl callStep pcl)
  | 0, p, pcl, allocs, reads, _, _, _ => ⟨true, pcl, allocs, rfl, fun _ => rfl⟩
  | n + 1, p, pcl, allocs, [], _, hn, _ => by cases hn
  | n + 1, p, pcl, allocs, r :: reads, h, hn, hst => by
    simp only [length_cons] at hn hst
    obtain ⟨hr, hrest⟩ := decode_item h (show p + 6 ≤ st by omega)
    have hnext := fun pcl allocs => callLoop_run n (p + 6) pcl allocs hrest (by omega) (by omega)
    rw [pclAllocCallLoop, hr]
    dsimp only
    rw [List.take_succ_cons, List.foldl_cons]
    by_cases hzero : r.position = 0
    · have hstep : callStep pcl r = match pcl.clChunks with
        | [] => pclInsertPosition pcl (chunkOf 0 [r.segment])
        | chunk :: chunks => { pcl with clChunks := pclSetReadSegment chunk r.segment :: chunks } :=
        if_neg (not_not.mpr hzero)
      rw [if_neg (not_not.mpr hzero), hstep]
      rcases hchunks : pcl.clChunks with _ | ⟨chunk, chunks⟩
      · dsimp only
        unfold pclAllocChunk
        split
        · exact ⟨false, pcl, allocs + 1, rfl, fun hok => (by cases hok)⟩
        · rename_i chunk hchunk
          split at hchunk
          · cases hchunk
            rw [hzero, ← chunkOf_nil, set_chunkOf]
            exact hnext _ _
          · cases hchunk
      · exact hnext _ _
    · have hstep : callStep pcl r = pcl := if_pos hzero
      rw [if_pos hzero, hstep]
      exact hnext _ _

/-- RUN: and so does the read pass. -/
theorem readLoop_run : ∀ (n p : ℕ) (pcl : Pcl) (allocs : ℕ) {reads : List ReadItem},
    buf.drop p = reads.flatMap ReadItem.words ++ rest → n ≤ reads.length →
      p + 6 * reads.length ≤ st → ∃ ok pcl' allocs',
        pclAllocReadLoop kmalloc buf st segcount n p pcl allocs = some (ok, pcl', allocs') ∧
          (ok = true → pcl' = (reads.take n).foldl readStep pcl)
  | 0, p, pcl, allocs, reads, _, _, _ => ⟨true, pcl, allocs, rfl, fun _ => rfl⟩
  | n + 1, p, pcl, allocs, [], _, hn, _ => by cases hn
  | n + 1, p, pcl, allocs, r :: reads, h, hn, hst => by
    simp only [length_cons] at hn hst
    obtain ⟨hr, hrest⟩ := decode_item h (show p + 6 ≤ st by omega)
    have hnext := fun pcl allocs => readLoop_run n (p + 6) pcl allocs hrest (by omega) (by omega)
    rw [pclAllocReadLoop, hr]
    dsimp only
    rw [List.take_succ_cons, List.foldl_cons]
    by_cases hzero : r.position = 0
    · have hstep : readStep pcl r = pcl := if_pos hzero
      rw [if_pos hzero, hstep]
      exact hnext _ _
    · have hstep : readStep pcl r = match pclLookupPosition pcl r.position with
        | none => pclSetAt (pclInsertPosition pcl (chunkOf r.position [])) r.position r.segment
        | some _ => pclSetAt pcl r.position r.segment := if_neg hzero
      rw [if_neg hzero, hstep]
      rcases hlookup : pclLookupPosition pcl r.position with _ | chunk
      · dsimp only
        unfold pclAllocChunk
        split
        · exact ⟨false, pcl, allocs + 1, rfl, fun hok => (by cases hok)⟩
        · rename_i chunk hchunk
          split at hchunk
          · cases hchunk
            exact hnext _ _
          · cases hchunk
      · exact hnext _ _

/-- STEP: the call chunk with one more segment. -/
theorem callStep_exact (h : CallExact done pcl.clChunks) (hcount : pcl.clCount = pcl.clChunks.length) :
    CallExact (done ++ [r]) (callStep pcl r).clChunks ∧
      (callStep pcl r).clCount = (callStep pcl r).clChunks.length := by
  unfold CallExact at h ⊢
  unfold callStep
  rw [segmentsAt_append]
  by_cases hzero : r.position = 0
  · have hself : segmentsAt [r] 0 = [r.segment] := by
      rw [← hzero]
      exact segmentsAt_self r
    rw [if_neg (not_not.mpr hzero), hself, if_neg (by simp)]
    by_cases hempty : segmentsAt done 0 = []
    · rw [if_pos hempty] at h
      rw [h, hempty]
      refine ⟨?_, ?_⟩
      · simp [pclInsertPosition, h]
      · simp [pclInsertPosition, h, hcount]
    · rw [if_neg hempty] at h
      rw [h]
      refine ⟨by simp, ?_⟩
      rw [hcount, h]
      rfl
  · rw [if_pos hzero, segmentsAt_other hzero, append_nil]
    exact ⟨h, hcount⟩

/-- A segment is put into the chunk at its position, which may be a new one. -/
theorem read_set {c : Chunk} (hsorted : chunks.Pairwise fun c d => c.chPosition < d.chPosition)
    (hchunk : ∀ c ∈ chunks, c.chPosition ≠ 0 ∧
      (c.chPosition ≠ r.position → segmentsAt done c.chPosition ≠ []) ∧
      c = chunkOf c.chPosition (segmentsAt done c.chPosition))
    (hall : ∀ r' ∈ done, r'.position ≠ 0 → ∃ c ∈ chunks, c.chPosition = r'.position)
    (hc : c ∈ chunks) (hpos : c.chPosition = r.position) :
    ReadExact (done ++ [r]) (chunks.map fun chunk =>
      if chunk.chPosition = r.position then pclSetReadSegment chunk r.segment else chunk) := by
  have hkeep : ∀ chunk : Chunk, (if chunk.chPosition = r.position then
      pclSetReadSegment chunk r.segment else chunk).chPosition = chunk.chPosition := by
    intro chunk
    split <;> rfl
  refine ⟨?_, ?_, ?_⟩
  · rw [List.pairwise_map]
    refine hsorted.imp ?_
    intro a b hab
    rw [hkeep, hkeep]
    exact hab
  · intro c' hc'
    obtain ⟨chunk, hin, rfl⟩ := List.mem_map.mp hc'
    obtain ⟨hne, hsegs, heq⟩ := hchunk chunk hin
    rw [hkeep, segmentsAt_append]
    by_cases hp : chunk.chPosition = r.position
    · have hself : segmentsAt [r] chunk.chPosition = [r.segment] := by
        rw [hp]
        exact segmentsAt_self r
      rw [if_pos hp, hself, ← set_chunkOf, ← heq]
      exact ⟨hne, by simp, rfl⟩
    · rw [if_neg hp, segmentsAt_other (Ne.symm hp), append_nil]
      exact ⟨hne, hsegs hp, heq⟩
  · intro r' hr' hne
    rcases List.mem_append.mp hr' with hr' | hr'
    · obtain ⟨c, hc, heq⟩ := hall r' hr' hne
      exact ⟨_, List.mem_map_of_mem hc, (hkeep c).trans heq⟩
    · rw [mem_singleton.mp hr']
      exact ⟨_, List.mem_map_of_mem hc, (hkeep c).trans hpos⟩

/-- STEP: the other chunks with one more segment. -/
theorem readStep_exact (h : ReadExact done pcl.clChunks) (hcount : pcl.clCount = pcl.clChunks.length) :
    ReadExact (done ++ [r]) (readStep pcl r).clChunks ∧
      (readStep pcl r).clCount = (readStep pcl r).clChunks.length := by
  unfold readStep
  split_ifs with hzero
  · refine ⟨⟨h.sorted, fun c hc => ?_, fun r' hr' hne => ?_⟩, hcount⟩
    · obtain ⟨hne, hsegs, heq⟩ := h.chunk c hc
      rw [segmentsAt_append, @segmentsAt_other _ r (by rw [hzero]; exact Ne.symm hne), append_nil]
      exact ⟨hne, hsegs, heq⟩
    · rcases List.mem_append.mp hr' with hr' | hr'
      · exact h.all r' hr' hne
      · rw [mem_singleton.mp hr'] at hne
        exact absurd hzero hne
  · rcases hlookup : pclLookupPosition pcl r.position with _ | c
    · -- a new chunk
      have hnew : ∀ c ∈ pcl.clChunks, c.chPosition ≠ r.position := by
        intro c hc
        simpa using List.find?_eq_none.mp hlookup c hc
      have hempty : segmentsAt done r.position = [] := by
        unfold segmentsAt
        rw [List.map_eq_nil_iff, List.filter_eq_nil_iff]
        intro r' hr' heq
        have heq : r'.position = r.position := by simpa using heq
        obtain ⟨c, hc, hpos⟩ := h.all r' hr' (by rw [heq]; exact hzero)
        exact hnew c hc (hpos.trans heq)
      have hmem : ∀ {c : Chunk}, c ∈ insertByKey Chunk.chPosition (chunkOf r.position []) pcl.clChunks ↔
          c = chunkOf r.position [] ∨ c ∈ pcl.clChunks := mem_insertByKey
      refine ⟨read_set (insertByKey_strict h.sorted hnew) (fun c hc => ?_) (fun r' hr' hne => ?_)
        (hmem.mpr (.inl rfl)) rfl, ?_⟩
      · rcases hmem.mp hc with rfl | hc
        · refine ⟨hzero, fun hne => absurd rfl hne, ?_⟩
          change chunkOf r.position [] = chunkOf r.position (segmentsAt done r.position)
          rw [hempty]
        · obtain ⟨hne, hsegs, heq⟩ := h.chunk c hc
          exact ⟨hne, fun _ => hsegs, heq⟩
      · obtain ⟨c, hc, hpos⟩ := h.all r' hr' hne
        exact ⟨c, hmem.mpr (.inr hc), hpos⟩
      · have hlen := (insertByKey_perm Chunk.chPosition (chunkOf r.position []) pcl.clChunks).length_eq
        unfold pclSetAt
        rw [length_map]
        change pcl.clCount + 1 = (insertByKey _ _ _).length
        rw [hlen, hcount, length_cons]
    · refine ⟨read_set h.sorted (fun c hc => ?_) h.all (List.mem_of_find?_eq_some hlookup)
        (by simpa using List.find?_some hlookup), ?_⟩
      · obtain ⟨hne, hsegs, heq⟩ := h.chunk c hc
        exact ⟨hne, fun _ => hsegs, heq⟩
      · unfold pclSetAt
        rw [length_map]
        exact hcount

/-- RUN: what a pass makes of the first segments. -/
theorem fold_exact (reads : List ReadItem) :
    ∀ (done : List ReadItem) (call read : Pcl), CallExact done call.clChunks →
      call.clCount = call.clChunks.length → ReadExact done read.clChunks →
        read.clCount = read.clChunks.length →
      CallExact (done ++ reads) (reads.foldl callStep call).clChunks ∧
        (reads.foldl callStep call).clCount = (reads.foldl callStep call).clChunks.length ∧
        ReadExact (done ++ reads) (reads.foldl readStep read).clChunks ∧
        (reads.foldl readStep read).clCount = (reads.foldl readStep read).clChunks.length := by
  induction reads with
  | nil =>
    intro done call read hcall hcallcount hread hreadcount
    rw [append_nil]
    exact ⟨hcall, hcallcount, hread, hreadcount⟩
  | cons r reads ih =>
    intro done call read hcall hcallcount hread hreadcount
    obtain ⟨hcall, hcallcount⟩ := callStep_exact hcall hcallcount
    obtain ⟨hread, hreadcount⟩ := readStep_exact hread hreadcount
    have hih := ih (done ++ [r]) _ _ hcall hcallcount hread hreadcount
    rw [append_assoc, List.singleton_append] at hih
    exact hih

/-- The numbers of segments at position zero and elsewhere. -/
def callCount (reads : List ReadItem) : ℕ := reads.countP fun r => r.position = 0

def readCount (reads : List ReadItem) : ℕ := reads.countP fun r => r.position ≠ 0

theorem counts_length (reads : List ReadItem) : callCount reads + readCount reads = reads.length := by
  unfold callCount readCount
  rw [List.length_eq_countP_add_countP (fun r : ReadItem => decide (r.position = 0))]
  congr 2
  funext r
  simp

theorem segmentsAt_zero : segmentsAt reads 0 = [] ↔ callCount reads = 0 := by
  rw [← List.length_eq_zero_iff, length_segmentsAt]
  rfl

/-- An element of which all of the first are of a kind is of this kind. -/
theorem head_of_count {f : ReadItem → Bool} (h : (reads.take n).countP f = n) (hn : n ≠ 0) :
    ∃ r l, reads = r :: l ∧ f r = true := by
  rcases reads with _ | ⟨r, l⟩
  · exact absurd h.symm (by simpa using hn)
  · refine ⟨r, l, rfl, ?_⟩
    have hlen : ((r :: l).take n).countP f = ((r :: l).take n).length := by
      have hle := List.countP_le_length (p := f) (l := (r :: l).take n)
      rw [List.length_take] at hle ⊢
      omega
    refine List.countP_eq_length.mp hlen r ?_
    obtain ⟨m, rfl⟩ := Nat.exists_eq_succ_of_ne_zero hn
    simp

/-- The passes that go as far as the counts find everything just when one of the counts is zero. -/
theorem exact_iff {call read : List Chunk} (hcall : CallExact (reads.take (callCount reads)) call)
    (hread : ReadExact (reads.take (readCount reads)) read) :
    (CallExact reads call ∧ ReadExact reads read) ↔ callCount reads = 0 ∨ readCount reads = 0 := by
  have hlen := counts_length reads
  constructor
  · rintro ⟨hcall', hread'⟩
    by_contra hboth
    obtain ⟨hz, hn⟩ := not_or.mp hboth
    -- the first segment would be both at position zero and elsewhere
    have hfirst : (reads.take (callCount reads)).countP (fun r => r.position = 0) = callCount reads := by
      have hsegs : segmentsAt (reads.take (callCount reads)) 0 = segmentsAt reads 0 := by
        unfold CallExact at hcall hcall'
        have hne : segmentsAt reads 0 ≠ [] := fun h => hz (segmentsAt_zero.mp h)
        rw [if_neg hne] at hcall'
        rw [hcall'] at hcall
        split at hcall
        · cases hcall
        · have heq := (List.cons.inj hcall).1
          exact (congrArg Chunk.chSegments heq).symm
      rw [← length_segmentsAt, hsegs, length_segmentsAt]
      rfl
    have hother : (reads.take (readCount reads)).countP (fun r => r.position ≠ 0) = readCount reads := by
      have hdrop : (reads.drop (readCount reads)).countP (fun r => r.position ≠ 0) = 0 := by
        rw [List.countP_eq_zero]
        intro r hr hne
        have hne : r.position ≠ 0 := by simpa using hne
        obtain ⟨c, hc, hpos⟩ := hread'.all r (List.mem_of_mem_drop hr) hne
        have hsame := congrArg Chunk.chSegments
          ((hread.chunk c hc).2.2.symm.trans (hread'.chunk c hc).2.2)
        change segmentsAt _ _ = segmentsAt _ _ at hsame
        have hsplit := segmentsAt_append (reads.take (readCount reads)) (reads.drop (readCount reads))
          c.chPosition
        rw [List.take_append_drop, ← hsame] at hsplit
        have hnil := List.self_eq_append_right.mp hsplit
        have hmem : r.segment ∈ segmentsAt (reads.drop (readCount reads)) c.chPosition :=
          List.mem_map_of_mem (List.mem_filter.mpr ⟨hr, by simp [hpos]⟩)
        rw [hnil] at hmem
        cases hmem
      have hsum : (reads.take (readCount reads) ++ reads.drop (readCount reads)).countP
          (fun r => r.position ≠ 0) = _ := List.countP_append
      rw [List.take_append_drop, hdrop, Nat.add_zero] at hsum
      exact hsum.symm
    obtain ⟨r, l, hr, hzero⟩ := head_of_count hfirst hz
    obtain ⟨r', l', hr', hne⟩ := head_of_count hother hn
    simp_all
  · rintro (hz | hn)
    · have hall : readCount reads = reads.length := by omega
      rw [hall, List.take_length] at hread
      refine ⟨?_, hread⟩
      unfold CallExact at hcall ⊢
      rw [hz] at hcall
      rw [if_pos (segmentsAt_zero.mpr hz)]
      exact hcall
    · have hall : callCount reads = reads.length := by omega
      rw [hall, List.take_length] at hcall
      refine ⟨hcall, ?_⟩
      rw [hn, List.take_zero] at hread
      have hnil : read = [] := by
        rcases read with _ | ⟨c, cs⟩
        · rfl
        · exact absurd rfl (hread.chunk c mem_cons_self).2.1
      rw [hnil]
      refine ⟨.nil, fun c hc => (by cases hc), fun r hr hne => ?_⟩
      exact absurd hne (by simpa using List.countP_eq_zero.mp hn r hr)

/-- The context after a count. -/
def counted (rctxt : RecvCtxt) (st calls others : ℕ) : RecvCtxt :=
  { rctxt with
    rcStream := st
    rcCallPcl := { rctxt.rcCallPcl with clCount := rctxt.rcCallPcl.clCount + calls }
    rcReadPcl := { rctxt.rcReadPcl with clCount := rctxt.rcReadPcl.clCount + others } }

/-- RUN: the segments are counted up to the end of the list. -/
theorem count_run (hlt : ∀ w ∈ buf, w < 2 ^ 32) : ∀ (fuel : ℕ) (rctxt : RecvCtxt) (p : ℕ),
    rctxt.rcStream = p + 1 → p + 1 ≤ buf.length → buf.length < p + fuel →
      ∃ ok rctxt', xdrCountReadSegments buf fuel rctxt p = some (ok, rctxt') ∧
        (ok = true → ∃ reads rest, (∀ r ∈ reads, r.Fits) ∧
          buf.drop p = reads.flatMap ReadItem.words ++ 0 :: rest ∧
          p + 6 * reads.length + 1 ≤ buf.length ∧
          rctxt' = counted rctxt (p + 6 * reads.length + 1) (callCount reads) (readCount reads))
  | 0, _, p, _, _, hfuel => absurd hfuel (by omega)
  | fuel + 1, rctxt, p, hst, hp, hfuel => by
    obtain ⟨item, rest, hitem, -⟩ := exists_word buf p (by omega)
    unfold xdrCountReadSegments
    rw [deref_drop hitem (by omega)]
    dsimp only
    by_cases hzero : item = 0
    · rw [if_pos hzero]
      refine ⟨true, rctxt, rfl, fun _ => ⟨[], rest, fun r hr => (by cases hr), ?_, hp, ?_⟩⟩
      · rw [hitem, hzero]
        rfl
      · change rctxt = { rctxt with rcStream := p + 1 }
        rw [← hst]
    · rw [if_neg hzero]
      rcases hfive : inlineDecode buf rctxt.rcStream 5 with _ | st₁
      · exact ⟨false, _, rfl, fun h => (by cases h)⟩
      obtain ⟨rfl, hst₁⟩ := inlineDecode_some hfive
      obtain ⟨position, rest₁, hposition, -⟩ := exists_word buf (p + 1) (by omega)
      obtain ⟨segment, hfits, rest₂, hsegment⟩ :=
        exists_segment hlt (show p + 2 + 4 ≤ buf.length by omega)
      have hdecode : decodeReadSegment buf (rctxt.rcStream + 5) rctxt.rcStream =
          some (position, segment) := by
        rw [hst]
        unfold decodeReadSegment
        rw [deref_drop hposition (by omega), Option.bind_eq_bind, Option.bind_some,
          decodeRdmaSegment_words hsegment (by omega)]
        rfl
      dsimp only
      rw [hdecode]
      dsimp only
      split_ifs with hbad
      · exact ⟨false, _, rfl, fun h => (by cases h)⟩
      rcases hone : inlineDecode buf (rctxt.rcStream + 5) 1 with _ | st₂
      · exact ⟨false, _, rfl, fun h => (by cases h)⟩
      obtain ⟨rfl, hst₂⟩ := inlineDecode_some hone
      have hwords : buf.drop p = item :: position :: segment.words ++ rest₂ := by
        rw [hitem, ← drop_succ hitem, hposition, ← drop_succ hposition, hsegment]
        rfl
      have hr : (⟨item, position, segment⟩ : ReadItem).Fits := by
        refine ⟨hzero, ?_, hfits⟩
        by_contra hmod
        exact hbad ⟨fun h => hmod (by simp [h]), hmod⟩
      obtain ⟨ok, rctxt', hrun, hok⟩ := count_run hlt fuel
        { countSegment rctxt position with rcStream := rctxt.rcStream + 5 + 1 }
        (rctxt.rcStream + 5) rfl (by omega) (by omega)
      refine ⟨ok, rctxt', hrun, fun h => ?_⟩
      obtain ⟨reads, rest₃, hreads, hdrop, hle, hsame⟩ := hok h
      refine ⟨⟨item, position, segment⟩ :: reads, rest₃, ?_, ?_, ?_, ?_⟩
      · exact forall_mem_cons.mpr ⟨hr, hreads⟩
      · have hnext := drop_append hwords
        have hlen : (item :: position :: segment.words).length = 6 := rfl
        rw [hlen] at hnext
        have hpos : rctxt.rcStream + 5 = p + 6 := by omega
        rw [hpos, hnext] at hdrop
        rw [hwords, hdrop, flatMap_cons, append_assoc]
        rfl
      · simp only [length_cons]
        omega
      · have hend : rctxt.rcStream + 5 + 6 * reads.length + 1 = p + 6 * (reads.length + 1) + 1 := by omega
        rw [hsame, length_cons, hend]
        unfold counted countSegment callCount readCount
        by_cases hpos : position = 0
        · simp [hpos, Nat.add_assoc, Nat.add_comm]
        · simp [hpos, Nat.add_assoc, Nat.add_comm]

end Passes

/-! ### The Write list and the Reply chunk -/

/-- A chunk as it was checked: as many words as the count says, in 32 bits. -/
structure RawChunk where
  present : ℕ
  segcount : ℕ
  body : List ℕ

def RawChunk.words (c : RawChunk) : List ℕ := c.present :: c.segcount :: c.body

structure RawChunk.Fits (c : RawChunk) : Prop where
  present : c.present ≠ 0
  length : c.body.length = c.segcount * 4 % 2 ^ 32
  lt : ∀ w ∈ c.body, w < 2 ^ 32

def WriteItem.raw (c : WriteItem) : RawChunk :=
  ⟨c.present, c.segments.length, c.segments.flatMap Segment.words⟩

section Writes

variable {kmalloc : ℕ → ℕ → Bool} {buf rest : List ℕ} {st : ℕ}

/-- Four words each are those of segments. -/
theorem exists_segments : ∀ (k : ℕ) (body : List ℕ), body.length = 4 * k → (∀ w ∈ body, w < 2 ^ 32) →
    ∃ segs : List Segment, segs.length = k ∧ (∀ s ∈ segs, s.Fits) ∧ body = segs.flatMap Segment.words
  | 0, body, hlen, _ => by
    rw [Nat.mul_zero] at hlen
    rw [List.length_eq_zero_iff.mp hlen]
    exact ⟨[], rfl, fun s hs => (by cases hs), rfl⟩
  | k + 1, body, hlen, hlt => by
    obtain ⟨s, hfits, rest, hdrop⟩ := exists_segment hlt (show 0 + 4 ≤ body.length by omega)
    rw [List.drop_zero] at hdrop
    rw [hdrop] at hlen hlt
    obtain ⟨segs, hsegs, hall, hrest⟩ := exists_segments k rest
      (by rw [length_append, segment_length] at hlen; omega)
      (fun w hw => hlt w (List.mem_append_right _ hw))
    refine ⟨s :: segs, by rw [length_cons, hsegs], forall_mem_cons.mpr ⟨hfits, hall⟩, ?_⟩
    rw [hdrop, hrest]
    rfl

/-- RUN: the inner loop collects the segments. -/
theorem writeSegments_run : ∀ (segs : List Segment) (p : ℕ) (done : List Segment),
    buf.drop p = segs.flatMap Segment.words ++ rest → p + 4 * segs.length ≤ st →
      pclWriteSegments buf st segs.length p (chunkOf 0 done) =
        some (p + 4 * segs.length, chunkOf 0 (done ++ segs))
  | [], p, done, _, _ => by simp [pclWriteSegments]
  | s :: segs, p, done, h, hst => by
    rw [length_cons] at hst
    rw [flatMap_cons, append_assoc] at h
    rw [length_cons, pclWriteSegments, decodeRdmaSegment_words h (by omega)]
    dsimp only
    have hrest := drop_append h
    rw [segment_length] at hrest
    rw [set_chunkOf, writeSegments_run segs (p + 4) (done ++ [s]) hrest (by omega), append_assoc]
    congr 2
    omega

theorem raws_words_length (c : RawChunk) : c.words.length = 2 + c.body.length := by
  unfold RawChunk.words
  rw [length_cons, length_cons]
  omega

/-- RUN: when the chunks are collected, each had as many segments as its count says. -/
theorem allocWrite_run (hkmalloc : ∀ n size, 2 ^ 32 ≤ size → kmalloc n size = false) :
    ∀ (raws : List RawChunk) (p : ℕ) (pcl : Pcl) (allocs : ℕ), (∀ c ∈ raws, c.Fits) →
      buf.drop p = raws.flatMap RawChunk.words ++ rest →
        p + (raws.flatMap RawChunk.words).length ≤ st → ∃ ok pcl' allocs',
            pclAllocWrite kmalloc buf st raws.length p pcl allocs = some (ok, pcl', allocs') ∧
              (ok = true → ∃ cs : List WriteItem, (∀ c ∈ cs, c.Fits) ∧ raws = cs.map WriteItem.raw ∧
                pcl' = ⟨pcl.clCount, pcl.clChunks ++ cs.map fun c => chunkOf 0 c.segments⟩)
  | [], p, pcl, allocs, _, _, _ => by
    refine ⟨true, pcl, allocs, rfl, fun _ => ⟨[], fun c hc => (by cases hc), rfl, ?_⟩⟩
    rw [map_nil, append_nil]
  | c :: raws, p, pcl, allocs, hfits, h, hst => by
    obtain ⟨hc, hraws⟩ := forall_mem_cons.mp hfits
    rw [flatMap_cons, append_assoc] at h
    rw [flatMap_cons, length_append, raws_words_length] at hst
    have h₁ := drop_succ h
    have h₂ := drop_succ h₁
    rw [length_cons, pclAllocWrite, deref_drop h₁ (by omega)]
    dsimp only
    unfold pclAllocChunk
    split
    · exact ⟨false, pcl, allocs + 1, rfl, fun hok => (by cases hok)⟩
    · rename_i chunk hchunk
      split at hchunk
      · rename_i hgot
        cases hchunk
        -- so large an allocation would have failed
        have hsmall : c.segcount < 2 ^ 28 := by
          by_contra hbig
          rw [hkmalloc allocs _ (by omega)] at hgot
          cases hgot
        have hlen : c.body.length = 4 * c.segcount := by
          rw [hc.length, Nat.mod_eq_of_lt (by omega)]
          omega
        obtain ⟨segs, hsegs, hall, hbody⟩ := exists_segments c.segcount c.body hlen hc.lt
        have h₃ : buf.drop (p + 2) = segs.flatMap Segment.words ++
            (raws.flatMap RawChunk.words ++ rest) := by
          rw [← hbody]
          exact h₂
        have hrun := @writeSegments_run _ _ st segs (p + 2) [] h₃ (by omega)
        rw [hsegs, chunkOf_nil] at hrun
        rw [hrun]
        have hnext := drop_append h
        rw [raws_words_length, hlen] at hnext
        rw [show p + 2 + 4 * c.segcount = p + (2 + 4 * c.segcount) by omega]
        obtain ⟨ok, pcl', allocs', hrest, hok⟩ := allocWrite_run hkmalloc raws _
          { pcl with clChunks := pcl.clChunks ++ [chunkOf 0 segs] } (allocs + 1) hraws hnext (by omega)
        refine ⟨ok, pcl', allocs', hrest, fun h => ?_⟩
        obtain ⟨cs, hcs, hraw, hpcl⟩ := hok h
        refine ⟨⟨c.present, segs⟩ :: cs, forall_mem_cons.mpr ⟨⟨hc.present, hall⟩, hcs⟩, ?_, ?_⟩
        · rw [List.map_cons, ← hraw]
          unfold WriteItem.raw
          rw [hsegs, ← hbody]
        · rw [hpcl, append_assoc]
          rfl
      · cases hchunk

/-- A chunk is checked. -/
theorem checkWriteChunk_spec (hlt : ∀ w ∈ buf, w < 2 ^ 32) (rctxt : RecvCtxt) :
    ∃ ok rctxt', xdrCheckWriteChunk buf rctxt = some (ok, rctxt') ∧
      (ok = true → ∃ segcount body rest, buf.drop rctxt.rcStream = segcount :: (body ++ rest) ∧
        body.length = segcount * 4 % 2 ^ 32 ∧ (∀ w ∈ body, w < 2 ^ 32) ∧
        rctxt.rcStream + 1 + body.length ≤ buf.length ∧
        rctxt' = { rctxt with rcStream := rctxt.rcStream + 1 + body.length }) := by
  unfold xdrCheckWriteChunk
  rcases hone : inlineDecode buf rctxt.rcStream 1 with _ | st
  · exact ⟨false, _, rfl, fun h => (by cases h)⟩
  obtain ⟨rfl, hst⟩ := inlineDecode_some hone
  obtain ⟨segcount, rest, hdrop, -⟩ := exists_word buf rctxt.rcStream (by omega)
  dsimp only
  rw [deref_drop hdrop (by omega)]
  dsimp only
  rcases hbody : inlineDecode buf (rctxt.rcStream + 1) (segcount * 4 % 2 ^ 32) with _ | st₂
  · exact ⟨false, _, rfl, fun h => (by cases h)⟩
  obtain ⟨rfl, hst₂⟩ := inlineDecode_some hbody
  have hrest := drop_succ hdrop
  have hlen : (rest.take (segcount * 4 % 2 ^ 32)).length = segcount * 4 % 2 ^ 32 := by
    rw [List.length_take, ← hrest, List.length_drop]
    omega
  refine ⟨true, _, rfl, fun _ => ⟨segcount, rest.take (segcount * 4 % 2 ^ 32),
    rest.drop (segcount * 4 % 2 ^ 32), ?_, hlen, fun w hw => ?_, ?_, ?_⟩⟩
  · rw [List.take_append_drop]
    exact hdrop
  · refine hlt w ((List.drop_suffix _ buf).subset (?_ : w ∈ buf.drop (rctxt.rcStream + 1)))
    rw [hrest]
    exact List.mem_of_mem_take hw
  · rw [hlen]
    exact hst₂
  · rw [hlen]

/-- RUN: the chunks are counted up to the end of the list. -/
theorem countWrite_run (hlt : ∀ w ∈ buf, w < 2 ^ 32) : ∀ (fuel : ℕ) (rctxt : RecvCtxt) (p : ℕ),
    rctxt.rcStream = p + 1 → p + 1 ≤ buf.length → buf.length < p + fuel →
      ∃ ok rctxt', xdrCountWriteChunks buf fuel rctxt p = some (ok, rctxt') ∧
        (ok = true → ∃ (raws : List RawChunk) (rest : List ℕ), (∀ c ∈ raws, c.Fits) ∧
          buf.drop p = raws.flatMap RawChunk.words ++ 0 :: rest ∧
          p + (raws.flatMap RawChunk.words).length + 1 ≤ buf.length ∧ rctxt' = { rctxt with
            rcStream := p + (raws.flatMap RawChunk.words).length + 1
            rcWritePcl := ⟨rctxt.rcWritePcl.clCount + raws.length, rctxt.rcWritePcl.clChunks⟩ })
  | 0, _, p, _, _, hfuel => absurd hfuel (by omega)
  | fuel + 1, rctxt, p, hst, hp, hfuel => by
    obtain ⟨item, rest, hitem, -⟩ := exists_word buf p (by omega)
    unfold xdrCountWriteChunks
    rw [deref_drop hitem (by omega)]
    dsimp only
    by_cases hzero : item = 0
    · rw [if_pos hzero]
      refine ⟨true, rctxt, rfl, fun _ => ⟨[], rest, fun c hc => (by cases hc), ?_, hp, ?_⟩⟩
      · rw [hitem, hzero]
        rfl
      · change rctxt = { rctxt with rcStream := p + 1 }
        rw [← hst]
    · rw [if_neg hzero]
      obtain ⟨ok, ctxt, hcheck, hok⟩ := checkWriteChunk_spec hlt rctxt
      rw [hcheck]
      cases ok with
      | false => exact ⟨false, _, rfl, fun h => (by cases h)⟩
      | true =>
      obtain ⟨segcount, body, rest₁, hdrop, hlen, hwords, hle, rfl⟩ := hok rfl
      dsimp only
      rcases hone : inlineDecode buf (rctxt.rcStream + 1 + body.length) 1 with _ | st₂
      · exact ⟨false, _, rfl, fun h => (by cases h)⟩
      obtain ⟨rfl, hst₂⟩ := inlineDecode_some hone
      dsimp only
      obtain ⟨ok, rctxt', hrun, hok⟩ := countWrite_run hlt fuel
        { rctxt with
          rcStream := rctxt.rcStream + 1 + body.length + 1
          rcWritePcl := { rctxt.rcWritePcl with clCount := rctxt.rcWritePcl.clCount + 1 } }
        (rctxt.rcStream + 1 + body.length) rfl (by omega) (by omega)
      refine ⟨ok, rctxt', hrun, fun h => ?_⟩
      obtain ⟨raws, rest₂, hraws, hnext, hend, hsame⟩ := hok h
      have hfirst : buf.drop p = (⟨item, segcount, body⟩ : RawChunk).words ++ rest₁ := by
        rw [hitem, ← drop_succ hitem, ← hst, hdrop]
        rfl
      have hbehind := drop_append hfirst
      rw [raws_words_length] at hbehind
      dsimp only at hbehind
      have hpos : rctxt.rcStream + 1 + body.length = p + (2 + body.length) := by omega
      rw [hpos, hbehind] at hnext
      have htotal : ((⟨item, segcount, body⟩ :: raws : List RawChunk).flatMap RawChunk.words).length =
          2 + body.length + (raws.flatMap RawChunk.words).length := by
        rw [flatMap_cons, length_append, raws_words_length]
      refine ⟨⟨item, segcount, body⟩ :: raws, rest₂,
        forall_mem_cons.mpr ⟨⟨hzero, hlen, hwords⟩, hraws⟩, ?_, ?_, ?_⟩
      · rw [hfirst, hnext, flatMap_cons, append_assoc]
      · rw [htotal]
        omega
      · rw [hsame, htotal, hpos, length_cons]
        simp only [Nat.add_assoc, Nat.add_comm 1]

end Writes

/-! ### The whole header -/

section Header

variable {kmalloc : ℕ → ℕ → Bool} {buf : List ℕ}

/-- The Read list is checked. -/
theorem checkReadList_spec (hlt : ∀ w ∈ buf, w < 2 ^ 32) (rctxt : RecvCtxt)
    (hcall : rctxt.rcCallPcl.clChunks = []) (hread : rctxt.rcReadPcl.clChunks = []) :
    ∃ ok rctxt', xdrCheckReadList kmalloc buf rctxt = some (ok, rctxt') ∧
      (ok = true → ∃ (reads : List ReadItem) (rest : List ℕ), (∀ r ∈ reads, r.Fits) ∧
        buf.drop rctxt.rcStream = (reads.flatMap ReadItem.words ++ [0]) ++ rest ∧
        ∃ (call read : Pcl) (allocs : ℕ), CallExact (reads.take (callCount reads)) call.clChunks ∧
          call.clCount = call.clChunks.length ∧
          ReadExact (reads.take (readCount reads)) read.clChunks ∧
          read.clCount = read.clChunks.length ∧ rctxt' = { rctxt with
            rcStream := rctxt.rcStream + (reads.flatMap ReadItem.words ++ [0]).length
            rcCallPcl := call
            rcReadPcl := read
            allocs := allocs }) := by
  unfold xdrCheckReadList
  dsimp only
  rcases hone : inlineDecode buf rctxt.rcStream 1 with _ | st
  · exact ⟨false, _, rfl, fun h => (by cases h)⟩
  obtain ⟨rfl, hst⟩ := inlineDecode_some hone
  dsimp only
  obtain ⟨ok, ctxt, hrun, hok⟩ := count_run hlt (buf.length + 1)
    { rctxt with
      rcStream := rctxt.rcStream + 1
      rcCallPcl := { rctxt.rcCallPcl with clCount := 0 }
      rcReadPcl := { rctxt.rcReadPcl with clCount := 0 } } rctxt.rcStream rfl hst (by omega)
  rw [hrun]
  cases ok with
  | false => exact ⟨false, _, rfl, fun h => (by cases h)⟩
  | true =>
  obtain ⟨reads, rest, hreads, hdrop, hle, rfl⟩ := hok rfl
  have hlen := counts_length reads
  dsimp only [counted]
  rw [Nat.zero_add, Nat.zero_add, hcall, hread]
  unfold pclAllocCall pclAllocRead
  obtain ⟨ok, call, allocs₁, hcallrun, hcallok⟩ := @callLoop_run kmalloc buf (0 :: rest)
    (rctxt.rcStream + 6 * reads.length + 1) (callCount reads) (callCount reads) rctxt.rcStream ⟨0, []⟩
    rctxt.allocs reads hdrop (by omega) (by omega)
  rw [hcallrun]
  cases ok with
  | false => exact ⟨false, _, rfl, fun h => (by cases h)⟩
  | true =>
  dsimp only
  obtain ⟨ok, read, allocs₂, hreadrun, hreadok⟩ := @readLoop_run kmalloc buf (0 :: rest)
    (rctxt.rcStream + 6 * reads.length + 1) (readCount reads) (readCount reads) rctxt.rcStream ⟨0, []⟩
    allocs₁ reads hdrop (by omega) (by omega)
  rw [hreadrun]
  refine ⟨ok, _, rfl, fun h => ⟨reads, rest, hreads, by simpa using hdrop, call, read, allocs₂, ?_⟩⟩
  have hnone : CallExact [] [] := by simp [CallExact, segmentsAt]
  have hnone' : ReadExact [] [] :=
    ⟨.nil, fun c hc => (by cases hc), fun r hr => (by cases hr)⟩
  obtain ⟨hcallexact, hcallcount, -, -⟩ := fold_exact (reads.take (callCount reads)) [] ⟨0, []⟩ ⟨0, []⟩
    hnone rfl hnone' rfl
  obtain ⟨-, -, hreadexact, hreadcount⟩ := fold_exact (reads.take (readCount reads)) [] ⟨0, []⟩ ⟨0, []⟩
    hnone rfl hnone' rfl
  rw [← hcallok rfl] at hcallexact hcallcount
  rw [← hreadok h] at hreadexact hreadcount
  refine ⟨hcallexact, hcallcount, hreadexact, hreadcount, ?_⟩
  rw [length_append, reads_words_length]
  rfl

section
variable (hkmalloc : ∀ n size, 2 ^ 32 ≤ size → kmalloc n size = false) (hlt : ∀ w ∈ buf, w < 2 ^ 32)
  (rctxt : RecvCtxt)
include hkmalloc hlt rctxt

/-- The Write list is checked. -/
theorem checkWriteList_spec (hwrite : rctxt.rcWritePcl.clChunks = []) :
    ∃ ok rctxt', xdrCheckWriteList kmalloc buf rctxt = some (ok, rctxt') ∧
      (ok = true → ∃ (writes : List WriteItem) (rest : List ℕ), (∀ c ∈ writes, c.Fits) ∧
        buf.drop rctxt.rcStream = (writes.flatMap WriteItem.words ++ [0]) ++ rest ∧
        ∃ allocs, rctxt' = { rctxt with
          rcStream := rctxt.rcStream + (writes.flatMap WriteItem.words ++ [0]).length
          rcWritePcl := ⟨writes.length, writes.map fun c => chunkOf 0 c.segments⟩
          rcCurResultPayload := (writes.map fun c => chunkOf 0 c.segments).head?
          allocs := allocs }) := by
  unfold xdrCheckWriteList
  dsimp only
  rcases hone : inlineDecode buf rctxt.rcStream 1 with _ | st
  · exact ⟨false, _, rfl, fun h => (by cases h)⟩
  obtain ⟨rfl, hst⟩ := inlineDecode_some hone
  dsimp only
  obtain ⟨ok, ctxt, hrun, hok⟩ := countWrite_run hlt (buf.length + 1)
    { rctxt with
      rcStream := rctxt.rcStream + 1
      rcWritePcl := { rctxt.rcWritePcl with clCount := 0 } } rctxt.rcStream rfl hst (by omega)
  rw [hrun]
  cases ok with
  | false => exact ⟨false, _, rfl, fun h => (by cases h)⟩
  | true =>
  obtain ⟨raws, rest, hraws, hdrop, hle, rfl⟩ := hok rfl
  dsimp only
  rw [Nat.zero_add, hwrite]
  obtain ⟨ok, pcl, allocs, hwriterun, hwriteok⟩ := @allocWrite_run kmalloc buf (0 :: rest)
    (rctxt.rcStream + (raws.flatMap RawChunk.words).length + 1) hkmalloc raws rctxt.rcStream
    ⟨raws.length, []⟩ rctxt.allocs hraws hdrop (by omega)
  rw [hwriterun]
  cases ok with
  | false => exact ⟨false, _, rfl, fun h => (by cases h)⟩
  | true =>
  obtain ⟨writes, hwrites, rfl, rfl⟩ := hwriteok rfl
  have hwords : (writes.map WriteItem.raw).flatMap RawChunk.words = writes.flatMap WriteItem.words := by
    rw [List.flatMap_map]
    rfl
  rw [hwords] at hdrop
  refine ⟨true, _, rfl, fun _ => ⟨writes, rest, hwrites, by simpa using hdrop, allocs, ?_⟩⟩
  rw [hwords, length_append, length_map, List.nil_append]
  rfl

/-- The Reply chunk is checked. -/
theorem checkReplyChunk_spec (hreply : rctxt.rcReplyPcl.clChunks = []) :
    ∃ ok rctxt', xdrCheckReplyChunk kmalloc buf rctxt = some (ok, rctxt') ∧
      (ok = true → ∃ (reply : Option WriteItem) (rest : List ℕ), (∀ c, reply = some c → c.Fits) ∧
        buf.drop rctxt.rcStream = replyWords reply ++ rest ∧ ∃ allocs, rctxt' = { rctxt with
          rcStream := rctxt.rcStream + (replyWords reply).length
          rcReplyPcl := ⟨if reply = none then rctxt.rcReplyPcl.clCount else 1,
            reply.toList.map fun c => chunkOf 0 c.segments⟩
          allocs := allocs }) := by
  unfold xdrCheckReplyChunk
  dsimp only
  rcases hone : inlineDecode buf rctxt.rcStream 1 with _ | st
  · exact ⟨false, _, rfl, fun h => (by cases h)⟩
  obtain ⟨rfl, hst⟩ := inlineDecode_some hone
  obtain ⟨item, rest, hitem, -⟩ := exists_word buf rctxt.rcStream (by omega)
  dsimp only
  rw [deref_drop hitem (by omega)]
  dsimp only
  by_cases hzero : item = 0
  · rw [if_pos hzero]
    refine ⟨true, _, rfl, fun _ => ⟨none, rest, fun c hc => (by cases hc), ?_, rctxt.allocs, ?_⟩⟩
    · rw [hitem, hzero]
      rfl
    · rw [if_pos rfl, Option.toList_none, map_nil, ← hreply]
      rfl
  · rw [if_neg hzero]
    obtain ⟨ok, ctxt, hcheck, hok⟩ := checkWriteChunk_spec hlt
      { rctxt with rcStream := rctxt.rcStream + 1 }
    rw [hcheck]
    cases ok with
    | false => exact ⟨false, _, rfl, fun h => (by cases h)⟩
    | true =>
    obtain ⟨segcount, body, rest₁, hdrop, hlen, hwords, hle, rfl⟩ := hok rfl
    dsimp only at hdrop hle ⊢
    have hfirst : buf.drop rctxt.rcStream =
        [(⟨item, segcount, body⟩ : RawChunk)].flatMap RawChunk.words ++ rest₁ := by
      rw [hitem, ← drop_succ hitem, hdrop]
      simp [RawChunk.words]
    have hraw : ∀ c ∈ [(⟨item, segcount, body⟩ : RawChunk)], c.Fits := by
      intro c hc
      rw [mem_singleton.mp hc]
      exact ⟨hzero, hlen, hwords⟩
    have hone' : ([(⟨item, segcount, body⟩ : RawChunk)].flatMap RawChunk.words).length =
        2 + body.length := by
      rw [List.flatMap_singleton, raws_words_length]
    obtain ⟨ok, pcl, allocs, hrun, hok⟩ := @allocWrite_run kmalloc buf rest₁
      (rctxt.rcStream + 1 + 1 + body.length) hkmalloc [⟨item, segcount, body⟩] rctxt.rcStream
      ⟨1, rctxt.rcReplyPcl.clChunks⟩ rctxt.allocs hraw hfirst (by omega)
    rw [List.length_singleton] at hrun
    rw [hrun]
    refine ⟨ok, _, rfl, fun h => ?_⟩
    obtain ⟨cs, hcs, hraws, rfl⟩ := hok h
    rcases cs with _ | ⟨c, _ | ⟨c', cs⟩⟩
    · cases hraws
    · have hc := (List.cons.inj hraws).1
      refine ⟨some c, rest₁, fun c' hc' => ?_, ?_, allocs, ?_⟩
      · cases hc'
        exact hcs c mem_cons_self
      · rw [hfirst, hc, List.flatMap_singleton]
        rfl
      · have hlength : (replyWords (some c)).length = 2 + body.length := by
          have h := raws_words_length c.raw
          rw [← hc] at h
          rw [hc] at h
          exact h.trans (by rw [← hc])
        rw [hlength, hreply]
        simp [Nat.add_assoc]
    · cases (List.cons.inj hraws).2

end

/-- The segments of words are known when their number is. -/
theorem segments_inj : ∀ {segs segs' : List Segment} {rest rest' : List ℕ},
    (∀ s ∈ segs, s.Fits) → (∀ s ∈ segs', s.Fits) → segs.length = segs'.length →
      segs.flatMap Segment.words ++ rest = segs'.flatMap Segment.words ++ rest' →
        segs = segs' ∧ rest = rest'
  | [], [], _, _, _, _, _, h => ⟨rfl, h⟩
  | [], _ :: _, _, _, _, _, hlen, _ => by cases hlen
  | _ :: _, [], _, _, _, _, hlen, _ => by cases hlen
  | s :: segs, s' :: segs', rest, rest', hfits, hfits', hlen, h => by
    obtain ⟨hs, hsegs⟩ := forall_mem_cons.mp hfits
    obtain ⟨hs', hsegs'⟩ := forall_mem_cons.mp hfits'
    rw [flatMap_cons, flatMap_cons, append_assoc, append_assoc] at h
    obtain ⟨hhandle, h⟩ := List.cons.inj h
    obtain ⟨hlength, h⟩ := List.cons.inj h
    obtain ⟨hhigh, h⟩ := List.cons.inj h
    obtain ⟨hlow, h⟩ := List.cons.inj h
    obtain ⟨rfl, rfl⟩ := segments_inj hsegs hsegs' (Nat.succ.inj hlen) h
    refine ⟨?_, rfl⟩
    have hoffset : s.rsOffset = s'.rsOffset := by omega
    cases s
    cases s'
    simp_all

theorem reads_inj : ∀ {reads reads' : List ReadItem} {rest rest' : List ℕ},
    (∀ r ∈ reads, r.Fits) → (∀ r ∈ reads', r.Fits) →
      reads.flatMap ReadItem.words ++ 0 :: rest = reads'.flatMap ReadItem.words ++ 0 :: rest' →
        reads = reads' ∧ rest = rest'
  | [], [], _, _, _, _, h => ⟨rfl, (List.cons.inj h).2⟩
  | [], r :: _, _, _, _, hfits, h =>
    absurd (List.cons.inj h).1.symm (hfits r mem_cons_self).present
  | r :: _, [], _, _, hfits, _, h => absurd (List.cons.inj h).1 (hfits r mem_cons_self).present
  | r :: reads, r' :: reads', rest, rest', hfits, hfits', h => by
    obtain ⟨hr, hreads⟩ := forall_mem_cons.mp hfits
    obtain ⟨hr', hreads'⟩ := forall_mem_cons.mp hfits'
    rw [flatMap_cons, flatMap_cons, append_assoc, append_assoc] at h
    obtain ⟨hpresent, h⟩ := List.cons.inj h
    obtain ⟨hposition, h⟩ := List.cons.inj h
    obtain ⟨hsegment, h⟩ := @segments_inj [r.segment] [r'.segment] _ _ (by simpa using hr.segment)
      (by simpa using hr'.segment) rfl h
    obtain ⟨rfl, rfl⟩ := reads_inj hreads hreads' h
    have hsegment := (List.cons.inj hsegment).1
    refine ⟨?_, rfl⟩
    cases r
    cases r'
    simp_all

theorem write_inj {c c' : WriteItem} {rest rest' : List ℕ} (hc : c.Fits) (hc' : c'.Fits)
    (h : c.words ++ rest = c'.words ++ rest') : c = c' ∧ rest = rest' := by
  obtain ⟨hpresent, h⟩ := List.cons.inj h
  obtain ⟨hlen, h⟩ := List.cons.inj h
  obtain ⟨hsegments, rfl⟩ := segments_inj hc.segments hc'.segments hlen h
  refine ⟨?_, rfl⟩
  cases c
  cases c'
  simp_all

theorem writes_inj : ∀ {writes writes' : List WriteItem} {rest rest' : List ℕ},
    (∀ c ∈ writes, c.Fits) → (∀ c ∈ writes', c.Fits) →
      writes.flatMap WriteItem.words ++ 0 :: rest = writes'.flatMap WriteItem.words ++ 0 :: rest' →
        writes = writes' ∧ rest = rest'
  | [], [], _, _, _, _, h => ⟨rfl, (List.cons.inj h).2⟩
  | [], c :: _, _, _, _, hfits, h =>
    absurd (List.cons.inj h).1.symm (hfits c mem_cons_self).present
  | c :: _, [], _, _, hfits, _, h => absurd (List.cons.inj h).1 (hfits c mem_cons_self).present
  | c :: writes, c' :: writes', rest, rest', hfits, hfits', h => by
    obtain ⟨hc, hwrites⟩ := forall_mem_cons.mp hfits
    obtain ⟨hc', hwrites'⟩ := forall_mem_cons.mp hfits'
    rw [flatMap_cons, flatMap_cons, append_assoc, append_assoc] at h
    obtain ⟨rfl, hrest⟩ := write_inj hc hc' h
    obtain ⟨rfl, rfl⟩ := writes_inj hwrites hwrites' hrest
    exact ⟨rfl, rfl⟩

/-- The words say which header it is. -/
theorem header_inj {h h' : Header} {rest rest' : List ℕ} (hfits : h.Fits) (hfits' : h'.Fits)
    (heq : h.words ++ rest = h'.words ++ rest') : h = h' := by
  unfold Header.words at heq
  simp only [append_assoc] at heq
  obtain ⟨hxid, heq⟩ := List.cons.inj heq
  obtain ⟨-, heq⟩ := List.cons.inj heq
  obtain ⟨hcredits, heq⟩ := List.cons.inj heq
  obtain ⟨hproc, heq⟩ := List.cons.inj heq
  obtain ⟨hreads, heq⟩ := reads_inj hfits.reads hfits'.reads heq
  obtain ⟨hwrites, heq⟩ := writes_inj hfits.writes hfits'.writes heq
  have hreply : h.reply = h'.reply := by
    rcases hr : h.reply with _ | c
    · rcases hr' : h'.reply with _ | c'
      · rfl
      · rw [hr, hr'] at heq
        exact absurd (List.cons.inj heq).1.symm (hfits'.reply c' hr').present
    · rcases hr' : h'.reply with _ | c'
      · rw [hr, hr'] at heq
        exact absurd (List.cons.inj heq).1 (hfits.reply c hr).present
      · rw [hr, hr'] at heq
        rw [(write_inj (hfits.reply c hr) (hfits'.reply c' hr') heq).1]
  cases h
  simp_all

/-- The parsed chunk lists hold what the header says. -/
structure Exact (h : Header) (rctxt : RecvCtxt) : Prop where
  call : CallExact h.reads rctxt.rcCallPcl.clChunks
  read : ReadExact h.reads rctxt.rcReadPcl.clChunks
  write : rctxt.rcWritePcl.clChunks = h.writes.map fun c => chunkOf 0 c.segments
  reply : rctxt.rcReplyPcl.clChunks = h.reply.toList.map fun c => chunkOf 0 c.segments
  callCount : rctxt.rcCallPcl.clCount = rctxt.rcCallPcl.clChunks.length
  readCount : rctxt.rcReadPcl.clCount = rctxt.rcReadPcl.clChunks.length
  writeCount : rctxt.rcWritePcl.clCount = rctxt.rcWritePcl.clChunks.length
  replyCount : rctxt.rcReplyPcl.clCount = rctxt.rcReplyPcl.clChunks.length

/-- The chunk lists of a context that comes from the free list are empty. -/
def RecvCtxt.Free (rctxt : RecvCtxt) : Prop :=
  rctxt.rcCallPcl.clChunks = [] ∧ rctxt.rcReadPcl.clChunks = [] ∧
    rctxt.rcWritePcl.clChunks = [] ∧ rctxt.rcReplyPcl.clChunks = []

/-- CORRECT: the decoder reads only words that it was handed; it accepts nothing but a header, the only
    one that the words begin with, and returns its length. The chunk lists hold what this header says
    just when its Read list is of one kind, at position zero or not, and a count of a Reply chunk is not
    left over in the context of a call that has none. -/
theorem decode_req (hkmalloc : ∀ n size, 2 ^ 32 ≤ size → kmalloc n size = false) (bytes : List UInt8)
    (rqArg : RqArg) {rctxt : RecvCtxt} (hfree : rctxt.Free) :
    ∃ ret rqArg' rctxt',
      svcRdmaXdrDecodeReq kmalloc (words bytes) rqArg rctxt = some (ret, rqArg', rctxt') ∧
        (0 < ret → ∃ h : Header, h.Fits ∧ h.words <+: words bytes ∧
          (∀ h' : Header, h'.Fits → h'.words <+: words bytes → h' = h) ∧
          ret = 4 * h.words.length ∧
          rqArg' = ⟨rqArg.iovBase + 4 * h.words.length, rqArg.iovLen - 4 * h.words.length,
            rqArg.len - 4 * h.words.length⟩ ∧
          (Exact h rctxt' ↔ (callCount h.reads = 0 ∨ readCount h.reads = 0) ∧
            (h.reply = none → rctxt.rcReplyPcl.clCount = 0))) := by
  have hlt := words_lt bytes
  generalize words bytes = buf at *
  obtain ⟨hcall, hread, hwrite, hreply⟩ := hfree
  unfold svcRdmaXdrDecodeReq
  rcases hfour : inlineDecode buf 0 4 with _ | st
  · exact ⟨_, _, _, rfl, fun h => absurd h (by decide)⟩
  obtain ⟨rfl, hst⟩ := inlineDecode_some hfour
  obtain ⟨xid, rest₀, h₀, -⟩ := exists_word buf 0 (by omega)
  obtain ⟨vers, rest₁, h₁, -⟩ := exists_word buf 1 (by omega)
  obtain ⟨credits, rest₂, h₂, -⟩ := exists_word buf 2 (by omega)
  obtain ⟨proc, rest₃, h₃, -⟩ := exists_word buf 3 (by omega)
  dsimp only
  rw [deref_drop h₁ (by omega), deref_drop h₃ (by omega)]
  dsimp only
  by_cases hvers : vers ≠ 1
  · rw [if_pos hvers]
    exact ⟨_, _, _, rfl, fun h => absurd h (by decide)⟩
  rw [if_neg hvers]
  by_cases hdrop : proc = 3 ∨ proc = 4
  · rw [if_pos hdrop]
    exact ⟨_, _, _, rfl, fun h => absurd h (by decide)⟩
  rw [if_neg hdrop]
  split_ifs with hproc
  · exact ⟨_, _, _, rfl, fun h => absurd h (by decide)⟩
  obtain ⟨ok, ctxt, hrun, hok⟩ := @checkReadList_spec kmalloc buf hlt
    { rctxt with rcStream := 0 + 4, rcMsgtype := proc } hcall hread
  rw [hrun]
  cases ok with
  | false => exact ⟨_, _, _, rfl, fun h => absurd h (by decide)⟩
  | true =>
  obtain ⟨reads, rest₄, hreads, hreadwords, call, read, allocs₁, hcallexact, hcallcount, hreadexact,
    hreadcount, rfl⟩ := hok rfl
  dsimp only at hreadwords ⊢
  obtain ⟨ok, ctxt, hrun, hok⟩ := @checkWriteList_spec kmalloc buf hkmalloc hlt
    { rctxt with
      rcStream := 0 + 4 + (reads.flatMap ReadItem.words ++ [0]).length, rcMsgtype := proc
      rcCallPcl := call, rcReadPcl := read, allocs := allocs₁ } hwrite
  rw [hrun]
  cases ok with
  | false => exact ⟨_, _, _, rfl, fun h => absurd h (by decide)⟩
  | true =>
  obtain ⟨writes, rest₅, hwrites, hwritewords, allocs₂, rfl⟩ := hok rfl
  dsimp only at hwritewords ⊢
  obtain ⟨ok, ctxt, hrun, hok⟩ := @checkReplyChunk_spec kmalloc buf hkmalloc hlt
    { rctxt with
      rcStream := 0 + 4 + (reads.flatMap ReadItem.words ++ [0]).length +
        (writes.flatMap WriteItem.words ++ [0]).length
      rcMsgtype := proc, rcCallPcl := call, rcReadPcl := read
      rcWritePcl := ⟨writes.length, writes.map fun c => chunkOf 0 c.segments⟩
      rcCurResultPayload := (writes.map fun c => chunkOf 0 c.segments).head?
      allocs := allocs₂ } hreply
  rw [hrun]
  cases ok with
  | false => exact ⟨_, _, _, rfl, fun h => absurd h (by decide)⟩
  | true =>
  obtain ⟨reply, rest₆, hreplyfits, hreplywords, allocs₃, rfl⟩ := hok rfl
  -- the words of the four parts
  have hwords : buf = (⟨xid, credits, proc, reads, writes, reply⟩ : Header).words ++ rest₆ := by
    have hfirst : buf = [xid, 1, credits, proc] ++ buf.drop 4 := by
      have hvers : vers = 1 := not_not.mp hvers
      conv_lhs => rw [← List.drop_zero (l := buf), h₀, ← drop_succ h₀, h₁, ← drop_succ h₁, h₂,
        ← drop_succ h₂, h₃, ← drop_succ h₃, hvers]
      rfl
    have hnext := drop_append hreadwords
    rw [hwritewords] at hnext
    have hlast := drop_append hwritewords
    rw [hreplywords] at hlast
    rw [Nat.zero_add, ← hnext, ← hlast] at hreadwords
    rw [hfirst, hreadwords]
    unfold Header.words
    simp only [append_assoc]
  have hfits : (⟨xid, credits, proc, reads, writes, reply⟩ : Header).Fits :=
    ⟨by dsimp only; omega, hreads, hwrites, hreplyfits⟩
  have hlen : (⟨xid, credits, proc, reads, writes, reply⟩ : Header).words.length =
      0 + 4 + (reads.flatMap ReadItem.words ++ [0]).length +
        (writes.flatMap WriteItem.words ++ [0]).length + (replyWords reply).length := by
    unfold Header.words
    simp only [length_append]
    rfl
  refine ⟨_, _, _, rfl, fun _ => ⟨⟨xid, credits, proc, reads, writes, reply⟩, hfits, ?_, ?_, ?_, ?_, ?_⟩⟩
  · exact ⟨rest₆, hwords.symm⟩
  · rintro h' hfits' ⟨rest, heq⟩
    exact header_inj hfits' hfits (heq.trans hwords)
  · rw [hlen]
    simp
  · rw [hlen]
  · have hiff := exact_iff hcallexact hreadexact
    constructor
    · intro h
      refine ⟨hiff.mp ⟨h.call, h.read⟩, fun hnone => ?_⟩
      have hcount := h.replyCount
      dsimp only at hnone hcount
      rw [hnone] at hcount
      exact hcount
    · rintro ⟨hkind, hstale⟩
      obtain ⟨hcall', hread'⟩ := hiff.mpr hkind
      refine ⟨hcall', hread', rfl, rfl, hcallcount, hreadcount, by simp, ?_⟩
      rcases reply with _ | c
      · rw [if_pos rfl, hstale rfl]
        rfl
      · rfl

end Header

/-- An allocator that gives up to 4 MB, and a context from the free list. -/
def kmallocMax (_ size : ℕ) : Bool := size ≤ 2 ^ 22

def freeCtxt (replyCount : ℕ) : RecvCtxt :=
  ⟨0, 0, ⟨0, []⟩, ⟨0, []⟩, ⟨0, []⟩, ⟨replyCount, []⟩, none, 0⟩

/-- Small words as bytes. -/
def smallWords (l : List UInt8) : List UInt8 := l.flatMap fun w => [0, 0, 0, w]

/-- Two segments at position 8 and one at position 4. -/
def readCall : List UInt8 :=
  smallWords [9, 1, 5, 0, 1, 8, 1, 1, 0, 0, 1, 4, 2, 1, 0, 0, 1, 8, 3, 1, 0, 0, 0, 0, 0]

theorem decode_req_reads : ∃ h rctxt',
    svcRdmaXdrDecodeReq kmallocMax (words readCall) ⟨0, 100, 100⟩ (freeCtxt 0) =
      some (100, ⟨100, 0, 0⟩, rctxt') ∧ Exact h rctxt' := by
  have hfree : (freeCtxt 0).Free := ⟨rfl, rfl, rfl, rfl⟩
  obtain ⟨ret, rqArg', rctxt', hrun, hok⟩ := decode_req
    (fun n size hsize => decide_eq_false (p := size ≤ 2 ^ 22) (by omega)) readCall ⟨0, 100, 100⟩ hfree
  have heval : (svcRdmaXdrDecodeReq kmallocMax (words readCall) ⟨0, 100, 100⟩ (freeCtxt 0)).map
      (fun r => (r.1, r.2.1)) = some (100, ⟨100, 0, 0⟩) := by decide +kernel
  have hcount : (svcRdmaXdrDecodeReq kmallocMax (words readCall) ⟨0, 100, 100⟩ (freeCtxt 0)).map
      (fun r => r.2.2.rcCallPcl.clChunks) = some [] := by decide +kernel
  change svcRdmaXdrDecodeReq kmallocMax (words readCall) ⟨0, 100, 100⟩ (freeCtxt 0) = _ at hrun
  rw [hrun] at heval hcount
  cases Option.some.inj heval
  obtain ⟨h, hfits, hprefix, hunique, hret, hrq, hexact⟩ := hok (by decide)
  have hreads : h = ⟨9, 5, 0, [⟨1, 8, ⟨1, 1, 0⟩⟩, ⟨1, 4, ⟨2, 1, 0⟩⟩, ⟨1, 8, ⟨3, 1, 0⟩⟩], [], none⟩ := by
    refine (hunique _ ⟨.inl rfl, ?_, fun c hc => (by cases hc), fun c hc => (by cases hc)⟩ ?_).symm
    · intro r hr
      simp only [mem_cons, List.not_mem_nil, or_false] at hr
      rcases hr with rfl | rfl | rfl <;> exact ⟨by decide, by decide, ⟨by decide, by decide, by decide⟩⟩
    · exact ⟨[], by decide +kernel⟩
  exact ⟨h, rctxt', hrun, hexact.mpr ⟨.inl (by rw [hreads]; rfl), fun _ => rfl⟩⟩

set_option maxRecDepth 4000 in
/-- A position-zero segment and one at position 4: the second one is not found. And a Reply chunk is
    counted that belongs to an earlier call. -/
theorem decode_req_broken :
    (∃ h : Header, h.Fits ∧
      h.words = words (smallWords [9, 1, 5, 0, 1, 0, 1, 1, 0, 0, 1, 4, 2, 1, 0, 0, 0, 0, 0]) ∧
      ∃ rctxt', (svcRdmaXdrDecodeReq kmallocMax
          (words (smallWords [9, 1, 5, 0, 1, 0, 1, 1, 0, 0, 1, 4, 2, 1, 0, 0, 0, 0, 0])) ⟨0, 76, 76⟩
            (freeCtxt 0)) = some (76, ⟨76, 0, 0⟩, rctxt') ∧
        rctxt'.rcReadPcl.clChunks = [] ∧ ¬ Exact h rctxt') ∧
    ∃ h : Header, h.Fits ∧ h.words = words (smallWords [9, 1, 5, 0, 0, 0, 0]) ∧
      ∃ rctxt', (svcRdmaXdrDecodeReq kmallocMax (words (smallWords [9, 1, 5, 0, 0, 0, 0])) ⟨0, 28, 28⟩
            (freeCtxt 1)) = some (28, ⟨28, 0, 0⟩, rctxt') ∧ ¬ Exact h rctxt' := by
  refine ⟨⟨⟨9, 5, 0, [⟨1, 0, ⟨1, 1, 0⟩⟩, ⟨1, 4, ⟨2, 1, 0⟩⟩], [], none⟩, ⟨.inl rfl, ?_,
      fun c hc => (by cases hc), fun c hc => (by cases hc)⟩, by decide +kernel, _, rfl, rfl, fun h => ?_⟩,
    ⟨9, 5, 0, [], [], none⟩, ⟨.inl rfl, fun r hr => (by cases hr), fun c hc => (by cases hc),
      fun c hc => (by cases hc)⟩, by decide +kernel, _, rfl, fun h => ?_⟩
  · intro r hr
    simp only [mem_cons, List.not_mem_nil, or_false] at hr
    rcases hr with rfl | rfl <;> exact ⟨by decide, by decide, ⟨by decide, by decide, by decide⟩⟩
  · obtain ⟨c, hc, -⟩ := h.read.all ⟨1, 4, ⟨2, 1, 0⟩⟩ (by simp) (by decide)
    cases hc
  · exact absurd h.replyCount (by decide)

end RdmaDriver.DecodeReq
