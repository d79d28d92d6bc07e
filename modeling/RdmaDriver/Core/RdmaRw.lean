import RdmaDriver.Core.SgToPages

/-! @src drivers/infiniband/core/rw.c | name:RDMA read/write context | scheme:segments |
    family:translation

    `rdma_rw_ctx_init` turns the part of a DMA-mapped sg list behind `sg_offset` into a chain of RDMA
    READ or WRITE work requests, in one of three forms: each run of `pages_per_mr` elements through a
    memory region of the QP's pool, each run of `max_sge` elements as the SGEs of one WR, or one WR of
    one SGE.

        sg list      +--skipped--+┈┈ e₀ --+-- e₁ --+-- e₂ --+-- e₃ --+
                              sg_offset
        WRs                      [ WR 0: e₀ e₁ ][ WR 1: e₂ e₃ ]
        remote_addr              r              r + |e₀| + |e₁|              -/

namespace RdmaDriver.RdmaRw
open Schemes SgPages
open List (map_cons)
open Nat (add_sub_cancel add_zero succ_mul zero_add)

def PAGE_SIZE : ℕ := 4096

/-- `KMALLOC_MAX_SIZE`, and the sizes of the structures that are allocated as arrays. -/
def KMALLOC_MAX_SIZE : ℕ := 2 ^ 22
def sizeofSge : ℕ := 16
def sizeofRdmaWr : ℕ := 56
def sizeofRegCtx : ℕ := 176

/-- `kcalloc`: `ok` is whether there is memory. -/
def kcalloc (ok : Bool) (n size : ℕ) : Bool := ok && n * size ≤ KMALLOC_MAX_SIZE

/-- `enum dma_data_direction`. -/
inductive Dir where
  | toDevice | fromDevice
  deriving DecidableEq

/-- A memory region of the pool, with what `ib_map_mr_sg` left in it. -/
structure Mr where
  lkey : ℕ
  needInval : Bool
  iova : ℕ
  length : ℕ
  pages : List ℕ
  deriving DecidableEq

/-- What an lkey names: `pd->local_dma_lkey`, or a memory region. -/
inductive Lkey where
  | localDma
  | mr (m : Mr)
  deriving DecidableEq

/-- `struct ib_sge`. -/
structure Sge where
  addr : ℕ
  length : ℕ
  lkey : Lkey
  deriving DecidableEq

inductive Opcode where
  | rdmaWrite | rdmaRead | rdmaReadWithInv (lkey : ℕ)
  deriving DecidableEq

/-- `struct ib_rdma_wr`. -/
structure RdmaWr where
  opcode : Opcode
  remoteAddr : ℕ
  rkey : ℕ
  sgList : List Sge
  deriving DecidableEq

/-- What the functions read of the device, the QP and the build. `max_fast_reg_page_list_len` is the one
    that `integrity_en` selects. -/
structure Qp where
  iwarp : Bool
  readInv : Bool
  maxSglRd : ℕ
  maxFastRegPageListLen : ℕ
  forceMr : Bool
  maxWriteSge : ℕ
  maxReadSge : ℕ
  dmaMapSgtable : Bool

/-- `struct rdma_rw_reg_ctx`: `invNext` says that `inv_wr.next` is set. -/
structure Reg where
  mr : Mr
  invNext : Bool
  sge : Sge
  wr : RdmaWr
  remoteWrite : Bool
  deriving DecidableEq

/-- `struct rdma_rw_ctx`. -/
inductive Ctx where
  | single (wr : RdmaWr)
  | map (wrs : List RdmaWr)
  | mr (reg : List Reg)
  deriving DecidableEq

/-- A work request of the chain. -/
inductive Wr where
  | localInv (lkey : ℕ)
  | regMr (m : Mr) (remoteWrite : Bool)
  | rdma (wr : RdmaWr)
  deriving DecidableEq

/-- `rdma_rw_fr_page_list_len`. -/
def rdmaRwFrPageListLen (qp : Qp) : ℕ := min qp.maxFastRegPageListLen 256

/-- `rdma_rw_io_needs_mr`. -/
def rdmaRwIoNeedsMr (qp : Qp) (dir : Dir) (dmaNents : ℕ) : Bool :=
  (dir == .fromDevice &&
    (qp.iwarp || (qp.maxSglRd != 0 && decide (dmaNents > qp.maxSglRd)))) || qp.forceMr

/-- `DIV_ROUND_UP` of two `u32`. -/
def divRoundUp32 (n d : ℕ) : ℕ := toU 32 (n + d - 1 : ℕ) / d

/-! The single-WR and the multi-WR form. -/

/-- `rdma_rw_init_single_wr`. -/
def rdmaRwInitSingleWr (sg : Seg) (offset remoteAddr rkey : ℕ) (dir : Dir) : RdmaWr :=
  { opcode := if dir = .toDevice then .rdmaWrite else .rdmaRead
    remoteAddr
    rkey
    sgList := [⟨toU 64 (sg.addr + offset : ℕ), toU 32 ((sg.len : ℤ) - offset), .localDma⟩] }

/-- The loop of `rdma_rw_init_map_wrs` over the SGEs of one WR; the elements that are left and
    `total_len`. -/
def sgeLoop : ℕ → List Seg → ℕ → ℕ → List Sge × List Seg × ℕ
  | 0, sg, _, totalLen => ([], sg, totalLen)
  | _ + 1, [], _, totalLen => ([], [], totalLen)
  | n + 1, s :: sg, offset, totalLen =>
    let length := toU 32 ((s.len : ℤ) - offset)
    let (sges, rest, totalLen) := sgeLoop n sg 0 (toU 32 (totalLen + length : ℕ))
    (⟨toU 64 (s.addr + offset : ℕ), length, .localDma⟩ :: sges, rest, totalLen)

/-- The loop of `rdma_rw_init_map_wrs` over the WRs. -/
def mapLoop (maxSge remoteAddr rkey : ℕ) (dir : Dir) : ℕ → List Seg → ℕ → ℕ → List RdmaWr
  | 0, _, _, _ => []
  | n + 1, sg, offset, totalLen =>
    let nrSge := min sg.length maxSge
    let (sges, rest, totalLen') := sgeLoop nrSge sg offset totalLen
    { opcode := if dir = .toDevice then .rdmaWrite else .rdmaRead
      remoteAddr := toU 64 (remoteAddr + totalLen : ℕ)
      rkey
      sgList := sges } :: mapLoop maxSge remoteAddr rkey dir n rest 0 totalLen'

/-- `max_sge` of `rdma_rw_init_map_wrs`. -/
def maxSge (qp : Qp) : Dir → ℕ
  | .toDevice => qp.maxWriteSge
  | .fromDevice => qp.maxReadSge

/-- `rdma_rw_init_map_wrs`; `mem` is whether its two allocations find memory. -/
def rdmaRwInitMapWrs (qp : Qp) (sg : List Seg) (offset remoteAddr rkey : ℕ) (dir : Dir)
    (mem : Bool × Bool) : Except Errno (ℕ × List RdmaWr) :=
  let maxSge := maxSge qp dir
  let nrOps := divRoundUp32 sg.length maxSge
  if !kcalloc mem.1 sg.length sizeofSge then .error .enomem
  else if !kcalloc mem.2 nrOps sizeofRdmaWr then .error .enomem
  else .ok (nrOps, mapLoop maxSge remoteAddr rkey dir nrOps sg offset 0)

/-! The form that registers memory. -/

/-- The page list of a memory region, which holds `cap` pages. -/
def setPage (cap : ℕ) (pages : List ℕ) (page : ℕ) : Option (List ℕ) :=
  if pages.length < cap then some (pages ++ [page]) else none

/-- `ib_map_mr_sg` of a driver whose `map_mr_sg` is `ib_sg_to_pages`: the number of elements mapped and
    the memory region. A region of the pool holds as many pages as it was allocated for. -/
def ibMapMrSg (qp : Qp) (m : Mr) (sg : List Seg) (offset : ℕ) : ℤ × Mr :=
  let cap := rdmaRwFrPageListLen qp
  let r := ibSgToPages (setPage cap) PAGE_SIZE (cap + 1) m.iova m.length [] sg (some offset)
  (r.2.1.n, { m with iova := r.1, length := r.2.1.length, pages := r.2.1.mr })

/-- `rdma_rw_init_one_mr`, with the count it returns, and the pool it leaves. -/
def rdmaRwInitOneMr (qp : Qp) (pool : List Mr) (sg : List Seg) (offset : ℕ) :
    Except Errno (ℕ × Mr × Bool × Sge) × List Mr :=
  let nents := min sg.length (rdmaRwFrPageListLen qp)
  match pool with
  | [] => (.error .eagain, [])
  | m :: pool =>
    let (ret, m) := ibMapMrSg qp m (sg.take nents) offset
    if ret < 0 ∨ ret < nents then (.error .einval, m :: pool)
    else
      (.ok ((if m.needInval then 1 else 0) + 1, m, m.needInval,
        ⟨m.iova, toU 32 m.length, .mr m⟩), pool)

/-- The loop of `rdma_rw_init_mr_wrs`; `reg` are the contexts filled so far, last first. On failure
    their regions are put back. -/
def mrLoop (qp : Qp) (rkey : ℕ) (dir : Dir) :
    ℕ → List Seg → ℕ → ℕ → List Reg → ℕ → List Mr → Except Errno (ℕ × List Reg) × List Mr
  | 0, _, _, _, reg, count, pool => (.ok (count, reg.reverse), pool)
  | n + 1, sg, offset, remoteAddr, reg, count, pool =>
    match rdmaRwInitOneMr qp pool sg offset with
    | (.error e, pool) => (.error e, reg.foldl (fun pool r => r.mr :: pool) pool)
    | (.ok (ret, m, invNext, sge), pool) =>
      let nents := min sg.length (rdmaRwFrPageListLen qp)
      let opcode :=
        if dir = .toDevice then .rdmaWrite
        else if !qp.readInv then .rdmaRead
        else .rdmaReadWithInv m.lkey
      mrLoop qp rkey dir n (sg.drop nents) 0 (toU 64 (remoteAddr + sge.length : ℕ))
        (⟨m, invNext, sge, ⟨opcode, remoteAddr, rkey, [sge]⟩, qp.iwarp⟩ :: reg)
        (count + ret + 1) pool

/-- `rdma_rw_init_mr_wrs`. -/
def rdmaRwInitMrWrs (qp : Qp) (pool : List Mr) (sg : List Seg) (offset remoteAddr rkey : ℕ)
    (dir : Dir) (mem : Bool) : Except Errno (ℕ × List Reg) × List Mr :=
  let nrOps := divRoundUp32 sg.length (rdmaRwFrPageListLen qp)
  if !kcalloc mem nrOps sizeofRegCtx then (.error .enomem, pool)
  else mrLoop qp rkey dir nrOps sg offset remoteAddr [] 0 pool

/-! The context. -/

/-- What `rdma_rw_ctx_init` is called with, once its list is mapped: `sgl` are the mapped elements,
    `orig_nents` how many there were before. -/
structure Call where
  sgl : List Seg
  origNents : ℕ
  sgOffset : ℕ
  remoteAddr : ℕ
  rkey : ℕ
  dir : Dir
  pool : List Mr
  mem : Bool × Bool

/-- The loop that skips to the element that `sg_offset` falls into: the elements from there on, and the
    offset left. -/
def skipLoop : List Seg → ℕ → List Seg × ℕ
  | [], sgOffset => ([], sgOffset)
  | s :: sg, sgOffset =>
    if sgOffset < s.len then (s :: sg, sgOffset) else skipLoop sg (sgOffset - s.len)

/-- What `rdma_rw_ctx_init` leaves: what it returns with the context, the pool, and the part of the
    list it unmaps, by its first element and their number. -/
structure Done where
  ret : Except Errno (ℕ × Ctx)
  pool : List Mr
  unmapped : Option (ℕ × ℕ)

/-- The list that was mapped. -/
def Call.mapped (c : Call) : ℕ × ℕ := (0, c.origNents)

/-- What `out_unmap_sg` unmaps: `sgt.sgl` and `sgt.orig_nents`, or, in builds without
    `HAVE_DMA_MAP_SGTABLE`, `sg` and `sg_cnt` as they are by then. -/
def unmapSg (qp : Qp) (c : Call) (sg : List Seg) : ℕ × ℕ :=
  if qp.dmaMapSgtable then (0, c.origNents) else (c.sgl.length - sg.length, sg.length)

/-- `rdma_rw_ctx_init` behind the mapping. -/
def rdmaRwCtxInit (qp : Qp) (c : Call) : Done :=
  let (sg, sgOffset) := skipLoop c.sgl c.sgOffset
  let fail (e : Errno) (pool : List Mr) : Done := ⟨.error e, pool, some (unmapSg qp c sg)⟩
  match sg with
  | [] => fail .eio c.pool
  | s :: rest =>
    if rdmaRwIoNeedsMr qp c.dir sg.length then
      match rdmaRwInitMrWrs qp c.pool sg sgOffset c.remoteAddr c.rkey c.dir c.mem.1 with
      | (.error e, pool) => fail e pool
      | (.ok (ret, reg), pool) => ⟨.ok (ret, .mr reg), pool, none⟩
    else if rest ≠ [] then
      match rdmaRwInitMapWrs qp sg sgOffset c.remoteAddr c.rkey c.dir c.mem with
      | .error e => fail e c.pool
      | .ok (ret, wrs) => ⟨.ok (ret, .map wrs), c.pool, none⟩
    else
      ⟨.ok (1, .single (rdmaRwInitSingleWr s sgOffset c.remoteAddr c.rkey c.dir)), c.pool, none⟩

/-- The WRs of one region, behind the `next` pointer that leads to them: `inv` says that it points to
    `inv_wr`. -/
def Reg.wrs (inv : Bool) (r : Reg) : List Wr :=
  (if inv then [.localInv r.mr.lkey] else []) ++ [.regMr r.mr r.remoteWrite, .rdma r.wr]

/-- The chain that `rdma_rw_ctx_wrs` returns. -/
def rdmaRwCtxWrs : Ctx → List Wr
  | .single wr => [.rdma wr]
  | .map wrs => wrs.map .rdma
  | .mr [] => []
  | .mr (r :: reg) => r.wrs r.invNext ++ reg.flatMap fun r => r.wrs r.mr.needInval

/-! What a chain of WRs transfers. -/

/-- The DMA address of byte `x` of an SGE. -/
def Sge.byte (s : Sge) (x : ℕ) : Option ℕ :=
  match s.lkey with
  | .localDma => some (s.addr + x)
  | .mr m => pageByte PAGE_SIZE m.pages (m.iova % PAGE_SIZE + (s.addr - m.iova) + x)

def sgLen (sges : List Sge) : ℕ := (sges.map (·.length)).sum

/-- The DMA address of byte `x` of a list of SGEs. -/
def sgByte : List Sge → ℕ → Option ℕ
  | [], _ => none
  | s :: sges, x => if x < s.length then s.byte x else sgByte sges (x - s.length)

/-- Byte `x` of what the RDMA WRs of a chain transfer, in chain order: the remote address and the DMA
    address. -/
def xfer : List Wr → ℕ → Option (ℕ × ℕ)
  | [], _ => none
  | .rdma wr :: chain, x =>
    if x < sgLen wr.sgList then
      (sgByte wr.sgList x).map fun b => (toU 64 (wr.remoteAddr + x : ℕ), b)
    else xfer chain (x - sgLen wr.sgList)
  | _ :: chain, x => xfer chain x

/-- The chain transfers the list from `sg_offset` to its end, with consecutive remote addresses. -/
def Exact (c : Call) (chain : List Wr) : Prop :=
  ∀ x, xfer chain x =
    (byteAt c.sgl (c.sgOffset + x)).map fun b => (toU 64 (c.remoteAddr + x : ℕ), b)

/-! ### SGEs of local memory -/

/-- The SGEs of some elements. -/
def localSges (segs : List Seg) : List Sge := segs.map fun s => ⟨s.addr, s.len, .localDma⟩

theorem sgLen_local (segs : List Seg) : sgLen (localSges segs) = total segs := by
  induction segs with
  | nil => rfl
  | cons s segs ih =>
    rw [total_cons, ← ih]
    simp [sgLen, localSges]

theorem sgByte_local (segs : List Seg) : ∀ x, sgByte (localSges segs) x = byteAt segs x := by
  induction segs with
  | nil => exact fun _ => rfl
  | cons s segs ih =>
    intro x
    change (if x < s.len then _ else _) = if x < s.len then _ else _
    split
    · rfl
    · exact ih _

theorem skip_take (off n : ℕ) (sg : List Seg) : (skip off sg).take n = skip off (sg.take n) := by
  cases sg with
  | nil => simp [skip]
  | cons s sg => cases n <;> simp [skip]

theorem skip_drop (off : ℕ) {n : ℕ} (hn : 0 < n) (sg : List Seg) :
    (skip off sg).drop n = sg.drop n := by
  cases sg with
  | nil => simp [skip]
  | cons s sg =>
    obtain ⟨n, rfl⟩ : ∃ k, n = k + 1 := ⟨n - 1, by omega⟩
    simp [skip]

@[simp] theorem skip_length (off : ℕ) (sg : List Seg) : (skip off sg).length = sg.length := by
  cases sg <;> rfl

/-- The elements from `sg` on, the first from `off` on. -/
structure Rest (off : ℕ) (sg : List Seg) : Prop where
  small : ∀ s ∈ sg, Small PAGE_SIZE s
  head : ∀ s ∈ sg.head?, off < s.len

theorem Rest.drop {off : ℕ} {sg : List Seg} (h : Rest off sg) (n : ℕ) : Rest 0 (sg.drop n) := by
  refine ⟨fun s hs => h.small s (List.mem_of_mem_drop hs), fun s hs => ?_⟩
  exact (h.small s (List.mem_of_mem_drop (List.mem_of_mem_head? hs))).pos

theorem Rest.take {off : ℕ} {sg : List Seg} (h : Rest off sg) (n : ℕ) : Rest off (sg.take n) := by
  refine ⟨fun s hs => h.small s (List.mem_of_mem_take hs), fun s hs => ?_⟩
  cases sg with
  | nil => simp at hs
  | cons a sg =>
    cases n with
    | zero => simp at hs
    | succ n => exact h.head s hs

/-- What is left of the elements is no longer than they are. -/
theorem Rest.le {off : ℕ} {sg : List Seg} (h : Rest off sg) : ∀ s ∈ skip off sg, s.len ≤ 2 ^ 32 - 1 := by
  cases sg with
  | nil => simp [skip]
  | cons a sg =>
    intro s hs
    rcases List.mem_cons.mp hs with rfl | hs
    · have := (h.small a (List.mem_cons_self ..)).len
      dsimp only
      omega
    · have := (h.small s (List.mem_cons_of_mem _ hs)).len
      omega

/-- The SGEs of one WR are the next elements. -/
theorem sgeLoop_spec : ∀ (n : ℕ) (sg : List Seg) (off t : ℕ), Rest off sg → t < 2 ^ 32 →
    sgeLoop n sg off t = (localSges ((skip off sg).take n), sg.drop n,
      toU 32 (t + total ((skip off sg).take n) : ℕ))
  | 0, sg, off, t, _, ht => by
    simp only [List.take_zero, total_nil, add_zero, toU_of_lt ht]
    rfl
  | n + 1, [], off, t, _, ht => by
    simp only [skip, List.take_nil, total_nil, add_zero, toU_of_lt ht]
    rfl
  | n + 1, s :: sg, off, t, h, ht => by
    have hs := h.small s (List.mem_cons_self ..)
    have hoff := h.head s rfl
    have hlen := hs.len
    have hend := hs.end_lt (by decide)
    have haddr : toU 64 (s.addr + off : ℕ) = s.addr + off := toU_of_lt (by omega)
    have hdlen : toU 32 ((s.len : ℤ) - off) = s.len - off := toU_sub hlen hoff.le
    have hlt : toU 32 (t + (s.len - off) : ℕ) < 2 ^ 32 := by
      unfold toU
      omega
    have ih := sgeLoop_spec n sg 0 (toU 32 (t + (s.len - off) : ℕ)) (h.drop 1) hlt
    have hsum : toU 32 ((toU 32 (t + (s.len - off) : ℕ) + total (sg.take n) : ℕ) : ℤ) =
        toU 32 (t + (s.len - off + total (sg.take n)) : ℕ) := by
      unfold toU
      omega
    rw [skip_zero] at ih
    simp only [sgeLoop, haddr, hdlen, ih, hsum, skip, List.take_succ_cons, total_cons,
      List.drop_succ_cons, localSges, map_cons]

/-! ### The multi-WR form -/

section Map
variable {maxSge rkey : ℕ} {dir : Dir}

variable (maxSge rkey dir)

/-- One WR of the loop, and the rest of the list for the others. -/
theorem mapLoop_succ (remote n t off : ℕ) {sg : List Seg} (h : Rest off sg) (ht : t < 2 ^ 32) :
    ∃ op, mapLoop maxSge remote rkey dir (n + 1) sg off t =
      ⟨op, toU 64 (remote + t : ℕ), rkey, localSges ((skip off sg).take maxSge)⟩ ::
        mapLoop maxSge remote rkey dir n (sg.drop maxSge) 0
          (toU 32 (t + total ((skip off sg).take maxSge) : ℕ)) := by
  have htake : ∀ l : List Seg, l.length = sg.length →
      l.take (min sg.length maxSge) = l.take maxSge := by
    intro l hl
    rcases Nat.le_total sg.length maxSge with hle | hle
    · rw [Nat.min_eq_left hle, List.take_of_length_le hl.le, List.take_of_length_le (hl.trans_le hle)]
    · rw [Nat.min_eq_right hle]
  have hdrop : sg.drop (min sg.length maxSge) = sg.drop maxSge := by
    rcases Nat.le_total sg.length maxSge with hle | hle
    · rw [Nat.min_eq_left hle, List.drop_length, List.drop_of_length_le hle]
    · rw [Nat.min_eq_right hle]
  refine ⟨if dir = .toDevice then .rdmaWrite else .rdmaRead, ?_⟩
  rw [mapLoop, sgeLoop_spec _ _ _ _ h ht, htake _ (skip_length ..), hdrop]

/-- What the first WR transfers, and what is behind it. -/
theorem xfer_local (op : Opcode) (remote : ℕ) (segs : List Seg) (chain : List Wr) (x : ℕ) :
    xfer (.rdma ⟨op, remote, rkey, localSges segs⟩ :: chain) x =
      if x < total segs then (byteAt segs x).map fun b => (toU 64 (remote + x : ℕ), b)
      else xfer chain (x - total segs) := by
  rw [xfer, sgLen_local, sgByte_local]

/-- A split of the bytes at the end of the first elements. -/
theorem byteAt_split (segs : List Seg) (n x : ℕ) : byteAt segs x =
    if x < total (segs.take n) then byteAt (segs.take n) x
    else byteAt (segs.drop n) (x - total (segs.take n)) := by
  conv_lhs => rw [← List.take_append_drop n segs]
  split
  · exact byteAt_append_left ‹_›
  · exact byteAt_append_right (Nat.not_lt.mp ‹_›)

theorem toU64_shift (remote t x : ℕ) : toU 64 ((toU 64 (remote + t : ℕ) + x : ℕ) : ℤ) =
    toU 64 (remote + (t + x) : ℕ) := by
  unfold toU
  omega

/-- RUN: while the 32-bit length does not wrap before the last WR, the WRs transfer the elements. -/
theorem mapLoop_exact (hmax : 0 < maxSge) (remote : ℕ) : ∀ (n : ℕ) (sg : List Seg) (off t : ℕ),
    Rest off sg → t < 2 ^ 32 → sg.length ≤ n * maxSge →
    t + total ((skip off sg).take ((n - 1) * maxSge)) < 2 ^ 32 → ∀ x,
    xfer ((mapLoop maxSge remote rkey dir n sg off t).map .rdma) x =
      (byteAt (skip off sg) x).map fun b => (toU 64 (remote + (t + x) : ℕ), b)
  | 0, sg, off, t, _, _, hlen, _, x => by
    obtain rfl : sg = [] := List.length_eq_zero_iff.mp (by omega)
    rfl
  | n + 1, sg, off, t, h, ht, hlen, hsum, x => by
    obtain ⟨op, heq⟩ := mapLoop_succ maxSge rkey dir remote n t off
      h ht
    rw [heq, map_cons, xfer_local, byteAt_split (skip off sg) maxSge x]
    by_cases hx : x < total ((skip off sg).take maxSge)
    · simp only [if_pos hx, toU64_shift]
    · rw [if_neg hx, if_neg hx, skip_drop off hmax]
      cases n with
      | zero =>
        rw [List.drop_of_length_le (by omega)]
        rfl
      | succ n =>
        have hpre : (skip off sg).take ((n + 1) * maxSge) = (skip off sg).take maxSge ++
            (sg.drop maxSge).take (n * maxSge) := by
          rw [succ_mul, Nat.add_comm, List.take_add, skip_drop off hmax]
        rw [add_sub_cancel, hpre, total_append] at hsum
        have hmod : toU 32 (t + total ((skip off sg).take maxSge) : ℕ) =
            t + total ((skip off sg).take maxSge) := toU_of_lt (by omega)
        rw [hmod, mapLoop_exact hmax remote (n + 1) _ 0 _ (h.drop maxSge) (by omega)
          (by rw [List.length_drop]; rw [succ_mul] at hlen; omega)
          (by rw [skip_zero, add_sub_cancel]; omega), skip_zero]
        congr 1
        funext b
        congr 3
        omega

/-- A 32-bit length that wrapped gives another address. -/
theorem toU64_wrapped {remote t : ℕ} (h : 2 ^ 32 ≤ t) (ht : t < 2 ^ 64) :
    toU 64 (remote + toU 32 (t : ℕ) : ℕ) ≠ toU 64 (remote + t : ℕ) := by
  unfold toU
  omega

/-- RUN: where the 32-bit length wraps before the last WR, a byte goes to another remote address. -/
theorem mapLoop_wrong (hmax : 0 < maxSge) (hmax' : maxSge < 2 ^ 32) (remote : ℕ) :
    ∀ (n : ℕ) (sg : List Seg) (off t : ℕ), Rest off sg → t < 2 ^ 32 → (n - 1) * maxSge < sg.length →
    2 ^ 32 ≤ t + total ((skip off sg).take ((n - 1) * maxSge)) → ∃ x b r,
    xfer ((mapLoop maxSge remote rkey dir n sg off t).map .rdma) x = some (r, b) ∧
      r ≠ toU 64 (remote + (t + x) : ℕ)
  | 0, sg, off, t, _, ht, _, hsum => by
    simp only [Nat.zero_sub, Nat.zero_mul, List.take_zero, total_nil] at hsum
    omega
  | 1, sg, off, t, _, ht, _, hsum => by
    simp only [Nat.sub_self, Nat.zero_mul, List.take_zero, total_nil] at hsum
    omega
  | n + 2, sg, off, t, h, ht, hlen, hsum => by
    rw [add_sub_cancel (m := 1)] at hlen hsum
    have hpre : (skip off sg).take ((n + 1) * maxSge) = (skip off sg).take maxSge ++
        (sg.drop maxSge).take (n * maxSge) := by
      rw [succ_mul, Nat.add_comm, List.take_add, skip_drop off hmax]
    rw [hpre, total_append] at hsum
    rw [succ_mul] at hlen
    have hdrop : (sg.drop maxSge).length = sg.length - maxSge := List.length_drop ..
    obtain ⟨op, heq⟩ := mapLoop_succ maxSge rkey dir remote (n + 1)
      t off h ht
    have hshift : ∀ y, xfer ((mapLoop maxSge remote rkey dir (n + 2) sg off t).map .rdma)
        (total ((skip off sg).take maxSge) + y) =
        xfer ((mapLoop maxSge remote rkey dir (n + 1) (sg.drop maxSge) 0
          (toU 32 (t + total ((skip off sg).take maxSge) : ℕ))).map .rdma) y := by
      intro y
      rw [heq, map_cons, xfer_local, if_neg (by omega), Nat.add_sub_cancel_left]
    rcases Nat.lt_or_ge (t + total ((skip off sg).take maxSge)) (2 ^ 32) with hlt | hge
    · -- not yet: the wrap is further on
      rw [toU_of_lt hlt] at hshift
      obtain ⟨x, b, r, hx, hr⟩ := mapLoop_wrong hmax hmax' remote (n + 1) (sg.drop maxSge) 0 _
        (h.drop maxSge) hlt (by rw [add_sub_cancel]; omega)
        (by rw [add_sub_cancel, skip_zero]; omega)
      refine ⟨total ((skip off sg).take maxSge) + x, b, r, (hshift x).trans hx, ?_⟩
      rwa [← Nat.add_assoc t]
    · -- the next WR starts at a wrapped length
      have hbound : t + total ((skip off sg).take maxSge) < 2 ^ 64 := by
        have hle := total_le (l := (skip off sg).take maxSge) fun s hs =>
          h.le s (List.mem_of_mem_take hs)
        have hn : ((skip off sg).take maxSge).length ≤ 2 ^ 32 - 1 :=
          (List.length_take_le ..).trans (by omega)
        omega
      obtain ⟨s, rest, hs⟩ : ∃ s rest, sg.drop maxSge = s :: rest :=
        List.exists_cons_of_ne_nil fun hnil => by rw [hnil] at hdrop; simp at hdrop; omega
      have hrest : Rest 0 (sg.drop maxSge) := h.drop maxSge
      have hpos : 0 < s.len := hrest.head s (by rw [hs]; rfl)
      obtain ⟨op', heq'⟩ := mapLoop_succ maxSge rkey dir remote n
        (toU 32 (t + total ((skip off sg).take maxSge) : ℕ)) 0 hrest (toU_lt 32 _)
      have hfirst : byteAt ((sg.drop maxSge).take maxSge) 0 = some s.addr := by
        obtain ⟨m, hm⟩ : ∃ m, maxSge = m + 1 := ⟨maxSge - 1, by omega⟩
        rw [hs, hm, List.take_succ_cons, byteAt_of_lt hpos]
        rfl
      have htot : 0 < total ((sg.drop maxSge).take maxSge) := by
        obtain ⟨m, hm⟩ : ∃ m, maxSge = m + 1 := ⟨maxSge - 1, by omega⟩
        rw [hs, hm, List.take_succ_cons, total_cons]
        omega
      refine ⟨total ((skip off sg).take maxSge) + 0, s.addr,
        toU 64 (remote + toU 32 (t + total ((skip off sg).take maxSge) : ℕ) : ℕ), ?_, ?_⟩
      · rw [hshift, heq', map_cons, xfer_local, skip_zero, if_pos htot, hfirst,
          Option.map_some, toU64_shift, add_zero]
      · rw [add_zero]
        exact toU64_wrapped hge hbound

theorem mapLoop_sges (remote : ℕ) : ∀ (n : ℕ) (sg : List Seg) (off t : ℕ), Rest off sg →
    t < 2 ^ 32 → (mapLoop maxSge remote rkey dir n sg off t).length = n ∧
      ∀ wr ∈ mapLoop maxSge remote rkey dir n sg off t, wr.sgList.length ≤ maxSge
  | 0, _, _, _, _, _ => ⟨rfl, nofun⟩
  | n + 1, sg, off, t, h, ht => by
    obtain ⟨op, heq⟩ := mapLoop_succ maxSge rkey dir remote n t off
      h ht
    obtain ⟨hl, hw⟩ := mapLoop_sges remote n (sg.drop maxSge) 0 _ (h.drop maxSge) (toU_lt 32 _)
    rw [heq]
    refine ⟨by rw [List.length_cons, hl], fun wr hwr => ?_⟩
    rcases List.mem_cons.mp hwr with rfl | hwr
    · simp [localSges]
    · exact hw wr hwr

end Map

/-! ### The form that registers memory -/

theorem setPage_setter (cap : ℕ) : Setter (setPage cap) (fun pages pv => pages = pv) cap where
  push := by
    rintro mr pv a rfl hlt
    exact ⟨mr ++ [a], if_pos hlt, rfl⟩
  full := by
    rintro mr pv a rfl hlen
    exact if_neg (by omega)

theorem frPageListLen_le (qp : Qp) : rdmaRwFrPageListLen qp ≤ 256 := Nat.min_le_right ..

/-- `ib_map_mr_sg` that maps all elements leaves a region whose pages hold them. -/
theorem ibMapMrSg_spec {qp : Qp} {m : Mr} {sg : List Seg} {off : ℕ} (hne : sg ≠ [])
    (hlen : sg.length ≤ rdmaRwFrPageListLen qp) (h : Rest off sg)
    (hall : (sg.length : ℤ) ≤ (ibMapMrSg qp m sg off).1) :
    (ibMapMrSg qp m sg off).2.length = total (skip off sg) ∧ total (skip off sg) < 2 ^ 32 ∧
      Covers PAGE_SIZE ((ibMapMrSg qp m sg off).2.iova % PAGE_SIZE) (skip off sg)
        (ibMapMrSg qp m sg off).2.pages := by
  obtain ⟨s, rest, rfl⟩ := List.exists_cons_of_ne_nil hne
  have hcap := frPageListLen_le qp
  have htot : total (s :: rest) < 2 ^ 64 := by
    have hle := total_le (l := s :: rest) (m := 2 ^ 32) fun x hx => (h.small x hx).len.le
    omega
  have hspec := @ibSgToPages_spec _ _ _ _ _ (setPage_setter (rdmaRwFrPageListLen qp))
    (by decide : 0 < PAGE_SIZE) _ m.iova m.length (Nat.lt_succ_self _) [] rfl s rest (some off)
    (h.head s rfl) h.small htot
  revert hspec hall
  unfold ibMapMrSg
  cases outcome PAGE_SIZE (rdmaRwFrPageListLen qp) (s :: rest) ((some off).getD 0) none 0 with
  | all used =>
    rintro hall ⟨mr', pv', heq, rfl, hused, hle, hcov⟩
    dsimp only
    rw [heq]
    refine ⟨rfl, ?_, hcov⟩
    -- the bytes lie in at most 256 pages
    have hcount := hcov.count (by simp [skip])
    have hpe := (pageEnd_le_iff (by decide : 0 < PAGE_SIZE)).mp (hcount ▸ le_rfl :
      pageEnd PAGE_SIZE ((s.addr + (some off).getD 0) % PAGE_SIZE +
        total (skip ((some off).getD 0) (s :: rest))) ≤ mr'.length)
    have : mr'.length * PAGE_SIZE ≤ 256 * PAGE_SIZE := Nat.mul_le_mul_right _ (by omega)
    simp only [PAGE_SIZE, Option.getD_some] at this hpe
    omega
  | gap =>
    rintro hall ⟨iova', mm, heq, hlt⟩
    dsimp only at hall
    rw [heq] at hall
    exact absurd hall (not_le.mpr hlt)
  | full o =>
    rintro hall ⟨iova', mm, heq, hlt⟩
    dsimp only at hall
    rw [heq] at hall
    exact absurd hall (not_le.mpr hlt)

/-- The pool has a region for each of `n` runs of elements, and each run fits into its region. -/
def Fits (qp : Qp) : ℕ → List Seg → ℕ → List Mr → Prop
  | 0, _, _, _ => True
  | _ + 1, _, _, [] => False
  | n + 1, sg, offset, m :: pool =>
    let nents := min sg.length (rdmaRwFrPageListLen qp)
    (nents : ℤ) ≤ (ibMapMrSg qp m (sg.take nents) offset).1 ∧ Fits qp n (sg.drop nents) 0 pool

instance Fits.decidable (qp : Qp) : ∀ n sg offset pool, Decidable (Fits qp n sg offset pool)
  | 0, _, _, _ => instDecidableTrue
  | _ + 1, _, _, [] => instDecidableFalse
  | n + 1, sg, _, _ :: pool =>
    let nents := min sg.length (rdmaRwFrPageListLen qp)
    @instDecidableAnd _ _ (Int.decLe ..) (Fits.decidable qp n (sg.drop nents) 0 pool)

/-- The WRs of some regions. -/
def regWrs (reg : List Reg) : List Wr := reg.flatMap fun r => r.wrs r.mr.needInval

/-- What the loop of `rdma_rw_init_mr_wrs` puts into a region's context. -/
def RegOk (r : Reg) : Prop := r.invNext = r.mr.needInval ∧ r.wr.sgList.length = 1

/-- What the WRs of one region transfer, and what is behind them. -/
theorem xfer_reg (r : Reg) (chain : List Wr) (x : ℕ) :
    xfer (r.wrs r.mr.needInval ++ chain) x = xfer (.rdma r.wr :: chain) x := by
  unfold Reg.wrs
  cases r.mr.needInval <;> rfl

section MrWrs
variable {qp : Qp} {rkey : ℕ} {dir : Dir}

/-- `rdma_rw_init_one_mr`: a region that holds the next elements, or the pool as it was. -/
theorem initOneMr_spec (hp : 0 < rdmaRwFrPageListLen qp) (m : Mr) (pool : List Mr) {sg : List Seg}
    {off : ℕ} (hne : sg ≠ []) (h : Rest off sg) :
    ((min sg.length (rdmaRwFrPageListLen qp) : ℕ) : ℤ) ≤
        (ibMapMrSg qp m (sg.take (min sg.length (rdmaRwFrPageListLen qp))) off).1 ∧
      (∃ m', rdmaRwInitOneMr qp (m :: pool) sg off = (.ok ((if m'.needInval then 1 else 0) + 1, m',
          m'.needInval, ⟨m'.iova, total ((skip off sg).take (rdmaRwFrPageListLen qp)), .mr m'⟩), pool)
        ∧ Covers PAGE_SIZE (m'.iova % PAGE_SIZE) ((skip off sg).take (rdmaRwFrPageListLen qp))
          m'.pages ∧ m'.lkey = m.lkey) ∨ ¬ ((min sg.length (rdmaRwFrPageListLen qp) : ℕ) : ℤ) ≤
        (ibMapMrSg qp m (sg.take (min sg.length (rdmaRwFrPageListLen qp))) off).1 ∧
      ∃ m', rdmaRwInitOneMr qp (m :: pool) sg off = (.error .einval, m' :: pool) ∧
        m'.lkey = m.lkey := by
  have hmin : sg.take (min sg.length (rdmaRwFrPageListLen qp)) = sg.take (rdmaRwFrPageListLen qp) := by
    rcases Nat.le_total sg.length (rdmaRwFrPageListLen qp) with hle | hle
    · rw [Nat.min_eq_left hle, List.take_length, List.take_of_length_le hle]
    · rw [Nat.min_eq_right hle]
  have hlen : (sg.take (rdmaRwFrPageListLen qp)).length = min sg.length (rdmaRwFrPageListLen qp) := by
    rw [List.length_take, Nat.min_comm]
  unfold rdmaRwInitOneMr
  dsimp only
  rw [hmin]
  by_cases hall : ((min sg.length (rdmaRwFrPageListLen qp) : ℕ) : ℤ) ≤
      (ibMapMrSg qp m (sg.take (rdmaRwFrPageListLen qp)) off).1
  · left
    have hne' : sg.take (rdmaRwFrPageListLen qp) ≠ [] := by
      intro h0
      have : sg.length ≠ 0 := fun h => hne (List.length_eq_zero_iff.mp h)
      rw [h0, List.length_nil] at hlen
      omega
    obtain ⟨hmlen, hlt, hcov⟩ := ibMapMrSg_spec hne' (by rw [hlen]; exact Nat.min_le_right ..)
      (h.take _) (m := m) (by rw [hlen]; exact hall)
    rw [if_neg (by omega)]
    refine ⟨hall, (ibMapMrSg qp m (sg.take (rdmaRwFrPageListLen qp)) off).2, ?_, ?_, rfl⟩
    · rw [hmlen, toU_of_lt hlt, skip_take]
    · rw [skip_take]
      exact hcov
  · right
    rw [if_pos (by omega)]
    exact ⟨hall, _, rfl, rfl⟩

theorem foldl_put (reg : List Reg) : ∀ pool : List Mr,
    ((reg.foldl (fun pool r => r.mr :: pool) pool).map (·.lkey)).Perm
      (reg.map (·.mr.lkey) ++ pool.map (·.lkey)) := by
  induction reg with
  | nil => exact fun pool => List.Perm.refl _
  | cons r reg ih =>
    intro pool
    refine (ih (r.mr :: pool)).trans ?_
    exact List.perm_middle

/-- RUN: the regions transfer the elements; or the pool gets back what was taken. -/
theorem mrLoop_spec (hp : 0 < rdmaRwFrPageListLen qp) : ∀ (n : ℕ) (sg : List Seg) (off remote : ℕ)
    (reg : List Reg) (count : ℕ) (pool : List Mr), Rest off sg →
    sg.length ≤ n * rdmaRwFrPageListLen qp → (n - 1) * rdmaRwFrPageListLen qp < sg.length ∨ n = 0 →
    (Fits qp n sg off pool ∧ ∃ new pool', mrLoop qp rkey dir n sg off remote reg count pool =
        (.ok (count + (regWrs new).length, reg.reverse ++ new), pool') ∧ (∀ r ∈ new, RegOk r) ∧
      ∀ x, xfer (regWrs new) x =
        (byteAt (skip off sg) x).map fun b => (toU 64 (remote + x : ℕ), b)) ∨
    (¬ Fits qp n sg off pool ∧ ∃ e pool', mrLoop qp rkey dir n sg off remote reg count pool =
        (.error e, pool') ∧ (pool'.map (·.lkey)).Perm (reg.map (·.mr.lkey) ++ pool.map (·.lkey)))
  | 0, sg, off, remote, reg, count, pool, _, hlen, _ => by
    obtain rfl : sg = [] := List.length_eq_zero_iff.mp (by omega)
    exact .inl ⟨trivial, [], pool, by simp [mrLoop, regWrs], nofun, fun x => rfl⟩
  | n + 1, sg, off, remote, reg, count, [], h, hlen, hmore => by
    refine .inr ⟨id, .eagain, _, ?_, foldl_put reg []⟩
    simp only [mrLoop, rdmaRwInitOneMr]
  | n + 1, sg, off, remote, reg, count, m :: pool, h, hlen, hmore => by
    have hmore : n * rdmaRwFrPageListLen qp < sg.length := by simpa using hmore
    have hne : sg ≠ [] := by
      rintro rfl
      simp at hmore
    have hdrop : sg.drop (min sg.length (rdmaRwFrPageListLen qp)) =
        sg.drop (rdmaRwFrPageListLen qp) := by
      rcases Nat.le_total sg.length (rdmaRwFrPageListLen qp) with hle | hle
      · rw [Nat.min_eq_left hle, List.drop_length, List.drop_of_length_le hle]
      · rw [Nat.min_eq_right hle]
    rcases initOneMr_spec hp m pool hne h with
      ⟨hall, m', heq, hcov, hkey⟩ | ⟨hall, m', heq, hkey⟩
    · have hlt : total ((skip off sg).take (rdmaRwFrPageListLen qp)) < 2 ^ 64 := by
        have hle := total_le (l := (skip off sg).take (rdmaRwFrPageListLen qp)) fun s hs =>
          h.le s (List.mem_of_mem_take hs)
        have hcap := frPageListLen_le qp
        have := Nat.mul_le_mul_right (2 ^ 32 - 1)
          ((List.length_take_le (rdmaRwFrPageListLen qp) (skip off sg)).trans hcap)
        omega
      simp only [mrLoop, heq, hdrop]
      generalize hr : (⟨m', m'.needInval, ⟨m'.iova, total ((skip off sg).take
        (rdmaRwFrPageListLen qp)), .mr m'⟩, _, qp.iwarp⟩ : Reg) = r
      have hwr : r.wr.sgList = [⟨m'.iova, total ((skip off sg).take (rdmaRwFrPageListLen qp)),
          .mr m'⟩] ∧ r.wr.remoteAddr = remote ∧ r.mr = m' ∧ r.invNext = m'.needInval := by
        rw [← hr]
        exact ⟨rfl, rfl, rfl, rfl⟩
      obtain ⟨hsg, hremote, hmr, hinv⟩ := hwr
      rw [succ_mul] at hlen
      have hrec := mrLoop_spec hp n (sg.drop (rdmaRwFrPageListLen qp)) 0 (toU 64 (remote +
        total ((skip off sg).take (rdmaRwFrPageListLen qp)) : ℕ)) (r :: reg)
        (count + ((if m'.needInval then 1 else 0) + 1) + 1) pool (h.drop _)
        (by rw [List.length_drop]; omega) (by
          rw [List.length_drop]
          rcases n with _ | n
          · exact .inr rfl
          · left
            rw [succ_mul] at hmore
            rw [add_sub_cancel]
            omega)
      rcases hrec with ⟨hfit, new, pool', hloop, hok, hx⟩ | ⟨hfit, e, pool', hloop, hperm⟩
      · refine .inl ⟨⟨hall, hdrop ▸ hfit⟩, r :: new, pool', ?_, ?_, fun x => ?_⟩
        · rw [hloop]
          simp only [regWrs, List.flatMap_cons, Reg.wrs, hmr]
          cases m'.needInval <;> simp <;> omega
        · intro r' hr'
          rcases List.mem_cons.mp hr' with rfl | hr'
          · exact ⟨by rw [hinv, hmr], by rw [hsg]; rfl⟩
          · exact hok r' hr'
        · have hlen1 : sgLen r.wr.sgList =
              total ((skip off sg).take (rdmaRwFrPageListLen qp)) := by
            rw [hsg]
            simp [sgLen]
          rw [regWrs, List.flatMap_cons, xfer_reg, xfer, hlen1, hremote,
            byteAt_split (skip off sg) (rdmaRwFrPageListLen qp) x]
          by_cases hxt : x < total ((skip off sg).take (rdmaRwFrPageListLen qp))
          · rw [if_pos hxt, if_pos hxt, ← hcov.bytes x hxt, hsg]
            simp only [sgByte, if_pos hxt, Sge.byte, Nat.sub_self, add_zero]
          · rw [if_neg hxt, if_neg hxt, skip_drop off hp]
            refine (hx _).trans ?_
            rw [skip_zero]
            congr 1
            funext b
            rw [toU64_shift]
            congr 3
            omega
      · refine .inr ⟨fun hf => hfit (hdrop ▸ hf.2), e, pool', hloop, hperm.trans ?_⟩
        rw [map_cons, map_cons, hmr, hkey]
        exact List.perm_middle.symm
    · refine .inr ⟨fun hf => hall hf.1, .einval,
        reg.foldl (fun pool r => r.mr :: pool) (m' :: pool), by simp only [mrLoop, heq], ?_⟩
      refine (foldl_put reg (m' :: pool)).trans ?_
      rw [map_cons, map_cons, hkey]

/-- The chain that `rdma_rw_ctx_wrs` returns for regions. -/
theorem ctxWrs_mr {reg : List Reg} (h : ∀ r ∈ reg, RegOk r) :
    rdmaRwCtxWrs (.mr reg) = regWrs reg := by
  cases reg with
  | nil => rfl
  | cons r reg => rw [rdmaRwCtxWrs, (h r (List.mem_cons_self ..)).1, regWrs, List.flatMap_cons]

theorem regWrs_sges {reg : List Reg} (h : ∀ r ∈ reg, RegOk r) {wr : RdmaWr}
    (hwr : .rdma wr ∈ regWrs reg) : wr.sgList.length = 1 := by
  obtain ⟨r, hr, hmem⟩ := List.mem_flatMap.mp hwr
  unfold Reg.wrs at hmem
  have hwr : wr = r.wr := by
    cases hi : r.mr.needInval <;> simpa using hmem
  rw [hwr]
  exact (h r hr).2

end MrWrs

/-! ### The context -/

/-- A list as `dma_map_sg` and the caller leave it: mapped elements that are not empty, no more than
    there were before, in `u32` many; an offset into them; and limits that are not 0. -/
structure Valid (qp : Qp) (c : Call) : Prop where
  small : ∀ s ∈ c.sgl, Small PAGE_SIZE s
  offset : c.sgOffset < total c.sgl
  nents : c.sgl.length ≤ c.origNents
  origNents : c.origNents < 2 ^ 32
  writeSge : 0 < qp.maxWriteSge ∧ qp.maxWriteSge < 2 ^ 32
  readSge : 0 < qp.maxReadSge ∧ qp.maxReadSge < 2 ^ 32
  pageList : 0 < qp.maxFastRegPageListLen

/-- What a call should do: the chain transfers the list from the offset on, within the SGE limit, and is
    as long as the count returned; or the regions are back in the pool and the mapped list is unmapped. -/
structure Spec (qp : Qp) (c : Call) : Prop where
  success : ∀ n ctx, (rdmaRwCtxInit qp c).ret = .ok (n, ctx) → Exact c (rdmaRwCtxWrs ctx) ∧
    (∀ wr, .rdma wr ∈ rdmaRwCtxWrs ctx → wr.sgList.length ≤ maxSge qp c.dir) ∧
    n = (rdmaRwCtxWrs ctx).length
  failure : ∀ e, (rdmaRwCtxInit qp c).ret = .error e →
    ((rdmaRwCtxInit qp c).pool.map (·.lkey)).Perm (c.pool.map (·.lkey)) ∧
    (rdmaRwCtxInit qp c).unmapped = some c.mapped

/-- The elements from `sg_offset` on, and the offset into the first. -/
def Call.from (c : Call) : List Seg × ℕ := skipLoop c.sgl c.sgOffset

/-- The memory, the pool and the regions suffice for the form that is chosen. -/
def Succeeds (qp : Qp) (c : Call) : Prop :=
  let (sg, off) := c.from
  if rdmaRwIoNeedsMr qp c.dir sg.length then
    let nrOps := divRoundUp32 sg.length (rdmaRwFrPageListLen qp)
    kcalloc c.mem.1 nrOps sizeofRegCtx = true ∧ Fits qp nrOps sg off c.pool
  else 1 < sg.length → kcalloc c.mem.1 sg.length sizeofSge = true ∧
    kcalloc c.mem.2 (divRoundUp32 sg.length (maxSge qp c.dir)) sizeofRdmaWr = true

/-- The number of elements fits with the limit into a `u32`, and in the multi-WR form the bytes of all WRs
    but the last do. -/
def NoWrap (qp : Qp) (c : Call) : Prop :=
  let (sg, off) := c.from
  if rdmaRwIoNeedsMr qp c.dir sg.length then sg.length + rdmaRwFrPageListLen qp ≤ 2 ^ 32
  else 1 < sg.length → sg.length + maxSge qp c.dir ≤ 2 ^ 32 ∧
    total ((skip off sg).take ((divRoundUp sg.length (maxSge qp c.dir) - 1) * maxSge qp c.dir)) <
      2 ^ 32

/-- When the call does what it should. -/
structure Cond (qp : Qp) (c : Call) : Prop where
  wrap : Succeeds qp c → NoWrap qp c
  unmap : ¬ Succeeds qp c → qp.dmaMapSgtable = true ∨
    c.from.1 = c.sgl ∧ c.origNents = c.sgl.length

/-- The element that `sg_offset` falls into. -/
theorem skipLoop_spec : ∀ (sgl : List Seg) {off : ℕ}, off < total sgl → ∃ s rest off',
    skipLoop sgl off = (s :: rest, off') ∧ off' < s.len ∧ s :: rest <:+ sgl ∧
    ∀ x, byteAt sgl (off + x) = byteAt (skip off' (s :: rest)) x
  | [], off, h => absurd h (Nat.not_lt_zero _)
  | s :: sgl, off, h => by
    rcases Nat.lt_or_ge off s.len with hlt | hge
    · refine ⟨s, sgl, off, by rw [skipLoop, if_pos hlt], hlt, List.suffix_refl _, fun x => ?_⟩
      simp only [skip, byteAt]
      split
      · rw [if_pos (by omega)]
        congr 1
        omega
      · rw [if_neg (by omega), show off + x - s.len = x - (s.len - off) by omega]
    · obtain ⟨s', rest, off', heq, hoff, hsuf, hb⟩ := skipLoop_spec sgl
        (show off - s.len < total sgl by rw [total_cons] at h; omega)
      refine ⟨s', rest, off', ?_, hoff, hsuf.trans (List.suffix_cons ..), fun x => ?_⟩
      · rw [skipLoop, if_neg (by omega), heq]
      · rw [byteAt_of_le (by omega), ← hb x, show off + x - s.len = off - s.len + x by omega]

theorem divRoundUp32_of_le {n d : ℕ} (h : n + d ≤ 2 ^ 32) :
    divRoundUp32 n d = divRoundUp n d := by
  rw [divRoundUp32, divRoundUp, toU_of_lt (by omega)]

/-- A sum that wraps leaves no operations. -/
theorem divRoundUp32_wrap {n d : ℕ} (hn : n < 2 ^ 32) (hd : d < 2 ^ 32) (h : 2 ^ 32 < n + d) :
    divRoundUp32 n d = 0 := by
  have : toU 32 (n + d - 1 : ℕ) = n + d - 1 - 2 ^ 32 := by
    unfold toU
    omega
  rw [divRoundUp32, this, Nat.div_eq_of_lt (by omega)]

theorem le_divRoundUp_mul (n : ℕ) {d : ℕ} (hd : 0 < d) : n ≤ divRoundUp n d * d := by
  have h := Nat.lt_div_mul_add (a := n + d - 1) hd
  unfold divRoundUp
  omega

/-- All operations but the last are full, and something is left for the last. -/
theorem divRoundUp_pred_mul {n d : ℕ} (hd : 0 < d) (hn : 0 < n) :
    (divRoundUp n d - 1) * d < n := by
  have h := Nat.div_mul_le_self (n + d - 1) d
  unfold divRoundUp
  rw [Nat.sub_mul, Nat.one_mul]
  omega

section Init
variable {qp : Qp} {c : Call}

theorem Valid.maxSge_pos (h : Valid qp c) : 0 < maxSge qp c.dir ∧ maxSge qp c.dir < 2 ^ 32 := by
  unfold maxSge
  cases c.dir
  · exact h.writeSge
  · exact h.readSge

theorem Valid.page_list_pos (h : Valid qp c) : 0 < rdmaRwFrPageListLen qp :=
  Nat.lt_min.mpr ⟨h.pageList, by decide⟩

/-- The elements that are transferred. -/
theorem Valid.from (h : Valid qp c) : ∃ s rest off, c.from = (s :: rest, off) ∧ Rest off (s :: rest) ∧
    s :: rest <:+ c.sgl ∧ (s :: rest).length < 2 ^ 32 ∧ ∀ chain, Exact c chain ↔ ∀ x, xfer chain x =
      (byteAt (skip off (s :: rest)) x).map fun b => (toU 64 (c.remoteAddr + x : ℕ), b) := by
  obtain ⟨s, rest, off, heq, hoff, hsuf, hb⟩ := skipLoop_spec _ h.offset
  refine ⟨s, rest, off, heq, ⟨fun t ht => h.small t (hsuf.subset ht), ?_⟩, hsuf, ?_, fun chain => ?_⟩
  · rintro t ⟨⟩
    exact hoff
  · exact lt_of_le_of_lt hsuf.length_le (lt_of_le_of_lt h.nents h.origNents)
  · unfold Exact
    exact forall_congr' fun x => by rw [hb x]

/-- An empty chain transfers nothing of a list that is not empty. -/
theorem not_exact_nil {s : Seg} {rest : List Seg} {off remote : ℕ} (h : Rest off (s :: rest)) :
    ¬ ∀ x, xfer [] x =
      (byteAt (skip off (s :: rest)) x).map fun b => (toU 64 (remote + x : ℕ), b) := by
  intro hx
  have hoff := h.head s rfl
  have h0 := hx 0
  rw [skip, byteAt_of_lt (by dsimp only; omega)] at h0
  cases h0

/-- How a call ends: with a context whose chain is right exactly if nothing wraps; or with the pool as
    it was and a list unmapped. -/
def Settled (qp : Qp) (c : Call) : Prop :=
  (Succeeds qp c ∧ ∃ n ctx pool, rdmaRwCtxInit qp c = ⟨.ok (n, ctx), pool, none⟩ ∧
    (NoWrap qp c → Exact c (rdmaRwCtxWrs ctx) ∧
      (∀ wr, .rdma wr ∈ rdmaRwCtxWrs ctx → wr.sgList.length ≤ maxSge qp c.dir) ∧
      n = (rdmaRwCtxWrs ctx).length) ∧ (¬ NoWrap qp c → ¬ Exact c (rdmaRwCtxWrs ctx))) ∨
  (¬ Succeeds qp c ∧ ∃ e pool, rdmaRwCtxInit qp c = ⟨.error e, pool, some (unmapSg qp c c.from.1)⟩ ∧
    (pool.map (·.lkey)).Perm (c.pool.map (·.lkey)))

section
variable (h : Valid qp c)
include h

/-- The form that registers memory. -/
theorem settled_mr (hmr : rdmaRwIoNeedsMr qp c.dir c.from.1.length = true) : Settled qp c := by
  obtain ⟨s, rest, off, hfrom, hrest, -, hlen, hexact⟩ := h.from
  have hp := h.page_list_pos
  have hsge := h.maxSge_pos
  have hcap := frPageListLen_le qp
  have hskip : skipLoop c.sgl c.sgOffset = (s :: rest, off) := hfrom
  rw [hfrom] at hmr
  unfold Settled Succeeds NoWrap
  simp only [hfrom, hmr, if_true, rdmaRwCtxInit, hskip, rdmaRwInitMrWrs]
  cases hmem : kcalloc c.mem.1 (divRoundUp32 (s :: rest).length (rdmaRwFrPageListLen qp))
      sizeofRegCtx with
  | false => exact .inr ⟨fun hs => Bool.noConfusion hs.1, .enomem, c.pool, rfl, List.Perm.refl _⟩
  | true =>
    simp only [Bool.not_true, Bool.false_eq_true, if_false, true_and]
    rcases Nat.lt_or_ge (2 ^ 32) ((s :: rest).length + rdmaRwFrPageListLen qp) with hwrap | hle
    · -- the number of operations is 0
      rw [divRoundUp32_wrap hlen (by omega) hwrap]
      refine .inl ⟨trivial, 0, .mr [], c.pool, rfl, fun hno => absurd hno (by omega), fun _ hx => ?_⟩
      exact not_exact_nil hrest ((hexact _).mp hx)
    · rw [divRoundUp32_of_le hle]
      rcases @mrLoop_spec qp c.rkey c.dir hp _ (s :: rest) off c.remoteAddr [] 0
          c.pool hrest (le_divRoundUp_mul _ hp) (.inl (divRoundUp_pred_mul hp (Nat.succ_pos _))) with
        ⟨hfit, new, pool', heq, hok, hx⟩ | ⟨hfit, e, pool', heq, hperm⟩
      · refine .inl ⟨hfit, (regWrs new).length, .mr new, pool', ?_, fun _ => ⟨?_, ?_, ?_⟩,
          fun hno => absurd hle hno⟩
        · rw [heq, zero_add, List.reverse_nil, List.nil_append]
        · rw [ctxWrs_mr hok]
          exact (hexact _).mpr hx
        · intro wr hwr
          rw [ctxWrs_mr hok] at hwr
          rw [regWrs_sges hok hwr]
          exact hsge.1
        · rw [ctxWrs_mr hok]
      · refine .inr ⟨hfit, e, pool', by rw [heq], ?_⟩
        simpa using hperm

/-- The multi-WR form. -/
theorem settled_map (hmr : rdmaRwIoNeedsMr qp c.dir c.from.1.length = false)
    (hmany : 1 < c.from.1.length) : Settled qp c := by
  obtain ⟨s, rest, off, hfrom, hrest, -, hlen, hexact⟩ := h.from
  obtain ⟨hsge, hsge'⟩ := h.maxSge_pos
  have hskip : skipLoop c.sgl c.sgOffset = (s :: rest, off) := hfrom
  rw [hfrom] at hmr hmany
  have hne : rest ≠ [] := by
    rintro rfl
    simp at hmany
  unfold Settled Succeeds NoWrap
  simp only [hfrom, hmr, hmany, forall_const, rdmaRwCtxInit, hskip, if_pos hne, rdmaRwInitMapWrs]
  cases hmem : kcalloc c.mem.1 (s :: rest).length sizeofSge with
  | false => exact .inr ⟨fun hs => Bool.noConfusion hs.1, .enomem, c.pool, rfl, List.Perm.refl _⟩
  | true =>
    cases hmem' : kcalloc c.mem.2 (divRoundUp32 (s :: rest).length (maxSge qp c.dir))
        sizeofRdmaWr with
    | false => exact .inr ⟨fun hs => Bool.noConfusion hs.2, .enomem, c.pool, rfl, List.Perm.refl _⟩
    | true =>
      refine .inl ⟨⟨rfl, rfl⟩, divRoundUp32 (s :: rest).length (maxSge qp c.dir), .map _, c.pool, rfl,
        fun ⟨hle, hsum⟩ => ?_, fun hno => ?_⟩
      · rw [divRoundUp32_of_le hle, rdmaRwCtxWrs]
        obtain ⟨hl, hw⟩ := mapLoop_sges (maxSge qp c.dir) c.rkey c.dir
          c.remoteAddr (divRoundUp (s :: rest).length (maxSge qp c.dir)) (s :: rest) off 0 hrest
          (by decide)
        refine ⟨(hexact _).mpr fun x => ?_, fun wr hwr => ?_, by rw [List.length_map, hl]⟩
        · rw [mapLoop_exact _ _ _ hsge _ _ _ _ _ hrest (by decide) (le_divRoundUp_mul _ hsge)
            (by rw [zero_add]; exact hsum)]
          simp only [zero_add]
        · obtain ⟨wr', hwr', heq⟩ := List.mem_map.mp hwr
          cases heq
          exact hw _ hwr'
      · intro hx
        have hx := (hexact _).mp hx
        rcases Nat.lt_or_ge (2 ^ 32) ((s :: rest).length + maxSge qp c.dir) with hwrap | hle
        · rw [divRoundUp32_wrap hlen hsge' hwrap] at hx
          exact not_exact_nil hrest hx
        · rw [divRoundUp32_of_le hle] at hx
          obtain ⟨x, b, r, hxr, hr⟩ := mapLoop_wrong (maxSge qp c.dir) c.rkey c.dir hsge hsge'
            c.remoteAddr (divRoundUp (s :: rest).length (maxSge qp c.dir)) (s :: rest) off 0 hrest
            (by decide) (divRoundUp_pred_mul hsge (Nat.succ_pos _))
            (by rw [zero_add]; exact Nat.not_lt.mp fun hsum => hno ⟨hle, hsum⟩)
          have hb := hx x
          rw [rdmaRwCtxWrs, hxr] at hb
          obtain ⟨b', -, hb'⟩ := Option.map_eq_some_iff.mp hb.symm
          rw [zero_add] at hr
          exact hr (Prod.mk.inj hb').1.symm

/-- The single-WR form. -/
theorem settled_single (hmr : rdmaRwIoNeedsMr qp c.dir c.from.1.length = false)
    (hone : ¬ 1 < c.from.1.length) : Settled qp c := by
  obtain ⟨s, rest, off, hfrom, hrest, -, hlen, hexact⟩ := h.from
  have hsge := h.maxSge_pos
  have hskip : skipLoop c.sgl c.sgOffset = (s :: rest, off) := hfrom
  rw [hfrom] at hmr hone
  obtain rfl : rest = [] := List.length_eq_zero_iff.mp (by simpa using hone)
  have hs := hrest.small s (List.mem_cons_self ..)
  have hoff := hrest.head s rfl
  have hlen32 := hs.len
  have hend := hs.end_lt (by decide)
  unfold Settled Succeeds NoWrap
  simp only [hfrom, hmr, Bool.false_eq_true, if_false, hone, IsEmpty.forall_iff, rdmaRwCtxInit, hskip,
    not_true_eq_false]
  refine .inl ⟨trivial, 1, _, c.pool, rfl, fun _ => ⟨(hexact _).mpr fun x => ?_, ?_, rfl⟩, trivial⟩
  · have hsg : (rdmaRwInitSingleWr s off c.remoteAddr c.rkey c.dir).sgList =
        localSges (skip off [s]) := by
      have haddr : toU 64 (s.addr + off : ℕ) = s.addr + off := toU_of_lt (by omega)
      have hdlen : toU 32 ((s.len : ℤ) - off) = s.len - off := toU_sub hlen32 hoff.le
      simp only [rdmaRwInitSingleWr, haddr, hdlen, skip, localSges, map_cons, List.map_nil]
    rw [rdmaRwCtxWrs, xfer, hsg, sgLen_local, sgByte_local]
    split
    · rfl
    · rename_i hx
      simp only [skip, total_cons] at hx
      rw [skip, byteAt_of_le (by dsimp only; omega)]
      rfl
  · intro wr hwr
    cases List.mem_singleton.mp hwr
    exact hsge.1

theorem settled : Settled qp c := by
  cases hmr : rdmaRwIoNeedsMr qp c.dir c.from.1.length with
  | true => exact settled_mr h hmr
  | false =>
    by_cases hone : 1 < c.from.1.length
    · exact settled_map h hmr hone
    · exact settled_single h hmr hone

/-- What is unmapped on failure. -/
theorem unmapSg_iff : unmapSg qp c c.from.1 = c.mapped ↔
    qp.dmaMapSgtable = true ∨ c.from.1 = c.sgl ∧ c.origNents = c.sgl.length := by
  obtain ⟨s, rest, off, hfrom, -, hsuf, -, -⟩ := h.from
  have hle := hsuf.length_le
  rw [hfrom]
  unfold unmapSg Call.mapped
  cases qp.dmaMapSgtable with
  | true => simp
  | false =>
    simp only [Bool.false_eq_true, if_false, Prod.mk.injEq, false_or]
    constructor
    · rintro ⟨h0, hn⟩
      exact ⟨hsuf.eq_of_length (by omega), by omega⟩
    · rintro ⟨heq, hn⟩
      rw [heq, hn]
      exact ⟨Nat.sub_self _, rfl⟩

theorem spec_iff : Spec qp c ↔ Cond qp c := by
  rcases settled h with ⟨hs, n, ctx, pool, heq, hgood, hbad⟩ | ⟨hs, e, pool, heq, hperm⟩
  · constructor
    · intro hspec
      refine ⟨fun _ => ?_, fun hno => absurd hs hno⟩
      by_contra hwrap
      exact hbad hwrap (hspec.success n ctx (by rw [heq])).1
    · intro hc
      refine ⟨fun n' ctx' hret => ?_, fun e hret => ?_⟩
      · rw [heq] at hret
        cases hret
        exact hgood (hc.wrap hs)
      · rw [heq] at hret
        cases hret
  · constructor
    · intro hspec
      refine ⟨fun hyes => absurd hyes hs, fun _ => ?_⟩
      have hun := (hspec.failure e (by rw [heq])).2
      rw [heq] at hun
      exact (unmapSg_iff h).mp (Option.some.inj hun)
    · intro hc
      refine ⟨fun n ctx hret => ?_, fun e' hret => ?_⟩
      · rw [heq] at hret
        cases hret
      · rw [heq]
        exact ⟨hperm, congrArg some ((unmapSg_iff h).mpr (hc.unmap hs))⟩

end

/-- CORRECT: a call does what it should exactly if no 32-bit sum wraps when it succeeds, and, when it
    fails, the build unmaps the list it mapped or no element was skipped or merged. -/
theorem rdma_rw_ctx_init (h : Valid qp c) : Spec qp c ↔ Cond qp c := spec_iff h

end Init

/-- A QP with one SGE for a READ, on a device without need for memory regions. -/
def demoQp (dmaMapSgtable : Bool) : Qp := ⟨false, false, 0, 64, false, 8, 1, dmaMapSgtable⟩

/-- A READ into three pages, from 100 bytes on. -/
def demoCall : Call :=
  ⟨[⟨0x1000, 4096⟩, ⟨0x5000, 4096⟩, ⟨0x9000, 512⟩], 3, 100, 0x20000, 7, .fromDevice, [], (true, true)⟩

theorem rdma_rw_ctx_init_demo : Spec (demoQp true) demoCall ↔ Cond (demoQp true) demoCall :=
  rdma_rw_ctx_init
    { small := by
        intro s hs
        simp only [demoCall, List.mem_cons, List.not_mem_nil, or_false] at hs
        rcases hs with rfl | rfl | rfl <;> exact ⟨by decide, by decide, by decide⟩
      offset := by decide
      nents := by decide
      origNents := by decide
      writeSge := by decide
      readSge := by decide
      pageList := by decide }

/-- Three elements of almost 4 GiB. -/
def largeCall : Call :=
  ⟨[⟨0x100000000, 0xfffff000⟩, ⟨0x300000000, 0xfffff000⟩, ⟨0x500000000, 4096⟩], 3, 0, 0, 7,
    .fromDevice, [], (true, true)⟩

/-- The third READ goes to remote address `0xffffe000` and not to `0x1ffffe000`; and a call that skips an
    element and then finds no memory unmaps the list without it. -/
theorem rdma_rw_ctx_init_broken : ¬ Spec (demoQp true) largeCall ∧
    ¬ Spec (demoQp false) { demoCall with sgOffset := 4096, mem := (false, true) } := by
  constructor
  · intro h
    have hx := (h.success 3 _ rfl).1 0x1ffffe000
    exact absurd hx (by decide +kernel)
  · intro h
    have hun := (h.failure .enomem rfl).2
    exact absurd hun (by decide +kernel)

end RdmaDriver.RdmaRw
