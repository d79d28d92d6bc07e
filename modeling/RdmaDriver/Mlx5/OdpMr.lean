import RdmaDriver.Mlx5.UpdateXlt
import RdmaDriver.Schemes.Run
import RdmaDriver.Schemes.Tally

/-! @src drivers/infiniband/hw/mlx5/odp.c, core/umem_odp.c | name:ODP memory region | scheme:run |
    family:page-table

    The pages of an on-demand memory region are DMA mapped when a page fault or a prefetch asks for
    them and unmapped when the notifier invalidates their addresses. `dma_list` has for each page the
    DMA address and two permission bits; the device has a table of its own (MTT), which UMRs copy from
    `dma_list` and zap.

        fault       hmm_range_fault -> dma_list[i] -> MTT[i]
        invalidate  MTT[i] := 0 -> unmap, set_page_dirty if writable -> dma_list[i] := 0

    `umem_mutex` is held over each of the two, so each is one step; a fault that sees an invalidation
    between hmm_range_fault and the mutex starts again. This is the HMM variant, the region is explicit
    and UMR posts succeed. The statistics and the ENABLE flag, which changes no entry, are left out. -/

namespace RdmaDriver.OdpMr
open Schemes UpdateXlt Function
open BitVec (allOnes and_allOnes and_or_distrib_left zero_and)

def ODP_READ_ALLOWED_BIT : BitVec 64 := 1#64
def ODP_WRITE_ALLOWED_BIT : BitVec 64 := 2#64
def ODP_DMA_ADDR_MASK : BitVec 64 := ~~~(ODP_READ_ALLOWED_BIT ||| ODP_WRITE_ALLOWED_BIT)
def MLX5_IB_MTT_READ : BitVec 64 := 1#64
def MLX5_IB_MTT_WRITE : BitVec 64 := 2#64
def MLX5_UMR_MTT_NUM_ENTRIES_ALIGNMENT : ℕ := MLX5_UMR_FLEX_ALIGNMENT / 8

/-- An address that `ib_dma_map_page` returns for a whole page. -/
abbrev DmaAddr := { a : BitVec 64 // a &&& ~~~ODP_DMA_ADDR_MASK = 0#64 }

/-- What `hmm_range_fault` reports for a page frame: `HMM_PFN_VALID`, `HMM_PFN_WRITE`, the map order
    and the page. -/
structure Pfn where
  valid : Bool
  write : Bool
  order : ℕ
  page : ℕ
  deriving DecidableEq

/-- The fixed part of `struct ib_umem_odp`; `kvcalloc` serves no array over `INT_MAX` bytes. -/
structure Umem where
  start : ℕ
  stop : ℕ
  pageShift : ℕ
  writable : Bool
  shiftLe : PAGE_SHIFT ≤ pageShift
  startDvd : 2 ^ pageShift ∣ start
  stopDvd : 2 ^ pageShift ∣ stop
  startLt : start < stop
  stopLt : stop < 2 ^ 64
  fits : (stop - start) / PAGE_SIZE * 8 ≤ 2 ^ 31 - 1

namespace Umem
variable (u : Umem)

def pageSize : ℕ := 2 ^ u.pageShift

/-- `ib_umem_odp_num_pages`. -/
def numPages : ℕ := (u.stop - u.start) / u.pageSize

/-- The page of an address. -/
def idx (addr : ℕ) : ℕ := (addr - u.start) / u.pageSize

/-- The page frame of an address. -/
def pfnIdx (addr : ℕ) : ℕ := (addr - u.start) / PAGE_SIZE

/-- The address of a page. -/
def addr (i : ℕ) : ℕ := u.start + i * u.pageSize

end Umem

/-- History of an unmapped page: which page was mapped, whether the device could write it at some time
    since, and what was marked dirty. -/
structure Unmapped where
  page : ℕ
  written : Bool
  dirtied : Option ℕ
  deriving DecidableEq

/-- The changing part of `struct ib_umem_odp`, the device's table, and the DMA mappings that are alive.
    The last three fields are history, which the code does not keep: the page mapped at each index,
    whether the table has let the device write it since, and the pages unmapped so far. -/
structure Odp where
  dmaList : ℕ → BitVec 64
  pfnList : ℕ → Pfn
  npages : ℤ
  mtt : ℕ → BitVec 64
  live : List (BitVec 64)
  page : ℕ → ℕ
  written : ℕ → Bool
  log : List Unmapped

/-- After `ib_umem_odp_get`: nothing is mapped. -/
def Odp.init : Odp :=
  ⟨fun _ => 0#64, fun _ => ⟨false, false, 0, 0⟩, 0, fun _ => 0#64, [], fun _ => 0, fun _ => false, []⟩

/-! ### Code -/

/-- `umem_dma_to_mtt`. -/
def umemDmaToMtt (umemDma : BitVec 64) : BitVec 64 :=
  let mttEntry := umemDma &&& ODP_DMA_ADDR_MASK
  let mttEntry := if umemDma &&& ODP_READ_ALLOWED_BIT ≠ 0 then mttEntry ||| MLX5_IB_MTT_READ
    else mttEntry
  if umemDma &&& ODP_WRITE_ALLOWED_BIT ≠ 0 then mttEntry ||| MLX5_IB_MTT_WRITE else mttEntry

/-- `populate_mtt`. -/
def populateMtt (dmaList : ℕ → BitVec 64) (zap : Bool) (idx nentries : ℕ) (pas : ℕ → BitVec 64)
    (i : ℕ) : BitVec 64 :=
  if zap = false ∧ i < nentries then umemDmaToMtt (dmaList (idx + i)) else pas i

/-- `mlx5r_umr_update_xlt` for the region; the history notes what the device may write from now on. -/
def updateXlt (u : Umem) (zap : Bool) (a : Alloc) (idx npages : ℕ) (s : Odp) :
    Except Errno Unit × Odp :=
  let (ret, mtt) := mlx5rUmrUpdateXlt 8 (populateMtt s.dmaList zap) 0#64 (some u.numPages) a idx
    npages s.mtt
  (ret, { s with mtt, written := fun i => s.written i || mtt i &&& MLX5_IB_MTT_WRITE ≠ 0 })

/-- `ib_umem_odp_map_dma_single_page`; `dma` is the answer of `ib_dma_map_page`. -/
def ibUmemOdpMapDmaSinglePage (s : Odp) (dmaIndex page : ℕ) (accessMask : BitVec 64)
    (dma : Option DmaAddr) : Except Errno Unit × Odp :=
  if s.dmaList dmaIndex ≠ 0 then
    -- resync the flags
    let dmaAddr := s.dmaList dmaIndex &&& ODP_DMA_ADDR_MASK ||| accessMask
    (.ok (), { s with dmaList := update s.dmaList dmaIndex dmaAddr })
  else match dma with
    | none => (.error .efault, { s with dmaList := update s.dmaList dmaIndex 0#64 })
    | some a => (.ok (), { s with
        npages := s.npages + 1
        dmaList := update s.dmaList dmaIndex (a.1 ||| accessMask)
        live := a.1 :: s.live
        page := update s.page dmaIndex page
        written := update s.written dmaIndex false })

/-- The access bits of a page: those asked for, or in a snapshot those of the process. -/
def accessMask (fault : Bool) (accessMask : BitVec 64) (pfn : Pfn) : BitVec 64 :=
  if fault then accessMask
  else if pfn.write then ODP_READ_ALLOWED_BIT ||| ODP_WRITE_ALLOWED_BIT else ODP_READ_ALLOWED_BIT

/-- The loop of `ib_umem_odp_map_dma_and_lock` over the pages; `hmm_pfns` is `range.hmm_pfns`, `dma`
    has the answers of `ib_dma_map_page`. -/
def mapLoop (u : Umem) (fault : Bool) (hmmPfns : ℕ → Pfn) (dma : ℕ → Option DmaAddr) :
    ℕ → ℕ → ℕ → BitVec 64 → Odp → Except Errno ℕ × Odp
  | 0, _, dmaIndex, _, s => (.ok dmaIndex, s)
  | n + 1, pfnIndex, dmaIndex, am, s =>
    let pfn := hmmPfns pfnIndex
    let pfnIndex := pfnIndex + 2 ^ (u.pageShift - PAGE_SHIFT)
    if fault = false ∧ pfn.valid = false then
      mapLoop u fault hmmPfns dma n pfnIndex (dmaIndex + 1) am s
    else
      let am := accessMask fault am pfn
      if pfn.order + PAGE_SHIFT < u.pageShift then (.error .einval, s)
      else match ibUmemOdpMapDmaSinglePage s dmaIndex pfn.page am (dma dmaIndex) with
        | (.error e, s) => (.error e, s)
        | (.ok (), s) => mapLoop u fault hmmPfns dma n pfnIndex (dmaIndex + 1) am s

/-- What a fault meets: whether the process lives, what `hmm_range_fault` returns and leaves in
    `pfn_list`, the answers of `ib_dma_map_page`, and the buffer of the UMR. -/
structure Env where
  mmAlive : Bool
  hmm : Option Errno
  pfns : ℕ → Pfn
  dma : ℕ → Option DmaAddr
  xlt : Alloc

/-- `range.start`. -/
def rangeStart (u : Umem) (userVirt : ℕ) : ℕ := userVirt - userVirt % u.pageSize

/-- `range.end`; the sum is one of `u64`. -/
def rangeEnd (u : Umem) (userVirt bcnt : ℕ) : ℕ := align (toU 64 (userVirt + bcnt : ℕ)) u.pageSize

/-- `ib_umem_odp_map_dma_and_lock`. -/
def ibUmemOdpMapDmaAndLock (u : Umem) (s : Odp) (userVirt bcnt : ℕ) (accessMask : BitVec 64)
    (fault : Bool) (env : Env) : Except Errno ℕ × Odp :=
  if accessMask = 0 then (.error .einval, s)
  else if userVirt < u.start ∨ u.stop < toU 64 (userVirt + bcnt : ℕ) then (.error .efault, s)
  else if env.mmAlive = false then (.error .einval, s)
  else
    let rangeStart := rangeStart u userVirt
    let rangeEnd := rangeEnd u userVirt bcnt
    let pfnStartIdx := u.pfnIdx rangeStart
    let numPfns := toU 64 ((rangeEnd : ℤ) - rangeStart) / PAGE_SIZE
    let walked := pfnStartIdx + (rangeEnd - rangeStart) / PAGE_SIZE
    let s := { s with pfnList := fun i =>
      if pfnStartIdx ≤ i ∧ i < walked then env.pfns i else s.pfnList i }
    match env.hmm with
    | some e => (.error e, s)
    | none =>
      let startIdx := u.idx rangeStart
      let hmmPfns := fun i => s.pfnList (pfnStartIdx + i)
      let step := 2 ^ (u.pageShift - PAGE_SHIFT)
      match mapLoop u fault hmmPfns env.dma (divRoundUp numPfns step) 0 startIdx accessMask s with
      | (.error e, s) => (.error e, s)
      | (.ok dmaIndex, s) => (.ok (dmaIndex - startIdx), s)

/-- The flags of a page fault: `MLX5_PF_FLAGS_DOWNGRADE` and `MLX5_PF_FLAGS_SNAPSHOT`. A fault and a
    prefetch for writing have none of them. -/
structure PfFlags where
  downgrade : Bool
  snapshot : Bool
  deriving DecidableEq

/-- The access that a fault asks for. -/
def PfFlags.mask (u : Umem) (flags : PfFlags) : BitVec 64 :=
  if u.writable ∧ ¬ flags.downgrade then ODP_READ_ALLOWED_BIT ||| ODP_WRITE_ALLOWED_BIT
  else ODP_READ_ALLOWED_BIT

/-- `pagefault_real_mr`: the pages mapped, in units of `PAGE_SIZE`, and what is added to
    `bytes_mapped`. -/
def pagefaultRealMr (u : Umem) (s : Odp) (userVa bcnt : ℕ) (flags : PfFlags) (env : Env) :
    Except Errno (ℕ × ℕ) × Odp :=
  let startIdx := u.idx userVa
  let accessMask := flags.mask u
  match ibUmemOdpMapDmaAndLock u s userVa bcnt accessMask (!flags.snapshot) env with
  | (.error e, s) => (.error e, s)
  | (.ok np, s) =>
    match updateXlt u false env.xlt startIdx np s with
    | (.error e, s) => (.error e, s)
    | (.ok (), s) =>
      let newMappings := toU 32 ((np * u.pageSize : ℕ) - (userVa % u.pageSize : ℕ))
      (.ok (np * 2 ^ (u.pageShift - PAGE_SHIFT), min newMappings (toU 32 bcnt)), s)

/-- The first loop of `mlx5_ib_invalidate_range`: `idx` is that of the page before `addr`, `blk` the
    start of the open block. -/
def zapLoop (u : Umem) (xlt : ℕ → Alloc) : ℕ → ℕ → ℕ → Option ℕ → Odp → Odp
  | 0, _, _, none, s => s
  | 0, _, idx, some blkStartIdx, s =>
    (updateXlt u true (xlt blkStartIdx) blkStartIdx (idx - blkStartIdx + 1) s).2
  | n + 1, addr, _, blk, s =>
    let idx := u.idx addr
    if s.dmaList idx &&& (ODP_READ_ALLOWED_BIT ||| ODP_WRITE_ALLOWED_BIT) ≠ 0 then
      zapLoop u xlt n (addr + u.pageSize) idx (some (blk.getD idx)) s
    else match blk with
      | some blkStartIdx =>
        if idx % MLX5_UMR_MTT_NUM_ENTRIES_ALIGNMENT = 0 then
          zapLoop u xlt n (addr + u.pageSize) idx none
            (updateXlt u true (xlt blkStartIdx) blkStartIdx (idx - blkStartIdx) s).2
        else zapLoop u xlt n (addr + u.pageSize) idx blk s
      | none => zapLoop u xlt n (addr + u.pageSize) idx none s

/-- The number of rounds of a loop from `start` to `stop` in steps of a page. -/
def rounds (u : Umem) (start stop : ℕ) : ℕ := divRoundUp (stop - start) u.pageSize

section Unmap
variable (compoundHead : ℕ → ℕ)

/-- One round of `ib_umem_odp_unmap_dma_pages`. -/
def unmapPage (u : Umem) (addr : ℕ) (s : Odp) : Odp :=
  let idx := u.idx addr
  let dma := s.dmaList idx
  if dma ≠ 0 then
    let page := (s.pfnList (u.pfnIdx addr)).page
    let dirtied := if dma &&& ODP_WRITE_ALLOWED_BIT ≠ 0 then some (compoundHead page) else none
    { s with
      live := s.live.erase (dma &&& ODP_DMA_ADDR_MASK)
      dmaList := update s.dmaList idx 0#64
      npages := s.npages - 1
      log := ⟨s.page idx, s.written idx, dirtied⟩ :: s.log }
  else s

/-- `ib_umem_odp_unmap_dma_pages`. -/
def unmapLoop (u : Umem) : ℕ → ℕ → Odp → Odp
  | 0, _, s => s
  | n + 1, addr, s => unmapLoop u n (addr + u.pageSize) (unmapPage compoundHead u addr s)

def ibUmemOdpUnmapDmaPages (u : Umem) (virt bound : ℕ) (s : Odp) : Odp :=
  let virt := max virt u.start
  let bound := min bound u.stop
  unmapLoop compoundHead u (rounds u virt bound) virt s

/-- Iteration one of `mlx5_ib_invalidate_range`: zap the hardware's entries. -/
def zapRange (u : Umem) (start stop : ℕ) (xlt : ℕ → Alloc) (s : Odp) : Odp :=
  if s.npages = 0 then s
  else
    let start := max u.start start
    let stop := min u.stop stop
    zapLoop u xlt (rounds u start stop) start 0 none s

/-- `mlx5_ib_invalidate_range`; `xlt` has the buffer of the UMR of each block. -/
def mlx5IbInvalidateRange (u : Umem) (start stop : ℕ) (xlt : ℕ → Alloc) (s : Odp) : Odp :=
  if s.npages = 0 then s
  else ibUmemOdpUnmapDmaPages compoundHead u (max u.start start) (min u.stop stop)
    (zapRange u start stop xlt s)

end Unmap

/-! ### Runs and what holds of them -/

/-- A fault or prefetch, or a notifier invalidation. -/
inductive Op where
  | fault (userVa bcnt : ℕ) (flags : PfFlags) (env : Env)
  | invalidate (start stop : ℕ) (xlt : ℕ → Alloc)

def step (compoundHead : ℕ → ℕ) (u : Umem) (s : Odp) : Op → Odp
  | .fault userVa bcnt flags env => (pagefaultRealMr u s userVa bcnt flags env).2
  | .invalidate start stop xlt => mlx5IbInvalidateRange compoundHead u start stop xlt s

/-- The request passes the checks of `ib_umem_odp_map_dma_and_lock`. -/
def Admitted (u : Umem) (userVa bcnt : ℕ) (env : Env) : Prop :=
  u.start ≤ userVa ∧ toU 64 (userVa + bcnt : ℕ) ≤ u.stop ∧ env.mmAlive = true

/-- The pages of the request. -/
def Covers (u : Umem) (userVa bcnt i : ℕ) : Prop :=
  u.idx userVa ≤ i ∧
    i < u.idx userVa + (rangeEnd u userVa bcnt - rangeStart u userVa) / u.pageSize

/-- The page frame where a page begins. -/
def Umem.frame (u : Umem) (i : ℕ) : ℕ := i * 2 ^ (u.pageShift - PAGE_SHIFT)

/-- What the other side promises: the buffer of a UMR is mapped; `hmm_range_fault` accepts no empty
    range and reports for a page that is mapped the page it reported then, since there was no
    invalidation; the bounds of an invalidation are multiples of the page size. -/
def ok (u : Umem) (s : Odp) : Op → Prop
  | .fault userVa bcnt _ env => env.xlt.dmaMap = true ∧ (Admitted u userVa bcnt env →
      (env.hmm = none → rangeStart u userVa < rangeEnd u userVa bcnt) ∧
      ∀ i < u.numPages, Covers u userVa bcnt i → s.dmaList i ≠ 0 →
        (env.pfns (u.frame i)).valid = true ∧ (env.pfns (u.frame i)).page = s.page i)
  | .invalidate start stop xlt =>
    u.pageSize ∣ start ∧ u.pageSize ∣ stop ∧ ∀ b, (xlt b).dmaMap = true

/-- The loop does something for a page, which a snapshot does not where the process has none. -/
def Touches (fault : Bool) (pfn : Pfn) : Prop := fault = true ∨ pfn.valid = true

/-- Where the loop breaks: the page frame is smaller than a page, or `ib_dma_map_page` fails. -/
def Fails (u : Umem) (fault : Bool) (pf : ℕ → Pfn) (dma : ℕ → Option DmaAddr) (s : Odp) (k : ℕ) :
    Prop :=
  Touches fault (pf k) ∧
    ((pf k).order + PAGE_SHIFT < u.pageShift ∨ s.dmaList k = 0 ∧ dma k = none)

/-- The loop that starts at page `j` gets to page `i` and maps it. -/
def Done (u : Umem) (fault : Bool) (pf : ℕ → Pfn) (dma : ℕ → Option DmaAddr) (s : Odp) (j i : ℕ) :
    Prop :=
  Touches fault (pf i) ∧ j ≤ i ∧ ∀ k, j ≤ k → k ≤ i → ¬ Fails u fault pf dma s k

/-- When a fault does what it should: it does not take the write permission from a page that the device
    could write, and where it fails at some page, it has not changed the permissions of a page before
    that the device has in its table. -/
structure Keeps (u : Umem) (s : Odp) (userVa bcnt : ℕ) (flags : PfFlags) (env : Env) : Prop where
  write : ∀ i < u.numPages, Covers u userVa bcnt i →
    Done u (!flags.snapshot) (fun i => env.pfns (u.frame i)) env.dma s (u.idx userVa) i →
    s.dmaList i ≠ 0 → s.written i = true →
    accessMask (!flags.snapshot) (flags.mask u) (env.pfns (u.frame i)) &&& ODP_WRITE_ALLOWED_BIT ≠ 0
  flags : (∃ k < u.numPages, Covers u userVa bcnt k ∧
      Fails u (!flags.snapshot) (fun i => env.pfns (u.frame i)) env.dma s k) →
    ∀ i < u.numPages, Covers u userVa bcnt i →
    Done u (!flags.snapshot) (fun i => env.pfns (u.frame i)) env.dma s (u.idx userVa) i →
    s.dmaList i ≠ 0 → s.mtt i ≠ 0 →
    accessMask (!flags.snapshot) (flags.mask u) (env.pfns (u.frame i)) =
      s.dmaList i &&& ~~~ODP_DMA_ADDR_MASK

def Meets (u : Umem) (s : Odp) : Op → Prop
  | .fault userVa bcnt flags env =>
    Admitted u userVa bcnt env → env.hmm = none → Keeps u s userVa bcnt flags env
  | .invalidate .. => True

/-- What should hold after each operation. -/
structure Sound (compoundHead : ℕ → ℕ) (u : Umem) (s : Odp) : Prop where
  mtt : ∀ i < u.numPages, s.mtt i = 0 ∨ s.mtt i = umemDmaToMtt (s.dmaList i) ∧
    s.dmaList i ≠ 0 ∧ s.dmaList i &&& ODP_DMA_ADDR_MASK ∈ s.live
  npages : s.npages = Nat.count (fun i => s.dmaList i ≠ 0) u.numPages
  dirty : ∀ r ∈ s.log, r.written = true → r.dirtied = some (compoundHead r.page)
  zapped : ∀ start stop xlt, ok u s (.invalidate start stop xlt) →
    ∀ i < u.numPages, start ≤ u.addr i → u.addr i < stop →
      (zapRange u start stop xlt s).mtt i = 0 ∧ (zapRange u start stop xlt s).live = s.live ∧
      (step compoundHead u s (.invalidate start stop xlt)).mtt =
        (zapRange u start stop xlt s).mtt ∧
      (step compoundHead u s (.invalidate start stop xlt)).dmaList i = 0

/-! ### Permission bits -/

theorem and_read (d : BitVec 64) :
    d &&& ODP_READ_ALLOWED_BIT = if d &&& ODP_READ_ALLOWED_BIT ≠ 0 then MLX5_IB_MTT_READ else 0 := by
  rw [show ODP_READ_ALLOWED_BIT = BitVec.twoPow 64 0 from rfl, BitVec.and_twoPow]
  split <;> rfl

theorem and_write (d : BitVec 64) :
    d &&& ODP_WRITE_ALLOWED_BIT =
      if d &&& ODP_WRITE_ALLOWED_BIT ≠ 0 then MLX5_IB_MTT_WRITE else 0 := by
  rw [show ODP_WRITE_ALLOWED_BIT = BitVec.twoPow 64 1 from rfl, BitVec.and_twoPow]
  split <;> rfl

/-- The device's permission bits are those of `dma_list`. -/
theorem umemDmaToMtt_eq (d : BitVec 64) : umemDmaToMtt d = d := by
  have hsplit : d = d &&& ODP_DMA_ADDR_MASK ||| d &&& ODP_READ_ALLOWED_BIT |||
      d &&& ODP_WRITE_ALLOWED_BIT := by
    rw [← and_or_distrib_left, ← and_or_distrib_left,
      show ODP_DMA_ADDR_MASK ||| ODP_READ_ALLOWED_BIT ||| ODP_WRITE_ALLOWED_BIT =
        allOnes 64 from rfl, and_allOnes]
  unfold umemDmaToMtt
  conv_rhs => rw [hsplit, and_read, and_write]
  split <;> split <;> simp

/-- The access bits that a page can be given. -/
def IsAccess (m : BitVec 64) : Prop :=
  m = ODP_READ_ALLOWED_BIT ∨ m = ODP_READ_ALLOWED_BIT ||| ODP_WRITE_ALLOWED_BIT

theorem PfFlags.mask_access (u : Umem) (flags : PfFlags) : IsAccess (flags.mask u) := by
  unfold PfFlags.mask
  split
  · exact .inr rfl
  · exact .inl rfl

theorem accessMask_access {m : BitVec 64} (h : IsAccess m) (fault : Bool) (pfn : Pfn) :
    IsAccess (accessMask fault m pfn) := by
  unfold accessMask
  split
  · exact h
  · split
    · exact .inr rfl
    · exact .inl rfl

namespace IsAccess
variable {m : BitVec 64} (h : IsAccess m)
include h

theorem and_mask : m &&& ODP_DMA_ADDR_MASK = 0#64 := by
  rcases h with rfl | rfl <;> rfl

theorem and_read : m &&& ODP_READ_ALLOWED_BIT = ODP_READ_ALLOWED_BIT := by
  rcases h with rfl | rfl <;> rfl

theorem or_read (d : BitVec 64) : (d ||| m) &&& ODP_READ_ALLOWED_BIT ≠ 0 := by
  rw [BitVec.and_or_distrib_right, h.and_read]
  exact fun h0 => absurd (BitVec.or_eq_zero_iff.mp h0).2 (by decide)

theorem or_ne (d : BitVec 64) : d ||| m ≠ 0 := by
  intro h0
  rw [(BitVec.or_eq_zero_iff.mp h0).2] at h
  rcases h with h | h <;> exact absurd h (by decide)

/-- The flags are replaced, the address stays. -/
theorem resync_addr (d : BitVec 64) :
    (d &&& ODP_DMA_ADDR_MASK ||| m) &&& ODP_DMA_ADDR_MASK = d &&& ODP_DMA_ADDR_MASK := by
  rw [BitVec.and_or_distrib_right, h.and_mask, BitVec.and_assoc, BitVec.and_self]
  simp

theorem map_addr (a : DmaAddr) : (a.1 ||| m) &&& ODP_DMA_ADDR_MASK = a.1 := by
  have hsplit : a.1 = a.1 &&& ODP_DMA_ADDR_MASK ||| a.1 &&& ~~~ODP_DMA_ADDR_MASK := by
    rw [← and_or_distrib_left, show ODP_DMA_ADDR_MASK ||| ~~~ODP_DMA_ADDR_MASK =
      allOnes 64 from rfl, and_allOnes]
  rw [a.2, BitVec.or_zero] at hsplit
  rw [BitVec.and_or_distrib_right, h.and_mask, BitVec.or_zero, ← hsplit]

end IsAccess

theorem or_write {m : BitVec 64} (h : m &&& ODP_WRITE_ALLOWED_BIT ≠ 0) (d : BitVec 64) :
    (d ||| m) &&& ODP_WRITE_ALLOWED_BIT ≠ 0 := by
  rw [BitVec.and_or_distrib_right]
  exact fun h0 => h (BitVec.or_eq_zero_iff.mp h0).2

/-- Flags that are replaced by themselves. -/
theorem resync_same {d m : BitVec 64} (h : m = d &&& ~~~ODP_DMA_ADDR_MASK) :
    d &&& ODP_DMA_ADDR_MASK ||| m = d := by
  rw [h, ← and_or_distrib_left, show ODP_DMA_ADDR_MASK ||| ~~~ODP_DMA_ADDR_MASK =
    allOnes 64 from rfl, and_allOnes]

/-! ### Pages and addresses -/

namespace Umem
variable (u : Umem)

theorem pageSize_pos : 0 < u.pageSize := Nat.two_pow_pos _

theorem numPages_mul : u.numPages * u.pageSize = u.stop - u.start :=
  Nat.div_mul_cancel (Nat.dvd_sub u.stopDvd u.startDvd)

theorem pageSize_eq : u.pageSize = 2 ^ (u.pageShift - PAGE_SHIFT) * PAGE_SIZE := by
  rw [pageSize, PAGE_SIZE, ← Nat.pow_add, Nat.sub_add_cancel u.shiftLe]

theorem idx_addr (i : ℕ) : u.idx (u.addr i) = i := by
  rw [idx, addr, Nat.add_sub_cancel_left, Nat.mul_div_cancel _ u.pageSize_pos]

theorem pfnIdx_addr (i : ℕ) : u.pfnIdx (u.addr i) = u.frame i := by
  rw [pfnIdx, addr, Nat.add_sub_cancel_left, u.pageSize_eq, ← Nat.mul_assoc,
    Nat.mul_div_cancel _ (by decide), frame]

theorem addr_succ (i : ℕ) : u.addr i + u.pageSize = u.addr (i + 1) := by
  rw [addr, addr, Nat.succ_mul, Nat.add_assoc]

/-- An aligned address of the region is that of a page. -/
theorem exists_addr {a : ℕ} (h : u.start ≤ a) (hdvd : u.pageSize ∣ a) : ∃ i, a = u.addr i := by
  obtain ⟨i, hi⟩ := Nat.dvd_sub hdvd u.startDvd
  exact ⟨i, by rw [addr, Nat.mul_comm, ← hi]; omega⟩

theorem addr_le_iff {i j : ℕ} : u.addr i ≤ u.addr j ↔ i ≤ j := by
  rw [addr, addr, Nat.add_le_add_iff_left, Nat.mul_le_mul_right_iff u.pageSize_pos]

theorem stop_eq : u.stop = u.addr u.numPages := by
  rw [addr, numPages_mul, Nat.add_sub_cancel' u.startLt.le]

theorem numPages_lt : u.numPages < 2 ^ 64 :=
  (Nat.div_le_self _ _).trans_lt (lt_of_le_of_lt (Nat.sub_le _ _) u.stopLt)

end Umem

theorem divRoundUp_mul (n : ℕ) {d : ℕ} (hd : 0 < d) : divRoundUp (n * d) d = n := by
  rw [divRoundUp, Nat.add_sub_assoc (show 1 ≤ d from hd), Nat.add_comm, Nat.add_mul_div_right _ _ hd,
    Nat.div_eq_of_lt (show d - 1 < d from Nat.pred_lt hd.ne'), Nat.zero_add]

/-- The pages between two addresses are as many as the loop has rounds. -/
theorem rounds_addr (u : Umem) {i j : ℕ} : rounds u (u.addr i) (u.addr j) = j - i := by
  rw [rounds, Umem.addr, Umem.addr, Nat.add_sub_add_left, ← Nat.sub_mul,
    divRoundUp_mul _ u.pageSize_pos]

/-! ### The device's table -/

/-- What a UMR writes for a page. -/
def entry (dmaList : ℕ → BitVec 64) (zap : Bool) (i : ℕ) : BitVec 64 :=
  if zap then 0#64 else umemDmaToMtt (dmaList i)

theorem populateMtt_fills (dmaList : ℕ → BitVec 64) (zap : Bool) :
    Fills (populateMtt dmaList zap) (fun pas => zap = true → ∀ k, pas k = 0#64)
      (entry dmaList zap) := by
  intro idx n pas hpas
  cases zap with
  | true => exact ⟨fun _ k => hpas rfl k, fun k _ => hpas rfl k⟩
  | false => exact ⟨nofun, fun k hk => if_pos ⟨rfl, hk⟩⟩

/-- STEP: a UMR writes the entries asked for; another one changes only into what it would be. -/
theorem updateXlt_spec {u : Umem} (zap : Bool) {a : Alloc} {idx : ℕ} (np : ℕ) (s : Odp)
    (ha : a.dmaMap = true) (hidx : idx ≤ u.numPages) :
    ∃ mtt, updateXlt u zap a idx np s = (.ok (), { s with
        mtt, written := fun i => s.written i || mtt i &&& MLX5_IB_MTT_WRITE ≠ 0 }) ∧
      ∀ i < u.numPages, (idx ≤ i → i < idx + np → mtt i = entry s.dmaList zap i) ∧
        (mtt i = entry s.dmaList zap i ∨ mtt i = s.mtt i) := by
  obtain ⟨mtt, heq, hmtt⟩ := mlx5rUmrUpdateXlt_spec (by decide : 0 < 8)
    (by decide : MLX5_UMR_FLEX_ALIGNMENT = 8 * 8) (populateMtt_fills s.dmaList zap)
    (fun _ _ => rfl) ha (fun n (hn : n ∈ some u.numPages) => by
      cases hn
      exact ⟨hidx, u.numPages_lt⟩) s.mtt
  refine ⟨mtt, by rw [updateXlt, heq], fun i hi => ?_⟩
  have hi' := hmtt i fun n hn => by
    cases hn
    exact hi
  refine ⟨fun h₁ h₂ => hi'.1 (Window.of_mem (by decide : 0 < 8) (a := 8) (by decide) h₁ h₂), ?_⟩
  by_cases hw : Window 8 idx np i
  · exact .inl (hi'.1 hw)
  · exact .inr (hi'.2 hw)

/-! ### Invariants -/

section Core
variable {compoundHead : ℕ → ℕ} {u : Umem} {s s' : Odp}

/-- What holds also between the two halves of a fault, when the table lags behind `dma_list`. -/
structure Core (compoundHead : ℕ → ℕ) (u : Umem) (s : Odp) : Prop where
  read : ∀ i < u.numPages, s.dmaList i ≠ 0 → s.dmaList i &&& ODP_READ_ALLOWED_BIT ≠ 0
  live : ∀ a, s.live.count a =
    Nat.count (fun i => s.dmaList i ≠ 0 ∧ s.dmaList i &&& ODP_DMA_ADDR_MASK = a) u.numPages
  npages : s.npages = Nat.count (fun i => s.dmaList i ≠ 0) u.numPages
  page : ∀ i < u.numPages, s.dmaList i ≠ 0 → (s.pfnList (u.frame i)).page = s.page i
  seen : ∀ i < u.numPages, s.mtt i &&& MLX5_IB_MTT_WRITE ≠ 0 → s.written i = true
  idle : ∀ i < u.numPages, s.dmaList i = 0 → s.mtt i = 0
  log : ∀ r ∈ s.log, r.written = true → r.dirtied = some (compoundHead r.page)

/-- What holds after each operation. -/
structure Inv (compoundHead : ℕ → ℕ) (u : Umem) (s : Odp) : Prop extends
    Core compoundHead u s where
  mtt : ∀ i < u.numPages, s.mtt i = 0 ∨ s.mtt i = umemDmaToMtt (s.dmaList i)
  dirty : ∀ i < u.numPages, s.dmaList i ≠ 0 → s.written i = true →
    s.dmaList i &&& ODP_WRITE_ALLOWED_BIT ≠ 0

theorem inv_init : Inv compoundHead u Odp.init where
  read _ _ h := absurd rfl h
  live a := by
    refine (Nat.count_false u.numPages).symm.trans (count_congr fun k _ => ?_)
    exact ⟨False.elim, fun h => h.1 rfl⟩
  npages := by
    refine congrArg _ ((Nat.count_false u.numPages).symm.trans (count_congr fun k _ => ?_))
    exact ⟨False.elim, fun h => h rfl⟩
  page _ _ h := absurd rfl h
  seen _ _ h := absurd zero_and h
  idle _ _ _ := rfl
  log := nofun
  mtt _ _ := .inl rfl
  dirty _ _ h := absurd rfl h

/-- What a fault leaves of a page that it maps. -/
def Resynced (s s' : Odp) (m : BitVec 64) (i : ℕ) : Prop :=
  (s.dmaList i ≠ 0 ∧ s'.dmaList i = (s.dmaList i &&& ODP_DMA_ADDR_MASK ||| m) ∧
    s'.written i = s.written i) ∨
  (s.dmaList i = 0 ∧ (∃ d, s'.dmaList i = (d ||| m)) ∧ s'.written i = false)

/-- A page that is not mapped by a step. -/
def Same (s s' : Odp) (i : ℕ) : Prop :=
  s'.dmaList i = s.dmaList i ∧ s'.written i = s.written i

/-- STEP: a page is mapped, or its flags are replaced. -/
theorem ibUmemOdpMapDmaSinglePage_spec (h : Core compoundHead u s) {i page : ℕ}
    (hi : i < u.numPages) (hpage : (s.pfnList (u.frame i)).page = page) {m : BitVec 64}
    (hm : IsAccess m) {dma : Option DmaAddr} (hdma : ¬ (s.dmaList i = 0 ∧ dma = none)) :
    ∃ s', ibUmemOdpMapDmaSinglePage s i page m dma = (.ok (), s') ∧ Core compoundHead u s' ∧
      s'.mtt = s.mtt ∧ s'.pfnList = s.pfnList ∧ Resynced s s' m i ∧ ∀ k, k ≠ i → Same s s' k := by
  unfold ibUmemOdpMapDmaSinglePage
  by_cases h0 : s.dmaList i = 0
  · obtain ⟨a, rfl⟩ := Option.ne_none_iff_exists'.mp fun hn => hdma ⟨h0, hn⟩
    rw [if_neg (not_not_intro h0)]
    refine ⟨_, rfl, ?_, rfl, rfl, .inr ⟨h0, ⟨a.1, update_self ..⟩,
      update_self ..⟩, fun k hk => ⟨update_of_ne hk .., update_of_ne hk ..⟩⟩
    refine ⟨fun k hk hne => ?_, fun b => ?_, ?_, fun k hk hne => ?_, fun k hk hw => ?_,
      fun k hk hz => ?_, h.log⟩
    · rcases eq_or_ne k i with rfl | hki
      · simp only [update_self]
        exact hm.or_read a.1
      · simp only [update_of_ne hki] at hne ⊢
        exact h.read k hk hne
    · rw [List.count_cons, h.live b]
      split
      · rename_i hb
        refine (count_insert (fun hp => hp.1 h0) ?_ (fun k hki => ?_) hi).symm
        · simp only [update_self]
          exact ⟨hm.or_ne _, (hm.map_addr a).trans (beq_iff_eq.mp hb)⟩
        · simp only [update_of_ne hki]
      · rename_i hb
        refine (Nat.add_zero _).trans (count_congr fun k _ => ?_)
        rcases eq_or_ne k i with rfl | hki
        · simp only [update_self]
          refine iff_of_false (fun hp => hp.1 h0) fun hq => hb ?_
          exact beq_iff_eq.mpr ((hm.map_addr a).symm.trans hq.2)
        · simp only [update_of_ne hki]
    · have hcount := count_insert (p := fun k => s.dmaList k ≠ 0)
        (q := fun k => update s.dmaList i (a.1 ||| m) k ≠ 0) (not_not_intro h0)
        (by simp only [update_self]; exact hm.or_ne _)
        (fun k hki => by simp only [update_of_ne hki]) hi
      calc s.npages + 1 = ((Nat.count (fun k => s.dmaList k ≠ 0) u.numPages + 1 : ℕ) : ℤ) := by
            rw [h.npages, Nat.cast_succ]
        _ = _ := congrArg _ hcount.symm
    · rcases eq_or_ne k i with rfl | hki
      · simp only [update_self]
        exact hpage
      · simp only [update_of_ne hki] at hne ⊢
        exact h.page k hk hne
    · rcases eq_or_ne k i with rfl | hki
      · exact absurd (by rw [h.idle k hk h0]; exact zero_and) hw
      · simp only [update_of_ne hki]
        exact h.seen k hk hw
    · rcases eq_or_ne k i with rfl | hki
      · simp only [update_self] at hz
        exact absurd hz (hm.or_ne _)
      · simp only [update_of_ne hki] at hz
        exact h.idle k hk hz
  · rw [if_pos h0]
    refine ⟨_, rfl, ?_, rfl, rfl, .inl ⟨h0, update_self .., rfl⟩,
      fun k hk => ⟨update_of_ne hk .., rfl⟩⟩
    have hne : ∀ k, update s.dmaList i (s.dmaList i &&& ODP_DMA_ADDR_MASK ||| m) k ≠ 0 ↔
        s.dmaList k ≠ 0 := by
      intro k
      rcases eq_or_ne k i with rfl | hki
      · rw [update_self]
        exact iff_of_true (hm.or_ne _) h0
      · rw [update_of_ne hki]
    have haddr : ∀ k, update s.dmaList i (s.dmaList i &&& ODP_DMA_ADDR_MASK ||| m) k &&&
        ODP_DMA_ADDR_MASK = s.dmaList k &&& ODP_DMA_ADDR_MASK := by
      intro k
      rcases eq_or_ne k i with rfl | hki
      · rw [update_self, hm.resync_addr]
      · rw [update_of_ne hki]
    refine ⟨fun k hk hk0 => ?_, fun b => ?_, ?_, fun k hk hk0 => h.page k hk ((hne k).mp hk0),
      h.seen, fun k hk hz => h.idle k hk (not_not.mp fun hk0 => (hne k).mpr hk0 hz), h.log⟩
    · rcases eq_or_ne k i with rfl | hki
      · simp only [update_self]
        exact hm.or_read _
      · simp only [update_of_ne hki] at hk0 ⊢
        exact h.read k hk hk0
    · exact (h.live b).trans (count_congr fun k _ => and_congr (hne k).symm (by rw [haddr k]))
    · exact h.npages.trans (congrArg _ (count_congr fun k _ => (hne k).symm))

/-- The page cannot be mapped. -/
theorem ibUmemOdpMapDmaSinglePage_fail {i page : ℕ} {m : BitVec 64} {dma : Option DmaAddr}
    (hdma : s.dmaList i = 0 ∧ dma = none) :
    ibUmemOdpMapDmaSinglePage s i page m dma = (.error .efault, s) := by
  obtain ⟨h0, rfl⟩ := hdma
  unfold ibUmemOdpMapDmaSinglePage
  rw [if_neg (not_not_intro h0)]
  dsimp only
  rw [show (0#64 : BitVec 64) = s.dmaList i from h0.symm, update_eq_self]

/-! ### The loop of a fault -/

section Loop
variable {fault : Bool} {pf : ℕ → Pfn} {dma : ℕ → Option DmaAddr} {i j : ℕ}

theorem Fails.congr {k : ℕ} (h : s'.dmaList k = s.dmaList k) :
    Fails u fault pf dma s' k ↔ Fails u fault pf dma s k := by
  unfold Fails
  rw [h]

/-- The loop that is past page `j` gets to where the loop at page `j` does. -/
theorem Done.past (hj : ¬ Fails u fault pf dma s j) (h : ∀ k, k ≠ j → s'.dmaList k = s.dmaList k)
    (hi : j < i) : Done u fault pf dma s' (j + 1) i ↔ Done u fault pf dma s j i := by
  refine and_congr_right fun _ => ⟨fun ⟨h₁, h₂⟩ => ⟨hi.le, fun k hk hki => ?_⟩,
    fun ⟨h₁, h₂⟩ => ⟨hi, fun k hk hki => ?_⟩⟩
  · rcases eq_or_ne k j with rfl | hkj
    · exact hj
    · exact (Fails.congr (h k hkj)).not.mp (h₂ k (by omega) hki)
  · exact (Fails.congr (h k (by omega))).not.mpr (h₂ k (by omega) hki)

/-- What the loop has done from page `j` on, up to page `e`. -/
structure Mapped (compoundHead : ℕ → ℕ) (u : Umem) (fault : Bool) (pf : ℕ → Pfn)
    (dma : ℕ → Option DmaAddr) (m : BitVec 64) (j e : ℕ) (s : Odp) (ret : Except Errno ℕ) (s' : Odp) :
    Prop where
  core : Core compoundHead u s'
  mtt : s'.mtt = s.mtt
  same : ∀ i, ¬ (Done u fault pf dma s j i ∧ i < e) → Same s s' i
  done : ∀ i < e, Done u fault pf dma s j i → Resynced s s' (accessMask fault m (pf i)) i
  ret : (ret = .ok e ∧ ∀ k, j ≤ k → k < e → ¬ Fails u fault pf dma s k) ∨
    (∃ err, ret = .error err) ∧ ∃ k, j ≤ k ∧ k < e ∧ Fails u fault pf dma s k

/-- STEP: one page, then the rest of the loop. -/
theorem Mapped.cons {m : BitVec 64} {e : ℕ} {ret : Except Errno ℕ} {s₁ : Odp} (hje : j < e)
    (hj : ¬ Fails u fault pf dma s j) (hmtt : s₁.mtt = s.mtt) (hsame : ∀ k, k ≠ j → Same s s₁ k)
    (hdone : Touches fault (pf j) → Resynced s s₁ (accessMask fault m (pf j)) j)
    (hnot : ¬ Touches fault (pf j) → Same s s₁ j)
    (h : Mapped compoundHead u fault pf dma m (j + 1) e s₁ ret s') :
    Mapped compoundHead u fault pf dma m j e s ret s' := by
  have hpast : ∀ {i}, j < i → (Done u fault pf dma s₁ (j + 1) i ↔ Done u fault pf dma s j i) :=
    fun hi => Done.past hj (fun k hk => (hsame k hk).1) hi
  have hat : Same s₁ s' j := h.same j fun hd => absurd hd.1.2.1 (by omega)
  refine ⟨h.core, h.mtt.trans hmtt, fun i hi => ?_, fun i hie hi => ?_, ?_⟩
  · rcases eq_or_ne i j with rfl | hij
    · have hun : ¬ Touches fault (pf i) := fun ht => hi ⟨⟨ht, le_refl i, fun k h₁ h₂ => by
        rwa [Nat.le_antisymm h₂ h₁]⟩, hje⟩
      exact ⟨hat.1.trans (hnot hun).1, hat.2.trans (hnot hun).2⟩
    · have hrest := h.same i fun hd => hi ⟨(hpast (by have := hd.1.2.1; omega)).mp hd.1, hd.2⟩
      exact ⟨hrest.1.trans (hsame i hij).1, hrest.2.trans (hsame i hij).2⟩
  · rcases eq_or_ne i j with rfl | hij
    · unfold Resynced
      rw [hat.1, hat.2]
      exact hdone hi.1
    · have hrest := h.done i hie ((hpast (lt_of_le_of_ne hi.2.1 hij.symm)).mpr hi)
      unfold Resynced at hrest ⊢
      rwa [(hsame i hij).1, (hsame i hij).2] at hrest
  · rcases h.ret with ⟨hok, hno⟩ | ⟨herr, k, hk, hke, hf⟩
    · refine .inl ⟨hok, fun k hk hke => ?_⟩
      rcases eq_or_ne k j with rfl | hkj
      · exact hj
      · exact (Fails.congr (hsame k hkj).1).not.mp (hno k (by omega) hke)
    · exact .inr ⟨herr, k, by omega, hke, (Fails.congr (hsame k (by omega)).1).mp hf⟩

/-- STEP: the loop breaks at page `j`. -/
theorem Mapped.break {m : BitVec 64} {e : ℕ} {err : Errno} (h : Core compoundHead u s) (hje : j < e)
    (hj : Fails u fault pf dma s j) : Mapped compoundHead u fault pf dma m j e s (.error err) s where
  core := h
  mtt := rfl
  same _ _ := ⟨rfl, rfl⟩
  done _ _ hd := absurd hj (hd.2.2 j (le_refl j) hd.2.1)
  ret := .inr ⟨⟨err, rfl⟩, j, le_refl j, hje, hj⟩

/-- RUN: the loop maps the pages up to the first that fails. -/
theorem mapLoop_spec {hmmPfns : ℕ → Pfn} {m : BitVec 64} (hm : IsAccess m) :
    ∀ (n p j : ℕ) (am : BitVec 64) (s : Odp), Core compoundHead u s → j + n ≤ u.numPages →
    (∀ k < n, hmmPfns (p + u.frame k) = pf (j + k)) →
    (∀ k, j ≤ k → k < j + n → pf k = s.pfnList (u.frame k)) → (fault = true → am = m) →
    Mapped compoundHead u fault pf dma m j (j + n) s
      (mapLoop u fault hmmPfns dma n p j am s).1
      (mapLoop u fault hmmPfns dma n p j am s).2
  | 0, p, j, am, s, h, _, _, _, _ =>
    ⟨h, rfl, fun _ _ => ⟨rfl, rfl⟩, fun i hi hd => absurd hd.2.1 (by omega),
      .inl ⟨rfl, fun k _ _ => by omega⟩⟩
  | n + 1, p, j, am, s, h, hle, hpfns, hpf, hmask => by
    have hpj : hmmPfns p = pf j := by
      have := hpfns 0 (Nat.succ_pos n)
      rwa [Umem.frame, Nat.zero_mul] at this
    have hframe : ∀ k, u.frame (k + 1) = 2 ^ (u.pageShift - PAGE_SHIFT) + u.frame k := fun k => by
      rw [Umem.frame, Umem.frame, Nat.succ_mul, Nat.add_comm]
    have hmask' : accessMask fault am (pf j) = accessMask fault m (pf j) := by
      unfold accessMask
      split
      · exact hmask ‹_›
      · rfl
    have hrec : ∀ (am' : BitVec 64) (s₁ : Odp), Core compoundHead u s₁ → s₁.pfnList = s.pfnList →
        (fault = true → am' = m) → Mapped compoundHead u fault pf dma m (j + 1) (j + (n + 1)) s₁
          (mapLoop u fault hmmPfns dma n (p + 2 ^ (u.pageShift - PAGE_SHIFT)) (j + 1) am' s₁).1
          (mapLoop u fault hmmPfns dma n (p + 2 ^ (u.pageShift - PAGE_SHIFT)) (j + 1) am' s₁).2 := by
      intro am' s₁ h₁ hl ham
      rw [show j + (n + 1) = j + 1 + n by omega]
      refine mapLoop_spec hm n _ (j + 1) am' s₁ h₁ (by omega) (fun k hk => ?_) (fun k hk hkn => ?_) ham
      · rw [Nat.add_assoc, ← hframe, hpfns (k + 1) (by omega), Nat.add_right_comm, Nat.add_assoc]
      · rw [hl]
        exact hpf k (by omega) (by omega)
    simp only [mapLoop, hpj]
    by_cases ht : fault = false ∧ (pf j).valid = false
    · -- a snapshot passes over a page that the process does not have
      have hun : ¬ Touches fault (pf j) := by
        rintro (hf | hv)
        · exact Bool.noConfusion (ht.1.symm.trans hf)
        · exact Bool.noConfusion (ht.2.symm.trans hv)
      rw [if_pos ht]
      exact (hrec am s h rfl hmask).cons (by omega) (fun hf => hun hf.1) rfl
        (fun _ _ => ⟨rfl, rfl⟩) (fun ht' => absurd ht' hun) fun _ => ⟨rfl, rfl⟩
    · have htouch : Touches fault (pf j) := by
        cases fault with
        | true => exact .inl rfl
        | false => exact .inr (by simpa using ht)
      rw [if_neg ht, hmask']
      split_ifs with hord
      · exact .break h (by omega) ⟨htouch, .inl hord⟩
      · by_cases hdma : s.dmaList j = 0 ∧ dma j = none
        · rw [ibUmemOdpMapDmaSinglePage_fail hdma]
          exact .break h (by omega) ⟨htouch, .inr hdma⟩
        · obtain ⟨s₁, heq, h₁, hmtt, hl, hre, hsame⟩ := ibUmemOdpMapDmaSinglePage_spec h
            (by omega : j < u.numPages) (congrArg Pfn.page (hpf j (le_refl j) (by omega)).symm)
            (accessMask_access hm fault (pf j)) hdma
          rw [heq]
          refine (hrec _ s₁ h₁ hl fun hf => ?_).cons (by omega)
            (fun hf => hf.2.elim hord hdma) hmtt hsame (fun _ => hre) fun hun => absurd htouch hun
          unfold accessMask
          rw [if_pos hf]

end Loop
/-! ### A fault -/

section Fault
variable {userVa bcnt : ℕ} {flags : PfFlags} {env : Env}

theorem rangeStart_addr (h : u.start ≤ userVa) :
    rangeStart u userVa = u.addr (u.idx userVa) := by
  obtain ⟨k, hk⟩ := u.startDvd
  obtain ⟨d, rfl⟩ := Nat.exists_eq_add_of_le h
  have hmod : (u.start + d) % u.pageSize = d % u.pageSize := by
    rw [hk, Umem.pageSize, Nat.mul_add_mod]
  have hdiv := Nat.div_add_mod' d u.pageSize
  rw [rangeStart, hmod, Umem.addr, Umem.idx, Nat.add_sub_cancel_left]
  omega

theorem rangeEnd_le (h : toU 64 (userVa + bcnt : ℕ) ≤ u.stop) : rangeEnd u userVa bcnt ≤ u.stop := by
  obtain ⟨k, hk⟩ := u.stopDvd
  have hpos := u.pageSize_pos
  rw [hk, ← Umem.pageSize, Nat.mul_comm] at h ⊢
  refine Nat.mul_le_mul_right _ (Nat.lt_succ_iff.mp ((Nat.div_lt_iff_lt_mul hpos).mpr ?_))
  rw [Nat.succ_mul]
  omega

/-- The pages of a request lie in the region. -/
theorem rangeEnd_addr (h : Admitted u userVa bcnt env)
    (hlt : rangeStart u userVa < rangeEnd u userVa bcnt) :
    rangeEnd u userVa bcnt = u.addr (u.idx userVa +
        (rangeEnd u userVa bcnt - rangeStart u userVa) / u.pageSize) ∧
      u.idx userVa + (rangeEnd u userVa bcnt - rangeStart u userVa) / u.pageSize ≤ u.numPages := by
  have hstart := rangeStart_addr h.1
  obtain ⟨j, hj⟩ := u.exists_addr (a := rangeEnd u userVa bcnt)
    (by rw [hstart, Umem.addr] at hlt; omega) (dvd_align _ _)
  have hij : u.idx userVa ≤ j := by
    rw [hstart, hj] at hlt
    exact u.addr_le_iff.mp hlt.le
  have hn : u.idx userVa + (rangeEnd u userVa bcnt - rangeStart u userVa) / u.pageSize = j := by
    rw [hj, hstart, Umem.addr, Umem.addr, Nat.add_sub_add_left, ← Nat.sub_mul,
      Nat.mul_div_cancel _ u.pageSize_pos, Nat.add_sub_cancel' hij]
  rw [hn]
  refine ⟨hj, u.addr_le_iff.mp ?_⟩
  rw [← u.stop_eq, ← hj]
  exact rangeEnd_le h.2.1

theorem frame_lt_iff {i j : ℕ} : u.frame i < u.frame j ↔ i < j :=
  Nat.mul_lt_mul_right (Nat.two_pow_pos _)

/-- What `hmm_range_fault` writes are the frames of the request's pages. -/
theorem frame_mem_iff (h : Admitted u userVa bcnt env) {i : ℕ} :
    (u.pfnIdx (rangeStart u userVa) ≤ u.frame i ∧ u.frame i < u.pfnIdx (rangeStart u userVa) +
      (rangeEnd u userVa bcnt - rangeStart u userVa) / PAGE_SIZE) ↔ Covers u userVa bcnt i := by
  rw [rangeStart_addr h.1, Umem.pfnIdx_addr, Covers, rangeStart_addr h.1]
  rcases Nat.lt_or_ge (u.addr (u.idx userVa)) (rangeEnd u userVa bcnt) with hlt | hge
  · obtain ⟨hend, -⟩ := rangeEnd_addr h (by rwa [rangeStart_addr h.1])
    rw [rangeStart_addr h.1] at hend
    generalize hn : (rangeEnd u userVa bcnt - u.addr (u.idx userVa)) / u.pageSize = n at hend ⊢
    have hframes : u.frame (u.idx userVa) + (rangeEnd u userVa bcnt - u.addr (u.idx userVa)) /
        PAGE_SIZE = u.frame (u.idx userVa + n) := by
      rw [hend, Umem.addr, Umem.addr, Nat.add_sub_add_left, ← Nat.sub_mul, Nat.add_sub_cancel_left,
        u.pageSize_eq, ← Nat.mul_assoc, Nat.mul_div_cancel _ (by decide), Umem.frame, Umem.frame,
        Nat.add_mul]
    rw [hframes, frame_lt_iff]
    exact and_congr_left' (by rw [← not_lt, frame_lt_iff, not_lt])
  · rw [Nat.sub_eq_zero_of_le hge, Nat.zero_div, Nat.zero_div]
    exact iff_of_false (fun h => by omega) fun h => by omega

/-- The loop's rounds are the request's pages. -/
theorem pages_rounds (h : Admitted u userVa bcnt env)
    (hlt : rangeStart u userVa < rangeEnd u userVa bcnt) :
    divRoundUp (toU 64 ((rangeEnd u userVa bcnt : ℤ) - rangeStart u userVa) / PAGE_SIZE)
        (2 ^ (u.pageShift - PAGE_SHIFT)) =
      (rangeEnd u userVa bcnt - rangeStart u userVa) / u.pageSize := by
  rw [toU_sub ((rangeEnd_le h.2.1).trans_lt u.stopLt) hlt.le]
  obtain ⟨hend, -⟩ := rangeEnd_addr h hlt
  generalize (rangeEnd u userVa bcnt - rangeStart u userVa) / u.pageSize = n at hend ⊢
  rw [hend, rangeStart_addr h.1, Umem.addr, Umem.addr, Nat.add_sub_add_left, ← Nat.sub_mul,
    Nat.add_sub_cancel_left, u.pageSize_eq, ← Nat.mul_assoc, Nat.mul_div_cancel _ (by decide),
    divRoundUp_mul n (Nat.two_pow_pos _)]

/-- STEP: the list of page frames is written, where pages are mapped with what it has. -/
theorem Inv.walked (h : Inv compoundHead u s) {l : ℕ → Pfn}
    (hl : ∀ i < u.numPages, s.dmaList i ≠ 0 → (l (u.frame i)).page = s.page i) :
    Inv compoundHead u { s with pfnList := l } :=
  ⟨{ h with page := hl }, h.mtt, h.dirty⟩

section Mapped
variable {fault : Bool} {pf : ℕ → Pfn} {dma : ℕ → Option DmaAddr} {m : BitVec 64} {j e : ℕ}
  {ret : Except Errno ℕ}

section
variable (hm : Mapped compoundHead u fault pf dma m j e s ret s') (h : Inv compoundHead u s)
  (hwrite : ∀ i < u.numPages, i < e → Done u fault pf dma s j i → s.dmaList i ≠ 0 →
    s.written i = true → accessMask fault m (pf i) &&& ODP_WRITE_ALLOWED_BIT ≠ 0)
include hm h hwrite

/-- No page that the device could write loses its write permission. -/
theorem Mapped.dirty : ∀ i < u.numPages, s'.dmaList i ≠ 0 → s'.written i = true →
      s'.dmaList i &&& ODP_WRITE_ALLOWED_BIT ≠ 0 := by
  intro i hi hne hw
  by_cases hd : Done u fault pf dma s j i ∧ i < e
  · rcases hm.done i hd.2 hd.1 with ⟨hne', heq, hwr⟩ | ⟨-, -, hwr⟩
    · rw [heq]
      exact or_write (hwrite i hi hd.2 hd.1 hne' (hwr ▸ hw)) _
    · rw [hwr] at hw
      exact Bool.noConfusion hw
  · obtain ⟨hdma, hwr⟩ := hm.same i hd
    rw [hdma] at hne ⊢
    exact h.dirty i hi hne (hwr ▸ hw)

/-- STEP: a fault that fails and has not changed the flags of a page that the device has. -/
theorem Mapped.inv_error
    (hflags : ∀ i < u.numPages, i < e → Done u fault pf dma s j i → s.dmaList i ≠ 0 →
      s.mtt i ≠ 0 → accessMask fault m (pf i) = s.dmaList i &&& ~~~ODP_DMA_ADDR_MASK) :
    Inv compoundHead u s' := by
  refine ⟨hm.core, fun i hi => ?_, hm.dirty h hwrite⟩
  rw [hm.mtt]
  by_cases h0 : s.mtt i = 0
  · exact .inl h0
  · have hkept : s'.dmaList i = s.dmaList i := by
      by_cases hd : Done u fault pf dma s j i ∧ i < e
      · rcases hm.done i hd.2 hd.1 with ⟨hne, heq, -⟩ | ⟨hz, -⟩
        · rw [heq, resync_same (hflags i hi hd.2 hd.1 hne h0)]
        · exact absurd (h.idle i hi hz) h0
      · exact (hm.same i hd).1
    rw [hkept]
    exact h.mtt i hi

end

/-- STEP: a fault that maps all its pages, and the UMR after it. -/
theorem Mapped.inv_update (hm : Mapped compoundHead u fault pf dma m j e s ret s')
    (h : Inv compoundHead u s) (hj : j ≤ u.numPages) {a : Alloc} (ha : a.dmaMap = true)
    (hwrite : ∀ i < u.numPages, i < e → Done u fault pf dma s j i → s.dmaList i ≠ 0 →
      s.written i = true → accessMask fault m (pf i) &&& ODP_WRITE_ALLOWED_BIT ≠ 0) :
    ∃ s₂, updateXlt u false a j (e - j) s' = (.ok (), s₂) ∧ Inv compoundHead u s₂ := by
  obtain ⟨mtt, heq, hmtt⟩ := updateXlt_spec false (e - j) s' ha hj
  have hentry : ∀ i, entry s'.dmaList false i = s'.dmaList i := fun i => umemDmaToMtt_eq _
  simp only [hentry] at hmtt
  have hc := hm.core
  have hdirty := hm.dirty h hwrite
  refine ⟨_, heq, ⟨{ hc with seen := fun i hi hw => ?_, idle := fun i hi hz => ?_ },
    fun i hi => ?_, fun i hi hne hw => ?_⟩⟩
  · simp only [Bool.or_eq_true, decide_eq_true_eq]
    exact .inr hw
  · rcases (hmtt i hi).2 with hnew | hold
    · exact hnew.trans hz
    · exact hold.trans (hc.idle i hi hz)
  · by_cases hin : j ≤ i ∧ i < e
    · exact .inr (((hmtt i hi).1 hin.1 (by omega)).trans (umemDmaToMtt_eq _).symm)
    · rcases (hmtt i hi).2 with hnew | hold
      · exact .inr (hnew.trans (umemDmaToMtt_eq _).symm)
      · dsimp only
        rw [hold, hm.mtt, (hm.same i fun hd => hin ⟨hd.1.2.1, hd.2⟩).1]
        exact h.mtt i hi
  · simp only [Bool.or_eq_true, decide_eq_true_eq] at hw
    rcases hw with hw | hw
    · exact hdirty i hi hne hw
    · rcases (hmtt i hi).2 with hnew | hold
      · rwa [hnew] at hw
      · rw [hold] at hw
        exact hdirty i hi hne (hc.seen i hi hw)

end Mapped

/-- STEP: a fault or prefetch. -/
theorem Inv.fault (h : Inv compoundHead u s) (hok : ok u s (.fault userVa bcnt flags env))
    (hmeets : Meets u s (.fault userVa bcnt flags env)) :
    Inv compoundHead u (pagefaultRealMr u s userVa bcnt flags env).2 := by
  obtain ⟨hxlt, hhmm⟩ := hok
  unfold pagefaultRealMr ibUmemOdpMapDmaAndLock
  dsimp only
  by_cases hmask : flags.mask u = 0
  · rw [if_pos hmask]
    exact h
  rw [if_neg hmask]
  by_cases hrange : userVa < u.start ∨ u.stop < toU 64 (userVa + bcnt : ℕ)
  · rw [if_pos hrange]
    exact h
  rw [if_neg hrange]
  split_ifs with halive
  · exact h
  have hadm : Admitted u userVa bcnt env := by
    refine ⟨by omega, by omega, Bool.not_eq_false _ ▸ halive⟩
  obtain ⟨hlt, hpage⟩ := hhmm hadm
  obtain ⟨l, hl⟩ : ∃ l, l = fun i => if u.pfnIdx (rangeStart u userVa) ≤ i ∧
    i < u.pfnIdx (rangeStart u userVa) + (rangeEnd u userVa bcnt - rangeStart u userVa) / PAGE_SIZE
    then env.pfns i else s.pfnList i := ⟨_, rfl⟩
  have hcov : ∀ i, Covers u userVa bcnt i → l (u.frame i) = env.pfns (u.frame i) := by
    rintro i hi
    rw [hl]
    exact if_pos ((frame_mem_iff hadm).mpr hi)
  have hnot : ∀ i, ¬ Covers u userVa bcnt i → l (u.frame i) = s.pfnList (u.frame i) := by
    rintro i hi
    rw [hl]
    exact if_neg fun hin => hi ((frame_mem_iff hadm).mp hin)
  have h₁ := h.walked (l := l) fun i hi hne => by
    by_cases hi' : Covers u userVa bcnt i
    · rw [hcov i hi']
      exact (hpage i hi hi' hne).2
    · rw [hnot i hi']
      exact h.page i hi hne
  cases hret : env.hmm with
  | some err =>
    subst hl
    exact h₁
  | none =>
    have hlt := hlt hret
    obtain ⟨-, hle⟩ := rangeEnd_addr hadm hlt
    obtain ⟨hwrite, hflags⟩ := hmeets hadm hret
    have hstart := rangeStart_addr hadm.1
    have hframe : u.pfnIdx (rangeStart u userVa) = u.frame (u.idx userVa) := by
      rw [hstart, u.pfnIdx_addr]
    have hidx : u.idx (rangeStart u userVa) = u.idx userVa := by rw [hstart, u.idx_addr]
    have hpages := pages_rounds hadm hlt
    generalize hn : (rangeEnd u userVa bcnt - rangeStart u userVa) / u.pageSize = n at hle hpages
    have hin : ∀ i, u.idx userVa ≤ i → i < u.idx userVa + n → Covers u userVa bcnt i := by
      intro i h₁ h₂
      rw [← hn] at h₂
      exact ⟨h₁, h₂⟩
    have hpfns : ∀ k < n, l (u.pfnIdx (rangeStart u userVa) + (0 + u.frame k)) =
        env.pfns (u.frame (u.idx userVa + k)) := fun k hk => by
      rw [Nat.zero_add, hframe, ← hcov _ (hin (u.idx userVa + k) (by omega) (by omega))]
      rw [Umem.frame, Umem.frame, Umem.frame, Nat.add_mul]
    generalize hr : mapLoop u (!flags.snapshot) (fun i => l (u.pfnIdx (rangeStart u userVa) + i))
      env.dma n 0 (u.idx userVa) (flags.mask u) { s with pfnList := l } = r
    have hm : Mapped compoundHead u (!flags.snapshot) (fun i => env.pfns (u.frame i)) env.dma
        (flags.mask u) (u.idx userVa) (u.idx userVa + n) { s with pfnList := l } r.1 r.2 := by
      rw [← hr]
      exact mapLoop_spec (flags.mask_access u) n 0 (u.idx userVa) (flags.mask u) _ h₁.toCore hle
        hpfns (fun k h₁ h₂ => (hcov k (hin k h₁ h₂)).symm) fun _ => rfl
    have hwrite' := fun i hi (he : i < u.idx userVa + n) (hd : Done u _ _ _ s _ i) =>
      hwrite i hi (hin i hd.2.1 he) hd
    subst hl
    rw [hidx, hpages, hr]
    obtain ⟨ret, s'⟩ := r
    rcases hm.ret with ⟨hret', -⟩ | ⟨⟨err, hret'⟩, k, hk, hke, hf⟩
    · obtain rfl : ret = _ := hret'
      obtain ⟨s₂, heq, h₂⟩ := hm.inv_update h₁ (by omega) hxlt hwrite'
      dsimp only at heq ⊢
      rw [heq]
      exact h₂
    · obtain rfl : ret = _ := hret'
      exact hm.inv_error h₁ hwrite' fun i hi he hd =>
        hflags ⟨k, by omega, hin k hk hke, hf⟩ i hi (hin i hd.2.1 he) hd

end Fault
/-! ### An invalidation -/

/-- Entries of the table have been zeroed, and nothing else has changed. -/
structure Zapped (u : Umem) (s s' : Odp) : Prop where
  eq : ∃ mtt written, s' = { s with mtt, written }
  mtt : ∀ i < u.numPages, s'.mtt i = 0 ∨ s'.mtt i = s.mtt i
  written : ∀ i < u.numPages, s'.written i = s.written i

theorem Zapped.refl : Zapped u s s := ⟨⟨s.mtt, s.written, rfl⟩, fun _ _ => .inr rfl, fun _ _ => rfl⟩

theorem Zapped.trans {s₁ : Odp} (h : Zapped u s s₁) (h' : Zapped u s₁ s') : Zapped u s s' := by
  obtain ⟨mtt, written, rfl⟩ := h.eq
  obtain ⟨mtt', written', rfl⟩ := h'.eq
  refine ⟨⟨mtt', written', rfl⟩, fun i hi => ?_, fun i hi =>
    (h'.written i hi).trans (h.written i hi)⟩
  rcases h'.mtt i hi with h0 | heq
  · exact .inl h0
  · rw [heq]
    exact h.mtt i hi

theorem Zapped.zero (h : Zapped u s s') {i : ℕ} (hi : i < u.numPages) (h0 : s.mtt i = 0) :
    s'.mtt i = 0 :=
  (h.mtt i hi).elim id fun heq => heq.trans h0

theorem Zapped.inv (h : Zapped u s s') (hs : Inv compoundHead u s) : Inv compoundHead u s' := by
  obtain ⟨mtt, written, rfl⟩ := h.eq
  refine ⟨{ hs with
      seen := fun i hi hw => ?_, idle := fun i hi hz => h.zero hi (hs.idle i hi hz) },
    fun i hi => ?_, fun i hi hne hw => ?_⟩
  · rw [h.written i hi]
    rcases h.mtt i hi with h0 | heq
    · rw [h0] at hw
      exact absurd zero_and hw
    · exact hs.seen i hi (heq ▸ hw)
  · rcases h.mtt i hi with h0 | heq
    · exact .inl h0
    · rw [heq]
      exact hs.mtt i hi
  · exact hs.dirty i hi hne (h.written i hi ▸ hw)

/-- STEP: one zap. -/
theorem Zapped.zap (h : Inv compoundHead u s) {a : Alloc} (ha : a.dmaMap = true) {b : ℕ}
    (hb : b ≤ u.numPages) (np : ℕ) : Zapped u s (updateXlt u true a b np s).2 ∧
      ∀ i < u.numPages, b ≤ i → i < b + np → (updateXlt u true a b np s).2.mtt i = 0 := by
  obtain ⟨mtt, heq, hmtt⟩ := updateXlt_spec true np s ha hb
  rw [heq]
  refine ⟨⟨⟨_, _, rfl⟩, fun i hi => (hmtt i hi).2, fun i hi => ?_⟩, fun i hi => (hmtt i hi).1⟩
  have hseen : mtt i &&& MLX5_IB_MTT_WRITE ≠ 0 → s.written i = true := by
    intro hw
    rcases (hmtt i hi).2 with h0 | hold
    · rw [h0] at hw
      exact absurd zero_and hw
    · exact h.seen i hi (hold ▸ hw)
  dsimp only
  cases hw : s.written i with
  | true => rfl
  | false =>
    rw [hw] at hseen
    simpa using hseen

/-- RUN: the loop zeroes the open block and all pages that it passes. -/
theorem zapLoop_spec {xlt : ℕ → Alloc} (hxlt : ∀ b, (xlt b).dmaMap = true) :
    ∀ (n j idx : ℕ) (blk : Option ℕ) (s : Odp), Inv compoundHead u s → j + n ≤ u.numPages →
    (∀ b, blk = some b → b < j ∧ idx + 1 = j) → Zapped u s (zapLoop u xlt n (u.addr j) idx blk s) ∧
      ∀ i, blk.getD j ≤ i → i < j + n → (zapLoop u xlt n (u.addr j) idx blk s).mtt i = 0
  | 0, j, idx, none, s, h, hle, _ => ⟨.refl, fun i h₁ h₂ => by simp at h₁; omega⟩
  | 0, j, idx, some b, s, h, hle, hblk => by
    obtain ⟨hb, hidx⟩ := hblk b rfl
    obtain ⟨hz, h0⟩ := Zapped.zap h (hxlt b) (by omega : b ≤ u.numPages) (idx - b + 1)
    exact ⟨hz, fun i h₁ h₂ => h0 i (by omega) h₁ (by omega)⟩
  | n + 1, j, idx, blk, s, h, hle, hblk => by
    simp only [zapLoop, u.idx_addr, u.addr_succ]
    by_cases hmap : s.dmaList j &&& (ODP_READ_ALLOWED_BIT ||| ODP_WRITE_ALLOWED_BIT) ≠ 0
    · rw [if_pos hmap]
      have hblk' : blk.getD j ≤ j := by
        cases hb : blk with
        | none => exact le_refl j
        | some b => exact (hblk b hb).1.le
      obtain ⟨hz, h0⟩ := zapLoop_spec hxlt n (j + 1) j (some (blk.getD j)) s h (by omega)
        fun b hb => by cases hb; exact ⟨by omega, rfl⟩
      exact ⟨hz, fun i h₁ h₂ => h0 i h₁ (by omega)⟩
    · -- a page that is not mapped has no entry
      rw [if_neg hmap]
      have hdma : s.dmaList j = 0 := by
        by_contra hne
        refine hmap fun h0 => h.read j (by omega) hne ?_
        rw [and_or_distrib_left] at h0
        exact (BitVec.or_eq_zero_iff.mp h0).1
      have hj : s.mtt j = 0 := h.idle j (by omega) hdma
      cases hb : blk with
      | none =>
        obtain ⟨hz, h0⟩ := zapLoop_spec hxlt n (j + 1) j none s h (by omega) nofun
        refine ⟨hz, fun i h₁ h₂ => ?_⟩
        rcases Nat.eq_or_lt_of_le h₁ with rfl | hlt
        · exact hz.zero (by omega) hj
        · exact h0 i hlt (by omega)
      | some b =>
        obtain ⟨hbj, hidx⟩ := hblk b hb
        dsimp only
        split
        · obtain ⟨hz₁, h0₁⟩ := Zapped.zap h (hxlt b) (by omega : b ≤ u.numPages) (j - b)
          obtain ⟨hz, h0⟩ := zapLoop_spec hxlt n (j + 1) j none _ (hz₁.inv h) (by omega) nofun
          refine ⟨hz₁.trans hz, fun i h₁ h₂ => ?_⟩
          rcases Nat.lt_trichotomy i j with hlt | rfl | hgt
          · exact hz.zero (by omega) (h0₁ i (by omega) h₁ (by omega))
          · exact (hz₁.trans hz).zero (by omega) hj
          · exact h0 i hgt (by omega)
        · obtain ⟨hz, h0⟩ := zapLoop_spec hxlt n (j + 1) j (some b) s h (by omega)
            fun b' hb' => by cases hb'; exact ⟨by omega, rfl⟩
          exact ⟨hz, fun i h₁ h₂ => h0 i h₁ (by omega)⟩

/-- STEP: a page whose entry is zero is unmapped. -/
theorem unmapPage_spec (h : Inv compoundHead u s) {i : ℕ} (hi : i < u.numPages) (h0 : s.mtt i = 0) :
    Inv compoundHead u (unmapPage compoundHead u (u.addr i) s) ∧
      (unmapPage compoundHead u (u.addr i) s).mtt = s.mtt ∧
      (unmapPage compoundHead u (u.addr i) s).dmaList = update s.dmaList i 0#64 := by
  unfold unmapPage
  rw [u.idx_addr, u.pfnIdx_addr]
  by_cases hdma : s.dmaList i = 0
  · dsimp only
    rw [if_neg (not_not_intro hdma)]
    exact ⟨h, rfl, by rw [show (0#64 : BitVec 64) = s.dmaList i from hdma.symm, update_eq_self]⟩
  · dsimp only
    rw [if_pos hdma]
    refine ⟨⟨⟨fun k hk hne => ?_, fun a => ?_, ?_, fun k hk hne => ?_, h.seen, fun k hk hz => ?_,
      fun r hr hw => ?_⟩, fun k hk => ?_, fun k hk hne hw => ?_⟩, rfl, rfl⟩
    · rcases eq_or_ne k i with rfl | hki
      · simp only [update_self] at hne
        exact absurd rfl hne
      · simp only [update_of_ne hki] at hne ⊢
        exact h.read k hk hne
    · rw [List.count_erase, h.live a]
      split
      · rename_i ha
        refine Nat.sub_eq_of_eq_add (count_insert (fun hp => ?_) ⟨hdma, beq_iff_eq.mp ha⟩
          (fun k hki => ?_) hi)
        · simp only [update_self] at hp
          exact hp.1 rfl
        · simp only [update_of_ne hki]
      · rename_i ha
        refine (Nat.sub_zero _).trans (count_congr fun k _ => ?_)
        rcases eq_or_ne k i with rfl | hki
        · simp only [update_self]
          exact iff_of_false (fun hp => ha (beq_iff_eq.mpr hp.2)) fun hq => hq.1 rfl
        · simp only [update_of_ne hki]
    · have hcount := count_insert (p := fun k => update s.dmaList i 0#64 k ≠ 0)
        (q := fun k => s.dmaList k ≠ 0) (by simp only [update_self]; exact fun h => h rfl)
        hdma (fun k hki => by simp only [update_of_ne hki]) hi
      have := h.npages
      rw [hcount, Nat.cast_succ] at this
      exact sub_eq_of_eq_add this
    · rcases eq_or_ne k i with rfl | hki
      · simp only [update_self] at hne
        exact absurd rfl hne
      · simp only [update_of_ne hki] at hne
        exact h.page k hk hne
    · rcases eq_or_ne k i with rfl | hki
      · exact h0
      · simp only [update_of_ne hki] at hz
        exact h.idle k hk hz
    · rcases List.mem_cons.mp hr with rfl | hr
      · dsimp only at hw ⊢
        rw [if_pos (h.dirty i hi hdma hw), h.page i hi hdma]
      · exact h.log r hr hw
    · rcases eq_or_ne k i with rfl | hki
      · exact .inl h0
      · simp only [update_of_ne hki]
        exact h.mtt k hk
    · rcases eq_or_ne k i with rfl | hki
      · simp only [update_self] at hne
        exact absurd rfl hne
      · simp only [update_of_ne hki] at hne ⊢
        exact h.dirty k hk hne hw

/-- RUN: the pages of a range whose entries are zero are unmapped. -/
theorem unmapLoop_spec : ∀ (n j : ℕ) (s : Odp), Inv compoundHead u s → j + n ≤ u.numPages →
    (∀ i, j ≤ i → i < j + n → s.mtt i = 0) →
    Inv compoundHead u (unmapLoop compoundHead u n (u.addr j) s) ∧
      (unmapLoop compoundHead u n (u.addr j) s).mtt = s.mtt ∧
      ∀ i, (j ≤ i ∧ i < j + n ∨ s.dmaList i = 0) →
        (unmapLoop compoundHead u n (u.addr j) s).dmaList i = 0
  | 0, j, s, h, _, _ => ⟨h, rfl, fun i hi => hi.elim (fun h => by omega) id⟩
  | n + 1, j, s, h, hle, h0 => by
    obtain ⟨h₁, hmtt₁, hdma₁⟩ := unmapPage_spec h (by omega : j < u.numPages)
      (h0 j (le_refl j) (by omega))
    obtain ⟨h₂, hmtt₂, hdma₂⟩ := unmapLoop_spec n (j + 1) _ h₁ (by omega) fun i hi hin => by
      rw [hmtt₁]
      exact h0 i (by omega) (by omega)
    rw [unmapLoop, u.addr_succ]
    refine ⟨h₂, hmtt₂.trans hmtt₁, fun i hi => hdma₂ i ?_⟩
    rcases eq_or_ne i j with rfl | hij
    · exact .inr (by rw [hdma₁, update_self]; rfl)
    · rw [hdma₁, update_of_ne hij]
      exact hi.imp_left fun h => by omega

/-- STEP: an invalidation zeroes the entries of its pages and then unmaps the pages. -/
theorem Inv.invalidate (h : Inv compoundHead u s) {start stop : ℕ} {xlt : ℕ → Alloc}
    (hok : ok u s (.invalidate start stop xlt)) :
    Inv compoundHead u (mlx5IbInvalidateRange compoundHead u start stop xlt s) ∧
      (mlx5IbInvalidateRange compoundHead u start stop xlt s).mtt =
        (zapRange u start stop xlt s).mtt ∧ (zapRange u start stop xlt s).live = s.live ∧
      ∀ i < u.numPages, start ≤ u.addr i → u.addr i < stop →
        (zapRange u start stop xlt s).mtt i = 0 ∧
        (mlx5IbInvalidateRange compoundHead u start stop xlt s).dmaList i = 0 := by
  obtain ⟨hstart, hstop, hxlt⟩ := hok
  unfold mlx5IbInvalidateRange zapRange
  by_cases hn : s.npages = 0
  · -- nothing is mapped
    rw [if_pos hn, if_pos hn]
    refine ⟨h, rfl, rfl, fun i hi _ _ => ?_⟩
    have hdma : s.dmaList i = 0 := by
      by_contra hne
      have := Nat.count_strict_mono (p := fun i => s.dmaList i ≠ 0) hne hi
      have := h.npages
      omega
    exact ⟨h.idle i hi hdma, hdma⟩
  · rw [if_neg hn, if_neg hn]
    obtain ⟨j, hj⟩ := u.exists_addr (le_max_left u.start start) (by
      rcases max_choice u.start start with hm | hm
      · rw [hm]
        exact u.startDvd
      · rwa [hm])
    unfold ibUmemOdpUnmapDmaPages
    dsimp only
    rw [max_eq_left (le_max_left u.start start), min_eq_left (min_le_left u.stop stop), hj]
    rcases Nat.lt_or_ge (u.addr j) (min u.stop stop) with hlt | hge
    · obtain ⟨e, he⟩ := u.exists_addr (a := min u.stop stop)
        ((le_max_left u.start start).trans (hj.trans_le hlt.le)) (by
          rcases min_choice u.stop stop with hm | hm
          · rw [hm]
            exact u.stopDvd
          · rwa [hm])
      have hje : j ≤ e := u.addr_le_iff.mp (he ▸ hlt.le)
      have hen : e ≤ u.numPages := by
        rw [← u.addr_le_iff, ← u.stop_eq, ← he]
        exact min_le_left ..
      rw [he, rounds_addr]
      obtain ⟨hz, h0⟩ := zapLoop_spec hxlt (e - j) j 0 none s h (by omega) nofun
      obtain ⟨h₁, hmtt, hdma⟩ := unmapLoop_spec (e - j) j _ (hz.inv h) (by omega) h0
      refine ⟨h₁, hmtt, ?_, fun i hi hs he' => ?_⟩
      · obtain ⟨mtt, written, heq⟩ := hz.eq
        rw [heq]
      · have hji : j ≤ i := by
          rw [← u.addr_le_iff, ← hj]
          exact max_le (Nat.le_add_right ..) hs
        have hie : i < e := by
          by_contra hei
          have := u.addr_le_iff.mpr (Nat.not_lt.mp hei)
          have := u.addr_le_iff (i := u.numPages) (j := i)
          rw [← u.stop_eq] at this
          omega
        exact ⟨h0 i hji (by omega), hdma i (.inl ⟨hji, by omega⟩)⟩
    · -- the range does not meet the region
      have h0 : rounds u (u.addr j) (min u.stop stop) = 0 := by
        exact Nat.div_eq_of_lt (by have := u.pageSize_pos; omega)
      rw [h0]
      refine ⟨h, rfl, rfl, fun i hi hs he => ?_⟩
      have hlow : u.addr j ≤ u.addr i := by
        rw [← hj]
        exact max_le (Nat.le_add_right ..) hs
      have := u.addr_le_iff (i := u.numPages) (j := i)
      rw [← u.stop_eq] at this
      omega

/-- STEP: the invariant is kept by each operation that meets the condition. -/
theorem Inv.step (h : Inv compoundHead u s) {op : Op} (hok : ok u s op) (hmeets : Meets u s op) :
    Inv compoundHead u (OdpMr.step compoundHead u s op) := by
  cases op with
  | fault userVa bcnt flags env => exact h.fault hok hmeets
  | invalidate start stop xlt => exact (h.invalidate hok).1

theorem Inv.sound (h : Inv compoundHead u s) : Sound compoundHead u s where
  mtt i hi := by
    rcases h.mtt i hi with h0 | heq
    · exact .inl h0
    · by_cases hdma : s.dmaList i = 0
      · exact .inl (h.idle i hi hdma)
      · refine .inr ⟨heq, hdma, List.count_pos_iff.mp ?_⟩
        rw [h.live]
        refine lt_of_le_of_lt (Nat.zero_le _) (Nat.count_strict_mono ⟨hdma, rfl⟩ hi)
  npages := h.npages
  dirty := h.log
  zapped start stop xlt hok i hi hs he := by
    obtain ⟨-, hmtt, hlive, hzero⟩ := h.invalidate hok
    exact ⟨(hzero i hi hs he).1, hlive, hmtt, (hzero i hi hs he).2⟩

/-- CORRECT: in every run in which no fault takes the write permission from a page that the device could
    write, and none that fails has changed the permissions of a page in the device's table, each entry
    of the table is zero or that of a live mapping, and each page that the device could write is
    marked dirty. -/
theorem odp_mr (h : Reach (OdpMr.step compoundHead u) (fun s op => ok u s op ∧ Meets u s op)
    Odp.init s) : Sound compoundHead u s :=
  (h.invariant inv_init fun _ _ hok hinv => hinv.step hok.1 hok.2).sound

end Core
/-- A region of two pages of 4 KiB. -/
def demoUmem : Umem :=
  ⟨0x1000, 0x3000, 12, true, by decide, by decide, by decide, by decide, by decide, by decide⟩

/-- The process has all pages and may write them; `dma` is the answer for each DMA mapping. -/
def demoEnv (dma : Option DmaAddr) : Env :=
  ⟨true, none, fun i => ⟨true, true, 0, 100 + i⟩, fun _ => dma, ⟨true, true, true⟩⟩

def demoAddr : DmaAddr := ⟨0x7000#64, by decide⟩

/-- Both pages are faulted in, the first is invalidated, and a read-only prefetch of it fails. -/
def demoOps : List Op :=
  [.fault 0x1000 0x2000 ⟨false, false⟩ (demoEnv (some demoAddr)),
    .invalidate 0x1000 0x2000 fun _ => ⟨true, true, true⟩,
    .fault 0x1000 0x1000 ⟨true, false⟩ (demoEnv none)]

theorem odp_mr_demo : Sound id demoUmem (demoOps.foldl (step id demoUmem) Odp.init) := by
  refine odp_mr (Reach.runs .start ⟨⟨⟨rfl, fun _ => ⟨fun _ => by decide, fun i _ _ h =>
    absurd rfl h⟩⟩, fun _ _ => ⟨fun i _ _ _ h => absurd rfl h, fun _ i _ _ _ h => absurd rfl h⟩⟩,
    ⟨⟨by decide, by decide, fun _ => rfl⟩, trivial⟩, ?_, trivial⟩)
  have h0 : ∀ i, Covers demoUmem 0x1000 0x1000 i →
      ([demoOps[0], demoOps[1]].foldl (step id demoUmem) Odp.init).dmaList i = 0 := by
    rintro i ⟨-, hi⟩
    obtain rfl : i = 0 := Nat.lt_one_iff.mp hi
    decide
  exact ⟨⟨rfl, fun _ => ⟨fun _ => by decide, fun i _ hc h => absurd (h0 i hc) h⟩⟩,
    fun _ _ => ⟨fun i _ hc _ h => absurd (h0 i hc) h, fun _ i _ hc _ h => absurd (h0 i hc) h⟩⟩

/-- A page is faulted in for writing, prefetched read-only, and invalidated. -/
def downgradeOps : List Op :=
  [.fault 0x1000 0x1000 ⟨false, false⟩ (demoEnv (some demoAddr)),
    .fault 0x1000 0x1000 ⟨true, false⟩ (demoEnv (some demoAddr)),
    .invalidate 0x1000 0x2000 fun _ => ⟨true, true, true⟩]

theorem odp_mr_broken : ∃ s, Reach (step id demoUmem) (ok demoUmem) Odp.init s ∧
    ¬ Sound id demoUmem s := by
  refine ⟨downgradeOps.foldl (step id demoUmem) Odp.init, Reach.runs .start
    ⟨⟨rfl, fun _ => ⟨fun _ => by decide, fun i _ _ h => absurd rfl h⟩⟩,
    ⟨rfl, fun _ => ⟨fun _ => by decide, ?_⟩⟩, ⟨by decide, by decide, fun _ => rfl⟩, trivial⟩,
    fun h => ?_⟩
  · rintro i - ⟨-, hi⟩ -
    obtain rfl : i = 0 := Nat.lt_one_iff.mp hi
    decide
  · -- the page was written through the device's table, and is not marked dirty
    exact absurd (h.dirty ⟨100, true, none⟩ (by decide) rfl) (by decide)

end RdmaDriver.OdpMr
