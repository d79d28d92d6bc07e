import RdmaDriver.Basic

/-! @src drivers/infiniband/hw/mlx5/odp.c, core/umem_odp.c | name:Memory-Scheme Page Faults |
    scheme:window | family:page-table

    The device reports a fault address and how many bytes around it should be there. The handler
    asks for all of them, cut to the region, and if that fails for the faulted bytes alone.

                     before      fault       after
        io_virt   +----------+▓▓▓▓▓▓▓▓▓▓▓+-----------+
                        | iova                  | iova + length
                        v address               v
        user_va   [ start …                     … end )

    Addresses are 64 bits wide and byte counts 32: what is calculated from them is reduced. -/

namespace RdmaDriver.MemoryFault

/-! ### Code -/

def EFAULT : ℤ := 14

/-- `ALIGN_DOWN`. -/
def alignDown (n a : ℕ) : ℕ := n / a * a

/-- An explicit ODP region: `ib_init_umem_odp` rejects one whose last page ends at 2^64 or above. -/
structure Mr where
  iova : ℕ
  address : ℕ
  length : ℕ
  pageShift : ℕ
  iovaLt : iova < 2 ^ 64
  endLt : align (address + length) (2 ^ pageShift) < 2 ^ 64

/-- `pfault->memory`. -/
structure Fault where
  va : ℕ
  faultByteCount : ℕ
  prefetchBeforeByteCount : ℕ
  prefetchAfterByteCount : ℕ
  last : Bool
  vaLt : va < 2 ^ 64
  faultLt : faultByteCount < 2 ^ 32
  beforeLt : prefetchBeforeByteCount < 2 ^ 32
  afterLt : prefetchAfterByteCount < 2 ^ 32

/-- A call of `pagefault_real_mr` and what it returned. -/
structure Call where
  userVa : ℕ
  bcnt : ℕ
  ret : ℤ
  deriving DecidableEq

variable (mr : Mr)

/-- `ib_umem_start` and `ib_umem_end`. -/
def Mr.start : ℕ := alignDown mr.address (2 ^ mr.pageShift)
def Mr.stop : ℕ := align (mr.address + mr.length) (2 ^ mr.pageShift)

/-- `pagefault_real_mr`: the range check of `ib_umem_odp_map_dma_and_lock`, behind which faults,
    mapping and the update of the translations return `res`. -/
def pagefaultRealMr (userVa bcnt : ℕ) (res : ℤ) : Call :=
  { userVa := userVa, bcnt := bcnt,
    ret := if userVa < mr.start ∨ toU 64 (userVa + bcnt) > mr.stop then -EFAULT else res }

/-- The address in the process, unless the sum overflows. -/
def userVa (ioVirt : ℕ) : Option ℕ :=
  let offset := if ioVirt < mr.iova then 0 else ioVirt - mr.iova
  if offset + mr.address < 2 ^ 64 then some (offset + mr.address) else none

/-- The cut of a permissive fault. -/
def clamp (userVa bcnt : ℕ) : ℕ × ℕ :=
  let userVa := if userVa < mr.start then mr.start else userVa
  (userVa, if toU 64 (userVa + bcnt) > mr.stop then toU 64 ((mr.stop : ℤ) - userVa) else bcnt)

/-- `pagefault_mr` for an explicit region: what it returns, and the call that it makes. -/
def pagefaultMr (ioVirt bcnt : ℕ) (permissiveFault : Bool) (res : ℤ) : ℤ × List Call :=
  if ioVirt < mr.iova ∧ ¬permissiveFault then (-EFAULT, [])
  else match userVa mr ioVirt with
    | none => (-EFAULT, [])
    | some userVa =>
      if permissiveFault then
        let window := clamp mr userVa bcnt
        let call := pagefaultRealMr mr window.1 window.2 res
        (call.ret, [call])
      else if userVa ≥ mr.stop ∨ mr.stop - userVa < bcnt then (-EFAULT, [])
      else
        let call := pagefaultRealMr mr userVa bcnt res
        (call.ret, [call])

/-- `prefetch_va` and `prefetch_size`. -/
def prefetchVa (pf : Fault) : ℕ := toU 64 ((pf.va : ℤ) - pf.prefetchBeforeByteCount)

def prefetchSize (pf : Fault) : ℕ :=
  toU 32 (pf.prefetchBeforeByteCount + pf.faultByteCount + pf.prefetchAfterByteCount)

/-- The end of `mlx5_ib_mr_memory_pfault_handler`: with an error the fault is resumed, without one
    only if it is the last of its token. -/
def resume (pf : Fault) (ret : ℤ) : Option Bool :=
  if ret < 0 then some true else if pf.last then some false else none

/-- `mlx5_ib_mr_memory_pfault_handler` for the region that the mkey names, or none: the error flag
    of the resume, and the calls of `pagefault_real_mr`. The two that it can make return what `res`
    says, if they get that far. -/
def memoryPfaultHandler (mmkey : Option Mr) (pf : Fault) (res : Fin 2 → ℤ) :
    Option Bool × List Call :=
  match mmkey with
  | none => (some true, [])
  | some mr =>
    let r := pagefaultMr mr (prefetchVa pf) (prefetchSize pf) true (res 0)
    if r.1 < 0 then
      let r' := pagefaultMr mr pf.va pf.faultByteCount true (res 1)
      (resume pf r'.1, r.2 ++ r'.2)
    else (resume pf r.1, r.2)

/-! ### The window -/

/-- A faulted byte is in the region. -/
def Intersects (pf : Fault) : Prop :=
  ∃ b, pf.va ≤ b ∧ b < pf.va + pf.faultByteCount ∧ mr.iova ≤ b ∧ b < mr.iova + mr.length

/-- The cut of `bcnt` bytes at `io_virt` calculates without a wrap. -/
def CutExact (ioVirt bcnt : ℕ) : Prop :=
  ∀ u, userVa mr ioVirt = some u → u + bcnt < 2 ^ 64 ∧ (mr.stop < u + bcnt → u ≤ mr.stop)

/-- What is promised for one fault and one outcome of the calls: the window is calculated without a
    wrap, each call gets a part of the region that is not empty, and unless the handler resumes with
    an error, the pages of the calls that succeeded have all faulted bytes of the region. -/
structure Served (pf : Fault) (res : Fin 2 → ℤ) : Prop where
  before : pf.prefetchBeforeByteCount ≤ pf.va
  size : pf.prefetchBeforeByteCount + pf.faultByteCount + pf.prefetchAfterByteCount < 2 ^ 32
  cut : CutExact mr (prefetchVa pf) (prefetchSize pf)
  cutDemand : (pagefaultMr mr (prefetchVa pf) (prefetchSize pf) true (res 0)).1 < 0 →
    CutExact mr pf.va pf.faultByteCount
  inside : ∀ c ∈ (memoryPfaultHandler (some mr) pf res).2,
    0 < c.bcnt ∧ mr.start ≤ c.userVa ∧ c.userVa + c.bcnt ≤ mr.stop
  covered : (memoryPfaultHandler (some mr) pf res).1 ≠ some true → ∀ b t, pf.va ≤ b →
    b < pf.va + pf.faultByteCount → t + mr.iova = mr.address + b → mr.start ≤ t → t < mr.stop →
    ∃ c ∈ (memoryPfaultHandler (some mr) pf res).2, 0 ≤ c.ret ∧
      alignDown c.userVa (2 ^ mr.pageShift) ≤ t ∧
      t < align (c.userVa + c.bcnt) (2 ^ mr.pageShift)

variable {mr} {pf : Fault} {res : Fin 2 → ℤ} {io n b t a : ℕ} {r : ℤ}

theorem alignDown_le (n a : ℕ) : alignDown n a ≤ n := Nat.div_mul_le_self n a

theorem Mr.start_le (mr : Mr) : mr.start ≤ mr.address := alignDown_le _ _

theorem Mr.le_stop (mr : Mr) : mr.address + mr.length ≤ mr.stop :=
  le_align _ (Nat.two_pow_pos _)

/-- The translation of an address that is not past the region, as far as it is not below it. -/
theorem userVa_eq (h : mr.address + (io - mr.iova) < 2 ^ 64) :
    userVa mr io = some (mr.address + (io - mr.iova)) := by
  have hoff : (if io < mr.iova then 0 else io - mr.iova) = io - mr.iova := by
    split_ifs with hio
    · omega
    · rfl
  simp only [userVa, hoff]
  rw [Nat.add_comm mr.address] at h ⊢
  exact if_pos h

theorem userVa_lt (hlen : 0 < mr.length) (hio : io < mr.iova + mr.length) :
    mr.address + (io - mr.iova) < mr.stop := by
  have := mr.le_stop
  omega

/-- CUT: what the call is asked for. -/
theorem clamp_eq {u : ℕ} (hu : mr.address ≤ u) (hlt : u < mr.stop) (hsum : u + n < 2 ^ 64) :
    clamp mr u n = (u, min n (mr.stop - u)) := by
  have hstart : ¬u < mr.start := by
    have := mr.start_le
    omega
  have hadd : toU 64 ((u : ℤ) + n) = u + n := by
    rw [← Nat.cast_add]
    exact toU_of_lt hsum
  have hsub : toU 64 ((mr.stop : ℤ) - u) = mr.stop - u := toU_sub mr.endLt hlt.le
  rw [clamp]
  simp only [if_neg hstart]
  refine congrArg (Prod.mk u) ?_
  split_ifs with h
  · omega
  · omega

/-- The call for the `n` bytes at `io`. -/
def windowCall (mr : Mr) (io n : ℕ) (r : ℤ) : Call :=
  { userVa := mr.address + (io - mr.iova),
    bcnt := min n (mr.stop - (mr.address + (io - mr.iova))), ret := r }

/-- ONE CALL: a window that starts in the region leads to one call, which returns what it may. -/
theorem pagefaultMr_eq (hlen : 0 < mr.length) (hio : io < mr.iova + mr.length)
    (hsum : mr.address + (io - mr.iova) + n < 2 ^ 64) :
    pagefaultMr mr io n true r = (r, [windowCall mr io n r]) := by
  have hlt := userVa_lt hlen hio
  have hend : toU 64 (((mr.address + (io - mr.iova) : ℕ) : ℤ) +
      (min n (mr.stop - (mr.address + (io - mr.iova))) : ℕ)) ≤ mr.stop := by
    rw [← Nat.cast_add, toU_of_lt (by omega)]
    omega
  have hret : ¬(mr.address + (io - mr.iova) < mr.start ∨
      toU 64 (((mr.address + (io - mr.iova) : ℕ) : ℤ) +
        (min n (mr.stop - (mr.address + (io - mr.iova))) : ℕ)) > mr.stop) := by
    have := mr.start_le
    rintro (h | h)
    · omega
    · exact absurd hend (Nat.not_le.mpr h)
  rw [pagefaultMr, if_neg (by simp), userVa_eq (by omega)]
  simp only [clamp_eq (Nat.le_add_right _ _) hlt hsum, pagefaultRealMr]
  rw [if_neg hret]
  rfl

theorem windowCall_inside (hn : 0 < n) (hlen : 0 < mr.length) (hio : io < mr.iova + mr.length) :
    0 < (windowCall mr io n r).bcnt ∧ mr.start ≤ (windowCall mr io n r).userVa ∧
      (windowCall mr io n r).userVa + (windowCall mr io n r).bcnt ≤ mr.stop := by
  have hlt := userVa_lt hlen hio
  have hstart := mr.start_le
  simp only [windowCall]
  omega

/-- A call that succeeds has the pages of every byte from its start on, up to its size or the end of
    the region. -/
theorem covers_of (hva : io ≤ b) (hb : b < io + n) (ht : t + mr.iova = mr.address + b)
    (hstart : mr.start ≤ t) (hstop : t < mr.stop) :
    alignDown (windowCall mr io n r).userVa (2 ^ mr.pageShift) ≤ t ∧
      t < align ((windowCall mr io n r).userVa + (windowCall mr io n r).bcnt)
        (2 ^ mr.pageShift) := by
  simp only [windowCall]
  constructor
  · rcases Nat.lt_or_ge b mr.iova with hlow | hge
    · -- below the region, but in its first page
      rw [Nat.sub_eq_zero_of_le (by omega : io ≤ mr.iova), Nat.add_zero]
      exact hstart
    · exact (alignDown_le _ _).trans (by omega)
  · exact lt_of_lt_of_le (by omega) (le_align _ (Nat.two_pow_pos _))

theorem prefetchVa_eq (h : pf.prefetchBeforeByteCount ≤ pf.va) :
    prefetchVa pf = pf.va - pf.prefetchBeforeByteCount :=
  toU_sub pf.vaLt h

theorem prefetchSize_eq (h : pf.prefetchBeforeByteCount + pf.faultByteCount +
    pf.prefetchAfterByteCount < 2 ^ 32) : prefetchSize pf =
      pf.prefetchBeforeByteCount + pf.faultByteCount + pf.prefetchAfterByteCount := by
  rw [prefetchSize, ← Nat.cast_add, ← Nat.cast_add]
  exact toU_of_lt h

/-- The cut of a window that starts in the region. -/
theorem cutExact_iff (hlen : 0 < mr.length) (hio : io < mr.iova + mr.length) :
    CutExact mr io n ↔ mr.address + (io - mr.iova) + n < 2 ^ 64 := by
  have hlt := userVa_lt hlen hio
  have hstop : mr.stop < 2 ^ 64 := mr.endLt
  have hva : userVa mr io = some (mr.address + (io - mr.iova)) := userVa_eq (by omega)
  refine ⟨fun h => (h _ hva).1, fun h u hu => ?_⟩
  obtain rfl := Option.some.inj (hva.symm.trans hu)
  exact ⟨h, fun _ => hlt.le⟩

theorem nonneg_of_resume (h : resume pf r ≠ some true) : 0 ≤ r := by
  by_contra hneg
  exact h (if_pos (by omega))

/-- CORRECT only in part: a fault that intersects the region is served, whatever the calls return,
    iff the window starts at an address that is not negative, its size is below 2^32, and its
    translation ends below 2^64. -/
theorem memory_fault (hint : Intersects mr pf) : (∀ res, Served mr pf res) ↔
    pf.prefetchBeforeByteCount ≤ pf.va ∧
    pf.prefetchBeforeByteCount + pf.faultByteCount + pf.prefetchAfterByteCount < 2 ^ 32 ∧
    mr.address + (pf.va - pf.prefetchBeforeByteCount - mr.iova) +
      (pf.prefetchBeforeByteCount + pf.faultByteCount + pf.prefetchAfterByteCount) <
        2 ^ 64 := by
  obtain ⟨x, hx, hxlt, hxiova, hxend⟩ := hint
  have hlen : 0 < mr.length := by omega
  have hva : pf.va < mr.iova + mr.length := by omega
  constructor
  · intro h
    obtain ⟨hbefore, hsize, hcut, -, -, -⟩ := h fun _ => 0
    rw [prefetchVa_eq hbefore, prefetchSize_eq hsize, cutExact_iff hlen (by omega)] at hcut
    exact ⟨hbefore, hsize, hcut⟩
  · rintro ⟨hbefore, hsize, hsum⟩ res
    have hp := prefetchVa_eq hbefore
    have hn := prefetchSize_eq hsize
    have hfirst := @pagefaultMr_eq mr _ _ (res 0) hlen (by omega) hsum
    have hdemand : mr.address + (pf.va - mr.iova) + pf.faultByteCount < 2 ^ 64 := by omega
    have hsecond := @pagefaultMr_eq mr _ _ (res 1) hlen hva hdemand
    rw [← hp, ← hn] at hfirst
    have hcall : memoryPfaultHandler (some mr) pf res =
        if res 0 < 0 then (resume pf (res 1),
          [windowCall mr (prefetchVa pf) (prefetchSize pf) (res 0),
            windowCall mr pf.va pf.faultByteCount (res 1)])
        else (resume pf (res 0), [windowCall mr (prefetchVa pf) (prefetchSize pf) (res 0)]) := by
      simp only [memoryPfaultHandler, hfirst, hsecond]
      rfl
    refine ⟨hbefore, hsize, ?_, fun _ => (cutExact_iff hlen hva).mpr hdemand, ?_, ?_⟩
    · rw [hp, hn, cutExact_iff hlen (by omega)]
      exact hsum
    · rw [hcall, hp, hn]
      intro c hc
      split_ifs at hc with hneg
      · rcases List.mem_cons.mp hc with rfl | hc
        · exact windowCall_inside (by omega) hlen (by omega)
        · obtain rfl := List.mem_singleton.mp hc
          exact windowCall_inside (by omega) hlen hva
      · obtain rfl := List.mem_singleton.mp hc
        exact windowCall_inside (by omega) hlen (by omega)
    · rw [hcall, hp, hn]
      intro hres b t hb hblt ht hts hte
      split_ifs at hres ⊢ with hneg
      · exact ⟨_, List.mem_cons_of_mem _ (List.mem_singleton.mpr rfl), nonneg_of_resume hres,
          covers_of hb hblt ht hts hte⟩
      · exact ⟨_, List.mem_singleton.mpr rfl, nonneg_of_resume hres,
          covers_of (by omega) (by omega) ht hts hte⟩

/-- A page of the process at 4 MB, with addresses of its own from 0. -/
def demoMr : Mr :=
  { iova := 0, address := 0x400000, length := 4096, pageShift := 12, iovaLt := by decide,
    endLt := by decide }

/-- The first page of the region, with `before` bytes in front of it. -/
def demoFault (va before : ℕ) (hva : va < 2 ^ 64) (h : before < 2 ^ 32) : Fault :=
  { va := va, faultByteCount := 4096, prefetchBeforeByteCount := before,
    prefetchAfterByteCount := 4096, last := true, vaLt := hva, faultLt := by decide,
    beforeLt := h, afterLt := by decide }

theorem memory_fault_demo :
    Served demoMr (demoFault 0 0 (by decide) (by decide)) (fun _ => 1) :=
  (memory_fault ⟨0, by decide, by decide, by decide, by decide⟩).mpr (by decide) _

/-- A region of 8 GB, and a fault of all but one page of 4 GB behind its first page. -/
def wideMr : Mr :=
  { iova := 0, address := 0x400000, length := 2 ^ 33, pageShift := 12, iovaLt := by decide,
    endLt := by decide }

def wideFault : Fault :=
  { va := 4096, faultByteCount := 2 ^ 32 - 4096, prefetchBeforeByteCount := 4096,
    prefetchAfterByteCount := 4096, last := true, vaLt := by decide, faultLt := by decide,
    beforeLt := by decide, afterLt := by decide }

/-- BROKEN: with 8 MB in front of address 0 the window starts 4 MB below 2^64: the call is not in
    the region, and the range check lets it pass. And where the three counts sum up to 2^32 + 4096,
    only the page in front of the fault is asked for, and the handler resumes without an error. -/
theorem memory_fault_broken :
    (Intersects demoMr (demoFault 0 0x800000 (by decide) (by decide)) ∧
      memoryPfaultHandler (some demoMr) (demoFault 0 0x800000 (by decide) (by decide))
          (fun _ => 1) =
        (some false, [⟨2 ^ 64 - 0x400000, 0x801000, 1⟩]) ∧ demoMr.stop < 2 ^ 64 - 0x400000) ∧
    Intersects wideMr wideFault ∧
      memoryPfaultHandler (some wideMr) wideFault (fun _ => 1) =
        (some false, [⟨0x400000, 4096, 1⟩]) := by
  refine ⟨⟨⟨0, ?_⟩, ?_, ?_⟩, ⟨4096, ?_⟩, ?_⟩ <;> decide +kernel

end RdmaDriver.MemoryFault
