import RdmaDriver.Core.Umem

/-! @src drivers/infiniband/hw/mlx5/mem.c, include/rdma/ib_umem.h | name:Quantized page offset |
    scheme:halving | family:translation

    Some mailboxes hold the offset of a region in its first page in a field of few bits, counted in
    quanta: a page has `scale` of them, whatever its size. `__mlx5_umem_find_best_quantized_pgoff`
    starts with the best page size for the region and halves it until the offset is a number of
    quanta that the field can hold; a size that is not one of the supported ones is of no use then.

        offset & ~(mask * quantum)     0 … 0 | field | 0 … 0
                                              ← bits → ← log quantum →

    A size below `scale` has a quantum of zero, and the offset has to be zero then. -/

namespace RdmaDriver.QuantPgoff
open Schemes UmemDma

/-- What can go wrong: a loop that does not end and a division by zero. -/
inductive Fault where
  | loops | divZero
  deriving DecidableEq

/-- A division of unsigned numbers. -/
def udiv (n d : ℕ) : Except Fault ℕ := if d = 0 then .error .divZero else .ok (n / d)

/-- `sg_dma_address` of the first entry. -/
def sgDmaAddress (u : Umem) : ℕ := (u.sgl.head?.map fun sg => sg.addr).getD 0

/-- The DMA address of the first byte of the region. -/
def dmaStart (ps : ℕ) (u : Umem) : ℕ := (sgDmaAddress u + ibUmemOffset ps u) % 2 ^ 64

/-- `ib_umem_dma_offset`. -/
def ibUmemDmaOffset (ps : ℕ) (u : Umem) (pgsz : ℕ) : ℕ :=
  dmaStart ps u &&& toU 64 ((pgsz : ℤ) - 1)

/-- `ib_umem_find_best_pgoff`. -/
def ibUmemFindBestPgoff (ps : ℕ) (u : Umem) (pgszBitmap pgoffBitmask : ℕ) : ℕ :=
  (ibUmemFindBestPgsz ps u pgszBitmap (dmaStart ps u &&& pgoffBitmask)).1

/-- The bits of an offset that is a number of quanta, as `page_offset_mask * (page_size / scale)`
    gives them. -/
def offsetBits (pageOffsetMask quantum : ℕ) : ℕ := toU 64 (pageOffsetMask * quantum : ℕ)

/-- The loop that halves the page size. -/
def pgoffLoop (ps : ℕ) (u : Umem) (pageOffsetMask scale : ℕ) : ℕ → ℕ → Except Fault ℕ
  | fuel, pageSize => do
    let quantum ← udiv pageSize scale
    let pageOffset := ibUmemDmaOffset ps u pageSize
    if pageOffset &&& (2 ^ 64 - 1 - offsetBits pageOffsetMask quantum) ≠ 0 then
      match fuel with
      | 0 => .error .loops
      | fuel + 1 => pgoffLoop ps u pageOffsetMask scale fuel (pageSize / 2)
    else .ok pageSize

/-- `__mlx5_umem_find_best_quantized_pgoff`: the page size and what is stored in
    `*page_offset_quantized`, a 32-bit number. The shift takes its count modulo 64, as the processor
    does. -/
def umemFindBestQuantizedPgoff (ps : ℕ) (u : Umem)
    (pgszBitmap pageOffsetBits pgoffBitmask scale fuel : ℕ) : Except Fault (ℕ × Option ℕ) := do
  let pageOffsetMask := 2 ^ (pageOffsetBits % 64) - 1
  let pageSize := ibUmemFindBestPgoff ps u pgszBitmap pgoffBitmask
  if pageSize = 0 then return (0, none)
  let pageSize ← pgoffLoop ps u pageOffsetMask scale fuel pageSize
  if pgszBitmap &&& pageSize = 0 then return (0, none)
  let quantum ← udiv pageSize scale
  let quantized ← udiv (ibUmemDmaOffset ps u pageSize) quantum
  let quantized := toU 32 (quantized : ℕ)
  if quantized > pageOffsetMask then return (0, some quantized)
  return (pageSize, some quantized)

/-! ### Offsets -/

theorem dmaOffset_eq (ps : ℕ) (u : Umem) {i : ℕ} (hi : i < 64) :
    ibUmemDmaOffset ps u (2 ^ i) = dmaStart ps u % 2 ^ i := by
  have hlt : 2 ^ i < 2 ^ 64 := Nat.pow_lt_pow_right Nat.one_lt_two hi
  have hpred : toU 64 (((2 ^ i : ℕ) : ℤ) - 1) = 2 ^ i - 1 :=
    @toU_sub 64 (2 ^ i) 1 hlt Nat.one_le_two_pow
  rw [ibUmemDmaOffset, hpred, Nat.and_two_pow_sub_one_eq_mod]

/-- The first page of a pinned region holds its first byte. -/
theorem byteAt_first {ps : ℕ} {u : Umem} (h : Valid ps u) :
    byteAt u.sgl (ibUmemOffset ps u) = some (dmaStart ps u) := by
  obtain ⟨sg, rest, hsgl⟩ := List.exists_cons_of_ne_nil h.nonempty
  have hmem : sg ∈ u.sgl := hsgl ▸ List.mem_cons_self
  have hmapped := h.mapped sg hmem
  have hlen : 2 ^ ps ≤ sg.len := Nat.le_of_dvd hmapped.pos (h.pages sg hmem).2
  have hoff : ibUmemOffset ps u < sg.len := (Nat.mod_lt _ (Nat.two_pow_pos ps)).trans_le hlen
  have hend := hmapped.fits
  rw [hsgl, byteAt_of_lt hoff, dmaStart, sgDmaAddress, hsgl]
  exact congrArg some (Nat.mod_eq_of_lt (by omega)).symm

/-- The bits of an offset are those of the field, moved up by a quantum. -/
theorem testBit_offsetBits {b q j : ℕ} (h : (offsetBits (2 ^ b - 1) (2 ^ q)).testBit j = true) :
    q ≤ j ∧ j < q + b := by
  rw [offsetBits, toU_eq_mod, Nat.testBit_mod_two_pow, ← Nat.shiftLeft_eq, Nat.testBit_shiftLeft,
    Nat.testBit_two_pow_sub_one] at h
  simp only [Bool.and_eq_true, decide_eq_true_eq] at h
  omega

/-- An offset that the field can hold is a number of quanta. -/
theorem fits_field {x b q : ℕ} (hx : x < 2 ^ 64)
    (h : x &&& (2 ^ 64 - 1 - offsetBits (2 ^ b - 1) (2 ^ q)) = 0) :
    2 ^ q ∣ x ∧ x / 2 ^ q < 2 ^ b := by
  have hbits : ∀ j, x.testBit j = true → q ≤ j ∧ j < q + b := by
    intro j hj
    have hj64 : j < 64 := by
      by_contra hge
      rw [Nat.testBit_lt_two_pow (hx.trans_le (Nat.pow_le_pow_right Nat.two_pos (by omega)))] at hj
      cases hj
    have hlt : offsetBits (2 ^ b - 1) (2 ^ q) < 2 ^ 64 := by
      exact Nat.mod_lt _ (Nat.two_pow_pos 64)
    have hand := congrArg (fun n => n.testBit j) h
    simp only [Nat.testBit_and, Nat.zero_testBit, hj, Bool.true_and, Nat.sub_sub, Nat.add_comm 1,
      Nat.testBit_two_pow_sub_succ hlt, hj64, decide_true, Bool.not_eq_false'] at hand
    exact testBit_offsetBits hand
  constructor
  · refine Nat.dvd_of_mod_eq_zero (Nat.eq_of_testBit_eq fun j => ?_)
    by_cases hj : x.testBit j = true
    · have := (hbits j hj).1
      simp [Nat.not_lt.mpr this]
    · simp [hj]
  · refine Nat.lt_pow_two_of_testBit _ fun j hj => ?_
    rw [Nat.testBit_div_two_pow]
    by_contra hne
    have := (hbits (j + q) (by simpa using hne)).2
    omega

/-! ### The loop -/

section Loop

variable {ps : ℕ} {u : Umem} {b k i : ℕ}

/-- The offset for a page of `2 ^ j` bytes is a number of quanta that the field can hold. -/
def Representable (ps : ℕ) (u : Umem) (b k j : ℕ) : Prop :=
  k ≤ j → 2 ^ (j - k) ∣ dmaStart ps u % 2 ^ j ∧ dmaStart ps u % 2 ^ j / 2 ^ (j - k) < 2 ^ b

theorem udiv_scale (pageSize k : ℕ) : udiv pageSize (2 ^ k) = .ok (pageSize / 2 ^ k) :=
  if_neg (Nat.two_pow_pos k).ne'

/-- Where the loop stops, the offset is representable. -/
theorem representable_of_stop (hi : i < 64) (h : ibUmemDmaOffset ps u (2 ^ i) &&&
    (2 ^ 64 - 1 - offsetBits (2 ^ b - 1) (2 ^ i / 2 ^ k)) = 0) : Representable ps u b k i := by
  intro hk
  rw [dmaOffset_eq ps u hi, Nat.pow_div hk Nat.two_pos] at h
  have hlt : dmaStart ps u % 2 ^ i < 2 ^ 64 :=
    (Nat.mod_le _ _).trans_lt (Nat.mod_lt _ (Nat.two_pow_pos 64))
  exact fits_field hlt h

/-- RUN: the loop stops at a representable offset, at the latest with a page of one byte. -/
theorem pgoffLoop_spec : ∀ (fuel i : ℕ), i ≤ fuel → i < 64 → ∃ j ≤ i,
    pgoffLoop ps u (2 ^ b - 1) (2 ^ k) fuel (2 ^ i) = .ok (2 ^ j) ∧ Representable ps u b k j := by
  intro fuel
  induction fuel with
  | zero =>
    intro i hfuel hi
    obtain rfl := Nat.le_zero.mp hfuel
    have hstop : ibUmemDmaOffset ps u (2 ^ 0) &&&
        (2 ^ 64 - 1 - offsetBits (2 ^ b - 1) (2 ^ 0 / 2 ^ k)) = 0 := by
      rw [dmaOffset_eq ps u hi, pow_zero, Nat.mod_one, Nat.zero_and]
    refine ⟨0, le_rfl, ?_, representable_of_stop hi hstop⟩
    rw [pgoffLoop, udiv_scale]
    exact if_neg (not_not.mpr hstop)
  | succ fuel ih =>
    intro i hfuel hi
    by_cases hstop : ibUmemDmaOffset ps u (2 ^ i) &&&
        (2 ^ 64 - 1 - offsetBits (2 ^ b - 1) (2 ^ i / 2 ^ k)) = 0
    · refine ⟨i, le_rfl, ?_, representable_of_stop hi hstop⟩
      rw [pgoffLoop, udiv_scale]
      exact if_neg (not_not.mpr hstop)
    · -- a page of one byte has no offset
      obtain ⟨i, rfl⟩ := Nat.exists_eq_add_one_of_ne_zero (n := i) (by
        rintro rfl
        exact hstop (by rw [dmaOffset_eq ps u hi, pow_zero, Nat.mod_one, Nat.zero_and]))
      obtain ⟨j, hj, hloop, hrep⟩ := ih i (by omega) (by omega)
      refine ⟨j, by omega, ?_, hrep⟩
      rw [pgoffLoop, udiv_scale]
      refine (if_pos hstop).trans ?_
      rw [pow_succ, Nat.mul_div_cancel _ Nat.two_pos, hloop]

end Loop

/-- A page size that is found is one of the bitmap. -/
theorem pickPgsz_mem {pgszBitmap mask : ℕ} (hne : pickPgsz pgszBitmap mask ≠ 0) :
    ∃ i, pickPgsz pgszBitmap mask = 2 ^ i ∧ pgszBitmap.testBit i = true := by
  rw [pickPgsz] at hne ⊢
  generalize hbm : (if mask = 0 then pgszBitmap
    else pgszBitmap &&& genmask (countTrailingZeros 64 mask) 0) = bitmap at hne ⊢
  have hbit : bitmap ≠ 0 := by
    rintro rfl
    exact hne rfl
  have htop : bitmap.testBit bitmap.log2 = true := Nat.testBit_log2 hbit
  rw [if_neg hbit]
  refine ⟨bitmap.log2, rfl, ?_⟩
  by_cases h0 : mask = 0
  · rw [if_pos h0] at hbm
    exact hbm ▸ htop
  · rw [if_neg h0] at hbm
    nth_rewrite 1 [← hbm] at htop
    rw [Nat.testBit_and, Bool.and_eq_true] at htop
    exact htop.1

theorem and_two_pow_ne_zero {n i : ℕ} : n &&& 2 ^ i ≠ 0 ↔ n.testBit i = true := by
  rw [Nat.and_two_pow]
  cases n.testBit i <;> simp

theorem findBestPgoff_mem {ps : ℕ} {u : Umem} {pgszBitmap pgoffBitmask : ℕ}
    (hne : ibUmemFindBestPgoff ps u pgszBitmap pgoffBitmask ≠ 0) :
    ∃ i, ibUmemFindBestPgoff ps u pgszBitmap pgoffBitmask = 2 ^ i ∧
      pgszBitmap.testBit i = true := by
  unfold ibUmemFindBestPgoff ibUmemFindBestPgsz at hne ⊢
  cases hodp : u.odp with
  | none =>
    simp only [hodp] at hne ⊢
    exact pickPgsz_mem hne
  | some pageShift =>
    simp only [hodp] at hne ⊢
    split_ifs at hne ⊢ with hbit
    · exact absurd rfl hne
    · have hlt : pageShift < 32 := by
        by_contra hge
        rw [toU_eq_mod, Nat.mod_eq_zero_of_dvd (Nat.pow_dvd_pow 2 (Nat.not_lt.mp hge)),
          Nat.and_zero] at hbit
        exact hbit rfl
      have hpow : toU 32 (2 ^ pageShift : ℕ) = 2 ^ pageShift :=
        toU_of_lt (Nat.pow_lt_pow_right Nat.one_lt_two hlt)
      exact ⟨pageShift, hpow, and_two_pow_ne_zero.mp (hpow ▸ hbit)⟩

/-- CORRECT: the search ends without a division by zero. A page size that it returns is one of the
    bitmap, and the stored number of quanta, which fits into its field, is the offset of the DMA
    start of the region, its first byte if it is pinned, in its page. -/
theorem quantized_pgoff (ps : ℕ) (u : Umem) {pgszBitmap pageOffsetBits pgoffBitmask k fuel : ℕ}
    (hbitmap : pgszBitmap < 2 ^ 64) (hk : 2 ^ k < 2 ^ 32)
    (hscale : ∀ i, pgszBitmap.testBit i = true → 2 ^ k ≤ 2 ^ i) (hfuel : 64 ≤ fuel) :
    ∃ pageSize pgoff,
    umemFindBestQuantizedPgoff ps u pgszBitmap pageOffsetBits pgoffBitmask (2 ^ k) fuel =
      .ok (pageSize, pgoff) ∧
    (pageSize ≠ 0 → (∃ i, pageSize = 2 ^ i ∧ pgszBitmap.testBit i = true) ∧
      ∃ quantized, pgoff = some quantized ∧ quantized < 2 ^ pageOffsetBits ∧
        quantized * (pageSize / 2 ^ k) = dmaStart ps u % pageSize ∧
        (Valid ps u → ∃ first, byteAt u.sgl (ibUmemOffset ps u) = some first ∧
          quantized * (pageSize / 2 ^ k) = first % pageSize)) := by
  have hlt : ∀ {i : ℕ}, pgszBitmap.testBit i = true → i < 64 := fun hi =>
    (Nat.pow_lt_pow_iff_right Nat.one_lt_two).mp
      (lt_of_le_of_lt (Nat.ge_two_pow_of_testBit hi) hbitmap)
  unfold umemFindBestQuantizedPgoff
  by_cases hfound : ibUmemFindBestPgoff ps u pgszBitmap pgoffBitmask = 0
  · exact ⟨0, none, by simp [hfound, pure, Except.pure], fun hne => absurd rfl hne⟩
  obtain ⟨i, hi, hbit⟩ := findBestPgoff_mem hfound
  obtain ⟨j, hj, hloop, hrep⟩ := @pgoffLoop_spec ps u (pageOffsetBits % 64) k fuel i
    ((hlt hbit).le.trans hfuel) (hlt hbit)
  simp only [hi, (Nat.two_pow_pos i).ne', if_false, hloop, bind, Except.bind]
  by_cases hmem : pgszBitmap &&& 2 ^ j = 0
  · exact ⟨0, none, by simp [hmem, pure, Except.pure], fun hne => absurd rfl hne⟩
  have hbit' := and_two_pow_ne_zero.mp hmem
  have hkj : k ≤ j := (Nat.pow_le_pow_iff_right Nat.one_lt_two).mp (hscale j hbit')
  obtain ⟨hdvd, hquot⟩ := hrep hkj
  have hdma := dmaOffset_eq ps u (hlt hbit')
  have hquantum : 2 ^ j / 2 ^ k = 2 ^ (j - k) := Nat.pow_div hkj Nat.two_pos
  have hudiv : udiv (dmaStart ps u % 2 ^ j) (2 ^ (j - k)) =
      .ok (dmaStart ps u % 2 ^ j / 2 ^ (j - k)) := udiv_scale _ _
  -- fewer quanta than `scale`, which is a 32-bit number
  have hscale32 : dmaStart ps u % 2 ^ j / 2 ^ (j - k) < 2 ^ 32 := by
    refine (Nat.div_lt_of_lt_mul ?_).trans hk
    rw [← pow_add, Nat.sub_add_cancel hkj]
    exact Nat.mod_lt _ (Nat.two_pow_pos j)
  simp only [udiv_scale, hquantum, hdma, toU_of_lt hscale32]
  split_ifs with hwarn
  · exact ⟨0, _, rfl, fun hne => absurd rfl hne⟩
  · have hmul : dmaStart ps u % 2 ^ j / 2 ^ (j - k) * (2 ^ j / 2 ^ k) = dmaStart ps u % 2 ^ j := by
      rw [hquantum, Nat.div_mul_cancel hdvd]
    exact ⟨2 ^ j, _, rfl, fun _ => ⟨⟨j, rfl, hbit'⟩, _, rfl,
      hquot.trans_le (Nat.pow_le_pow_right Nat.two_pos (Nat.mod_le _ _)), hmul,
      fun hvalid => ⟨_, byteAt_first hvalid, hmul⟩⟩⟩

/-- A region of 256 bytes in one page. -/
def onePage : Umem :=
  { iova := 0, length := 0x100, address := 0xc0, odp := none, sgl := [⟨0x201000, 0x1000⟩] }

theorem onePage_valid : Valid 12 onePage where
  noOdp := rfl
  nonempty := by decide
  nents := by decide
  mapped := by
    rintro s (_ | _)
    · exact ⟨by decide, by decide, by decide⟩
    · contradiction
  pages := by
    rintro s (_ | _)
    · exact ⟨by decide, by decide⟩
    · contradiction
  covered := by decide

/-- With pages of 4 KiB and 2 MiB, a field of 6 bits and 64 quanta to a page: the offset `0x10c0` in
    the large page is no number of its quanta, the offset `0xc0` in the small page is three. -/
theorem quantized_pgoff_demo : ∃ quantized first,
    umemFindBestQuantizedPgoff 12 onePage 0x201000 6 0xfc0 (2 ^ 6) 64 =
      .ok (0x1000, some quantized) ∧
    byteAt onePage.sgl 0xc0 = some first ∧ quantized * (0x1000 / 2 ^ 6) = first % 0x1000 := by
  have hbits : ∀ i, Nat.testBit 0x201000 i = true → 2 ^ 6 ≤ 2 ^ i := by
    intro i hi
    have hlow : ∀ j < 6, Nat.testBit 0x201000 j = false := by decide
    refine Nat.pow_le_pow_right Nat.two_pos (Nat.le_of_not_lt fun hlt => ?_)
    rw [hlow i hlt] at hi
    cases hi
  obtain ⟨pageSize, pgoff, hrun, hspec⟩ := @quantized_pgoff 12 onePage
    0x201000 6 0xfc0 6 64 (by decide) (by decide) hbits le_rfl
  have hval : umemFindBestQuantizedPgoff 12 onePage 0x201000 6 0xfc0 (2 ^ 6)
      64 = .ok (0x1000, some 3) := by decide +kernel
  obtain ⟨rfl, rfl⟩ := Prod.mk.inj (Except.ok.inj (hrun.symm.trans hval))
  obtain ⟨-, quantized, hq, -, -, hmul⟩ := hspec (by decide)
  obtain ⟨first, hfirst, heq⟩ := hmul onePage_valid
  exact ⟨quantized, first, by rw [hval, hq], hfirst, heq⟩

end RdmaDriver.QuantPgoff
