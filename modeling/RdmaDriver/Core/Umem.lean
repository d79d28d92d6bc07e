import Mathlib.Data.Nat.Bitwise
import Mathlib.Data.Nat.ModEq
import Mathlib.Tactic.Ring
import RdmaDriver.Basic
import RdmaDriver.Schemes.Segments

/-! @src drivers/infiniband/core/umem.c, include/rdma/ib_umem.h, drivers/infiniband/core/verbs.c |
    name:DMA blocks of a user memory region | scheme:segments

    A registered region starts `pgoff` bytes into its first DMA segment and is to be reached by
    hardware at IOVA `virt`. `ib_umem_find_best_pgsz` ORs together every bit in which IOVA and DMA
    address differ, and takes the largest supported page size below all of them; the block iterator
    then cuts the segments into blocks of that size. Hardware translates by block number, so block
    `(iova + k) / pgsz - iova / pgsz` has to hold byte `k`. Masks with a power of two are written
    as division and remainder.

        iova   -----+---pgsz---+---pgsz---+----
        dma    [ seg₀     ][ seg₁         ]        every inner seam lies on a block boundary -/

namespace RdmaDriver.UmemDma
open Schemes

/-- The parts of `struct ib_umem` that the translation reads. `odp` is the `page_shift` of an ODP
    umem, which has no segment list. -/
structure Umem where
  iova : ℕ
  length : ℕ
  address : ℕ
  odp : Option ℕ
  sgl : List Seg

/-- `bits_per(n)`. -/
def bitsPer (n : ℕ) : ℕ := if n < 2 then 1 else n.log2 + 1

/-- `GENMASK(h, l)` on 64 bits. The shift by `l` takes its count modulo 64, as the processor does:
    the caller reaches `l = 64`. -/
def genmask (h l : ℕ) : ℕ := (2 ^ 64 - 2 ^ (l % 64)) &&& ((2 ^ 64 - 1) >>> (63 - h))

/-- `count_trailing_zeros`, looking at the lowest `w` bits. -/
def countTrailingZeros : ℕ → ℕ → ℕ
  | 0, _ => 0
  | w + 1, n => if n % 2 = 1 then 0 else countTrailingZeros w (n / 2) + 1

/-- `rounddown_pow_of_two(n)`, for `0 < n`. -/
def rounddownPowOfTwo (n : ℕ) : ℕ := 2 ^ n.log2

/-- `ib_umem_offset`: the offset of the region in its first page. -/
def ibUmemOffset (ps : ℕ) (u : Umem) : ℕ := u.address % 2 ^ ps

/-- The loop of `ib_umem_find_best_pgsz` over the segments. The end of the last segment is the only
    seam that does not bound the page size. -/
def maskLoop : List Seg → ℕ → ℕ → ℕ → ℕ
  | [], _, _, mask => mask
  | sg :: r, pgoff, va, mask =>
    let mask := mask ||| ((sg.addr + pgoff) % 2 ^ 64 ^^^ va)
    let va := toU 64 ((va : ℤ) + sg.len - pgoff)
    maskLoop r 0 va (if r = [] then mask else mask ||| va)

/-- The mask from which `ib_umem_find_best_pgsz` reads the page size. -/
def vaPaMask (ps : ℕ) (u : Umem) (pgszBitmap virt : ℕ) : ℕ :=
  let mask := pgszBitmap &&&
    genmask 63 (bitsPer (toU 64 ((u.length : ℤ) - 1 + virt) ^^^ virt))
  maskLoop u.sgl (ibUmemOffset ps u) virt mask

/-- The page size that `ib_umem_find_best_pgsz` picks below the trailing zeros of its mask. -/
def pickPgsz (pgszBitmap mask : ℕ) : ℕ :=
  let bitmap :=
    if mask = 0 then pgszBitmap else pgszBitmap &&& genmask (countTrailingZeros 64 mask) 0
  if bitmap = 0 then 0 else rounddownPowOfTwo bitmap

/-- `ib_umem_find_best_pgsz`: the page size and the umem with its `iova` set. -/
def ibUmemFindBestPgsz (ps : ℕ) (u : Umem) (pgszBitmap virt : ℕ) : ℕ × Umem :=
  let u := { u with iova := virt }
  match u.odp with
  | some pageShift =>
    let pageSize := toU 32 (2 ^ pageShift : ℕ)
    (if pgszBitmap &&& pageSize = 0 then 0 else pageSize, u)
  | none => (pickPgsz pgszBitmap (vaPaMask ps u pgszBitmap virt), u)

/-- `ib_umem_num_dma_blocks`, in 64-bit arithmetic. -/
def ibUmemNumDmaBlocks (u : Umem) (pgsz : ℕ) : ℕ :=
  let last : ℕ := (u.iova + u.length + (pgsz - 1)) % 2 ^ 64 / pgsz * pgsz
  let first : ℕ := u.iova / pgsz * pgsz
  toU 64 ((last : ℤ) - first) / pgsz

/-- `struct ib_block_iter`. `sg` is the list from the current segment on. -/
structure BlockIter where
  sg : List Seg
  dmaAddr : ℕ
  sgNumblocks : ℕ
  sgNents : ℕ
  sgAdvance : ℕ
  pgBit : ℕ

/-- `__rdma_block_iter_start`. -/
def blockIterStart (sglist : List Seg) (nents pgsz : ℕ) : BlockIter :=
  { sg := sglist, dmaAddr := 0, sgNumblocks := 0, sgNents := nents, sgAdvance := 0,
    pgBit := pgsz.log2 }

/-- `__rdma_block_iter_next`; `block_offset`, `sg_delta` and `__sg_advance` are 32-bit. -/
def blockIterNext (b : BlockIter) : Option BlockIter :=
  if b.sgNents = 0 then none
  else match b.sg with
  | [] => none
  | sg :: r =>
    let dmaAddr := (sg.addr + b.sgAdvance) % 2 ^ 64
    let blockOffset : ℕ := dmaAddr % 2 ^ b.pgBit % 2 ^ 32
    let sgDelta := toU 32 ((2 : ℤ) ^ b.pgBit - blockOffset)
    if toU 32 ((sg.len : ℤ) - b.sgAdvance) > sgDelta then
      some { b with dmaAddr := dmaAddr, sgAdvance := (b.sgAdvance + sgDelta) % 2 ^ 32 }
    else
      some { b with dmaAddr := dmaAddr, sgAdvance := 0, sg := r, sgNents := b.sgNents - 1 }

/-- `__rdma_umem_block_iter_start`. -/
def umemBlockIterStart (ps : ℕ) (u : Umem) (pgsz : ℕ) : BlockIter :=
  { blockIterStart u.sgl u.sgl.length pgsz with
    sgAdvance := ibUmemOffset ps u / pgsz * pgsz % 2 ^ 32,
    sgNumblocks := ibUmemNumDmaBlocks u pgsz }

/-- `__rdma_umem_block_iter_next`. -/
def umemBlockIterNext (b : BlockIter) : Option BlockIter :=
  match blockIterNext b with
  | none => none
  | some b =>
    if b.sgNumblocks = 0 then none else some { b with sgNumblocks := b.sgNumblocks - 1 }

/-- `rdma_block_iter_dma_address`, for a block with the unaligned address `dma_addr`. -/
def blockIterDmaAddress (pgBit dmaAddr : ℕ) : ℕ := dmaAddr / 2 ^ pgBit * 2 ^ pgBit

/-- The turns of a block loop: the unaligned address at each. Every turn takes one off
    `__sg_numblocks`, which therefore bounds their number. -/
def blockLoop : ℕ → BlockIter → List ℕ
  | 0, _ => []
  | n + 1, b =>
    match umemBlockIterNext b with
    | none => []
    | some b => b.dmaAddr :: blockLoop n b

/-- `rdma_umem_for_each_dma_block`: the blocks it visits, aligned by
    `rdma_block_iter_dma_address`. -/
def umemForEachDmaBlock (ps : ℕ) (u : Umem) (pgsz : ℕ) : List ℕ :=
  let b := umemBlockIterStart ps u pgsz
  (blockLoop b.sgNumblocks b).map (blockIterDmaAddress b.pgBit)

/-! ### Bits of the mask -/

/-- A power of two divides a disjunction exactly when it divides both sides. -/
theorem two_pow_dvd_or {g a b : ℕ} : 2 ^ g ∣ a ||| b ↔ 2 ^ g ∣ a ∧ 2 ^ g ∣ b := by
  simp only [Nat.dvd_iff_mod_eq_zero, Nat.or_mod_two_pow, Nat.or_eq_zero_iff]

/-- A power of two divides an exclusive or exactly when it does not tell the sides apart. -/
theorem two_pow_dvd_xor {g a b : ℕ} : 2 ^ g ∣ a ^^^ b ↔ a % 2 ^ g = b % 2 ^ g := by
  simp only [Nat.dvd_iff_mod_eq_zero, Nat.xor_mod_two_pow, Nat.xor_eq_zero_iff]

theorem two_pow_countTrailingZeros_dvd : ∀ w n, 2 ^ countTrailingZeros w n ∣ n
  | 0, n => by simp [countTrailingZeros]
  | w + 1, n => by
      rw [countTrailingZeros]
      split
      · simp
      · rename_i h
        have hn : n = n / 2 * 2 := by omega
        rw [pow_succ]
        conv_rhs => rw [hn]
        exact Nat.mul_dvd_mul_right (two_pow_countTrailingZeros_dvd w (n / 2)) 2

/-- The bits of `GENMASK(h, 0)`. -/
theorem testBit_genmask_zero {h g : ℕ} (hh : h < 64)
    (hg : (genmask h 0).testBit g = true) : g ≤ h := by
  have he : ∀ h < 64, genmask h 0 = 2 ^ (h + 1) - 1 := by decide
  rw [he h hh, Nat.testBit_two_pow_sub_one] at hg
  simpa [Nat.lt_succ_iff] using hg

theorem countTrailingZeros_lt : ∀ {w n : ℕ}, 0 < n → n < 2 ^ w → countTrailingZeros w n < w
  | 0, n, h, h' => by simp at h'; omega
  | w + 1, n, h, h' => by
      rw [countTrailingZeros]
      split
      · omega
      · have := countTrailingZeros_lt (w := w) (n := n / 2) (by omega) (by omega)
        omega

theorem maskLoop_lt : ∀ {l : List Seg} {pgoff va mask : ℕ}, va < 2 ^ 64 → mask < 2 ^ 64 →
    maskLoop l pgoff va mask < 2 ^ 64
  | [], _, _, _, _, h => h
  | sg :: r, pgoff, va, mask, hva, hm => by
      have hva' : toU 64 ((va : ℤ) + sg.len - pgoff) < 2 ^ 64 := by
        simp only [toU]
        omega
      have hm' : mask ||| ((sg.addr + pgoff) % 2 ^ 64 ^^^ va) < 2 ^ 64 :=
        Nat.or_lt_two_pow hm (Nat.xor_lt_two_pow (Nat.mod_lt _ (by norm_num)) hva)
      rw [maskLoop]
      refine maskLoop_lt hva' ?_
      split
      · exact hm'
      · exact Nat.or_lt_two_pow hm' hva'

/-! ### What the page size guarantees -/

/-- Segments laid out from IOVA `w` on agree with it modulo `P`, and every inner seam lies on a
    multiple of `P`. -/
def Aligned (P : ℕ) : ℕ → List Seg → Prop
  | _, [] => True
  | w, s :: r => s.addr % P = w % P ∧ (r ≠ [] → P ∣ w + s.len) ∧ Aligned P (w + s.len) r

/-- STEP: one turn of the mask loop, read modulo a power of two below the word size. -/
theorem mask_step {g w pgoff va : ℕ} {s : Seg} (hg : g ≤ 64) (hw : (w + pgoff) % 2 ^ 64 = va) :
    (2 ^ g ∣ (s.addr + pgoff) % 2 ^ 64 ^^^ va ↔ s.addr % 2 ^ g = w % 2 ^ g) ∧
      toU 64 ((va : ℤ) + s.len - pgoff) = (w + s.len) % 2 ^ 64 := by
  have hdvd : (2 : ℕ) ^ g ∣ 2 ^ 64 := Nat.pow_dvd_pow 2 hg
  constructor
  · rw [two_pow_dvd_xor, ← hw, Nat.mod_mod_of_dvd _ hdvd, Nat.mod_mod_of_dvd _ hdvd]
    exact ⟨fun h => Nat.ModEq.add_right_cancel' pgoff h, fun h => Nat.ModEq.add_right pgoff h⟩
  · simp only [toU]
    omega

/-- A power of two that divides the mask divides the mask it started with, and aligns the
    segments. -/
theorem maskLoop_aligned {g : ℕ} (hg : g ≤ 64) : ∀ {l : List Seg} {w pgoff va mask : ℕ},
    (w + pgoff) % 2 ^ 64 = va → 2 ^ g ∣ maskLoop l pgoff va mask →
      2 ^ g ∣ mask ∧ Aligned (2 ^ g) w l
  | [], _, _, _, _, _, h => ⟨h, trivial⟩
  | s :: r, w, pgoff, va, mask, hw, h => by
      obtain ⟨hxor, hva⟩ := mask_step (s := s) hg hw
      rw [maskLoop, hva] at h
      obtain ⟨hm, hal⟩ := maskLoop_aligned hg (w := w + s.len) (by rw [Nat.add_zero]) h
      by_cases hr : r = []
      · rw [if_pos hr, two_pow_dvd_or] at hm
        exact ⟨hm.1, hxor.mp hm.2, fun hne => absurd hr hne, hal⟩
      · rw [if_neg hr, two_pow_dvd_or, two_pow_dvd_or] at hm
        have hseam : 2 ^ g ∣ w + s.len :=
          (Nat.dvd_mod_iff (Nat.pow_dvd_pow 2 hg)).mp hm.2
        exact ⟨hm.1.1, hxor.mp hm.1.2, fun _ => hseam, hal⟩

/-- A non-zero page size is a power of two of the bitmap that divides the mask. -/
theorem pickPgsz_dvd_mask {pgszBitmap mask : ℕ} (hb : pgszBitmap < 2 ^ 64) (hm : mask < 2 ^ 64)
    (hne : pickPgsz pgszBitmap mask ≠ 0) :
    ∃ g < 64, pickPgsz pgszBitmap mask = 2 ^ g ∧ pgszBitmap.testBit g = true ∧ 2 ^ g ∣ mask := by
  have hlt : ∀ {i : ℕ}, pgszBitmap.testBit i = true → i < 64 := fun hi =>
    (Nat.pow_lt_pow_iff_right (by norm_num)).mp
      (lt_of_le_of_lt (Nat.ge_two_pow_of_testBit hi) hb)
  rw [pickPgsz] at hne ⊢
  generalize hbm : (if mask = 0 then pgszBitmap
    else pgszBitmap &&& genmask (countTrailingZeros 64 mask) 0) = bitmap at *
  have hbit : bitmap ≠ 0 := by
    rintro rfl
    exact hne rfl
  have htop : bitmap.testBit bitmap.log2 = true := Nat.testBit_log2 hbit
  rw [if_neg hbit, rounddownPowOfTwo]
  by_cases h0 : mask = 0
  · rw [if_pos h0] at hbm
    subst hbm
    exact ⟨_, hlt htop, rfl, htop, h0 ▸ dvd_zero _⟩
  · rw [if_neg h0] at hbm
    nth_rewrite 1 [← hbm] at htop
    rw [Nat.testBit_and, Bool.and_eq_true] at htop
    have hctz := countTrailingZeros_lt (Nat.pos_of_ne_zero h0) hm
    have hle := testBit_genmask_zero hctz htop.2
    exact ⟨_, hlt htop.1, rfl, htop.1,
      (Nat.pow_dvd_pow 2 hle).trans (two_pow_countTrailingZeros_dvd 64 mask)⟩

/-! ### The block iterator -/

/-- A segment as the DMA layer hands it out: not empty, a 32-bit length, and inside the address
    space. -/
structure Mapped (s : Seg) : Prop where
  pos : 0 < s.len
  len : s.len < 2 ^ 32
  fits : s.addr + s.len ≤ 2 ^ 64

/-- The iterator stands in segment `s`, which is laid out from IOVA `w` on; the region ends at
    offset `E` from there and still needs exactly `sg_numblocks` blocks. -/
structure Cursor (g w E : ℕ) (b : BlockIter) (s : Seg) (r : List Seg) : Prop where
  sg : b.sg = s :: r
  nents : b.sgNents = r.length + 1
  pgBit : b.pgBit = g
  advance : b.sgAdvance < s.len
  mapped : ∀ t ∈ s :: r, Mapped t
  aligned : Aligned (2 ^ g) w (s :: r)
  covered : E ≤ total (s :: r)
  enough : w + E ≤ 2 ^ g * ((w + b.sgAdvance) / 2 ^ g + b.sgNumblocks)
  needed : 2 ≤ b.sgNumblocks →
    2 ^ g * ((w + b.sgAdvance) / 2 ^ g + b.sgNumblocks) < w + E + 2 ^ g

/-- The first multiple of `P` above `p` is no further than any multiple of `P` above `p`. -/
theorem next_multiple_le {P p e : ℕ} (he : P ∣ e) (hp : p < e) : p - p % P + P ≤ e := by
  obtain ⟨c, rfl⟩ := he
  have hdm := Nat.div_add_mod p P
  have hq : p / P < c := by
    rw [Nat.div_lt_iff_lt_mul (by by_contra h0; simp at h0; subst h0; simp at hp), mul_comm]
    exact hp
  have hmul : P * (p / P + 1) ≤ P * c := Nat.mul_le_mul_left P hq
  rw [Nat.mul_add, Nat.mul_one] at hmul
  omega

/-- Where the blocks go on, the rest of the current block lies in the current segment. -/
theorem Cursor.block_in_segment {g w E : ℕ} {b : BlockIter} {s : Seg} {r : List Seg}
    (h : Cursor g w E b s r) (hn : r ≠ [] ∨ 2 ≤ b.sgNumblocks) :
    w + b.sgAdvance - (w + b.sgAdvance) % 2 ^ g + 2 ^ g ≤ w + s.len := by
  have hadv := h.advance
  by_cases hr : r = []
  · -- the last segment: another block is needed behind this one, and it begins before `E`
    have hn2 : 2 ≤ b.sgNumblocks := hn.resolve_left (absurd hr)
    have hneed := h.needed hn2
    have hcov := h.covered
    have hdm := Nat.div_add_mod (w + b.sgAdvance) (2 ^ g)
    have hmul : 2 ^ g * 2 ≤ 2 ^ g * b.sgNumblocks := Nat.mul_le_mul_left _ hn2
    rw [Nat.mul_add] at hneed
    simp only [hr, total_cons, total_nil] at hcov
    omega
  · exact next_multiple_le (h.aligned.2.1 hr) (by omega)

/-- The bytes of the current block that belong to the region lie in the current segment. -/
theorem Cursor.byte_in_segment {g w E j : ℕ} {b : BlockIter} {s : Seg} {r : List Seg}
    (h : Cursor g w E b s r) (hj : j < E)
    (hq : (w + j) / 2 ^ g = (w + b.sgAdvance) / 2 ^ g) : j < s.len := by
  by_cases hr : r = []
  · have hcov := h.covered
    simp only [hr, total_cons, total_nil] at hcov
    omega
  · have hin := h.block_in_segment (.inl hr)
    have hdm := Nat.div_add_mod (w + b.sgAdvance) (2 ^ g)
    have hdm' := Nat.div_add_mod (w + j) (2 ^ g)
    rw [hq] at hdm'
    omega

/-- Inside one block, an aligned-down DMA address plus the IOVA's offset in the block is the
    address of the byte. -/
theorem block_byte {P x w a j : ℕ} (hx : x % P = w % P)
    (hj : (w + j) / P = (w + a) / P) : (x + a) / P * P + (w + j) % P = x + j := by
  have hmod : (x + a) % P = (w + a) % P := Nat.ModEq.add_right a hx
  have h₁ := Nat.div_add_mod (x + a) P
  have h₂ := Nat.div_add_mod (w + a) P
  have h₃ := Nat.div_add_mod (w + j) P
  rw [hj] at h₃
  rw [mul_comm P] at h₁
  omega

/-- The distance to the next block boundary, as the 32-bit arithmetic of the iterator finds it. -/
theorem sg_delta_eq {g x d : ℕ} (hd : 2 ^ g - x % 2 ^ g = d) (h : d < 2 ^ 32) :
    toU 32 ((2 : ℤ) ^ g - ((x % 2 ^ g % 2 ^ 32 : ℕ) : ℤ)) = d := by
  have hlt := Nat.mod_lt x (Nat.two_pow_pos g)
  have hcast : ((2 : ℤ) ^ g) = ((2 ^ g : ℕ) : ℤ) := by push_cast; rfl
  rw [hcast]
  generalize 2 ^ g = P at *
  generalize x % P = o at *
  simp only [toU]
  omega

/-- The turn of `__rdma_block_iter_next` while the block ends inside the segment. -/
theorem Cursor.blockIterNext_eq {g w E : ℕ} {b : BlockIter} {s : Seg} {r : List Seg}
    (h : Cursor g w E b s r) {d : ℕ} (hd : 2 ^ g - (w + b.sgAdvance) % 2 ^ g = d)
    (hle : b.sgAdvance + d ≤ s.len) :
    blockIterNext b = some (if b.sgAdvance + d < s.len then
        { b with dmaAddr := s.addr + b.sgAdvance, sgAdvance := b.sgAdvance + d }
      else
        { b with dmaAddr := s.addr + b.sgAdvance, sgAdvance := 0, sg := r,
                 sgNents := r.length }) := by
  obtain ⟨_, hlen, hfits⟩ := h.mapped s (List.mem_cons_self ..)
  have haddr : (s.addr + b.sgAdvance) % 2 ^ 64 = s.addr + b.sgAdvance :=
    Nat.mod_eq_of_lt (by omega)
  have hmod : (s.addr + b.sgAdvance) % 2 ^ g = (w + b.sgAdvance) % 2 ^ g :=
    Nat.ModEq.add_right _ h.aligned.1
  have hdelta := sg_delta_eq (g := g) (x := s.addr + b.sgAdvance) (d := d) (by rw [hmod, hd])
    (by omega)
  have hrest : toU 32 ((s.len : ℤ) - b.sgAdvance) = s.len - b.sgAdvance := by
    simp only [toU]
    omega
  have hnext : (b.sgAdvance + d) % 2 ^ 32 = b.sgAdvance + d := Nat.mod_eq_of_lt (by omega)
  simp only [blockIterNext, h.sg, h.nents, h.pgBit, haddr, hdelta, hrest, hnext,
    Nat.add_eq_zero_iff, one_ne_zero, and_false, if_false, Nat.add_sub_cancel]
  by_cases hlt : b.sgAdvance + d < s.len
  · rw [if_pos (show s.len - b.sgAdvance > d by omega), if_pos hlt]
  · rw [if_neg (show ¬ s.len - b.sgAdvance > d by omega), if_neg hlt]

/-- Every turn of `__rdma_block_iter_next` visits the address at the cursor. -/
theorem Cursor.blockIterNext_addr {g w E : ℕ} {b : BlockIter} {s : Seg} {r : List Seg}
    (h : Cursor g w E b s r) : ∃ b', blockIterNext b = some b' ∧
      b'.dmaAddr = s.addr + b.sgAdvance ∧ b'.sgNumblocks = b.sgNumblocks := by
  obtain ⟨_, _, hfits⟩ := h.mapped s (List.mem_cons_self ..)
  have hadv := h.advance
  have haddr : (s.addr + b.sgAdvance) % 2 ^ 64 = s.addr + b.sgAdvance :=
    Nat.mod_eq_of_lt (by omega)
  simp only [blockIterNext, h.sg, h.nents, haddr, Nat.add_eq_zero_iff, one_ne_zero, and_false,
    if_false]
  split
  · exact ⟨_, rfl, rfl, rfl⟩
  · exact ⟨_, rfl, rfl, rfl⟩

/-- A turn of the umem loop while blocks are left to visit. -/
theorem umemBlockIterNext_eq {b b' : BlockIter} {n : ℕ} (h : blockIterNext b = some b')
    (hn : b'.sgNumblocks = n + 1) : umemBlockIterNext b = some { b' with sgNumblocks := n } := by
  simp only [umemBlockIterNext, h, hn, Nat.add_eq_zero_iff, one_ne_zero, and_false, if_false,
    Nat.add_sub_cancel]

/-- STEP: a turn visits the block at the cursor, and while blocks remain the cursor stands at the
    next one. -/
theorem Cursor.next {g w E n : ℕ} {b : BlockIter} {s : Seg} {r : List Seg}
    (h : Cursor g w E b s r) (hn : b.sgNumblocks = n + 2) :
    ∃ b', umemBlockIterNext b = some b' ∧ b'.dmaAddr = s.addr + b.sgAdvance ∧
      b'.sgNumblocks = n + 1 ∧ ((Cursor g w E b' s r ∧
          w + b'.sgAdvance = 2 ^ g * ((w + b.sgAdvance) / 2 ^ g + 1)) ∨
        ∃ s' r', r = s' :: r' ∧ Cursor g (w + s.len) (E - s.len) b' s' r' ∧
          b'.sgAdvance = 0 ∧ w + s.len = 2 ^ g * ((w + b.sgAdvance) / 2 ^ g + 1)) := by
  have hin := h.block_in_segment (.inr (by omega))
  have hneed := h.needed (by omega)
  have henough := h.enough
  have hcov := h.covered
  have hdm := Nat.div_add_mod (w + b.sgAdvance) (2 ^ g)
  obtain ⟨d, hd⟩ : ∃ d, 2 ^ g - (w + b.sgAdvance) % 2 ^ g = d := ⟨_, rfl⟩
  -- the boundary `w + sg_advance + d` is where the next block begins
  have hbound : w + b.sgAdvance + d = 2 ^ g * ((w + b.sgAdvance) / 2 ^ g + 1) := by
    rw [Nat.mul_add, Nat.mul_one]
    omega
  have hq : (w + b.sgAdvance + d) / 2 ^ g = (w + b.sgAdvance) / 2 ^ g + 1 := by
    rw [hbound, Nat.mul_div_cancel_left _ (Nat.two_pow_pos g)]
  have hcount : (w + b.sgAdvance) / 2 ^ g + 1 + (n + 1) =
      (w + b.sgAdvance) / 2 ^ g + (n + 2) := by omega
  have hnext := h.blockIterNext_eq hd (by omega)
  rw [hn, ← hcount] at hneed henough
  by_cases hend : b.sgAdvance + d < s.len
  · rw [if_pos hend] at hnext
    have hq' : (w + (b.sgAdvance + d)) / 2 ^ g = (w + b.sgAdvance) / 2 ^ g + 1 := by
      rw [← Nat.add_assoc, hq]
    refine ⟨_, umemBlockIterNext_eq hnext hn, rfl, rfl,
      .inl ⟨?_, (Nat.add_assoc ..).symm.trans hbound⟩⟩
    refine { h with advance := hend, enough := ?_, needed := fun _ => ?_ }
    · rwa [hq']
    · rwa [hq']
  · rw [if_neg hend] at hnext
    -- the segment ends at the boundary, and bytes of the region are still missing
    have hlen : w + s.len = w + b.sgAdvance + d := by omega
    have hrest : w + s.len < w + E := by
      have hmul : 2 ^ g * 1 ≤ 2 ^ g * (n + 1) := Nat.mul_le_mul_left _ (by omega)
      rw [Nat.mul_add, ← hbound] at hneed
      omega
    cases r with
    | nil =>
      simp only [total_cons, total_nil] at hcov
      omega
    | cons s' r' =>
      have hq' : (w + s.len + 0) / 2 ^ g = (w + b.sgAdvance) / 2 ^ g + 1 := by
        rw [Nat.add_zero, hlen, hq]
      have hE : w + s.len + (E - s.len) = w + E := by omega
      refine ⟨_, umemBlockIterNext_eq hnext hn, rfl, rfl,
        .inr ⟨s', r', rfl, ?_, rfl, hlen.trans hbound⟩⟩
      refine ⟨rfl, rfl, h.pgBit, ?_, ?_, h.aligned.2.2, ?_, ?_, fun _ => ?_⟩
      · exact (h.mapped s' (by simp)).pos
      · exact fun t ht => h.mapped t (List.mem_cons_of_mem _ ht)
      · rw [total_cons] at hcov
        omega
      · rwa [hE, hq']
      · rwa [hE, hq']

/-- A byte of the region that lies in the block at the cursor. -/
theorem Cursor.byteAt_block {g w E j : ℕ} {b : BlockIter} {s : Seg} {r : List Seg}
    (h : Cursor g w E b s r) (hj : j < E)
    (hq : (w + j) / 2 ^ g = (w + b.sgAdvance) / 2 ^ g) :
    byteAt (s :: r) j = some ((s.addr + b.sgAdvance) / 2 ^ g * 2 ^ g + (w + j) % 2 ^ g) := by
  rw [byteAt_of_lt (h.byte_in_segment hj hq), block_byte h.aligned.1 hq]

/-- RUN: the loop visits as many blocks as `sg_numblocks` says, and each byte of the region lies at
    the block that its IOVA leads to. -/
theorem Cursor.blockLoop_translates {g : ℕ} : ∀ {n w E : ℕ} {b : BlockIter} {s : Seg}
    {r : List Seg}, Cursor g w E b s r → b.sgNumblocks = n →
    (blockLoop n b).length = n ∧ ∀ j, b.sgAdvance ≤ j → j < E →
      ∃ x, (blockLoop n b)[(w + j) / 2 ^ g - (w + b.sgAdvance) / 2 ^ g]? = some x ∧
        byteAt (s :: r) j = some (x / 2 ^ g * 2 ^ g + (w + j) % 2 ^ g)
  | 0, w, E, b, s, r, h, hn => by
      refine ⟨rfl, fun j hj hjE => ?_⟩
      have henough := h.enough
      have hle := Nat.mul_div_le (w + b.sgAdvance) (2 ^ g)
      rw [hn, Nat.add_zero] at henough
      omega
  | 1, w, E, b, s, r, h, hn => by
      obtain ⟨b', hb', haddr, hnum⟩ := h.blockIterNext_addr
      have hnext := umemBlockIterNext_eq hb' (hnum.trans hn)
      have hloop : blockLoop 1 b = [s.addr + b.sgAdvance] := by
        simp only [blockLoop, hnext, haddr]
      refine ⟨by rw [hloop]; rfl, fun j hj hjE => ?_⟩
      have hq : (w + j) / 2 ^ g = (w + b.sgAdvance) / 2 ^ g := by
        have henough := h.enough
        rw [hn] at henough
        have hup := (Nat.div_lt_iff_lt_mul (Nat.two_pow_pos g)).mpr
          (show w + j < ((w + b.sgAdvance) / 2 ^ g + 1) * 2 ^ g by rw [mul_comm]; omega)
        have hdown := Nat.div_le_div_right (c := 2 ^ g) (show w + b.sgAdvance ≤ w + j by omega)
        omega
      refine ⟨s.addr + b.sgAdvance, ?_, h.byteAt_block hjE hq⟩
      rw [hloop, hq, Nat.sub_self]
      rfl
  | n + 2, w, E, b, s, r, h, hn => by
      obtain ⟨b', hnext, haddr, hnum, hcase⟩ := h.next hn
      have hloop : blockLoop (n + 2) b = (s.addr + b.sgAdvance) :: blockLoop (n + 1) b' := by
        rw [blockLoop, hnext, ← haddr]
      rw [hloop]
      -- `p` is where the next block begins: in this segment or at the start of the next one
      have hrec : (blockLoop (n + 1) b').length = n + 1 ∧
          ∀ j, 2 ^ g * ((w + b.sgAdvance) / 2 ^ g + 1) ≤ w + j → j < E →
            ∃ x, (blockLoop (n + 1) b')[(w + j) / 2 ^ g - ((w + b.sgAdvance) / 2 ^ g + 1)]? =
                some x ∧ byteAt (s :: r) j = some (x / 2 ^ g * 2 ^ g + (w + j) % 2 ^ g) := by
        rcases hcase with ⟨hc, hp⟩ | ⟨s', r', rfl, hc, hzero, hp⟩
        · obtain ⟨hlen, hbytes⟩ := hc.blockLoop_translates hnum
          rw [hp, Nat.mul_div_cancel_left _ (Nat.two_pow_pos g)] at hbytes
          exact ⟨hlen, fun j hj hjE => hbytes j (by omega) hjE⟩
        · obtain ⟨hlen, hbytes⟩ := hc.blockLoop_translates hnum
          refine ⟨hlen, fun j hj hjE => ?_⟩
          have hsj : s.len ≤ j := by omega
          have hb := hbytes (j - s.len) (by omega) (by omega)
          have hq : (w + s.len + b'.sgAdvance) / 2 ^ g = (w + b.sgAdvance) / 2 ^ g + 1 := by
            rw [hzero, Nat.add_zero, hp, Nat.mul_div_cancel_left _ (Nat.two_pow_pos g)]
          rw [hq, show w + s.len + (j - s.len) = w + j by omega] at hb
          rwa [byteAt_of_le hsj]
      refine ⟨by rw [List.length_cons, hrec.1], fun j hj hjE => ?_⟩
      have hdown := Nat.div_le_div_right (c := 2 ^ g) (show w + b.sgAdvance ≤ w + j by omega)
      rcases Nat.eq_or_lt_of_le hdown with hq | hq
      · refine ⟨_, ?_, h.byteAt_block hjE hq.symm⟩
        rw [hq, Nat.sub_self]
        rfl
      · have hbeg : 2 ^ g * ((w + b.sgAdvance) / 2 ^ g + 1) ≤ w + j := by
          rw [mul_comm]
          exact (Nat.le_div_iff_mul_le (Nat.two_pow_pos g)).mp hq
        obtain ⟨x, hx, hbyte⟩ := hrec.2 j hbeg hjE
        refine ⟨x, ?_, hbyte⟩
        rw [show (w + j) / 2 ^ g - (w + b.sgAdvance) / 2 ^ g =
          (w + j) / 2 ^ g - ((w + b.sgAdvance) / 2 ^ g + 1) + 1 by omega, List.getElem?_cons_succ]
        exact hx

/-! ### The whole region -/

/-- A pinned region: page-granular mapped segments, the first of which starts at the page that
    holds `address`, and which cover `length` bytes from there. -/
structure Valid (ps : ℕ) (u : Umem) : Prop where
  noOdp : u.odp = none
  nonempty : u.sgl ≠ []
  nents : u.sgl.length < 2 ^ 32
  mapped : ∀ s ∈ u.sgl, Mapped s
  pages : ∀ s ∈ u.sgl, 2 ^ ps ∣ s.addr ∧ 2 ^ ps ∣ s.len
  covered : ibUmemOffset ps u + u.length ≤ total u.sgl

/-- The number of `P`-blocks that the region touches. -/
def blockCount (u : Umem) (P : ℕ) : ℕ := (u.iova % P + u.length + (P - 1)) / P

/-- The 64-bit count is the number of blocks modulo the number of blocks of the address space. -/
theorem numDmaBlocks_eq {u : Umem} {g : ℕ} (hg : g ≤ 64) :
    ibUmemNumDmaBlocks u (2 ^ g) = blockCount u (2 ^ g) % 2 ^ (64 - g) := by
  have hspace : (2 : ℕ) ^ 64 = 2 ^ g * 2 ^ (64 - g) := by
    rw [← pow_add]
    congr 1
    omega
  have hpos := Nat.two_pow_pos g
  have hsum : (u.iova + u.length + (2 ^ g - 1)) / 2 ^ g =
      u.iova / 2 ^ g + blockCount u (2 ^ g) := by
    rw [blockCount, ← Nat.mul_add_div hpos]
    congr 1
    have hdm := Nat.div_add_mod u.iova (2 ^ g)
    omega
  rw [ibUmemNumDmaBlocks, toU, hspace, Nat.mod_mul_right_div_self, hsum]
  generalize blockCount u (2 ^ g) = N
  generalize u.iova / 2 ^ g = Y
  have hz : (2 : ℤ) ^ 64 = ((2 ^ g : ℕ) : ℤ) * ((2 ^ (64 - g) : ℕ) : ℤ) := by exact_mod_cast hspace
  rw [hz]
  generalize 2 ^ (64 - g) = Q at *
  generalize 2 ^ g = P at *
  have hint : (((Y + N) % Q * P : ℕ) : ℤ) - ((Y * P : ℕ) : ℤ) =
      (P : ℤ) * ((((Y + N : ℕ) : ℤ) % (Q : ℤ)) - (Y : ℤ)) := by
    push_cast
    ring
  have hmod : ((((Y + N : ℕ) : ℤ) % (Q : ℤ)) - (Y : ℤ)) % (Q : ℤ) = ((N % Q : ℕ) : ℤ) := by
    rw [Int.emod_sub_emod]
    push_cast
    congr 1
    ring
  rw [hint, Int.mul_emod_mul_of_pos _ _ (by exact_mod_cast hpos), hmod, ← Nat.cast_mul,
    Int.toNat_natCast, Nat.mul_div_cancel_left _ hpos]

/-- Blocks at least as large as any segment leave room for two segments only. -/
theorem Aligned.total_lt {P : ℕ} : ∀ {l : List Seg} {w : ℕ}, Aligned P w l →
    (∀ s ∈ l, Mapped s) → 2 ^ 32 ≤ P → total l < 2 ^ 33
  | [], _, _, _, _ => by norm_num
  | [s], _, _, hm, _ => by
      have := (hm s (by simp)).len
      simp only [total_cons, total_nil]
      omega
  | [s, t], _, _, hm, _ => by
      have hs := (hm s (by simp)).len
      have ht := (hm t (by simp)).len
      simp only [total_cons, total_nil]
      omega
  | s :: t :: t' :: r, w, h, hm, hP => by
      -- both ends of `t` are seams, so its length is a multiple of `P`
      have h₁ : P ∣ w + s.len := h.2.1 (by simp)
      have h₂ : P ∣ w + s.len + t.len := h.2.2.2.1 (by simp)
      have ht := hm t (by simp)
      have hle := Nat.le_of_dvd ht.pos ((Nat.dvd_add_right h₁).mp h₂)
      have := ht.len
      omega

/-- The page size reaches the top bit of the word while the region crosses it only when the bitmap
    is that bit alone. -/
theorem bitmap_eq_of_crossing {u : Umem} {pgszBitmap virt : ℕ} (hb : pgszBitmap < 2 ^ 64)
    (hv : virt < 2 ^ 64) (hlen : u.length < 2 ^ 33) (htop : pgszBitmap.testBit 63 = true)
    (hcross : 2 ^ 63 < virt % 2 ^ 63 + u.length)
    (hdvd : 2 ^ 63 ∣ pgszBitmap &&&
      genmask 63 (bitsPer (toU 64 ((u.length : ℤ) - 1 + virt) ^^^ virt))) :
    pgszBitmap = 2 ^ 63 := by
  have hlast : toU 64 ((u.length : ℤ) - 1 + virt) = (virt + (u.length - 1)) % 2 ^ 64 := by
    simp only [toU]
    omega
  rw [hlast] at hdvd
  generalize hx : (virt + (u.length - 1)) % 2 ^ 64 ^^^ virt = x at hdvd
  have hlt : x < 2 ^ 64 := by
    rw [← hx]
    exact Nat.xor_lt_two_pow (Nat.mod_lt _ (by norm_num)) hv
  -- first and last byte differ in bit 63
  have hge : 2 ^ 63 ≤ x := by
    by_contra hsmall
    have hdiv : x / 2 ^ 63 = 0 := Nat.div_eq_of_lt (by omega)
    rw [← hx, Nat.xor_div_two_pow, Nat.xor_eq_zero_iff] at hdiv
    omega
  have hbits : bitsPer x = 64 := by
    have hlog : x.log2 = 63 := (Nat.log2_eq_iff (by omega)).mpr ⟨hge, hlt⟩
    rw [bitsPer, if_neg (by omega), hlog]
  have hfull : genmask 63 64 = 2 ^ 64 - 1 := by decide
  rw [hbits, hfull, Nat.and_two_pow_sub_one_of_lt_two_pow hb] at hdvd
  have hge' := Nat.ge_two_pow_of_testBit htop
  omega

/-- The translation that hardware performs with the blocks of `pgsz` reaches every byte of the
    region. -/
structure Exact (ps : ℕ) (u : Umem) (pgszBitmap pgsz : ℕ) : Prop where
  inBitmap : ∃ g, pgsz = 2 ^ g ∧ pgszBitmap.testBit g = true
  count : (umemForEachDmaBlock ps u pgsz).length = ibUmemNumDmaBlocks u pgsz
  bytes : ∀ k < u.length, ∃ block,
    (umemForEachDmaBlock ps u pgsz)[(u.iova + k) / pgsz - u.iova / pgsz]? = some block ∧
      byteAt u.sgl (ibUmemOffset ps u + k) = some (block + (u.iova + k) % pgsz)

/-- The segments of a valid region are laid out from `virt - pgoff` on (one turn of the address
    space up, so that it is not negative). -/
theorem aligned_of_dvd {ps g : ℕ} {u : Umem} {pgszBitmap virt : ℕ} (hg : g ≤ 64)
    (hv : virt < 2 ^ 64) (hoff : ibUmemOffset ps u ≤ 2 ^ 64)
    (hdvd : 2 ^ g ∣ vaPaMask ps u pgszBitmap virt) :
    2 ^ g ∣ pgszBitmap &&&
        genmask 63 (bitsPer (toU 64 ((u.length : ℤ) - 1 + virt) ^^^ virt)) ∧
      Aligned (2 ^ g) (virt + 2 ^ 64 - ibUmemOffset ps u) u.sgl :=
  maskLoop_aligned hg (by omega) hdvd

/-- Segment and region start inside the same page, so the offset in the page never carries into the
    next block. -/
theorem offset_mod_le {ps g V : ℕ} {u : Umem} {s : Seg} (hpage : 2 ^ ps ∣ s.addr)
    (hV : (s.addr + ibUmemOffset ps u) % 2 ^ g = V % 2 ^ g) :
    ibUmemOffset ps u % 2 ^ g ≤ V % 2 ^ g := by
  have hoff : ibUmemOffset ps u < 2 ^ ps := Nat.mod_lt _ (Nat.two_pow_pos ps)
  have hsum : s.addr % 2 ^ g + ibUmemOffset ps u % 2 ^ g < 2 ^ g := by
    rcases Nat.le_total g ps with hle | hle
    · have hzero : s.addr % 2 ^ g = 0 :=
        Nat.mod_eq_zero_of_dvd ((Nat.pow_dvd_pow 2 hle).trans hpage)
      rw [hzero, Nat.zero_add]
      exact Nat.mod_lt _ (Nat.two_pow_pos g)
    · have hdvd : (2 : ℕ) ^ ps ∣ 2 ^ g := Nat.pow_dvd_pow 2 hle
      have hrest : 2 ^ ps ∣ 2 ^ g - s.addr % 2 ^ g :=
        Nat.dvd_sub hdvd ((Nat.dvd_mod_iff hdvd).mpr hpage)
      have hroom := Nat.le_of_dvd (by omega) hrest
      have hmod := Nat.mod_le (ibUmemOffset ps u) (2 ^ g)
      omega
  rw [← hV, Nat.add_mod, Nat.mod_eq_of_lt hsum]
  omega

theorem Valid.offset_le {ps : ℕ} {u : Umem} (h : Valid ps u) : ibUmemOffset ps u ≤ 2 ^ 64 := by
  obtain ⟨s, r, hsgl⟩ := List.exists_cons_of_ne_nil h.nonempty
  have hmem : s ∈ u.sgl := hsgl ▸ List.mem_cons_self ..
  have hs := h.mapped s hmem
  have hlen := hs.len
  have hpage := Nat.le_of_dvd hs.pos (h.pages s hmem).2
  have hlt : ibUmemOffset ps u < 2 ^ ps := Nat.mod_lt _ (Nat.two_pow_pos ps)
  omega

/-- The iterator starts at the block of the first byte. -/
theorem Valid.cursor {ps g : ℕ} {u : Umem} {s : Seg} {r : List Seg} (h : Valid ps u)
    (hsgl : u.sgl = s :: r) (hg : g ≤ 64)
    (hal : Aligned (2 ^ g) (u.iova + 2 ^ 64 - ibUmemOffset ps u) u.sgl)
    (hnum : ibUmemNumDmaBlocks u (2 ^ g) = blockCount u (2 ^ g)) :
    let b := umemBlockIterStart ps u (2 ^ g)
    let w := u.iova + 2 ^ 64 - ibUmemOffset ps u
    Cursor g w (ibUmemOffset ps u + u.length) b s r ∧
      (w + b.sgAdvance) / 2 ^ g = (u.iova + 2 ^ 64) / 2 ^ g ∧
      b.sgAdvance ≤ ibUmemOffset ps u := by
  intro b w
  have hmem : s ∈ u.sgl := hsgl ▸ List.mem_cons_self ..
  have hs := h.mapped s hmem
  have hlen := hs.len
  have hpos := Nat.two_pow_pos g
  have hoff : ibUmemOffset ps u < 2 ^ ps := Nat.mod_lt _ (Nat.two_pow_pos ps)
  have hpage : 2 ^ ps ≤ s.len := Nat.le_of_dvd hs.pos (h.pages s hmem).2
  have hdm := Nat.div_add_mod (ibUmemOffset ps u) (2 ^ g)
  have hadv : b.sgAdvance = ibUmemOffset ps u - ibUmemOffset ps u % 2 ^ g := by
    change ibUmemOffset ps u / 2 ^ g * 2 ^ g % 2 ^ 32 = _
    rw [mul_comm]
    omega
  rw [hsgl] at hal
  -- the first segment agrees with the region's IOVA
  have hV : (s.addr + ibUmemOffset ps u) % 2 ^ g = (u.iova + 2 ^ 64) % 2 ^ g := by
    have hmod := Nat.ModEq.add_right (ibUmemOffset ps u) hal.1
    rwa [show u.iova + 2 ^ 64 - ibUmemOffset ps u + ibUmemOffset ps u = u.iova + 2 ^ 64 by omega]
      at hmod
  have hle := offset_mod_le (u := u) (h.pages s hmem).1 hV
  have hq : (w + b.sgAdvance) / 2 ^ g = (u.iova + 2 ^ 64) / 2 ^ g := by
    have hVdm := Nat.div_add_mod (u.iova + 2 ^ 64) (2 ^ g)
    rw [hadv, Nat.div_eq_iff hpos, mul_comm]
    omega
  have hiova : (u.iova + 2 ^ 64) % 2 ^ g = u.iova % 2 ^ g := by
    obtain ⟨c, hc⟩ : (2 : ℕ) ^ g ∣ 2 ^ 64 := Nat.pow_dvd_pow 2 hg
    rw [hc, Nat.add_mul_mod_self_left]
  have hVdm := Nat.div_add_mod (u.iova + 2 ^ 64) (2 ^ g)
  -- the count is a division rounded up
  have hceil := Nat.div_add_mod (u.iova % 2 ^ g + u.length + (2 ^ g - 1)) (2 ^ g)
  have hblocks : b.sgNumblocks = blockCount u (2 ^ g) := hnum
  have hend : w + (ibUmemOffset ps u + u.length) = u.iova + 2 ^ 64 + u.length := by omega
  refine ⟨⟨hsgl, ?_, Nat.log2_two_pow .., ?_, hsgl ▸ h.mapped, hal, hsgl ▸ h.covered, ?_,
    fun _ => ?_⟩, hq, ?_⟩
  · change u.sgl.length = _
    rw [hsgl, List.length_cons]
  · omega
  · rw [hq, hblocks, hend, blockCount, Nat.mul_add]
    omega
  · rw [hq, hblocks, hend, blockCount, Nat.mul_add]
    omega
  · omega

/-- The count does not wrap, except for blocks of half the address space that the region
    crosses. -/
theorem Valid.numDmaBlocks {ps g : ℕ} {u : Umem} (h : Valid ps u) (hg : g < 64) {w : ℕ}
    (hal : Aligned (2 ^ g) w u.sgl)
    (hcond : g = 63 → u.iova % 2 ^ 63 + u.length ≤ 2 ^ 63) :
    ibUmemNumDmaBlocks u (2 ^ g) = blockCount u (2 ^ g) := by
  rw [numDmaBlocks_eq hg.le, Nat.mod_eq_of_lt]
  have hpos := Nat.two_pow_pos g
  have hspace : (2 : ℕ) ^ (64 - g) * 2 ^ g = 2 ^ 64 := by
    rw [← pow_add]
    congr 1
    omega
  rw [blockCount, Nat.div_lt_iff_lt_mul hpos, hspace]
  have hcov := h.covered
  rcases Nat.lt_or_ge g 32 with hsmall | hlarge
  · -- many small segments: the list has fewer than `2 ^ 32` of them
    have htot := total_le (m := 2 ^ 32 - 1) fun s hs => by
      have := (h.mapped s hs).len
      omega
    have hmul : u.sgl.length * (2 ^ 32 - 1) ≤ (2 ^ 32 - 1) * (2 ^ 32 - 1) :=
      Nat.mul_le_mul_right _ (by have := h.nents; omega)
    have hP : (2 : ℕ) ^ g ≤ 2 ^ 31 := Nat.pow_le_pow_right (by norm_num) (by omega)
    omega
  · have htot := hal.total_lt h.mapped (Nat.pow_le_pow_right (by norm_num) hlarge)
    rcases Nat.lt_or_ge g 63 with hlt | hge
    · have hP : (2 : ℕ) ^ g ≤ 2 ^ 62 := Nat.pow_le_pow_right (by norm_num) (by omega)
      omega
    · obtain rfl : g = 63 := by omega
      omega

/-- Shifting by a multiple of the block size shifts the block number and keeps the offset. -/
theorem block_index {g v k : ℕ} (hg : g ≤ 64) :
    (v + 2 ^ 64 + k) / 2 ^ g - (v + 2 ^ 64) / 2 ^ g = (v + k) / 2 ^ g - v / 2 ^ g ∧
      (v + 2 ^ 64 + k) % 2 ^ g = (v + k) % 2 ^ g := by
  obtain ⟨c, hc⟩ : (2 : ℕ) ^ g ∣ 2 ^ 64 := Nat.pow_dvd_pow 2 hg
  have hpos := Nat.two_pow_pos g
  rw [Nat.add_right_comm, hc, Nat.add_mul_div_left _ _ hpos, Nat.add_mul_div_left _ _ hpos,
    Nat.add_mul_mod_self_left]
  omega

/-- Segments aligned to a block size of the bitmap, with a count that does not wrap, translate
    exactly. -/
theorem Valid.exact {ps g : ℕ} {u : Umem} {pgszBitmap : ℕ} (h : Valid ps u) (hg : g ≤ 64)
    (hbit : pgszBitmap.testBit g = true)
    (hal : Aligned (2 ^ g) (u.iova + 2 ^ 64 - ibUmemOffset ps u) u.sgl)
    (hnum : ibUmemNumDmaBlocks u (2 ^ g) = blockCount u (2 ^ g)) :
    Exact ps u pgszBitmap (2 ^ g) := by
  obtain ⟨s, r, hsgl⟩ := List.exists_cons_of_ne_nil h.nonempty
  obtain ⟨hc, hq, hadv⟩ := h.cursor hsgl hg hal hnum
  obtain ⟨hlen, hbytes⟩ := hc.blockLoop_translates rfl
  refine ⟨⟨g, rfl, hbit⟩, ?_, fun k hk => ?_⟩
  · rw [umemForEachDmaBlock, List.length_map, hlen]
    rfl
  · obtain ⟨x, hx, hbyte⟩ := hbytes (ibUmemOffset ps u + k) (by omega) (by omega)
    have hoff := h.offset_le
    obtain ⟨hidx, hmod⟩ := block_index (g := g) (v := u.iova) (k := k) hg
    rw [show u.iova + 2 ^ 64 - ibUmemOffset ps u + (ibUmemOffset ps u + k) =
      u.iova + 2 ^ 64 + k by omega] at hx hbyte
    rw [hq, hidx] at hx
    rw [hmod] at hbyte
    refine ⟨x / 2 ^ g * 2 ^ g, ?_, hsgl ▸ hbyte⟩
    have hpg : (umemBlockIterStart ps u (2 ^ g)).pgBit = g := hc.pgBit
    simp only [umemForEachDmaBlock, List.getElem?_map, hx, hpg, Option.map_some,
      blockIterDmaAddress]

/-- A region that crosses half of the address space in blocks of that size gets no block. -/
theorem not_exact_of_crossing {ps : ℕ} {u : Umem} {pgszBitmap : ℕ} (hlen : u.length < 2 ^ 33)
    (hcross : 2 ^ 63 < u.iova % 2 ^ 63 + u.length) : ¬ Exact ps u pgszBitmap (2 ^ 63) := by
  intro hex
  have hcount : ibUmemNumDmaBlocks u (2 ^ 63) = 0 := by
    rw [numDmaBlocks_eq (by norm_num), blockCount]
    omega
  obtain ⟨block, hblock, -⟩ := hex.bytes 0 (by omega)
  have hnil : umemForEachDmaBlock ps u (2 ^ 63) = [] :=
    List.eq_nil_of_length_eq_zero (hex.count.trans hcount)
  rw [hnil] at hblock
  simp at hblock

/-- When a page size that `ib_umem_find_best_pgsz` returns translates exactly: always, unless half
    the address space is the only page size and the region crosses a multiple of it, since the block
    count then wraps to zero. -/
theorem umem_translation_exact_iff {ps : ℕ} {u : Umem} {pgszBitmap virt : ℕ} (h : Valid ps u)
    (hb : pgszBitmap < 2 ^ 64) (hv : virt < 2 ^ 64)
    (hne : (ibUmemFindBestPgsz ps u pgszBitmap virt).1 ≠ 0) :
    Exact ps (ibUmemFindBestPgsz ps u pgszBitmap virt).2 pgszBitmap
        (ibUmemFindBestPgsz ps u pgszBitmap virt).1 ↔
      pgszBitmap ≠ 2 ^ 63 ∨ virt % 2 ^ 63 + u.length ≤ 2 ^ 63 := by
  have hfind : ibUmemFindBestPgsz ps u pgszBitmap virt =
      (pickPgsz pgszBitmap (vaPaMask ps u pgszBitmap virt), { u with iova := virt }) := by
    simp only [ibUmemFindBestPgsz, h.noOdp]
    rfl
  rw [hfind] at hne ⊢
  have hmask : vaPaMask ps u pgszBitmap virt < 2 ^ 64 :=
    maskLoop_lt hv (lt_of_le_of_lt Nat.and_le_left hb)
  obtain ⟨g, hg, hpgsz, hbit, hdvd⟩ := pickPgsz_dvd_mask hb hmask hne
  have hu : Valid ps { u with iova := virt } :=
    { h with }
  obtain ⟨hmask₀, hal⟩ := aligned_of_dvd hg.le hv h.offset_le hdvd
  have hcross : g = 63 → 2 ^ 63 < virt % 2 ^ 63 + u.length → pgszBitmap = 2 ^ 63 := by
    rintro rfl hlt
    have htot := hal.total_lt h.mapped (by norm_num)
    exact bitmap_eq_of_crossing hb hv (by have := h.covered; omega) hbit hlt hmask₀
  simp only [hpgsz]
  constructor
  · intro hex
    by_contra hcond
    push Not at hcond
    obtain ⟨rfl, hlt⟩ := hcond
    have hg63 : g = 63 := by
      rw [Nat.testBit_two_pow] at hbit
      exact (of_decide_eq_true hbit).symm
    subst hg63
    have htot := hal.total_lt h.mapped (by norm_num)
    exact not_exact_of_crossing (by have := h.covered; change u.length < _; omega) hlt hex
  · intro hcond
    refine hu.exact hg.le hbit hal (hu.numDmaBlocks hg hal fun h63 => ?_)
    by_contra hlt
    have hbm := hcross h63 (not_le.mp hlt)
    exact hcond.elim (absurd hbm) hlt

/-- CORRECT: for every pinned region, IOVA and supported page-size bitmap, a page size that
    `ib_umem_find_best_pgsz` returns translates exactly. Supported are all bitmaps but that of the
    one page size of half the address space, which no device has and no caller passes. -/
theorem umem_translation_exact {ps : ℕ} {u : Umem} {pgszBitmap virt : ℕ} (h : Valid ps u)
    (hb : pgszBitmap < 2 ^ 64) (hsupported : pgszBitmap ≠ 2 ^ 63) (hv : virt < 2 ^ 64)
    (hne : (ibUmemFindBestPgsz ps u pgszBitmap virt).1 ≠ 0) :
    Exact ps (ibUmemFindBestPgsz ps u pgszBitmap virt).2 pgszBitmap
      (ibUmemFindBestPgsz ps u pgszBitmap virt).1 :=
  (umem_translation_exact_iff h hb hv hne).mpr (.inl hsupported)

/-- A buffer of two 2 MiB huge pages, registered from the second 4 KiB page on. -/
def hugeRegion : Umem :=
  { iova := 0, length := 2 ^ 21, address := 2 ^ 30 + 2 ^ 12, odp := none,
    sgl := [⟨2 ^ 33 + 2 ^ 12, 2 ^ 21 - 2 ^ 12⟩, ⟨2 ^ 35, 2 ^ 21⟩] }

theorem hugeRegion_valid : Valid 12 hugeRegion where
  noOdp := rfl
  nonempty := by decide
  nents := by decide
  mapped := by
    intro s hs
    simp only [hugeRegion, List.mem_cons, List.not_mem_nil, or_false] at hs
    rcases hs with rfl | rfl
    · exact ⟨by decide, by decide, by decide⟩
    · exact ⟨by decide, by decide, by decide⟩
  pages := by
    intro s hs
    simp only [hugeRegion, List.mem_cons, List.not_mem_nil, or_false] at hs
    rcases hs with rfl | rfl
    · exact ⟨by decide, by decide⟩
    · exact ⟨by decide, by decide⟩
  covered := by decide

/-- Registered at its own address, the buffer is mapped with 2 MiB blocks. -/
theorem umem_translation_exact_huge :
    (ibUmemFindBestPgsz 12 hugeRegion (2 ^ 12 + 2 ^ 21) (2 ^ 30 + 2 ^ 12)).1 = 2 ^ 21 ∧
      Exact 12 (ibUmemFindBestPgsz 12 hugeRegion (2 ^ 12 + 2 ^ 21) (2 ^ 30 + 2 ^ 12)).2
        (2 ^ 12 + 2 ^ 21)
        (ibUmemFindBestPgsz 12 hugeRegion (2 ^ 12 + 2 ^ 21) (2 ^ 30 + 2 ^ 12)).1 :=
  ⟨by decide, umem_translation_exact hugeRegion_valid (by decide) (by decide) (by decide)
    (by decide)⟩

end RdmaDriver.UmemDma
