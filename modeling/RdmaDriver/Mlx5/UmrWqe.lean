import RdmaDriver.Mlx5.UpdateXlt
import RdmaDriver.Schemes.Tiles

/-! @src drivers/infiniband/hw/mlx5/umr.c | name:UMR translation requests | scheme:tiles |
    family:table

    A UMR that updates a translation table names the part of the table by an offset and a length in
    octowords, the offset split over two fields, and takes the entries from a buffer. The fields of
    the mkey that it may change are given by the mask in its control segment; the contents of the
    mkey segment are left out.

        flags | octowords | offset 15..0 | mkey_mask | offset 47..16
        byte_count | addr --> buffer -/

namespace RdmaDriver.UmrWqe
open Schemes UpdateXlt

def MLX5_IB_UMR_OCTOWORD : ℕ := 16
def MLX5_IB_UMR_XLT_ALIGNMENT : ℕ := 64

def MLX5_IB_UPD_XLT_ZAP : ℕ := 1
def MLX5_IB_UPD_XLT_ENABLE : ℕ := 2
def MLX5_IB_UPD_XLT_ADDR : ℕ := 8
def MLX5_IB_UPD_XLT_PD : ℕ := 16
def MLX5_IB_UPD_XLT_ACCESS : ℕ := 32
def MLX5_IB_UPD_XLT_INDIRECT : ℕ := 64

def MLX5_UMR_TRANSLATION_OFFSET_EN : ℕ := 1 <<< 4
def MLX5_UMR_CHECK_NOT_FREE : ℕ := 1 <<< 5
def MLX5_UMR_CHECK_FREE : ℕ := 2 <<< 5

def MLX5_MKEY_MASK_LEN : ℕ := 1 <<< 0
def MLX5_MKEY_MASK_PAGE_SIZE : ℕ := 1 <<< 1
def MLX5_MKEY_MASK_START_ADDR : ℕ := 1 <<< 6
def MLX5_MKEY_MASK_PD : ℕ := 1 <<< 7
def MLX5_MKEY_MASK_KEY : ℕ := 1 <<< 13
def MLX5_MKEY_MASK_LR : ℕ := 1 <<< 17
def MLX5_MKEY_MASK_LW : ℕ := 1 <<< 18
def MLX5_MKEY_MASK_RR : ℕ := 1 <<< 19
def MLX5_MKEY_MASK_RW : ℕ := 1 <<< 20
def MLX5_MKEY_MASK_A : ℕ := 1 <<< 21
def MLX5_MKEY_MASK_RELAXED_ORDERING_WRITE : ℕ := 1 <<< 25
def MLX5_MKEY_MASK_FREE : ℕ := 1 <<< 29
def MLX5_MKEY_MASK_RELAXED_ORDERING_READ : ℕ := 1 <<< 47

/-- The control segment and the length of the data segment of `struct mlx5r_umr_wqe`, and the bit
    `length64` of its mkey segment. -/
structure Wqe where
  flags : ℕ
  xltOctowords : ℕ
  xltOffset : ℕ
  mkeyMask : ℕ
  xltOffset4716 : ℕ
  length64 : Bool
  byteCount : ℕ
  deriving DecidableEq

/-- `struct mlx5r_umr_wqe wqe = {}`. -/
def Wqe.zero : Wqe := ⟨0, 0, 0, 0, 0, false, 0⟩

/-- The device capabilities that decide on the mask. -/
structure Caps where
  atomic : Bool
  relaxedOrderingWriteUmr : Bool
  relaxedOrderingReadUmr : Bool
  deriving DecidableEq

/-- `get_umr_enable_mr_mask`. -/
def getUmrEnableMrMask : ℕ := MLX5_MKEY_MASK_KEY ||| MLX5_MKEY_MASK_FREE

/-- `get_umr_update_translation_mask`. -/
def getUmrUpdateTranslationMask : ℕ :=
  MLX5_MKEY_MASK_LEN ||| MLX5_MKEY_MASK_PAGE_SIZE ||| MLX5_MKEY_MASK_START_ADDR

/-- `get_umr_update_access_mask`. -/
def getUmrUpdateAccessMask (dev : Caps) : ℕ :=
  let result := MLX5_MKEY_MASK_LR ||| MLX5_MKEY_MASK_LW ||| MLX5_MKEY_MASK_RR ||| MLX5_MKEY_MASK_RW
  let result := if dev.atomic then result ||| MLX5_MKEY_MASK_A else result
  let result := if dev.relaxedOrderingWriteUmr then
    result ||| MLX5_MKEY_MASK_RELAXED_ORDERING_WRITE else result
  if dev.relaxedOrderingReadUmr then result ||| MLX5_MKEY_MASK_RELAXED_ORDERING_READ else result

/-- `get_umr_update_pd_mask`. -/
def getUmrUpdatePdMask : ℕ := MLX5_MKEY_MASK_PD

/-- `mlx5r_umr_get_xlt_octo`. -/
def mlx5rUmrGetXltOcto (bytes : ℕ) : ℕ :=
  align bytes MLX5_IB_UMR_XLT_ALIGNMENT / MLX5_IB_UMR_OCTOWORD

/-- `mlx5r_umr_create_xlt`: the length of the buffer that is mapped. -/
def mlx5rUmrCreateXlt (a : Alloc) (nents entSize : ℕ) : Option ℕ :=
  let nents := mlx5rUmrAllocXlt a nents entSize
  if !a.dmaMap then none else some (toU 32 (nents * entSize : ℕ))

/-- `mlx5r_umr_set_update_xlt_ctrl_seg`. -/
def mlx5rUmrSetUpdateXltCtrlSeg (wqe : Wqe) (flags sgLength : ℕ) : Wqe :=
  { wqe with
    flags := if flags &&& MLX5_IB_UPD_XLT_ENABLE = 0 then MLX5_UMR_CHECK_FREE
      else MLX5_UMR_CHECK_NOT_FREE
    xltOctowords := toU 16 (mlx5rUmrGetXltOcto sgLength) }

/-- `mlx5r_umr_set_update_xlt_data_seg`. -/
def mlx5rUmrSetUpdateXltDataSeg (wqe : Wqe) (sgLength : ℕ) : Wqe :=
  { wqe with byteCount := sgLength }

/-- `mlx5r_umr_update_offset`. -/
def mlx5rUmrUpdateOffset (wqe : Wqe) (offset : ℕ) : Wqe :=
  let octoOffset := mlx5rUmrGetXltOcto offset
  { wqe with
    xltOffset := octoOffset % 2 ^ 16
    xltOffset4716 := toU 32 (octoOffset / 2 ^ 16 : ℕ)
    flags := wqe.flags ||| MLX5_UMR_TRANSLATION_OFFSET_EN }

/-- The mkey fields that the last request of an update may change. -/
def finalMask (dev : Caps) (flags : ℕ) : ℕ :=
  let mask := if flags &&& MLX5_IB_UPD_XLT_ENABLE ≠ 0 then getUmrEnableMrMask else 0
  let updatePdAccess := flags &&& MLX5_IB_UPD_XLT_ENABLE ≠ 0 ∨ flags &&& MLX5_IB_UPD_XLT_PD ≠ 0 ∨
    flags &&& MLX5_IB_UPD_XLT_ACCESS ≠ 0
  let mask := if updatePdAccess then
    mask ||| getUmrUpdateAccessMask dev ||| getUmrUpdatePdMask else mask
  let updateTranslation :=
    flags &&& MLX5_IB_UPD_XLT_ENABLE ≠ 0 ∨ flags &&& MLX5_IB_UPD_XLT_ADDR ≠ 0
  if updateTranslation then mask ||| getUmrUpdateTranslationMask else mask

/-- `mlx5r_umr_final_update_xlt`; `ibmrLength` is the length of the MR. -/
def mlx5rUmrFinalUpdateXlt (dev : Caps) (wqe : Wqe) (ibmrLength sgLength flags : ℕ) : Wqe :=
  let updateTranslation :=
    flags &&& MLX5_IB_UPD_XLT_ENABLE ≠ 0 ∨ flags &&& MLX5_IB_UPD_XLT_ADDR ≠ 0
  { wqe with
    mkeyMask := wqe.mkeyMask ||| finalMask dev flags
    length64 := wqe.length64 || decide (updateTranslation ∧ ibmrLength = 0)
    xltOctowords := toU 16 (mlx5rUmrGetXltOcto sgLength)
    byteCount := sgLength }

/-! ### Requests -/

/-- A request as it is posted: the work queue entry and the entries in the buffer. -/
structure Request (α : Type) where
  wqe : Wqe
  xlt : ℕ → α

section Request

variable {α : Type}

/-- The offset of a request in octowords. -/
def Request.offset (r : Request α) : ℕ :=
  if r.wqe.flags &&& MLX5_UMR_TRANSLATION_OFFSET_EN = 0 then 0
  else r.wqe.xltOffset4716 * 2 ^ 16 + r.wqe.xltOffset

/-- The entries of the table that a request writes. -/
def Request.tile (entSize : ℕ) (r : Request α) : Tile α :=
  { first := r.offset * MLX5_IB_UMR_OCTOWORD / entSize
    count := r.wqe.xltOctowords * MLX5_IB_UMR_OCTOWORD / entSize
    val := r.xlt }

end Request

/-! ### Octowords -/

/-- Whole units are whole octowords. -/
theorem getXltOcto_units (k : ℕ) : mlx5rUmrGetXltOcto (MLX5_UMR_FLEX_ALIGNMENT * k) = 4 * k := by
  unfold mlx5rUmrGetXltOcto align MLX5_UMR_FLEX_ALIGNMENT MLX5_IB_UMR_XLT_ALIGNMENT
    MLX5_IB_UMR_OCTOWORD
  omega

theorem getXltOcto_mul {n : ℕ} (h : MLX5_UMR_FLEX_ALIGNMENT ∣ n) :
    mlx5rUmrGetXltOcto n * MLX5_IB_UMR_OCTOWORD = n := by
  obtain ⟨k, rfl⟩ := h
  rw [getXltOcto_units]
  unfold MLX5_UMR_FLEX_ALIGNMENT MLX5_IB_UMR_OCTOWORD
  omega

/-- The flag that enables the offset is not one that is set before. -/
theorem offset_flag (flags : ℕ) :
    (flags ||| MLX5_UMR_TRANSLATION_OFFSET_EN) &&& MLX5_UMR_TRANSLATION_OFFSET_EN ≠ 0 := by
  intro h
  have hbit := congrArg (fun n : ℕ => n.testBit 4) h
  have hen : MLX5_UMR_TRANSLATION_OFFSET_EN.testBit 4 = true := by decide
  simp only [Nat.testBit_and, Nat.testBit_or, hen, Bool.or_true] at hbit
  exact Bool.noConfusion hbit

/-- The two offset fields hold the offset. -/
theorem updateOffset_offset {α : Type} {wqe : Wqe} {offset : ℕ} {xlt : ℕ → α}
    (hdvd : MLX5_UMR_FLEX_ALIGNMENT ∣ offset) (hlt : offset < 2 ^ 52) :
    (Request.mk (mlx5rUmrUpdateOffset wqe offset) xlt).offset * MLX5_IB_UMR_OCTOWORD = offset := by
  have hmul := getXltOcto_mul hdvd
  unfold MLX5_IB_UMR_OCTOWORD at hmul
  have hfield : toU 32 (mlx5rUmrGetXltOcto offset / 2 ^ 16 : ℕ) =
      mlx5rUmrGetXltOcto offset / 2 ^ 16 := toU_of_lt (by omega)
  have hsum := Nat.div_add_mod' (mlx5rUmrGetXltOcto offset) (2 ^ 16)
  simp only [Request.offset, mlx5rUmrUpdateOffset, hfield, if_neg (offset_flag wqe.flags)]
  unfold MLX5_IB_UMR_OCTOWORD
  omega

/-- The field of the length holds the length of a buffer. -/
theorem octowords_mul {n : ℕ} (hdvd : MLX5_UMR_FLEX_ALIGNMENT ∣ n) (hlt : n < 2 ^ 20) :
    toU 16 (mlx5rUmrGetXltOcto n) * MLX5_IB_UMR_OCTOWORD = n := by
  have hmul := getXltOcto_mul hdvd
  have hlt' : mlx5rUmrGetXltOcto n < 2 ^ 16 := by
    unfold MLX5_IB_UMR_OCTOWORD at hmul
    omega
  rw [toU_of_lt hlt', hmul]

/-! ### The buffer -/

theorem align_le {n m a : ℕ} (ha : 0 < a) (h : n ≤ m) (hdvd : a ∣ m) : align n a ≤ m := by
  obtain ⟨k, rfl⟩ := hdvd
  rw [Nat.mul_comm a k] at h ⊢
  rw [← align_mul k ha]
  exact Nat.mul_le_mul_right a (Nat.div_le_div_right (by omega))

/-- A buffer has a positive number of whole units, also where none is asked for: the pages for an
    empty one (`get_order(0)`) are not there. -/
theorem allocXlt_pos {d a n : ℕ} (hd : 0 < d) (hda : MLX5_UMR_FLEX_ALIGNMENT = a * d) {al : Alloc}
    (hbuf : al.freePages = true → 0 < n) :
    0 < mlx5rUmrAllocXlt al n d ∧ a ∣ mlx5rUmrAllocXlt al n d := by
  rcases Nat.eq_zero_or_pos n with rfl | hn
  · have hno : al.freePages = false := by
      cases hfree : al.freePages with
      | false => rfl
      | true => exact absurd (hbuf hfree) (Nat.lt_irrefl 0)
    have hunits := allocXlt_units hd hda ⟨false, false, al.dmaMap⟩ Nat.one_pos
    have hpage : mlx5rUmrAllocXlt ⟨false, false, al.dmaMap⟩ 1 d = PAGE_SIZE / d := by
      simp [mlx5rUmrAllocXlt]
    have hempty : mlx5rUmrAllocXlt al 0 d = PAGE_SIZE / d := by
      have hdiv : MLX5_UMR_FLEX_ALIGNMENT / d = a := by rw [hda, Nat.mul_div_cancel _ hd]
      have ha : 0 < a := Nat.pos_of_ne_zero fun h => by
        rw [h, Nat.zero_mul] at hda
        exact absurd hda (by decide)
      simp [mlx5rUmrAllocXlt, hno, hdiv, align_zero ha]
    rwa [hempty, ← hpage]
  · exact allocXlt_units hd hda al hn

/-- The buffer is not larger than a request can name. -/
theorem allocXlt_le {d : ℕ} (al : Alloc) (n : ℕ) :
    mlx5rUmrAllocXlt al n d * d < 2 ^ 20 := by
  have hfit : ∀ {size : ℕ}, size < 2 ^ 20 → size / d * d < 2 ^ 20 := fun h =>
    Nat.lt_of_le_of_lt (Nat.div_mul_le_self _ d) h
  unfold mlx5rUmrAllocXlt
  dsimp only
  split
  · exact hfit (Nat.lt_of_le_of_lt (Nat.min_le_right _ _) (by decide))
  · split
    · exact hfit (by decide)
    · exact hfit (by decide)

theorem createXlt_eq {al : Alloc} (hmap : al.dmaMap = true) (nents d : ℕ) :
    mlx5rUmrCreateXlt al nents d = some (mlx5rUmrAllocXlt al nents d * d) := by
  have hlt := allocXlt_le (d := d) al nents
  unfold mlx5rUmrCreateXlt
  dsimp only
  rw [hmap, toU_of_lt (by omega)]
  rfl

end RdmaDriver.UmrWqe
