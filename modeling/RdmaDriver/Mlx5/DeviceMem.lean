import RdmaDriver.Schemes.BitExtents
import RdmaDriver.Schemes.Run
import Mathlib.Data.Nat.Bitwise
import Mathlib.Logic.Function.Basic

/-! @src drivers/net/ethernet/mellanox/mlx5/core/lib/dm.c, drivers/infiniband/hw/mlx5/dm.c |
    name:Device memory | scheme:run | family:allocator

    Memory of the device is given out in blocks: SW ICM in blocks of the granularity, from one
    region for each type; MEMIC in pages of its BAR. A bitmap says which blocks are out:

        bitmap - find -> set -> command - ok -> object - destroy -> clear
                                   +- refused -> clear, and for MEMIC and EAGAIN: find further on

    A destroy that the firmware refuses leaves the bits of the object set. A step is one call of the
    uverbs handlers, or one of the kernel's own user of SW ICM. -/

namespace RdmaDriver.DeviceMem
open RdmaDriver.Schemes Function
open Nat (add_mul mod_eq_of_lt mul_le_mul_right)

def PAGE_SHIFT : ℕ := 12
def PAGE_SIZE : ℕ := 2 ^ PAGE_SHIFT
def MLX5_MAX_MEMIC_PAGES : ℕ := 0x100
def MLX5_MEMIC_ALLOC_SIZE_MASK : ℕ := 0x3f
def MLX5_MEMIC_BASE_ALIGN : ℕ := 6
def MLX5_MEMIC_BASE_SIZE : ℕ := 2 ^ MLX5_MEMIC_BASE_ALIGN

/-- The value as a `u32`. -/
def u32 (n : ℕ) : ℕ := n % 2 ^ 32

/-- The value as a `u64`. -/
def u64 (n : ℕ) : ℕ := n % 2 ^ 64

/-- `BIT`, a shift of an `unsigned long`; the processor takes the count modulo 64. -/
def bit (n : ℕ) : ℕ := 2 ^ (n % 64)

/-- `enum mlx5_sw_icm_type`. -/
inductive IcmType where
  | steering | headerModify | headerModifyPattern | swEncap
  deriving DecidableEq

/-- The capabilities that are read, and the address of the BAR. -/
structure Caps where
  swIcm : Bool
  logSwIcmAllocGranularity : BitVec 6
  icmStart : IcmType → BitVec 64
  logIcmSize : IcmType → BitVec 8
  swOwnerRx : Bool
  swOwnerTx : Bool
  swOwnerV2Rx : Bool
  swOwnerV2Tx : Bool
  memic : Bool
  memicBarStartAddr : BitVec 64
  memicBarSize : BitVec 32
  logMaxMemicAddrAlignment : BitVec 8
  barAddr : BitVec 64

/-- `MLX5_LOG_SW_ICM_BLOCK_SIZE`. -/
def Caps.logBlock (c : Caps) : ℕ := c.logSwIcmAllocGranularity.toNat

/-- `MLX5_SW_ICM_BLOCK_SIZE`. -/
def Caps.block (c : Caps) : ℕ := 2 ^ c.logBlock

/-- `BIT(log_icm_size - MLX5_LOG_SW_ICM_BLOCK_SIZE(dev))`, for `u32` numbers, as the
    `unsigned int` that it becomes. -/
def Caps.icmBlocks (c : Caps) (t : IcmType) : ℕ :=
  u32 (bit (u32 ((c.logIcmSize t).toNat + 2 ^ 32 - c.logBlock)))

/-- `struct mlx5_dm` of the core driver: its bitmaps, for the types that have one. -/
abbrev Dm := IcmType → Option Bitmap

/-- What `dev->dm` points to; `err` is an `ERR_PTR`. -/
inductive DmPtr where
  | null
  | err
  | dm (maps : Dm)

inductive Errno where
  | eopnotsupp | einval | enomem | eperm | efault
  | cmd (err : ℕ)
  deriving DecidableEq

/-- `fault`: a bitmap was accessed that is not there, or beyond its length; `hang`: the search of
    MEMIC pages did not end. -/
structure St where
  dm : DmPtr
  memicAllocPages : Bitmap
  fault : Bool
  hang : Bool

/-- The types that `mlx5_dm_create` makes a bitmap for. -/
def Caps.hasMap (c : Caps) : IcmType → Bool
  | .steering => c.icmStart .steering ≠ 0
  | .headerModify => c.icmStart .headerModify ≠ 0
  | .swEncap => c.logIcmSize .swEncap ≠ 0
  | .headerModifyPattern =>
    c.swOwnerV2Rx && c.swOwnerV2Tx && decide (c.icmStart .headerModifyPattern ≠ 0)

/-- `mlx5_dm_create`; `mem none` is for the struct, and `mem t` for a bitmap: they are allocated. -/
def mlx5DmCreate (c : Caps) (mem : Option IcmType → Bool) : DmPtr :=
  if c.swIcm = false then .null
  else if mem none = false then .err
  else if ∃ t ∈ [IcmType.steering, .headerModify, .swEncap, .headerModifyPattern],
    c.hasMap t = true ∧ mem (some t) = false then .err
  else .dm fun t => if c.hasMap t then some (.zero (c.icmBlocks t)) else none

/-- An access to the bits from `i` on, `n` of them. -/
def St.access (s : St) (m : Bitmap) (i n : ℕ) : St :=
  { s with fault := s.fault || decide (m.len < i + n) }

/-- A write to the bitmap of a type. -/
def St.setMap (s : St) (maps : Dm) (t : IcmType) (m : Bitmap) : St :=
  { s with dm := .dm (update maps t (some m)) }

variable (find : Bitmap → ℕ → ℕ → ℕ → ℕ → ℕ)

/-- The `num_blocks` of a length. -/
def Caps.numBlocks (c : Caps) (length : ℕ) : ℕ := u32 (u64 (length + c.block - 1) / c.block)

/-- The part of `mlx5_dm_sw_icm_alloc` after `block_map` is known to be there. -/
def icmAllocFrom (c : Caps) (s : St) (maps : Dm) (t : IcmType) (m : Bitmap)
    (length logAlignment : ℕ) (fw : Option ℕ) : St × Except Errno ℕ :=
  let numBlocks := c.numBlocks length
  let maxBlocks := c.icmBlocks t
  let logAlignment := if logAlignment < c.logBlock then c.logBlock else logAlignment
  let alignMask := bit (logAlignment - c.logBlock) - 1
  let blockIdx := find m maxBlocks 0 numBlocks alignMask
  let s := s.access m 0 maxBlocks
  if maxBlocks ≤ blockIdx then (s, .error .enomem)
  else
    let s := (s.access m blockIdx numBlocks).setMap maps t (m.set blockIdx numBlocks)
    match fw with
    | none => (s, .ok (u64 ((c.icmStart t).toNat + u64 (blockIdx * c.block))))
    | some err =>
      (s.setMap maps t ((m.set blockIdx numBlocks).clear blockIdx numBlocks), .error (.cmd err))

/-- `mlx5_dm_sw_icm_alloc`; `fw` is the error of the command if it fails. -/
def mlx5DmSwIcmAlloc (c : Caps) (s : St) (t : IcmType) (length logAlignment : ℕ)
    (fw : Option ℕ) : St × Except Errno ℕ :=
  match s.dm with
  | .null => (s, .error .eopnotsupp)
  | .err =>
    if length = 0 ∨ length &&& (length - 1) ≠ 0 ∨ length &&& (c.block - 1) ≠ 0 then
      (s, .error .einval)
    else ({ s with fault := true }, .error .efault)
  | .dm maps =>
    if length = 0 ∨ length &&& (length - 1) ≠ 0 ∨ length &&& (c.block - 1) ≠ 0 then
      (s, .error .einval)
    else
      match maps t with
      | none => (s, .error .eopnotsupp)
      | some m => icmAllocFrom find c s maps t m length logAlignment fw

/-- `mlx5_dm_sw_icm_dealloc`; the command works if `fw`. -/
def mlx5DmSwIcmDealloc (c : Caps) (s : St) (t : IcmType) (length addr : ℕ) (fw : Bool) :
    St × Bool :=
  match s.dm with
  | .null => (s, false)
  | .err => ({ s with fault := true }, false)
  | .dm maps =>
    if fw = false then (s, false)
    else
      let startIdx := u64 (addr + 2 ^ 64 - (c.icmStart t).toNat) / c.block
      match maps t with
      | none => ({ s with fault := true }, true)
      | some m =>
        ((s.access m startIdx (c.numBlocks length)).setMap maps t
          (m.clear startIdx (c.numBlocks length)), true)

/-- What the firmware answers to `ALLOC_MEMIC`. -/
inductive Answer where
  | ok (memicStartAddr : ℕ)
  | eagain
  | fail (err : ℕ)
  deriving DecidableEq

/-- The `num_pages` of a length. -/
def numPages (length : ℕ) : ℕ := u32 (u64 (length + PAGE_SIZE - 1) / PAGE_SIZE)

/-- `num_memic_hw_pages`. -/
def Caps.memicHwPages (c : Caps) : ℕ := c.memicBarSize.toNat / PAGE_SIZE

/-- The address of a page of the BAR of MEMIC, in the command. -/
def Caps.rangeStart (c : Caps) (pageIdx : ℕ) : ℕ :=
  u64 (c.memicBarStartAddr.toNat + u64 (pageIdx * PAGE_SIZE))

/-- The loop of `mlx5_cmd_alloc_memic`; `fw` answers for the page that is offered. -/
def memicLoop (c : Caps) (pages : ℕ) (fw : ℕ → Answer) : ℕ → St → ℕ → St × Except Errno ℕ
  | 0, s, _ => ({ s with hang := true }, .error .enomem)
  | fuel + 1, s, pageIdx =>
    if c.memicHwPages ≤ pageIdx then (s, .error .enomem)
    else
      let m := s.memicAllocPages
      let pageIdx := find m c.memicHwPages pageIdx pages 0
      let s := s.access m 0 c.memicHwPages
      if c.memicHwPages ≤ pageIdx then (s, .error .enomem)
      else
        let s := { s.access m pageIdx pages with memicAllocPages := m.set pageIdx pages }
        let s' := { s with memicAllocPages := (m.set pageIdx pages).clear pageIdx pages }
        match fw pageIdx with
        | .ok a => (s, .ok (u64 (c.barAddr.toNat + a)))
        | .eagain => memicLoop c pages fw fuel s' (pageIdx + 1)
        | .fail err => (s', .error (.cmd err))

/-- `mlx5_alignment`. -/
def mlx5Alignment (alignment : ℕ) : ℕ :=
  if alignment < MLX5_MEMIC_BASE_ALIGN then 0 else alignment - MLX5_MEMIC_BASE_ALIGN

/-- `mlx5_cmd_alloc_memic`. -/
def mlx5CmdAllocMemic (c : Caps) (s : St) (length alignment : ℕ) (fw : ℕ → Answer) :
    St × Except Errno ℕ :=
  if length = 0 ∨ length &&& MLX5_MEMIC_ALLOC_SIZE_MASK ≠ 0 then (s, .error .einval)
  else if c.logMaxMemicAddrAlignment.toNat < mlx5Alignment alignment then (s, .error .einval)
  else memicLoop find c (numPages length) fw (c.memicHwPages + 1) s 0

/-- `mlx5_cmd_dealloc_memic`. -/
def mlx5CmdDeallocMemic (c : Caps) (s : St) (addr length : ℕ) (fw : Bool) : St :=
  let addr := u64 (addr + 2 ^ 64 - c.barAddr.toNat)
  let startPageIdx := u64 (addr + 2 ^ 64 - c.memicBarStartAddr.toNat) / PAGE_SIZE
  if fw = false then s
  else
    { s.access s.memicAllocPages startPageIdx (numPages length) with
      memicAllocPages := s.memicAllocPages.clear startPageIdx (numPages length) }

/-- `roundup` of a `u64`. -/
def roundup (x y : ℕ) : ℕ := u64 (u64 (x + (y - 1)) / y * y)

/-- `round_up` of a `u64`, to a power of two. -/
def roundUp (x y : ℕ) : ℕ := u64 ((u64 (x + 2 ^ 64 - 1) ||| (y - 1)) + 1)

/-- `fls_long`: the number of the highest bit that is set, from one. -/
def flsLong (n : ℕ) : ℕ := if n = 0 then 0 else Nat.log2 n + 1

/-- `roundup_pow_of_two`. -/
def roundupPowOfTwo (n : ℕ) : ℕ := bit (flsLong (u64 (n + 2 ^ 64 - 1)))

/-! The handlers of the uverbs objects, and the kernel's own user. -/

/-- Where an object lies: in MEMIC, or in the region of a type of SW ICM. -/
inductive Kind where
  | memic
  | icm (t : IcmType)
  deriving DecidableEq

/-- `struct mlx5_ib_dm`, with the alignment that was asked for. -/
structure Obj where
  kind : Kind
  devAddr : ℕ
  size : ℕ
  alignment : ℕ
  deriving DecidableEq

/-- The state, the objects that are live, and those whose destroy the firmware refused. -/
structure Sys where
  st : St
  live : List Obj
  lost : List Obj

/-- The destroy of an object of `handle_alloc_dm_*` and `mlx5_ib_dealloc_dm`; whether it worked. -/
def destroy (c : Caps) (s : St) (o : Obj) (fw : Bool) : St × Bool :=
  match o.kind with
  | .memic => (mlx5CmdDeallocMemic c s o.devAddr o.size fw, fw)
  | .icm t => mlx5DmSwIcmDealloc c s t o.size o.devAddr fw

/-- The end of an allocation: the object is live, or, when a later step of the handler fails, it is
    destroyed again. -/
def finish (c : Caps) (s : Sys) (kind : Kind) (size alignment : ℕ) (copy freed : Bool)
    (r : St × Except Errno ℕ) : Sys × Except Errno Obj :=
  match r.2 with
  | .error err => ({ s with st := r.1 }, .error err)
  | .ok devAddr =>
    let o := ⟨kind, devAddr, size, alignment⟩
    if copy then ({ s with st := r.1, live := o :: s.live }, .ok o)
    else
      let (st, gone) := destroy c r.1 o freed
      ({ s with st := st, lost := if gone then s.lost else o :: s.lost }, .error .efault)

/-- `handle_alloc_dm_memic`; `mem`: `kzalloc` works; `copy`: the mmap entry and the copies to the
    user, too; `freed`: the firmware takes the object back if they do not. -/
def handleAllocDmMemic (c : Caps) (s : Sys) (length : BitVec 64) (alignment : BitVec 32)
    (mem : Bool) (fw : ℕ → Answer) (copy freed : Bool) : Sys × Except Errno Obj :=
  if c.memic = false then (s, .error .eopnotsupp)
  else if mem = false then (s, .error .enomem)
  else
    let size := roundup length.toNat MLX5_MEMIC_BASE_SIZE
    finish c s .memic size alignment.toNat copy freed
      (mlx5CmdAllocMemic find c s.st size alignment.toNat fw)

/-- The capabilities that a type needs. -/
def Caps.owner (c : Caps) : IcmType → Bool
  | .headerModifyPattern => c.swOwnerV2Rx && c.swOwnerV2Tx
  | _ => c.swOwnerRx || c.swOwnerTx || c.swOwnerV2Rx || c.swOwnerV2Tx

/-- `act_size`. -/
def Caps.actSize (c : Caps) (length : BitVec 64) : ℕ :=
  roundupPowOfTwo (roundUp length.toNat c.block)

/-- `handle_alloc_dm_sw_icm`. -/
def handleAllocDmSwIcm (c : Caps) (s : Sys) (t : IcmType) (length : BitVec 64)
    (alignment : BitVec 32) (capable mem : Bool) (fw : Option ℕ) (copy freed : Bool) :
    Sys × Except Errno Obj :=
  if capable = false then (s, .error .eperm)
  else if c.owner t = false then (s, .error .eopnotsupp)
  else if mem = false then (s, .error .enomem)
  else
    finish c s (.icm t) (c.actSize length) alignment.toNat copy freed
      (mlx5DmSwIcmAlloc find c s.st t (c.actSize length) alignment.toNat fw)

/-- A call, with what the firmware, the allocator and the user's memory do in it. -/
inductive Op where
  | allocMemic (length : BitVec 64) (alignment : BitVec 32) (mem : Bool) (fw : ℕ → Answer)
    (copy freed : Bool)
  | allocSwIcm (t : IcmType) (length : BitVec 64) (alignment : BitVec 32) (capable mem : Bool)
    (fw : Option ℕ) (copy freed : Bool)
  | swIcmAlloc (t : IcmType) (length : BitVec 64) (logAlignment : BitVec 32) (fw : Option ℕ)
  | dealloc (o : Obj) (fw : Bool)

/-- What an allocation comes to, and the state after it. -/
def alloc (c : Caps) (s : Sys) : Op → Sys × Except Errno Obj
  | .allocMemic length alignment mem fw copy freed =>
    handleAllocDmMemic find c s length alignment mem fw copy freed
  | .allocSwIcm t length alignment capable mem fw copy freed =>
    handleAllocDmSwIcm find c s t length alignment capable mem fw copy freed
  | .swIcmAlloc t length logAlignment fw =>
    finish c s (.icm t) length.toNat logAlignment.toNat true true
      (mlx5DmSwIcmAlloc find c s.st t length.toNat logAlignment.toNat fw)
  | .dealloc o fw =>
    let (st, gone) := destroy c s.st o fw
    (⟨st, s.live.erase o, if gone then s.lost else o :: s.lost⟩, .error .efault)

/-- One call. -/
def step (c : Caps) (s : Sys) (op : Op) : Sys := (alloc find c s op).1

/-- What is expected of the firmware: a MEMIC object begins in the first page of the range offered,
    does not leave it, and is aligned. -/
def Places (c : Caps) (length alignment pageIdx a : ℕ) : Prop :=
  c.rangeStart pageIdx ≤ a ∧ a < c.rangeStart pageIdx + PAGE_SIZE ∧
    a + u32 length ≤ c.rangeStart pageIdx + u32 (numPages length * PAGE_SIZE) ∧
    2 ^ (MLX5_MEMIC_BASE_ALIGN + mlx5Alignment alignment) ∣ a

/-- An object is destroyed while it is live; the firmware places MEMIC objects as it should. -/
def ok (c : Caps) (s : Sys) : Op → Prop
  | .allocMemic length alignment _ fw _ _ => ∀ i < c.memicHwPages, ∀ a, fw i = .ok a →
    Places c (roundup length.toNat MLX5_MEMIC_BASE_SIZE) alignment.toNat i a
  | .dealloc o _ => o ∈ s.live
  | _ => True

/-- The address from which alignment is counted. -/
def Caps.base (c : Caps) : Kind → ℕ
  | .memic => c.barAddr.toNat
  | .icm t => (c.icmStart t).toNat

/-- What goes well: no count of blocks or pages is cut to 32 bits, no sum to 64; an alignment is a
    shift count, and one that the region itself has; the bitmap of MEMIC covers its BAR; the bitmaps
    of SW ICM were allocated. -/
def clean (c : Caps) (s : Sys) : Op → Prop
  | .allocMemic length alignment _ _ _ _ =>
    roundup length.toNat MLX5_MEMIC_BASE_SIZE + PAGE_SIZE - 1 < 2 ^ 32 * PAGE_SIZE ∧
      c.memicHwPages ≤ MLX5_MAX_MEMIC_PAGES ∧ 2 ^ alignment.toNat ∣ c.base .memic
  | .allocSwIcm t length alignment _ _ _ _ _ =>
    c.actSize length < 2 ^ 32 * c.block ∧ alignment.toNat < c.logBlock + 64 ∧
      2 ^ alignment.toNat ∣ c.base (.icm t) ∧ (match s.st.dm with | .err => False | _ => True)
  | .swIcmAlloc t length logAlignment _ =>
    length.toNat < 2 ^ 32 * c.block ∧ logAlignment.toNat < c.logBlock + 64 ∧
      2 ^ logAlignment.toNat ∣ c.base (.icm t) ∧ (match s.st.dm with | .err => False | _ => True)
  | .dealloc _ _ => True

/-- The device after `mlx5_dm_create`, with no page of MEMIC given out. -/
def Sys.start (c : Caps) (mem : Option IcmType → Bool) : Sys :=
  ⟨⟨mlx5DmCreate c mem, .zero MLX5_MAX_MEMIC_PAGES, false, false⟩, [], []⟩

/-! The regions, and the runs of bits that stand for objects. -/

/-- The address at which a region begins. -/
def Caps.regionStart (c : Caps) : Kind → ℕ
  | .memic => c.barAddr.toNat + c.memicBarStartAddr.toNat
  | .icm t => (c.icmStart t).toNat

/-- The size of a region, as the capabilities give it. -/
def Caps.regionSize (c : Caps) : Kind → ℕ
  | .memic => c.memicBarSize.toNat
  | .icm t => 2 ^ (c.logIcmSize t).toNat

/-- What a bit of the bitmap stands for. -/
def Caps.unit (c : Caps) : Kind → ℕ
  | .memic => PAGE_SIZE
  | .icm _ => c.block

/-- The number of bits. -/
def Caps.mapLen (c : Caps) : Kind → ℕ
  | .memic => MLX5_MAX_MEMIC_PAGES
  | .icm t => c.icmBlocks t

/-- The bitmap of a region. -/
def St.mapOf (s : St) : Kind → Option Bitmap
  | .memic => some s.memicAllocPages
  | .icm t => match s.dm with
    | .dm maps => maps t
    | _ => none

/-- The bits of an object: those of all units that its recorded size needs. -/
def ext (c : Caps) (o : Obj) : ℕ × ℕ :=
  ((o.devAddr - c.regionStart o.kind) / c.unit o.kind, (o.size + c.unit o.kind - 1) / c.unit o.kind)

/-- The runs of the objects of one region. -/
def exts (c : Caps) (k : Kind) (l : List Obj) : List (ℕ × ℕ) :=
  (l.filter fun o => o.kind = k).map (ext c)

/-- The capabilities describe memory: blocks are smaller than an `int`, regions lie in the space of
    64-bit addresses. -/
structure Caps.Regular (c : Caps) : Prop where
  block : c.logBlock < 31
  icm : ∀ t, c.hasMap t = true → (c.icmStart t).toNat + 2 ^ (c.logIcmSize t).toNat ≤ 2 ^ 64
  memic : c.barAddr.toNat + c.memicBarStartAddr.toNat + c.memicBarSize.toNat ≤ 2 ^ 64

section
variable {c : Caps} {k : Kind} {l l' : List Obj} {o : Obj} {n unit len : ℕ} {t : IcmType}

theorem exts_cons_self (h : o.kind = k) : exts c k (o :: l) = ext c o :: exts c k l := by
  rw [exts, List.filter_cons_of_pos (by simpa using h)]
  rfl

theorem exts_cons_ne (h : o.kind ≠ k) : exts c k (o :: l) = exts c k l := by
  rw [exts, List.filter_cons_of_neg (by simpa using h)]
  rfl

theorem exts_perm (h : l.Perm l') : (exts c k l).Perm (exts c k l') := (h.filter _).map _

/-- The count of units is exact when it fits 32 bits. -/
theorem count_eq (hu : unit ≤ 2 ^ 31) (h : len + unit - 1 < 2 ^ 32 * unit) :
    u32 (u64 (len + unit - 1) / unit) = (len + unit - 1) / unit := by
  have h64 : len + unit - 1 < 2 ^ 64 := by
    omega
  have h32 : (len + unit - 1) / unit < 2 ^ 32 := Nat.div_lt_of_lt_mul (by rwa [Nat.mul_comm] at h)
  rw [u64, mod_eq_of_lt h64, u32, mod_eq_of_lt h32]

theorem Caps.Regular.block_le (hc : c.Regular) : c.block ≤ 2 ^ 31 :=
  Nat.pow_le_pow_right (by omega) (Nat.le_of_lt hc.block)

theorem Caps.block_pos (c : Caps) : 0 < c.block := Nat.two_pow_pos _

theorem Caps.unit_pos (c : Caps) : 0 < c.unit k := by
  cases k with
  | memic => exact Nat.two_pow_pos _
  | icm t => exact c.block_pos

theorem Caps.Regular.unit_le (hc : c.Regular) : c.unit k ≤ 2 ^ 31 := by
  cases k with
  | memic => exact Nat.pow_le_pow_right (by omega) (by decide)
  | icm t => exact hc.block_le

/-- The blocks of a bitmap lie in the region. -/
theorem Caps.Regular.blocks_le (hc : c.Regular) (t : IcmType) :
    c.icmBlocks t * c.block ≤ 2 ^ (c.logIcmSize t).toNat := by
  have hb := hc.block
  have hl : (c.logIcmSize t).toNat < 2 ^ 8 := (c.logIcmSize t).isLt
  rw [Caps.icmBlocks]
  generalize (c.logIcmSize t).toNat = log at hl ⊢
  rcases Nat.lt_or_ge log c.logBlock with hlt | hge
  · -- the count is 64 less a few, and the shift leaves nothing in 32 bits
    have h32 : u32 (log + 2 ^ 32 - c.logBlock) = log + 2 ^ 32 - c.logBlock :=
      mod_eq_of_lt (by omega)
    have hmod : (log + 2 ^ 32 - c.logBlock) % 64 = 32 + (32 + log - c.logBlock) := by omega
    have hz : u32 (bit (u32 (log + 2 ^ 32 - c.logBlock))) = 0 := by
      rw [h32, bit, hmod, pow_add, u32, Nat.mul_mod_right]
    rw [hz, Nat.zero_mul]
    exact Nat.zero_le _
  · have h32 : u32 (log + 2 ^ 32 - c.logBlock) = log - c.logBlock := by
      rw [u32]
      omega
    have hle : u32 (bit (u32 (log + 2 ^ 32 - c.logBlock))) ≤ 2 ^ (log - c.logBlock) := by
      rw [h32, bit]
      exact (Nat.mod_le _ _).trans (Nat.pow_le_pow_right (by omega) (Nat.mod_le _ _))
    calc u32 (bit (u32 (log + 2 ^ 32 - c.logBlock))) * c.block
        ≤ 2 ^ (log - c.logBlock) * 2 ^ c.logBlock := mul_le_mul_right _ hle
      _ = 2 ^ log := by rw [← pow_add, Nat.sub_add_cancel hge]

/-- What is known of every object, live or lost. -/
structure ObjOk (c : Caps) (o : Obj) : Prop where
  start : c.regionStart o.kind ≤ o.devAddr
  fits : o.devAddr + o.size ≤ c.regionStart o.kind + ((ext c o).1 + (ext c o).2) * c.unit o.kind
  inside : o.devAddr + o.size ≤ c.regionStart o.kind + c.regionSize o.kind
  pos : 0 < o.size
  exact : o.size + c.unit o.kind - 1 < 2 ^ 32 * c.unit o.kind
  aligned : 2 ^ o.alignment ∣ o.devAddr

/-- An object begins in its first unit. -/
theorem ObjOk.first (h : ObjOk c o) :
    c.regionStart o.kind + (ext c o).1 * c.unit o.kind ≤ o.devAddr := by
  have := Nat.div_mul_le_self (o.devAddr - c.regionStart o.kind) (c.unit o.kind)
  have hs := h.start
  rw [ext]
  dsimp only
  omega

/-- Objects whose bits do not meet do not meet. -/
theorem ObjOk.disjoint {o' : Obj} (h : ObjOk c o) (h' : ObjOk c o') (hk : o.kind = o'.kind)
    (hs : Separate (ext c o) (ext c o')) :
    o.devAddr + o.size ≤ o'.devAddr ∨ o'.devAddr + o'.size ≤ o.devAddr := by
  have h₁ := h.first
  have h₂ := h.fits
  have h₃ := h'.first
  have h₄ := h'.fits
  rw [← hk] at h₃ h₄
  rcases hs with hlt | hlt
  · have := mul_le_mul_right (c.unit o.kind) hlt
    exact .inl (by omega)
  · have := mul_le_mul_right (c.unit o.kind) hlt
    exact .inr (by omega)

end

/-! The invariant: in each region the bits are those of its objects. -/

structure Inv (c : Caps) (s : Sys) : Prop where
  fault : s.st.fault = false
  hang : s.st.hang = false
  objs : ∀ o ∈ s.live ++ s.lost, ObjOk c o
  noMap : ∀ k, s.st.mapOf k = none → ∀ o ∈ s.live ++ s.lost, o.kind ≠ k
  map : ∀ k m, s.st.mapOf k = some m → m.len = c.mapLen k ∧ (∀ t, k = .icm t → c.hasMap t = true) ∧
    Tiled m (exts c k (s.live ++ s.lost))

/-- The state after a write to one bitmap. -/
structure Wrote (s s' : St) (k : Kind) (m : Bitmap) : Prop where
  self : s'.mapOf k = some m
  other : ∀ k' ≠ k, s'.mapOf k' = s.mapOf k'
  fault : s'.fault = false
  hang : s'.hang = s.hang

section
variable {c : Caps} {s : Sys} {st : St} {k : Kind} {o : Obj} {m : Bitmap} {i n : ℕ} {t : IcmType}
  {maps : Dm} {l l' : List Obj}

/-- ALLOC: a clear run is given to a new object. -/
theorem Inv.give (h : Inv c s) (hm : s.st.mapOf k = some m) (hk : o.kind = k) (ho : ObjOk c o)
    (hf : m.Free (ext c o).1 (ext c o).2) (hl : (ext c o).1 + (ext c o).2 ≤ m.len)
    (hw : Wrote s.st st k (m.set (ext c o).1 (ext c o).2))
    (hlist : (l ++ l').Perm (o :: (s.live ++ s.lost))) : Inv c ⟨st, l, l'⟩ := by
  obtain ⟨hlen, hhas, htiled⟩ := h.map k m hm
  have hpos : 0 < (ext c o).2 := by
    have := ho.pos
    exact Nat.div_pos (by omega) c.unit_pos
  refine ⟨hw.fault, hw.hang.trans h.hang, fun x hx => ?_, fun k' hk' x hx => ?_,
    fun k' m' hm' => ?_⟩
  · rcases List.mem_cons.1 (hlist.mem_iff.1 hx) with rfl | hx
    · exact ho
    · exact h.objs x hx
  · have hne : k' ≠ k := by
      rintro rfl
      rw [hw.self] at hk'
      cases hk'
    rw [hw.other k' hne] at hk'
    rcases List.mem_cons.1 (hlist.mem_iff.1 hx) with rfl | hx
    · exact fun heq => hne (heq.symm.trans hk)
    · exact h.noMap k' hk' x hx
  · rcases eq_or_ne k' k with rfl | hne
    · rw [hw.self] at hm'
      cases hm'
      refine ⟨hlen, hhas, Tiled.perm ?_ (exts_perm hlist).symm⟩
      rw [exts_cons_self hk]
      exact htiled.set hf hpos hl
    · rw [hw.other k' hne] at hm'
      obtain ⟨hlen', hhas', htiled'⟩ := h.map k' m' hm'
      refine ⟨hlen', hhas', Tiled.perm ?_ (exts_perm hlist).symm⟩
      rwa [exts_cons_ne fun heq => hne (heq.symm.trans hk)]

/-- FREE: the run of an object comes back. -/
theorem Inv.take (h : Inv c s) (hm : s.st.mapOf o.kind = some m)
    (hw : Wrote s.st st o.kind (m.clear (ext c o).1 (ext c o).2))
    (hlist : (s.live ++ s.lost).Perm (o :: (l ++ l'))) : Inv c ⟨st, l, l'⟩ := by
  have hsub : ∀ x ∈ l ++ l', x ∈ s.live ++ s.lost := fun x hx =>
    hlist.mem_iff.2 (List.mem_cons_of_mem _ hx)
  refine ⟨hw.fault, hw.hang.trans h.hang, fun x hx => h.objs x (hsub x hx),
    fun k' hk' x hx => ?_, fun k' m' hm' => ?_⟩
  · have hne : k' ≠ o.kind := by
      rintro rfl
      rw [hw.self] at hk'
      cases hk'
    rw [hw.other k' hne] at hk'
    exact h.noMap k' hk' x (hsub x hx)
  · rcases eq_or_ne k' o.kind with rfl | hne
    · obtain ⟨hlen, hhas, htiled⟩ := h.map _ m hm
      rw [hw.self] at hm'
      cases hm'
      have := htiled.perm (exts_perm hlist)
      rw [exts_cons_self rfl] at this
      exact ⟨hlen, hhas, this.clear⟩
    · rw [hw.other k' hne] at hm'
      obtain ⟨hlen', hhas', htiled'⟩ := h.map k' m' hm'
      have := htiled'.perm (exts_perm hlist)
      rw [exts_cons_ne (Ne.symm hne)] at this
      exact ⟨hlen', hhas', this⟩

/-- LOSE: an object is not live any more, and its bits stay. -/
theorem Inv.lose (h : Inv c s) (hlist : (l ++ l').Perm (s.live ++ s.lost)) :
    Inv c ⟨s.st, l, l'⟩ :=
  ⟨h.fault, h.hang, fun x hx => h.objs x (hlist.mem_iff.1 hx),
    fun k' hk' x hx => h.noMap k' hk' x (hlist.mem_iff.1 hx), fun k' m' hm' =>
      ⟨(h.map k' m' hm').1, (h.map k' m' hm').2.1,
        (h.map k' m' hm').2.2.perm (exts_perm hlist).symm⟩⟩

/-- A write to the bitmap of a type of SW ICM. -/
theorem St.wrote_setMap (hd : st.dm = .dm maps) (hf : st.fault = false) :
    Wrote st (st.setMap maps t m) (.icm t) m := by
  refine ⟨update_self .., fun k' hne => ?_, hf, rfl⟩
  cases k' with
  | memic => rfl
  | icm t' =>
    have hne : t' ≠ t := fun h => hne (congrArg Kind.icm h)
    change update maps t (some m) t' = _
    rw [update_of_ne hne, St.mapOf, hd]

/-- A write to the bitmap of MEMIC. -/
theorem St.wrote_memic (hf : st.fault = false) :
    Wrote st { st with memicAllocPages := m } .memic m := by
  refine ⟨rfl, fun k' hne => ?_, hf, rfl⟩
  cases k' with
  | memic => exact absurd rfl hne
  | icm t => rfl

/-- An access inside the bitmap. -/
theorem St.access_eq (h : i + n ≤ m.len) : st.access m i n = st := by
  obtain ⟨dm, pages, fault, hang⟩ := st
  simp [St.access, h]

end

/-! What an allocator does: it fails and has changed nothing, or sets the bits of a new object. -/

/-- The result `r` of an allocation in the region `k`. -/
def Gives (c : Caps) (s : St) (k : Kind) (size alignment : ℕ) (r : St × Except Errno ℕ) : Prop :=
  (∃ err, r = (s, .error err)) ∨
  ∃ m a, s.mapOf k = some m ∧ r.2 = .ok a ∧ ObjOk c ⟨k, a, size, alignment⟩ ∧
    m.Free (ext c ⟨k, a, size, alignment⟩).1 (ext c ⟨k, a, size, alignment⟩).2 ∧
    (ext c ⟨k, a, size, alignment⟩).1 + (ext c ⟨k, a, size, alignment⟩).2 ≤ m.len ∧
    Wrote s r.1 k (m.set (ext c ⟨k, a, size, alignment⟩).1 (ext c ⟨k, a, size, alignment⟩).2)

section
variable {find} {c : Caps} {s : St} {k : Kind} {o : Obj} {m : Bitmap} {i n length alignment : ℕ}
  {t : IcmType} {maps : Dm} {fw : Option ℕ}

theorem St.setMap_self (hd : s.dm = .dm maps) (hm : maps t = some m) :
    s.setMap maps t m = s := by
  obtain ⟨dm, pages, fault, hang⟩ := s
  obtain rfl : dm = .dm maps := hd
  rw [St.setMap, ← hm, update_eq_self]

/-- The search and the command of `mlx5_dm_sw_icm_alloc`. -/
theorem icmAllocFrom_spec (length : ℕ) (fw : Option ℕ) (hfind : FindsZeroArea find)
    (hd : s.dm = .dm maps) (hm : maps t = some m) (hlen : m.len = c.icmBlocks t)
    (halign : alignment < c.logBlock + 64) :
    (∃ err, icmAllocFrom find c s maps t m length alignment fw = (s, .error err)) ∨
    ∃ i, i < c.icmBlocks t ∧ i + c.numBlocks length ≤ c.icmBlocks t ∧
      m.Free i (c.numBlocks length) ∧ 2 ^ alignment ∣ i * c.block ∧
      icmAllocFrom find c s maps t m length alignment fw =
        (s.setMap maps t (m.set i (c.numBlocks length)),
          .ok (u64 ((c.icmStart t).toNat + u64 (i * c.block)))) := by
  rw [icmAllocFrom]
  rw [St.access_eq (show 0 + c.icmBlocks t ≤ m.len by omega)]
  generalize hla : (if alignment < c.logBlock then c.logBlock else alignment) = la
  have hla' : c.logBlock ≤ la ∧ la < c.logBlock + 64 ∧ alignment ≤ la := by
    rw [← hla]
    split_ifs <;> omega
  have hmask : bit (la - c.logBlock) - 1 = 2 ^ (la - c.logBlock) - 1 := by
    rw [bit, mod_eq_of_lt (by omega)]
  rw [hmask]
  generalize hi : find m (c.icmBlocks t) 0 (c.numBlocks length) (2 ^ (la - c.logBlock) - 1) = i
  split_ifs with hno
  · exact .inl ⟨_, rfl⟩
  · have hlt : find m (c.icmBlocks t) 0 (c.numBlocks length) (2 ^ (la - c.logBlock) - 1) <
        c.icmBlocks t := by rw [hi]; omega
    have hin := hfind.inside _ _ _ _ _ hlt
    have hfree := hfind.free _ _ _ _ _ hlt
    have hal := hfind.aligned _ _ _ _ _ hlt
    rw [hi] at hin hfree hal hlt
    rw [St.access_eq (show i + c.numBlocks length ≤ m.len by omega)]
    cases fw with
    | none =>
      refine .inr ⟨i, hlt, hin, hfree, ?_, rfl⟩
      calc 2 ^ alignment ∣ 2 ^ la := pow_dvd_pow 2 hla'.2.2
        _ = 2 ^ (la - c.logBlock) * c.block := by
          rw [Caps.block, ← pow_add, Nat.sub_add_cancel hla'.1]
        _ ∣ i * c.block := Nat.mul_dvd_mul_right hal _
    | some err =>
      refine .inl ⟨.cmd err, ?_⟩
      rw [Bitmap.clear_set hfree]
      change (s.setMap maps t m, _) = _
      rw [St.setMap_self hd hm]

/-- The object that a run of blocks is given to. -/
theorem icm_ext (alignment : ℕ) (hc : c.Regular) (hmul : c.block ∣ length)
    (hlen : length < 2 ^ 32 * c.block) (hi : (c.icmStart t).toNat + i * c.block < 2 ^ 64) :
    ext c ⟨.icm t, u64 ((c.icmStart t).toNat + u64 (i * c.block)), length, alignment⟩ =
      (i, c.numBlocks length) ∧
    u64 ((c.icmStart t).toNat + u64 (i * c.block)) = (c.icmStart t).toNat + i * c.block ∧
    c.numBlocks length * c.block = length ∧ length + c.block - 1 < 2 ^ 32 * c.block := by
  have hb := c.block_pos
  have haddr : u64 ((c.icmStart t).toNat + u64 (i * c.block)) =
      (c.icmStart t).toNat + i * c.block := by
    rw [u64, u64, mod_eq_of_lt (show i * c.block < 2 ^ 64 by omega), mod_eq_of_lt hi]
  obtain ⟨n, rfl⟩ := hmul
  have hn : n < 2 ^ 32 := by
    rw [Nat.mul_comm] at hlen
    exact Nat.lt_of_mul_lt_mul_right hlen
  have hx : c.block * n + c.block - 1 < 2 ^ 32 * c.block := by
    have := mul_le_mul_right c.block (show n + 1 ≤ 2 ^ 32 by omega)
    rw [add_mul, Nat.mul_comm n] at this
    omega
  have hdiv : (c.block * n + c.block - 1) / c.block = n := by
    rw [Nat.add_sub_assoc hb, Nat.mul_add_div hb, Nat.div_eq_of_lt (by omega), Nat.add_zero]
  have hcount : c.numBlocks (c.block * n) = n := by
    rw [Caps.numBlocks, count_eq hc.block_le hx, hdiv]
  refine ⟨?_, haddr, by rw [hcount, Nat.mul_comm], hx⟩
  rw [ext, haddr, hcount]
  simp only [Caps.regionStart, Caps.unit, hdiv, Nat.add_sub_cancel_left, Nat.mul_div_cancel _ hb]

/-- SW ICM: `mlx5_dm_sw_icm_alloc`. -/
theorem swIcmAlloc_gives (hfind : FindsZeroArea find) (hc : c.Regular) {s : Sys} (h : Inv c s)
    (hlen : length < 2 ^ 32 * c.block) (halign : alignment < c.logBlock + 64)
    (hbase : 2 ^ alignment ∣ c.base (.icm t))
    (hdm : match s.st.dm with | .err => False | _ => True) :
    Gives c s.st (.icm t) length alignment
      (mlx5DmSwIcmAlloc find c s.st t length alignment fw) := by
  rw [mlx5DmSwIcmAlloc]
  rcases hd : s.st.dm with - | - | maps
  · exact .inl ⟨_, rfl⟩
  · rw [hd] at hdm
    exact hdm.elim
  · dsimp only
    split_ifs with hinv
    · exact .inl ⟨_, rfl⟩
    · simp only [not_or, not_not] at hinv
      obtain ⟨hpos, -, hmask⟩ := hinv
      have hmul : c.block ∣ length := by
        rw [Caps.block, Nat.and_two_pow_sub_one_eq_mod] at hmask
        exact Nat.dvd_of_mod_eq_zero hmask
      rcases hm : maps t with - | m
      · exact .inl ⟨_, rfl⟩
      · have hmap : s.st.mapOf (.icm t) = some m := by rw [St.mapOf, hd]; exact hm
        obtain ⟨hml, hhas, -⟩ := h.map _ m hmap
        dsimp only
        rcases icmAllocFrom_spec length fw hfind hd hm hml halign with
          hno | ⟨i, hi, hin, hfree, hal, heq⟩
        · exact .inl hno
        · have hreg := hc.icm t (hhas t rfl)
          have hle := hc.blocks_le t
          have hin' := (mul_le_mul_right c.block hin).trans hle
          have hi' := (mul_le_mul_right c.block (show i + 1 ≤ c.icmBlocks t from hi)).trans hle
          have hb := c.block_pos
          rw [add_mul] at hin' hi'
          obtain ⟨hext, haddr, hcount, hx⟩ := icm_ext alignment hc hmul hlen
            (show (c.icmStart t).toNat + i * c.block < 2 ^ 64 by omega)
          refine .inr ⟨m, _, hmap, by rw [heq], ?_, ?_, ?_, ?_⟩
          · refine ⟨?_, ?_, ?_, Nat.pos_of_ne_zero hpos, hx, ?_⟩
            · rw [haddr]
              exact Nat.le_add_right ..
            · rw [hext, haddr]
              dsimp only [Caps.regionStart, Caps.unit]
              rw [add_mul, hcount]
              omega
            · rw [haddr]
              dsimp only [Caps.regionStart, Caps.regionSize]
              omega
            · rw [haddr]
              exact Nat.dvd_add hbase hal
          · rwa [hext]
          · rw [hext]
            exact hin.trans hml.ge
          · rw [hext, heq]
            exact St.wrote_setMap hd h.fault

end

section
variable {find} {c : Caps} {s : St} {k : Kind} {o : Obj} {m : Bitmap} {i n length alignment : ℕ}
  {t : IcmType} {fw : ℕ → Answer}

/-- RUN: the search of MEMIC pages ends; each refusal leaves the bitmap as it was. -/
theorem memicLoop_spec (pages : ℕ) (fw : ℕ → Answer) (hfind : FindsZeroArea find)
    (hlen : c.memicHwPages ≤ s.memicAllocPages.len) : ∀ (fuel pageIdx : ℕ),
    pageIdx ≤ c.memicHwPages → c.memicHwPages < pageIdx + fuel →
    (∃ err, memicLoop find c pages fw fuel s pageIdx = (s, .error err)) ∨
    ∃ i a, i < c.memicHwPages ∧ i + pages ≤ c.memicHwPages ∧ s.memicAllocPages.Free i pages ∧
      fw i = .ok a ∧ memicLoop find c pages fw fuel s pageIdx =
        ({ s with memicAllocPages := s.memicAllocPages.set i pages },
          .ok (u64 (c.barAddr.toNat + a)))
  | 0, pageIdx, hle, hlt => by omega
  | fuel + 1, pageIdx, hle, hlt => by
    rw [memicLoop]
    dsimp only
    rw [St.access_eq (show 0 + c.memicHwPages ≤ s.memicAllocPages.len by omega)]
    generalize hi : find s.memicAllocPages c.memicHwPages pageIdx pages 0 = i
    split_ifs with hend hno
    · exact .inl ⟨_, rfl⟩
    · exact .inl ⟨_, rfl⟩
    · have hfound : find s.memicAllocPages c.memicHwPages pageIdx pages 0 < c.memicHwPages := by
        omega
      have hstart := hfind.start _ _ _ _ _ hfound
      have hin := hfind.inside _ _ _ _ _ hfound
      have hfree := hfind.free _ _ _ _ _ hfound
      rw [hi] at hstart hin hfree hfound
      rw [St.access_eq (show i + pages ≤ s.memicAllocPages.len by omega), Bitmap.clear_set hfree]
      cases ha : fw i with
      | ok a => exact .inr ⟨i, a, hfound, hin, hfree, ha, rfl⟩
      | eagain => exact memicLoop_spec pages fw hfind hlen fuel (i + 1) (by omega) (by omega)
      | fail err => exact .inl ⟨_, rfl⟩

/-- The object that the firmware places in a run of pages. -/
theorem memic_ext (hc : c.Regular) (hexact : length + PAGE_SIZE - 1 < 2 ^ 32 * PAGE_SIZE)
    (hin : i + numPages length ≤ c.memicHwPages) (hi : i < c.memicHwPages) {a : ℕ}
    (ha : Places c length alignment i a) :
    u64 (c.barAddr.toNat + a) = c.barAddr.toNat + a ∧
    ext c ⟨.memic, u64 (c.barAddr.toNat + a), length, alignment⟩ = (i, numPages length) ∧
    c.memicBarStartAddr.toNat + i * PAGE_SIZE ≤ a ∧
    a + length ≤ c.memicBarStartAddr.toNat + (i + numPages length) * PAGE_SIZE := by
  have hreg := hc.memic
  have hsize : (c.memicHwPages) * PAGE_SIZE ≤ c.memicBarSize.toNat := Nat.div_mul_le_self ..
  have hpage : PAGE_SIZE = 4096 := rfl
  have hcount : numPages length = (length + PAGE_SIZE - 1) / PAGE_SIZE :=
    count_eq (by decide) hexact
  have hlen : length ≤ numPages length * PAGE_SIZE := by
    rw [hcount, hpage]
    omega
  have hin' := mul_le_mul_right PAGE_SIZE hin
  have hi' := mul_le_mul_right PAGE_SIZE (show i + 1 ≤ c.memicHwPages from hi)
  rw [add_mul] at hin' hi'
  have hstart : c.rangeStart i = c.memicBarStartAddr.toNat + i * PAGE_SIZE := by
    rw [Caps.rangeStart, u64, u64]
    omega
  obtain ⟨hge, hlt, hfit, -⟩ := ha
  rw [hstart] at hge hlt hfit
  rw [u32, u32, mod_eq_of_lt (show length < 2 ^ 32 by omega),
    mod_eq_of_lt (show numPages length * PAGE_SIZE < 2 ^ 32 by omega)] at hfit
  have haddr : u64 (c.barAddr.toNat + a) = c.barAddr.toNat + a := mod_eq_of_lt (by omega)
  refine ⟨haddr, ?_, hge, by rw [add_mul]; omega⟩
  rw [ext, haddr, hcount]
  simp only [Caps.regionStart, Caps.unit, Prod.mk.injEq, and_true]
  refine Nat.div_eq_of_lt_le ?_ ?_
  · omega
  · rw [add_mul]
    omega

/-- MEMIC: `mlx5_cmd_alloc_memic`. -/
theorem cmdAllocMemic_gives (hfind : FindsZeroArea find) (hc : c.Regular) {s : Sys} (h : Inv c s)
    (hexact : length + PAGE_SIZE - 1 < 2 ^ 32 * PAGE_SIZE)
    (hpages : c.memicHwPages ≤ MLX5_MAX_MEMIC_PAGES) (hbase : 2 ^ alignment ∣ c.base .memic)
    (hfw : ∀ i < c.memicHwPages, ∀ a, fw i = .ok a → Places c length alignment i a) :
    Gives c s.st .memic length alignment
      (mlx5CmdAllocMemic find c s.st length alignment fw) := by
  obtain ⟨hml, -, -⟩ := h.map .memic _ rfl
  rw [mlx5CmdAllocMemic]
  split_ifs with hinv hal
  · exact .inl ⟨_, rfl⟩
  · exact .inl ⟨_, rfl⟩
  · simp only [not_or] at hinv
    have hfits : c.memicHwPages ≤ s.st.memicAllocPages.len := hpages.trans hml.ge
    rcases memicLoop_spec (numPages length) fw hfind hfits (c.memicHwPages + 1) 0 (Nat.zero_le _)
        (by omega) with hno | ⟨i, a, hi, hin, hfree, ha, heq⟩
    · exact .inl hno
    · have hplace := hfw i hi a ha
      obtain ⟨haddr, hext, hge, hle⟩ := memic_ext hc hexact hin hi hplace
      have hsize : c.memicHwPages * PAGE_SIZE ≤ c.memicBarSize.toNat := Nat.div_mul_le_self ..
      have hin' := (mul_le_mul_right PAGE_SIZE hin).trans hsize
      refine .inr ⟨s.st.memicAllocPages, _, rfl, by rw [heq], ?_, ?_, ?_, ?_⟩
      · refine ⟨?_, ?_, ?_, Nat.pos_of_ne_zero hinv.1, hexact, ?_⟩
        · rw [haddr]
          dsimp only [Caps.regionStart]
          omega
        · rw [hext, haddr]
          dsimp only [Caps.regionStart, Caps.unit]
          omega
        · rw [haddr]
          dsimp only [Caps.regionStart, Caps.regionSize]
          omega
        · have hle : alignment ≤ MLX5_MEMIC_BASE_ALIGN + mlx5Alignment alignment := by
            rw [mlx5Alignment]
            split_ifs <;> omega
          rw [haddr]
          exact Nat.dvd_add hbase ((pow_dvd_pow 2 hle).trans hplace.2.2.2)
      · rwa [hext]
      · rw [hext]
        omega
      · rw [hext, heq]
        exact St.wrote_memic h.fault

end

section
variable {find} {c : Caps} {s : Sys} {k : Kind} {o : Obj} {m : Bitmap} {size alignment : ℕ}
  {copy freed fw : Bool} {r : St × Except Errno ℕ}

theorem sub_u64 {a b : ℕ} (h : b ≤ a) (ha : a < 2 ^ 64) : u64 (a + 2 ^ 64 - b) = a - b := by
  rw [u64]
  omega

/-- The bits of an object are there, and inside. -/
theorem Inv.mapOf (h : Inv c s) (ho : o ∈ s.live ++ s.lost) :
    ∃ m, s.st.mapOf o.kind = some m ∧ (ext c o).1 + (ext c o).2 ≤ m.len ∧
      (∀ t, o.kind = .icm t → c.hasMap t = true) := by
  rcases hm : s.st.mapOf o.kind with - | m
  · exact absurd rfl (h.noMap _ hm o ho)
  · obtain ⟨-, hhas, htiled⟩ := h.map _ m hm
    refine ⟨m, rfl, (htiled.inside (ext c o) ?_).2, hhas⟩
    exact List.mem_map_of_mem (List.mem_filter.2 ⟨ho, by simp⟩)

/-- DESTROY: the firmware refuses, or the bits of the object are cleared. -/
theorem destroy_spec (hc : c.Regular) (h : Inv c s) (ho : o ∈ s.live ++ s.lost) (fw : Bool) :
    ∃ m, s.st.mapOf o.kind = some m ∧ (destroy c s.st o fw).2 = fw ∧
      (fw = false → (destroy c s.st o fw).1 = s.st) ∧
      (fw = true → Wrote s.st (destroy c s.st o fw).1 o.kind
        (m.clear (ext c o).1 (ext c o).2)) := by
  obtain ⟨m, hm, hfit, hhas⟩ := h.mapOf ho
  obtain ⟨hstart, -, hinside, hpos, hexact, -⟩ := h.objs o ho
  have hcount := count_eq hc.unit_le hexact
  refine ⟨m, hm, ?_⟩
  obtain ⟨kind, addr, size, alignment⟩ := o
  cases kind with
  | memic =>
    have hreg := hc.memic
    have hm : s.st.memicAllocPages = m := Option.some.inj hm
    rw [destroy]
    rw [mlx5CmdDeallocMemic]
    cases fw with
    | false => exact ⟨rfl, fun _ => rfl, fun h => by cases h⟩
    | true =>
      refine ⟨rfl, fun h => (by cases h), fun _ => ?_⟩
      dsimp only [Caps.regionStart, Caps.regionSize] at hstart hinside hpos
      have hidx : u64 (u64 (addr + 2 ^ 64 - c.barAddr.toNat) + 2 ^ 64 -
          c.memicBarStartAddr.toNat) / PAGE_SIZE = (ext c ⟨.memic, addr, size, alignment⟩).1 := by
        have hbar : u64 (addr + 2 ^ 64 - c.barAddr.toNat) = addr - c.barAddr.toNat :=
          sub_u64 (by omega) (by omega)
        rw [hbar, sub_u64 (by omega) (by omega), Nat.sub_sub]
        rfl
      have hnum : numPages size = (ext c ⟨.memic, addr, size, alignment⟩).2 := hcount
      rw [if_neg (by simp), hidx, hnum, hm, St.access_eq hfit]
      exact St.wrote_memic h.fault
  | icm t =>
    have hreg := hc.icm t (hhas t rfl)
    rw [destroy]
    dsimp only
    rw [mlx5DmSwIcmDealloc]
    rw [St.mapOf] at hm
    rcases hd : s.st.dm with - | - | maps
    · rw [hd] at hm
      cases hm
    · rw [hd] at hm
      cases hm
    · rw [hd] at hm
      dsimp only at hm ⊢
      cases fw with
      | false => exact ⟨rfl, fun _ => rfl, fun h => by cases h⟩
      | true =>
        dsimp only [Caps.regionStart, Caps.regionSize] at hstart hinside hpos
        have hidx : u64 (addr + 2 ^ 64 - (c.icmStart t).toNat) / c.block =
            (ext c ⟨.icm t, addr, size, alignment⟩).1 := by
          rw [sub_u64 hstart (by omega)]
          rfl
        have hnum : c.numBlocks size = (ext c ⟨.icm t, addr, size, alignment⟩).2 := hcount
        rw [if_neg (by simp), hm, hidx, hnum]
        dsimp only
        rw [St.access_eq hfit]
        exact ⟨rfl, fun h => (by cases h), fun _ => St.wrote_setMap hd h.fault⟩

/-- STEP: an allocation gives a live object, or fails. When it fails the bitmaps are as before, but
    for the bits of an object that the firmware did not take back. -/
theorem finish_spec (hc : c.Regular) (h : Inv c s) (hg : Gives c s.st k size alignment r) :
    Inv c (finish c s k size alignment copy freed r).1 ∧
      ∀ err, (finish c s k size alignment copy freed r).2 = .error err →
        (finish c s k size alignment copy freed r).1.live = s.live ∧
        ((finish c s k size alignment copy freed r).1.lost = s.lost → ∀ k',
          (finish c s k size alignment copy freed r).1.st.mapOf k' = s.st.mapOf k') := by
  obtain ⟨st, res⟩ := r
  rcases hg with ⟨err, heq⟩ | ⟨m, a, hm, hr, hobj, hfree, hfit, hw⟩
  · cases heq
    exact ⟨{ h with }, fun _ _ => ⟨rfl, fun _ _ => rfl⟩⟩
  · obtain rfl : res = .ok a := hr
    rw [finish]
    dsimp only
    cases copy with
    | true => exact ⟨h.give hm rfl hobj hfree hfit hw (.refl _), fun _ he => by cases he⟩
    | false =>
      have hgive : Inv c ⟨st, ⟨k, a, size, alignment⟩ :: s.live, s.lost⟩ :=
        h.give hm rfl hobj hfree hfit hw (.refl _)
      obtain ⟨m', hm', hgone, hno, hyes⟩ := destroy_spec hc hgive
        (o := ⟨k, a, size, alignment⟩) (List.mem_cons_self ..) freed
      rcases hd : destroy c st ⟨k, a, size, alignment⟩ freed with ⟨st', gone⟩
      rw [hd] at hgone hno hyes
      obtain rfl : gone = freed := hgone
      cases gone with
      | false =>
        obtain rfl := hno rfl
        refine ⟨hgive.lose ?_, fun _ _ => ⟨rfl, fun hl => absurd hl (List.cons_ne_self _ _)⟩⟩
        exact List.perm_middle
      | true =>
        refine ⟨hgive.take hm' (hyes rfl) (.refl _), fun _ _ => ⟨rfl, fun _ k' => ?_⟩⟩
        have hset : st.mapOf k = _ := hw.self
        obtain rfl := Option.some.inj (hset.symm.trans hm')
        change st'.mapOf k' = s.st.mapOf k'
        rcases eq_or_ne k' k with rfl | hne
        · rw [(hyes rfl).self, hm, Bitmap.clear_set hfree]
        · rw [(hyes rfl).other k' hne, hw.other k' hne]

end

/-! Whole runs. -/

/-- What holds between calls: live objects lie apart, inside their region and aligned; the bits are
    those of the objects. -/
structure Sound (c : Caps) (s : Sys) : Prop where
  disjoint : s.live.Pairwise fun o o' => o.kind = o'.kind →
    o.devAddr + o.size ≤ o'.devAddr ∨ o'.devAddr + o'.size ≤ o.devAddr
  inside : ∀ o ∈ s.live, c.regionStart o.kind ≤ o.devAddr ∧
    o.devAddr + o.size ≤ c.regionStart o.kind + c.regionSize o.kind
  aligned : ∀ o ∈ s.live, 2 ^ o.alignment ∣ o.devAddr
  bits : ∀ k m, s.st.mapOf k = some m → ∀ i, m.bit i = true ↔ ∃ o ∈ s.live ++ s.lost,
    o.kind = k ∧ (ext c o).1 ≤ i ∧ i < (ext c o).1 + (ext c o).2
  fault : s.st.fault = false
  hang : s.st.hang = false

/-- An allocation that fails leaves the objects and the bitmaps as they are; only when it had to
    destroy an object and the firmware refused does that object's run stay out. -/
def Quiet (c : Caps) (s : Sys) : Op → Prop
  | .dealloc _ _ => True
  | op => ∀ err, (alloc find c s op).2 = .error err → (alloc find c s op).1.live = s.live ∧
    ((alloc find c s op).1.lost = s.lost → ∀ k, (alloc find c s op).1.st.mapOf k = s.st.mapOf k)

section
variable {find} {c : Caps} {s : Sys}

theorem Inv.sound (h : Inv c s) : Sound c s := by
  have hlive : ∀ o ∈ s.live, ObjOk c o := fun o ho => h.objs o (List.mem_append_left _ ho)
  refine ⟨?_, fun o ho => ⟨(hlive o ho).start, (hlive o ho).inside⟩,
    fun o ho => (hlive o ho).aligned, fun k m hm i => ?_, h.fault, h.hang⟩
  · -- two objects of a region have runs that do not meet
    have hpair : ∀ k, (s.live.filter fun o => o.kind = k).Pairwise
        fun o o' => Separate (ext c o) (ext c o') := by
      intro k
      rcases hm : s.st.mapOf k with - | m
      · have hnil : (s.live.filter fun o => o.kind = k) = [] :=
          List.filter_eq_nil_iff.2 fun o ho => by
            simpa using h.noMap k hm o (List.mem_append_left _ ho)
        rw [hnil]
        exact .nil
      · have := (h.map k m hm).2.2.apart
        rw [exts, List.filter_append, List.map_append] at this
        exact List.pairwise_map.1 (List.pairwise_append.1 this).1
    have hall : s.live.Pairwise fun o o' => o.kind = o'.kind → Separate (ext c o) (ext c o') := by
      generalize s.live = l at hpair
      induction l with
      | nil => exact .nil
      | cons o l ih =>
        refine .cons (fun o' ho' hk => ?_) (ih fun k => ?_)
        · have := hpair o.kind
          rw [List.filter_cons_of_pos (by simp)] at this
          exact (List.pairwise_cons.1 this).1 o' (List.mem_filter.2 ⟨ho', by simp [hk]⟩)
        · exact (hpair k).sublist ((List.sublist_cons_self o l).filter _)
    refine hall.imp_of_mem fun {o o'} ho ho' hs hk => ?_
    exact (hlive o ho).disjoint (hlive o' ho') hk (hs hk)
  · rw [(h.map k m hm).2.2.bits]
    constructor
    · rintro ⟨x, hx, hi⟩
      obtain ⟨o, ho, rfl⟩ := List.mem_map.1 hx
      obtain ⟨ho, hk⟩ := List.mem_filter.1 ho
      exact ⟨o, ho, by simpa using hk, hi⟩
    · rintro ⟨o, ho, hk, hi⟩
      exact ⟨ext c o, List.mem_map_of_mem (List.mem_filter.2 ⟨ho, by simpa using hk⟩), hi⟩

theorem Inv.failed (h : Inv c s) (err : Errno) :
    Inv c ((s, .error err) : Sys × Except Errno Obj).1 ∧
      ∀ e, ((s, .error err) : Sys × Except Errno Obj).2 = .error e →
        s.live = s.live ∧ (s.lost = s.lost → ∀ k, s.st.mapOf k = s.st.mapOf k) :=
  ⟨h, fun _ _ => ⟨rfl, fun _ _ => rfl⟩⟩

/-- STEP: a call keeps the invariant, and is quiet when it fails. -/
theorem Inv.step (hfind : FindsZeroArea find) (hc : c.Regular) (h : Inv c s) {op : Op}
    (hok : ok c s op) (hclean : clean c s op) :
    Inv c (DeviceMem.step find c s op) ∧ Quiet find c s op := by
  cases op with
  | allocMemic length alignment mem fw copy freed =>
    rw [DeviceMem.step, Quiet, alloc]
    · rw [handleAllocDmMemic]
      split_ifs
      · exact h.failed _
      · exact h.failed _
      · exact finish_spec hc h (cmdAllocMemic_gives hfind hc h hclean.1 hclean.2.1 hclean.2.2
        hok)
    · exact fun _ _ he => by cases he
  | allocSwIcm t length alignment capable mem fw copy freed =>
    rw [DeviceMem.step, Quiet, alloc]
    · rw [handleAllocDmSwIcm]
      split_ifs
      · exact h.failed _
      · exact h.failed _
      · exact h.failed _
      · exact finish_spec hc h (swIcmAlloc_gives hfind hc h hclean.1 hclean.2.1 hclean.2.2.1
        hclean.2.2.2)
    · exact fun _ _ he => by cases he
  | swIcmAlloc t length logAlignment fw =>
    rw [DeviceMem.step, Quiet, alloc]
    · exact finish_spec hc h (swIcmAlloc_gives hfind hc h hclean.1 hclean.2.1 hclean.2.2.1
        hclean.2.2.2)
    · exact fun _ _ he => by cases he
  | dealloc o fw =>
    refine ⟨?_, trivial⟩
    have ho : o ∈ s.live := hok
    obtain ⟨m, hm, hgone, hno, hyes⟩ := destroy_spec hc h (List.mem_append_left _ ho) fw
    rw [DeviceMem.step, alloc]
    rcases hd : destroy c s.st o fw with ⟨st, gone⟩
    rw [hd] at hgone hno hyes
    obtain rfl : gone = fw := hgone
    have hperm := (List.perm_cons_erase ho).append_right s.lost
    cases gone with
    | false =>
      obtain rfl := hno rfl
      exact h.lose (List.perm_middle.trans hperm.symm)
    | true => exact h.take hm (hyes rfl) hperm

/-- The state after `mlx5_dm_create`. -/
theorem Inv.start (c : Caps) (mem : Option IcmType → Bool) : Inv c (.start c mem) := by
  refine ⟨rfl, rfl, fun _ ho => absurd ho List.not_mem_nil,
    fun _ _ _ ho => absurd ho List.not_mem_nil, fun k m hm => ?_⟩
  cases k with
  | memic =>
    cases hm
    exact ⟨rfl, fun _ he => (by cases he), .zero _⟩
  | icm t =>
    simp only [Sys.start, St.mapOf, mlx5DmCreate] at hm
    split_ifs at hm
    dsimp only at hm
    split_ifs at hm with hhas
    cases hm
    exact ⟨rfl, fun _ he => (by cases he; exact hhas), .zero _⟩

end

/-- CORRECT: as long as no count is cut to 32 bits, alignments are shift counts that their region
    meets, the bitmap of MEMIC covers its BAR and the bitmaps of SW ICM were allocated, live objects
    never meet and lie where they should, the bits are those of the objects, and the search of pages
    ends. -/
theorem device_mem_sound (hfind : FindsZeroArea find) (c : Caps) (hc : c.Regular)
    (mem : Option IcmType → Bool) (s : Sys)
    (h : Reach (step find c) (fun s op => ok c s op ∧ clean c s op) (.start c mem) s) :
    Sound c s ∧ ∀ op, ok c s op → clean c s op → Quiet find c s op := by
  have hinv : Inv c s := h.invariant (.start c mem) fun _ _ hop hI =>
    (hI.step hfind hc hop.1 hop.2).1
  exact ⟨hinv.sound, fun _ hok hclean => (hinv.step hfind hc hok hclean).2⟩

/-- A device with four pages of MEMIC and four blocks of each type of SW ICM. -/
def demoCaps : Caps where
  swIcm := true
  logSwIcmAllocGranularity := 12
  icmStart
    | .steering => 0x100000
    | .headerModify => 0x200000
    | .headerModifyPattern => 0x300000
    | .swEncap => 0x400000
  logIcmSize _ := 14
  swOwnerRx := true
  swOwnerTx := true
  swOwnerV2Rx := true
  swOwnerV2Tx := true
  memic := true
  memicBarStartAddr := 0x10000
  memicBarSize := 0x4000
  logMaxMemicAddrAlignment := 4
  barAddr := 0x800000

theorem demoCaps_regular : demoCaps.Regular where
  block := by decide
  icm t _ := by cases t <;> decide
  memic := by decide

/-- Firmware that has no room in the first page. -/
def demoFw : ℕ → Answer
  | 0 => .eagain
  | i => .ok (0x10000 + i * 0x1000)

theorem demoFw_places (s : Sys) (mem copy freed : Bool) :
    ok demoCaps s (.allocMemic 5000 7 mem demoFw copy freed) := by
  intro i hi a ha
  have hi : i < 4 := hi
  cases i with
  | zero => cases ha
  | succ i =>
    cases ha
    have : i = 0 ∨ i = 1 ∨ i = 2 := by omega
    rcases this with rfl | rfl | rfl <;> exact ⟨by decide, by decide, by decide, by decide⟩

/-- Two objects in MEMIC, the first placed behind a page that the firmware did not take, and three
    in SW ICM, one of which does not fit; one of each is destroyed, and the firmware refuses once.
    -/
theorem device_mem_sound_demo : Sound demoCaps
    ([Op.allocMemic 5000 7 true demoFw false true, .allocMemic 5000 7 true demoFw true true,
      .allocSwIcm .steering 5000 13 true true none true true,
      .allocSwIcm .steering 16384 0 true true none true true,
      .swIcmAlloc .headerModify 4096 12 none,
      .dealloc ⟨.memic, 0x811000, 5056, 7⟩ true,
      .dealloc ⟨.icm .steering, 0x100000, 8192, 13⟩ false].foldl (step findZeroArea demoCaps)
        (.start demoCaps fun _ => true)) := by
  have hrun : Runs (step findZeroArea demoCaps)
      (fun s op => ok demoCaps s op ∧ clean demoCaps s op) (.start demoCaps fun _ => true)
      [.allocMemic 5000 7 true demoFw false true, .allocMemic 5000 7 true demoFw true true,
        .allocSwIcm .steering 5000 13 true true none true true,
        .allocSwIcm .steering 16384 0 true true none true true,
        .swIcmAlloc .headerModify 4096 12 none,
        .dealloc ⟨.memic, 0x811000, 5056, 7⟩ true,
        .dealloc ⟨.icm .steering, 0x100000, 8192, 13⟩ false] :=
    ⟨⟨demoFw_places _ _ _ _, by decide, by decide, by decide⟩,
      ⟨demoFw_places _ _ _ _, by decide, by decide, by decide⟩,
      ⟨trivial, by decide +kernel, by decide +kernel, by decide, trivial⟩,
      ⟨trivial, by decide +kernel, by decide +kernel, by decide, trivial⟩,
      ⟨trivial, by decide +kernel, by decide +kernel, by decide, trivial⟩,
      ⟨show _ ∈ _ by decide +kernel, trivial⟩, ⟨show _ ∈ _ by decide +kernel, trivial⟩, trivial⟩
  exact (device_mem_sound findZeroArea findZeroArea_finds demoCaps demoCaps_regular _ _
    (Reach.start.runs hrun)).1

/-- BROKEN: of a length of 2^44 + 64 the low bits are left, one page and 64 bytes; the firmware
    gives them, and the object is recorded with the whole length. -/
theorem long_memic_leaves_region :
    ¬ ∀ s, Reach (step findZeroArea demoCaps) (ok demoCaps) (.start demoCaps fun _ => true) s →
      Sound demoCaps s ∧ ∀ op, ok demoCaps s op → Quiet findZeroArea demoCaps s op := by
  intro h
  have hok : ok demoCaps (.start demoCaps fun _ => true)
      (.allocMemic 0x100000000040 0 true demoFw true true) := by
    intro i hi a ha
    have hi : i < 4 := hi
    cases i with
    | zero => cases ha
    | succ i =>
      cases ha
      have : i = 0 ∨ i = 1 ∨ i = 2 := by omega
      rcases this with rfl | rfl | rfl <;> exact ⟨by decide, by decide, by decide, by decide⟩
  have hlive : (step findZeroArea demoCaps (.start demoCaps fun _ => true)
      (.allocMemic 0x100000000040 0 true demoFw true true)).live =
        [⟨.memic, 0x811000, 0x100000000040, 0⟩] := by decide +kernel
  have hinside := (h _ (.next .start hok)).1.inside ⟨.memic, 0x811000, 0x100000000040, 0⟩
    (by rw [hlive]; exact List.mem_cons_self ..)
  exact absurd hinside (by decide)

end RdmaDriver.DeviceMem
