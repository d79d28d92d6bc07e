import RdmaDriver.Mlx5.SqEdge
import RdmaDriver.Schemes.ByteMem

/-! @src drivers/infiniband/hw/mlx5/qp.c | name:Reading a WQE back | scheme:byte memory |
    family:ring

    `mlx5_ib_read_wqe_sq` copies a WQE of the send queue into a buffer. The length of the WQE stands
    in its control segment. For a queue in user memory a first copy goes up to the end of the ring,
    and a second one goes on at its start; for a kernel queue the copy goes from stride to stride.

        user     +---- ring ----[ wqe, 1st copy ]      kernel   [ s₅ ][ s₆ ][ s₇ ]
                 [ 2nd copy ]                          [ s₀ ]

    Lengths are `size_t`, but the user path takes its minima as `u32`. -/

namespace RdmaDriver.ReadWqe
open Schemes SqEdge

def MLX5_WQE_CTRL_DS_MASK : ℕ := 0x3f
def MLX5_WQE_DS_UNITS : ℕ := 16
/-- `sizeof(struct mlx5_wqe_ctrl_seg)`. -/
def sizeofCtrlSeg : ℕ := 16

/-- A region of user memory: its bytes from the start of the region on. -/
structure Umem where
  length : ℕ
  byte : ℕ → ℕ

/-- What the reading of WQEs needs of a QP: the region, if the queue is in user memory, else the
    kernel's memory and the fragments of the queue; and the send queue in either. -/
structure Qp where
  umem : Option Umem
  mem : ℕ → ℕ
  fbc : Fbc
  offset : ℕ
  wqeCnt : ℕ
  wqeShift : ℕ

/-- `be32_to_cpu`. -/
def be32At (m : ℕ → ℕ) (a : ℕ) : ℕ :=
  m a * 2 ^ 24 + m (a + 1) * 2 ^ 16 + m (a + 2) * 2 ^ 8 + m (a + 3)

/-- The length that the control segment at `a` gives: its `qpn_ds` is at offset 4. -/
def wqeLength (m : ℕ → ℕ) (a : ℕ) : ℕ :=
  (be32At m (a + 4) &&& MLX5_WQE_CTRL_DS_MASK) * MLX5_WQE_DS_UNITS

/-- `ib_umem_copy_from`, to the address `dst` of the buffer. -/
def ibUmemCopyFrom (umem : Umem) (buffer : ℕ → ℕ) (dst offset length : ℕ) :
    Except Errno (ℕ → ℕ) :=
  if offset > umem.length ∨ length > umem.length - offset then .error .einval
  else .ok (writeAt buffer dst (slice umem.byte offset length))

/-- `mlx5_ib_read_user_wqe_common`: the buffer and `*bytes_copied`. -/
def readUserWqeCommon (umem : Umem) (buffer : ℕ → ℕ) (dst buflen wqeIndex wqOffset wqWqeCnt
    wqWqeShift : ℕ) (bcnt : ℤ) : Except Errno ((ℕ → ℕ) × ℕ) := do
  let offset := wqOffset + (wqeIndex % wqWqeCnt) <<< wqWqeShift
  let wqEnd := wqOffset + wqWqeCnt <<< wqWqeShift
  let copyLength := min (toU 32 (buflen : ℕ)) (toU 32 ((wqEnd : ℤ) - offset))
  let copyLength := min copyLength (toU 32 bcnt)
  let buffer ← ibUmemCopyFrom umem buffer dst offset copyLength
  return (buffer, copyLength)

/-- The loop of `mlx5_ib_read_kernel_wqe_sq`, with `*bc` and the buffer. -/
def kernelLoop (mem : ℕ → ℕ) (fbc : Fbc) (buflen wqeLength : ℕ) :
    ℕ → ℕ → ℕ → ℕ → (ℕ → ℕ) → Option (ℕ × (ℕ → ℕ))
  | fuel, wqeIndex, p, bytesCopied, buffer =>
    if bytesCopied < wqeLength then
      let copyLength := min (buflen - bytesCopied) MLX5_SEND_WQE_BB
      if copyLength = 0 then some (bytesCopied, buffer)
      else match fuel with
        | 0 => none
        | fuel + 1 =>
          let buffer := writeAt buffer bytesCopied (slice mem p copyLength)
          let wqeIndex := (wqeIndex + 1) &&& fbc.szM1
          kernelLoop mem fbc buflen wqeLength fuel wqeIndex (mlx5FragBufGetWqe fbc wqeIndex)
            (bytesCopied + copyLength) buffer
    else some (bytesCopied, buffer)

/-- `mlx5_ib_read_kernel_wqe_sq`. Without fuel there is no result. -/
def readKernelWqeSq (qp : Qp) (wqeIndex : ℕ) (buffer : ℕ → ℕ) (buflen fuel : ℕ) :
    Option (ℕ × (ℕ → ℕ)) :=
  let wqeIndex := wqeIndex &&& qp.fbc.szM1
  let p := mlx5FragBufGetWqe qp.fbc wqeIndex
  kernelLoop qp.mem qp.fbc buflen (wqeLength qp.mem p) fuel wqeIndex p 0 buffer

/-- `mlx5_ib_read_user_wqe_sq`. -/
def readUserWqeSq (qp : Qp) (umem : Umem) (wqeIndex : ℕ) (buffer : ℕ → ℕ) (buflen : ℕ) :
    Except Errno (ℕ × (ℕ → ℕ)) := do
  let (buffer, bytesCopied) ← readUserWqeCommon umem buffer 0 buflen wqeIndex qp.offset
    qp.wqeCnt qp.wqeShift (toInt buflen)
  if bytesCopied < sizeofCtrlSeg then .error .einval
  else
    let wqeLength := wqeLength buffer 0
    if wqeLength ≤ bytesCopied then return (bytesCopied, buffer)
    else
      let (buffer, bytesCopied2) ← readUserWqeCommon umem buffer bytesCopied
        (buflen - bytesCopied) 0 qp.offset qp.wqeCnt qp.wqeShift
        (toInt ((wqeLength : ℤ) - bytesCopied))
      return (bytesCopied + bytesCopied2, buffer)

/-- `mlx5_ib_read_wqe_sq`: `*bc` and the buffer. -/
def mlx5IbReadWqeSq (qp : Qp) (wqeIndex : ℕ) (buffer : ℕ → ℕ) (buflen fuel : ℕ) :
    Option (Except Errno (ℕ × (ℕ → ℕ))) :=
  if buflen < sizeofCtrlSeg then some (.error .einval)
  else match qp.umem with
    | none => (readKernelWqeSq qp wqeIndex buffer buflen fuel).map .ok
    | some umem => some (readUserWqeSq qp umem wqeIndex buffer buflen)

/-! ### The ring -/

/-- The bytes of the ring. -/
def Qp.ringLen (qp : Qp) : ℕ := qp.wqeCnt * 2 ^ qp.wqeShift

/-- Byte `x` of the WQE at an index, in the order of the ring. -/
def Qp.wqeByte (qp : Qp) (wqeIndex x : ℕ) : ℕ :=
  match qp.umem with
  | none => qp.mem (mlx5FragBufGetWqe qp.fbc ((wqeIndex + x / MLX5_SEND_WQE_BB) % qp.wqeCnt) +
      x % MLX5_SEND_WQE_BB)
  | some umem => umem.byte (qp.offset + (wqeIndex * 2 ^ qp.wqeShift + x) % qp.ringLen)

/-- The length of the WQE at an index. -/
def Qp.wqeLen (qp : Qp) (wqeIndex : ℕ) : ℕ := wqeLength (qp.wqeByte wqeIndex) 0

/-- A send queue as it is set up: a ring that lies in its region or, for a kernel queue, a power of
    two of strides of 64 bytes. -/
structure Geometry (qp : Qp) : Prop where
  cntPos : 0 < qp.wqeCnt
  small : qp.offset + qp.ringLen < 2 ^ 31
  stride : 4 ≤ qp.wqeShift
  user : ∀ umem ∈ qp.umem, qp.offset + qp.ringLen ≤ umem.length
  kernel : qp.umem = none → qp.wqeShift = 6 ∧ (∃ k, qp.wqeCnt = 2 ^ k) ∧
    qp.fbc.szM1 = qp.wqeCnt - 1

/-- What is promised of a call: no more than the buffer takes, the whole WQE if the buffer takes it,
    and those are the bytes of the WQE; nothing behind the buffer is written. -/
def Reads (qp : Qp) (wqeIndex : ℕ) (buffer : ℕ → ℕ) (buflen fuel : ℕ) : Prop :=
  ∃ bc buffer', mlx5IbReadWqeSq qp wqeIndex buffer buflen fuel = some (.ok (bc, buffer')) ∧
    bc ≤ buflen ∧ min buflen (qp.wqeLen wqeIndex) ≤ bc ∧
    (∀ x < min bc (qp.wqeLen wqeIndex), buffer' x = qp.wqeByte wqeIndex x) ∧
    ∀ x, buflen ≤ x → buffer' x = buffer x

/-! ### Lengths -/

/-- The length depends on four bytes only. -/
theorem wqeLength_congr {m m' : ℕ → ℕ} {a a' : ℕ}
    (h : ∀ i, 4 ≤ i → i < 8 → m (a + i) = m' (a' + i)) :
    wqeLength m a = wqeLength m' a' := by
  simp only [wqeLength, be32At, h 4 le_rfl (by decide),
    h 5 (by decide) (by decide), h 6 (by decide) (by decide), h 7 (by decide) (by decide)]

theorem wqeLength_lt (m : ℕ → ℕ) (a : ℕ) : wqeLength m a < 1024 := by
  have hle := @Nat.and_le_right (be32At m (a + 4)) MLX5_WQE_CTRL_DS_MASK
  unfold wqeLength MLX5_WQE_DS_UNITS
  unfold MLX5_WQE_CTRL_DS_MASK at hle ⊢
  omega

/-! ### Kernel queue -/

section Kernel

variable {qp : Qp} {wqeIndex buflen fuel : ℕ} {buffer : ℕ → ℕ}

theorem and_szM1 {fbc : Fbc} {cnt : ℕ} (hcnt : ∃ k, cnt = 2 ^ k) (h : fbc.szM1 = cnt - 1) (i : ℕ) :
    i &&& fbc.szM1 = i % cnt := by
  obtain ⟨k, rfl⟩ := hcnt
  rw [h, Nat.and_two_pow_sub_one_eq_mod]

/-- The bytes that the strides from `i` on hold. -/
def strideByte (qp : Qp) (i x : ℕ) : ℕ :=
  qp.mem (mlx5FragBufGetWqe qp.fbc ((i + x / MLX5_SEND_WQE_BB) % qp.wqeCnt) + x % MLX5_SEND_WQE_BB)

/-- STEP: a turn appends the bytes of a stride, as far as the buffer takes them. -/
theorem kernel_turn {t : ℕ} (hbuf : ∀ x < 64 * t, buffer x = strideByte qp wqeIndex x)
    (hroom : 64 * t < buflen) {x : ℕ} (hx : x < min buflen (64 * (t + 1))) :
    writeAt buffer (64 * t) (slice qp.mem (mlx5FragBufGetWqe qp.fbc ((wqeIndex + t) % qp.wqeCnt))
      (min (buflen - 64 * t) MLX5_SEND_WQE_BB)) x = strideByte qp wqeIndex x := by
  have hbb : MLX5_SEND_WQE_BB = 64 := rfl
  rw [writeAt_slice]
  split_ifs with hin
  · have hdiv : x / 64 = t := by omega
    have hmod : x % 64 = x - 64 * t := by omega
    rw [strideByte, hbb, hdiv, hmod]
  · exact hbuf x (by omega)

/-- RUN: the loop copies strides until the WQE is copied or the buffer is full. -/
theorem kernelLoop_spec (hcnt : ∃ k, qp.wqeCnt = 2 ^ k) (hsz : qp.fbc.szM1 = qp.wqeCnt - 1)
    {wqeLength : ℕ} : ∀ (fuel t : ℕ) (buffer : ℕ → ℕ), wqeLength ≤ 64 * (t + fuel) →
    (∀ x < min buflen (64 * t), buffer x = strideByte qp wqeIndex x) → ∃ bc buffer',
    kernelLoop qp.mem qp.fbc buflen wqeLength fuel ((wqeIndex + t) % qp.wqeCnt)
      (mlx5FragBufGetWqe qp.fbc ((wqeIndex + t) % qp.wqeCnt)) (min buflen (64 * t)) buffer =
      some (bc, buffer') ∧ bc ≤ buflen ∧ min buflen wqeLength ≤ bc ∧
    (∀ x < bc, buffer' x = strideByte qp wqeIndex x) ∧ ∀ x, buflen ≤ x → buffer' x = buffer x := by
  have hbb : MLX5_SEND_WQE_BB = 64 := rfl
  intro fuel
  induction fuel with
  | zero =>
    intro t buffer hfuel hbuf
    refine ⟨min buflen (64 * t), buffer, ?_, by omega, by omega, hbuf, fun _ _ => rfl⟩
    unfold kernelLoop
    split_ifs with hlt
    · exact if_pos (by omega)
    · rfl
  | succ fuel ih =>
    intro t buffer hfuel hbuf
    unfold kernelLoop
    split_ifs with hlt
    · dsimp only
      by_cases hfull : buflen ≤ 64 * t
      · rw [if_pos (by omega)]
        exact ⟨_, _, rfl, by omega, by omega, hbuf, fun _ _ => rfl⟩
      · rw [if_neg (by omega)]
        have hdone : min buflen (64 * t) = 64 * t := Nat.min_eq_right (by omega)
        have hdone' : 64 * t + min (buflen - 64 * t) MLX5_SEND_WQE_BB =
            min buflen (64 * (t + 1)) := by omega
        have hnext : ((wqeIndex + t) % qp.wqeCnt + 1) &&& qp.fbc.szM1 =
            (wqeIndex + (t + 1)) % qp.wqeCnt := by
          rw [and_szM1 hcnt hsz, Nat.mod_add_mod, Nat.add_assoc]
        rw [hdone] at hbuf ⊢
        rw [hnext, hdone']
        obtain ⟨bc, buffer', hrun, hle, hge, hbytes, hrest⟩ := ih (t + 1) _ (by omega)
          fun x hx => kernel_turn hbuf (by omega) hx
        refine ⟨bc, buffer', hrun, hle, hge, hbytes, fun x hx => ?_⟩
        rw [hrest x hx, writeAt_slice, if_neg (by omega)]
    · exact ⟨_, _, rfl, by omega, by omega, hbuf, fun _ _ => rfl⟩

/-- The WQE of a kernel queue is read. -/
theorem kernel_reads (g : Geometry qp) (hk : qp.umem = none) (hbuf : sizeofCtrlSeg ≤ buflen)
    (hfuel : 16 ≤ fuel) : Reads qp wqeIndex buffer buflen fuel := by
  obtain ⟨-, hcnt, hsz⟩ := g.kernel hk
  have hbyte : ∀ x, qp.wqeByte wqeIndex x = strideByte qp wqeIndex x := fun x => by
    simp only [Qp.wqeByte, hk, strideByte]
  have hlen : wqeLength qp.mem (mlx5FragBufGetWqe qp.fbc (wqeIndex % qp.wqeCnt)) =
      qp.wqeLen wqeIndex := by
    refine wqeLength_congr fun i hi hi' => ?_
    have hbb : MLX5_SEND_WQE_BB = 64 := rfl
    have hi64 : i < 64 := by omega
    rw [hbyte, strideByte, hbb, Nat.zero_add, Nat.div_eq_of_lt hi64, Nat.mod_eq_of_lt hi64,
      Nat.add_zero]
  have hlt : qp.wqeLen wqeIndex < 1024 := wqeLength_lt _ _
  obtain ⟨bc, buffer', hrun, hle, hge, hbytes, hrest⟩ := @kernelLoop_spec qp wqeIndex buflen hcnt
    hsz (qp.wqeLen wqeIndex) fuel 0 buffer (by omega) (by
      intro x hx
      omega)
  simp only [Nat.add_zero, Nat.mul_zero, Nat.min_zero] at hrun
  refine ⟨bc, buffer', ?_, hle, hge, fun x hx => ?_, hrest⟩
  · rw [mlx5IbReadWqeSq, if_neg (Nat.not_lt.mpr hbuf), hk]
    simp only [readKernelWqeSq, and_szM1 hcnt hsz, hlen, hrun, Option.map_some]
  · rw [hbytes x (by omega), hbyte]

end Kernel

/-! ### User queue -/

section User

variable {qp : Qp} {umem : Umem} {wqeIndex buflen fuel : ℕ} {buffer : ℕ → ℕ}

/-- A copy takes what is left of the ring, as far as the room and the count reach. -/
theorem copy_spec {dst room i n : ℕ} {bcnt : ℤ} (hring : qp.offset + qp.ringLen ≤ umem.length)
    (hsmall : qp.offset + qp.ringLen < 2 ^ 31) (hcnt : 0 < qp.wqeCnt)
    (hn : n = min (min (toU 32 (room : ℕ)) (qp.ringLen - i * 2 ^ qp.wqeShift % qp.ringLen))
      (toU 32 bcnt)) :
    readUserWqeCommon umem buffer dst room i qp.offset qp.wqeCnt qp.wqeShift bcnt =
      .ok (writeAt buffer dst
        (slice umem.byte (qp.offset + i * 2 ^ qp.wqeShift % qp.ringLen) n), n) := by
  have hpos : 0 < qp.ringLen := Nat.mul_pos hcnt (Nat.two_pow_pos _)
  have hlt := Nat.mod_lt (i * 2 ^ qp.wqeShift) hpos
  have hoff : (i % qp.wqeCnt) <<< qp.wqeShift = i * 2 ^ qp.wqeShift % qp.ringLen := by
    rw [Nat.shiftLeft_eq, Qp.ringLen, Nat.mul_mod_mul_right]
  have hend : qp.wqeCnt <<< qp.wqeShift = qp.ringLen := Nat.shiftLeft_eq _ _
  have hleft : toU 32 (((qp.offset + qp.ringLen : ℕ) : ℤ) -
      (qp.offset + i * 2 ^ qp.wqeShift % qp.ringLen : ℕ)) =
      qp.ringLen - i * 2 ^ qp.wqeShift % qp.ringLen := by
    rw [toU_sub (by omega) (by omega)]
    omega
  unfold readUserWqeCommon
  simp only [hoff, hend, hleft, ← hn]
  rw [ibUmemCopyFrom, if_neg (by omega)]
  rfl

/-- The bytes of a WQE in the region. -/
theorem wqeByte_user (hu : qp.umem = some umem) (x : ℕ) : qp.wqeByte wqeIndex x =
    umem.byte (qp.offset + (wqeIndex * 2 ^ qp.wqeShift % qp.ringLen + x) % qp.ringLen) := by
  simp only [Qp.wqeByte, hu, Nat.mod_add_mod]

theorem toU_toInt (n : ℤ) : toU 32 (toInt n) = toU 32 n := by
  unfold toU toInt
  omega

/-- RUN: with room for a control segment, as the code sees it, the two copies take the WQE as far as
    that room reaches. -/
theorem user_run (g : Geometry qp) (hu : qp.umem = some umem)
    (hfit : qp.wqeLen wqeIndex ≤ qp.ringLen) (hroom : 16 ≤ toU 32 (buflen : ℕ)) :
    let left := qp.ringLen - wqeIndex * 2 ^ qp.wqeShift % qp.ringLen
    let bc := min (toU 32 (buflen : ℕ)) (max left (qp.wqeLen wqeIndex))
    ∃ buffer', readUserWqeSq qp umem wqeIndex buffer buflen = .ok (bc, buffer') ∧
      (∀ x < bc, buffer' x = qp.wqeByte wqeIndex x) ∧ ∀ x, bc ≤ x → buffer' x = buffer x := by
  intro left bc
  have hring := g.user umem hu
  have hpos : 0 < qp.ringLen := Nat.mul_pos g.cntPos (Nat.two_pow_pos _)
  have hstart := Nat.mod_lt (wqeIndex * 2 ^ qp.wqeShift) hpos
  have hlen : qp.wqeLen wqeIndex < 1024 := wqeLength_lt _ _
  -- the stride holds at least a control segment
  have hleft : 16 ≤ left := by
    have hidx := Nat.mod_lt wqeIndex g.cntPos
    have hmul : (wqeIndex % qp.wqeCnt + 1) * 2 ^ qp.wqeShift ≤ qp.ringLen :=
      Nat.mul_le_mul_right _ hidx
    have hstride : 2 ^ 4 ≤ 2 ^ qp.wqeShift := Nat.pow_le_pow_right Nat.two_pos g.stride
    rw [Nat.succ_mul, ← Nat.mul_mod_mul_right] at hmul
    change 16 ≤ qp.ringLen - wqeIndex * 2 ^ qp.wqeShift % qp.ringLen
    unfold Qp.ringLen at hmul ⊢
    omega
  have hb : toU 32 (buflen : ℕ) ≤ buflen := by
    rw [toU_eq_mod]
    exact Nat.mod_le _ _
  -- the first copy
  obtain ⟨n, hn⟩ : ∃ n, n = min (toU 32 (buflen : ℕ)) left := ⟨_, rfl⟩
  have hcopy := @copy_spec qp umem buffer 0 buflen wqeIndex n (toInt buflen) hring g.small
    g.cntPos (by rw [toU_toInt, hn]; omega)
  have hfirst : ∀ x < n, writeAt buffer 0 (slice umem.byte
      (qp.offset + wqeIndex * 2 ^ qp.wqeShift % qp.ringLen) n) x = qp.wqeByte wqeIndex x := by
    intro x hx
    have hin : wqeIndex * 2 ^ qp.wqeShift % qp.ringLen + x < qp.ringLen := by omega
    rw [writeAt_slice, if_pos (by omega), wqeByte_user hu, Nat.mod_eq_of_lt hin, Nat.sub_zero,
      Nat.add_assoc]
  have hlength : wqeLength (writeAt buffer 0 (slice umem.byte
      (qp.offset + wqeIndex * 2 ^ qp.wqeShift % qp.ringLen) n)) 0 = qp.wqeLen wqeIndex := by
    refine wqeLength_congr fun i _ hi => ?_
    rw [Nat.zero_add]
    exact hfirst i (by omega)
  have hctrl : ¬ n < sizeofCtrlSeg := by
    change ¬ n < 16
    omega
  unfold readUserWqeSq
  simp only [hcopy, bind, Except.bind, if_neg hctrl, hlength]
  by_cases hdone : qp.wqeLen wqeIndex ≤ n
  · rw [if_pos hdone]
    have hbc : bc = n := by omega
    refine ⟨_, by rw [hbc]; rfl, fun x hx => hfirst x (by omega), fun x hx => ?_⟩
    rw [writeAt_slice, if_neg (by omega)]
  · -- the second copy goes on at the start of the ring, or it has no room
    rw [if_neg hdone]
    have hroom' : toU 32 ((buflen - n : ℕ) : ℤ) = toU 32 (buflen : ℕ) - n := by
      simp only [toU_eq_mod] at hb hn ⊢
      omega
    have hrest : toU 32 (toInt ((qp.wqeLen wqeIndex : ℤ) - n)) = qp.wqeLen wqeIndex - n := by
      rw [toU_toInt, toU_sub (by omega) (by omega)]
    have hcopy' := @copy_spec qp umem (writeAt buffer 0 (slice umem.byte
      (qp.offset + wqeIndex * 2 ^ qp.wqeShift % qp.ringLen) n)) n (buflen - n) 0 (bc - n)
      (toInt ((qp.wqeLen wqeIndex : ℤ) - n)) hring g.small g.cntPos (by
        rw [hroom', hrest, Nat.zero_mul, Nat.zero_mod]
        omega)
    have hsum : n + (bc - n) = bc := by omega
    rw [hcopy']
    dsimp only
    rw [hsum]
    refine ⟨_, rfl, fun x hx => ?_, fun x hx => ?_⟩
    · rw [writeAt_slice]
      split_ifs with hin
      · have hwrap : (wqeIndex * 2 ^ qp.wqeShift % qp.ringLen + x) % qp.ringLen = x - n := by
          have hlt : x - n < qp.ringLen := by omega
          rw [show wqeIndex * 2 ^ qp.wqeShift % qp.ringLen + x = x - n + qp.ringLen by omega,
            Nat.add_mod_right, Nat.mod_eq_of_lt hlt]
        rw [wqeByte_user hu, hwrap, Nat.zero_mul, Nat.zero_mod, Nat.add_zero]
      · exact hfirst x (by omega)
    · rw [writeAt_slice, if_neg (by omega), writeAt_slice, if_neg (by omega)]

end User

/-! ### Both paths -/

/-- Two queues hold the same WQE. -/
def SameWqe (qp : Qp) (wqeIndex : ℕ) (qp' : Qp) (wqeIndex' : ℕ) : Prop :=
  qp'.wqeLen wqeIndex' = qp.wqeLen wqeIndex ∧
    ∀ x < qp.wqeLen wqeIndex, qp'.wqeByte wqeIndex' x = qp.wqeByte wqeIndex x

/-- A length that the user path takes for what it is, or that it cuts to one with room for the WQE
    and for a control segment. -/
def Seen (qp : Qp) (wqeIndex buflen : ℕ) : Prop :=
  qp.umem ≠ none → 2 ^ 32 ≤ buflen → max sizeofCtrlSeg (qp.wqeLen wqeIndex) ≤ buflen % 2 ^ 32

/-- The user path without room for a control segment, as it sees it. -/
theorem user_einval {qp : Qp} {umem : Umem} {wqeIndex buflen : ℕ} {buffer : ℕ → ℕ}
    (g : Geometry qp) (hu : qp.umem = some umem) (hroom : toU 32 (buflen : ℕ) < 16) :
    readUserWqeSq qp umem wqeIndex buffer buflen = .error .einval := by
  have hcopy := @copy_spec qp umem buffer 0 buflen wqeIndex _ (toInt buflen) (g.user umem hu)
    g.small g.cntPos rfl
  unfold readUserWqeSq
  simp only [hcopy]
  refine if_pos ?_
  change _ < 16
  omega

/-- The user path reads the WQE where it sees enough room. -/
theorem user_reads_iff {qp : Qp} {umem : Umem} {wqeIndex buflen fuel : ℕ} {buffer : ℕ → ℕ}
    (g : Geometry qp) (hu : qp.umem = some umem) (hbuf : sizeofCtrlSeg ≤ buflen)
    (hfit : qp.wqeLen wqeIndex ≤ qp.ringLen) :
    Reads qp wqeIndex buffer buflen fuel ↔ Seen qp wqeIndex buflen := by
  have hrun : mlx5IbReadWqeSq qp wqeIndex buffer buflen fuel =
      some (readUserWqeSq qp umem wqeIndex buffer buflen) := by
    rw [mlx5IbReadWqeSq, if_neg (Nat.not_lt.mpr hbuf), hu]
  have hseen : Seen qp wqeIndex buflen ↔
      (2 ^ 32 ≤ buflen → max 16 (qp.wqeLen wqeIndex) ≤ toU 32 (buflen : ℕ)) := by
    rw [Seen, hu, toU_eq_mod]
    exact ⟨fun h => h (Option.some_ne_none umem), fun h _ => h⟩
  have hlen : qp.wqeLen wqeIndex < 1024 := wqeLength_lt _ _
  have hbuf' : 16 ≤ buflen := hbuf
  have hsmall : buflen < 2 ^ 32 → toU 32 (buflen : ℕ) = buflen := fun h => toU_of_lt h
  have hb : toU 32 (buflen : ℕ) ≤ buflen := by
    exact Nat.mod_le _ _
  rw [hseen, Reads, hrun]
  by_cases hroom : 16 ≤ toU 32 (buflen : ℕ)
  · obtain ⟨buffer', hrun', hbytes, hrest⟩ := @user_run qp umem wqeIndex buflen buffer g hu hfit
      hroom
    rw [hrun']
    constructor
    · rintro ⟨bc, buffer₂, heq, -, hge, -⟩ hlarge
      obtain ⟨hbc, -⟩ := Prod.mk.inj (Except.ok.inj (Option.some.inj heq))
      omega
    · intro hcond
      refine ⟨_, buffer', rfl, by omega, ?_, fun x hx => hbytes x (by omega),
        fun x hx => hrest x (by omega)⟩
      by_cases hlarge : 2 ^ 32 ≤ buflen
      · have := hcond hlarge
        omega
      · have := hsmall (by omega)
        omega
  · rw [user_einval g hu (by omega)]
    refine iff_of_false ?_ fun hcond => ?_
    · rintro ⟨bc, buffer', heq, -⟩
      cases Option.some.inj heq
    · by_cases hlarge : 2 ^ 32 ≤ buflen
      · have := hcond hlarge
        omega
      · have := hsmall (by omega)
        omega

/-- When a call reads the WQE: always, unless the user path cuts the length of the buffer to one that
    is too short. -/
theorem reads_iff {qp : Qp} (g : Geometry qp) {wqeIndex buflen fuel : ℕ} (buffer : ℕ → ℕ)
    (hbuf : sizeofCtrlSeg ≤ buflen) (hfit : qp.wqeLen wqeIndex ≤ qp.ringLen) (hfuel : 16 ≤ fuel) :
    Reads qp wqeIndex buffer buflen fuel ↔ Seen qp wqeIndex buflen := by
  cases hu : qp.umem with
  | none => exact iff_of_true (kernel_reads g hu hbuf hfuel) fun hne => absurd hu hne
  | some umem => exact user_reads_iff g hu hbuf hfit

/-- CORRECT: a call with a buffer below 4 GiB reads the WQE, wherever it lies in the ring, and two
    queues that hold the same WQE, in user memory or in the kernel, give the same bytes. -/
theorem read_wqe_sq {qp : Qp} (g : Geometry qp) {wqeIndex buflen fuel : ℕ} (buffer : ℕ → ℕ)
    (hbuf : sizeofCtrlSeg ≤ buflen) (hlen : buflen < 2 ^ 32)
    (hfit : qp.wqeLen wqeIndex ≤ qp.ringLen) (hfuel : 16 ≤ fuel) :
    Reads qp wqeIndex buffer buflen fuel ∧ ∀ qp' wqeIndex' buffer', Geometry qp' →
      qp'.wqeLen wqeIndex' ≤ qp'.ringLen → SameWqe qp wqeIndex qp' wqeIndex' →
      ∃ bc b bc' b', mlx5IbReadWqeSq qp wqeIndex buffer buflen fuel = some (.ok (bc, b)) ∧
        mlx5IbReadWqeSq qp' wqeIndex' buffer' buflen fuel = some (.ok (bc', b')) ∧
        ∀ x < min (min bc bc') (qp.wqeLen wqeIndex), b x = b' x := by
  have hseen : ∀ qp i, Seen qp i buflen := fun qp i _ hlarge => absurd hlen hlarge.not_gt
  have hreads := (reads_iff g buffer hbuf hfit hfuel).mpr (hseen qp wqeIndex)
  refine ⟨hreads, fun qp' wqeIndex' buffer' g' hfit' hsame => ?_⟩
  obtain ⟨bc, b, hrun, -, -, hbytes, -⟩ := hreads
  obtain ⟨bc', b', hrun', -, -, hbytes', -⟩ :=
    (reads_iff g' buffer' hbuf hfit' hfuel).mpr (hseen qp' wqeIndex')
  rw [hsame.1] at hbytes'
  refine ⟨bc, b, bc', b', hrun, hrun', fun x hx => ?_⟩
  rw [hbytes x (by omega), hbytes' x (by omega), hsame.2 x (by omega)]

/-- A queue of two strides in user memory; the WQE at index 1 has 128 bytes. -/
def demoQp : Qp :=
  { umem := some ⟨128, fun x => if x = 71 then 8 else x⟩, mem := fun _ => 0,
    fbc := ⟨fun _ => 0, 0, 0, 0⟩, offset := 0, wqeCnt := 2, wqeShift := 6 }

theorem demoQp_geometry : Geometry demoQp where
  cntPos := by decide
  small := by decide
  stride := by decide
  user umem hu := by
    cases hu
    decide
  kernel h := by cases h

/-- A WQE that wraps, read into 100 bytes. -/
theorem read_wqe_sq_demo : Reads demoQp 1 (fun _ => 0) 100 16 :=
  (read_wqe_sq demoQp_geometry (fun _ => 0) (by decide) (by decide) (by decide) le_rfl).1

end RdmaDriver.ReadWqe
