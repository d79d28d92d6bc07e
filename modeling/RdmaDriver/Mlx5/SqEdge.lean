import Mathlib.Data.Nat.Bitwise
import RdmaDriver.Basic

/-! @src drivers/infiniband/hw/mlx5/wr.h | name:WQE edges | scheme:ring | family:fragments

    The send queue is a ring of strides of 64 bytes, in fragments of a page. A WQE is written
    through a pointer that only grows, up to an edge: the end of the fragment, or of the ring.

        fragment 0           fragment 1
        [..... s₀ s₁ s₂ s₃]▏ [s₄ s₅ ... ]▏
                   ↑ seg   ↑ cur_edge

    Where the pointer meets the edge, it goes on at the stride that the bytes so far lead to, and
    the edge is that of the new fragment. The edge is kept from one WQE to the next. -/

namespace RdmaDriver.SqEdge
open List (append_assoc append_nil cons_append flatten_cons length length_append length_cons
  length_drop length_map length_nil length_replicate map_append map_cons mem_cons nil_append
  replicate sum_cons)

def MLX5_SEND_WQE_BB : ℕ := 64
def MLX5_INLINE_SEG : ℕ := 0x80000000

/-- `struct mlx5_frag_buf_ctrl` of a send queue; `buf` has the addresses of the fragments. -/
structure Fbc where
  buf : ℕ → ℕ
  szM1 : ℕ
  logFragStrides : ℕ
  stridesOffset : ℕ

/-- The send queue, as far as the writing of WQEs needs it. -/
structure Sq where
  fbc : Fbc
  wqeCnt : ℕ
  curPost : ℕ
  curEdge : ℕ

/-- A WQE under construction: the pointer, the size in 16 bytes, the edge, and the bytes that were
    written, each with its address. -/
structure Wqe where
  seg : ℕ
  size : ℕ
  curEdge : ℕ
  writes : List (ℕ × ℕ)

/-- `frag_sz_m1`. -/
def Fbc.fragSzM1 (fbc : Fbc) : ℕ := 2 ^ fbc.logFragStrides - 1

/-- `mlx5_frag_buf_get_wqe`. -/
def mlx5FragBufGetWqe (fbc : Fbc) (ix : ℕ) : ℕ :=
  let ix := toU 32 (ix + fbc.stridesOffset : ℕ)
  fbc.buf (ix >>> fbc.logFragStrides) + (fbc.fragSzM1 &&& ix) * MLX5_SEND_WQE_BB

/-- `mlx5_frag_buf_get_idx_last_contig_stride`. -/
def mlx5FragBufGetIdxLastContigStride (fbc : Fbc) (ix : ℕ) : ℕ :=
  let lastFragStrideIdx := toU 32 (ix + fbc.stridesOffset : ℕ) ||| fbc.fragSzM1
  min (lastFragStrideIdx - fbc.stridesOffset) fbc.szM1

/-- `get_sq_edge`. -/
def getSqEdge (sq : Sq) (idx : ℕ) : ℕ :=
  mlx5FragBufGetWqe sq.fbc (mlx5FragBufGetIdxLastContigStride sq.fbc idx) + MLX5_SEND_WQE_BB

/-- `handle_post_send_edge`, at a size of the WQE. -/
def handlePostSendEdge (sq : Sq) (wqeSz : ℕ) (w : Wqe) : Wqe :=
  if w.seg ≠ w.curEdge then w
  else
    let idx := (sq.curPost + wqeSz >>> 2) &&& (sq.wqeCnt - 1)
    { w with curEdge := getSqEdge sq idx, seg := mlx5FragBufGetWqe sq.fbc idx }

/-- A `memcpy` to the pointer: the bytes and their addresses. -/
def bytesAt (a : ℕ) : List ℕ → List (ℕ × ℕ)
  | [] => []
  | x :: l => (a, x) :: bytesAt (a + 1) l

/-- `mlx5r_memcpy_send_wqe`; the fuel bounds the turns of the loop. -/
def mlx5rMemcpySendWqe (sq : Sq) : ℕ → List ℕ → Wqe → Option Wqe
  | _, [], w => some w
  | 0, _ :: _, _ => none
  | fuel + 1, src, w =>
    let copysz := min (w.curEdge - w.seg) src.length
    let stride := if src.length - copysz = 0 then align copysz 16 else copysz
    let size := w.size + stride >>> 4
    let w := { w with
      seg := w.seg + stride, size := size, writes := w.writes ++ bytesAt w.seg (src.take copysz) }
    mlx5rMemcpySendWqe sq fuel (src.drop copysz) (handlePostSendEdge sq size w)

/-- The copy loop of `set_data_inl_seg` for one entry: the WQE and the offset after it. -/
def inlCopy (sq : Sq) : ℕ → List ℕ → Wqe → ℕ → Option (Wqe × ℕ)
  | _, [], w, offset => some (w, offset)
  | 0, _ :: _, _, _ => none
  | fuel + 1, src, w, offset =>
    let w := handlePostSendEdge sq (toU 32 (w.size + offset >>> 4 : ℕ)) w
    let copysz := min (w.curEdge - w.seg) src.length
    let w := { w with
      seg := w.seg + copysz, writes := w.writes ++ bytesAt w.seg (src.take copysz) }
    inlCopy sq fuel (src.drop copysz) w (offset + copysz)

/-- The bytes of a `__be32`. -/
def be32 (n : ℕ) : List ℕ := [n / 2 ^ 24 % 256, n / 2 ^ 16 % 256, n / 2 ^ 8 % 256, n % 256]

/-- The loop of `set_data_inl_seg` over the entries, each with its bytes: the error if there is one,
    the WQE, the offset and `inl`. -/
def inlLoop (sq : Sq) (maxInlineData : ℤ) :
    List (List ℕ) → Wqe → ℕ → ℤ → Option (Option Errno × Wqe × ℕ × ℤ)
  | [], w, offset, inl => some (none, w, offset, inl)
  | data :: sgs, w, offset, inl =>
    let inl := toInt (inl + data.length)
    if inl > maxInlineData then some (some .enomem, w, offset, inl)
    else
      match inlCopy sq (data.length + 1) data w offset with
      | none => none
      | some (w, offset) => inlLoop sq maxInlineData sgs w offset inl

/-- `set_data_inl_seg`: the error if there is one, and the WQE. -/
def setDataInlSeg (sq : Sq) (maxInlineData : ℤ) (sgs : List (List ℕ)) (w : Wqe) :
    Option (Option Errno × Wqe) :=
  match inlLoop sq maxInlineData sgs { w with seg := w.seg + 4 } 4 0 with
  | none => none
  | some (some e, w, _, _) => some (some e, w)
  | some (none, w', _, inl) =>
    some (none, { w' with
      writes := w'.writes ++ bytesAt w.seg (be32 (toU 32 inl ||| MLX5_INLINE_SEG)),
      size := toU 32 (w'.size + align (toU 64 (inl + 4)) 16 / 16 : ℕ) })

/-- The loop of `mlx5_ib_post_send` over the data pointers; an entry of no length has no segment. -/
def dataPtrLoop (sq : Sq) : List (Option (List ℕ)) → Wqe → Wqe
  | [], w => w
  | none :: l, w => dataPtrLoop sq l (handlePostSendEdge sq w.size w)
  | some seg :: l, w =>
    let w := handlePostSendEdge sq w.size w
    dataPtrLoop sq l
      { w with size := w.size + 1, seg := w.seg + 16, writes := w.writes ++ bytesAt w.seg seg }

/-- `PTR_ALIGN` to a stride. -/
def ptrAlign (a : ℕ) : ℕ := align a MLX5_SEND_WQE_BB

/-- `mlx5r_finish_wqe`, what it does to the position; the size is an `u8`. -/
def mlx5rFinishWqe (sq : Sq) (w : Wqe) : Sq :=
  let size := toU 8 w.size
  let sq := { sq with curPost := toU 16 (sq.curPost + divRoundUp (size * 16) MLX5_SEND_WQE_BB : ℕ) }
  let seg := ptrAlign w.seg
  { sq with
    curEdge := if seg = w.curEdge then getSqEdge sq (sq.curPost &&& (sq.wqeCnt - 1))
      else w.curEdge }

/-- What is written into a WQE after its control segment: segments within a stride, before and with
    a look at the edge, and data of any length. -/
inductive Op where
  | plain (bytes : List ℕ)
  | seg (bytes : List ℕ)
  | memcpy (bytes : List ℕ)

/-- How a WQE ends: inline data, or data pointers. -/
inductive Tail where
  | inl (maxInlineData : ℤ) (sgs : List (List ℕ))
  | ptrs (sgs : List (Option (List ℕ)))

/-- `mlx5r_begin_wqe`, with the control segment that `mlx5r_finish_wqe` completes. -/
def mlx5rBeginWqe (sq : Sq) (ctrl : List ℕ) : Wqe :=
  let seg := mlx5FragBufGetWqe sq.fbc (sq.curPost &&& (sq.wqeCnt - 1))
  ⟨seg + 16, 1, sq.curEdge, bytesAt seg ctrl⟩

/-- A segment is written at the pointer. -/
def writeSeg (b : List ℕ) (w : Wqe) : Wqe :=
  { w with
    seg := w.seg + b.length, size := w.size + b.length / 16, writes := w.writes ++ bytesAt w.seg b }

def runOp (sq : Sq) (w : Wqe) : Op → Option Wqe
  | .plain b => some (writeSeg b w)
  | .seg b => some (handlePostSendEdge sq (w.size + b.length / 16) (writeSeg b w))
  | .memcpy b => mlx5rMemcpySendWqe sq (b.length + 1) b w

def runOps (sq : Sq) : List Op → Wqe → Option Wqe
  | [], w => some w
  | o :: l, w => (runOp sq w o).bind (runOps sq l)

def runTail (sq : Sq) (w : Wqe) : Tail → Option (Option Errno × Wqe)
  | .inl maxInlineData sgs => setDataInlSeg sq maxInlineData sgs w
  | .ptrs sgs => some (none, dataPtrLoop sq sgs w)

/-- A segment fits: it is whole 16 bytes and within a stride, which it fills only before a look at
    the edge. -/
def Op.fits (size : ℕ) : Op → Prop
  | .plain b => b.length % 16 = 0 ∧ size * 16 % 64 + b.length < 64
  | .seg b => b.length % 16 = 0 ∧ size * 16 % 64 + b.length ≤ 64
  | .memcpy _ => True

/-- How many 16 bytes are written. -/
def Op.units : Op → ℕ
  | .plain b => b.length / 16
  | .seg b => b.length / 16
  | .memcpy b => divRoundUp b.length 16

def Fits : ℕ → List Op → Prop
  | _, [] => True
  | size, o :: l => o.fits size ∧ Fits (size + o.units) l

/-- A data segment has 16 bytes. -/
def Tail.wf : Tail → Prop
  | .inl _ _ => True
  | .ptrs sgs => ∀ b, some b ∈ sgs → b.length = 16

/-- The bytes that an operation puts into the WQE; the ones that it skips are `none`. -/
def Op.stream : Op → List (Option ℕ)
  | .plain b => b.map some
  | .seg b => b.map some
  | .memcpy b => b.map some ++ replicate (align b.length 16 - b.length) none

/-- The bytes of a tail. -/
def Tail.stream : Tail → List (Option ℕ)
  | .inl _ sgs =>
    (be32 (toU 32 sgs.flatten.length ||| MLX5_INLINE_SEG)).map some ++ sgs.flatten.map some
  | .ptrs sgs => (sgs.filterMap id).flatten.map some

/-- Where byte `b` of the WQE belongs. -/
def slot (sq : Sq) (b : ℕ) : ℕ :=
  mlx5FragBufGetWqe sq.fbc ((sq.curPost + b / 64) % sq.wqeCnt) + b % 64

/-- The edge of the fragment of byte `b`. -/
def edge (sq : Sq) (b : ℕ) : ℕ := getSqEdge sq ((sq.curPost + b / 64) % sq.wqeCnt)

/-- The bytes from `p` on, each where it belongs. -/
def laid (sq : Sq) : ℕ → List (Option ℕ) → List (ℕ × ℕ)
  | _, [] => []
  | p, none :: l => laid sq (p + 1) l
  | p, some x :: l => (slot sq p, x) :: laid sq (p + 1) l

/-- A send queue as it is set up: a power of two of strides, in aligned fragments. -/
structure Good (sq : Sq) : Prop where
  cnt : ∃ k, sq.wqeCnt = 2 ^ k
  le : sq.wqeCnt ≤ 2 ^ 16
  szM1 : sq.fbc.szM1 = sq.wqeCnt - 1
  offset : sq.fbc.stridesOffset < 2 ^ 16
  aligned : ∀ f, 64 ∣ sq.fbc.buf f

section Geometry
variable {sq : Sq} {ix p n : ℕ}

/-- The last stride of the fragment. -/
theorem or_low (x k : ℕ) : x ||| (2 ^ k - 1) = 2 ^ k * (x / 2 ^ k) + (2 ^ k - 1) := by
  have hlt : 2 ^ k - 1 < 2 ^ k := Nat.sub_lt (Nat.two_pow_pos k) Nat.one_pos
  refine Nat.eq_of_testBit_eq fun i => ?_
  rw [Nat.testBit_or, Nat.testBit_two_pow_mul_add _ hlt, Nat.testBit_two_pow_sub_one]
  by_cases hi : i < k
  · simp [hi]
  · rw [if_neg hi, Nat.testBit_div_two_pow, Nat.sub_add_cancel (Nat.not_lt.mp hi)]
    simp [hi]

section
variable (g : Good sq) (h : ix < sq.wqeCnt)
include g h

theorem toU32_offset : toU 32 (ix + sq.fbc.stridesOffset : ℕ) = ix + sq.fbc.stridesOffset := by
  have hle := g.le
  have ho := g.offset
  exact toU_of_lt (by omega)

/-- The address of a stride. -/
theorem getWqe_eq : mlx5FragBufGetWqe sq.fbc ix =
      sq.fbc.buf ((ix + sq.fbc.stridesOffset) / 2 ^ sq.fbc.logFragStrides) +
        (ix + sq.fbc.stridesOffset) % 2 ^ sq.fbc.logFragStrides * 64 := by
  unfold mlx5FragBufGetWqe Fbc.fragSzM1 MLX5_SEND_WQE_BB
  simp only [toU32_offset g h]
  rw [Nat.shiftRight_eq_div_pow, Nat.and_comm, Nat.and_two_pow_sub_one_eq_mod]

/-- The last stride that follows without a gap. -/
theorem last_eq : mlx5FragBufGetIdxLastContigStride sq.fbc ix =
      min (2 ^ sq.fbc.logFragStrides * ((ix + sq.fbc.stridesOffset) / 2 ^ sq.fbc.logFragStrides) +
        (2 ^ sq.fbc.logFragStrides - 1) - sq.fbc.stridesOffset) (sq.wqeCnt - 1) := by
  unfold mlx5FragBufGetIdxLastContigStride Fbc.fragSzM1
  simp only [toU32_offset g h]
  rw [or_low, g.szM1]

end

/-- The strides from a stride to the last of its fragment. -/
structure Contig (sq : Sq) (ix last : ℕ) : Prop where
  le : ix ≤ last
  lt : last < sq.wqeCnt
  addr : ∀ d, ix + d ≤ last →
    mlx5FragBufGetWqe sq.fbc (ix + d) = mlx5FragBufGetWqe sq.fbc ix + 64 * d
  edge : ∀ d, ix + d ≤ last →
    getSqEdge sq (ix + d) = mlx5FragBufGetWqe sq.fbc ix + 64 * (last - ix) + 64

theorem exists_contig (g : Good sq) (h : ix < sq.wqeCnt) : ∃ last, Contig sq ix last := by
  set off := sq.fbc.stridesOffset with hoff
  set m := 2 ^ sq.fbc.logFragStrides with hm
  have hmpos : 0 < m := Nat.two_pow_pos _
  have hdiv := Nat.div_add_mod (ix + off) m
  have hmod := Nat.mod_lt (ix + off) hmpos
  set q := (ix + off) / m with hq
  set r := (ix + off) % m with hr
  set last := min (m * q + (m - 1) - off) (sq.wqeCnt - 1) with hlast
  have hle : ix ≤ last := by omega
  have hlt : last < sq.wqeCnt := by omega
  have hin : ∀ d, ix + d ≤ last → r + d < m := fun d hd => by omega
  have hqd : ∀ d, ix + d ≤ last → (ix + d + off) / m = q ∧ (ix + d + off) % m = r + d := by
    intro d hd
    have hrd := hin d hd
    have hsum : ix + d + off = (r + d) + m * q := by omega
    rw [hsum, Nat.add_mul_div_left _ _ hmpos, Nat.div_eq_of_lt hrd, Nat.add_mul_mod_self_left,
      Nat.mod_eq_of_lt hrd]
    exact ⟨Nat.zero_add q, rfl⟩
  have haddr : ∀ d, ix + d ≤ last →
      mlx5FragBufGetWqe sq.fbc (ix + d) = mlx5FragBufGetWqe sq.fbc ix + 64 * d := by
    intro d hd
    rw [getWqe_eq g (by omega), getWqe_eq g h, (hqd d hd).1, (hqd d hd).2]
    rw [← hq, ← hr]
    omega
  refine ⟨last, hle, hlt, haddr, fun d hd => ?_⟩
  have hl : mlx5FragBufGetIdxLastContigStride sq.fbc (ix + d) = last := by
    rw [last_eq g (by omega), (hqd d hd).1]
  have hend := haddr (last - ix) (by omega)
  rw [Nat.add_sub_cancel' hle] at hend
  unfold getSqEdge MLX5_SEND_WQE_BB
  rw [hl, hend]

theorem wqeCnt_pos (g : Good sq) : 0 < sq.wqeCnt := by
  obtain ⟨k, hk⟩ := g.cnt
  rw [hk]
  exact Nat.two_pow_pos k

/-- Up to the edge the bytes of a WQE follow each other, and at the edge a stride ends. -/
theorem slot_add (g : Good sq) (p : ℕ) : slot sq p < edge sq p ∧ 64 ∣ edge sq p ∧
    64 - p % 64 ≤ edge sq p - slot sq p ∧ 64 ∣ p + (edge sq p - slot sq p) ∧
    ∀ n < edge sq p - slot sq p, slot sq (p + n) = slot sq p + n ∧ edge sq (p + n) = edge sq p := by
  have hpos := wqeCnt_pos g
  have hidx : (sq.curPost + p / 64) % sq.wqeCnt < sq.wqeCnt := Nat.mod_lt _ hpos
  obtain ⟨last, hc⟩ := exists_contig g hidx
  set ix := (sq.curPost + p / 64) % sq.wqeCnt with hix
  have he := hc.edge 0 hc.le
  have hle := hc.le
  have hlt := hc.lt
  have haddr : 64 ∣ mlx5FragBufGetWqe sq.fbc ix := by
    exact Nat.dvd_add (g.aligned _) (Nat.dvd_mul_left 64 _)
  have hslot : slot sq p = mlx5FragBufGetWqe sq.fbc ix + p % 64 := rfl
  have hedge : edge sq p = mlx5FragBufGetWqe sq.fbc ix + 64 * (last - ix) + 64 := he
  refine ⟨by omega, by omega, by omega, by omega, fun n hn => ?_⟩
  have hd : ix + (p % 64 + n) / 64 ≤ last := by omega
  have hidx' : (sq.curPost + (p + n) / 64) % sq.wqeCnt = ix + (p % 64 + n) / 64 := by
    have hsum : sq.curPost + (p + n) / 64 = sq.curPost + p / 64 + (p % 64 + n) / 64 := by omega
    rw [hsum, Nat.add_mod, ← hix, Nat.mod_eq_of_lt (by omega : (p % 64 + n) / 64 < sq.wqeCnt),
      Nat.mod_eq_of_lt (by omega)]
  constructor
  · unfold slot
    rw [hidx', hc.addr _ hd, ← hix]
    omega
  · unfold edge
    rw [hidx', hc.edge _ hd]
    exact he.symm

end Geometry

section Layout
variable {sq : Sq} {p : ℕ}

theorem laid_append : ∀ (p : ℕ) (l l' : List (Option ℕ)),
    laid sq p (l ++ l') = laid sq p l ++ laid sq (p + l.length) l'
  | _, [], _ => rfl
  | p, none :: l, l' => by
    have hrec := laid_append (p + 1) l l'
    rw [cons_append, laid, laid, hrec, length_cons]
    congr 2
    omega
  | p, some x :: l, l' => by
    have hrec := laid_append (p + 1) l l'
    rw [cons_append, laid, laid, hrec, length_cons, cons_append]
    congr 3
    omega

theorem laid_gap : ∀ (p n : ℕ), laid sq p (replicate n none) = []
  | _, 0 => rfl
  | p, n + 1 => laid_gap (p + 1) n

/-- Bytes that stay in front of the edge are where they belong. -/
theorem bytesAt_eq : ∀ (b : List ℕ) (p a : ℕ), (∀ j < b.length, slot sq (p + j) = a + j) →
    bytesAt a b = laid sq p (b.map some)
  | [], _, _, _ => rfl
  | x :: b, p, a, h => by
    have h0 := h 0 (Nat.succ_pos _)
    have hrec := bytesAt_eq b (p + 1) (a + 1) fun j hj => by
      have hj := h (j + 1) (Nat.succ_lt_succ hj)
      rw [show p + 1 + j = p + (j + 1) by omega, hj]
      omega
    rw [bytesAt, map_cons, laid, hrec]
    exact congrArg (fun a => (a, x) :: _) h0.symm

end Layout

section Position
variable {sq : Sq} {w : Wqe} {p n : ℕ} {s : List (Option ℕ)}

/-- The pointer is where the next byte belongs, and the edge is that of its fragment. -/
structure Fresh (sq : Sq) (w : Wqe) (p : ℕ) : Prop where
  seg : w.seg = slot sq p
  edge : w.curEdge = edge sq p

/-- The pointer is there, or it has met the edge at the end of a stride. -/
def At (sq : Sq) (w : Wqe) (p : ℕ) : Prop :=
  Fresh sq w p ∨ 64 ∣ p ∧ w.seg = w.curEdge ∧ 64 ∣ w.curEdge

theorem and_mask (g : Good sq) (x : ℕ) : x &&& (sq.wqeCnt - 1) = x % sq.wqeCnt := by
  obtain ⟨k, hk⟩ := g.cnt
  rw [hk, Nat.and_two_pow_sub_one_eq_mod]

/-- STEP: after a look at the edge the pointer is where the next byte belongs. -/
theorem handlePostSendEdge_fresh (g : Good sq) {sz : ℕ} (h : At sq w p)
    (hsz : 64 ∣ p → (sq.curPost + sz >>> 2) % sq.wqeCnt = (sq.curPost + p / 64) % sq.wqeCnt) :
    Fresh sq (handlePostSendEdge sq sz w) p ∧ (handlePostSendEdge sq sz w).size = w.size ∧
      (handlePostSendEdge sq sz w).writes = w.writes := by
  unfold handlePostSendEdge
  by_cases he : w.seg = w.curEdge
  · rw [if_neg (fun hn => hn he)]
    have hp : 64 ∣ p := by
      rcases h with h | h
      · have hlt := (slot_add g p).1
        rw [h.seg, h.edge] at he
        omega
      · exact h.1
    have hmod := Nat.mod_eq_zero_of_dvd hp
    refine ⟨⟨?_, ?_⟩, rfl, rfl⟩
    · simp only [and_mask g, hsz hp]
      rw [slot, hmod, Nat.add_zero]
    · simp only [and_mask g, hsz hp]
      rfl
  · rw [if_pos he]
    exact ⟨h.resolve_right fun hr => he hr.2.1, rfl, rfl⟩

section
variable (h : Fresh sq w p) (g : Good sq)
include h g

/-- STEP: bytes up to the edge are written. -/
theorem Fresh.advance (hn : n ≤ w.curEdge - w.seg) {w' : Wqe}
    (hseg : w'.seg = w.seg + n) (hedge : w'.curEdge = w.curEdge) : At sq w' (p + n) := by
  obtain ⟨hlt, hdvd, -, hend, hall⟩ := slot_add g p
  rw [h.seg, h.edge] at hn
  rcases hn.lt_or_eq with hn | rfl
  · obtain ⟨hs, he⟩ := hall n hn
    exact .inl ⟨by rw [hseg, h.seg, hs], by rw [hedge, h.edge, he]⟩
  · refine .inr ⟨hend, ?_, ?_⟩
    · rw [hseg, hedge, h.seg, h.edge]
      omega
    · rw [hedge, h.edge]
      exact hdvd

/-- And they are where they belong. -/
theorem Fresh.bytes {b : List ℕ}
    (hn : b.length ≤ w.curEdge - w.seg) : bytesAt w.seg b = laid sq p (b.map some) := by
  obtain ⟨hlt, hdvd, -, hend, hall⟩ := slot_add g p
  rw [h.seg, h.edge] at hn
  refine bytesAt_eq b p w.seg fun j hj => ?_
  rw [h.seg]
  exact (hall j (by omega)).1

theorem Fresh.room : 64 - p % 64 ≤ w.curEdge - w.seg := by
  rw [h.seg, h.edge]
  exact (slot_add g p).2.2.1

end

/-- The WQE so far: the bytes `s`, where they belong. -/
structure On (sq : Sq) (w : Wqe) (s : List (Option ℕ)) : Prop where
  pos : At sq w s.length
  writes : w.writes = laid sq 0 s

theorem On.snoc (h : On sq w s) (g : Good sq) {b : List ℕ} (hf : Fresh sq w s.length)
    (hn : b.length ≤ w.curEdge - w.seg) {w' : Wqe} (hseg : w'.seg = w.seg + b.length)
    (hedge : w'.curEdge = w.curEdge) (hw : w'.writes = w.writes ++ bytesAt w.seg b) :
    On sq w' (s ++ b.map some) := by
  have hlen : (s ++ b.map some).length = s.length + b.length := by simp
  refine ⟨?_, ?_⟩
  · rw [hlen]
    exact hf.advance g hn hseg hedge
  · rw [hw, h.writes, laid_append, hf.bytes g hn, Nat.zero_add]

end Position

section Ops
variable {sq : Sq} {w : Wqe} {s : List (Option ℕ)}

theorem On.gap (h : On sq w s) (n : ℕ) {w' : Wqe} (hpos : At sq w' (s.length + n))
    (hw : w'.writes = w.writes) : On sq w' (s ++ replicate n none) := by
  refine ⟨by simpa using hpos, ?_⟩
  rw [hw, h.writes, laid_append, laid_gap, append_nil]

/-- A WQE between two segments: its size is that of its bytes. -/
structure Between (sq : Sq) (w : Wqe) (s : List (Option ℕ)) : Prop extends On sq w s where
  fresh : Fresh sq w s.length
  size : w.size * 16 = s.length

theorem size_idx {n p c : ℕ} (h : n * 16 = p) : c + n >>> 2 = c + p / 64 := by
  rw [Nat.shiftRight_eq_div_pow]
  omega

/-- STEP: `mlx5r_memcpy_send_wqe` ends, and its bytes are where they belong. -/
theorem memcpy_between (g : Good sq) : ∀ (fuel : ℕ) (src : List ℕ) (w : Wqe) (s : List (Option ℕ)),
    src.length < fuel → Between sq w s → ∃ w', mlx5rMemcpySendWqe sq fuel src w = some w' ∧
      Between sq w' (s ++ (Op.memcpy src).stream)
  | fuel, [], w, s, _, h => by
    refine ⟨w, by cases fuel <;> rfl, ?_⟩
    simpa [Op.stream, align] using h
  | 0, x :: src, _, _, hf, _ => absurd hf (Nat.not_lt_zero _)
  | fuel + 1, x :: src, w, s, hf, h => by
    have hroom := h.fresh.room g
    have hend : 64 ∣ s.length + (w.curEdge - w.seg) := by
      rw [h.fresh.seg, h.fresh.edge]
      exact (slot_add g s.length).2.2.2.1
    have hsize := h.size
    rw [mlx5rMemcpySendWqe]
    case x_3 => exact fun he => by cases he
    set b := x :: src with hb
    have hlen : 0 < b.length := Nat.succ_pos _
    by_cases hlast : b.length ≤ w.curEdge - w.seg
    · -- the last chunk: the pointer is aligned behind it
      have hmin : min (w.curEdge - w.seg) b.length = b.length := Nat.min_eq_right hlast
      have hfit : align b.length 16 ≤ w.curEdge - w.seg := by
        unfold align
        omega
      have hge : b.length ≤ align b.length 16 := by
        unfold align
        omega
      have h16 : align b.length 16 % 16 = 0 := by
        unfold align
        omega
      simp only [hmin, Nat.sub_self, if_true, List.take_length, List.drop_length]
      set w₁ : Wqe := { w with
        seg := w.seg + align b.length 16, size := w.size + align b.length 16 >>> 4,
        writes := w.writes ++ bytesAt w.seg b } with hw₁
      have hat : At sq w₁ (s.length + align b.length 16) := h.fresh.advance g hfit rfl rfl
      have hsz : (w.size + align b.length 16 >>> 4) * 16 = s.length + align b.length 16 := by
        rw [Nat.shiftRight_eq_div_pow]
        omega
      obtain ⟨hfr, hs, hwr⟩ := handlePostSendEdge_fresh g hat fun _ => by rw [size_idx hsz]
      have hstream : (s ++ (Op.memcpy b).stream).length = s.length + align b.length 16 := by
        simp only [Op.stream, length_append, length_map, length_replicate]
        omega
      refine ⟨_, by cases fuel <;> rfl, ⟨⟨?_, ?_⟩, ?_, ?_⟩⟩
      · rw [hstream]
        exact .inl hfr
      · rw [hwr, hw₁, h.writes, laid_append, Op.stream, laid_append, laid_gap, append_nil,
          h.fresh.bytes g hlast, Nat.zero_add]
      · rw [hstream]
        exact hfr
      · rw [hstream, hs]
        exact hsz
    · -- a chunk up to the edge
      have hmin : min (w.curEdge - w.seg) b.length = w.curEdge - w.seg :=
        Nat.min_eq_left (by omega)
      set k := w.curEdge - w.seg with hk
      have hne : b.length - k ≠ 0 := by omega
      simp only [hmin, if_neg hne]
      set w₁ : Wqe := { w with
        seg := w.seg + k, size := w.size + k >>> 4,
        writes := w.writes ++ bytesAt w.seg (b.take k) } with hw₁
      have htake : (b.take k).length = k := by
        rw [List.length_take]
        omega
      have hon : On sq w₁ (s ++ (b.take k).map some) := by
        refine h.toOn.snoc g h.fresh (by rw [htake]) ?_ rfl rfl
        rw [htake]
      have hlen₁ : (s ++ (b.take k).map some).length = s.length + k := by
        rw [length_append, length_map, htake]
      have hsz : (w.size + k >>> 4) * 16 = (s ++ (b.take k).map some).length := by
        rw [hlen₁, Nat.shiftRight_eq_div_pow]
        omega
      obtain ⟨hfr, hs, hwr⟩ := handlePostSendEdge_fresh g hon.pos fun _ => by rw [size_idx hsz]
      have hbt : Between sq (handlePostSendEdge sq (w.size + k >>> 4) w₁)
          (s ++ (b.take k).map some) :=
        ⟨⟨.inl hfr, by rw [hwr]; exact hon.writes⟩, hfr, by rw [hs]; exact hsz⟩
      have hfuel : (b.drop k).length < fuel := by
        rw [length_drop]
        omega
      obtain ⟨w', hw', hbt'⟩ := memcpy_between g fuel (b.drop k) _ _ hfuel hbt
      refine ⟨w', hw', ?_⟩
      have hgap : align (b.length - k) 16 - (b.length - k) = align b.length 16 - b.length := by
        unfold align
        omega
      have hst : s ++ (b.take k).map some ++ (Op.memcpy (b.drop k)).stream =
          s ++ (Op.memcpy b).stream := by
        simp only [Op.stream, length_drop, hgap]
        rw [append_assoc, ← append_assoc ((b.take k).map some), ← map_append, List.take_append_drop]
      rwa [hst] at hbt'

/-- STEP: a segment within a stride. -/
theorem writeSeg_on (g : Good sq) (h : Between sq w s) {b : List ℕ}
    (hfit : w.size * 16 % 64 + b.length ≤ 64) : On sq (writeSeg b w) (s ++ b.map some) := by
  have hroom := h.fresh.room g
  have hsize := h.size
  exact h.toOn.snoc g h.fresh (by omega) rfl rfl rfl

/-- STEP: an operation ends, and its bytes are where they belong. -/
theorem runOp_between (g : Good sq) (h : Between sq w s) {o : Op} (hfit : o.fits w.size) :
    ∃ w', runOp sq w o = some w' ∧ Between sq w' (s ++ o.stream) ∧ w'.size = w.size + o.units := by
  have hsize := h.size
  cases o with
  | plain b =>
    obtain ⟨h16, hlt⟩ := hfit
    have hon := writeSeg_on g h hlt.le
    have hsz : (writeSeg b w).size * 16 = (s ++ b.map some).length := by
      rw [length_append, length_map]
      simp only [writeSeg]
      omega
    refine ⟨_, rfl, ⟨hon, ?_, hsz⟩, rfl⟩
    -- the segment ends in front of the edge
    rcases hon.pos with hf | ⟨hdvd, -, -⟩
    · exact hf
    · rw [length_append, length_map] at hdvd
      rcases Nat.eq_zero_or_pos b.length with hz | hpos
      · obtain rfl := List.eq_nil_of_length_eq_zero hz
        have hf := h.fresh
        simpa using ⟨hf.seg, hf.edge⟩
      · omega
  | seg b =>
    obtain ⟨h16, hle⟩ := hfit
    have hon := writeSeg_on g h hle
    have hsz : (w.size + b.length / 16) * 16 = (s ++ b.map some).length := by
      rw [length_append, length_map]
      omega
    obtain ⟨hfr, hs, hwr⟩ := handlePostSendEdge_fresh g hon.pos fun _ => by rw [size_idx hsz]
    exact ⟨_, rfl, ⟨⟨.inl hfr, by rw [hwr]; exact hon.writes⟩, hfr, by rw [hs]; exact hsz⟩, hs⟩
  | memcpy b =>
    obtain ⟨w', hw', hbt⟩ := memcpy_between g (b.length + 1) b w s (Nat.lt_succ_self _) h
    refine ⟨w', hw', hbt, ?_⟩
    have hs' := hbt.size
    simp only [Op.stream, length_append, length_map, length_replicate] at hs'
    simp only [Op.units]
    unfold align at hs'
    unfold divRoundUp
    omega

/-- The bytes of the operations. -/
def streams (ops : List Op) : List (Option ℕ) := ops.flatMap Op.stream

/-- RUN: the operations end, and their bytes are where they belong. -/
theorem runOps_between (g : Good sq) : ∀ (ops : List Op) (w : Wqe) (s : List (Option ℕ)),
    Fits w.size ops → Between sq w s →
    ∃ w', runOps sq ops w = some w' ∧ Between sq w' (s ++ streams ops)
  | [], w, s, _, h => ⟨w, rfl, by simpa [streams] using h⟩
  | o :: ops, w, s, hfit, h => by
    obtain ⟨w₁, hrun, hbt, hsz⟩ := runOp_between g h hfit.1
    have hfit' : Fits w₁.size ops := by
      rw [hsz]
      exact hfit.2
    obtain ⟨w', hrun', hbt'⟩ := runOps_between g ops w₁ _ hfit' hbt
    refine ⟨w', ?_, ?_⟩
    · rw [runOps, hrun, Option.bind_some, hrun']
    · rw [streams, List.flatMap_cons, ← append_assoc]
      exact hbt'

end Ops

section Inline
variable {sq : Sq} {w : Wqe} {s : List (Option ℕ)}

/-- The stride that a size of 32 bits leads to. -/
theorem u32_idx (g : Good sq) {x p : ℕ} (h : x / 4 = p / 64) :
    (sq.curPost + toU 32 (x : ℕ) >>> 2) % sq.wqeCnt = (sq.curPost + p / 64) % sq.wqeCnt := by
  obtain ⟨k, hk⟩ := g.cnt
  have hk16 : k ≤ 16 := by
    have hle := g.le
    rw [hk] at hle
    exact (Nat.pow_le_pow_iff_right (by decide)).mp hle
  have hdvd : sq.wqeCnt ∣ 2 ^ 30 := by
    rw [hk]
    exact Nat.pow_dvd_pow 2 (by omega)
  have hdiv : x % 2 ^ 32 / 4 = x / 4 % 2 ^ 30 := by omega
  rw [toU_eq_mod, Nat.shiftRight_eq_div_pow, Nat.add_mod, show 2 ^ 2 = 4 from rfl, hdiv,
    Nat.mod_mod_of_dvd _ hdvd, ← Nat.add_mod, h]

/-- STEP: the bytes of an entry are copied, and they are where they belong. -/
theorem inlCopy_on (g : Good sq) : ∀ (fuel : ℕ) (src : List ℕ) (w : Wqe) (offset : ℕ)
    (s : List (Option ℕ)), src.length < fuel → On sq w s → w.size * 16 + offset = s.length →
    ∃ w', inlCopy sq fuel src w offset = some (w', offset + src.length) ∧
      On sq w' (s ++ src.map some) ∧ w'.size = w.size
  | fuel, [], w, offset, s, _, h, _ => by
    refine ⟨w, by cases fuel <;> rfl, ?_, rfl⟩
    simpa using h
  | 0, x :: src, _, _, _, hf, _, _ => absurd hf (Nat.not_lt_zero _)
  | fuel + 1, x :: src, w, offset, s, hf, h, hoff => by
    rw [inlCopy]
    case x_4 => exact fun he => by cases he
    set b := x :: src with hb
    have hlen : 0 < b.length := Nat.succ_pos _
    have hidx : 64 ∣ s.length →
        (sq.curPost + toU 32 (w.size + offset >>> 4 : ℕ) >>> 2) % sq.wqeCnt =
          (sq.curPost + s.length / 64) % sq.wqeCnt := by
      intro hd
      refine u32_idx g ?_
      omega
    obtain ⟨hfr, hs, hwr⟩ := handlePostSendEdge_fresh g h.pos hidx
    set w₁ := handlePostSendEdge sq (toU 32 (w.size + offset >>> 4 : ℕ)) w with hw₁
    have hroom := hfr.room g
    set k := min (w₁.curEdge - w₁.seg) b.length with hk
    have htake : (b.take k).length = k := by
      rw [List.length_take]
      omega
    have hon₁ : On sq w₁ s := ⟨.inl hfr, by rw [hwr]; exact h.writes⟩
    have hon₂ : On sq { w₁ with
        seg := w₁.seg + k, writes := w₁.writes ++ bytesAt w₁.seg (b.take k) }
        (s ++ (b.take k).map some) := by
      refine hon₁.snoc g hfr (by omega) ?_ rfl rfl
      rw [htake]
    have hlen₂ : (s ++ (b.take k).map some).length = s.length + k := by
      rw [length_append, length_map, htake]
    have hfuel : (b.drop k).length < fuel := by
      rw [length_drop]
      omega
    obtain ⟨w', hw', hon', hs'⟩ := inlCopy_on g fuel (b.drop k) _ (offset + k) _ hfuel hon₂
      (by rw [hlen₂]; simp only; omega)
    refine ⟨w', ?_, ?_, ?_⟩
    · rw [hw', length_drop]
      congr 2
      omega
    · rw [append_assoc, ← map_append, List.take_append_drop] at hon'
      exact hon'
    · rw [hs']
      exact hs

/-- What `set_data_inl_seg` makes of the lengths: `inl`, or an error. -/
def inlAcc (maxInlineData : ℤ) : List ℕ → ℤ → Option ℤ
  | [], inl => some inl
  | len :: l, inl =>
    let inl := toInt (inl + len)
    if inl > maxInlineData then none else inlAcc maxInlineData l inl

/-- The loop over the entries: it copies all of them, or it stops at one. -/
theorem inlLoop_on (g : Good sq) {m : ℤ} : ∀ (sgs : List (List ℕ)) (w : Wqe) (offset : ℕ) (inl : ℤ)
    (s : List (Option ℕ)), On sq w s → w.size * 16 + offset = s.length →
    ∃ e w' off inl', inlLoop sq m sgs w offset inl = some (e, w', off, inl') ∧ w'.size = w.size ∧
      ((e = none ∧ inlAcc m (sgs.map length) inl = some inl' ∧
          On sq w' (s ++ sgs.flatten.map some)) ∨
        e = some .enomem ∧ inlAcc m (sgs.map length) inl = none ∧
          ∃ k, On sq w' (s ++ (sgs.take k).flatten.map some))
  | [], w, offset, inl, s, h, _ =>
    ⟨none, w, offset, inl, rfl, rfl, .inl ⟨rfl, rfl, by simpa using h⟩⟩
  | data :: sgs, w, offset, inl, s, h, hoff => by
    rw [inlLoop, map_cons, inlAcc]
    by_cases hm : toInt (inl + data.length) > m
    · simp only [if_pos hm]
      exact ⟨_, _, _, _, rfl, rfl, .inr ⟨rfl, by simp, 0, by simpa using h⟩⟩
    · simp only [if_neg hm]
      obtain ⟨w₁, hcopy, hon₁, hs₁⟩ := inlCopy_on g (data.length + 1) data w offset s
        (Nat.lt_succ_self _) h hoff
      rw [hcopy]
      simp only
      obtain ⟨e, w', off, inl', hloop, hs', hor⟩ := inlLoop_on g sgs w₁ (offset + data.length)
        (toInt (inl + data.length)) _ hon₁ (by
          rw [hs₁, length_append, length_map]
          omega)
      refine ⟨e, w', off, inl', hloop, hs'.trans hs₁, ?_⟩
      rcases hor with ⟨he, hacc, hon⟩ | ⟨he, hacc, k, hon⟩
      · refine .inl ⟨he, hacc, ?_⟩
        rwa [flatten_cons, map_append, ← append_assoc]
      · refine .inr ⟨he, hacc, k + 1, ?_⟩
        rwa [List.take_succ_cons, flatten_cons, map_append, ← append_assoc]

/-- `inl` is the sum of the lengths as an `int`. -/
theorem inlAcc_some {m : ℤ} : ∀ (l : List ℕ) (inl r : ℤ), toInt inl = inl →
    inlAcc m l inl = some r → r = toInt (inl + l.sum)
  | [], inl, r, hi, h => by
    obtain rfl := Option.some.inj h
    simpa using hi.symm
  | len :: l, inl, r, hi, h => by
    rw [inlAcc] at h
    split_ifs at h with hm
    have hidem : toInt (toInt (inl + len)) = toInt (inl + len) := by
      unfold toInt
      omega
    have hrec := inlAcc_some l _ r hidem h
    rw [hrec, sum_cons]
    unfold toInt
    push_cast
    omega

theorem toU_toInt (n : ℤ) : toU 32 (toInt n) = toU 32 n := by
  unfold toU toInt
  omega

/-- STEP: what `set_data_inl_seg` does. -/
theorem setDataInlSeg_spec (g : Good sq) (h : Between sq w s) (m : ℤ) (sgs : List (List ℕ)) :
    ∃ e w', setDataInlSeg sq m sgs w = some (e, w') ∧
      ((e = none ∧ inlAcc m (sgs.map length) 0 = some (toInt sgs.flatten.length) ∧
          At sq w' (s.length + 4 + sgs.flatten.length) ∧
          w'.writes = laid sq 0 (s ++ replicate 4 none ++ sgs.flatten.map some) ++
            laid sq s.length ((be32 (toU 32 sgs.flatten.length ||| MLX5_INLINE_SEG)).map some) ∧
          w'.size = toU 32
            (w.size + align (toU 64 (toInt sgs.flatten.length + 4)) 16 / 16 : ℕ)) ∨
        e = some .enomem ∧ inlAcc m (sgs.map length) 0 = none ∧
          ∃ k, On sq w' (s ++ replicate 4 none ++ (sgs.take k).flatten.map some)) := by
  have hroom := h.fresh.room g
  have hsize := h.size
  have hat : At sq { w with seg := w.seg + 4 } (s.length + 4) :=
    h.fresh.advance g (by omega) rfl rfl
  have hgap : On sq { w with seg := w.seg + 4 } (s ++ replicate 4 none) :=
    h.toOn.gap 4 hat rfl
  obtain ⟨e, w', off, inl', hloop, hs', hor⟩ := inlLoop_on g sgs _ 4 0 _ hgap
    (m := m) (by simp only [length_append, length_replicate]; omega)
  have hhdr : ∀ n, bytesAt w.seg (be32 n) = laid sq s.length ((be32 n).map some) := fun n =>
    h.fresh.bytes g (by simp only [be32, length_cons, length_nil]; omega)
  unfold setDataInlSeg
  rw [hloop]
  rcases hor with ⟨rfl, hacc, hon⟩ | ⟨rfl, hacc, k, hon⟩
  · have hinl := inlAcc_some _ 0 inl' rfl hacc
    rw [Int.zero_add, ← List.length_flatten] at hinl
    have hu : toU 32 inl' = toU 32 sgs.flatten.length := by
      rw [hinl, toU_toInt]
    refine ⟨none, _, rfl, .inl ⟨rfl, by rw [hacc, hinl], ?_, ?_, ?_⟩⟩
    · have hpos := hon.pos
      simp only [length_append, length_map] at hpos
      exact hpos.imp (fun h => ⟨h.seg, h.edge⟩) id
    · simp only [hon.writes, hu, hhdr]
    · simp only [hs', hinl]
  · exact ⟨_, _, rfl, .inr ⟨rfl, hacc, k, hon⟩⟩

end Inline

section Finish
variable {sq : Sq} {w : Wqe} {p : ℕ} {s : List (Option ℕ)}

/-- STEP: the data pointers are where they belong; the last may end at the edge. -/
theorem dataPtrLoop_on (g : Good sq) : ∀ (sgs : List (Option (List ℕ))) (w : Wqe)
    (s : List (Option ℕ)), (∀ b, some b ∈ sgs → b.length = 16) → On sq w s →
    w.size * 16 = s.length →
    On sq (dataPtrLoop sq sgs w) (s ++ (sgs.filterMap id).flatten.map some) ∧
      (dataPtrLoop sq sgs w).size * 16 = (s ++ (sgs.filterMap id).flatten.map some).length
  | [], w, s, _, h, hs => by simpa using ⟨h, hs⟩
  | none :: sgs, w, s, hwf, h, hs => by
    obtain ⟨hfr, hsz, hwr⟩ := handlePostSendEdge_fresh g h.pos fun _ => by rw [size_idx hs]
    have hon : On sq (handlePostSendEdge sq w.size w) s := ⟨.inl hfr, by rw [hwr]; exact h.writes⟩
    have hrec := dataPtrLoop_on g sgs _ s (fun b hb => hwf b (List.mem_cons_of_mem _ hb)) hon
      (by rw [hsz]; exact hs)
    simpa [dataPtrLoop] using hrec
  | some b :: sgs, w, s, hwf, h, hs => by
    obtain ⟨hfr, hsz, hwr⟩ := handlePostSendEdge_fresh g h.pos fun _ => by rw [size_idx hs]
    have hb : b.length = 16 := hwf b List.mem_cons_self
    have hroom := hfr.room g
    have hon : On sq (handlePostSendEdge sq w.size w) s := ⟨.inl hfr, by rw [hwr]; exact h.writes⟩
    have hon' : On sq { handlePostSendEdge sq w.size w with
        size := (handlePostSendEdge sq w.size w).size + 1,
        seg := (handlePostSendEdge sq w.size w).seg + 16,
        writes := (handlePostSendEdge sq w.size w).writes ++
          bytesAt (handlePostSendEdge sq w.size w).seg b } (s ++ b.map some) :=
      hon.snoc g hfr (by omega) (by rw [hb]) rfl rfl
    have hrec := dataPtrLoop_on g sgs _ _ (fun b hb => hwf b (List.mem_cons_of_mem _ hb)) hon'
      (by simp only [length_append, length_map]; omega)
    rw [dataPtrLoop, List.filterMap_cons_some (by rfl : id (some b) = some b), flatten_cons,
      map_append, ← append_assoc]
    exact hrec

/-- STEP: `mlx5r_finish_wqe` keeps the edge of the fragment of the next WQE. -/
theorem finish_edge (g : Good sq) (h : At sq w p) (hsize : w.size * 16 = align p 16)
    (hle : w.size < 256) :
    (mlx5rFinishWqe sq w).curPost = toU 16 (sq.curPost + divRoundUp p 64 : ℕ) ∧
      (mlx5rFinishWqe sq w).curEdge = edge (mlx5rFinishWqe sq w) 0 := by
  have hu : toU 8 w.size = w.size := toU_of_lt hle
  have hq : divRoundUp (w.size * 16) MLX5_SEND_WQE_BB = divRoundUp p 64 := by
    rw [hsize]
    unfold divRoundUp align MLX5_SEND_WQE_BB
    omega
  have hpost : (mlx5rFinishWqe sq w).curPost = toU 16 (sq.curPost + divRoundUp p 64 : ℕ) := by
    unfold mlx5rFinishWqe
    simp only [hu, hq]
  refine ⟨hpost, ?_⟩
  have hdvd : sq.wqeCnt ∣ 2 ^ 16 := by
    obtain ⟨k, hk⟩ := g.cnt
    have hle := g.le
    rw [hk] at hle ⊢
    exact Nat.pow_dvd_pow 2 ((Nat.pow_le_pow_iff_right (by decide)).mp hle)
  have hmod : toU 16 (sq.curPost + divRoundUp p 64 : ℕ) % sq.wqeCnt =
      (sq.curPost + divRoundUp p 64) % sq.wqeCnt := by
    rw [toU_eq_mod, Nat.mod_mod_of_dvd _ hdvd]
  have hnew : edge (mlx5rFinishWqe sq w) 0 =
      getSqEdge sq ((sq.curPost + divRoundUp p 64) % sq.wqeCnt) := by
    unfold edge
    rw [hpost, Nat.zero_div, Nat.add_zero]
    change getSqEdge sq (_ % sq.wqeCnt) = _
    rw [hmod]
  have hedge : (mlx5rFinishWqe sq w).curEdge = if ptrAlign w.seg = w.curEdge then
        getSqEdge sq ((sq.curPost + divRoundUp p 64) % sq.wqeCnt) else w.curEdge := by
    unfold mlx5rFinishWqe
    simp only [hu, hq, and_mask g, hmod]
    rfl
  rw [hedge, hnew]
  split_ifs with he
  · rfl
  · rcases h with hf | ⟨-, hmeet, h64⟩
    · -- the rest of the stride is in front of the edge
      obtain ⟨hlt, hed, hroom, -, hall⟩ := slot_add g p
      have haddr : 64 ∣ slot sq p - p % 64 := by
        unfold slot
        rw [Nat.add_sub_cancel, getWqe_eq g (Nat.mod_lt _ (wqeCnt_pos g))]
        exact Nat.dvd_add (g.aligned _) (Nat.dvd_mul_left 64 _)
      have hge : p % 64 ≤ slot sq p := Nat.le_add_left _ _
      have hd : divRoundUp p 64 * 64 = p + (64 - p % 64) % 64 := by
        unfold divRoundUp
        omega
      set n := (64 - p % 64) % 64 with hn
      have hptr : ptrAlign w.seg = slot sq p + n := by
        unfold ptrAlign align MLX5_SEND_WQE_BB
        rw [hf.seg]
        omega
      rw [hptr, hf.edge] at he
      obtain ⟨-, hsame⟩ := hall n (by omega)
      have hdiv : (p + n) / 64 = divRoundUp p 64 := by omega
      rw [hf.edge, ← hsame]
      unfold edge
      rw [hdiv]
    · refine absurd ?_ he
      unfold ptrAlign align MLX5_SEND_WQE_BB
      omega

/-- STEP: a WQE begins where the last one ended. -/
theorem begin_between (g : Good sq) (he : sq.curEdge = edge sq 0) {ctrl : List ℕ}
    (hc : ctrl.length = 16) : Between sq (mlx5rBeginWqe sq ctrl) (ctrl.map some) := by
  have hslot : slot sq 0 = mlx5FragBufGetWqe sq.fbc (sq.curPost &&& (sq.wqeCnt - 1)) := by
    rw [and_mask g]
    rfl
  have hf : Fresh sq ⟨slot sq 0, 0, sq.curEdge, []⟩ 0 := ⟨rfl, he⟩
  have hon : On sq ⟨slot sq 0, 0, sq.curEdge, []⟩ [] := ⟨.inl hf, rfl⟩
  have hroom := hf.room g
  have hbegin : mlx5rBeginWqe sq ctrl =
      ⟨slot sq 0 + 16, 1, sq.curEdge, bytesAt (slot sq 0) ctrl⟩ := by
    rw [hslot]
    rfl
  have hon' : On sq (mlx5rBeginWqe sq ctrl) ([] ++ ctrl.map some) := by
    rw [hbegin]
    exact hon.snoc g hf (by simp only at hroom ⊢; omega) (by rw [hc]) rfl (nil_append _).symm
  rw [nil_append] at hon'
  refine ⟨hon', ?_, ?_⟩
  · rcases hon'.pos with hf | ⟨hdvd, -, -⟩
    · exact hf
    · rw [length_map, hc] at hdvd
      omega
  · rw [length_map, hc]
    rfl

/-- What is written is where it belongs, in front of the edge. -/
theorem mem_laid (g : Good sq) : ∀ (l : List (Option ℕ)) (p : ℕ) {x : ℕ × ℕ}, x ∈ laid sq p l →
    ∃ b, x.1 = slot sq b ∧ slot sq b < edge sq b
  | [], _, x, h => by cases h
  | none :: l, p, x, h => mem_laid g l (p + 1) h
  | some y :: l, p, x, h => by
    rcases mem_cons.mp h with rfl | h
    · exact ⟨p, rfl, (slot_add g p).1⟩
    · exact mem_laid g l (p + 1) h

/-- The size of a WQE that ends with inline data. -/
theorem inline_size {a p n : ℕ} (ha : a * 16 = p) :
    (a + align (n + 4) 16 / 16) * 16 = align (p + 4 + n) 16 := by
  unfold align
  omega

theorem align_le {a n : ℕ} (h : align n 16 = a * 16) (hn : n ≤ 255 * 16) : a < 256 := by
  unfold align at h
  omega

/-- CORRECT: a WQE whose writing starts with the edge of its first stride is written to the end;
    each byte goes where it belongs, in front of the edge; and where the WQE has at most 255 times
    16 bytes, the edge that is kept is that of the next WQE. -/
theorem wqe_edges (g : Good sq) (he : sq.curEdge = edge sq 0) {ctrl : List ℕ}
    (hc : ctrl.length = 16) {ops : List Op} (hf : Fits 1 ops) {t : Tail} (ht : t.wf) :
    ∃ w e w', runOps sq ops (mlx5rBeginWqe sq ctrl) = some w ∧ runTail sq w t = some (e, w') ∧
      (∀ x ∈ w'.writes, ∃ b, x.1 = slot sq b ∧ slot sq b < edge sq b) ∧
      (e = none → w'.writes.Perm (laid sq 0 (ctrl.map some ++ streams ops ++ t.stream)) ∧
        ((ctrl.map some ++ streams ops ++ t.stream).length ≤ 255 * 16 →
          (mlx5rFinishWqe sq w').curPost = toU 16 (sq.curPost +
            divRoundUp (ctrl.map some ++ streams ops ++ t.stream).length 64 : ℕ) ∧
          (mlx5rFinishWqe sq w').curEdge = edge (mlx5rFinishWqe sq w') 0)) := by
  obtain ⟨w, hrun, hbt⟩ := runOps_between g ops _ _ hf (begin_between g he hc)
  set s := ctrl.map some ++ streams ops with hs
  have hsize := hbt.size
  cases t with
  | ptrs sgs =>
    obtain ⟨hon, hsz⟩ := dataPtrLoop_on g sgs w s ht hbt.toOn hsize
    have hst : (Tail.ptrs sgs).stream = (sgs.filterMap id).flatten.map some := rfl
    refine ⟨w, none, _, hrun, rfl, fun x hx => ?_, fun _ => ⟨?_, fun hle => ?_⟩⟩
    · rw [hon.writes] at hx
      exact mem_laid g _ 0 hx
    · rw [hon.writes, hst]
    · rw [hst] at hle ⊢
      refine finish_edge g hon.pos ?_ (by omega)
      unfold align
      omega
  | inl m sgs =>
    obtain ⟨e, w', hset, ⟨rfl, -, hat, hwr, hsz⟩ | ⟨rfl, -, k, hon⟩⟩ :=
      setDataInlSeg_spec g hbt m sgs
    · have hperm : w'.writes.Perm (laid sq 0 (s ++ (Tail.inl m sgs).stream)) := by
        rw [hwr]
        simp only [laid_append, laid_gap, nil_append, Nat.zero_add,
          append_assoc]
        exact List.Perm.append_left _ List.perm_append_comm
      have hlen : (s ++ (Tail.inl m sgs).stream).length = s.length + 4 + sgs.flatten.length := by
        simp only [Tail.stream, be32, length_append, length_map, length_cons,
          length_nil]
        omega
      refine ⟨w, none, w', hrun, hset, fun x hx => ?_, fun _ => ⟨hperm, fun hle => ?_⟩⟩
      · exact mem_laid g _ 0 (hperm.mem_iff.mp hx)
      · rw [hlen] at hle ⊢
        have hunits := inline_size (n := sgs.flatten.length) hsize
        have hsmall := align_le hunits.symm hle
        have hlt : sgs.flatten.length + 4 < 4096 := by omega
        have hint : toInt sgs.flatten.length = sgs.flatten.length :=
          toInt_of_lt ((Nat.lt_of_le_of_lt (Nat.le_add_right _ 4) hlt).trans (by decide))
        have hu : toU 64 ((sgs.flatten.length : ℤ) + 4) = sgs.flatten.length + 4 :=
          toU_of_lt (n := sgs.flatten.length + 4) (hlt.trans (by decide))
        rw [hint, hu, toU_of_lt (hsmall.trans (by decide))] at hsz
        refine finish_edge g hat ?_ ?_
        · rw [hsz]
          exact hunits
        · rw [hsz]
          exact hsmall
    · refine ⟨w, _, w', hrun, hset, fun x hx => ?_, fun h => by cases h⟩
      rw [hon.writes] at hx
      exact mem_laid g _ 0 hx

end Finish

/-- A send queue whose fragments have gaps between them. -/
def gapped (cnt post : ℕ) : Sq :=
  ⟨⟨fun f => f * 8192, cnt - 1, 6, 0⟩, cnt, post, post / 64 * 8192 + 4096⟩

theorem gapped_good {k post : ℕ} (hk : k ≤ 16) : Good (gapped (2 ^ k) post) :=
  ⟨⟨k, rfl⟩, Nat.pow_le_pow_right (by decide) hk, rfl, Nat.two_pow_pos 16,
    fun f => Nat.dvd_trans (by decide : 64 ∣ 8192) (Nat.dvd_mul_left 8192 f)⟩

/-- Two data pointers behind a datagram segment, at the end of a fragment. -/
theorem wqe_edges_demo : ∃ w e w', runOps (gapped 128 63) [.seg (replicate 48 7)]
      (mlx5rBeginWqe (gapped 128 63) (replicate 16 1)) = some w ∧
    runTail (gapped 128 63) w (.ptrs [some (replicate 16 2), none,
      some (replicate 16 3)]) = some (e, w') ∧ e = none ∧
    (mlx5rFinishWqe (gapped 128 63) w').curEdge = 8192 + 4096 := by
  have hfits : Fits 1 [.seg (replicate 48 7)] := ⟨⟨by decide, by decide⟩, trivial⟩
  have hwf : (Tail.ptrs [some (replicate 16 2), none, some (replicate 16 3)]).wf := by
    intro b hb
    simp only [mem_cons, Option.some.injEq, reduceCtorEq, List.not_mem_nil, or_false,
      false_or] at hb
    rcases hb with rfl | rfl
    · exact length_replicate
    · exact length_replicate
  have hgood : Good (gapped 128 63) := gapped_good (k := 7) (by decide)
  have h := wqe_edges hgood (by decide +kernel) (length_replicate (n := 16) (a := 1)) hfits hwf
  obtain ⟨w, e, w', hrun, htail, -, hfin⟩ := h
  obtain rfl : none = e := (Prod.mk.inj (Option.some.inj htail)).1
  obtain ⟨hpost, hedge⟩ := (hfin rfl).2 (by decide +kernel)
  refine ⟨w, none, w', hrun, htail, rfl, ?_⟩
  rw [hedge]
  unfold edge
  rw [hpost]
  change getSqEdge (gapped 128 63) (_ % 128) = _
  decide +kernel

/-- The edge that is left by a WQE of one `memcpy`. -/
def leftEdge (sq : Sq) (bytes : List ℕ) : Option (ℕ × ℕ) :=
  (runOps sq [.memcpy bytes] (mlx5rBeginWqe sq (replicate 16 1))).map fun w =>
    ((mlx5rFinishWqe sq w).curEdge, edge (mlx5rFinishWqe sq w) 0)

/-- BROKEN: the size of a WQE of 256 times 16 bytes is 0 as an `u8`, and in a queue of 2 ^ 17
    strides the position wraps as an `u16`; the edge that is kept is not that of the next WQE. -/
theorem wqe_edges_broken :
    (Good (gapped 128 0) ∧ (gapped 128 0).curEdge = edge (gapped 128 0) 0 ∧
      ∃ a b, leftEdge (gapped 128 0) (replicate 4080 0) = some (a, b) ∧ a ≠ b) ∧
    (gapped (2 ^ 17) 65535).curEdge = edge (gapped (2 ^ 17) 65535) 0 ∧
      ∃ a b, leftEdge (gapped (2 ^ 17) 65535) (replicate 48 0) = some (a, b) ∧ a ≠ b := by
  refine ⟨⟨gapped_good (k := 7) (by decide), by decide +kernel, 12288, 4096, by decide +kernel,
    by decide⟩, by decide +kernel, 8392704, 4096, by decide +kernel, by decide⟩

section Bound
variable {sq : Sq} {w : Wqe} {s : List (Option ℕ)} {m : ℤ} {sgs : List (List ℕ)}

/-- What inline data is meant to be: where it is accepted, the sum of the lengths is within the
    limit, the bytes of the entries are copied and no others, the header has the sum, and the size
    grows by the units of the data and its header. -/
def Bounded (sq : Sq) (w : Wqe) (m : ℤ) (sgs : List (List ℕ)) : Prop :=
  ∀ w', setDataInlSeg sq m sgs w = some (none, w') → ((sgs.map length).sum : ℤ) ≤ m ∧
    (∃ copied, w'.writes = w.writes ++ copied ++
        bytesAt w.seg (be32 ((sgs.map length).sum ||| MLX5_INLINE_SEG)) ∧
      copied.map Prod.snd = sgs.flatten) ∧
    w'.size = toU 32 (w.size + divRoundUp ((sgs.map length).sum + 4) 16 : ℕ)

theorem toInt_le_of_sum {n : ℕ} (hm : m < 2 ^ 31) (h : (n : ℤ) ≤ m) : toInt n = n := by
  unfold toInt
  omega

/-- An error comes with the first sum of entries that is above the limit as an `int`. -/
theorem inlAcc_none : ∀ (l : List ℕ) (inl : ℤ), toInt inl = inl →
    (inlAcc m l inl = none ↔ ∃ n < l.length, toInt (inl + (l.take (n + 1)).sum) > m)
  | [], inl, _ => by simp [inlAcc]
  | len :: l, inl, hi => by
    have hidem : toInt (toInt (inl + len)) = toInt (inl + len) := by
      unfold toInt
      omega
    have hadd : ∀ n : ℕ, toInt (toInt (inl + len) + n) = toInt (inl + (len + n : ℕ)) := fun n => by
      unfold toInt
      push_cast
      omega
    rw [inlAcc]
    by_cases hm : toInt (inl + len) > m
    · simp only [if_pos hm, true_iff]
      exact ⟨0, by simp, by simpa using hm⟩
    · simp only [if_neg hm]
      rw [inlAcc_none l _ hidem]
      constructor
      · rintro ⟨n, hn, hgt⟩
        refine ⟨n + 1, Nat.succ_lt_succ hn, ?_⟩
        rwa [List.take_succ_cons, sum_cons, ← hadd]
      · rintro ⟨n, hn, hgt⟩
        rcases n with - | n
        · exact absurd (by simpa using hgt) hm
        · refine ⟨n, Nat.lt_of_succ_lt_succ hn, ?_⟩
          rw [List.take_succ_cons, sum_cons, ← hadd] at hgt
          exact hgt

theorem laid_snd : ∀ (b : List ℕ) (p : ℕ), (laid sq p (b.map some)).map Prod.snd = b
  | [], _ => rfl
  | x :: b, p => by rw [map_cons, laid, map_cons, laid_snd b (p + 1)]

/-- CORRECT: inline data is bounded exactly when the sum of the lengths is within the limit, or some
    of the first entries have a sum that, as an `int`, is above it. -/
theorem set_data_inl_seg_bounded_iff (g : Good sq) (h : Between sq w s) (hm : m < 2 ^ 31) :
    Bounded sq w m sgs ↔ ((sgs.map length).sum : ℤ) ≤ m ∨
      ∃ n < sgs.length, toInt (((sgs.map length).take (n + 1)).sum : ℕ) > m := by
  have hnone := inlAcc_none (m := m) (sgs.map length) 0 rfl
  simp only [length_map, Int.zero_add] at hnone
  have hlen : sgs.flatten.length = (sgs.map length).sum := List.length_flatten
  have hroom := h.fresh.room g
  have hsize := h.size
  obtain ⟨e, w', hset, ⟨rfl, hacc, -, hwr, hsz⟩ | ⟨rfl, hacc, -⟩⟩ := setDataInlSeg_spec g h m sgs
  · have hno : ¬∃ n < sgs.length, toInt (((sgs.map length).take (n + 1)).sum : ℕ) > m := by
      rw [← hnone, hacc]
      simp
    rw [or_iff_left hno]
    refine ⟨fun hb => (hb w' hset).1, fun hle w'' hset' => ?_⟩
    rw [hset] at hset'
    obtain rfl := (Prod.mk.inj (Option.some.inj hset')).2
    have hint : toInt sgs.flatten.length = sgs.flatten.length := by
      rw [hlen]
      exact toInt_le_of_sum hm hle
    have hlt : sgs.flatten.length < 2 ^ 31 := by
      omega
    refine ⟨hle, ⟨laid sq (s.length + 4) (sgs.flatten.map some), ?_, laid_snd _ _⟩, ?_⟩
    · have hu : toU 32 sgs.flatten.length = (sgs.map length).sum := by
        rw [toU_of_lt (hlt.trans (by decide)), hlen]
      rw [hwr, h.writes, laid_append, laid_append, laid_gap, append_nil, Nat.zero_add, hu]
      rw [h.fresh.bytes g (by simp only [be32, length_cons, length_nil]; omega)]
      simp only [length_append, length_replicate]
    · have hu : toU 64 ((sgs.flatten.length : ℤ) + 4) = sgs.flatten.length + 4 := by
        have hlt' : sgs.flatten.length + 4 < 2 ^ 64 := by omega
        exact toU_of_lt (n := sgs.flatten.length + 4) hlt'
      have hun : align (sgs.flatten.length + 4) 16 / 16 =
          divRoundUp ((sgs.map length).sum + 4) 16 := by
        unfold align divRoundUp
        omega
      rw [hsz, hint, hu, hun]
  · have hyes := hnone.mp hacc
    refine iff_of_true (fun w'' hset' => ?_) (.inr hyes)
    rw [hset] at hset'
    cases hset'

theorem begin_demo : Between (gapped 128 63) (mlx5rBeginWqe (gapped 128 63) (replicate 16 1))
    ((replicate 16 1).map some) :=
  begin_between (gapped_good (k := 7) (by decide)) (by decide +kernel) length_replicate

theorem set_data_inl_seg_bounded_demo : Bounded (gapped 128 63)
    (mlx5rBeginWqe (gapped 128 63) (replicate 16 1)) 200 [[1, 2, 3], replicate 100 4] :=
  (set_data_inl_seg_bounded_iff (gapped_good (k := 7) (by decide)) begin_demo (by decide)).mpr
    (.inl (by decide))

/-- BROKEN: an entry of 2 ^ 31 bytes is below every limit as an `int`. -/
theorem set_data_inl_seg_bounded_broken : ¬Bounded (gapped 128 63)
    (mlx5rBeginWqe (gapped 128 63) (replicate 16 1)) 200 [replicate (2 ^ 31) 0] := by
  intro hb
  have hsum : ([replicate (2 ^ 31) 0].map length).sum = 2 ^ 31 := by
    rw [List.map_singleton, List.sum_singleton, length_replicate]
  obtain ⟨e, w', hset, ⟨rfl, -⟩ | ⟨-, hacc, -⟩⟩ := setDataInlSeg_spec
    (gapped_good (k := 7) (by decide)) begin_demo 200 [replicate (2 ^ 31) 0]
  · have hle := (hb w' hset).1
    rw [hsum] at hle
    exact absurd hle (by decide)
  · rw [List.map_singleton, length_replicate, inlAcc, inlAcc] at hacc
    revert hacc
    decide

end Bound

end RdmaDriver.SqEdge
