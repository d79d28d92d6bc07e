import Mathlib.Data.Int.ModEq
import Mathlib.Data.Nat.Bitwise
import Mathlib.Tactic.FinCases
import RdmaDriver.Core.SgToPages

/-! @src drivers/infiniband/hw/mlx5/mr.c | name:PI map | scheme:segments | family:translation

    `mlx5_ib_map_mr_sg_pi` describes a data list and a metadata list to the device, in one of three
    ways that it tries in turn: physical addresses for lists of one element, a page list (MTT), a
    list of addresses and lengths (KLM). The start offsets are in/out parameters of every attempt.

        PA   data_iova --> memory            pi_iova --> memory
        MTT  [ data pages ][ meta pages ]    pi_iova behind the data pages
        KLM  [ data bytes ][ meta bytes ]    pi_iova = data_length -/

namespace RdmaDriver.Mlx5Pi
open Schemes SgPages Function
open List (length_cons range)

/-- `struct mlx5_klm`. -/
structure Klm where
  va : ℕ
  bcount : ℕ
  key : ℕ
  deriving DecidableEq

/-- The part of `struct mlx5_ib_mr` that the mapping of an internal MR uses, with descriptors in
    `δ`: page addresses or KLMs. -/
structure Mr (δ : Type) where
  iova : ℕ
  length : ℕ
  pageSize : ℕ
  ndescs : ℕ
  metaNdescs : ℕ
  maxDescs : ℕ
  descs : ℕ → δ
  dataIova : ℕ
  piIova : ℕ
  dataLength : ℤ
  metaLength : ℤ

/-- Which internal MR `pi_mr` points to. -/
inductive PiMr where | mtt | klm
  deriving DecidableEq

/-- An integrity MR: its own description, its two internal MRs and `sig_attrs->meta_length`. -/
structure SigMr where
  iova : ℕ
  length : ℕ
  pageSize : ℕ
  ndescs : ℕ
  metaNdescs : ℕ
  dataIova : ℕ
  piIova : ℕ
  dataLength : ℤ
  metaLength : ℤ
  localDmaLkey : ℕ
  mttMr : Mr ℕ
  klmMr : Mr Klm
  piMr : Option PiMr
  sigMetaLength : ℤ

/-! ### Physical addresses -/

/-- The data part of `mlx5_ib_map_pa_mr_sg_pi`. -/
def mapPaData (mr : SigMr) (d : Seg) (sgOffset : ℕ) : SigMr :=
  { mr with
    ndescs := 1
    dataLength := toInt (toU 32 ((d.len : ℤ) - sgOffset))
    dataIova := toU 64 (d.addr + sgOffset : ℕ) }

/-- The metadata part of `mlx5_ib_map_pa_mr_sg_pi`. -/
def mapPaMeta (mr : SigMr) (m : Seg) (sgOffset : ℕ) : SigMr :=
  { mr with
    metaNdescs := 1
    metaLength := toInt (toU 32 ((m.len : ℤ) - sgOffset))
    piIova := toU 64 (m.addr + sgOffset : ℕ) }

/-- `ibmr->length = mr->data_length + mr->meta_length`, a sum of two `int`s. -/
def setLength (mr : SigMr) : SigMr :=
  { mr with length := toU 64 (toInt (mr.dataLength + mr.metaLength)) }

/-- `mlx5_ib_map_pa_mr_sg_pi`. -/
def mapPaMrSgPi (mr : SigMr) (dataSg : List Seg) (dataSgOffset : Option ℕ) (metaSg : List Seg)
    (metaSgOffset : Option ℕ) : SigMr × ℤ :=
  let mr := { mr with metaLength := 0 }
  match dataSg, metaSg with
  | [d], [m] =>
    (setLength (mapPaMeta (mapPaData mr d (dataSgOffset.getD 0)) m (metaSgOffset.getD 0)), 2)
  | [d], _ => (setLength (mapPaData mr d (dataSgOffset.getD 0)), 1)
  | _, _ => (mr, 0)

/-! ### Pages -/

/-- `MLX5_EN_RD | MLX5_EN_WR`. -/
def EN_RD_WR : ℕ := 3

/-- `mlx5_set_page`. -/
def setPage (mr : Mr ℕ) (addr : ℕ) : Option (Mr ℕ) :=
  if mr.ndescs = mr.maxDescs then none
  else some { mr with
    descs := update mr.descs mr.ndescs (addr ||| EN_RD_WR), ndescs := mr.ndescs + 1 }

/-- `mlx5_set_page_pi`. -/
def setPagePi (mr : Mr ℕ) (addr : ℕ) : Option (Mr ℕ) :=
  if mr.ndescs + mr.metaNdescs = mr.maxDescs then none
  else some { mr with
    descs := update mr.descs (mr.ndescs + mr.metaNdescs) (addr ||| EN_RD_WR)
    metaNdescs := mr.metaNdescs + 1 }

/-- The MR and the offsets as an attempt leaves them, and its return value. -/
structure Attempt where
  mr : SigMr
  dataSgOffset : Option ℕ
  metaSgOffset : Option ℕ
  n : ℤ

/-- The MTT MR as `mlx5_ib_map_mtt_mr_sg_pi` clears it. -/
def clearedMtt (mr : SigMr) : Mr ℕ :=
  { mr.mttMr with ndescs := 0, metaNdescs := 0, metaLength := 0, pageSize := mr.pageSize }

/-- The MTT MR when its data is mapped. -/
def mappedData (piMr : Mr ℕ) (iova length : ℕ) : Mr ℕ :=
  { piMr with
    iova := iova, dataIova := iova, dataLength := toInt length, length := toU 64 (toInt length) }

/-- `mlx5_ib_map_mtt_mr_sg_pi` for the metadata, behind `n` elements of data. -/
def mapMttMeta (mr : SigMr) (piMr : Mr ℕ) (dataSgOffset : Option ℕ) (metaSg : List Seg)
    (metaSgOffset : Option ℕ) (n : ℤ) : Attempt :=
  let pageSize := mr.pageSize
  let iova := piMr.dataIova
  let (metaIova, m, metaSgOffset) := ibSgToPages setPagePi pageSize (piMr.maxDescs + 1)
    piMr.iova piMr.length piMr metaSg metaSgOffset
  let metaLength := toInt m.length
  let piIova := toU 64 (iova / pageSize * pageSize + toU 32 (m.mr.ndescs * pageSize : ℕ) +
    metaIova % pageSize : ℕ)
  let piMr := { m.mr with
    metaLength := metaLength, piIova := piIova, iova := iova
    length := toU 64 (piIova + metaLength - iova) }
  ⟨{ mr with mttMr := piMr, length := toU 64 (mr.length + metaLength) },
    dataSgOffset, metaSgOffset, n + m.n⟩

/-- `mlx5_ib_map_mtt_mr_sg_pi`. -/
def mapMttMrSgPi (mr : SigMr) (dataSg : List Seg) (dataSgOffset : Option ℕ)
    (metaSg : List Seg) (metaSgOffset : Option ℕ) : Attempt :=
  let piMr := clearedMtt mr
  let (iova, m, dataSgOffset) := ibSgToPages setPage mr.pageSize (piMr.maxDescs + 1)
    piMr.iova piMr.length piMr dataSg dataSgOffset
  if m.n ≠ dataSg.length then
    let piMr := { m.mr with iova := iova, length := m.length }
    ⟨{ mr with mttMr := piMr }, dataSgOffset, metaSgOffset, m.n⟩
  else
    let piMr := mappedData m.mr iova m.length
    let mr := { mr with mttMr := piMr, length := toU 64 piMr.dataLength }
    if metaSg = [] then ⟨mr, dataSgOffset, metaSgOffset, m.n⟩
    else mapMttMeta mr piMr dataSgOffset metaSg metaSgOffset m.n

/-! ### Addresses and lengths -/

/-- Write one descriptor and count its bytes. -/
def addKlm (mr : Mr Klm) (i : ℕ) (klm : Klm) : Mr Klm :=
  { mr with
    descs := update mr.descs i klm, length := toU 64 (mr.length + klm.bcount : ℕ) }

/-- A loop of `mlx5_ib_sg_to_klms`, from descriptor `i` on. -/
def klmLoop (lkey : ℕ) : List Seg → ℕ → ℕ → Mr Klm → Mr Klm × ℕ × ℕ
  | [], i, sgOffset, mr => (mr, i, sgOffset)
  | sg :: sgl, i, sgOffset, mr =>
    if i ≥ mr.maxDescs then (mr, i, sgOffset)
    else
      klmLoop lkey sgl (i + 1) 0 (addKlm mr i
        ⟨toU 64 (sg.addr + sgOffset : ℕ), toU 32 ((sg.len : ℤ) - sgOffset), lkey⟩)

/-- `mlx5_ib_sg_to_klms`; the element counts are passed as `unsigned short`. -/
def sgToKlms (lkey : ℕ) (mr : Mr Klm) (sgl : List Seg) (sgOffsetP : Option ℕ)
    (metaSgl : List Seg) (metaSgOffsetP : Option ℕ) : Mr Klm × Option ℕ × Option ℕ × ℤ :=
  let sgOffset := sgOffsetP.getD 0
  let iova := toU 64 ((sgl.map Seg.addr).headD 0 + sgOffset : ℕ)
  let (mr, i, sgOffset) := klmLoop lkey (sgl.take (toU 16 sgl.length)) 0 sgOffset
    { mr with iova := iova, length := 0 }
  let sgOffsetP := sgOffsetP.map fun _ => sgOffset
  let mr := { mr with ndescs := i, dataLength := toInt mr.length }
  let metaSgl := metaSgl.take (toU 16 metaSgl.length)
  if metaSgl = [] then (mr, sgOffsetP, metaSgOffsetP, i)
  else
    let (mr, k, sgOffset) := klmLoop lkey metaSgl i (metaSgOffsetP.getD 0) mr
    ({ mr with metaNdescs := k - i, metaLength := toInt (mr.length - mr.dataLength) },
      sgOffsetP, metaSgOffsetP.map fun _ => sgOffset, k)

/-- `mlx5_ib_map_klm_mr_sg_pi`. -/
def mapKlmMrSgPi (mr : SigMr) (dataSg : List Seg) (dataSgOffset : Option ℕ)
    (metaSg : List Seg) (metaSgOffset : Option ℕ) : Attempt :=
  let (piMr, dataSgOffset, metaSgOffset, n) := sgToKlms mr.localDmaLkey
    { mr.klmMr with ndescs := 0, metaNdescs := 0, metaLength := 0 }
    dataSg dataSgOffset metaSg metaSgOffset
  let piMr := { piMr with dataIova := 0, iova := 0, piIova := toU 64 piMr.dataLength }
  ⟨{ mr with klmMr := piMr, length := piMr.length }, dataSgOffset, metaSgOffset, n⟩

/-! ### The three attempts -/

/-- Label `out` of `mlx5_ib_map_mr_sg_pi`. -/
def finish (mr : SigMr) (piMr : Option PiMr) : SigMr :=
  { mr with
    iova := 0
    piMr := piMr
    sigMetaLength := match piMr with
      | none => mr.metaLength
      | some .mtt => mr.mttMr.metaLength
      | some .klm => mr.klmMr.metaLength }

/-- `mlx5_ib_map_mr_sg_pi`: the MR and the return value. -/
def mapMrSgPi (mr : SigMr) (dataSg : List Seg) (dataSgOffset : Option ℕ) (metaSg : List Seg)
    (metaSgOffset : Option ℕ) : SigMr × ℤ :=
  let all : ℤ := dataSg.length + metaSg.length
  let mr := { mr with
    ndescs := 0, dataLength := 0, dataIova := 0, metaNdescs := 0, piIova := 0 }
  let (mr, n) := mapPaMrSgPi mr dataSg dataSgOffset metaSg metaSgOffset
  if n = all then (finish mr none, 0)
  else
    let mtt := mapMttMrSgPi mr dataSg dataSgOffset metaSg metaSgOffset
    if mtt.n = all then (finish mtt.mr (some .mtt), 0)
    else
      let klm := mapKlmMrSgPi mtt.mr dataSg mtt.dataSgOffset metaSg mtt.metaSgOffset
      if klm.n ≠ all then (klm.mr, -ENOMEM) else (finish klm.mr (some .klm), 0)

/-! ### What is described -/

/-- The device's view of an MTT MR: its range, one page per descriptor. -/
def mttByte (m : Mr ℕ) (va : ℕ) : Option ℕ :=
  let page := va / m.pageSize - m.iova / m.pageSize
  if m.iova ≤ va ∧ va < m.iova + m.length ∧ page < m.ndescs + m.metaNdescs then
    some (m.descs page / m.pageSize * m.pageSize + va % m.pageSize)
  else none

/-- The memory of a KLM descriptor. -/
def Klm.seg (k : Klm) : Seg := ⟨k.va, k.bcount⟩

/-- The device's view of a KLM MR: its range, the descriptors one after the other. -/
def klmByte (m : Mr Klm) (va : ℕ) : Option ℕ :=
  if m.iova ≤ va ∧ va < m.iova + m.length then
    byteAt ((range (m.ndescs + m.metaNdescs)).map fun i => (m.descs i).seg) (va - m.iova)
  else none

/-- The memory at an address of the MR that `pi_mr` names; without one, addresses are physical. -/
def translate (mr : SigMr) (va : ℕ) : Option ℕ :=
  match mr.piMr with
  | none => some va
  | some .mtt => mttByte mr.mttMr va
  | some .klm => klmByte mr.klmMr va

/-- `data_iova`, `data_length`, `pi_iova` and `meta_length` of the MR that `pi_mr` names. -/
def described (mr : SigMr) : ℕ × ℤ × ℕ × ℤ :=
  match mr.piMr with
  | none => (mr.dataIova, mr.dataLength, mr.piIova, mr.metaLength)
  | some .mtt => (mr.mttMr.dataIova, mr.mttMr.dataLength, mr.mttMr.piIova,
      mr.mttMr.metaLength)
  | some .klm => (mr.klmMr.dataIova, mr.klmMr.dataLength, mr.klmMr.piIova,
      mr.klmMr.metaLength)

/-- The region `(iova, length)` is exactly the bytes of `segs`. -/
structure Denotes (mr : SigMr) (iova : ℕ) (length : ℤ) (segs : List Seg) : Prop where
  length : length = total segs
  bytes : ∀ x < total segs, translate mr (iova + x) = byteAt segs x

/-- Both regions are the bytes of their lists, and `ibmr->length` counts them. -/
structure Exact (mr : SigMr) (dataSegs metaSegs : List Seg) : Prop where
  data : Denotes mr (described mr).1 (described mr).2.1 dataSegs
  pi : Denotes mr (described mr).2.2.1 (described mr).2.2.2 metaSegs
  length : mr.length = total dataSegs + total metaSegs

/-! ### Page lists -/

section Mtt

variable {m₀ m : Mr ℕ} {pv : List ℕ}

/-- `mlx5_set_page` has appended `pv` to the empty list of `m₀`. -/
def DataPages (m₀ m : Mr ℕ) (pv : List ℕ) : Prop :=
  m = { m₀ with ndescs := pv.length, descs := m.descs } ∧
    ∀ k p, pv[k]? = some p → m.descs k = p ||| EN_RD_WR

/-- `mlx5_set_page_pi` has appended `pv` to the data pages of `m₀`. -/
def MetaPages (m₀ m : Mr ℕ) (pv : List ℕ) : Prop :=
  m = { m₀ with metaNdescs := pv.length, descs := m.descs } ∧
    (∀ k < m₀.ndescs, m.descs k = m₀.descs k) ∧
      ∀ k p, pv[k]? = some p → m.descs (m₀.ndescs + k) = p ||| EN_RD_WR

/-- Appending to a vector that is written to consecutive slots. -/
theorem update_append (descs : ℕ → ℕ) (b a : ℕ)
    (h : ∀ k p, pv[k]? = some p → descs (b + k) = p ||| EN_RD_WR) (k p : ℕ)
    (hk : (pv ++ [a])[k]? = some p) :
    update descs (b + pv.length) (a ||| EN_RD_WR) (b + k) = p ||| EN_RD_WR := by
  rcases Nat.lt_trichotomy k pv.length with hlt | rfl | hgt
  · rw [List.getElem?_append_left hlt] at hk
    rw [update_of_ne (by omega)]
    exact h k p hk
  · rw [List.getElem?_concat_length] at hk
    cases hk
    rw [update_self]
  · rw [List.getElem?_eq_none (by simp; omega)] at hk
    cases hk

theorem setPage_setter : Setter setPage (DataPages m₀) m₀.maxDescs where
  push := by
    rintro m pv a ⟨hm, hd⟩ hlt
    refine ⟨_, if_neg ?_, ?_, fun k p hk => ?_⟩
    · rw [hm]
      exact hlt.ne
    · rw [hm]
      simp
    · have hnew := update_append m.descs 0 a (by simpa using hd) k p hk
      rw [hm]
      simpa using hnew
  full := by
    rintro m pv a ⟨hm, -⟩ hlen
    refine if_pos ?_
    rw [hm]
    exact hlen

theorem setPagePi_setter (hle : m₀.ndescs ≤ m₀.maxDescs) :
    Setter setPagePi (MetaPages m₀) (m₀.maxDescs - m₀.ndescs) where
  push := by
    rintro m pv a ⟨hm, hold, hd⟩ hlt
    refine ⟨_, if_neg ?_, ?_, fun k hk => ?_, fun k p hk => ?_⟩
    · rw [hm]
      simp only
      omega
    · rw [hm]
      simp
    · rw [hm]
      simp only
      rw [update_of_ne (by omega)]
      exact hold k hk
    · rw [hm]
      exact update_append m.descs _ a hd k p hk
  full := by
    rintro m pv a ⟨hm, -⟩ hlen
    refine if_pos ?_
    rw [hm]
    simp only
    omega

/-- The device clears the access bits of a page address. -/
theorem or_access_bits {j p : ℕ} (hj : 2 ≤ j) (hp : 2 ^ j ∣ p) :
    (p ||| EN_RD_WR) / 2 ^ j * 2 ^ j = p := by
  obtain ⟨c, rfl⟩ := hp
  have hlt : EN_RD_WR < 2 ^ j :=
    lt_of_lt_of_le (by decide : 3 < 2 ^ 2) (Nat.pow_le_pow_right (by decide) hj)
  rw [← Nat.two_pow_add_eq_or_of_lt hlt, Nat.mul_add_div (by positivity), Nat.div_eq_of_lt hlt,
    Nat.add_zero, Nat.mul_comm]

/-- Pages that start behind `b` others are read at their place. -/
theorem mttByte_pages {ps j b o x va : ℕ} {segs : List Seg} (hps : m.pageSize = ps)
    (hj : ps = 2 ^ j) (hj2 : 2 ≤ j) (hcov : Covers ps o segs pv)
    (hd : ∀ k p, pv[k]? = some p → m.descs (b + k) = p ||| EN_RD_WR)
    (hcount : b + pv.length ≤ m.ndescs + m.metaNdescs) (hx : x < total segs)
    (hva : va = (m.iova / ps + b) * ps + (o + x)) (hlo : m.iova ≤ va)
    (hhi : va < m.iova + m.length) : mttByte m va = byteAt segs x := by
  have hpos : 0 < ps := hj ▸ Nat.two_pow_pos j
  have hbyte := hcov.bytes x hx
  have hdiv : va / ps = m.iova / ps + b + (o + x) / ps := by
    rw [hva, Nat.add_comm, Nat.add_mul_div_right _ _ hpos, Nat.add_comm]
  have hmod : va % ps = (o + x) % ps := by
    rw [hva, Nat.add_comm, Nat.add_mul_mod_self_right]
  rcases hget : pv[(o + x) / ps]? with _ | p
  · rw [pageByte, hget, Option.map_none] at hbyte
    exact absurd hbyte.symm (byteAt_ne_none hx)
  · have hidx : (o + x) / ps < pv.length := (List.getElem?_eq_some_iff.mp hget).1
    have hal := hcov.aligned p (List.mem_of_getElem? hget)
    have hpage : va / ps - m.iova / ps = b + (o + x) / ps := by
      rw [hdiv, Nat.add_assoc, Nat.add_sub_cancel_left]
    rw [← hbyte, pageByte, hget, Option.map_some]
    simp only [mttByte, hps, hpage, hmod]
    rw [if_pos ⟨hlo, hhi, lt_of_lt_of_le (Nat.add_lt_add_left hidx b) hcount⟩, hd _ p hget]
    subst hj
    rw [or_access_bits hj2 hal]

end Mtt

/-! ### Inputs -/

/-- A DMA-mapped list, and a start offset into its first element. The count is an `int`. -/
structure ListOk (ps : ℕ) (l : List Seg) (off : ℕ) : Prop where
  small : ∀ s ∈ l, Small ps s
  count : l.length < 2 ^ 31
  inside : ∀ s ∈ l.head?, off < s.len

/-- Lists that can be described by physical addresses. -/
def PaFits (dataSg metaSg : List Seg) : Prop :=
  dataSg.length ≤ 1 ∧ metaSg.length ≤ dataSg.length

/-- What the interface takes: a page size, two DMA-mapped lists, and start offsets of type
    `unsigned int`, inside the first element where a list has to be split. -/
structure Valid (mr : SigMr) (dataSg : List Seg) (od : ℕ) (metaSg : List Seg) (om : ℕ) : Prop where
  pageSize : ∃ j, 12 ≤ j ∧ j ≤ 30 ∧ mr.pageSize = 2 ^ j
  offsets : od < 2 ^ 32 ∧ om < 2 ^ 32
  small : ∀ s ∈ dataSg ++ metaSg, Small mr.pageSize s
  lists : ¬ PaFits dataSg metaSg → ListOk mr.pageSize dataSg od ∧ ListOk mr.pageSize metaSg om

/-- The number of pages that the data takes. -/
def dataPages (ps : ℕ) (d : Seg) (off : ℕ) (dataSg : List Seg) : ℕ :=
  pageEnd ps ((d.addr + off) % ps + total (skip off dataSg))

/-- The address behind the data pages at which a page list describes the metadata. -/
def piStart (ps : ℕ) (d : Seg) (od : ℕ) (dataSg : List Seg) (m : Seg) (om : ℕ) : ℕ :=
  ((d.addr + od) / ps + dataPages ps d od dataSg) * ps + (m.addr + om) % ps

/-- The offsets that a page list leaves behind if it cannot hold both lists. -/
def mttLeft (ps cap : ℕ) (dataSg : List Seg) (pd : Option ℕ) (metaSg : List Seg)
    (pm : Option ℕ) : Option (Option ℕ × Option ℕ) :=
  if dataSg = [] then some (pd, pm)
  else
    match outcome ps cap dataSg (pd.getD 0) none 0 with
    | .all used =>
      if metaSg = [] then none
      else
        match outcome ps (cap - used) metaSg (pm.getD 0) none 0 with
        | .all _ => none
        | r => some (pd.map fun _ => 0, pm.map fun _ => r.offset)
    | r => some (pd.map fun _ => r.offset, pm)

theorem total_skip {l : List Seg} {off : ℕ} (h : ∀ s ∈ l.head?, off < s.len) (hne : l ≠ []) :
    total (skip off l) + off = total l := by
  cases l with
  | nil => exact absurd rfl hne
  | cons s l =>
    have := h s rfl
    simp only [skip, total_cons]
    omega

theorem ListOk.total_lt {ps off : ℕ} {l : List Seg} (h : ListOk ps l off) : total l < 2 ^ 64 := by
  have hle := total_le (m := 2 ^ 32) fun s hs => (h.small s hs).len.le
  have hcount := h.count
  omega

section Attempts

variable {mr : SigMr} {dataSg metaSg : List Seg} {pd pm : Option ℕ}

/-- The data is mapped: `pi_mr` holds it in the pages `pv`, and no metadata yet. -/
structure DataDone (mr : SigMr) (piMr : Mr ℕ) (start : ℕ) (segs : List Seg) (pv : List ℕ) :
    Prop where
  length : mr.length = toU 64 (toInt (total segs))
  iova : piMr.iova = start ∧ piMr.dataIova = start
  dataLength : piMr.length = toU 64 (toInt (total segs)) ∧ piMr.dataLength = toInt (total segs)
  pageSize : piMr.pageSize = mr.pageSize
  room : pv.length ≤ piMr.maxDescs
  ndescs : piMr.ndescs = pv.length
  noMeta : piMr.metaNdescs = 0 ∧ piMr.metaLength = 0
  descs : ∀ k p, pv[k]? = some p → piMr.descs k = p ||| EN_RD_WR
  covers : Covers mr.pageSize (start % mr.pageSize) segs pv

theorem toU_toInt_of_lt {n : ℕ} (h : n < 2 ^ 31) : toU 64 (toInt n) = n := by
  rw [toInt_of_lt h]
  exact toU_of_lt (by omega)

theorem lt_of_toInt_eq {n : ℕ} {x : ℤ} (h : toInt x = n) : n < 2 ^ 31 := by
  unfold toInt at h
  omega

/-- A sum of two `int`s that comes out right did not wrap. -/
theorem lt_of_toU_toInt {n : ℕ} (h : toU 64 (toInt n) = n) (hn : n < 2 ^ 32) : n < 2 ^ 31 := by
  unfold toU toInt at h
  omega

/-- The bytes of the data, in any MR that still has its pages and covers them. -/
theorem DataDone.bytes {piMr m : Mr ℕ} {start j x : ℕ} {segs : List Seg} {pv : List ℕ}
    (h : DataDone mr piMr start segs pv) (hps : mr.pageSize = 2 ^ j) (hj : 2 ≤ j)
    (hpage : m.pageSize = mr.pageSize) (hiova : m.iova = start)
    (hdescs : ∀ k < pv.length, m.descs k = piMr.descs k) (hcount : pv.length ≤ m.ndescs)
    (hlen : total segs ≤ m.length) (hx : x < total segs) :
    mttByte m (start + x) = byteAt segs x := by
  have hdiv := Nat.div_add_mod' start mr.pageSize
  refine mttByte_pages (b := 0) (o := start % mr.pageSize) hpage hps hj h.covers (fun k p hk => ?_)
    (by omega) hx ?_ (by omega) (by omega)
  · rw [Nat.zero_add, hdescs k (List.getElem?_eq_some_iff.mp hk).1]
    exact h.descs k p hk
  · rw [hiova, Nat.add_zero]
    omega

/-- MTT, data: all of it is mapped, or the attempt ends with the offset of `outcome`. -/
theorem mapMtt_data {d : Seg} (hpos : 0 < mr.pageSize)
    (hok : ListOk mr.pageSize (d :: dataSg) (pd.getD 0)) :
    match outcome mr.pageSize mr.mttMr.maxDescs (d :: dataSg) (pd.getD 0) none 0 with
    | .all used => ∃ mr' piMr pv, pv.length = used ∧
        DataDone mr' piMr (d.addr + pd.getD 0) (skip (pd.getD 0) (d :: dataSg)) pv ∧
        mr'.pageSize = mr.pageSize ∧ mr'.mttMr = piMr ∧ piMr.maxDescs = mr.mttMr.maxDescs ∧
        mapMttMrSgPi mr (d :: dataSg) pd metaSg pm =
          if metaSg = [] then ⟨mr', pd.map fun _ => 0, pm, (d :: dataSg).length⟩
          else mapMttMeta mr' piMr (pd.map fun _ => 0) metaSg pm (d :: dataSg).length
    | r => (mapMttMrSgPi mr (d :: dataSg) pd metaSg pm).n < (d :: dataSg).length ∧
        (mapMttMrSgPi mr (d :: dataSg) pd metaSg pm).dataSgOffset = (pd.map fun _ => r.offset) ∧
        (mapMttMrSgPi mr (d :: dataSg) pd metaSg pm).metaSgOffset = pm := by
  have hdata := @ibSgToPages_spec _ _ _ _ _ (@setPage_setter (clearedMtt mr)) hpos
    ((clearedMtt mr).maxDescs + 1) (clearedMtt mr).iova (clearedMtt mr).length
    (Nat.lt_succ_self _) (clearedMtt mr) ⟨rfl, by simp⟩ d dataSg pd (hok.inside d rfl) hok.small
    hok.total_lt
  have hcap : (clearedMtt mr).maxDescs = mr.mttMr.maxDescs := rfl
  rw [hcap] at hdata
  have hstop : ∀ {r : Outcome} {iova' m}, ibSgToPages setPage mr.pageSize
      (mr.mttMr.maxDescs + 1) (clearedMtt mr).iova (clearedMtt mr).length (clearedMtt mr)
      (d :: dataSg) pd = (iova', m, pd.map fun _ => r.offset) → m.n < (d :: dataSg).length →
      (mapMttMrSgPi mr (d :: dataSg) pd metaSg pm).n < (d :: dataSg).length ∧
        (mapMttMrSgPi mr (d :: dataSg) pd metaSg pm).dataSgOffset = (pd.map fun _ => r.offset) ∧
        (mapMttMrSgPi mr (d :: dataSg) pd metaSg pm).metaSgOffset = pm := by
    intro r iova' m heq hn
    simp only [mapMttMrSgPi, hcap, heq, if_pos hn.ne]
    exact ⟨hn, trivial, trivial⟩
  revert hdata
  cases outcome mr.pageSize mr.mttMr.maxDescs (d :: dataSg) (pd.getD 0) none 0 with
  | all used =>
    rintro ⟨m, pv, heq, ⟨hm, hdescs⟩, rfl, hroom, hcov⟩
    set piMr :=
      mappedData m (d.addr + pd.getD 0) (total (skip (pd.getD 0) (d :: dataSg))) with hpi
    have hmax : piMr.maxDescs = mr.mttMr.maxDescs := (congrArg Mr.maxDescs hm :)
    refine ⟨{ mr with mttMr := piMr, length := toU 64 piMr.dataLength }, piMr, pv, rfl, ?_,
      rfl, rfl, hmax, ?_⟩
    · have hdl : piMr.dataLength = toInt (total (skip (pd.getD 0) (d :: dataSg))) := by
        rw [hpi, mappedData]
      have hl : piMr.length = toU 64 piMr.dataLength := by rw [hpi, mappedData]
      refine ⟨?_, ⟨rfl, rfl⟩, ⟨?_, hdl⟩, ?_, hmax ▸ hroom, ?_, ⟨?_, ?_⟩, hdescs, hcov⟩
      · rw [hdl]
      · rw [hl, hdl]
      · exact (congrArg Mr.pageSize hm :)
      · exact (congrArg Mr.ndescs hm :)
      · exact (congrArg Mr.metaNdescs hm :)
      · exact (congrArg Mr.metaLength hm :)
    · simp only [mapMttMrSgPi, hcap, heq, ne_eq, not_true_eq_false, if_false, hpi]
  | gap =>
    rintro ⟨iova', m, heq, hn⟩
    exact hstop heq hn
  | full off =>
    rintro ⟨iova', m, heq, hn⟩
    exact hstop heq hn

/-- The address of the metadata, where the data pages take less than `2 ^ 32` bytes. -/
theorem DataDone.pi_iova {piMr : Mr ℕ} {start j o : ℕ} {segs : List Seg} {pv : List ℕ}
    (h : DataDone mr piMr start segs pv) (hps : mr.pageSize = 2 ^ j) (hj : j ≤ 30) (hne : segs ≠ [])
    (hsize : total segs < 2 ^ 31) :
    toU 64 (start / mr.pageSize * mr.pageSize + toU 32 (pv.length * mr.pageSize : ℕ) + o : ℕ) =
      toU 64 ((start / mr.pageSize + pv.length) * mr.pageSize + o : ℕ) ∧
      pv.length * mr.pageSize < 2 ^ 32 ∧ start % mr.pageSize + total segs ≤
        pv.length * mr.pageSize := by
  have hpos : 0 < mr.pageSize := hps ▸ Nat.two_pow_pos j
  have hle : mr.pageSize ≤ 2 ^ 30 := hps ▸ Nat.pow_le_pow_right (by norm_num) hj
  have hmod := Nat.mod_lt start hpos
  have hcount := h.covers.count hne
  have hup : pv.length * mr.pageSize ≤ start % mr.pageSize + total segs + mr.pageSize - 1 := by
    rw [hcount, pageEnd]
    exact Nat.div_mul_le_self ..
  have hpages : pv.length * mr.pageSize < 2 ^ 32 := by omega
  refine ⟨?_, hpages, (pageEnd_le_iff hpos).mp hcount.ge⟩
  rw [toU_of_lt hpages, Nat.add_mul]

/-- MTT, metadata: all of it is mapped behind the data, exactly if nothing wraps, or the attempt
    ends with the offset of `outcome`. -/
theorem mapMttMeta_spec {piMr : Mr ℕ} {start j : ℕ} {segs : List Seg} {pv : List ℕ} {m : Seg}
    {q : Option ℕ} {n : ℤ} (hdone : DataDone mr piMr start segs pv) (hps : mr.pageSize = 2 ^ j)
    (hj : 2 ≤ j) (hj30 : j ≤ 30) (hne : segs ≠ []) (hstart64 : start < 2 ^ 64)
    (hok : ListOk mr.pageSize (m :: metaSg) (pm.getD 0)) :
    match outcome mr.pageSize (piMr.maxDescs - pv.length) (m :: metaSg) (pm.getD 0) none 0 with
    | .all _ => (mapMttMeta mr piMr q (m :: metaSg) pm n).n = n + (m :: metaSg).length ∧
        (Exact (finish (mapMttMeta mr piMr q (m :: metaSg) pm n).mr (some .mtt)) segs
          (skip (pm.getD 0) (m :: metaSg)) ↔ total segs < 2 ^ 31 ∧
            total (skip (pm.getD 0) (m :: metaSg)) < 2 ^ 31 ∧
            (start / mr.pageSize + pv.length) * mr.pageSize +
              (m.addr + pm.getD 0) % mr.pageSize < 2 ^ 64)
    | r => (mapMttMeta mr piMr q (m :: metaSg) pm n).n < n + (m :: metaSg).length ∧
        (mapMttMeta mr piMr q (m :: metaSg) pm n).dataSgOffset = q ∧
        (mapMttMeta mr piMr q (m :: metaSg) pm n).metaSgOffset = pm.map fun _ => r.offset := by
  have hpos : 0 < mr.pageSize := hps ▸ Nat.two_pow_pos j
  have hroom : piMr.ndescs ≤ piMr.maxDescs := hdone.ndescs ▸ hdone.room
  have hcap : piMr.maxDescs - piMr.ndescs = piMr.maxDescs - pv.length := by
    rw [hdone.ndescs]
  have hstart : MetaPages piMr piMr [] := by
    refine ⟨?_, fun _ _ => rfl, by simp⟩
    rw [List.length_nil, ← hdone.noMeta.1]
  have hmeta := @ibSgToPages_spec _ _ _ _ _ (setPagePi_setter hroom) hpos (piMr.maxDescs + 1)
    piMr.iova piMr.length (by omega) piMr hstart m metaSg pm (hok.inside m rfl) hok.small
    hok.total_lt
  rw [hcap] at hmeta
  have hstop : ∀ {r : Outcome} {iova' x}, ibSgToPages setPagePi mr.pageSize
      (piMr.maxDescs + 1) piMr.iova piMr.length piMr (m :: metaSg) pm =
        (iova', x, pm.map fun _ => r.offset) → x.n < (m :: metaSg).length →
      (mapMttMeta mr piMr q (m :: metaSg) pm n).n < n + (m :: metaSg).length ∧
        (mapMttMeta mr piMr q (m :: metaSg) pm n).dataSgOffset = q ∧
        (mapMttMeta mr piMr q (m :: metaSg) pm n).metaSgOffset = pm.map fun _ => r.offset := by
    intro r iova' x heq hn
    simp only [mapMttMeta, heq]
    exact ⟨by omega, trivial, trivial⟩
  revert hmeta
  cases outcome mr.pageSize (piMr.maxDescs - pv.length) (m :: metaSg) (pm.getD 0) none 0 with
  | all used =>
    rintro ⟨m', pv', heq, ⟨hm, hold, hdescs⟩, -, -, hcov⟩
    set T := total (skip (pm.getD 0) (m :: metaSg)) with hT
    set o := (m.addr + pm.getD 0) % mr.pageSize with ho
    have hnd : m'.ndescs = pv.length := by
      rw [hm]
      exact hdone.ndescs
    have hpsize : m'.pageSize = mr.pageSize := by
      rw [hm]
      exact hdone.pageSize
    have hdl : m'.dataLength = toInt (total segs) := by
      rw [hm]
      exact hdone.dataLength.2
    have hdi : m'.dataIova = start := by
      rw [hm]
      exact hdone.iova.2
    have hdiv := Nat.div_add_mod' start mr.pageSize
    have hlt : o < mr.pageSize := Nat.mod_lt _ hpos
    have hle : mr.pageSize ≤ 2 ^ 30 := hps ▸ Nat.pow_le_pow_right (by norm_num) hj30
    have hT0 : 0 < T := by
      have hin := hok.inside m rfl
      simp only [hT, skip, total_cons]
      omega
    -- what the run leaves, the address of the metadata still as the code computes it
    obtain ⟨P, hP⟩ : ∃ P, P = toU 64 (start / mr.pageSize * mr.pageSize +
      toU 32 (pv.length * mr.pageSize : ℕ) + o : ℕ) := ⟨_, rfl⟩
    have hrun : mapMttMeta mr piMr q (m :: metaSg) pm n = ⟨{ mr with
            mttMr := { m' with
              metaLength := toInt T, piIova := P, iova := start
              length := toU 64 (P + toInt T - start) }
            length := toU 64 (mr.length + toInt T) }, q, pm.map fun _ => 0,
          n + (m :: metaSg).length⟩ := by
      simp only [mapMttMeta, heq, hdone.iova.2, hnd, ← ho, ← hP]
    rw [hrun]
    refine ⟨rfl, fun hex => ?_, ?_⟩
    · have hl₁ : m'.dataLength = total segs := hex.data.length
      have hsize := lt_of_toInt_eq (hdl.symm.trans hl₁)
      refine ⟨hsize, lt_of_toInt_eq hex.pi.length, ?_⟩
      obtain ⟨hpi, hpages, -⟩ := hdone.pi_iova (o := o) hps hj30 hne hsize
      -- an address that wraps lies before the region
      by_contra hwrap
      have hbyte := hex.pi.bytes 0 hT0
      rw [Nat.add_mul] at hpi hwrap
      have hbefore : P < start := by
        rw [hP, hpi, toU_eq_mod]
        omega
      refine byteAt_ne_none hT0 (hbyte.symm.trans ?_)
      simp only [translate, finish, described, mttByte, Nat.add_zero, hbefore.not_ge, false_and,
        if_false]
    · rintro ⟨hsize, hsizeT, hwrap⟩
      obtain ⟨hpi, hpages, hcount⟩ := hdone.pi_iova (o := o) hps hj30 hne hsize
      rw [toU_of_lt hwrap] at hpi
      rw [hpi] at hP
      have hPs : start + total segs ≤ P ∧ P < start + 2 ^ 33 := by
        rw [hP, Nat.add_mul]
        omega
      have hlen : toU 64 ((P : ℤ) + T - start) = P + T - start := by
        rw [← Nat.cast_add, ← Nat.cast_sub (by omega)]
        exact toU_of_lt (by omega)
      rw [toInt_of_lt hsizeT, hdone.length, toU_toInt_of_lt hsize, hlen, ← Nat.cast_add,
        toU_of_lt (by omega : total segs + T < 2 ^ 64)]
      refine ⟨⟨?_, fun x hx => ?_⟩, ⟨rfl, fun x hx => ?_⟩, rfl⟩
      · exact hdl.trans (toInt_of_lt hsize)
      · simp only [finish, hdi]
        refine hdone.bytes hps hj hpsize rfl (fun k hk => ?_) ?_ ?_ hx
        · exact hold k (hdone.ndescs ▸ hk)
        · exact hnd.ge
        · simp only
          omega
      · simp only [finish, described]
        refine mttByte_pages (b := pv.length) (o := o) hpsize hps hj hcov (fun k p hk => ?_) ?_ hx
          ?_ ?_ ?_
        · rw [← hdone.ndescs]
          exact hdescs k p hk
        · simp only
          rw [hm]
          simp only [hdone.ndescs]
          rfl
        · simp only
          omega
        · simp only
          omega
        · simp only
          omega
  | gap =>
    rintro ⟨iova', x, heq, hn⟩
    exact hstop heq hn
  | full off =>
    rintro ⟨iova', x, heq, hn⟩
    exact hstop heq hn

/-- What an attempt at a page list or a KLM list has to hold: lengths that fit an `int`, and
    metadata that starts inside the address space. -/
structure Fits (mr : SigMr) (dataSg : List Seg) (pd : Option ℕ) (metaSg : List Seg)
    (pm : Option ℕ) : Prop where
  data : total (skip (pd.getD 0) dataSg) < 2 ^ 31
  pi : total (skip (pm.getD 0) metaSg) < 2 ^ 31
  start : mttLeft mr.pageSize mr.mttMr.maxDescs dataSg pd metaSg pm = none →
    ∀ d ∈ dataSg.head?, ∀ m ∈ metaSg.head?,
      piStart mr.pageSize d (pd.getD 0) dataSg m (pm.getD 0) < 2 ^ 64

theorem fits_iff : Fits mr dataSg pd metaSg pm ↔ total (skip (pd.getD 0) dataSg) < 2 ^ 31 ∧
    total (skip (pm.getD 0) metaSg) < 2 ^ 31 ∧
      (mttLeft mr.pageSize mr.mttMr.maxDescs dataSg pd metaSg pm = none → ∀ d ∈ dataSg.head?,
        ∀ m ∈ metaSg.head?, piStart mr.pageSize d (pd.getD 0) dataSg m (pm.getD 0) < 2 ^ 64) :=
  ⟨fun h => ⟨h.data, h.pi, h.start⟩, fun h => ⟨h.1, h.2.1, h.2.2⟩⟩

/-- MTT: the page list holds the two lists, exactly if they fit, or the offsets are left as
    `mttLeft` says. -/
theorem mapMtt_spec (hpage : ∃ j, 12 ≤ j ∧ j ≤ 30 ∧ mr.pageSize = 2 ^ j)
    (hd : ListOk mr.pageSize dataSg (pd.getD 0)) (hm : ListOk mr.pageSize metaSg (pm.getD 0)) :
    match mttLeft mr.pageSize mr.mttMr.maxDescs dataSg pd metaSg pm with
    | none => (mapMttMrSgPi mr dataSg pd metaSg pm).n = dataSg.length + metaSg.length ∧
        (Exact (finish (mapMttMrSgPi mr dataSg pd metaSg pm).mr (some .mtt))
          (skip (pd.getD 0) dataSg) (skip (pm.getD 0) metaSg) ↔ Fits mr dataSg pd metaSg pm)
    | some left => (mapMttMrSgPi mr dataSg pd metaSg pm).n < dataSg.length + metaSg.length ∧
        (mapMttMrSgPi mr dataSg pd metaSg pm).dataSgOffset = left.1 ∧
        (mapMttMrSgPi mr dataSg pd metaSg pm).metaSgOffset = left.2 := by
  obtain ⟨j, hj, hj30, hps⟩ := hpage
  have hpos : 0 < mr.pageSize := hps ▸ Nat.two_pow_pos j
  cases dataSg with
  | nil =>
    refine ⟨?_, rfl, rfl⟩
    change -EINVAL < _
    simp only [EINVAL]
    omega
  | cons d dataSg =>
    have hdata := @mapMtt_data mr dataSg metaSg pd pm d hpos hd
    have hin := hd.inside d rfl
    have hend := (hd.small d (List.mem_cons_self ..)).end_lt hpos
    simp only [mttLeft, reduceCtorEq]
    revert hdata
    cases hout : outcome mr.pageSize mr.mttMr.maxDescs (d :: dataSg) (pd.getD 0) none 0 with
    | all used =>
      rintro ⟨mr', piMr, pv, rfl, hdone, hps', hmtt, hmax, hrun⟩
      have hcount : pv.length = dataPages mr.pageSize d (pd.getD 0) (d :: dataSg) := by
        have hc := hdone.covers.count (by simp [skip])
        rwa [hps'] at hc
      cases metaSg with
      | nil =>
        rw [hrun]
        simp only [if_true]
        have hfits : Fits mr (d :: dataSg) pd [] pm ↔
            total (skip (pd.getD 0) (d :: dataSg)) < 2 ^ 31 :=
          ⟨fun h => h.data, fun h => ⟨h, by simp [skip], fun _ _ _ m hm => by simp at hm⟩⟩
        refine ⟨by simp, ?_⟩
        rw [hfits]
        refine ⟨fun hex => ?_, fun hsize => ?_⟩
        · have hlen : mr'.mttMr.dataLength = total (skip (pd.getD 0) (d :: dataSg)) :=
            hex.data.length
          rw [hmtt, hdone.dataLength.2] at hlen
          exact lt_of_toInt_eq hlen
        · refine ⟨⟨?_, fun x hx => ?_⟩, ⟨?_, fun x hx => absurd hx (Nat.not_lt_zero x)⟩, ?_⟩
          · simp only [finish, described, hmtt]
            exact hdone.dataLength.2.trans (toInt_of_lt hsize)
          · simp only [finish, described, hmtt, hdone.iova.2]
            refine hdone.bytes (hps'.trans hps) (by omega) hdone.pageSize hdone.iova.1
              (fun _ _ => rfl) hdone.ndescs.ge ?_ hx
            rw [hdone.dataLength.1, toU_toInt_of_lt hsize]
          · simp only [described, finish, hmtt, hdone.noMeta.2]
            rfl
          · simp only [finish]
            rw [hdone.length, toU_toInt_of_lt hsize]
            rfl
      | cons m metaSg =>
        rw [hrun]
        simp only
        have hmeta := mapMttMeta_spec (q := pd.map fun _ => 0) (n := (d :: dataSg).length)
          hdone (hps'.trans hps) (by omega) hj30 (by simp [skip]) (by omega) (hps' ▸ hm)
        rw [hps', hmax] at hmeta
        revert hmeta
        cases hout' : outcome mr.pageSize (mr.mttMr.maxDescs - pv.length) (m :: metaSg) (pm.getD 0)
          none 0 with
        | all used =>
          rintro ⟨hn, hiff⟩
          refine ⟨hn, hiff.trans ⟨fun h => ⟨h.1, h.2.1, ?_⟩, fun h => ⟨h.data, h.pi, ?_⟩⟩⟩
          · rintro - d' ⟨⟩ m' ⟨⟩
            rw [piStart, ← hcount]
            exact h.2.2
          · rw [hcount]
            exact h.start (by simp [mttLeft, hout, hout']) d rfl m rfl
        | gap => exact id
        | full off => exact id
    | gap =>
      rintro ⟨hn, hoff⟩
      exact ⟨by omega, hoff⟩
    | full off =>
      rintro ⟨hn, hoff⟩
      exact ⟨by omega, hoff⟩

end Attempts

/-! ### KLM lists -/

section Klm

variable {lkey : ℕ}

/-- The loop writes descriptors and adds up the length, and nothing else. -/
theorem klmLoop_frame (sgl : List Seg) : ∀ (i off : ℕ) (mr : Mr Klm),
    (klmLoop lkey sgl i off mr).2.1 ≤ i + sgl.length ∧
      ∃ descs length, (klmLoop lkey sgl i off mr).1 =
        { mr with descs := descs, length := length } := by
  induction sgl with
  | nil => exact fun i off mr => ⟨le_rfl, mr.descs, mr.length, rfl⟩
  | cons sg sgl ih =>
    intro i off mr
    rw [klmLoop]
    split
    · exact ⟨Nat.le_add_right .., mr.descs, mr.length, rfl⟩
    · obtain ⟨hle, descs, length, heq⟩ := ih (i + 1) 0 (addKlm mr i
        ⟨toU 64 (sg.addr + off : ℕ), toU 32 ((sg.len : ℤ) - off), lkey⟩)
      refine ⟨?_, descs, length, heq⟩
      rw [length_cons]
      omega

/-- A loop that takes all elements adds the list from the offset on to the length, modulo `2 ^ 32`
    even where the offset is too large. -/
theorem klmLoop_length (sgl : List Seg) : ∀ (i off : ℕ) (mr : Mr Klm),
    (klmLoop lkey sgl i off mr).2.1 = i + sgl.length → (sgl = [] → off = 0) →
      ((klmLoop lkey sgl i off mr).1.length : ℤ) % 2 ^ 32 =
        (mr.length + total sgl - off) % 2 ^ 32 := by
  induction sgl with
  | nil =>
    intro i off mr _ hoff
    rw [hoff rfl]
    simp [klmLoop]
  | cons sg sgl ih =>
    intro i off mr hall _
    rw [klmLoop] at hall ⊢
    split at hall
    · rw [length_cons] at hall
      simp only at hall
      omega
    · rename_i hroom
      rw [if_neg hroom, ih _ _ _ (by rw [hall, length_cons]; omega) (fun _ => rfl)]
      simp only [addKlm, toU, total_cons]
      omega

/-- A loop that takes all elements, from an offset inside the first, appends exactly the list. -/
theorem klmLoop_exact (sgl : List Seg) : ∀ (i off : ℕ) (mr : Mr Klm),
    (klmLoop lkey sgl i off mr).2.1 = i + sgl.length → (∀ s ∈ sgl.head?, off < s.len) →
    (∀ s ∈ sgl, 0 < s.len ∧ s.len < 2 ^ 32 ∧ s.addr + s.len < 2 ^ 64) →
    mr.length + total (skip off sgl) < 2 ^ 64 →
      (klmLoop lkey sgl i off mr).1.length = mr.length + total (skip off sgl) ∧
      (∀ j < i, (klmLoop lkey sgl i off mr).1.descs j = mr.descs j) ∧
      (range sgl.length).map (fun k => ((klmLoop lkey sgl i off mr).1.descs (i + k)).seg) =
        skip off sgl := by
  induction sgl with
  | nil => exact fun i off mr _ _ _ _ => ⟨rfl, fun _ _ => rfl, rfl⟩
  | cons sg sgl ih =>
    intro i off mr hall hhead hsmall hlen
    have hoff := hhead sg rfl
    obtain ⟨-, hl32, ha64⟩ := hsmall sg (List.mem_cons_self ..)
    have hb : toU 32 ((sg.len : ℤ) - off) = sg.len - off := toU_sub hl32 hoff.le
    have ha : toU 64 (sg.addr + off : ℕ) = sg.addr + off := toU_of_lt (by omega)
    simp only [skip, total_cons] at hlen ⊢
    rw [klmLoop, hb, ha] at hall ⊢
    split at hall
    · rw [length_cons] at hall
      simp only at hall
      omega
    · rename_i hroom
      rw [if_neg hroom]
      set mr' := addKlm mr i ⟨sg.addr + off, sg.len - off, lkey⟩ with hmr
      have hl : mr'.length = mr.length + (sg.len - off) := by
        simp only [hmr, addKlm]
        exact toU_of_lt (by omega)
      have hd : mr'.descs i = ⟨sg.addr + off, sg.len - off, lkey⟩ := update_self ..
      obtain ⟨hlen', hold, hnew⟩ := ih (i + 1) 0 mr' (by rw [hall, length_cons]; omega)
        (fun s hs => (hsmall s (List.mem_cons_of_mem _ (List.mem_of_mem_head? hs))).1)
        (fun s hs => hsmall s (List.mem_cons_of_mem _ hs)) (by rw [skip_zero, hl]; omega)
      rw [skip_zero] at hlen' hnew
      refine ⟨by rw [hlen', hl]; omega, fun k hk => ?_, ?_⟩
      · rw [hold k (by omega), hmr]
        exact update_of_ne (by omega) ..
      · rw [length_cons, List.range_succ_eq_map, List.map_cons, List.map_map]
        congr 1
        · have hi := (hold i (Nat.lt_succ_self i)).trans hd
          simp only [Nat.add_zero, hi, Klm.seg]
        · refine Eq.trans (List.map_congr_left fun k _ => ?_) hnew
          simp only [comp_apply]
          rw [show i + (k + 1) = i + 1 + k by omega]

theorem toInt_sub_toInt (n : ℕ) : toInt (n - toInt n) = 0 := by
  unfold toInt
  omega

/-- The KLM MR with the data. -/
def klmData (lkey : ℕ) (mr : Mr Klm) (iova : ℕ) (sgl : List Seg) (off : ℕ) : Mr Klm :=
  let r := klmLoop lkey sgl 0 off { mr with iova := iova, length := 0 }
  { r.1 with ndescs := r.2.1, dataLength := toInt r.1.length }

theorem klmData_length {mr : Mr Klm} {iova off : ℕ} {sgl : List Seg} (hne : sgl ≠ [])
    (hn : (klmData lkey mr iova sgl off).ndescs = sgl.length) :
    ((klmData lkey mr iova sgl off).length : ℤ) % 2 ^ 32 = (total sgl - off) % 2 ^ 32 := by
  have hmod := @klmLoop_length lkey sgl 0 off { mr with iova := iova, length := 0 }
    (by rw [Nat.zero_add]; exact hn) (fun h => absurd h hne)
  simpa [klmData] using hmod

theorem klmData_exact {mr : Mr Klm} {iova off : ℕ} {sgl : List Seg}
    (hn : (klmData lkey mr iova sgl off).ndescs = sgl.length) (hoff : ∀ s ∈ sgl.head?, off < s.len)
    (hsgl : ∀ s ∈ sgl, 0 < s.len ∧ s.len < 2 ^ 32 ∧ s.addr + s.len < 2 ^ 64)
    (hlen : total (skip off sgl) < 2 ^ 64) :
    (klmData lkey mr iova sgl off).length = total (skip off sgl) ∧
      (range sgl.length).map (fun k => ((klmData lkey mr iova sgl off).descs k).seg) =
        skip off sgl := by
  obtain ⟨hl, -, hd⟩ := @klmLoop_exact lkey sgl 0 off { mr with iova := iova, length := 0 }
    (by rw [Nat.zero_add]; exact hn) hoff hsgl (by simpa using hlen)
  exact ⟨by simpa [klmData] using hl, by simpa [klmData] using hd⟩

theorem eq_no_meta {m : Mr Klm} (hn : m.metaNdescs = 0) (hl : m.metaLength = 0) :
    m = { m with metaNdescs := 0, metaLength := 0 } := by
  cases m
  cases hn
  cases hl
  rfl

/-- A call of `mlx5_ib_sg_to_klms` that takes both lists runs both loops to their ends. -/
theorem sgToKlms_all {mr : Mr Klm} {sgl metaSgl : List Seg} {p q : Option ℕ}
    (hmeta : mr.metaNdescs = 0 ∧ mr.metaLength = 0)
    (hn : (sgToKlms lkey mr sgl p metaSgl q).2.2.2 = sgl.length + metaSgl.length) :
    ∃ iova, ∃ D : Mr Klm, D = klmData lkey mr iova sgl (p.getD 0) ∧ D.ndescs = sgl.length ∧
      (klmLoop lkey metaSgl sgl.length (q.getD 0) D).2.1 = sgl.length + metaSgl.length ∧
      (sgToKlms lkey mr sgl p metaSgl q).1 =
        { (klmLoop lkey metaSgl sgl.length (q.getD 0) D).1 with
          metaNdescs := metaSgl.length
          metaLength :=
            toInt ((klmLoop lkey metaSgl sgl.length (q.getD 0) D).1.length - D.dataLength) } := by
  set iova := toU 64 ((sgl.map Seg.addr).headD 0 + p.getD 0 : ℕ) with hiova
  set D := klmData lkey mr iova (sgl.take (toU 16 sgl.length)) (p.getD 0) with hD
  have hDn : D.ndescs ≤ (sgl.take (toU 16 sgl.length)).length := by
    have := (@klmLoop_frame lkey (sgl.take (toU 16 sgl.length)) 0 (p.getD 0)
      { mr with iova := iova, length := 0 }).1
    rwa [Nat.zero_add] at this
  have hDlen : (sgl.take (toU 16 sgl.length)).length ≤ sgl.length := List.length_take_le' ..
  have hMlen : (metaSgl.take (toU 16 metaSgl.length)).length ≤ metaSgl.length :=
    List.length_take_le' ..
  have hfull : ∀ {l : List Seg} {c : ℕ}, (l.take c).length = l.length → l.take c = l := by
    intro l c h
    rw [List.length_take] at h
    exact List.take_of_length_le (by omega)
  by_cases hempty : metaSgl.take (toU 16 metaSgl.length) = []
  · have hrun : (sgToKlms lkey mr sgl p metaSgl q).1 = D ∧
        (sgToKlms lkey mr sgl p metaSgl q).2.2.2 = D.ndescs := by
      simp only [sgToKlms, if_pos hempty]
      exact ⟨rfl, rfl⟩
    obtain rfl : metaSgl = [] := List.length_eq_zero_iff.mp (by omega)
    rw [hfull (by omega)] at hD
    refine ⟨iova, D, hD, by omega, ?_, ?_⟩
    · simp [klmLoop]
    · obtain ⟨-, descs, length, hframe⟩ := @klmLoop_frame lkey sgl 0 (p.getD 0)
        { mr with iova := iova, length := 0 }
      have hzero : D.metaNdescs = 0 ∧ D.metaLength = 0 := by
        simp only [hD, klmData, hframe]
        exact hmeta
      have hlen : toInt (D.length - D.dataLength) = 0 := by
        rw [hD]
        exact toInt_sub_toInt _
      rw [hrun.1]
      simp only [klmLoop, hlen]
      exact eq_no_meta hzero.1 hzero.2
  · have hrun : (sgToKlms lkey mr sgl p metaSgl q).1 =
        { (klmLoop lkey (metaSgl.take (toU 16 metaSgl.length)) D.ndescs (q.getD 0) D).1 with
          metaNdescs := (klmLoop lkey (metaSgl.take (toU 16 metaSgl.length)) D.ndescs
            (q.getD 0) D).2.1 - D.ndescs
          metaLength := toInt ((klmLoop lkey (metaSgl.take (toU 16 metaSgl.length)) D.ndescs
            (q.getD 0) D).1.length - (klmLoop lkey (metaSgl.take (toU 16 metaSgl.length)) D.ndescs
            (q.getD 0) D).1.dataLength) } ∧ (sgToKlms lkey mr sgl p metaSgl q).2.2.2 =
          (klmLoop lkey (metaSgl.take (toU 16 metaSgl.length)) D.ndescs (q.getD 0) D).2.1 := by
      simp only [sgToKlms, if_neg hempty]
      exact ⟨rfl, rfl⟩
    obtain ⟨hle, descs, length, hframe⟩ := @klmLoop_frame lkey
      (metaSgl.take (toU 16 metaSgl.length)) D.ndescs (q.getD 0) D
    rw [hrun.2] at hn
    have hDs : D.ndescs = sgl.length := by omega
    have hMs : metaSgl.take (toU 16 metaSgl.length) = metaSgl := hfull (by omega)
    have hSs : sgl.take (toU 16 sgl.length) = sgl := hfull (by omega)
    rw [hMs, hDs] at hn hrun hframe
    rw [hSs] at hD
    have hidx : (klmLoop lkey metaSgl sgl.length (q.getD 0) D).2.1 =
        sgl.length + metaSgl.length := by exact_mod_cast hn
    have hdata : (klmLoop lkey metaSgl sgl.length (q.getD 0) D).1.dataLength = D.dataLength := by
      rw [hframe]
    refine ⟨iova, D, hD, hDs, hidx, ?_⟩
    rw [hrun.1, hidx, hdata, Nat.add_sub_cancel_left]

/-- The KLM MR that `mlx5_ib_map_klm_mr_sg_pi` leaves behind when it takes both lists. -/
theorem mapKlm_all {mr : SigMr} {dataSg metaSg : List Seg} {pd pm : Option ℕ}
    (hn : (mapKlmMrSgPi mr dataSg pd metaSg pm).n = dataSg.length + metaSg.length) :
    ∃ k D M : Mr Klm, ∃ iova, D = klmData mr.localDmaLkey k iova dataSg (pd.getD 0) ∧
      M = (klmLoop mr.localDmaLkey metaSg dataSg.length (pm.getD 0) D).1 ∧
      D.ndescs = dataSg.length ∧
      (klmLoop mr.localDmaLkey metaSg dataSg.length (pm.getD 0) D).2.1 =
        dataSg.length + metaSg.length ∧ (mapKlmMrSgPi mr dataSg pd metaSg pm).mr = { mr with
        length := M.length
        klmMr := { M with
          metaNdescs := metaSg.length, metaLength := toInt (M.length - D.dataLength)
          dataIova := 0, iova := 0, piIova := toU 64 D.dataLength } } := by
  obtain ⟨iova, D, hD, hDn, hidx, heq⟩ := @sgToKlms_all mr.localDmaLkey
    { mr.klmMr with ndescs := 0, metaNdescs := 0, metaLength := 0 } dataSg metaSg pd pm
    ⟨rfl, rfl⟩ hn
  obtain ⟨-, descs, length, hframe⟩ := @klmLoop_frame mr.localDmaLkey metaSg
    dataSg.length (pm.getD 0) D
  have hdata : (klmLoop mr.localDmaLkey metaSg dataSg.length (pm.getD 0) D).1.dataLength =
      D.dataLength := by rw [hframe]
  refine ⟨_, D, _, iova, hD, rfl, hDn, hidx, ?_⟩
  simp only [mapKlmMrSgPi, heq, hdata]

theorem toInt_modEq (x : ℤ) : toInt x ≡ x [ZMOD 2 ^ 32] := by
  unfold toInt Int.ModEq
  omega

/-- A length that fits an `int` tells which offset it was computed with. -/
theorem offset_of_length {x : ℤ} {t t' o o' : ℕ} (hx : x ≡ t - o' [ZMOD 2 ^ 32])
    (hlen : toInt x = t') (hsum : t' + o = t) (ho : o < 2 ^ 32) (ho' : o' < 2 ^ 32) : o' = o := by
  have hmod : (t' : ℤ) ≡ t - o' [ZMOD 2 ^ 32] := hlen ▸ (toInt_modEq x).trans hx
  unfold Int.ModEq at hmod
  omega

theorem lt_of_head {ps off : ℕ} {l : List Seg} (h : ListOk ps l off) (hne : l ≠ []) :
    off < 2 ^ 32 := by
  cases l with
  | nil => exact absurd rfl hne
  | cons s l => exact (h.inside s rfl).trans (h.small s (List.mem_cons_self ..)).len

theorem skip_congr {off off' : ℕ} {l : List Seg} (h : l ≠ [] → off = off') :
    skip off l = skip off' l := by
  cases l with
  | nil => rfl
  | cons s l => rw [h (by simp)]

theorem ListOk.bounds {ps off : ℕ} {l : List Seg} (hps : 0 < ps) (h : ListOk ps l off) :
    ∀ s ∈ l, 0 < s.len ∧ s.len < 2 ^ 32 ∧ s.addr + s.len < 2 ^ 64 :=
  fun s hs => ⟨(h.small s hs).pos, (h.small s hs).len, (h.small s hs).end_lt hps⟩

/-- KLM: the MR holds exactly the two lists if and only if it was given the start offsets and their
    lengths fit an `int`. -/
theorem mapKlm_exact_iff {mr : SigMr} {dataSg metaSg : List Seg} {pd pm : Option ℕ}
    {ps od om : ℕ} (hps : 0 < ps) (hd : ListOk ps dataSg od) (hm : ListOk ps metaSg om)
    (hpd : pd.getD 0 < 2 ^ 32) (hpm : pm.getD 0 < 2 ^ 32)
    (hn : (mapKlmMrSgPi mr dataSg pd metaSg pm).n = dataSg.length + metaSg.length) :
    Exact (finish (mapKlmMrSgPi mr dataSg pd metaSg pm).mr (some .klm)) (skip od dataSg)
        (skip om metaSg) ↔ (total (skip od dataSg) < 2 ^ 31 ∧ total (skip om metaSg) < 2 ^ 31) ∧
      (dataSg ≠ [] → pd.getD 0 = od) ∧ (metaSg ≠ [] → pm.getD 0 = om) := by
  obtain ⟨k, D, M, iova, hD, hM, hDn, hidx, hrun⟩ := mapKlm_all hn
  rw [hrun]
  have hDlen : D.dataLength = toInt D.length := by rw [hD, klmData]
  have hMfix : M.dataLength = D.dataLength ∧ M.ndescs = D.ndescs := by
    obtain ⟨-, descs, length, hframe⟩ := @klmLoop_frame mr.localDmaLkey metaSg
      dataSg.length (pm.getD 0) D
    rw [hM, hframe]
    exact ⟨rfl, rfl⟩
  constructor
  · -- the lengths tell the offsets apart
    intro hex
    have hl₁ : M.dataLength = total (skip od dataSg) := hex.data.length
    have hl₂ : toInt (M.length - D.dataLength) = total (skip om metaSg) := hex.pi.length
    rw [hMfix.1, hDlen] at hl₁
    rw [hDlen] at hl₂
    refine ⟨⟨lt_of_toInt_eq hl₁, lt_of_toInt_eq hl₂⟩, fun hne => ?_, fun hne => ?_⟩
    · have hmod := klmData_length hne (hD ▸ hDn)
      rw [← hD] at hmod
      exact offset_of_length hmod hl₁ (total_skip hd.inside hne) (lt_of_head hd hne) hpd
    · have hmod := klmLoop_length metaSg _ (pm.getD 0) D hidx (fun h => absurd h hne)
      rw [← hM] at hmod
      have hsub := Int.ModEq.sub hmod (toInt_modEq D.length)
      rw [show (D.length : ℤ) + total metaSg - (pm.getD 0 : ℕ) - D.length =
        total metaSg - (pm.getD 0 : ℕ) by omega] at hsub
      exact offset_of_length hsub hl₂ (total_skip hm.inside hne) (lt_of_head hm hne) hpm
  · rintro ⟨⟨hsize, hsizeT⟩, hpd', hpm'⟩
    have hDs : skip (pd.getD 0) dataSg = skip od dataSg := skip_congr hpd'
    have hMs : skip (pm.getD 0) metaSg = skip om metaSg := skip_congr hpm'
    obtain ⟨hlen, hdescs⟩ := klmData_exact (hD ▸ hDn)
      (fun s hs => hpd' (List.ne_nil_of_mem (List.mem_of_mem_head? hs)) ▸ hd.inside s hs)
      (hd.bounds hps) (by rw [hDs]; omega)
    rw [← hD, hDs] at hlen hdescs
    obtain ⟨hlen', hold, hdescs'⟩ := klmLoop_exact metaSg _ (pm.getD 0) D hidx
      (fun s hs => hpm' (List.ne_nil_of_mem (List.mem_of_mem_head? hs)) ▸ hm.inside s hs)
      (hm.bounds hps) (by rw [hMs, hlen]; omega)
    rw [← hM, hMs] at hlen' hdescs'
    rw [← hM] at hold
    rw [hlen] at hlen'
    have hdl : D.dataLength = total (skip od dataSg) := by
      rw [hDlen, hlen]
      exact toInt_of_lt (by omega)
    have hpi : toU 64 D.dataLength = total (skip od dataSg) := by
      rw [hdl]
      exact toU_of_lt (by omega)
    -- the descriptors are the two lists, one behind the other
    have hsegs : (range (M.ndescs + metaSg.length)).map (fun i => (M.descs i).seg) =
        skip od dataSg ++ skip om metaSg := by
      rw [hMfix.2, hDn, List.range_add, List.map_append, List.map_map]
      congr 1
      refine Eq.trans (List.map_congr_left fun i hi => ?_) hdescs
      rw [hold i (List.mem_range.mp hi)]
    have hmeta : toInt (M.length - D.dataLength) = total (skip om metaSg) := by
      rw [hlen', hdl, Nat.cast_add, add_sub_cancel_left]
      exact toInt_of_lt (by omega)
    rw [hpi, hmeta]
    refine ⟨⟨hMfix.1.trans hdl, fun x hx => ?_⟩, ⟨rfl, fun x hx => ?_⟩, hlen'⟩
    · simp only [translate, finish, described, klmByte, hsegs]
      rw [if_pos ⟨Nat.zero_le _, by omega⟩, Nat.sub_zero, Nat.zero_add]
      exact byteAt_append_left hx
    · simp only [translate, finish, described, klmByte, hsegs]
      rw [if_pos ⟨Nat.zero_le _, by omega⟩, Nat.sub_zero, byteAt_append_right (by omega),
        Nat.add_sub_cancel_left]

end Klm

/-! ### All paths -/

/-- The offsets that a page list leaves behind, if it is tried in vain, are the start offsets. -/
def Kept (mr : SigMr) (dataSg : List Seg) (pd : Option ℕ) (metaSg : List Seg) (pm : Option ℕ) :
    Prop :=
  ∀ left ∈ mttLeft mr.pageSize mr.mttMr.maxDescs dataSg pd metaSg pm,
    (dataSg ≠ [] → left.1.getD 0 = pd.getD 0) ∧ (metaSg ≠ [] → left.2.getD 0 = pm.getD 0)

section Paths

variable {mr : SigMr} {dataSg metaSg : List Seg} {pd pm : Option ℕ}

/-- Two MRs with the same page size and the same internal MTT MR. -/
def SameMtt (mr mr' : SigMr) : Prop := mr'.pageSize = mr.pageSize ∧ mr'.mttMr = mr.mttMr

-- the new values are variables here, so that they are not evaluated where this is used
theorem sameMtt_update (mr : SigMr) (length ndescs metaNdescs dataIova piIova : ℕ)
    (dataLength metaLength : ℤ) :
    SameMtt mr { mr with
      length := length, ndescs := ndescs, metaNdescs := metaNdescs, dataIova := dataIova
      piIova := piIova, dataLength := dataLength, metaLength := metaLength } :=
  ⟨rfl, rfl⟩

theorem mapPa_frame : SameMtt mr (mapPaMrSgPi mr dataSg pd metaSg pm).1 := by
  unfold mapPaMrSgPi
  split
  · exact sameMtt_update mr _ _ _ _ _ _ _
  · exact sameMtt_update mr _ _ _ _ _ _ _
  · exact sameMtt_update mr _ _ _ _ _ _ _

/-- What one element contributes. -/
theorem pa_element {ps off : ℕ} {s : Seg} (hpos : 0 < ps) (hs : Small ps s) (hin : off ≤ s.len)
    (hlt : s.len - off < 2 ^ 31) :
    toInt (toU 32 ((s.len : ℤ) - off)) = (s.len - off : ℕ) ∧
      toU 64 (s.addr + off : ℕ) = s.addr + off := by
  have hend := hs.end_lt hpos
  rw [toU_sub hs.len hin]
  exact ⟨toInt_of_lt hlt, toU_of_lt (by omega)⟩

/-- A length that comes out right was not computed with too large an offset. -/
theorem pa_length {len off : ℕ} (hlen : len < 2 ^ 32) (hoff : off < 2 ^ 32)
    (h : toInt (toU 32 ((len : ℤ) - off)) = total [⟨0, len - off⟩]) :
    off ≤ len ∧ len - off < 2 ^ 31 := by
  have hlt := lt_of_toInt_eq h
  simp only [total_cons, total_nil, Nat.add_zero, toU, toInt] at h hlt
  omega

/-- Physical addresses are the bytes of a list of one element. -/
theorem pa_bytes {mr : SigMr} {s : Seg} {off : ℕ} (hpi : mr.piMr = none) :
    Denotes mr (s.addr + off) (s.len - off : ℕ) (skip off [s]) := by
  refine ⟨rfl, fun x hx => ?_⟩
  have hlt : x < s.len - off := by simpa [skip] using hx
  rw [translate, hpi]
  exact (if_pos hlt).symm

theorem pa_nothing {mr : SigMr} (iova : ℕ) : Denotes mr iova 0 [] :=
  ⟨rfl, fun x hx => absurd hx (Nat.not_lt_zero x)⟩

/-- The count of PA elements is right exactly for lists of at most one element each. -/
theorem mapPa_count : (mapPaMrSgPi mr dataSg pd metaSg pm).2 = dataSg.length + metaSg.length ↔
    PaFits dataSg metaSg := by
  match dataSg, metaSg with
  | [], [] => simp [mapPaMrSgPi, PaFits]
  | [], m :: metaSg =>
    simp only [mapPaMrSgPi, PaFits, List.length_nil]
    omega
  | [d], [] => simp [mapPaMrSgPi, PaFits]
  | [d], [m] => simp [mapPaMrSgPi, PaFits]
  | [d], m :: m' :: metaSg =>
    simp only [mapPaMrSgPi, PaFits, length_cons]
    omega
  | d :: d' :: dataSg, metaSg =>
    simp only [mapPaMrSgPi, PaFits, length_cons]
    omega

/-- What physical addresses have to hold: offsets inside the elements, lengths whose sum fits an
    `int`; and without any element the MR keeps its length. -/
structure PaSized (mr : SigMr) (dataSg : List Seg) (od : ℕ) (metaSg : List Seg) (om : ℕ) :
    Prop where
  data : ∀ d ∈ dataSg.head?, od ≤ d.len
  pi : ∀ m ∈ metaSg.head?, om ≤ m.len
  size : total (skip od dataSg) + total (skip om metaSg) < 2 ^ 31
  empty : dataSg = [] → mr.length = 0

/-- PA: one element each is described, exactly if it fits. -/
theorem mapPa_exact_iff (hpos : 0 < mr.pageSize) (h0 : mr.dataLength = 0)
    (hoff : pd.getD 0 < 2 ^ 32 ∧ pm.getD 0 < 2 ^ 32)
    (hsmall : ∀ s ∈ dataSg ++ metaSg, Small mr.pageSize s) (hpa : PaFits dataSg metaSg) :
    Exact (finish (mapPaMrSgPi mr dataSg pd metaSg pm).1 none) (skip (pd.getD 0) dataSg)
      (skip (pm.getD 0) metaSg) ↔ PaSized mr dataSg (pd.getD 0) metaSg (pm.getD 0) := by
  match dataSg, metaSg with
  | [], [] =>
    refine ⟨fun hex => ⟨by simp, by simp, by simp [skip], fun _ => hex.length⟩, fun h => ?_⟩
    refine ⟨?_, pa_nothing _, h.empty rfl⟩
    simp only [mapPaMrSgPi, h0]
    exact pa_nothing _
  | [], m :: metaSg => exact absurd hpa.2 (by simp)
  | [d], [] =>
    have hd := hsmall d (by simp)
    refine ⟨fun hex => ?_, fun h => ?_⟩
    · obtain ⟨hle, hlt⟩ := pa_length hd.len hoff.1 hex.data.length
      exact ⟨by rintro d ⟨⟩; exact hle, by simp, by simpa [skip] using hlt, by simp⟩
    · have hlt : d.len - pd.getD 0 < 2 ^ 31 := by simpa [skip] using h.size
      obtain ⟨hd, hda⟩ := pa_element hpos hd (h.data d rfl) hlt
      simp only [mapPaMrSgPi, setLength, mapPaData, hd, hda, add_zero, toU_toInt_of_lt hlt]
      exact ⟨pa_bytes rfl, pa_nothing _, rfl⟩
  | [d], [m] =>
    have hd := hsmall d (by simp)
    have hm := hsmall m (by simp)
    refine ⟨fun hex => ?_, fun h => ?_⟩
    · obtain ⟨hle, hlt⟩ := pa_length hd.len hoff.1 hex.data.length
      obtain ⟨hle', hlt'⟩ := pa_length hm.len hoff.2 hex.pi.length
      refine ⟨by rintro d ⟨⟩; exact hle, by rintro m ⟨⟩; exact hle', ?_, by simp⟩
      obtain ⟨hdl, -⟩ := pa_element hpos hd hle hlt
      obtain ⟨hml, -⟩ := pa_element hpos hm hle' hlt'
      have hlen := hex.length
      simp only [mapPaMrSgPi, setLength, mapPaData, mapPaMeta, finish, hdl, hml] at hlen
      simpa [skip] using lt_of_toU_toInt hlen (by omega)
    · have hlt : d.len - pd.getD 0 + (m.len - pm.getD 0) < 2 ^ 31 := by simpa [skip] using h.size
      obtain ⟨hd, hda⟩ := pa_element hpos hd (h.data d rfl) (by omega)
      obtain ⟨hm, hma⟩ := pa_element hpos hm (h.pi m rfl) (by omega)
      simp only [mapPaMrSgPi, setLength, mapPaData, mapPaMeta, hd, hm, hda, hma, ← Nat.cast_add,
        toU_toInt_of_lt hlt]
      exact ⟨pa_bytes rfl, pa_bytes rfl, rfl⟩
  | [d], m :: m' :: metaSg => exact absurd hpa.2 (by simp)
  | d :: d' :: dataSg, metaSg => exact absurd hpa.1 (by simp)

/-- What a page list leaves behind fits an `unsigned int`. -/
theorem mttLeft_lt {ps cap : ℕ} {left : Option ℕ × Option ℕ} (hd : pd.getD 0 < 2 ^ 32)
    (hm : pm.getD 0 < 2 ^ 32) (h : mttLeft ps cap dataSg pd metaSg pm = some left) :
    left.1.getD 0 < 2 ^ 32 ∧ left.2.getD 0 < 2 ^ 32 := by
  have hmap : ∀ (p : Option ℕ) (o : ℕ), o < 2 ^ 32 → (p.map fun _ => o).getD 0 < 2 ^ 32 := by
    intro p o ho
    cases p with
    | none => exact Nat.two_pow_pos 32
    | some _ => exact ho
  have hdo := @outcome_offset_lt ps cap dataSg (pd.getD 0) none 0 hd
  rw [mttLeft] at h
  split at h
  · cases h
    exact ⟨hd, hm⟩
  · split at h
    · rename_i used hused
      split at h
      · cases h
      · have hmo := @outcome_offset_lt ps (cap - used) metaSg (pm.getD 0) none 0 hm
        split at h
        · cases h
        · cases h
          exact ⟨hmap pd 0 (Nat.two_pow_pos 32), hmap pm _ hmo⟩
    · cases h
      exact ⟨hmap pd _ hdo, hm⟩

end Paths

/-- An MR with 4096-byte pages and room for four descriptors of each kind. -/
def emptyMr : SigMr :=
  { iova := 0, length := 0, pageSize := 4096, ndescs := 0, metaNdescs := 0, dataIova := 0
    piIova := 0, dataLength := 0, metaLength := 0, localDmaLkey := 0, piMr := none
    sigMetaLength := 0
    mttMr := ⟨0, 0, 4096, 0, 0, 4, fun _ => 0, 0, 0, 0, 0⟩
    klmMr := ⟨0, 0, 4096, 0, 0, 4, fun _ => ⟨0, 0, 0⟩, 0, 0, 0, 0⟩ }

end RdmaDriver.Mlx5Pi
