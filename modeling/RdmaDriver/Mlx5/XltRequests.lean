import RdmaDriver.Mlx5.OdpMr
import RdmaDriver.Mlx5.UmrWqe

/-! @src drivers/infiniband/hw/mlx5/umr.c | name:UMR translation window | scheme:tiles |
    family:table

    The requests of `mlx5r_umr_update_xlt`: one for each chunk of the window, the first at the
    window's start rounded down to 64 bytes, the last cut where the window or the region ends and
    padded to 64 bytes with what the buffer holds. Before each request the buffer is synced with
    the length that the request before it had.

        idx & ~page_mask                                 min (window, region)
        +--- request 0 ---+--- request 1 ---+--- request 2 --+┄┄+
          pages_iter        pages_iter        npages          align  -/

namespace RdmaDriver.XltRequests
open Schemes UpdateXlt UmrWqe

/-- `ALIGN` of an `int`. -/
def alignInt (n a : ℤ) : ℤ := toInt ((n + a - 1) / a * a)

/-- A request, and the length for which the buffer was synced before it. -/
structure Posted (α : Type) where
  synced : ℕ
  req : Request α

/-- The state of the loop. -/
structure Xlt (α : Type) where
  wqe : Wqe
  xlt : ℕ → α
  sgLength : ℕ
  pagesMapped : ℕ
  idx : ℕ
  posted : List (Posted α)

/-- `sizeof(struct mlx5_klm)` and `sizeof(struct mlx5_mtt)`. -/
def descSize (flags : ℕ) : ℕ := if flags &&& MLX5_IB_UPD_XLT_INDIRECT ≠ 0 then 16 else 8

section Loop

variable {α : Type} (descSize : ℕ) (populate : ℕ → ℕ → (ℕ → α) → ℕ → α)

/-- One turn of the loop, up to its request. -/
def xltTurn (dev : Caps) (ibmrLength flags pagesToMap pagesIter : ℕ) (s : Xlt α) : Xlt α :=
  let npages := (min (toInt pagesIter) (toInt ((pagesToMap : ℤ) - s.pagesMapped))).toNat
  let sizeToMap := npages * descSize
  let xlt := populate s.idx npages s.xlt
  let synced := s.sgLength
  let sgLength := align sizeToMap MLX5_UMR_FLEX_ALIGNMENT
  let wqe := if pagesToMap ≤ s.pagesMapped + pagesIter then
    mlx5rUmrFinalUpdateXlt dev s.wqe ibmrLength sgLength flags else s.wqe
  let wqe := mlx5rUmrUpdateOffset wqe (toU 64 (s.idx * descSize : ℕ))
  { wqe := wqe, xlt := xlt, sgLength := sgLength
    pagesMapped := s.pagesMapped + pagesIter, idx := s.idx + pagesIter
    posted := s.posted ++ [⟨synced, ⟨wqe, xlt⟩⟩] }

/-- The loop over the chunks; `post` tells how the requests fare. Without fuel there is no result.
    -/
def xltLoop (dev : Caps) (ibmrLength flags pagesToMap pagesIter : ℕ)
    (post : ℕ → Option Errno) : ℕ → Xlt α → Option (Option Errno × Xlt α)
  | fuel, s =>
    if s.pagesMapped < pagesToMap then
      match fuel with
      | 0 => none
      | fuel + 1 =>
        let s' := xltTurn descSize populate dev ibmrLength flags pagesToMap pagesIter s
        match post s.posted.length with
        | some err => some (some err, s')
        | none => xltLoop dev ibmrLength flags pagesToMap pagesIter post fuel s'
    else some (none, s)

/-- What `mlx5r_umr_update_xlt` reads of the MR and of the device: whether the umem is an ODP one
    and how many pages it has, the length of the MR, and whether the device takes indirect mkeys. -/
structure Mr where
  isOdp : Bool
  numPages : ℕ
  length : ℕ
  caps : Caps
  umrIndirectMkeyDisabled : Bool

end Loop

/-- `mlx5r_umr_update_xlt`: the return value and the requests. -/
def mlx5rUmrUpdateXlt {α : Type} (populate : ℕ → ℕ → (ℕ → α) → ℕ → α) (zero : α) (mr : Mr)
    (a : Alloc) (post : ℕ → Option Errno) (fuel idx : ℕ) (npages : ℤ) (flags : ℕ) :
    Option (Option Errno × List (Posted α)) :=
  let indirect := flags &&& MLX5_IB_UPD_XLT_INDIRECT ≠ 0
  let descSize := descSize flags
  let pageAlign := MLX5_UMR_FLEX_ALIGNMENT / descSize
  if indirect ∧ mr.umrIndirectMkeyDisabled then some (some .eperm, [])
  else if !mr.isOdp then some (some .einval, [])
  else
    let npages := toInt (npages + idx % pageAlign)
    let idx := idx - idx % pageAlign
    let pagesToMap := toU 64 (alignInt npages pageAlign)
    match mlx5rUmrCreateXlt a (toU 64 npages) descSize with
    | none => some (some .enomem, [])
    | some sgLength =>
      let pagesIter := sgLength / descSize
      let pagesToMap := if indirect then pagesToMap
        else min pagesToMap (toU 64 ((mr.numPages : ℤ) - idx))
      let wqe := mlx5rUmrSetUpdateXltCtrlSeg Wqe.zero flags sgLength
      let wqe := mlx5rUmrSetUpdateXltDataSeg wqe sgLength
      let s : Xlt α := ⟨wqe, fun _ => zero, sgLength, 0, idx, []⟩
      (xltLoop descSize populate mr.caps mr.length flags pagesToMap pagesIter post fuel s).map
        fun (err, s) => (err, s.posted)


/-! ### Entries -/

def MLX5_IMR_MTT_SHIFT : ℕ := 30
def MLX5_IMR_MTT_SIZE : ℕ := 1 <<< MLX5_IMR_MTT_SHIFT

/-- An entry of a table: a `struct mlx5_mtt` or, in an indirect one, a `struct mlx5_klm`. -/
inductive Entry where
  | mtt (ptag : BitVec 64)
  | klm (bcount key va : ℕ)
  deriving DecidableEq

/-- What the entries are made of: the DMA list of the umem, the lkeys of the children, and the null
    mkeys of the device and of the MR, of which `mem_page_fault` chooses one. -/
structure Pages where
  dmaList : ℕ → BitVec 64
  implicitChildren : ℕ → Option ℕ
  memPageFault : Bool
  nullMmkey : ℕ
  nullMkey : ℕ

/-- `populate_klm`. -/
def populateKlm (o : Pages) (flags idx nentries : ℕ) (pklm : ℕ → Entry) (i : ℕ) : Entry :=
  let step := if o.memPageFault then MLX5_IMR_MTT_SIZE else 0
  let key := if o.memPageFault then o.nullMmkey else o.nullMkey
  let va := if o.memPageFault then toU 64 (idx * MLX5_IMR_MTT_SIZE : ℕ) else 0
  if i < nentries then
    if flags &&& MLX5_IB_UPD_XLT_ZAP ≠ 0 then
      .klm MLX5_IMR_MTT_SIZE key (toU 64 (va + i * step : ℕ))
    else match o.implicitChildren (idx + i) with
      | some lkey => .klm MLX5_IMR_MTT_SIZE lkey (toU 64 ((idx + i) * MLX5_IMR_MTT_SIZE : ℕ))
      | none => .klm MLX5_IMR_MTT_SIZE key (toU 64 (va + i * step : ℕ))
  else pklm i

/-- `populate_mtt`. -/
def populateMtt (o : Pages) (flags idx nentries : ℕ) (pas : ℕ → Entry) (i : ℕ) : Entry :=
  if flags &&& MLX5_IB_UPD_XLT_ZAP ≠ 0 then pas i
  else if i < nentries then .mtt (OdpMr.umemDmaToMtt (o.dmaList (idx + i))) else pas i

/-- `mlx5_odp_populate_xlt`. -/
def mlx5OdpPopulateXlt (o : Pages) (flags idx nentries : ℕ) (xlt : ℕ → Entry) : ℕ → Entry :=
  if flags &&& MLX5_IB_UPD_XLT_INDIRECT ≠ 0 then populateKlm o flags idx nentries xlt
  else populateMtt o flags idx nentries xlt

/-- An entry of a buffer full of zeroes. -/
def zeroEntry (flags : ℕ) : Entry :=
  if flags &&& MLX5_IB_UPD_XLT_INDIRECT ≠ 0 then .klm 0 0 0 else .mtt 0#64

/-- What `mlx5_odp_populate_xlt` produces for page `j`. -/
def pageEntry (o : Pages) (flags j : ℕ) : Entry :=
  mlx5OdpPopulateXlt o flags j 1 (fun _ => zeroEntry flags) 0

/-- A buffer whose entries stay as they are is zero. -/
def Blank (flags : ℕ) (xlt : ℕ → Entry) : Prop :=
  flags &&& MLX5_IB_UPD_XLT_INDIRECT = 0 → flags &&& MLX5_IB_UPD_XLT_ZAP ≠ 0 →
    ∀ k, xlt k = zeroEntry flags

/-- The address in an entry does not depend on where its chunk starts. -/
theorem toU_step (idx k step : ℕ) :
    toU 64 (toU 64 (idx * step : ℕ) + k * step : ℕ) = toU 64 ((idx + k) * step : ℕ) := by
  rw [toU_eq_mod, toU_eq_mod, toU_eq_mod, Nat.mod_add_mod, Nat.add_mul]

theorem populateKlm_eq (o : Pages) (flags idx n : ℕ) (xlt xlt' : ℕ → Entry) {k : ℕ} (hk : k < n) :
    populateKlm o flags idx n xlt k = populateKlm o flags (idx + k) 1 xlt' 0 := by
  simp only [populateKlm, if_pos hk, if_pos Nat.one_pos]
  cases hfault : o.memPageFault
  · simp
  · simp only [if_true, toU_step, Nat.add_zero]

/-- The buffer is filled with the entries of its pages. -/
theorem populateXlt_fills (o : Pages) (flags : ℕ) :
    Fills (mlx5OdpPopulateXlt o flags) (Blank flags) (pageEntry o flags) := by
  intro idx n xlt hblank
  unfold pageEntry mlx5OdpPopulateXlt
  by_cases hind : flags &&& MLX5_IB_UPD_XLT_INDIRECT ≠ 0
  · simp only [if_pos hind]
    exact ⟨fun hind' => absurd hind' hind, fun k hk => populateKlm_eq o flags idx n _ _ hk⟩
  · simp only [if_neg hind, populateMtt]
    by_cases hzap : flags &&& MLX5_IB_UPD_XLT_ZAP ≠ 0
    · have hsame : populateMtt o flags idx n xlt = xlt := funext fun i => if_pos hzap
      rw [hsame]
      simp only [if_pos hzap]
      exact ⟨hblank, fun k _ => hblank (not_not.mp hind) hzap k⟩
    · simp only [if_neg hzap]
      exact ⟨fun _ hzap' => absurd hzap' hzap, fun k hk => by simp [hk]⟩

/-! ### One request -/

/-- What holds of every request: it names whole units, as many bytes as it takes from the buffer,
    and those were synced and are in the buffer. -/
structure Sound {α : Type} (size : ℕ) (p : Posted α) : Prop where
  offset : MLX5_UMR_FLEX_ALIGNMENT ∣ p.req.offset * MLX5_IB_UMR_OCTOWORD
  length : p.req.wqe.xltOctowords * MLX5_IB_UMR_OCTOWORD = p.req.wqe.byteCount
  units : MLX5_UMR_FLEX_ALIGNMENT ∣ p.req.wqe.byteCount
  synced : p.req.wqe.byteCount ≤ p.synced
  fits : p.synced ≤ size

/-- Between two chunks: `pages_mapped` pages from `lo` on are sent, and the entry offers the whole
    buffer of `n` descriptors. -/
structure Inv {α : Type} (Good : (ℕ → α) → Prop) (g : ℕ → α) (d n ptm lo : ℕ) (s : Xlt α) :
    Prop where
  sent : Tiles (fun i v => i < lo + ptm → v = g i) lo s.idx
    (s.posted.map fun p => p.req.tile d)
  idx : s.idx = lo + s.pagesMapped
  whole : n ∣ s.pagesMapped
  good : Good s.xlt
  sgLength : s.sgLength = n * d
  octowords : s.wqe.xltOctowords * MLX5_IB_UMR_OCTOWORD = n * d
  byteCount : s.wqe.byteCount = n * d
  posted : ∀ p ∈ s.posted, Sound (n * d) p

theorem align_of_dvd {n a : ℕ} (ha : 0 < a) (h : a ∣ n) : align n a = n := by
  obtain ⟨k, rfl⟩ := h
  rw [Nat.mul_comm a k, align_mul k ha]

section Turn

variable {α : Type} {Good : (ℕ → α) → Prop} {g : ℕ → α} {populate : ℕ → ℕ → (ℕ → α) → ℕ → α}
  {d a n ptm lo : ℕ} {s : Xlt α} {dev : Caps} {ibmrLength flags : ℕ}

/-- The sizes of a table and of a buffer for which no field of a request wraps. -/
structure Sizes (d a n ptm lo : ℕ) : Prop where
  dPos : 0 < d
  unit : MLX5_UMR_FLEX_ALIGNMENT = a * d
  nPos : 0 < n
  whole : a ∣ n
  start : a ∣ lo
  buffer : n * d < 2 ^ 20
  pages : ptm < 2 ^ 31
  table : (lo + ptm) * d ≤ 2 ^ 52

theorem Sizes.a_pos (h : Sizes d a n ptm lo) : 0 < a := Nat.pos_of_ne_zero fun h0 => by
  have hunit := h.unit
  rw [h0, Nat.zero_mul] at hunit
  exact absurd hunit (by decide)

/-- The number of pages of a chunk, as the code computes it. -/
theorem Sizes.npages (h : Sizes d a n ptm lo) {pm : ℕ} (hpm : pm < ptm) :
    (min (toInt n) (toInt ((ptm : ℤ) - pm))).toNat = min n (ptm - pm) := by
  have hn : n < 2 ^ 31 := by
    have := Nat.le_mul_of_pos_right n h.dPos
    have := h.buffer
    omega
  have hp := h.pages
  rw [toInt_of_lt hn, ← Nat.cast_sub hpm.le, toInt_of_lt (by omega), ← Nat.cast_min,
    Int.toNat_natCast]

/-- STEP: the request of a turn is sound and sends the pages of its chunk. -/
theorem turn_request (dev : Caps) (ibmrLength flags : ℕ) (hz : Sizes d a n ptm lo)
    (hfill : Fills populate Good g) (h : Inv Good g d n ptm lo s) (hpm : s.pagesMapped < ptm) :
    let s' := xltTurn d populate dev ibmrLength flags ptm n s
    let m := min n (ptm - s.pagesMapped)
    ∃ p, s'.posted = s.posted ++ [p] ∧ Sound (n * d) p ∧ Good s'.xlt ∧
      Tiles (fun i v => i < lo + ptm → v = g i) lo (s.idx + align m a)
        ((s.posted ++ [p]).map fun p => p.req.tile d) := by
  intro s' m
  have ha := hz.a_pos
  have hnp : (min (toInt n) (toInt ((ptm : ℤ) - s.pagesMapped))).toNat = m := hz.npages hpm
  have hm : m ≤ n := Nat.min_le_left _ _
  have hdvd : MLX5_UMR_FLEX_ALIGNMENT ∣ n * d := hz.unit ▸ Nat.mul_dvd_mul_right hz.whole d
  have hle : align (m * d) MLX5_UMR_FLEX_ALIGNMENT ≤ n * d :=
    align_le (by decide) (Nat.mul_le_mul_right d hm) hdvd
  have hentries : align (m * d) MLX5_UMR_FLEX_ALIGNMENT / d = align m a := by
    rw [hz.unit]
    exact align_entries _ hz.dPos ha
  have hunits := dvd_align (m * d) MLX5_UMR_FLEX_ALIGNMENT
  have hidx : MLX5_UMR_FLEX_ALIGNMENT ∣ s.idx * d := by
    rw [hz.unit, h.idx]
    exact Nat.mul_dvd_mul_right ((Nat.dvd_add_right hz.start).mpr (hz.whole.trans h.whole)) d
  have hlt : s.idx * d < 2 ^ 52 := by
    have hmul : (s.idx + 1) * d ≤ (lo + ptm) * d :=
      Nat.mul_le_mul_right d (by rw [h.idx]; omega)
    rw [Nat.succ_mul] at hmul
    have := hz.table
    have := hz.dPos
    omega
  have hoff : toU 64 (s.idx * d : ℕ) = s.idx * d := toU_of_lt (by omega)
  -- the last turn cuts the lengths, the others leave them as they are
  have hsize : ∃ w : Wqe, w.xltOctowords * MLX5_IB_UMR_OCTOWORD =
      align (m * d) MLX5_UMR_FLEX_ALIGNMENT ∧ w.byteCount = align (m * d) MLX5_UMR_FLEX_ALIGNMENT ∧
      s'.posted = s.posted ++
        [⟨s.sgLength, ⟨mlx5rUmrUpdateOffset w (s.idx * d), populate s.idx m s.xlt⟩⟩] := by
    by_cases hlast : ptm ≤ s.pagesMapped + n
    · refine ⟨mlx5rUmrFinalUpdateXlt dev s.wqe ibmrLength
        (align (m * d) MLX5_UMR_FLEX_ALIGNMENT) flags,
        octowords_mul hunits (Nat.lt_of_le_of_lt hle hz.buffer), rfl, ?_⟩
      simp only [s', xltTurn, hnp, hoff, if_pos hlast]
    · have hfull : m = n := Nat.min_eq_left (by omega)
      have hunit : align (m * d) MLX5_UMR_FLEX_ALIGNMENT = n * d := by
        rw [hfull]
        exact align_of_dvd (by decide) hdvd
      refine ⟨s.wqe, by rw [hunit, h.octowords], by rw [hunit, h.byteCount], ?_⟩
      simp only [s', xltTurn, hnp, hoff, if_neg hlast]
  obtain ⟨w, hocto, hbytes, hposted⟩ := hsize
  have hoffset := @updateOffset_offset _ w _ (populate s.idx m s.xlt) hidx hlt
  obtain ⟨hgood, hval⟩ := hfill s.idx m s.xlt h.good
  refine ⟨_, hposted, ?_, ?_, ?_⟩
  · constructor
    · rw [hoffset]
      exact hidx
    · exact hocto.trans hbytes.symm
    · exact hbytes ▸ hunits
    · change w.byteCount ≤ s.sgLength
      rw [hbytes, h.sgLength]
      exact hle
    · exact h.sgLength.le
  · have hxlt : s'.xlt = populate s.idx m s.xlt := by simp only [s', xltTurn, hnp]
    rw [hxlt]
    exact hgood
  · have hcount : (Request.tile d ⟨mlx5rUmrUpdateOffset w (s.idx * d),
        populate s.idx m s.xlt⟩).count = align m a := by
      change w.xltOctowords * MLX5_IB_UMR_OCTOWORD / d = align m a
      rw [hocto, hentries]
    rw [List.map_append, List.map_singleton, ← hcount]
    refine h.sent.snoc ?_ fun k hk hend => ?_
    · simp only [Request.tile, hoffset, Nat.mul_div_cancel _ hz.dPos]
    · refine hval k ?_
      have hk : k < align m a := hcount ▸ hk
      have hidx' := h.idx
      rcases Nat.le_total n (ptm - s.pagesMapped) with hfull | hrest
      · have hm' : m = n := Nat.min_eq_left hfull
        rwa [hm', align_of_dvd ha hz.whole, ← hm'] at hk
      · have hm' : m = ptm - s.pagesMapped := Nat.min_eq_right hrest
        omega

/-- STEP: a turn that is not the last one leaves the entry as it is. -/
theorem inv_turn (hz : Sizes d a n ptm lo) (hfill : Fills populate Good g)
    (h : Inv Good g d n ptm lo s) (hmore : s.pagesMapped + n < ptm) :
    Inv Good g d n ptm lo (xltTurn d populate dev ibmrLength flags ptm n s) := by
  have hpm : s.pagesMapped < ptm := by omega
  have hm : min n (ptm - s.pagesMapped) = n := Nat.min_eq_left (by omega)
  have hdvd : MLX5_UMR_FLEX_ALIGNMENT ∣ n * d := hz.unit ▸ Nat.mul_dvd_mul_right hz.whole d
  have hwqe : (xltTurn d populate dev ibmrLength flags ptm n s).wqe =
      mlx5rUmrUpdateOffset s.wqe (toU 64 (s.idx * d : ℕ)) := by
    simp only [xltTurn, if_neg (Nat.not_le_of_lt hmore)]
  obtain ⟨p, hposted, hsound, hgood, htiles⟩ :=
    turn_request dev ibmrLength flags hz hfill h hpm
  constructor
  · rw [hm, align_of_dvd hz.a_pos hz.whole] at htiles
    rw [hposted]
    exact htiles
  · change s.idx + n = lo + (s.pagesMapped + n)
    rw [h.idx, Nat.add_assoc]
  · exact (Nat.dvd_add_right h.whole).mpr (Nat.dvd_refl n)
  · exact hgood
  · simp only [xltTurn, hz.npages hpm, hm]
    exact align_of_dvd (by decide) hdvd
  · rw [hwqe]
    exact h.octowords
  · rw [hwqe]
    exact h.byteCount
  · rw [hposted]
    exact List.forall_mem_append.mpr ⟨h.posted, List.forall_mem_singleton.mpr hsound⟩

/-- A chunk does not reach behind the last unit. -/
theorem Inv.chunk_le (hz : Sizes d a n ptm lo) (h : Inv Good g d n ptm lo s)
    (hpm : s.pagesMapped ≤ ptm) :
    s.idx + align (min n (ptm - s.pagesMapped)) a ≤ lo + align ptm a := by
  have ha := hz.a_pos
  have hle : align (min n (ptm - s.pagesMapped)) a ≤ align (ptm - s.pagesMapped) a :=
    align_le ha ((Nat.min_le_right _ _).trans (le_align _ ha)) (dvd_align _ a)
  obtain ⟨k, hk⟩ := hz.whole.trans h.whole
  have hsum : align ptm a = s.pagesMapped + align (ptm - s.pagesMapped) a := by
    rw [hk, Nat.mul_comm a k, ← align_add_mul _ _ ha, Nat.mul_comm k a, ← hk,
      Nat.add_sub_cancel' hpm]
  have := h.idx
  omega

/-- Where all pages are sent, the loop ends. -/
theorem xltLoop_done (post : ℕ → Option Errno) (fuel : ℕ) (hdone : ptm ≤ s.pagesMapped) :
    xltLoop d populate dev ibmrLength flags ptm n post fuel s = some (none, s) := by
  cases fuel <;> rw [xltLoop, if_neg (Nat.not_lt.mpr hdone)]

/-- The loop ends; its requests lie side by side from `lo` on, and where none fails they reach the
    end of the pages. -/
def Sent (g : ℕ → α) (d a n ptm lo : ℕ) (post : ℕ → Option Errno)
    (r : Option (Option Errno × Xlt α)) : Prop :=
  ∃ ret s' hi, r = some (ret, s') ∧
    Tiles (fun i v => i < lo + ptm → v = g i) lo hi (s'.posted.map fun p => p.req.tile d) ∧
    (∀ p ∈ s'.posted, Sound (n * d) p) ∧ hi ≤ lo + align ptm a ∧
    (ret = none → lo + ptm ≤ hi) ∧ ((∀ k, post k = none) → ret = none)

/-- RUN: the loop ends, with an error or with the requests for all pages. -/
theorem xltLoop_run (hz : Sizes d a n ptm lo) (hfill : Fills populate Good g)
    (post : ℕ → Option Errno) : ∀ (fuel : ℕ) (s : Xlt α), Inv Good g d n ptm lo s →
    s.pagesMapped ≤ ptm → ptm ≤ s.pagesMapped + fuel →
    Sent g d a n ptm lo post (xltLoop d populate dev ibmrLength flags ptm n post fuel s) := by
  have hsent : ∀ fuel s, Inv Good g d n ptm lo s → s.pagesMapped = ptm →
      Sent g d a n ptm lo post (xltLoop d populate dev ibmrLength flags ptm n post fuel s) := by
    intro fuel s h hpm
    have hidx : s.idx = lo + ptm := by rw [h.idx, hpm]
    have := le_align ptm hz.a_pos
    exact ⟨none, s, s.idx, xltLoop_done post fuel hpm.ge, h.sent, h.posted, by omega,
      fun _ => hidx.ge, fun _ => rfl⟩
  intro fuel
  induction fuel with
  | zero =>
    intro s h hle hfuel
    exact hsent 0 s h (Nat.le_antisymm hle hfuel)
  | succ fuel ih =>
    intro s h hle hfuel
    rcases Nat.lt_or_ge s.pagesMapped ptm with hpm | hpm
    · obtain ⟨p, hposted, hsound, hgood, htiles⟩ :=
        turn_request dev ibmrLength flags hz hfill h hpm
      have hsounds : ∀ q ∈ s.posted ++ [p], Sound (n * d) q :=
        List.forall_mem_append.mpr ⟨h.posted, List.forall_mem_singleton.mpr hsound⟩
      have hchunk := h.chunk_le hz hle
      rw [xltLoop, if_pos hpm]
      dsimp only
      cases hpost : post s.posted.length with
      | some err =>
        refine ⟨some err, _, _, rfl, by rwa [hposted], by rwa [hposted], hchunk, fun hret => ?_,
          fun hall => ?_⟩
        · cases hret
        · rw [hall] at hpost
          cases hpost
      | none =>
        rcases Nat.lt_or_ge (s.pagesMapped + n) ptm with hmore | hlast
        · have hn := hz.nPos
          exact ih _ (inv_turn hz hfill h hmore) hmore.le (by
            change ptm ≤ s.pagesMapped + n + fuel
            omega)
        · have hm : min n (ptm - s.pagesMapped) = ptm - s.pagesMapped :=
            Nat.min_eq_right (by omega)
          refine ⟨none, _, _, xltLoop_done post fuel hlast, by rwa [hposted], by rwa [hposted],
            hchunk, fun _ => ?_, fun _ => rfl⟩
          have hidx := h.idx
          have hal := le_align (ptm - s.pagesMapped) hz.a_pos
          rw [hm]
          omega
    · exact hsent (fuel + 1) s h (Nat.le_antisymm hle hpm)

end Turn
/-! ### A call -/

/-- The entries in a unit of 64 bytes. -/
def pageAlign (flags : ℕ) : ℕ := MLX5_UMR_FLEX_ALIGNMENT / descSize flags

/-- The first entry of the window that a call rewrites. -/
def windowStart (flags idx : ℕ) : ℕ := idx - idx % pageAlign flags

/-- The number of entries of the window, whole units. -/
def windowLen (flags idx npages : ℕ) : ℕ :=
  align (npages + idx % pageAlign flags) (pageAlign flags)

/-- The pages of the window that are to be mapped. -/
def pagesToMap (mr : Mr) (flags idx npages : ℕ) : ℕ :=
  if flags &&& MLX5_IB_UPD_XLT_INDIRECT ≠ 0 then windowLen flags idx npages
  else min (windowLen flags idx npages) (toU 64 ((mr.numPages : ℤ) - windowStart flags idx))

theorem descSize_pos (flags : ℕ) : 0 < descSize flags := by
  unfold descSize
  split <;> decide

theorem pageAlign_mul (flags : ℕ) :
    MLX5_UMR_FLEX_ALIGNMENT = pageAlign flags * descSize flags := by
  unfold pageAlign descSize
  split <;> decide

theorem pageAlign_pos (flags : ℕ) : 0 < pageAlign flags := by
  unfold pageAlign descSize
  split <;> decide

theorem pagesToMap_le (mr : Mr) (flags idx npages : ℕ) :
    pagesToMap mr flags idx npages ≤ windowLen flags idx npages := by
  unfold pagesToMap
  split
  · exact le_rfl
  · exact Nat.min_le_left _ _

/-- Every entry asked for that exists is among the pages to map. -/
theorem lt_pagesToMap {mr : Mr} {flags idx npages i : ℕ} (hpages : mr.numPages < 2 ^ 64)
    (hlo : windowStart flags idx ≤ i) (hhi : i < windowStart flags idx + windowLen flags idx npages)
    (hi : flags &&& MLX5_IB_UPD_XLT_INDIRECT ≠ 0 ∨ i < mr.numPages) :
    i < windowStart flags idx + pagesToMap mr flags idx npages := by
  unfold pagesToMap
  split
  · exact hhi
  · rename_i hind
    rw [toU_sub hpages (by omega)]
    omega

/-- The window holds what is asked for. -/
theorem window_mem {flags idx npages i : ℕ} (hlo : idx ≤ i) (hhi : i < idx + npages) :
    windowStart flags idx ≤ i ∧ i < windowStart flags idx + windowLen flags idx npages := by
  have hmod := Nat.mod_le idx (pageAlign flags)
  have hal := le_align (npages + idx % pageAlign flags) (pageAlign_pos flags)
  unfold windowStart windowLen
  omega

/-- What holds of the requests of a call: they lie side by side, whole units from the start of the
    window on; none takes more than the buffer holds, and their payload is that of the pages. -/
structure Posts (mr : Mr) (al : Alloc) (o : Pages) (flags idx npages : ℕ) (ret : Option Errno)
    (posted : List (Posted Entry)) : Prop where
  disjoint : posted.Pairwise fun p p' => p.req.offset + p.req.wqe.xltOctowords ≤ p'.req.offset
  aligned : ∀ p ∈ posted, MLX5_UMR_FLEX_ALIGNMENT ∣ p.req.offset * MLX5_IB_UMR_OCTOWORD ∧
    MLX5_UMR_FLEX_ALIGNMENT ∣ p.req.wqe.xltOctowords * MLX5_IB_UMR_OCTOWORD
  fits : ∀ p ∈ posted, ∀ size ∈ mlx5rUmrCreateXlt al (npages + idx % pageAlign flags)
    (descSize flags), p.req.wqe.xltOctowords * MLX5_IB_UMR_OCTOWORD = p.req.wqe.byteCount ∧
      p.req.wqe.byteCount ≤ p.synced ∧ p.synced ≤ size
  payload : ∀ p ∈ posted, ∀ k < (p.req.tile (descSize flags)).count,
    let j := (p.req.tile (descSize flags)).first + k
    flags &&& MLX5_IB_UPD_XLT_INDIRECT ≠ 0 ∨ j < mr.numPages → p.req.xlt k = pageEntry o flags j
  window : ∀ p ∈ posted, windowStart flags idx ≤ (p.req.tile (descSize flags)).first ∧
    (p.req.tile (descSize flags)).first + (p.req.tile (descSize flags)).count ≤
      windowStart flags idx + windowLen flags idx npages
  covers : ret = none → ∀ j, idx ≤ j → j < idx + npages →
    flags &&& MLX5_IB_UPD_XLT_INDIRECT ≠ 0 ∨ j < mr.numPages →
    ∃ p ∈ posted, (p.req.tile (descSize flags)).first ≤ j ∧
      j < (p.req.tile (descSize flags)).first + (p.req.tile (descSize flags)).count

/-- The range of a sound request in octowords and in entries. -/
theorem Sound.tile_mul {α : Type} {size d a : ℕ} {p : Posted α} (h : Sound size p)
    (hunit : MLX5_UMR_FLEX_ALIGNMENT = a * d) :
    (p.req.tile d).first * d = p.req.offset * MLX5_IB_UMR_OCTOWORD ∧
      (p.req.tile d).count * d = p.req.wqe.xltOctowords * MLX5_IB_UMR_OCTOWORD := by
  have hd : d ∣ MLX5_UMR_FLEX_ALIGNMENT := hunit ▸ Nat.dvd_mul_left d a
  exact ⟨Nat.div_mul_cancel (hd.trans h.offset), Nat.div_mul_cancel (hd.trans (h.length ▸ h.units))⟩

/-- Requests that follow one another share no octoword. -/
theorem octowords_disjoint {α : Type} {size d a : ℕ} (hunit : MLX5_UMR_FLEX_ALIGNMENT = a * d)
    {p p' : Posted α} (h : Sound size p) (h' : Sound size p')
    (hle : (p.req.tile d).first + (p.req.tile d).count ≤ (p'.req.tile d).first) :
    p.req.offset + p.req.wqe.xltOctowords ≤ p'.req.offset := by
  obtain ⟨h1, h2⟩ := h.tile_mul hunit
  obtain ⟨h3, -⟩ := h'.tile_mul hunit
  have hmul := Nat.mul_le_mul_right d hle
  rw [Nat.add_mul, h1, h2, h3, ← Nat.add_mul] at hmul
  exact Nat.le_of_mul_le_mul_right hmul (by decide)

/-- Nothing is posted, and the call fails or there is nothing to cover. -/
theorem posts_nil {mr : Mr} {al : Alloc} {o : Pages} {flags idx npages : ℕ} {ret : Option Errno}
    (hcov : ret = none → ∀ j, idx ≤ j → j < idx + npages →
      ¬ (flags &&& MLX5_IB_UPD_XLT_INDIRECT ≠ 0 ∨ j < mr.numPages)) :
    Posts mr al o flags idx npages ret [] where
  disjoint := .nil
  aligned _ hp := absurd hp List.not_mem_nil
  fits _ hp := absurd hp List.not_mem_nil
  payload _ hp := absurd hp List.not_mem_nil
  window _ hp := absurd hp List.not_mem_nil
  covers hret j hlo hhi hj := absurd hj (hcov hret j hlo hhi)

/-- What the loop sends is what is asked for. -/
theorem posts_of_sent {mr : Mr} {al : Alloc} (hmap : al.dmaMap = true) {o : Pages}
    {flags idx npages : ℕ} (hpages : mr.numPages < 2 ^ 64) {post : ℕ → Option Errno}
    {r : Option (Option Errno × Xlt Entry)}
    (h : Sent (pageEntry o flags) (descSize flags) (pageAlign flags)
      (mlx5rUmrAllocXlt al (npages + idx % pageAlign flags) (descSize flags))
      (pagesToMap mr flags idx npages) (windowStart flags idx) post r) :
    ∃ ret s', r = some (ret, s') ∧ Posts mr al o flags idx npages ret s'.posted ∧
      ((∀ k, post k = none) → ret = none) := by
  obtain ⟨ret, s', hi, hr, htiles, hsound, hhi, hret, hpost⟩ := h
  have hunit := pageAlign_mul flags
  have hend : align (pagesToMap mr flags idx npages) (pageAlign flags) ≤
      windowLen flags idx npages :=
    align_le (pageAlign_pos flags) (pagesToMap_le ..) (dvd_align _ _)
  refine ⟨ret, s', hr, ⟨?_, ?_, ?_, ?_, ?_, ?_⟩, hpost⟩
  · have hdis := List.pairwise_map.mp htiles.disjoint
    exact hdis.imp_of_mem fun hp hp' => octowords_disjoint hunit (hsound _ hp) (hsound _ hp')
  · exact fun p hp => ⟨(hsound p hp).offset, (hsound p hp).length ▸ (hsound p hp).units⟩
  · intro p hp size hsize
    rw [createXlt_eq hmap, Option.mem_some_iff] at hsize
    exact ⟨(hsound p hp).length, (hsound p hp).synced, hsize ▸ (hsound p hp).fits⟩
  · intro p hp k hk j hj
    obtain ⟨hlo, hle, hval⟩ := htiles.mem (List.mem_map.mpr ⟨p, hp, rfl⟩)
    exact hval k hk (lt_pagesToMap hpages (by omega) (by omega) hj)
  · intro p hp
    obtain ⟨hlo, hle, -⟩ := htiles.mem (List.mem_map.mpr ⟨p, hp, rfl⟩)
    exact ⟨hlo, by omega⟩
  · intro hnone j hlo hhi' hj
    obtain ⟨hlo', hhi''⟩ := window_mem hlo hhi'
    have hlt := lt_pagesToMap hpages hlo' hhi'' hj
    have hle := hret hnone
    obtain ⟨t, ht, hin⟩ := htiles.covers hlo' (by omega)
    obtain ⟨p, hp, rfl⟩ := List.mem_map.mp ht
    exact ⟨p, hp, hin⟩

/-- The entry of the loop as the call sets it up. -/
theorem inv_start {flags idx d n ptm : ℕ} (o : Pages) (hz : Sizes d (pageAlign flags) n ptm
    (windowStart flags idx)) :
    Inv (Blank flags) (pageEntry o flags) d n ptm (windowStart flags idx)
      ⟨mlx5rUmrSetUpdateXltDataSeg (mlx5rUmrSetUpdateXltCtrlSeg Wqe.zero flags (n * d)) (n * d),
        fun _ => zeroEntry flags, n * d, 0, windowStart flags idx, []⟩ where
  sent := Tiles.nil
  idx := (Nat.add_zero _).symm
  whole := Nat.dvd_zero n
  good _ _ _ := rfl
  sgLength := rfl
  octowords := octowords_mul (hz.unit ▸ Nat.mul_dvd_mul_right hz.whole d) hz.buffer
  byteCount := rfl
  posted _ hp := absurd hp List.not_mem_nil

theorem alignInt_eq (n : ℕ) {a : ℕ} (ha : 0 < a) (h : align n a < 2 ^ 31) :
    alignInt n a = align n a := by
  have hcast : ((n : ℤ) + a - 1) / a * a = (align n a : ℕ) := by
    unfold align
    push_cast [Nat.cast_sub (show 1 ≤ n + a by omega)]
    rfl
  rw [alignInt, hcast, toInt_of_lt h]

/-- The loop of a call. -/
theorem update_loop (mr : Mr) (al : Alloc) (o : Pages) (post : ℕ → Option Errno)
    {idx npages flags fuel : ℕ} (hnpages : windowLen flags idx npages < 2 ^ 31)
    (htable : (windowStart flags idx + windowLen flags idx npages) * descSize flags ≤ 2 ^ 52)
    (hfuel : windowLen flags idx npages ≤ fuel) :
    let d := descSize flags
    let n := mlx5rUmrAllocXlt al (npages + idx % pageAlign flags) d
    Sent (pageEntry o flags) d (pageAlign flags) n (pagesToMap mr flags idx npages)
      (windowStart flags idx) post
      (xltLoop d (mlx5OdpPopulateXlt o flags) mr.caps mr.length flags
        (pagesToMap mr flags idx npages) n post fuel ⟨mlx5rUmrSetUpdateXltDataSeg
          (mlx5rUmrSetUpdateXltCtrlSeg Wqe.zero flags (n * d)) (n * d),
          fun _ => zeroEntry flags, n * d, 0, windowStart flags idx, []⟩) := by
  intro d n
  have ha := pageAlign_pos flags
  have hle := pagesToMap_le mr flags idx npages
  rcases Nat.eq_zero_or_pos (pagesToMap mr flags idx npages) with h0 | hpos
  · -- nothing is posted
    rw [h0]
    exact ⟨none, _, windowStart flags idx, xltLoop_done post fuel (Nat.zero_le _), Tiles.nil,
      fun _ hp => absurd hp List.not_mem_nil, Nat.le_add_right _ _, fun _ => le_rfl, fun _ => rfl⟩
  · have hpos' : 0 < npages + idx % pageAlign flags := Nat.pos_of_ne_zero fun h0 => by
      rw [windowLen, h0, align_zero ha] at hle
      omega
    obtain ⟨hn, hdvd⟩ := allocXlt_units (descSize_pos flags) (pageAlign_mul flags) al hpos'
    have hz : Sizes d (pageAlign flags) n (pagesToMap mr flags idx npages)
        (windowStart flags idx) :=
      { dPos := descSize_pos flags
        unit := pageAlign_mul flags
        nPos := hn
        whole := hdvd
        start := Nat.dvd_sub_mod idx
        buffer := allocXlt_le al _
        pages := Nat.lt_of_le_of_lt hle hnpages
        table := (Nat.mul_le_mul_right d (Nat.add_le_add_left hle _)).trans htable }
    exact xltLoop_run hz (populateXlt_fills o flags) post fuel _ (inv_start o hz) (Nat.zero_le _)
      (by
        omega)

/-- CORRECT: for a window that a mkey can hold, the call ends; its requests are aligned and share no
    octoword, none takes more than the mapped buffer holds, each carries the entries of its pages,
    and where none fails they cover every entry asked for that exists. -/
theorem update_xlt (mr : Mr) (al : Alloc) (o : Pages) (post : ℕ → Option Errno)
    {idx npages flags fuel : ℕ} (hpages : mr.numPages < 2 ^ 64)
    (hnpages : windowLen flags idx npages < 2 ^ 31)
    (htable : (windowStart flags idx + windowLen flags idx npages) * descSize flags ≤ 2 ^ 52)
    (hfuel : windowLen flags idx npages ≤ fuel) :
    ∃ ret posted, mlx5rUmrUpdateXlt (mlx5OdpPopulateXlt o flags) (zeroEntry flags) mr al post fuel
        idx npages flags = some (ret, posted) ∧
      Posts mr al o flags idx npages ret posted ∧
      (mr.isOdp = true → al.dmaMap = true → (flags &&& MLX5_IB_UPD_XLT_INDIRECT ≠ 0 →
        mr.umrIndirectMkeyDisabled = false) → (∀ k, post k = none) → ret = none) := by
  have ha := pageAlign_pos flags
  have hle := le_align (npages + idx % pageAlign flags) ha
  have hwin : windowLen flags idx npages =
    align (npages + idx % pageAlign flags) (pageAlign flags) := rfl
  -- no count of pages wraps
  have hn : toInt ((npages : ℤ) + idx % pageAlign flags) =
      ((npages + idx % pageAlign flags : ℕ) : ℤ) := by
    rw [← Int.natCast_emod, ← Nat.cast_add, toInt_of_lt (by omega)]
  have hptm : toU 64 (alignInt ((npages + idx % pageAlign flags : ℕ) : ℤ) (pageAlign flags)) =
      windowLen flags idx npages := by
    rw [alignInt_eq _ ha (by omega), toU_of_lt (by omega), hwin]
  have hnents : toU 64 ((npages + idx % pageAlign flags : ℕ) : ℤ) =
      npages + idx % pageAlign flags := toU_of_lt (by omega)
  unfold mlx5rUmrUpdateXlt
  dsimp only
  rw [show MLX5_UMR_FLEX_ALIGNMENT / descSize flags = pageAlign flags from rfl, hn, hptm, hnents]
  by_cases hperm : flags &&& MLX5_IB_UPD_XLT_INDIRECT ≠ 0 ∧ mr.umrIndirectMkeyDisabled = true
  · rw [if_pos hperm]
    exact ⟨_, _, rfl, posts_nil nofun, fun _ _ hind => by simp [hind hperm.1] at hperm⟩
  rw [if_neg hperm]
  by_cases hodp : mr.isOdp = false
  · rw [if_pos (by simp [hodp])]
    exact ⟨_, _, rfl, posts_nil nofun, fun hodp' => by simp [hodp] at hodp'⟩
  rw [if_neg (by simpa using hodp)]
  cases hmap : al.dmaMap with
  | false =>
    have hnone : mlx5rUmrCreateXlt al (npages + idx % pageAlign flags) (descSize flags) = none := by
      simp [mlx5rUmrCreateXlt, hmap]
    simp only [hnone]
    exact ⟨_, _, rfl, posts_nil nofun, fun _ hmap' => nomatch hmap'⟩
  | true =>
    simp only [createXlt_eq hmap, Nat.mul_div_cancel _ (descSize_pos flags)]
    obtain ⟨ret, s', hr, hposts, hret⟩ := posts_of_sent hmap hpages (o := o)
      (update_loop mr al o post hnpages htable hfuel)
    exact ⟨ret, s'.posted, congrArg (Option.map fun x => (x.1, x.2.posted)) hr, hposts,
      fun _ _ _ => hret⟩

/-- The DMA list of a region that is mapped for reading and writing. -/
def demoPages : Pages := ⟨fun i => BitVec.ofNat 64 (4096 * i + 3), fun _ => none, false, 0, 0⟩

def demoMr : Mr := ⟨true, 700, 2867200, ⟨true, false, false⟩, false⟩

/-- Pages 5 to 604 of 700 through a buffer of one page: a request for the entries 0 to 511 and one
    for those up to 607. -/
theorem update_xlt_demo : ∃ posted,
    mlx5rUmrUpdateXlt (mlx5OdpPopulateXlt demoPages MLX5_IB_UPD_XLT_ENABLE)
      (zeroEntry MLX5_IB_UPD_XLT_ENABLE) demoMr ⟨false, false, true⟩ (fun _ => none) 608 5 600
      MLX5_IB_UPD_XLT_ENABLE = some (none, posted) ∧ posted.length = 2 ∧
    Posts demoMr ⟨false, false, true⟩ demoPages MLX5_IB_UPD_XLT_ENABLE 5 600 none posted := by
  obtain ⟨ret, posted, hrun, hposts, hret⟩ := @update_xlt demoMr ⟨false, false, true⟩ demoPages
    (fun _ => none) 5 600 MLX5_IB_UPD_XLT_ENABLE 608 (by decide) (by decide) (by decide)
    (by decide)
  obtain rfl := hret rfl rfl (fun _ => rfl) fun _ => rfl
  have hlen : posted.length = 2 := by
    have hmap := congrArg (Option.map fun r => r.2.length) hrun
    exact Option.some.inj (hmap.symm.trans (by decide +kernel))
  exact ⟨posted, hrun, hlen, hposts⟩

end RdmaDriver.XltRequests
