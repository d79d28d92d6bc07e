import RdmaDriver.Core.Umem
import RdmaDriver.Mlx5.UmrWqe

/-! @src drivers/infiniband/hw/mlx5/umr.c | name:UMR update of pinned memory | scheme:tiles |
    family:table

    `_mlx5r_umr_update_mr_pas` writes the DMA blocks of a pinned region into the translation table
    of its memory key. The blocks are collected in a buffer; when a further block does not fit,
    the buffer is sent and filled from its start again. The last request sends what is left,
    padded with zero up to 64 bytes, and it alone changes the other fields of the mkey.

        blocks   b₀ … bₙ₋₁ | bₙ … b₂ₙ₋₁ | b₂ₙ … bₘ 0 … 0
        request  offset 0  | offset n   | offset 2n, mkey mask  -/

namespace RdmaDriver.UpdatePas
open Schemes UpdateXlt UmrWqe UmemDma Function

def MLX5_IB_MTT_READ : ℕ := 1
def MLX5_IB_MTT_WRITE : ℕ := 2
def MLX5_IB_MTT_PRESENT : ℕ := MLX5_IB_MTT_READ ||| MLX5_IB_MTT_WRITE

/-- An entry of the table: the `ptag` of a `struct mlx5_mtt`, or the `va` and the `key` of a
    `struct mlx5_ksm`. -/
structure Entry where
  ptagVa : ℕ
  key : ℕ
  deriving DecidableEq

/-- What `_mlx5r_umr_update_mr_pas` reads of the MR and of the device: the umem and whether it is a
    DMA buffer, the page shift, the length of the MR and the data-direct mkey. -/
structure Mr where
  umem : Umem
  isDmabuf : Bool
  pageShift : ℕ
  length : ℕ
  ddrMkey : ℕ
  caps : Caps

/-- `sizeof(struct mlx5_ksm)` and `sizeof(struct mlx5_mtt)`. -/
def entSize (dd : Bool) : ℕ := if dd then 16 else 8

/-- The entry for a block. -/
def fillEntry (mr : Mr) (flags : ℕ) (dd : Bool) (dmaAddress : ℕ) : Entry :=
  if dd then ⟨dmaAddress, mr.ddrMkey⟩
  else if mr.isDmabuf ∧ flags &&& MLX5_IB_UPD_XLT_ZAP ≠ 0 then ⟨0, 0⟩
  else ⟨dmaAddress ||| MLX5_IB_MTT_PRESENT, 0⟩

/-- The state of the loop; `cur` is the number of entries between `entry` and `curr_entry`, and
    `posted` the requests so far. -/
structure Pas where
  wqe : Wqe
  xlt : ℕ → Entry
  cur : ℕ
  offset : ℕ
  posted : List (Request Entry)

/-- `mlx5r_umr_post_send_wait`; `post` tells how the requests fare. -/
def postSendWait (post : ℕ → Option Errno) (s : Pas) : Pas × Option Errno :=
  ({ s with posted := s.posted ++ [⟨s.wqe, s.xlt⟩] }, post s.posted.length)

/-- One turn of the loop over the blocks. -/
def pasTurn (entSize sgLength : ℕ) (post : ℕ → Option Errno) (s : Pas) (e : Entry) :
    Pas × Option Errno :=
  if s.cur * entSize = sgLength then
    match postSendWait post s with
    | (s, some err) => (s, some err)
    | (s, none) =>
      let offset := toU 64 (s.offset + sgLength : ℕ)
      ({ s with
        wqe := mlx5rUmrUpdateOffset s.wqe offset, offset := offset
        xlt := update s.xlt 0 e, cur := 1 }, none)
  else ({ s with xlt := update s.xlt s.cur e, cur := s.cur + 1 }, none)

/-- The loop over the blocks. -/
def pasLoop (entSize sgLength : ℕ) (post : ℕ → Option Errno) :
    List Entry → Pas → Pas × Option Errno
  | [], s => (s, none)
  | e :: es, s =>
    match pasTurn entSize sgLength post s e with
    | (s, some err) => (s, some err)
    | (s, none) => pasLoop entSize sgLength post es s

/-- What follows the loop: the padding and the last request. -/
def pasFinal (mr : Mr) (flags entSize : ℕ) (post : ℕ → Option Errno) (s : Pas) :
    Pas × Option Errno :=
  let finalSize := s.cur * entSize
  let sgLength := align finalSize MLX5_UMR_FLEX_ALIGNMENT
  let xlt k := if s.cur ≤ k ∧ k < sgLength / entSize then ⟨0, 0⟩ else s.xlt k
  let wqe := mlx5rUmrFinalUpdateXlt mr.caps s.wqe mr.length sgLength flags
  postSendWait post { s with xlt := xlt, wqe := wqe }

/-- `_mlx5r_umr_update_mr_pas`: the return value and the requests. The buffer is asked for `nents`
    entries, as `ib_umem_num_dma_blocks` counts for the `int` that `1 << mr->page_shift` is. -/
def mlx5rUmrUpdateMrPas (ps : ℕ) (mr : Mr) (flags : ℕ) (dd : Bool) (a : Alloc) (nents : ℕ)
    (post : ℕ → Option Errno) : Option Errno × List (Request Entry) :=
  let entSize := entSize dd
  match mlx5rUmrCreateXlt a nents entSize with
  | none => (some .enomem, [])
  | some sgLength =>
    let wqe := mlx5rUmrSetUpdateXltCtrlSeg Wqe.zero flags sgLength
    let wqe := mlx5rUmrSetUpdateXltDataSeg wqe sgLength
    let s : Pas := ⟨wqe, fun _ => ⟨0, 0⟩, 0, 0, []⟩
    let blocks := umemForEachDmaBlock ps mr.umem (2 ^ mr.pageShift)
    match pasLoop entSize sgLength post (blocks.map (fillEntry mr flags dd)) s with
    | (s, some err) => (some err, s.posted)
    | (s, none) =>
      let (s, err) := pasFinal mr flags entSize post s
      (err, s.posted)

/-! ### The loop -/

/-- The entries `es` have been taken from the blocks: those up to `base` are sent, the rest is in
    the buffer. -/
structure Inv (d n : ℕ) (es : List Entry) (base : ℕ) (s : Pas) : Prop where
  sent : Tiles (fun i v => es[i]? = some v) 0 base (s.posted.map (Request.tile d))
  whole : n ∣ base
  taken : base + s.cur = es.length
  curLe : s.cur ≤ n
  buffer : ∀ k < s.cur, es[base + k]? = some (s.xlt k)
  offset : s.offset = base * d
  start : (Request.mk s.wqe s.xlt).offset * MLX5_IB_UMR_OCTOWORD = base * d
  octowords : s.wqe.xltOctowords * MLX5_IB_UMR_OCTOWORD = n * d
  byteCount : s.wqe.byteCount = n * d
  mask : s.wqe.mkeyMask = 0
  posted : ∀ r ∈ s.posted, r.wqe.mkeyMask = 0 ∧ r.wqe.byteCount = n * d ∧
    r.wqe.xltOctowords * MLX5_IB_UMR_OCTOWORD = n * d

section Loop

variable {d n base : ℕ} {es : List Entry} {s : Pas} {post : ℕ → Option Errno}

theorem getElem?_snoc {e : Entry} {i : ℕ} {v : Entry} (h : es[i]? = some v) :
    (es ++ [e])[i]? = some v := by
  obtain ⟨hlt, -⟩ := List.getElem?_eq_some_iff.mp h
  rwa [List.getElem?_append_left hlt]

/-- The request that sends a full buffer. -/
theorem Inv.tile (hd : 0 < d) (h : Inv d n es base s) :
    ((Request.mk s.wqe s.xlt).tile d).first = base ∧
      ((Request.mk s.wqe s.xlt).tile d).count = n := by
  constructor
  · rw [Request.tile, h.start, Nat.mul_div_cancel _ hd]
  · simp only [Request.tile, h.octowords, Nat.mul_div_cancel _ hd]

/-- STEP: a full buffer is sent and the next one starts behind it. -/
theorem inv_full (hd : 0 < d) (hunit : MLX5_UMR_FLEX_ALIGNMENT ∣ n * d) (hn : 0 < n)
    (hfit : es.length * d < 2 ^ 52) (h : Inv d n es base s) (hcur : s.cur = n) (e : Entry) :
    Inv d n (es ++ [e]) (base + n)
      { s with
        posted := s.posted ++ [⟨s.wqe, s.xlt⟩]
        wqe := mlx5rUmrUpdateOffset s.wqe (toU 64 (s.offset + n * d : ℕ))
        offset := toU 64 (s.offset + n * d : ℕ)
        xlt := update s.xlt 0 e
        cur := 1 } := by
  obtain ⟨hfirst, hcount⟩ := h.tile hd
  have htaken := h.taken
  rw [hcur] at htaken
  have hoffset : toU 64 (s.offset + n * d : ℕ) = (base + n) * d := by
    rw [h.offset, ← Nat.add_mul]
    exact toU_of_lt (by rw [htaken]; omega)
  have hwhole : n ∣ base + n := (Nat.dvd_add_self_right).mpr h.whole
  have hdvd : MLX5_UMR_FLEX_ALIGNMENT ∣ (base + n) * d :=
    hunit.trans (Nat.mul_dvd_mul_right hwhole d)
  constructor
  · rw [List.map_append, List.map_singleton]
    have hsent := h.sent.imp fun i v _ (hv : es[i]? = some v) => getElem?_snoc (e := e) hv
    have hsnoc := hsent.snoc hfirst fun k hk => getElem?_snoc (h.buffer k (by
      omega))
    rwa [hcount] at hsnoc
  · exact hwhole
  · rw [List.length_append, List.length_singleton, ← htaken]
  · exact hn
  · intro k hk
    obtain rfl : k = 0 := Nat.lt_one_iff.mp hk
    simp only
    rw [Nat.add_zero, htaken, List.getElem?_append_right le_rfl, Nat.sub_self, update_self]
    rfl
  · exact hoffset
  · rw [hoffset]
    exact updateOffset_offset hdvd (by rw [htaken]; exact hfit)
  · exact h.octowords
  · exact h.byteCount
  · exact h.mask
  · intro r hr
    rcases List.mem_append.mp hr with hr | hr
    · exact h.posted r hr
    · rw [List.mem_singleton.mp hr]
      exact ⟨h.mask, h.byteCount, h.octowords⟩

/-- STEP: an entry that fits goes into the buffer. -/
theorem inv_room (h : Inv d n es base s) (hcur : s.cur < n) (e : Entry) :
    Inv d n (es ++ [e]) base { s with xlt := update s.xlt s.cur e, cur := s.cur + 1 } := by
  have htaken := h.taken
  constructor
  · exact h.sent.imp fun i v _ hv => getElem?_snoc hv
  · exact h.whole
  · rw [List.length_append, List.length_singleton, ← htaken]
    rfl
  · exact hcur
  · intro k hk
    have hk' : k < s.cur + 1 := hk
    simp only
    by_cases hk' : k = s.cur
    · subst hk'
      rw [update_self, htaken, List.getElem?_append_right le_rfl, Nat.sub_self]
      rfl
    · rw [update_of_ne hk']
      exact getElem?_snoc (h.buffer k (by omega))
  · exact h.offset
  · exact h.start
  · exact h.octowords
  · exact h.byteCount
  · exact h.mask
  · exact h.posted

/-- STEP: a turn takes one more entry. -/
theorem inv_turn (hd : 0 < d) (hunit : MLX5_UMR_FLEX_ALIGNMENT ∣ n * d) (hn : 0 < n)
    (hpost : ∀ k, post k = none) (hfit : es.length * d < 2 ^ 52) (h : Inv d n es base s)
    (e : Entry) :
    ∃ base' s', pasTurn d (n * d) post s e = (s', none) ∧ Inv d n (es ++ [e]) base' s' := by
  unfold pasTurn
  by_cases hcur : s.cur = n
  · rw [if_pos (by rw [hcur])]
    simp only [postSendWait, hpost]
    exact ⟨_, _, rfl, inv_full hd hunit hn hfit h hcur e⟩
  · rw [if_neg fun heq => hcur (Nat.eq_of_mul_eq_mul_right hd heq)]
    exact ⟨_, _, rfl, inv_room h (Nat.lt_of_le_of_ne h.curLe hcur) e⟩

/-- RUN: the loop takes all entries. -/
theorem inv_loop (hd : 0 < d) (hunit : MLX5_UMR_FLEX_ALIGNMENT ∣ n * d) (hn : 0 < n)
    (hpost : ∀ k, post k = none) : ∀ (rest es : List Entry) (base : ℕ) (s : Pas),
    (es ++ rest).length * d < 2 ^ 52 → Inv d n es base s →
    ∃ base' s', pasLoop d (n * d) post rest s = (s', none) ∧ Inv d n (es ++ rest) base' s'
  | [], es, base, s, _, h => ⟨base, s, rfl, by rwa [List.append_nil]⟩
  | e :: rest, es, base, s, hfit, h => by
    have hlen : es.length * d ≤ (es ++ e :: rest).length * d :=
      Nat.mul_le_mul_right d (by rw [List.length_append]; omega)
    obtain ⟨base', s', hturn, hinv⟩ := inv_turn hd hunit hn hpost (by omega) h e
    obtain ⟨base'', s'', hloop, hinv'⟩ := inv_loop hd hunit hn hpost rest _ base' s'
      (by simpa using hfit) hinv
    exact ⟨base'', s'', by rw [pasLoop, hturn]; exact hloop, by simpa using hinv'⟩

end Loop

section Final

variable {d n a base : ℕ} {es : List Entry} {s : Pas}

/-- The request as it is set up offers the whole buffer at offset 0. -/
theorem inv_start (flags : ℕ) (hunit : MLX5_UMR_FLEX_ALIGNMENT ∣ n * d) (hlt : n * d < 2 ^ 20) :
    Inv d n [] 0 ⟨mlx5rUmrSetUpdateXltDataSeg
      (mlx5rUmrSetUpdateXltCtrlSeg Wqe.zero flags (n * d)) (n * d), fun _ => ⟨0, 0⟩, 0, 0, []⟩ := by
  have hflags : (mlx5rUmrSetUpdateXltCtrlSeg Wqe.zero flags (n * d)).flags &&&
      MLX5_UMR_TRANSLATION_OFFSET_EN = 0 := by
    unfold mlx5rUmrSetUpdateXltCtrlSeg
    dsimp only
    split <;> decide
  constructor
  · exact Tiles.nil
  · exact Nat.dvd_zero n
  · rfl
  · exact Nat.zero_le n
  · exact fun k hk => absurd hk (Nat.not_lt_zero k)
  · exact (Nat.zero_mul d).symm
  · have hoff : (Request.mk (mlx5rUmrSetUpdateXltDataSeg
        (mlx5rUmrSetUpdateXltCtrlSeg Wqe.zero flags (n * d)) (n * d))
        (fun _ => (⟨0, 0⟩ : Entry))).offset = 0 := if_pos hflags
    simp only [hoff, Nat.zero_mul]
  · exact octowords_mul hunit hlt
  · rfl
  · rfl
  · exact fun r hr => absurd hr List.not_mem_nil

/-- The entry of block `i`, or the padding. -/
def paddedEntry (es : List Entry) (i : ℕ) : Entry := (es[i]?).getD ⟨0, 0⟩

/-- The last request. -/
def lastRequest (mr : Mr) (flags d : ℕ) (s : Pas) : Request Entry :=
  let sgLength := align (s.cur * d) MLX5_UMR_FLEX_ALIGNMENT
  ⟨mlx5rUmrFinalUpdateXlt mr.caps s.wqe mr.length sgLength flags,
    fun k => if s.cur ≤ k ∧ k < sgLength / d then ⟨0, 0⟩ else s.xlt k⟩

/-- FINAL: the last request sends the rest and pads it to a whole unit. -/
theorem inv_final (mr : Mr) (flags : ℕ) (hd : 0 < d) (ha : 0 < a)
    (hda : MLX5_UMR_FLEX_ALIGNMENT = a * d) (hunit : a ∣ n) (hlt : n * d < 2 ^ 20)
    (h : Inv d n es base s) :
    Tiles (fun i v => v = paddedEntry es i) 0 (align es.length a)
      ((s.posted ++ [lastRequest mr flags d s]).map (Request.tile d)) ∧
    (lastRequest mr flags d s).wqe.mkeyMask = finalMask mr.caps flags := by
  have hdvd : MLX5_UMR_FLEX_ALIGNMENT ∣ n * d := hda ▸ Nat.mul_dvd_mul_right hunit d
  have hle : align (s.cur * d) MLX5_UMR_FLEX_ALIGNMENT ≤ n * d :=
    align_le (by decide) (Nat.mul_le_mul_right d h.curLe) hdvd
  have hentries : align (s.cur * d) MLX5_UMR_FLEX_ALIGNMENT / d = align s.cur a := by
    rw [hda]
    exact align_entries _ hd ha
  have hfirst : ((lastRequest mr flags d s).tile d).first = base := by
    have hstart : (lastRequest mr flags d s).offset = (Request.mk s.wqe s.xlt).offset := rfl
    rw [Request.tile, hstart, h.start, Nat.mul_div_cancel _ hd]
  have hcount : ((lastRequest mr flags d s).tile d).count = align s.cur a := by
    have hocto := octowords_mul (dvd_align (s.cur * d) MLX5_UMR_FLEX_ALIGNMENT)
      (Nat.lt_of_le_of_lt hle hlt)
    simp only [Request.tile, lastRequest, mlx5rUmrFinalUpdateXlt, hocto, hentries]
  have hval : ∀ k < align s.cur a,
      ((lastRequest mr flags d s).tile d).val k = paddedEntry es (base + k) := by
    intro k hk
    simp only [Request.tile, lastRequest, hentries]
    rcases Nat.lt_or_ge k s.cur with hbuf | hpad
    · rw [if_neg (by omega), paddedEntry, h.buffer k hbuf, Option.getD_some]
    · rw [if_pos ⟨hpad, hk⟩, paddedEntry, List.getElem?_eq_none (by rw [← h.taken]; omega),
        Option.getD_none]
  have htotal : base + align s.cur a = align es.length a := by
    obtain ⟨k, hk⟩ := hunit.trans h.whole
    rw [← h.taken, hk, Nat.mul_comm a k, align_add_mul _ _ ha]
  constructor
  · have hsent : Tiles (fun i v => v = paddedEntry es i) 0 base (s.posted.map (Request.tile d)) :=
      h.sent.imp fun i v _ hv => by rw [paddedEntry, hv, Option.getD_some]
    rw [List.map_append, List.map_singleton, ← htotal, ← hcount]
    exact hsent.snoc hfirst fun k hk => hval k (by rwa [hcount] at hk)
  · change s.wqe.mkeyMask ||| finalMask mr.caps flags = _
    rw [h.mask, Nat.zero_or]

/-- RUN: where the buffer is mapped and the requests succeed, the requests are those of the loop
    and the last one. -/
theorem updateMrPas_run {ps : ℕ} {mr : Mr} (flags : ℕ) (dd : Bool) {al : Alloc}
    (hmap : al.dmaMap = true) {nents : ℕ} (hbuf : al.freePages = true → 0 < nents)
    {post : ℕ → Option Errno} (hpost : ∀ k, post k = none) {a : ℕ}
    (hda : MLX5_UMR_FLEX_ALIGNMENT = a * entSize dd)
    (hlen : (umemForEachDmaBlock ps mr.umem (2 ^ mr.pageShift)).length < 2 ^ 32) :
    let es := (umemForEachDmaBlock ps mr.umem (2 ^ mr.pageShift)).map (fillEntry mr flags dd)
    ∃ n base s, Inv (entSize dd) n es base s ∧ a ∣ n ∧ n * entSize dd < 2 ^ 20 ∧
      mlx5rUmrUpdateMrPas ps mr flags dd al nents post =
        (none, s.posted ++ [lastRequest mr flags (entSize dd) s]) := by
  intro es
  have hd : 0 < entSize dd := by cases dd <;> decide
  have hd16 : entSize dd ≤ 16 := by cases dd <;> decide
  obtain ⟨hn, hunit⟩ := allocXlt_pos hd hda hbuf
  have hlt := allocXlt_le (d := entSize dd) al nents
  have hdvd : MLX5_UMR_FLEX_ALIGNMENT ∣ mlx5rUmrAllocXlt al nents (entSize dd) * entSize dd :=
    hda ▸ Nat.mul_dvd_mul_right hunit _
  have hsg := createXlt_eq hmap nents (entSize dd)
  have hfit : es.length * entSize dd < 2 ^ 52 := by
    have hmul : es.length * entSize dd ≤ 2 ^ 32 * 16 :=
      Nat.mul_le_mul (by rw [List.length_map]; omega) hd16
    omega
  obtain ⟨base, s, hloop, hinv⟩ := inv_loop hd hdvd hn hpost es [] 0 _ (by simpa using hfit)
    (inv_start flags hdvd hlt)
  refine ⟨_, base, s, hinv, hunit, hlt, ?_⟩
  unfold mlx5rUmrUpdateMrPas
  simp only [hsg]
  rw [show (umemForEachDmaBlock ps mr.umem (2 ^ mr.pageShift)).map (fillEntry mr flags dd) = es
    from rfl, hloop]
  simp only [pasFinal, postSendWait, hpost]
  rfl

end Final

/-- The entry for a block of the region: its address with both rights, or with the data-direct
    mkey. -/
def blockEntry (mr : Mr) (dd : Bool) (block : ℕ) : Entry :=
  if dd then ⟨block, mr.ddrMkey⟩ else ⟨block ||| MLX5_IB_MTT_PRESENT, 0⟩

/-- A region over a DMA buffer is invalidated. -/
def Zapped (mr : Mr) (flags : ℕ) (dd : Bool) : Prop :=
  dd = false ∧ mr.isDmabuf = true ∧ flags &&& MLX5_IB_UPD_XLT_ZAP ≠ 0

instance (mr : Mr) (flags : ℕ) (dd : Bool) : Decidable (Zapped mr flags dd) :=
  inferInstanceAs (Decidable (_ ∧ _ ∧ _))

theorem fillEntry_eq (mr : Mr) (flags : ℕ) (dd : Bool) (block : ℕ) :
    fillEntry mr flags dd block =
      if Zapped mr flags dd then ⟨0, 0⟩ else blockEntry mr dd block := by
  unfold fillEntry blockEntry Zapped
  cases dd <;> simp

/-- The page shift fits the region: no segment ends inside a block, and the number of blocks is
    counted right. -/
structure Fits (ps : ℕ) (mr : Mr) : Prop where
  valid : Valid ps mr.umem
  shift : mr.pageShift < 64
  seams : Aligned (2 ^ mr.pageShift)
    (mr.umem.iova + 2 ^ 64 - ibUmemOffset ps mr.umem) mr.umem.sgl
  crossing : mr.pageShift = 63 → mr.umem.iova % 2 ^ 63 + mr.umem.length ≤ 2 ^ 63

theorem Fits.count {ps : ℕ} {mr : Mr} (h : Fits ps mr) :
    (umemForEachDmaBlock ps mr.umem (2 ^ mr.pageShift)).length =
      ibUmemNumDmaBlocks mr.umem (2 ^ mr.pageShift) :=
  (h.valid.exact h.shift.le (Nat.testBit_two_pow_self) h.seams
    (h.valid.numDmaBlocks h.shift h.seams h.crossing)).count

/-- CORRECT: the requests write every block of the region to its entry, or zero where the region is
    zapped, zero into the padding and nothing else; no two of them overlap, and the last one alone
    changes the mkey. -/
theorem update_mr_pas {ps : ℕ} {mr : Mr} (hmr : Fits ps mr)
    (hnum : ibUmemNumDmaBlocks mr.umem (2 ^ mr.pageShift) < 2 ^ 32) (flags : ℕ) (dd : Bool)
    {al : Alloc} (hmap : al.dmaMap = true) {nents : ℕ} (hbuf : al.freePages = true → 0 < nents)
    {post : ℕ → Option Errno} (hpost : ∀ k, post k = none) :
    let blocks := umemForEachDmaBlock ps mr.umem (2 ^ mr.pageShift)
    let unit := MLX5_UMR_FLEX_ALIGNMENT / entSize dd
    let r := mlx5rUmrUpdateMrPas ps mr flags dd al nents post
    let tiles := r.2.map (Request.tile (entSize dd))
    r.1 = none ∧ blocks.length = ibUmemNumDmaBlocks mr.umem (2 ^ mr.pageShift) ∧
    (∀ table i,
      (∀ b, blocks[i]? = some b → tiles.foldl Tile.write table i =
        if Zapped mr flags dd then ⟨0, 0⟩ else blockEntry mr dd b) ∧
      (blocks.length ≤ i → i < align blocks.length unit → tiles.foldl Tile.write table i = ⟨0, 0⟩) ∧
      (align blocks.length unit ≤ i → tiles.foldl Tile.write table i = table i)) ∧
    tiles.Pairwise (fun t t' => t.first + t.count ≤ t'.first) ∧
    ∃ init last, r.2 = init ++ [last] ∧ (∀ q ∈ init, q.wqe.mkeyMask = 0) ∧
      last.wqe.mkeyMask = finalMask mr.caps flags := by
  intro blocks unit r tiles
  have hd : 0 < entSize dd := by cases dd <;> decide
  have hda : MLX5_UMR_FLEX_ALIGNMENT = unit * entSize dd := by
    cases dd <;> decide
  have ha : 0 < unit := by cases dd <;> decide
  obtain ⟨n, base, s, hinv, hunit, hlt, hr⟩ := updateMrPas_run flags dd hmap hbuf hpost hda
    (hmr.count ▸ hnum)
  obtain ⟨htiles, hmask⟩ := inv_final mr flags hd ha hda hunit hlt hinv
  have htiles' : Tiles (fun i v => v = paddedEntry (blocks.map (fillEntry mr flags dd)) i) 0
      (align blocks.length unit) tiles := by
    have hlen : (blocks.map (fillEntry mr flags dd)).length = blocks.length := List.length_map ..
    rw [← hlen]
    simp only [tiles, r, hr]
    exact htiles
  refine ⟨by rw [show r = _ from hr], hmr.count, fun table i => ?_, htiles'.disjoint, s.posted,
    lastRequest mr flags (entSize dd) s, by rw [show r = _ from hr],
    fun q hq => (hinv.posted q hq).1, hmask⟩
  obtain ⟨hin, hout⟩ := @Tiles.written _ _ _ _ _ table htiles' i
  have hle := le_align blocks.length ha
  refine ⟨fun b hb => ?_, fun h1 h2 => ?_, fun h => hout (.inr h)⟩
  · obtain ⟨hlt', -⟩ := List.getElem?_eq_some_iff.mp hb
    rw [hin (Nat.zero_le i) (by omega), paddedEntry, List.getElem?_map, hb, Option.map_some,
      Option.getD_some, fillEntry_eq]
  · rw [hin (Nat.zero_le i) h2, paddedEntry, List.getElem?_map, List.getElem?_eq_none h1,
      Option.map_none, Option.getD_none]

/-- Two pages that do not lie side by side. -/
def twoPages : Umem :=
  { iova := 0, length := 8192, address := 0, odp := none, sgl := [⟨4096, 4096⟩, ⟨12288, 4096⟩] }

theorem twoPages_valid : Valid 12 twoPages where
  noOdp := rfl
  nonempty := List.cons_ne_nil _ _
  nents := by decide
  mapped := by
    intro s hs
    rcases List.mem_cons.mp hs with rfl | hs
    · exact ⟨by decide, by decide, by decide⟩
    · rw [List.mem_singleton.mp hs]
      exact ⟨by decide, by decide, by decide⟩
  pages := by
    intro s hs
    rcases List.mem_cons.mp hs with rfl | hs
    · exact ⟨by decide, by decide⟩
    · rw [List.mem_singleton.mp hs]
      exact ⟨by decide, by decide⟩
  covered := by decide

theorem twoPages_seams :
    Aligned (2 ^ 12) (twoPages.iova + 2 ^ 64 - ibUmemOffset 12 twoPages) twoPages.sgl :=
  ⟨by decide, fun _ => by decide, by decide, fun h => absurd rfl h, trivial⟩

/-- An MR over the two pages. -/
def twoPagesMr (isDmabuf : Bool) : Mr :=
  { umem := twoPages, isDmabuf := isDmabuf, pageShift := 12, length := 8192, ddrMkey := 7
    caps := ⟨true, false, false⟩ }

theorem twoPagesMr_fits (isDmabuf : Bool) : Fits 12 (twoPagesMr isDmabuf) where
  valid := twoPages_valid
  shift := by
    change 12 < 64
    decide
  seams := twoPages_seams
  crossing h := by
    change 12 = 63 at h
    exact absurd h (by decide)

/-- A region of 517 pages in a row, of which a buffer of one page takes 512 entries. -/
def manyPagesMr : Mr :=
  { umem := { iova := 0, length := 517 * 4096, address := 0, odp := none,
              sgl := [⟨2 ^ 32, 517 * 4096⟩] }
    isDmabuf := false, pageShift := 12, length := 517 * 4096, ddrMkey := 7
    caps := ⟨true, false, false⟩ }

theorem manyPagesMr_fits : Fits 12 manyPagesMr where
  valid :=
    { noOdp := rfl
      nonempty := List.cons_ne_nil _ _
      nents := by decide
      mapped := by
        intro s hs
        rw [List.mem_singleton.mp hs]
        exact ⟨by decide, by decide, by decide⟩
      pages := by
        intro s hs
        rw [List.mem_singleton.mp hs]
        exact ⟨by decide, by decide⟩
      covered := by decide }
  shift := by decide
  seams := ⟨by decide, fun h => absurd rfl h, trivial⟩
  crossing h := by cases h

/-- Two requests, of 512 entries and of the last five with three of padding. -/
theorem update_mr_pas_demo :
    let r := mlx5rUmrUpdateMrPas 12 manyPagesMr MLX5_IB_UPD_XLT_ENABLE false
      ⟨false, false, true⟩ 517 fun _ => none
    let table := (r.2.map (Request.tile 8)).foldl Tile.write fun _ => ⟨1, 1⟩
    r.2.length = 2 ∧ table 511 = ⟨2 ^ 32 + 511 * 4096 + 3, 0⟩ ∧
      table 512 = ⟨2 ^ 32 + 512 * 4096 + 3, 0⟩ ∧ table 517 = ⟨0, 0⟩ ∧ table 520 = ⟨1, 1⟩ := by
  intro r table
  obtain ⟨-, -, htable, -, -⟩ := @update_mr_pas _ _ manyPagesMr_fits (by decide)
    MLX5_IB_UPD_XLT_ENABLE false ⟨false, false, true⟩ rfl 517 (by decide) (fun _ => none)
    fun _ => rfl
  refine ⟨by decide +kernel, ?_, ?_, ?_, ?_⟩
  · exact (htable (fun _ => ⟨1, 1⟩) 511).1 (2 ^ 32 + 511 * 4096) (by decide +kernel)
  · exact (htable (fun _ => ⟨1, 1⟩) 512).1 (2 ^ 32 + 512 * 4096) (by decide +kernel)
  · exact (htable (fun _ => ⟨1, 1⟩) 517).2.1 (by decide +kernel) (by decide +kernel)
  · exact (htable (fun _ => ⟨1, 1⟩) 520).2.2 (by decide +kernel)

/-- BROKEN: where the region is zapped, its entries become zero. -/
theorem update_mr_pas_broken : ¬ ∀ mr, Fits 12 mr →
    ibUmemNumDmaBlocks mr.umem (2 ^ mr.pageShift) < 2 ^ 32 → ∀ (flags : ℕ) (dd : Bool) (al : Alloc)
    (nents : ℕ), al.dmaMap = true → (al.freePages = true → 0 < nents) →
    ∀ (table : ℕ → Entry) (i b : ℕ),
      (umemForEachDmaBlock 12 mr.umem (2 ^ mr.pageShift))[i]? = some b →
      ((mlx5rUmrUpdateMrPas 12 mr flags dd al nents fun _ => none).2.map
        (Request.tile (entSize dd))).foldl Tile.write table i = blockEntry mr dd b := by
  intro hall
  have hentry := hall (twoPagesMr true) (twoPagesMr_fits true) (by decide) MLX5_IB_UPD_XLT_ZAP false
    ⟨true, true, true⟩ 2 rfl (by decide) (fun _ => ⟨0, 0⟩) 0 4096 (by decide +kernel)
  exact absurd hentry (by decide +kernel)

end RdmaDriver.UpdatePas
