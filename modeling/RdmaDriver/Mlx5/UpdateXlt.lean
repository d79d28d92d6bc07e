import RdmaDriver.Basic

/-! @src drivers/infiniband/hw/mlx5/umr.c | name:UMR translation update | scheme:chunks | family:table

    `mlx5r_umr_update_xlt` rewrites a part of the translation table of an ODP memory key. A UMR
    copies entries in units of 64 bytes, so the part is extended to whole units; it is sent in chunks
    of as many entries as the buffer holds that could be allocated. A table that is not indirect ends
    with its memory region, and the last chunk may be padded with what the buffer holds.

        idx & ~page_mask      idx                 idx + npages
        +------chunk-----+----|-chunk----------+--|--chunk--+
                              +-- asked for ------+

    The mkey fields that a UMR may change besides are left out. The posts succeed. -/

namespace RdmaDriver.UpdateXlt

def PAGE_SHIFT : ℕ := 12
def PAGE_SIZE : ℕ := 2 ^ PAGE_SHIFT
def MLX5_UMR_FLEX_ALIGNMENT : ℕ := 0x40
def MLX5_MAX_UMR_SHIFT : ℕ := 16
def MLX5_MAX_UMR_CHUNK : ℕ := 2 ^ (MLX5_MAX_UMR_SHIFT + 4) - MLX5_UMR_FLEX_ALIGNMENT
def MLX5_SPARE_UMR_CHUNK : ℕ := 0x10000

/-- What the kernel answers: whether the pages for the whole buffer, those for the spare size and the
    DMA mapping of the buffer are there. -/
structure Alloc where
  freePages : Bool
  sparePages : Bool
  dmaMap : Bool
  deriving DecidableEq

/-- `mlx5r_umr_alloc_xlt`: how many entries the buffer has. The last resort, one page or the emergency
    page, does not fail. -/
def mlx5rUmrAllocXlt (a : Alloc) (nents entSize : ℕ) : ℕ :=
  let size := min (entSize * align nents (MLX5_UMR_FLEX_ALIGNMENT / entSize)) MLX5_MAX_UMR_CHUNK
  if a.freePages then size / entSize
  else if MLX5_SPARE_UMR_CHUNK < size ∧ a.sparePages = true then MLX5_SPARE_UMR_CHUNK / entSize
  else PAGE_SIZE / entSize

section Update
variable {α : Type} (descSize : ℕ) (populate : ℕ → ℕ → (ℕ → α) → ℕ → α)

/-- One UMR: the first `n` entries of the buffer go to the table from `idx` on. -/
def postSend (table : ℕ → α) (idx n : ℕ) (xlt : ℕ → α) (i : ℕ) : α :=
  if idx ≤ i ∧ i < idx + n then xlt (i - idx) else table i

/-- The loop over the chunks; `fuel` bounds the rounds. -/
def xltLoop (pagesToMap pagesIter : ℕ) : ℕ → ℕ → ℕ → (ℕ → α) → (ℕ → α) → ℕ → α
  | 0, _, _, _, table => table
  | fuel + 1, pagesMapped, idx, xlt, table =>
    if pagesMapped < pagesToMap then
      let npages := min pagesIter (pagesToMap - pagesMapped)
      let xlt := populate idx npages xlt
      let length := align (npages * descSize) MLX5_UMR_FLEX_ALIGNMENT
      xltLoop pagesToMap pagesIter fuel (pagesMapped + pagesIter) (idx + pagesIter) xlt
        (postSend table idx (length / descSize) xlt)
    else table

/-- `mlx5r_umr_update_xlt`: `limit` is the number of pages of the region where the table is not
    indirect. The buffer is zero at first. -/
def mlx5rUmrUpdateXlt (zero : α) (limit : Option ℕ) (a : Alloc) (idx npages : ℕ) (table : ℕ → α) :
    Except Errno Unit × (ℕ → α) :=
  let pageAlign := MLX5_UMR_FLEX_ALIGNMENT / descSize
  let npages := npages + idx % pageAlign
  let idx := idx - idx % pageAlign
  let pagesToMap := align npages pageAlign
  if a.dmaMap = false then (.error .enomem, table)
  else
    let pagesIter := mlx5rUmrAllocXlt a npages descSize
    let pagesToMap := match limit with
      | none => pagesToMap
      | some n => min pagesToMap (toU 64 ((n : ℤ) - idx))
    (.ok (), xltLoop descSize populate pagesToMap pagesIter pagesToMap 0 idx (fun _ => zero)
      table)

end Update

/-- The part of the table that is sent for `npages` entries from `idx` on. -/
def Window (descSize idx npages i : ℕ) : Prop :=
  idx - idx % (MLX5_UMR_FLEX_ALIGNMENT / descSize) ≤ i ∧
    i < idx - idx % (MLX5_UMR_FLEX_ALIGNMENT / descSize) +
      align (npages + idx % (MLX5_UMR_FLEX_ALIGNMENT / descSize))
        (MLX5_UMR_FLEX_ALIGNMENT / descSize)

/-- `populate` fills the buffer with the entries that `g` gives for the table. -/
def Fills {α : Type} (populate : ℕ → ℕ → (ℕ → α) → ℕ → α) (Good : (ℕ → α) → Prop) (g : ℕ → α) :
    Prop :=
  ∀ idx n xlt, Good xlt → Good (populate idx n xlt) ∧ ∀ k < n, populate idx n xlt k = g (idx + k)

/-! ### Sizes -/

theorem align_mul (k : ℕ) {a : ℕ} (ha : 0 < a) : align (k * a) a = k * a := by
  unfold align
  rw [Nat.add_sub_assoc ha, Nat.add_comm, Nat.add_mul_div_right _ _ ha,
    Nat.div_eq_of_lt (show a - 1 < a by omega), Nat.zero_add]

theorem align_add_mul (n k : ℕ) {a : ℕ} (ha : 0 < a) : align (k * a + n) a = k * a + align n a := by
  unfold align
  rw [show k * a + n + a - 1 = n + a - 1 + k * a by omega, Nat.add_mul_div_right _ _ ha,
    Nat.add_mul, Nat.add_comm]

@[simp] theorem align_zero {a : ℕ} (ha : 0 < a) : align 0 a = 0 := by
  simpa using align_mul 0 ha

/-- Whole units of bytes are whole units of entries. -/
theorem align_entries (n : ℕ) {d a : ℕ} (hd : 0 < d) (ha : 0 < a) :
    align (n * d) (a * d) / d = align n a := by
  unfold align
  rw [← Nat.mul_assoc, Nat.mul_div_cancel _ hd]
  congr 1
  rw [Nat.mul_comm a d, ← Nat.div_div_eq_div_mul]
  congr 1
  rw [show n * d + d * a - 1 = d - 1 + (n + a - 1) * d by
    have : (n + a - 1) * d + d = n * d + d * a := by
      rw [← Nat.succ_mul, show (n + a - 1).succ = n + a by omega, Nat.add_mul, Nat.mul_comm a d]
    omega]
  rw [Nat.add_mul_div_right _ _ hd, Nat.div_eq_of_lt (show d - 1 < d by omega), Nat.zero_add]

/-- The buffer holds a positive number of whole units. -/
theorem allocXlt_units {d a : ℕ} (hd : 0 < d) (hda : MLX5_UMR_FLEX_ALIGNMENT = a * d) (al : Alloc)
    {n : ℕ} (hn : 0 < n) :
    0 < mlx5rUmrAllocXlt al n d ∧ a ∣ mlx5rUmrAllocXlt al n d := by
  have ha : 0 < a := Nat.pos_of_ne_zero fun h => by
    rw [h, Nat.zero_mul] at hda
    exact absurd hda (by decide)
  have hdiv : MLX5_UMR_FLEX_ALIGNMENT / d = a := by rw [hda, Nat.mul_div_cancel _ hd]
  have hunit : ∀ size, 0 < size → MLX5_UMR_FLEX_ALIGNMENT ∣ size → 0 < size / d ∧ a ∣ size / d := by
    rintro size hs ⟨k, rfl⟩
    rw [hda, Nat.mul_right_comm, Nat.mul_div_cancel _ hd]
    refine ⟨Nat.mul_pos ha (Nat.pos_of_ne_zero ?_), Dvd.intro _ rfl⟩
    rintro rfl
    simp at hs
  have hal : n ≤ align n a := le_align n ha
  unfold mlx5rUmrAllocXlt
  rw [hdiv]
  dsimp only
  split
  · refine hunit _ (Nat.lt_min.mpr ⟨Nat.mul_pos hd (by omega), by decide⟩) ?_
    rcases min_choice (d * align n a) MLX5_MAX_UMR_CHUNK with h | h
    · rw [h, hda, Nat.mul_comm a d]
      exact Nat.mul_dvd_mul_left d (dvd_align n a)
    · rw [h]
      decide
  · split
    · exact hunit _ (by decide) (by decide)
    · exact hunit _ (by decide) (by decide)

/-! ### What a call writes -/

section Spec
variable {α : Type} {d a : ℕ} {populate : ℕ → ℕ → (ℕ → α) → ℕ → α} {Good : (ℕ → α) → Prop}
  {g : ℕ → α}

/-- RUN: the chunks fill the pages that are to be mapped, and nothing behind the last unit. -/
theorem xltLoop_spec (hd : 0 < d) (ha : 0 < a) (hda : MLX5_UMR_FLEX_ALIGNMENT = a * d)
    (hfill : Fills populate Good g) (ptm : ℕ) {it : ℕ} (hit : 0 < it) (hdvd : a ∣ it) :
    ∀ (fuel pm idx : ℕ) (xlt table : ℕ → α), Good xlt → ptm ≤ pm + fuel →
    ∀ i, let t := xltLoop d populate ptm it fuel pm idx xlt table
      (idx ≤ i → i < idx + (ptm - pm) → t i = g i) ∧
      (i < idx ∨ idx + align (ptm - pm) a ≤ i → t i = table i)
  | 0, pm, idx, _, _, _, hle, i => by
    have : ptm - pm = 0 := by omega
    exact ⟨fun _ _ => by omega, fun _ => rfl⟩
  | fuel + 1, pm, idx, xlt, table, hgood, hle, i => by
    simp only [xltLoop]
    by_cases hlt : pm < ptm
    · rw [if_pos hlt, hda, align_entries _ hd ha]
      obtain ⟨hgood', hval⟩ := hfill idx (min it (ptm - pm)) xlt hgood
      have ih := xltLoop_spec hd ha hda hfill ptm hit hdvd fuel (pm + it) (idx + it) _
        (postSend table idx (align (min it (ptm - pm)) a) (populate idx (min it (ptm - pm)) xlt))
        hgood' (by omega) i
      obtain ⟨k, rfl⟩ := hdvd
      rcases Nat.le_total (ptm - pm) (a * k) with hlast | hmore
      · -- the last chunk
        have hrest : ptm - (pm + a * k) = 0 := by omega
        rw [hrest, align_zero ha] at ih
        rw [Nat.min_eq_right hlast] at ih hval ⊢
        have hal := le_align (ptm - pm) ha
        rw [ih.2 (by omega)]
        refine ⟨fun h₁ h₂ => ?_, fun h => ?_⟩
        · rw [postSend, if_pos ⟨h₁, by omega⟩, hval _ (by omega), Nat.add_sub_cancel' h₁]
        · rw [postSend, if_neg (by omega)]
      · rw [Nat.min_eq_left hmore] at ih hval ⊢
        rw [Nat.mul_comm a k, align_mul k ha, Nat.mul_comm k a] at ih ⊢
        have hal : align (ptm - pm) a = a * k + align (ptm - (pm + a * k)) a := by
          rw [show ptm - pm = k * a + (ptm - (pm + a * k)) by rw [Nat.mul_comm k a]; omega,
            align_add_mul _ _ ha, Nat.mul_comm k a]
        refine ⟨fun h₁ h₂ => ?_, fun h => ?_⟩
        · rcases Nat.lt_or_ge i (idx + a * k) with hi | hi
          · rw [ih.2 (.inl hi), postSend, if_pos ⟨h₁, hi⟩, hval _ (by omega),
              Nat.add_sub_cancel' h₁]
          · exact ih.1 hi (by omega)
        · rw [ih.2 (by omega), postSend, if_neg (by omega)]
    · rw [if_neg hlt]
      exact ⟨fun _ _ => by omega, fun _ => rfl⟩

/-- CORRECT: where the buffer is mapped, the entries of the window, and no others of the region, become
    those that `populate` gives. -/
theorem mlx5rUmrUpdateXlt_spec (hd : 0 < d) (hda : MLX5_UMR_FLEX_ALIGNMENT = a * d)
    (hfill : Fills populate Good g) {zero : α} (hzero : Good fun _ => zero) {al : Alloc}
    (hmap : al.dmaMap = true) {limit : Option ℕ} {idx npages : ℕ}
    (hlim : ∀ n ∈ limit, idx ≤ n ∧ n < 2 ^ 64) (table : ℕ → α) :
    ∃ table', mlx5rUmrUpdateXlt d populate zero limit al idx npages table = (.ok (), table') ∧
      ∀ i, (∀ n ∈ limit, i < n) → (Window d idx npages i → table' i = g i) ∧
        (¬ Window d idx npages i → table' i = table i) := by
  have ha : 0 < a := Nat.pos_of_ne_zero fun h => by
    rw [h, Nat.zero_mul] at hda
    exact absurd hda (by decide)
  have hdiv : MLX5_UMR_FLEX_ALIGNMENT / d = a := by rw [hda, Nat.mul_div_cancel _ hd]
  unfold mlx5rUmrUpdateXlt Window
  rw [hdiv]
  rw [hmap, if_neg Bool.noConfusion]
  refine ⟨_, rfl, fun i hi => ?_⟩
  rcases Nat.eq_zero_or_pos (npages + idx % a) with h0 | hpos
  · -- nothing is sent
    rw [h0, align_zero ha]
    cases limit <;> simp [xltLoop]
  · obtain ⟨hit, hdvd⟩ := allocXlt_units hd hda al hpos
    have hrun := fun ptm => xltLoop_spec hd ha hda hfill ptm hit hdvd ptm 0
      (idx - idx % a) (fun _ => zero) table hzero (Nat.le_add_left ..) i
    simp only [Nat.sub_zero] at hrun
    have hunits : align (align (npages + idx % a) a) a = align (npages + idx % a) a :=
      align_mul _ ha
    cases limit with
    | none =>
      have := hrun (align (npages + idx % a) a)
      exact ⟨fun h => this.1 h.1 h.2, fun h => this.2 (by omega)⟩
    | some n =>
      obtain ⟨hidx, hn⟩ := hlim n rfl
      have hin := hi n rfl
      dsimp only
      rw [toU_sub hn (by omega : idx - idx % a ≤ n)]
      have := hrun (min (align (npages + idx % a) a) (n - (idx - idx % a)))
      rcases Nat.le_total (align (npages + idx % a) a) (n - (idx - idx % a)) with hle | hle
      · rw [Nat.min_eq_left hle, hunits] at this
        rw [Nat.min_eq_left hle]
        exact ⟨fun h => this.1 h.1 h.2, fun h => this.2 (by omega)⟩
      · rw [Nat.min_eq_right hle] at this ⊢
        refine ⟨fun h => this.1 h.1 (by omega), fun h => this.2 (by omega)⟩

/-- The entries that were asked for are sent. -/
theorem Window.of_mem (hd : 0 < d) (hda : MLX5_UMR_FLEX_ALIGNMENT = a * d) {idx npages i : ℕ}
    (h : idx ≤ i) (h' : i < idx + npages) : Window d idx npages i := by
  have hdiv : MLX5_UMR_FLEX_ALIGNMENT / d = a := by rw [hda, Nat.mul_div_cancel _ hd]
  have ha : 0 < a := Nat.pos_of_ne_zero fun h => by
    rw [h, Nat.zero_mul] at hda
    exact absurd hda (by decide)
  have := le_align (npages + idx % a) ha
  unfold Window
  rw [hdiv]
  omega

end Spec

end RdmaDriver.UpdateXlt
