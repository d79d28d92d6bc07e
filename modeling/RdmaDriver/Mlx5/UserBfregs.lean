import Mathlib.Data.List.Perm.Basic
import Mathlib.Data.List.Nodup
import RdmaDriver.Basic
import RdmaDriver.Schemes.Run

/-! @src drivers/infiniband/hw/mlx5/main.c | name:User doorbell pages | scheme:pages |
    family:references

    A context has UARs of the device, each in a system page of its own. The static ones are
    allocated with the context and their registers are given to QPs; a dynamic one is allocated
    when it is mapped, and the first register of its page holds its count.

        count       [ 0 | 1 .. | first_hi .. )[ d   .   | d   .   | ... ]
        sys_pages   [   static pages          |  dynamic pages          ]
                      bfregs_per_sys_page ↔ one entry

    A mapping that fails gives its UAR back. -/

namespace RdmaDriver.UserBfregs
open RdmaDriver.Schemes
open List (mem_cons_self range' replicate)

def MLX5_NON_FP_BFREGS_PER_UAR : ℕ := 2
def MLX5_MAX_BFREGS : ℕ := 512
def MLX5_MIN_DYN_BFREGS : ℕ := 512
def MLX5_MAX_DYN_BFREGS : ℕ := 1024
def MLX5_IB_INVALID_UAR_INDEX : ℕ := 2 ^ 31

/-- The machine: a page has 2 ^ `logUars` UARs of 4096 bytes, which divides the registers evenly,
    and the device may support UARs of that size. -/
structure Machine where
  logUars : ℕ
  le : logUars ≤ 8
  uar4k : Bool

/-- The request for a context. -/
structure Req where
  totalNumBfregs : ℕ
  numLowLatencyBfregs : ℕ
  libUar4k : Bool
  ver : ℕ

/-- `struct mlx5_bfreg_info`, what is fixed when the context is set up. -/
structure Bfregi where
  uarsPerSysPage : ℕ
  numStaticSysPages : ℕ
  numDynBfregs : ℕ
  totalNumBfregs : ℕ
  numSysPages : ℕ
  numLowLatencyBfregs : ℕ
  ver : ℕ

/-- `get_uars_per_sys_page`. -/
def getUarsPerSysPage (m : Machine) (libUar4k : Bool) : ℕ :=
  if libUar4k && m.uar4k then 2 ^ m.logUars else 1

/-- `calc_dynamic_bfregs`. -/
def calcDynamicBfregs (m : Machine) (uarsPerSysPage : ℕ) : ℕ :=
  if uarsPerSysPage = 1 ∧ 2 ^ m.logUars > 1 then MLX5_MIN_DYN_BFREGS else MLX5_MAX_DYN_BFREGS

/-- `calc_total_bfregs`. -/
def calcTotalBfregs (m : Machine) (req : Req) : Except Errno Bfregi :=
  if req.totalNumBfregs = 0 then .error .einval
  else if req.totalNumBfregs > MLX5_MAX_BFREGS then .error .enomem
  else
    let uarsPerSysPage := getUarsPerSysPage m req.libUar4k
    let bfregsPerSysPage := uarsPerSysPage * MLX5_NON_FP_BFREGS_PER_UAR
    let total := align req.totalNumBfregs bfregsPerSysPage
    if req.numLowLatencyBfregs > total - 1 then .error .einval
    else
      let numDynBfregs := align (calcDynamicBfregs m uarsPerSysPage) bfregsPerSysPage
      .ok ⟨uarsPerSysPage, total / bfregsPerSysPage, numDynBfregs, total + numDynBfregs,
        (total + numDynBfregs) / bfregsPerSysPage, req.numLowLatencyBfregs, req.ver⟩

/-- The arrays; the users of the registers, the UARs that the device has for the context, and those
    that were given back without being the context's. -/
structure St where
  count : List ℤ
  sysPages : List ℕ
  users : List ℕ
  owned : List ℕ
  strays : List ℕ

/-- `mlx5_cmd_uar_alloc` that works. -/
def mlx5CmdUarAlloc (u : ℕ) (s : St) : St := { s with owned := u :: s.owned }

/-- `mlx5_cmd_uar_dealloc`. -/
def mlx5CmdUarDealloc (u : ℕ) (s : St) : St :=
  if u ∈ s.owned then { s with owned := s.owned.erase u } else { s with strays := u :: s.strays }

/-- The loop of `allocate_uars` over the static pages, with what the device answers for each. -/
def allocLoop : List (Except Errno ℕ) → St → Option Errno × St
  | [], s => (none, s)
  | .ok u :: rs, s => allocLoop rs (mlx5CmdUarAlloc u { s with sysPages := s.sysPages ++ [u] })
  | .error e :: _, s => (some e, s.sysPages.reverse.foldl (fun s u => mlx5CmdUarDealloc u s) s)

/-- `allocate_uars`, in arrays that are clear. -/
def allocateUars (b : Bfregi) (rs : List (Except Errno ℕ)) : Option Errno × St :=
  match allocLoop rs ⟨replicate b.totalNumBfregs 0, [], [], [], []⟩ with
  | (some e, s) => (some e, s)
  | (none, s) =>
    let dyn := replicate (b.numSysPages - b.numStaticSysPages) MLX5_IB_INVALID_UAR_INDEX
    (none, { s with sysPages := s.sysPages ++ dyn })

/-- The loop of `deallocate_uars` from page `i` on, for so many pages. -/
def deallocLoop (b : Bfregi) : ℕ → ℕ → St → Option St
  | 0, _, s => some s
  | n + 1, i, s =>
    match s.sysPages[i]? with
    | none => none
    | some u =>
      deallocLoop b n (i + 1)
        (if i < b.numStaticSysPages ∨ u ≠ MLX5_IB_INVALID_UAR_INDEX then mlx5CmdUarDealloc u s
          else s)

/-- `deallocate_uars`; an access out of bounds has no result, here and below. -/
def deallocateUars (b : Bfregi) (s : St) : Option St := deallocLoop b b.numSysPages 0 s

/-- A change of `count[i]`. -/
def addCount (s : St) (i : ℕ) (d : ℤ) : Option St :=
  match s.count[i]? with
  | none => none
  | some c => some { s with count := s.count.set i (c + d) }

section Registers
variable (b : Bfregi)

/-- `bfregs_per_sys_page`. -/
def perPage : ℕ := b.uarsPerSysPage * MLX5_NON_FP_BFREGS_PER_UAR

/-- `max_bfregs`. -/
def maxBfregs : ℕ := b.uarsPerSysPage * b.numStaticSysPages * MLX5_NON_FP_BFREGS_PER_UAR

/-- `num_med_bfreg`. -/
def numMedBfreg : ℕ := maxBfregs b - b.numLowLatencyBfregs - 1

/-- `first_hi_bfreg`. -/
def firstHiBfreg : ℕ := numMedBfreg b + 1

/-- The loop of `alloc_high_class_bfreg`: the register, if there is one. -/
def highLoop (s : St) : List ℕ → Option (Option ℕ)
  | [] => some none
  | i :: l =>
    match s.count[i]? with
    | none => none
    | some c => if c = 0 then some (some i) else highLoop s l

/-- The loop of `alloc_med_class_bfreg`. -/
def medLoop (s : St) : List ℕ → ℕ → Option ℕ
  | [], minidx => some minidx
  | i :: l, minidx =>
    match s.count[i]?, s.count[minidx]? with
    | some c, some d =>
      let minidx := if c < d then i else minidx
      match s.count[minidx]? with
      | none => none
      | some d => if d = 0 then some minidx else medLoop s l minidx
    | _, _ => none

/-- `alloc_med_class_bfreg` without the count: the register, unless there is none of the class. -/
def allocMedClassBfreg (s : St) : Option (Option ℕ) :=
  if numMedBfreg b = 0 then some none
  else (medLoop s (range' 1 (firstHiBfreg b - 1)) 1).map some

/-- The register that `alloc_bfreg` counts up. -/
def chooseBfreg (s : St) : Option ℕ :=
  if b.ver ≥ 2 then
    match highLoop s (range' (firstHiBfreg b) (maxBfregs b - firstHiBfreg b)) with
    | none => none
    | some (some i) => some i
    | some none =>
      match allocMedClassBfreg b s with
      | none => none
      | some none => some 0
      | some (some i) => some i
  else some 0

/-- `alloc_bfreg`. -/
def allocBfreg (s : St) : Option (ℕ × St) :=
  match chooseBfreg b s with
  | none => none
  | some i => (addCount s i 1).map fun s => (i, { s with users := i :: s.users })

/-- `mlx5_ib_free_bfreg`. -/
def mlx5IbFreeBfreg (s : St) (i : ℕ) : Option St :=
  (addCount s i (-1)).map fun s => { s with users := s.users.erase i }

/-- `bfregn_to_uar_index`: the index as an `int`, or an error. -/
def bfregnToUarIndex (s : St) (bfregn : ℕ) (dynBfreg : Bool) : Option (Except Errno ℤ) :=
  let page := bfregn / perPage b
  let offset := bfregn % perPage b / MLX5_NON_FP_BFREGS_PER_UAR
  if dynBfreg then
    let page := page + b.numStaticSysPages
    if page ≥ b.numSysPages then some (.error .einval)
    else if bfregn > b.numDynBfregs then some (.error .einval)
    else
      match s.sysPages[page]? with
      | none => none
      | some u =>
        if u = MLX5_IB_INVALID_UAR_INDEX then some (.error .einval)
        else some (.ok (toInt (u + offset : ℕ)))
  else
    match s.sysPages[page]? with
    | none => none
    | some u => some (.ok (toInt (u + offset : ℕ)))

end Registers

/-- The commands of `uar_mmap`. -/
inductive MmapCmd where
  | wcPage | regularPage | ncPage | allocWc | other
  deriving DecidableEq

/-- A call of `uar_mmap`: the offset, whether it is for one page, and what the device and
    `rdma_user_mmap_io` answer where they are asked. -/
structure Mmap where
  cmd : MmapCmd
  pgoff : ℕ
  onePage : Bool
  alloc : Except Errno ℕ
  map : Option Errno

/-- `get_index`, that is `get_arg`. -/
def getIndex (offset : ℕ) : ℕ := offset &&& (2 ^ 8 - 1)

/-- `get_extended_index`. -/
def getExtendedIndex (offset : ℕ) : ℕ := getIndex offset ||| ((offset >>> 16) &&& 0xff) <<< 8

section Map
variable (b : Bfregi)

/-- `uar_mmap` of a dynamic page that is counted: its UAR, and the mapping. -/
def uarMmapAlloc (s : St) (c : Mmap) (idx bfregDynIdx : ℕ) : Option (Option Errno × St) :=
  match c.alloc with
  | .error e => (mlx5IbFreeBfreg s bfregDynIdx).map fun s => (some e, s)
  | .ok u =>
    match c.map with
    | some e =>
      (mlx5IbFreeBfreg (mlx5CmdUarDealloc idx (mlx5CmdUarAlloc u s)) bfregDynIdx).map fun s =>
        (some e, s)
    | none =>
      if idx < s.sysPages.length then
        some (none, mlx5CmdUarAlloc u { s with sysPages := s.sysPages.set idx u })
      else none

/-- `uar_mmap` of a dynamic page, from the index on. -/
def uarMmapDyn (s : St) (c : Mmap) (idx : ℕ) : Option (Option Errno × St) :=
  let bfregDynIdx := idx * perPage b
  if bfregDynIdx ≥ b.totalNumBfregs then some (some .einval, s)
  else
    match s.count[bfregDynIdx]? with
    | none => none
    | some n =>
      if n ≠ 0 then some (some .einval, s)
      else
        match addCount s bfregDynIdx 1 with
        | none => none
        | some s => uarMmapAlloc { s with users := bfregDynIdx :: s.users } c idx bfregDynIdx

/-- `uar_mmap`. -/
def uarMmap (s : St) (c : Mmap) : Option (Option Errno × St) :=
  if !c.onePage then some (some .einval, s)
  else if c.cmd = .allocWc then
    let idx := getExtendedIndex c.pgoff + b.numStaticSysPages
    if idx ≥ b.numSysPages then some (some .einval, s) else uarMmapDyn b s c idx
  else
    let idx := getIndex c.pgoff
    if idx ≥ b.numStaticSysPages then some (some .einval, s)
    else if c.cmd = .other then some (some .einval, s)
    else
      match s.sysPages[idx]? with
      | none => none
      | some _ => some (c.map, s)

/-- A call by the user of the context. -/
inductive Op where
  | alloc
  | free (i : ℕ)
  | mmap (c : Mmap)
  | query (bfregn : ℕ)

/-- The context after a call; without a result there is no context. -/
def exec (s : St) : Op → Option St
  | .alloc => (allocBfreg b s).map Prod.snd
  | .free i => mlx5IbFreeBfreg s i
  | .mmap c => (uarMmap b s c).map Prod.snd
  | .query bfregn => (bfregnToUarIndex b s bfregn true).map fun _ => s

/-- The steps of a run. -/
def step (s : St) (o : Op) : St := (exec b s o).getD s

/-- Only a register that is held is freed, and the device allocates no UAR twice; their numbers have
    24 bits. -/
def Allowed (s : St) : Op → Prop
  | .free i => i ∈ s.users ∧ i < maxBfregs b
  | .mmap c => ∀ u, c.alloc = .ok u → u ∉ s.owned ∧ u < 2 ^ 24
  | _ => True

/-- The mapping of a dynamic page that has a new UAR does not fail, but where the number of the UAR
    is the index of the page. -/
def Mapped : Op → Prop
  | .mmap c => c.cmd = .allocWc → c.map ≠ none → ∀ u, c.alloc = .ok u →
      u = getExtendedIndex c.pgoff + b.numStaticSysPages
  | _ => True

end Map

section Geometry
variable {b : Bfregi}

/-- A context whose registers and pages fit together. -/
structure Good (b : Bfregi) : Prop where
  uarsPos : 0 < b.uarsPerSysPage
  uarsLe : b.uarsPerSysPage ≤ 256
  staticPos : 0 < b.numStaticSysPages
  staticLe : b.numStaticSysPages ≤ b.numSysPages
  total : b.totalNumBfregs = b.numSysPages * perPage b
  lowLt : b.numLowLatencyBfregs < b.numStaticSysPages * perPage b

/-- A context that is accepted fits together. -/
theorem good_of_calc {m : Machine} {req : Req} (h : calcTotalBfregs m req = .ok b) : Good b := by
  unfold calcTotalBfregs at h
  split_ifs at h with h0 hmax
  simp only at h
  have hu : 0 < getUarsPerSysPage m req.libUar4k ∧ getUarsPerSysPage m req.libUar4k ≤ 256 := by
    unfold getUarsPerSysPage
    split_ifs
    · exact ⟨Nat.two_pow_pos _, Nat.pow_le_pow_right (by decide) m.le⟩
    · exact ⟨Nat.one_pos, by decide⟩
  generalize getUarsPerSysPage m req.libUar4k = u at h hu
  have hw : 0 < u * MLX5_NON_FP_BFREGS_PER_UAR := Nat.mul_pos hu.1 (by decide)
  split_ifs at h with hlow
  obtain rfl := Except.ok.inj h
  have hpos : 0 < align req.totalNumBfregs (u * MLX5_NON_FP_BFREGS_PER_UAR) :=
    (Nat.pos_of_ne_zero h0).trans_le (le_align _ hw)
  have hstatic := dvd_align req.totalNumBfregs (u * MLX5_NON_FP_BFREGS_PER_UAR)
  have hdyn := dvd_align (calcDynamicBfregs m u) (u * MLX5_NON_FP_BFREGS_PER_UAR)
  refine ⟨hu.1, hu.2, Nat.div_pos (Nat.le_of_dvd hpos hstatic) hw, ?_, ?_, ?_⟩
  · exact Nat.div_le_div_right (Nat.le_add_right _ _)
  · exact (Nat.div_mul_cancel (Nat.dvd_add hstatic hdyn)).symm
  · change _ < align _ _ / (u * MLX5_NON_FP_BFREGS_PER_UAR) * (u * MLX5_NON_FP_BFREGS_PER_UAR)
    rw [Nat.div_mul_cancel hstatic]
    simp only
    omega

theorem Good.perPage_pos (g : Good b) : 0 < perPage b := Nat.mul_pos g.uarsPos (by decide)

theorem maxBfregs_eq (b : Bfregi) : maxBfregs b = b.numStaticSysPages * perPage b := by
  unfold maxBfregs perPage
  rw [Nat.mul_comm b.uarsPerSysPage, Nat.mul_assoc]

theorem Good.max_le (g : Good b) : maxBfregs b ≤ b.totalNumBfregs := by
  rw [maxBfregs_eq, g.total]
  exact Nat.mul_le_mul_right _ g.staticLe

/-- The high class is a part of the static registers. -/
theorem Good.hi_le (g : Good b) : 0 < firstHiBfreg b ∧ firstHiBfreg b ≤ maxBfregs b := by
  have := g.lowLt
  rw [← maxBfregs_eq] at this
  unfold firstHiBfreg numMedBfreg
  omega

/-- The first register of a page. -/
theorem Good.first_lt (g : Good b) {k : ℕ} (h : k < b.numSysPages) :
    k * perPage b < b.totalNumBfregs := by
  rw [g.total]
  exact Nat.mul_lt_mul_of_pos_right h g.perPage_pos

/-- The first register of a dynamic page is no static register. -/
theorem Good.max_le_first {k : ℕ} (h : b.numStaticSysPages ≤ k) :
    maxBfregs b ≤ k * perPage b := by
  rw [maxBfregs_eq]
  exact Nat.mul_le_mul_right _ h

end Geometry

section Lists

/-- A place of a list that passes no filter is filled. -/
theorem filter_set {p : ℕ → Bool} {x y : ℕ} (hx : p x = false) (hy : p y = true) :
    ∀ {l : List ℕ} {k : ℕ}, l[k]? = some x → ((l.set k y).filter p).Perm (y :: l.filter p)
  | a :: l, 0, h => by
    obtain rfl : a = x := by simpa using h
    rw [List.set_cons_zero, List.filter_cons_of_pos hy, List.filter_cons_of_neg (by simp [hx])]
  | a :: l, k + 1, h => by
    have ih := filter_set hx hy (l := l) (k := k) (by simpa using h)
    rw [List.set_cons_succ]
    by_cases ha : p a = true
    · rw [List.filter_cons_of_pos ha, List.filter_cons_of_pos ha]
      exact (ih.cons a).trans (List.Perm.swap y a _)
    · rw [List.filter_cons_of_neg ha, List.filter_cons_of_neg ha]
      exact ih

/-- One more user. -/
theorem count_add {count : List ℤ} {us : List ℕ} {n i : ℕ} (hlen : count.length = n)
    (h : ∀ j < n, count[j]? = some (us.count j : ℤ)) :
    ∀ j < n, (count.set i ((us.count i : ℤ) + 1))[j]? = some ((i :: us).count j : ℤ) := by
  intro j hj
  by_cases he : i = j
  · subst he
    simp [hlen, hj]
  · simp [he, h j hj]

/-- One user less. -/
theorem count_erase {count : List ℤ} {us : List ℕ} {n i : ℕ} (hlen : count.length = n)
    (hi : i ∈ us) (h : ∀ j < n, count[j]? = some (us.count j : ℤ)) :
    ∀ j < n, (count.set i ((us.count i : ℤ) + -1))[j]? = some ((us.erase i).count j : ℤ) := by
  intro j hj
  rw [List.getElem?_set]
  by_cases he : i = j
  · subst he
    have hpos := List.count_pos_iff.mpr hi
    rw [if_pos rfl, if_pos (hlen ▸ hj), List.count_erase_self]
    congr 1
    omega
  · rw [if_neg he, h j hj, List.count_erase_of_ne (Ne.symm he)]

end Lists

section Invariant
variable {b : Bfregi} {s s' : St} {i k : ℕ}

/-- A page that has a UAR. -/
def live (u : ℕ) : Bool := u ≠ MLX5_IB_INVALID_UAR_INDEX

/-- The counts are those of the users, a register of the high class has one at most, a dynamic page
    has a UAR as long as its first register has a user, and the UARs of the pages are those that the
    device has for the context. -/
structure Inv (b : Bfregi) (s : St) : Prop where
  lenC : s.count.length = b.totalNumBfregs
  lenS : s.sysPages.length = b.numSysPages
  count : ∀ i < b.totalNumBfregs, s.count[i]? = some (s.users.count i : ℤ)
  high : ∀ i, firstHiBfreg b ≤ i → i < maxBfregs b → s.users.count i ≤ 1
  dyn : ∀ k, b.numStaticSysPages ≤ k → s.users.count (k * perPage b) = 0 →
    k < b.numSysPages → s.sysPages[k]? = some MLX5_IB_INVALID_UAR_INDEX
  fixed : ∀ k < b.numStaticSysPages, s.sysPages[k]? ≠ some MLX5_IB_INVALID_UAR_INDEX
  pages : (s.sysPages.filter live).Perm s.owned
  nodup : s.owned.Nodup
  small : ∀ u ∈ s.owned, u < 2 ^ 24
  strays : s.strays = []

theorem addCount_eq {c : ℤ} (h : s.count[i]? = some c) (d : ℤ) :
    addCount s i d = some { s with count := s.count.set i (c + d) } := by
  rw [addCount, h]

theorem free_eq {c : ℤ} (h : s.count[i]? = some c) : mlx5IbFreeBfreg s i = some { s with
    count := s.count.set i (c + -1), users := s.users.erase i } := by
  rw [mlx5IbFreeBfreg, addCount_eq h, Option.map_some]

/-- A static register has one user more. -/
theorem Inv.add (h : Inv b s) (hlt : i < maxBfregs b) (hle : maxBfregs b ≤ b.totalNumBfregs)
    (hhigh : firstHiBfreg b ≤ i → s.users.count i = 0) :
    ∃ s', addCount s i 1 = some s' ∧ Inv b { s' with users := i :: s'.users } := by
  have hi := h.count i (hlt.trans_le hle)
  refine ⟨_, addCount_eq hi 1, { h with lenC := ?_, count := ?_, high := ?_, dyn := ?_ }⟩
  · rw [← h.lenC]
    exact List.length_set
  · exact count_add h.lenC h.count
  · intro j hj hjlt
    rw [List.count_cons]
    have hone := h.high j hj hjlt
    by_cases he : i = j
    · subst he
      rw [hhigh hj, beq_self_eq_true, if_pos rfl]
    · rw [if_neg (by simpa using he)]
      exact hone
  · intro k hk hzero hlt'
    refine h.dyn k hk ?_ hlt'
    exact Nat.eq_zero_of_le_zero (hzero ▸ List.count_le_count_cons)

/-- A register that is held has one user less. -/
theorem Inv.free (h : Inv b s) (hi : i ∈ s.users) (hlt : i < maxBfregs b)
    (hle : maxBfregs b ≤ b.totalNumBfregs) :
    ∃ s', mlx5IbFreeBfreg s i = some s' ∧ Inv b s' := by
  have hc := h.count i (hlt.trans_le hle)
  refine ⟨_, free_eq hc, { h with lenC := ?_, count := ?_, high := ?_, dyn := ?_ }⟩
  · rw [← h.lenC]
    exact List.length_set
  · exact count_erase h.lenC hi h.count
  · exact fun j hj hjlt => (List.erase_sublist.count_le j).trans (h.high j hj hjlt)
  · intro k hk hzero hlt'
    refine h.dyn k hk ?_ hlt'
    -- the register is static, the page is not
    have hne : k * perPage b ≠ i := fun he => absurd (Good.max_le_first hk) (by omega)
    rwa [List.count_erase_of_ne hne] at hzero

/-- The registers of a list are read. -/
theorem highLoop_spec (h : Inv b s) : ∀ {l : List ℕ}, (∀ j ∈ l, j < b.totalNumBfregs) →
    ∃ r, highLoop s l = some r ∧ ∀ i, r = some i → i ∈ l ∧ s.users.count i = 0
  | [], _ => ⟨none, rfl, fun _ h => by cases h⟩
  | j :: l, hl => by
    have hj := h.count j (hl j mem_cons_self)
    rw [highLoop, hj]
    by_cases hz : (s.users.count j : ℤ) = 0
    · refine ⟨some j, by simp only [if_pos hz], fun i hi => ?_⟩
      obtain rfl := Option.some.inj hi
      exact ⟨mem_cons_self, by exact_mod_cast hz⟩
    · obtain ⟨r, hr, hspec⟩ := highLoop_spec h fun j hj => hl j (List.mem_cons_of_mem _ hj)
      refine ⟨r, by simp only [if_neg hz, hr], fun i hi => ?_⟩
      exact ⟨List.mem_cons_of_mem _ (hspec i hi).1, (hspec i hi).2⟩

theorem medLoop_spec (h : Inv b s) : ∀ {l : List ℕ} {minidx : ℕ},
    (∀ j ∈ l, j < b.totalNumBfregs) → minidx < b.totalNumBfregs →
    ∃ i, medLoop s l minidx = some i ∧ (i = minidx ∨ i ∈ l)
  | [], minidx, _, _ => ⟨minidx, rfl, .inl rfl⟩
  | j :: l, minidx, hl, hm => by
    have hj := hl j mem_cons_self
    have hrest := fun j hj => hl j (List.mem_cons_of_mem _ hj)
    rw [medLoop, h.count j hj, h.count minidx hm]
    simp only
    -- the smaller of the two goes on
    have hgo : ∀ m, m = j ∨ m = minidx → ∃ i, (match s.count[m]? with
        | none => none
        | some d => if d = 0 then some m else medLoop s l m) = some i ∧
          (i = minidx ∨ i ∈ j :: l) := by
      intro m hmem
      have hlt : m < b.totalNumBfregs := by rcases hmem with rfl | rfl <;> assumption
      have hin : m = minidx ∨ m ∈ j :: l := by
        rcases hmem with rfl | rfl
        · exact .inr mem_cons_self
        · exact .inl rfl
      rw [h.count m hlt]
      by_cases hz : (s.users.count m : ℤ) = 0
      · exact ⟨m, by simp only [if_pos hz], hin⟩
      · obtain ⟨i, hi, hspec⟩ := medLoop_spec h hrest hlt
        refine ⟨i, by simp only [if_neg hz, hi], ?_⟩
        rcases hspec with rfl | hmem'
        · exact hin
        · exact .inr (List.mem_cons_of_mem _ hmem')
    split_ifs
    · exact hgo j (.inl rfl)
    · exact hgo minidx (.inr rfl)

/-- The register that is chosen is a static one, and it is free if it is of the high class. -/
theorem chooseBfreg_spec (g : Good b) (h : Inv b s) : ∃ i, chooseBfreg b s = some i ∧
    i < maxBfregs b ∧ (firstHiBfreg b ≤ i → s.users.count i = 0) := by
  obtain ⟨hpos, hle⟩ := g.hi_le
  have hmax := g.max_le
  have hzero : 0 < maxBfregs b ∧ (firstHiBfreg b ≤ 0 → s.users.count 0 = 0) :=
    ⟨hpos.trans_le hle, fun h0 => absurd h0 (by omega)⟩
  unfold chooseBfreg
  split_ifs with hver
  · have hrange : ∀ j ∈ range' (firstHiBfreg b) (maxBfregs b - firstHiBfreg b),
        j < maxBfregs b := by
      intro j hj
      have := List.mem_range'_1.mp hj
      omega
    obtain ⟨r, hr, hspec⟩ := highLoop_spec h fun j hj => (hrange j hj).trans_le hmax
    rw [hr]
    cases r with
    | some i =>
      obtain ⟨hmem, hcount⟩ := hspec i rfl
      exact ⟨i, rfl, hrange i hmem, fun _ => hcount⟩
    | none =>
      simp only [allocMedClassBfreg]
      split_ifs with hmed
      · exact ⟨0, rfl, hzero⟩
      · have hfirst : 1 < firstHiBfreg b := by
          unfold firstHiBfreg
          omega
        have hrange : ∀ j ∈ range' 1 (firstHiBfreg b - 1), j < firstHiBfreg b := by
          intro j hj
          have := List.mem_range'_1.mp hj
          omega
        obtain ⟨i, hi, hin⟩ := medLoop_spec h
          (fun j hj => ((hrange j hj).trans_le hle).trans_le hmax)
          ((hfirst.trans_le hle).trans_le hmax)
        have hlt : i < firstHiBfreg b := by
          rcases hin with rfl | hmem
          · exact hfirst
          · exact hrange i hmem
        rw [hi]
        exact ⟨i, rfl, hlt.trans_le hle, fun h => absurd hlt (Nat.not_lt.mpr h)⟩
  · exact ⟨0, rfl, hzero⟩

/-- STEP: a register is given to one more user. -/
theorem Inv.alloc (g : Good b) (h : Inv b s) : ∃ i s', allocBfreg b s = some (i, s') ∧
    i < maxBfregs b ∧ Inv b s' := by
  obtain ⟨i, hi, hlt, hhigh⟩ := chooseBfreg_spec g h
  obtain ⟨s', hadd, hinv⟩ := h.add hlt g.max_le hhigh
  refine ⟨i, _, ?_, hlt, hinv⟩
  rw [allocBfreg, hi]
  simp only [hadd, Option.map_some]

end Invariant

section Mapping
variable {b : Bfregi} {s s' : St} {i k : ℕ} {c : Mmap}

theorem set_same {l : List ℤ} {x : ℤ} (h : l[i]? = some x) : l.set i x = l := by
  refine List.ext_getElem? fun j => ?_
  rw [List.getElem?_set]
  split_ifs with he hlt
  · rw [← he, h]
  · rw [← he, List.getElem?_eq_none (Nat.not_lt.mp hlt)]
  · rfl

/-- A count that goes up and down again. -/
theorem free_added {x : ℤ} (h : s.count[i]? = some x) (owned strays : List ℕ) :
    mlx5IbFreeBfreg { s with
      count := s.count.set i (x + 1), users := i :: s.users, owned := owned, strays := strays } i =
    some { s with owned := owned, strays := strays } := by
  have hlt : i < s.count.length := (List.getElem?_eq_some_iff.mp h).1
  have hc : (s.count.set i (x + 1))[i]? = some (x + 1) := List.getElem?_set_self hlt
  rw [free_eq hc]
  simp only [List.set_set, Int.add_neg_cancel_right, List.erase_cons_head, set_same h]

theorem dealloc_new (u : ℕ) (s : St) : mlx5CmdUarDealloc u (mlx5CmdUarAlloc u s) = s := by
  simp only [mlx5CmdUarDealloc, mlx5CmdUarAlloc, mem_cons_self, if_true, List.erase_cons_head]

section
variable (h : Inv b s) (hk : b.numStaticSysPages ≤ k) (hlt : k < b.numSysPages)
include h hk hlt

/-- A dynamic page gets a UAR. -/
theorem Inv.map
    (hzero : s.users.count (k * perPage b) = 0) {u : ℕ} (hu : u ∉ s.owned) (hsmall : u < 2 ^ 24) :
    Inv b {
      count := s.count.set (k * perPage b) ((s.users.count (k * perPage b) : ℤ) + 1)
      sysPages := s.sysPages.set k u
      users := k * perPage b :: s.users
      owned := u :: s.owned
      strays := s.strays } := by
  have hfree := h.dyn k hk hzero hlt
  refine ⟨List.length_set.trans h.lenC, List.length_set.trans h.lenS, count_add h.lenC h.count,
    ?_, ?_, ?_, ?_, List.nodup_cons.mpr ⟨hu, h.nodup⟩, ?_, h.strays⟩
  · intro i hi hmax
    have hne : k * perPage b ≠ i := fun he => absurd (Good.max_le_first hk) (by omega)
    rw [List.count_cons_of_ne hne]
    exact h.high i hi hmax
  · intro l hl hcount hlsys
    have hne : k * perPage b ≠ l * perPage b := fun he => by
      rw [← he, List.count_cons_self] at hcount
      cases hcount
    rw [List.count_cons_of_ne hne] at hcount
    rw [List.getElem?_set_ne fun he => hne (by rw [he])]
    exact h.dyn l hl hcount hlsys
  · intro l hl
    rw [List.getElem?_set_ne (by omega)]
    exact h.fixed l hl
  · have hne : u ≠ MLX5_IB_INVALID_UAR_INDEX := fun he => by
      rw [he] at hsmall
      exact absurd hsmall (by decide)
    exact (filter_set (by simp [live]) (by simpa [live] using hne) hfree).trans (h.pages.cons u)
  · intro v hv
    rcases List.mem_cons.mp hv with rfl | hv
    · exact hsmall
    · exact h.small v hv

/-- The UAR of a page that was just counted, and its mapping. -/
theorem uarMmapAlloc_spec
    (hcount : s.count[k * perPage b]? = some (s.users.count (k * perPage b) : ℤ))
    (hzero : s.users.count (k * perPage b) = 0)
    (hnew : ∀ u, c.alloc = .ok u → u ∉ s.owned ∧ u < 2 ^ 24) : ∃ e s', uarMmapAlloc { s with
        count := s.count.set (k * perPage b) ((s.users.count (k * perPage b) : ℤ) + 1)
        users := k * perPage b :: s.users } c k (k * perPage b) = some (e, s') ∧
      ((c.map ≠ none → ∀ u, c.alloc = .ok u → u = k) → Inv b s' ∧ (e ≠ none → s' = s)) := by
  unfold uarMmapAlloc
  cases ha : c.alloc with
  | error e =>
    rw [free_added hcount s.owned s.strays]
    exact ⟨_, _, rfl, fun _ => ⟨h, fun _ => rfl⟩⟩
  | ok u =>
    obtain ⟨hu, hsmall⟩ := hnew u ha
    simp only
    cases hm : c.map with
    | none =>
      rw [if_pos (h.lenS ▸ hlt)]
      exact ⟨_, _, rfl, fun _ => ⟨h.map hk hlt hzero hu hsmall, fun he => absurd rfl he⟩⟩
    | some e =>
      by_cases huk : u = k
      · subst huk
        rw [dealloc_new, free_added hcount s.owned s.strays]
        exact ⟨_, _, rfl, fun _ => ⟨h, fun _ => rfl⟩⟩
      · -- another UAR is given back; the count is as before
        obtain ⟨owned, strays, hdealloc⟩ : ∃ owned strays, mlx5CmdUarDealloc k (mlx5CmdUarAlloc u
            { s with
              count := s.count.set (k * perPage b) ((s.users.count (k * perPage b) : ℤ) + 1)
              users := k * perPage b :: s.users }) = { s with
              count := s.count.set (k * perPage b) ((s.users.count (k * perPage b) : ℤ) + 1)
              users := k * perPage b :: s.users, owned := owned, strays := strays } := by
          unfold mlx5CmdUarDealloc
          split_ifs
          · exact ⟨_, _, rfl⟩
          · exact ⟨_, _, rfl⟩
        rw [hdealloc, free_added hcount]
        exact ⟨_, _, rfl, fun hmap => absurd (hmap (Option.some_ne_none e) u rfl) huk⟩

end

/-- STEP: a dynamic page is mapped, or there is an error that leaves everything as it was, as long
    as the mapping does not fail. -/
theorem uarMmapDyn_spec (g : Good b) (h : Inv b s) (hk : b.numStaticSysPages ≤ k)
    (hlt : k < b.numSysPages) (hnew : ∀ u, c.alloc = .ok u → u ∉ s.owned ∧ u < 2 ^ 24) :
    ∃ e s', uarMmapDyn b s c k = some (e, s') ∧
      ((c.map ≠ none → ∀ u, c.alloc = .ok u → u = k) → Inv b s' ∧ (e ≠ none → s' = s)) := by
  have hfirst := g.first_lt hlt
  have hcount := h.count _ hfirst
  unfold uarMmapDyn
  simp only [if_neg (Nat.not_le.mpr hfirst), hcount]
  by_cases hz : s.users.count (k * perPage b) = 0
  · have hz' : ¬(s.users.count (k * perPage b) : ℤ) ≠ 0 := not_not.mpr (by exact_mod_cast hz)
    simp only [if_neg hz', addCount_eq hcount]
    exact uarMmapAlloc_spec h hk hlt hcount hz hnew
  · have hz' : (s.users.count (k * perPage b) : ℤ) ≠ 0 := by exact_mod_cast hz
    simp only [if_pos hz']
    exact ⟨_, _, rfl, fun _ => ⟨h, fun _ => rfl⟩⟩

/-- STEP: a call of `uar_mmap` has a result; an error leaves everything as it was, as long as no
    mapping of a new UAR fails. -/
theorem uarMmap_spec (g : Good b) (h : Inv b s) (ha : Allowed b s (.mmap c)) :
    ∃ e s', uarMmap b s c = some (e, s') ∧
      (Mapped b (.mmap c) → Inv b s' ∧ (e ≠ none → s' = s)) := by
  have hsame : ∀ e : Option Errno, ∃ e' s', some (e, s) = some (e', s') ∧
      (Mapped b (.mmap c) → Inv b s' ∧ (e' ≠ none → s' = s)) :=
    fun e => ⟨e, s, rfl, fun _ => ⟨h, fun _ => rfl⟩⟩
  unfold uarMmap
  by_cases hone : (!c.onePage) = true
  · rw [if_pos hone]
    exact hsame _
  rw [if_neg hone]
  by_cases hdyn : c.cmd = .allocWc
  · rw [if_pos hdyn]
    by_cases hlt : getExtendedIndex c.pgoff + b.numStaticSysPages ≥ b.numSysPages
    · rw [if_pos hlt]
      exact hsame _
    · rw [if_neg hlt]
      obtain ⟨e, s', hrun, hspec⟩ :=
        uarMmapDyn_spec g h (Nat.le_add_left _ _) (Nat.not_le.mp hlt) ha
      exact ⟨e, s', hrun, fun hm => hspec (hm hdyn)⟩
  · rw [if_neg hdyn]
    by_cases hlt : getIndex c.pgoff ≥ b.numStaticSysPages
    · rw [if_pos hlt]
      exact hsame _
    rw [if_neg hlt]
    split_ifs with hother
    · exact hsame _
    have hin : getIndex c.pgoff < s.sysPages.length := by
      rw [h.lenS]
      exact (Nat.not_le.mp hlt).trans_le g.staticLe
    rw [List.getElem?_eq_getElem hin]
    exact hsame _

/-- What an index that is not an error must be: a UAR of a page of the context. -/
def OwnedUar (b : Bfregi) (s : St) : Except Errno ℤ → Prop
  | .error _ => True
  | .ok r => ∃ u ∈ s.owned, ∃ off < b.uarsPerSysPage, r = (u + off : ℕ)

/-- An entry of the pages with an offset. -/
theorem ownedUar_page (g : Good b) (h : Inv b s) {u : ℕ} (hu : s.sysPages[k]? = some u)
    (hlive : u ≠ MLX5_IB_INVALID_UAR_INDEX) (n : ℕ) :
    OwnedUar b s (.ok (toInt (u + n % perPage b / MLX5_NON_FP_BFREGS_PER_UAR : ℕ))) := by
  have hmem : u ∈ s.owned := h.pages.mem_iff.mp
    (List.mem_filter.mpr ⟨List.mem_of_getElem? hu, by simpa [live] using hlive⟩)
  have hoff : n % perPage b / MLX5_NON_FP_BFREGS_PER_UAR < b.uarsPerSysPage :=
    Nat.div_lt_of_lt_mul ((Nat.mod_lt n g.perPage_pos).trans_eq (Nat.mul_comm _ _))
  have hlt := Nat.add_lt_add (h.small u hmem) (hoff.trans_le g.uarsLe)
  exact ⟨u, hmem, _, hoff, toInt_of_lt (hlt.trans (by decide))⟩

/-- STEP: a query of any dynamic register has a result. -/
theorem query_dyn (g : Good b) (h : Inv b s) (n : ℕ) :
    ∃ r, bfregnToUarIndex b s n true = some r ∧ OwnedUar b s r := by
  unfold bfregnToUarIndex
  simp only [if_true]
  by_cases hpage : n / perPage b + b.numStaticSysPages ≥ b.numSysPages
  · rw [if_pos hpage]
    exact ⟨_, rfl, trivial⟩
  rw [if_neg hpage]
  split_ifs with hn
  · exact ⟨_, rfl, trivial⟩
  have hin : n / perPage b + b.numStaticSysPages < s.sysPages.length := by
    rw [h.lenS]
    exact Nat.not_le.mp hpage
  have hu := List.getElem?_eq_getElem hin
  rw [hu]
  simp only
  split_ifs with hlive
  · exact ⟨_, rfl, trivial⟩
  · exact ⟨_, rfl, ownedUar_page g h hu hlive n⟩

/-- A query of a static register, as `alloc_bfreg` gives it. -/
theorem query_static (g : Good b) (h : Inv b s) {n : ℕ} (hn : n < maxBfregs b) :
    ∃ r, bfregnToUarIndex b s n false = some r ∧ OwnedUar b s r := by
  rw [maxBfregs_eq] at hn
  have hpage : n / perPage b < b.numStaticSysPages :=
    Nat.div_lt_of_lt_mul (hn.trans_eq (Nat.mul_comm _ _))
  have hin : n / perPage b < s.sysPages.length := by
    rw [h.lenS]
    exact hpage.trans_le g.staticLe
  have hu := List.getElem?_eq_getElem hin
  unfold bfregnToUarIndex
  simp only [hu]
  refine ⟨_, rfl, ownedUar_page g h hu (fun he => ?_) n⟩
  rw [he] at hu
  exact h.fixed _ hpage hu

end Mapping

section Life
variable {b : Bfregi} {s s' s₀ : St} {i k : ℕ}

/-- STEP: a call has a result, and it keeps the invariant as long as no mapping of a new UAR fails.
    -/
theorem exec_spec (g : Good b) (h : Inv b s) : ∀ {o : Op}, Allowed b s o →
    ∃ s', exec b s o = some s' ∧ (Mapped b o → Inv b s')
  | .alloc, _ => by
    obtain ⟨i, s', hrun, -, hinv⟩ := h.alloc g
    exact ⟨s', by rw [exec, hrun, Option.map_some], fun _ => hinv⟩
  | .free i, ha => by
    obtain ⟨s', hrun, hinv⟩ := h.free ha.1 ha.2 g.max_le
    exact ⟨s', hrun, fun _ => hinv⟩
  | .mmap c, ha => by
    obtain ⟨e, s', hrun, hspec⟩ := uarMmap_spec g h ha
    exact ⟨s', by rw [exec, hrun, Option.map_some], fun hm => (hspec hm).1⟩
  | .query n, _ => by
    obtain ⟨r, hrun, -⟩ := query_dyn g h n
    exact ⟨s, by rw [exec, hrun, Option.map_some], fun _ => h⟩

/-- RUN: the invariant holds in every run in which no mapping of a new UAR fails. -/
theorem inv_run (g : Good b) (h₀ : Inv b s₀)
    (h : Reach (step b) (fun s o => Allowed b s o ∧ Mapped b o) s₀ s) : Inv b s := by
  refine h.invariant h₀ fun s o ho hs => ?_
  obtain ⟨s', hrun, hinv⟩ := exec_spec g hs ho.1
  rw [step, hrun]
  exact hinv ho.2

/-- The UARs of the pages from `i` on are given back. -/
theorem deallocLoop_spec : ∀ (n i : ℕ) {s : St}, i + n = s.sysPages.length →
    (∀ k < b.numStaticSysPages, s.sysPages[k]? ≠ some MLX5_IB_INVALID_UAR_INDEX) →
    ((s.sysPages.drop i).filter live).Perm s.owned → s.strays = [] →
    ∃ s', deallocLoop b n i s = some s' ∧ s'.owned = [] ∧ s'.strays = []
  | 0, i, s, hlen, _, hpages, hstrays => by
    rw [List.drop_of_length_le (by omega)] at hpages
    exact ⟨s, rfl, hpages.nil_eq.symm, hstrays⟩
  | n + 1, i, s, hlen, hfixed, hpages, hstrays => by
    have hi : i < s.sysPages.length := by omega
    have hu := List.getElem?_eq_getElem hi
    rw [deallocLoop, hu]
    simp only
    rw [List.drop_eq_getElem_cons hi] at hpages
    by_cases hlive : s.sysPages[i] = MLX5_IB_INVALID_UAR_INDEX
    · have hge : ¬i < b.numStaticSysPages := fun hlt => hfixed i hlt (by rw [hu, hlive])
      rw [if_neg (by simp [hge, hlive])]
      rw [List.filter_cons_of_neg (by simp [live, hlive])] at hpages
      exact deallocLoop_spec n (i + 1) (by omega) hfixed hpages hstrays
    · rw [if_pos (.inr hlive)]
      rw [List.filter_cons_of_pos (by simp [live, hlive])] at hpages
      have hmem : s.sysPages[i] ∈ s.owned := hpages.mem_iff.mp mem_cons_self
      have hd : mlx5CmdUarDealloc s.sysPages[i] s =
          { s with owned := s.owned.erase s.sysPages[i] } := if_pos hmem
      rw [hd]
      refine deallocLoop_spec n (i + 1) (by simp only; omega) hfixed ?_ hstrays
      exact (List.cons_perm_iff_perm_erase.mp hpages).2

/-- STEP: when the context is closed, every UAR is given back, once. -/
theorem deallocateUars_spec (h : Inv b s) :
    ∃ s', deallocateUars b s = some s' ∧ s'.owned = [] ∧ s'.strays = [] :=
  deallocLoop_spec _ 0 (by rw [h.lenS, Nat.zero_add]) h.fixed h.pages h.strays

/-- The answers of the device to the static pages: no UAR twice, and numbers of 24 bits. -/
def Fresh (rs : List (Except Errno ℕ)) : Prop :=
  (rs.filterMap Except.toOption).Nodup ∧ ∀ u ∈ rs.filterMap Except.toOption, u < 2 ^ 24

/-- The loop of `allocate_uars`: all pages have a UAR, or none is left. -/
theorem allocLoop_spec : ∀ (rs : List (Except Errno ℕ)) {s : St}, s.strays = [] →
    s.sysPages.Perm s.owned → (s.owned ++ rs.filterMap Except.toOption).Nodup →
    (∃ s', allocLoop rs s = (none, s') ∧ s'.sysPages.length = s.sysPages.length + rs.length ∧
      s'.sysPages.Perm s'.owned ∧ s'.owned.Perm (s.owned ++ rs.filterMap Except.toOption) ∧
      s'.count = s.count ∧ s'.users = s.users ∧ s'.strays = []) ∨
    ∃ e s', allocLoop rs s = (some e, s') ∧ s'.owned = [] ∧ s'.strays = []
  | [], s, hs, hp, _ => .inl ⟨s, rfl, rfl, hp, by simp, rfl, rfl, hs⟩
  | .error e :: rs, s, hs, hp, _ => by
    -- the pages are given back from the last one on
    have hback : ∀ (l : List ℕ) (s : St), l.Perm s.owned → s.strays = [] →
        (l.foldl (fun s u => mlx5CmdUarDealloc u s) s).owned = [] ∧
          (l.foldl (fun s u => mlx5CmdUarDealloc u s) s).strays = [] := by
      intro l
      induction l with
      | nil => exact fun s hl hs => ⟨hl.nil_eq.symm, hs⟩
      | cons u l ih =>
        intro s hl hs
        obtain ⟨hmem, hrest⟩ := List.cons_perm_iff_perm_erase.mp hl
        have hd : mlx5CmdUarDealloc u s = { s with owned := s.owned.erase u } := if_pos hmem
        rw [List.foldl_cons, hd]
        exact ih _ hrest hs
    exact .inr ⟨e, _, rfl, hback _ s ((List.reverse_perm _).trans hp) hs⟩
  | .ok u :: rs, s, hs, hp, hn => by
    have hmid : (s.owned ++ u :: rs.filterMap Except.toOption).Perm
        (u :: s.owned ++ rs.filterMap Except.toOption) := List.perm_middle
    rcases allocLoop_spec rs (s := mlx5CmdUarAlloc u { s with sysPages := s.sysPages ++ [u] }) hs
      ((List.perm_append_singleton u _).trans (hp.cons u)) (hmid.nodup_iff.mp hn) with
      ⟨s', hrun, hlen, hp', howned, hc, hu, hs'⟩ | hfail
    · refine .inl ⟨s', hrun, ?_, hp', howned.trans hmid.symm, hc, hu, hs'⟩
      rw [hlen]
      simp only [mlx5CmdUarAlloc, List.length_append, List.length_cons, List.length_nil]
      omega
    · exact .inr hfail

/-- A context that is set up. -/
theorem inv_start (g : Good b) {rs : List (Except Errno ℕ)}
    (hlen : rs.length = b.numStaticSysPages) (hf : Fresh rs) (h : allocateUars b rs = (none, s)) :
    Inv b s := by
  unfold allocateUars at h
  rcases allocLoop_spec rs (s := ⟨replicate b.totalNumBfregs 0, [], [], [], []⟩) rfl
    (List.Perm.refl _) hf.1 with ⟨s', hrun, hlen', hp, howned, hc, hu, hs⟩ | ⟨e', s', hrun, -⟩
  · rw [hrun] at h
    obtain rfl := (Prod.mk.inj h).2
    simp only [List.length_nil, Nat.zero_add, hlen] at hlen'
    have hsmall : ∀ u ∈ s'.owned, u < 2 ^ 24 := fun u hu => hf.2 u (howned.mem_iff.mp hu)
    have hne : ∀ u ∈ s'.sysPages, u ≠ MLX5_IB_INVALID_UAR_INDEX := fun u hu he => by
      have hlt := hsmall u (hp.mem_iff.mp hu)
      rw [he] at hlt
      exact absurd hlt (by decide)
    refine ⟨?_, ?_, ?_, ?_, ?_, ?_, ?_, howned.nodup_iff.mpr hf.1, hsmall, hs⟩
    · rw [hc]
      exact List.length_replicate
    · rw [List.length_append, hlen', List.length_replicate]
      exact Nat.add_sub_cancel' g.staticLe
    · intro i hi
      rw [hc, hu]
      exact List.getElem?_replicate_of_lt hi
    · intro i _ _
      rw [hu]
      exact Nat.zero_le 1
    · intro k hk _ hlt
      rw [List.getElem?_append_right (hlen' ▸ hk), hlen']
      exact List.getElem?_replicate_of_lt (by omega)
    · intro k hk he
      rw [List.getElem?_append_left (hlen' ▸ hk)] at he
      exact hne _ (List.mem_of_getElem? he) rfl
    · have hall : s'.sysPages.filter live = s'.sysPages :=
        List.filter_eq_self.mpr fun u hu => by simpa [live] using hne u hu
      have hnone : (replicate (b.numSysPages - b.numStaticSysPages)
          MLX5_IB_INVALID_UAR_INDEX).filter live = [] :=
        List.filter_eq_nil_iff.mpr fun u hu => by simp [live, List.eq_of_mem_replicate hu]
      rw [List.filter_append, hall, hnone, List.append_nil]
      exact hp
  · rw [hrun] at h
    cases h

/-- What is meant to hold of the pages of a context in a state: each UAR that the device has for the
    context is in one page, none was given back that was not the context's, the counts are those of
    the users, no access is out of bounds, and the calls do what they are for. -/
structure Sound (b : Bfregi) (s : St) : Prop where
  pages : (s.sysPages.filter live).Perm s.owned ∧ s.owned.Nodup
  strays : s.strays = []
  count : ∀ i < b.totalNumBfregs, s.count[i]? = some (s.users.count i : ℤ)
  high : ∀ i, firstHiBfreg b ≤ i → i < maxBfregs b → s.users.count i ≤ 1
  bounds : ∀ o, Allowed b s o → ∃ s', exec b s o = some s'
  alloc : ∀ i s', allocBfreg b s = some (i, s') → i < maxBfregs b
  mmap : ∀ c e s', Allowed b s (.mmap c) → Mapped b (.mmap c) →
    uarMmap b s c = some (some e, s') → s' = s
  query : ∀ n dyn, (dyn = false → n < maxBfregs b) →
    ∃ r, bfregnToUarIndex b s n dyn = some r ∧ OwnedUar b s r
  close : ∃ s', deallocateUars b s = some s' ∧ s'.owned = [] ∧ s'.strays = []

/-- CORRECT: the pages of a context are sound in every run in which no mapping of a new UAR fails.
    -/
theorem user_doorbell_pages {m : Machine} {req : Req} (hb : calcTotalBfregs m req = .ok b)
    {rs : List (Except Errno ℕ)} (hlen : rs.length = b.numStaticSysPages) (hf : Fresh rs)
    (h₀ : allocateUars b rs = (none, s₀))
    (h : Reach (step b) (fun s o => Allowed b s o ∧ Mapped b o) s₀ s) : Sound b s := by
  have g := good_of_calc hb
  have hinv := inv_run g (inv_start g hlen hf h₀) h
  refine ⟨⟨hinv.pages, hinv.nodup⟩, hinv.strays, hinv.count, hinv.high, fun o ha => ?_,
    fun i s' hrun => ?_, fun c e s' ha hm hrun => ?_, fun n dyn hn => ?_, deallocateUars_spec hinv⟩
  · obtain ⟨s', hrun, -⟩ := exec_spec g hinv ha
    exact ⟨s', hrun⟩
  · obtain ⟨j, s₁, hrun', hlt, -⟩ := hinv.alloc g
    obtain ⟨rfl, -⟩ := Prod.mk.inj (Option.some.inj (hrun'.symm.trans hrun))
    exact hlt
  · obtain ⟨e', s₁, hrun', hspec⟩ := uarMmap_spec g hinv ha
    obtain ⟨rfl, rfl⟩ := Prod.mk.inj (Option.some.inj (hrun'.symm.trans hrun))
    exact (hspec hm).2 (Option.some_ne_none e)
  · cases dyn with
    | false => exact query_static g hinv (hn rfl)
    | true => exact query_dyn g hinv n

end Life

section Runs

/-- A context with one static page and two dynamic ones, on a machine with large pages. -/
def largePages : Bfregi := ⟨256, 1, 1024, 1536, 3, 100, 2⟩

theorem largePages_accepted :
    calcTotalBfregs ⟨8, Nat.le_refl 8, true⟩ ⟨500, 100, true, 2⟩ = .ok largePages := rfl

/-- The context with the UAR 5 in its static page. -/
def opened : St := (allocateUars largePages [.ok 5]).2

/-- A call that maps the first dynamic page, with the UAR 7. -/
def mapFirst (map : Option Errno) : Op := .mmap ⟨.allocWc, 0, true, .ok 7, map⟩

theorem fresh_five : Fresh [.ok 5] :=
  ⟨List.nodup_singleton 5, fun u hu => by
    obtain rfl : u = 5 := List.mem_singleton.mp hu
    decide⟩

theorem allowed_mapFirst (map : Option Errno) {s : St} (h : s.owned = [5]) :
    Allowed largePages s (mapFirst map) := fun u hu => by
  obtain rfl := Except.ok.inj hu
  exact ⟨by rw [h]; decide, by decide⟩

/-- A register is given out, and a page is mapped. -/
theorem user_doorbell_pages_demo :
    Sound largePages ([Op.alloc, mapFirst none].foldl (step largePages) opened) := by
  have hruns : Runs (step largePages) (fun s o => Allowed largePages s o ∧ Mapped largePages o)
      opened [.alloc, mapFirst none] :=
    ⟨⟨trivial, trivial⟩,
      ⟨allowed_mapFirst none (by decide +kernel), fun _ h => absurd rfl h⟩, trivial⟩
  have hlen : ([.ok 5] : List (Except Errno ℕ)).length = largePages.numStaticSysPages := rfl
  exact user_doorbell_pages largePages_accepted hlen fresh_five rfl (Reach.start.runs hruns)

/-- BROKEN: where the mapping fails, the index of the page is given back in place of the UAR. -/
theorem user_doorbell_pages_broken :
    Allowed largePages opened (mapFirst (some .eagain)) ∧
      (step largePages opened (mapFirst (some .eagain))).owned = [7, 5] ∧
      (step largePages opened (mapFirst (some .eagain))).sysPages.filter live = [5] ∧
      (step largePages opened (mapFirst (some .eagain))).strays = [1] ∧
      ¬Sound largePages (step largePages opened (mapFirst (some .eagain))) := by
  have hstrays : (step largePages opened (mapFirst (some .eagain))).strays = [1] := by
    decide +kernel
  refine ⟨allowed_mapFirst _ (by decide +kernel), by decide +kernel, by decide +kernel, hstrays, ?_⟩
  intro h
  rw [h.strays] at hstrays
  cases hstrays

end Runs

end RdmaDriver.UserBfregs
