import RdmaDriver.Basic
import RdmaDriver.Schemes.Run
import Mathlib.Data.List.Count
import Mathlib.Data.List.Nodup
import Mathlib.Tactic.Common

/-! @src drivers/net/ethernet/mellanox/mlx5/core/fs_core.c | name:automatic flow groups |
    scheme:first fit | family:interval list

    The indices of an auto-grouped flow table are cut into flow groups. Below `autogroup.max_fte` the
    driver makes the groups itself and puts each into the first gap that is wide enough; from there
    on the user makes them with `mlx5_create_flow_group`, which appends them to the list:

        0                                     autogroup.max_fte           max_fte
        +- fg -+  gap  +- fg -++ fg +   gap   ╎ reserved groups of the user +
                ▴ candidate_index

    The first `required_groups` groups get `group_size` indices, the ones after them one index each.
    A group lives as long as somebody holds its node: its maker, whoever looks it up, and each of its
    FTEs. -/

namespace RdmaDriver.AutoGroups
open RdmaDriver.Schemes
open List (countP_append forall_mem_cons map_append mem_append mem_cons_of_mem mem_cons_self
  mem_map pairwise_cons)

def MAX_FLOW_GROUP_SIZE : ℕ := 2 ^ 24

/-- `struct mlx5_flow_group`: `fteAllocator` has the offsets that the ida gave out, `ftes` the
    `index` of each FTE below the group. -/
structure FlowGroup where
  id : ℕ
  startIndex : ℕ
  maxFtes : ℕ
  refcount : ℕ
  fteAllocator : List ℕ
  ftes : List ℕ
  deriving DecidableEq

/-- The first index behind the group. -/
def FlowGroup.stop (fg : FlowGroup) : ℕ := fg.startIndex + fg.maxFtes

/-- `struct mlx5_flow_table` with `autogroup.active`; `autoMaxFte` is `autogroup.max_fte` and
    `children` has the groups in the order of the list. -/
structure FlowTable where
  maxFte : ℕ
  requiredGroups : ℕ
  groupSize : ℕ
  numGroups : ℕ
  autoMaxFte : ℕ
  children : List FlowGroup
  deriving DecidableEq

/-- `mlx5_create_auto_grouped_flow_table` on a new table of `maxFte` entries. -/
def createAutoGroupedFlowTable (maxFte : ℕ) (numReservedEntries maxNumGroups : ℤ) :
    Except Errno FlowTable :=
  let autogroupsMaxFte := toInt (maxFte - numReservedEntries)
  if autogroupsMaxFte < maxNumGroups then .error .enospc
  else if maxFte < toU 32 numReservedEntries then .error .enospc
  else
    -- the number of groups follows the largest group size
    let maxNumGroups :=
      if (MAX_FLOW_GROUP_SIZE : ℤ) < autogroupsMaxFte / (maxNumGroups + 1) then
        autogroupsMaxFte / MAX_FLOW_GROUP_SIZE - 1
      else maxNumGroups
    .ok ⟨maxFte, toU 32 maxNumGroups, toU 32 (autogroupsMaxFte / (maxNumGroups + 1)), 0,
      toU 32 autogroupsMaxFte, []⟩

/-- `alloc_flow_group`: the group of the indices `startIndex` to `endIndex`, held by its maker. -/
def allocFlowGroup (id startIndex endIndex : ℕ) : FlowGroup :=
  ⟨id, startIndex, endIndex - startIndex + 1, 1, [], []⟩

/-- The `group_size` of the next automatic group. -/
def FlowTable.nextSize (ft : FlowTable) : ℕ :=
  let groupSize := if ft.numGroups < ft.requiredGroups then ft.groupSize else 0
  if groupSize = 0 then 1 else groupSize

/-- The loop of `alloc_auto_flow_group`: the candidate index, and how many groups of the list stand
    before it. -/
def scan (groupSize : ℕ) : List FlowGroup → ℕ → ℕ → ℕ × ℕ
  | [], candidateIndex, prev => (candidateIndex, prev)
  | fg :: fgs, candidateIndex, prev =>
    if fg.startIndex < (candidateIndex + groupSize) % 2 ^ 32 then
      scan groupSize fgs ((fg.startIndex + fg.maxFtes) % 2 ^ 32) (prev + 1)
    else (candidateIndex, prev)

/-- `alloc_auto_flow_group`; `err` is the error of an allocation or of the hash table. -/
def allocAutoFlowGroup (ft : FlowTable) (id : ℕ) (err : Option Errno) : Except Errno FlowTable :=
  let groupSize := ft.nextSize
  let (candidateIndex, prev) := scan groupSize ft.children 0 0
  if ft.autoMaxFte < (candidateIndex + groupSize) % 2 ^ 32 then .error .enospc
  else match err with
    | some e => .error e
    | none =>
      let fg := allocFlowGroup id candidateIndex (candidateIndex + groupSize - 1)
      .ok { ft with
        children := ft.children.take prev ++ fg :: ft.children.drop prev,
        numGroups := if groupSize = ft.groupSize then ft.numGroups + 1 else ft.numGroups }

/-- `mlx5_create_flow_group` up to the firmware command; `err` as above. -/
def createFlowGroup (ft : FlowTable) (id startIndex endIndex : ℕ) (err : Option Errno) :
    Except Errno FlowTable :=
  if startIndex < ft.autoMaxFte then .error .eperm
  else match err with
    | some e => .error e
    | none => .ok { ft with children := ft.children ++ [allocFlowGroup id startIndex endIndex] }

/-- `ida_alloc_max`: the smallest free id up to `max`. -/
def idaAllocMax (ids : List ℕ) (max : ℕ) : Option ℕ :=
  (List.range (max + 1)).find? fun i => i ∉ ids

/-- `insert_fte`; `err` is the error of the allocations or of the hash table, on which the offset is
    given back. -/
def insertFte (fg : FlowGroup) (err : Option Errno) : Except Errno FlowGroup :=
  match idaAllocMax fg.fteAllocator (fg.maxFtes - 1), err with
  | none, _ => .error .enospc
  | some _, some e => .error e
  | some index, none => .ok { fg with
      fteAllocator := fg.fteAllocator ++ [index],
      ftes := fg.ftes ++ [index + fg.startIndex],
      refcount := fg.refcount + 1 }

/-- The group after `insert_fte`, which on an error leaves it as it was. -/
def afterInsert (err : Option Errno) (fg : FlowGroup) : FlowGroup :=
  match insertFte fg err with
  | .ok fg => fg
  | .error _ => fg

/-- `tree_put_node` of the FTE at `index` up to its parent, whose node is put next: `del_sw_fte`. -/
def delSwFte (fg : FlowGroup) (index : ℕ) : FlowGroup :=
  { fg with
    ftes := fg.ftes.erase index,
    fteAllocator := fg.fteAllocator.erase (index - fg.startIndex) }

/-- A change of one group of the table. -/
def FlowTable.update (ft : FlowTable) (id : ℕ) (f : FlowGroup → FlowGroup) : FlowTable :=
  { ft with children := ft.children.map fun fg => if fg.id = id then f fg else fg }

/-- `tree_put_node` of a group that nobody holds any more: it leaves the list, and
    `del_sw_flow_group` counts it out. -/
def delSwFlowGroup (ft : FlowTable) (id : ℕ) : FlowTable :=
  match ft.children.find? (·.id = id) with
  | none => ft
  | some fg => { ft with
      children := ft.children.eraseP (·.id = id),
      numGroups := if fg.maxFtes = ft.groupSize ∧ fg.startIndex < ft.autoMaxFte
        then ft.numGroups - 1 else ft.numGroups }

/-- What happens to the table, each under its lock or the one of the group. A group whose firmware
    command fails is put by its maker. -/
inductive Act where
  | allocAuto (id : ℕ) (err : Option Errno)
  | create (id startIndex endIndex : ℕ) (err : Option Errno)
  | get (id : ℕ)
  | put (id : ℕ)
  | delGroup (id : ℕ)
  | insertFte (id : ℕ) (err : Option Errno)
  | delFte (id index : ℕ)

def step (ft : FlowTable) : Act → FlowTable
  | .allocAuto id err => match allocAutoFlowGroup ft id err with
    | .ok ft => ft
    | .error _ => ft
  | .create id startIndex endIndex err => match createFlowGroup ft id startIndex endIndex err with
    | .ok ft => ft
    | .error _ => ft
  | .get id => ft.update id fun fg => { fg with refcount := fg.refcount + 1 }
  | .put id => ft.update id fun fg => { fg with refcount := fg.refcount - 1 }
  | .delGroup id => delSwFlowGroup ft id
  | .insertFte id err => ft.update id (afterInsert err)
  | .delFte id index => ft.update id fun fg => delSwFte fg index

/-- A new group has its own address. An explicit group of the reserved range has a first and a last
    index in it. Only who holds a node puts it, and a group goes when nobody holds it. -/
def Ok (ft : FlowTable) : Act → Prop
  | .allocAuto id _ => ∀ fg ∈ ft.children, fg.id ≠ id
  | .create id startIndex endIndex _ => (∀ fg ∈ ft.children, fg.id ≠ id) ∧
      (ft.autoMaxFte ≤ startIndex → startIndex ≤ endIndex ∧ endIndex < ft.maxFte)
  | .get id => ∃ fg ∈ ft.children, fg.id = id ∧ 0 < fg.refcount
  | .put id => ∃ fg ∈ ft.children, fg.id = id ∧ fg.ftes.length < fg.refcount
  | .delGroup id => ∃ fg ∈ ft.children, fg.id = id ∧ fg.refcount = 0
  | .insertFte id _ => ∃ fg ∈ ft.children, fg.id = id ∧ 0 < fg.refcount
  | .delFte id index => ∃ fg ∈ ft.children, fg.id = id ∧ index ∈ fg.ftes

instance : ∀ ft act, Decidable (Ok ft act)
  | ft, .allocAuto _ _ => inferInstanceAs (Decidable (∀ fg ∈ ft.children, _))
  | _, .create _ _ _ _ => inferInstanceAs (Decidable (_ ∧ _))
  | ft, .get _ => inferInstanceAs (Decidable (∃ fg ∈ ft.children, _))
  | ft, .put _ => inferInstanceAs (Decidable (∃ fg ∈ ft.children, _))
  | ft, .delGroup _ => inferInstanceAs (Decidable (∃ fg ∈ ft.children, _))
  | ft, .insertFte _ _ => inferInstanceAs (Decidable (∃ fg ∈ ft.children, _))
  | ft, .delFte _ _ => inferInstanceAs (Decidable (∃ fg ∈ ft.children, _))

section Create
variable {maxFte : ℕ} {reserved n : ℤ} {ft : FlowTable}

/-- The number of groups is chosen so that no group gets more than two times the largest size. -/
theorem group_size_le {a n : ℤ} (ha : 0 ≤ a)
    (h : (MAX_FLOW_GROUP_SIZE : ℤ) < a / (n + 1)) :
    a / (a / MAX_FLOW_GROUP_SIZE - 1 + 1) ≤ 2 * MAX_FLOW_GROUP_SIZE := by
  have hle : a / (n + 1) ≤ a := Int.ediv_le_self _ ha
  have hq : 1 ≤ a / (MAX_FLOW_GROUP_SIZE : ℤ) := by simp only [MAX_FLOW_GROUP_SIZE] at h ⊢; omega
  apply Int.ediv_le_of_le_mul (by omega)
  have hlt := Int.lt_ediv_add_one_mul_self a (b := (MAX_FLOW_GROUP_SIZE : ℤ)) (by decide)
  generalize a / (MAX_FLOW_GROUP_SIZE : ℤ) = q at hq hlt ⊢
  simp only [MAX_FLOW_GROUP_SIZE] at hlt ⊢
  omega

/-- A new table has no groups, its automatic part ends in the table, and no group it will make is
    too wide for an unsigned index. -/
theorem create_spec (hmax : maxFte ≤ 2 ^ 31) (hn : 0 ≤ n)
    (h : createAutoGroupedFlowTable maxFte reserved n = .ok ft) :
    ft.maxFte = maxFte ∧ ft.autoMaxFte ≤ maxFte ∧ ft.groupSize ≤ 2 * MAX_FLOW_GROUP_SIZE ∧
      ft.children = [] ∧ ft.numGroups = 0 := by
  unfold createAutoGroupedFlowTable at h
  by_cases h1 : toInt (maxFte - reserved) < n
  · rw [if_pos h1] at h
    cases h
  by_cases h2 : maxFte < toU 32 reserved
  · rw [if_neg h1, if_pos h2] at h
    cases h
  rw [if_neg h1, if_neg h2] at h
  have ha : 0 ≤ toInt (maxFte - reserved) := by omega
  have hle : toU 32 (toInt (maxFte - reserved)) ≤ maxFte := by
    simp only [toU, toInt] at h2 ha ⊢
    omega
  generalize toInt (maxFte - reserved) = a at h ha hle
  cases h
  refine ⟨rfl, hle, ?_, rfl, rfl⟩
  have hsize : 0 ≤ a / ((if (MAX_FLOW_GROUP_SIZE : ℤ) < a / (n + 1) then
        a / MAX_FLOW_GROUP_SIZE - 1 else n) + 1) ∧
      a / ((if (MAX_FLOW_GROUP_SIZE : ℤ) < a / (n + 1) then
        a / MAX_FLOW_GROUP_SIZE - 1 else n) + 1) ≤ 2 * MAX_FLOW_GROUP_SIZE := by
    split_ifs with h3
    · exact ⟨Int.ediv_nonneg ha (by rw [sub_add_cancel]; exact Int.ediv_nonneg ha (by decide)),
        group_size_le ha h3⟩
    · exact ⟨Int.ediv_nonneg ha (by omega), by simp only [MAX_FLOW_GROUP_SIZE] at h3 ⊢; omega⟩
  simp only [toU] at hsize ⊢
  omega

end Create

/-! ## Groups -/

/-- A group of a table with automatic groups below `lim` and `max` entries: it has a range on one
    side of `lim`, the offsets of its ftes are in the range and differ, and the ftes hold it. -/
structure Sound (lim max : ℕ) (fg : FlowGroup) : Prop where
  pos : 0 < fg.maxFtes
  side : fg.startIndex < lim → fg.stop ≤ lim
  stopLe : fg.stop ≤ max
  index : fg.ftes = fg.fteAllocator.map (· + fg.startIndex)
  nodup : fg.fteAllocator.Nodup
  offsetLt : ∀ i ∈ fg.fteAllocator, i < fg.maxFtes
  held : fg.ftes.length ≤ fg.refcount

section Group
variable {lim max id startIndex endIndex index : ℕ} {fg : FlowGroup} {err : Option Errno}

theorem alloc_stop (h : startIndex ≤ endIndex) :
    (allocFlowGroup id startIndex endIndex).stop = endIndex + 1 := by
  simp only [allocFlowGroup, FlowGroup.stop]
  omega

theorem Sound.alloc (h : startIndex ≤ endIndex) (hside : startIndex < lim → endIndex < lim)
    (hmax : endIndex < max) : Sound lim max (allocFlowGroup id startIndex endIndex) where
  pos := Nat.succ_pos _
  side hs := by rw [alloc_stop h]; exact hside hs
  stopLe := by rw [alloc_stop h]; exact hmax
  index := rfl
  nodup := List.nodup_nil
  offsetLt i hi := absurd hi List.not_mem_nil
  held := Nat.zero_le _

theorem idaAllocMax_spec {ids : List ℕ} {max i : ℕ} (h : idaAllocMax ids max = some i) :
    i ≤ max ∧ i ∉ ids := by
  have hmem := List.mem_range.mp (List.mem_of_find?_eq_some h)
  exact ⟨by omega, by simpa using List.find?_some h⟩

theorem afterInsert_range (fg : FlowGroup) : (afterInsert err fg).id = fg.id ∧
    (afterInsert err fg).startIndex = fg.startIndex ∧ (afterInsert err fg).maxFtes = fg.maxFtes := by
  unfold afterInsert insertFte
  cases idaAllocMax fg.fteAllocator (fg.maxFtes - 1) with
  | none => exact ⟨rfl, rfl, rfl⟩
  | some i => cases err <;> exact ⟨rfl, rfl, rfl⟩

/-- STEP: an fte gets an index that no other fte of the group has. -/
theorem Sound.insert (h : Sound lim max fg) : Sound lim max (afterInsert err fg) := by
  unfold afterInsert insertFte
  cases hi : idaAllocMax fg.fteAllocator (fg.maxFtes - 1) with
  | none => exact h
  | some i =>
    cases err with
    | some e => exact h
    | none =>
      obtain ⟨hle, hnew⟩ := idaAllocMax_spec hi
      have hpos := h.pos
      refine ⟨hpos, h.side, h.stopLe, ?_, ?_, ?_, ?_⟩
      · simp [h.index]
      · exact List.nodup_append.mpr ⟨h.nodup, List.nodup_singleton i, fun a ha b hb => by
          rintro rfl
          exact hnew (List.mem_singleton.mp hb ▸ ha)⟩
      · intro j hj
        rcases mem_append.mp hj with hj | hj
        · exact h.offsetLt j hj
        · obtain rfl := List.mem_singleton.mp hj
          show j < fg.maxFtes
          omega
      · have := h.held
        simp only [List.length_append, List.length_singleton]
        omega

/-- STEP: an fte that goes gives its offset back. -/
theorem Sound.delete (h : Sound lim max fg) (hmem : index ∈ fg.ftes) :
    Sound lim max (delSwFte fg index) := { h with
  index := by
    rw [h.index] at hmem
    obtain ⟨i, -, rfl⟩ := mem_map.mp hmem
    simp only [delSwFte, Nat.add_sub_cancel]
    rw [h.index, List.map_erase (add_left_injective fg.startIndex)]
  nodup := h.nodup.erase _
  offsetLt i hi := h.offsetLt i (List.mem_of_mem_erase hi)
  held := List.length_erase_le.trans h.held }

/-- Every fte is in the range of its group. -/
theorem Sound.fte_mem (h : Sound lim max fg) (hmem : index ∈ fg.ftes) :
    fg.startIndex ≤ index ∧ index < fg.stop := by
  rw [h.index] at hmem
  obtain ⟨i, hi, rfl⟩ := mem_map.mp hmem
  have := h.offsetLt i hi
  exact ⟨Nat.le_add_left _ _, by simp only [FlowGroup.stop]; omega⟩

theorem Sound.ftes_nodup (h : Sound lim max fg) : fg.ftes.Nodup := by
  rw [h.index]
  exact h.nodup.map (add_left_injective fg.startIndex)

end Group

/-! ## The list -/

/-- The order of the list: whatever stands before an automatic group ends before it. -/
def Ordered (lim : ℕ) (fgs : List FlowGroup) : Prop :=
  fgs.Pairwise fun fg fg' => fg'.startIndex < lim → fg.stop ≤ fg'.startIndex

section Scan
variable {lim max size c prev x : ℕ} {fg : FlowGroup} {fgs : List FlowGroup}

theorem Ordered.tail (h : Ordered lim (fg :: fgs)) : Ordered lim fgs := (pairwise_cons.mp h).2

theorem Ordered.head (h : Ordered lim (fg :: fgs)) :
    ∀ fg' ∈ fgs, fg'.startIndex < lim → fg.stop ≤ fg'.startIndex := (pairwise_cons.mp h).1

/-- The automatic groups stand before the reserved ones, in the order of their ranges. -/
theorem Ordered.split (h : Ordered lim fgs) (hpos : ∀ fg ∈ fgs, 0 < fg.maxFtes) :
    ∃ autos reserved, fgs = autos ++ reserved ∧ (∀ fg ∈ autos, fg.startIndex < lim) ∧
      (∀ fg ∈ reserved, lim ≤ fg.startIndex) ∧
      autos.Pairwise fun fg fg' => fg.stop ≤ fg'.startIndex := by
  induction fgs with
  | nil => exact ⟨[], [], rfl, by simp, by simp, .nil⟩
  | cons fg fgs ih =>
    by_cases hlt : fg.startIndex < lim
    · obtain ⟨autos, reserved, rfl, ha, hr, hp⟩ :=
        ih h.tail fun fg' hfg' => hpos fg' (mem_cons_of_mem _ hfg')
      refine ⟨fg :: autos, reserved, rfl, forall_mem_cons.mpr ⟨hlt, ha⟩, hr,
        pairwise_cons.mpr ⟨fun fg' hfg' => ?_, hp⟩⟩
      exact h.head fg' (List.mem_append_left _ hfg') (ha fg' hfg')
    · refine ⟨[], fg :: fgs, rfl, by simp, forall_mem_cons.mpr ⟨by omega, ?_⟩, .nil⟩
      intro fg' hfg'
      by_contra hlt'
      have := h.head fg' hfg' (by omega)
      simp only [FlowGroup.stop] at this
      omega

/-- Behind the automatic part the loop never comes back into it. -/
theorem lt_scan_of_reserved (hc : lim < c) (hres : ∀ fg ∈ fgs, lim ≤ fg.startIndex)
    (hsound : ∀ fg ∈ fgs, Sound lim max fg) (hmax : max < 2 ^ 32) :
    lim < (scan size fgs c prev).1 := by
  induction fgs generalizing c prev with
  | nil => exact hc
  | cons fg fgs ih =>
    have hfg := hsound fg mem_cons_self
    have hpos := hfg.pos
    have hstop := hfg.stopLe
    have hstart := hres fg mem_cons_self
    simp only [FlowGroup.stop] at hstop
    simp only [scan]
    split_ifs with h
    · rw [Nat.mod_eq_of_lt (by omega : fg.startIndex + fg.maxFtes < 2 ^ 32)]
      exact ih (by omega) (fun fg' hfg' => hres fg' (mem_cons_of_mem _ hfg'))
        fun fg' hfg' => hsound fg' (mem_cons_of_mem _ hfg')
    · exact hc

section
variable (hord : Ordered lim fgs) (hsound : ∀ fg ∈ fgs, Sound lim max fg) (hmax : max ≤ 2 ^ 31)
  (hsize : size < 2 ^ 31) (hc : c ≤ max)
include hord hsound hmax hsize hc

/-- The groups before the place that the loop finds end before the candidate, and the others begin
    behind the new group. -/
theorem scan_fits (hcle : ∀ fg ∈ fgs, fg.startIndex < lim → c ≤ fg.startIndex)
    (hfit : (scan size fgs c prev).1 + size ≤ lim) :
    ∃ pre post, fgs = pre ++ post ∧ (scan size fgs c prev).2 = prev + pre.length ∧
      c ≤ (scan size fgs c prev).1 ∧ (∀ fg ∈ pre, fg.stop ≤ (scan size fgs c prev).1) ∧
      ∀ fg ∈ post, (scan size fgs c prev).1 + size ≤ fg.startIndex := by
  induction fgs generalizing c prev with
  | nil => exact ⟨[], [], rfl, rfl, le_refl _, by simp, by simp⟩
  | cons fg fgs ih =>
    have hfg := hsound fg mem_cons_self
    have hrest : ∀ fg' ∈ fgs, Sound lim max fg' := fun fg' hfg' =>
      hsound fg' (mem_cons_of_mem _ hfg')
    have hpos := hfg.pos
    have hstop := hfg.stopLe
    have hstopEq : (fg.startIndex + fg.maxFtes) % 2 ^ 32 = fg.stop := by
      simp only [FlowGroup.stop] at hstop ⊢
      omega
    simp only [scan, Nat.mod_eq_of_lt (by omega : c + size < 2 ^ 32), hstopEq] at hfit ⊢
    by_cases h : fg.startIndex < c + size
    · simp only [if_pos h] at hfit ⊢
      by_cases hauto : fg.startIndex < lim
      · obtain ⟨pre, post, rfl, hprev, hle, hpre, hpost⟩ := ih hord.tail hrest hstop hord.head hfit
        refine ⟨fg :: pre, post, rfl, ?_, ?_, forall_mem_cons.mpr ⟨hle, hpre⟩, hpost⟩
        · rw [hprev, List.length_cons]
          omega
        · have := hcle fg mem_cons_self hauto
          have hbegin : fg.startIndex ≤ fg.stop := Nat.le_add_right _ _
          omega
      · -- a reserved group was passed, and so were all the gaps
        have hbehind : lim < (scan size fgs fg.stop (prev + 1)).1 := by
          have hlt : lim < fg.stop := by simp only [FlowGroup.stop]; omega
          refine lt_scan_of_reserved hlt ?_ hrest (by omega)
          intro fg' hfg'
          by_contra hlt
          have := hord.head fg' hfg' (by omega)
          omega
        omega
    · simp only [if_neg h] at hfit ⊢
      refine ⟨[], fg :: fgs, rfl, rfl, le_refl _, by simp, ?_⟩
      refine forall_mem_cons.mpr ⟨by omega, fun fg' hfg' => ?_⟩
      by_cases hauto : fg'.startIndex < lim
      · have := hord.head fg' hfg' hauto
        simp only [FlowGroup.stop] at this
        omega
      · omega

/-- Where the loop finds no place, every range of the size in the automatic part meets a group. -/
theorem scan_full
    (hfull : lim < (scan size fgs c prev).1 + size) (hx : c ≤ x) (hxlim : x + size ≤ lim) :
    ∃ fg ∈ fgs, fg.startIndex < x + size ∧ x < fg.stop := by
  induction fgs generalizing c prev with
  | nil =>
    simp only [scan] at hfull
    omega
  | cons fg fgs ih =>
    have hfg := hsound fg mem_cons_self
    have hstop := hfg.stopLe
    have hstopEq : (fg.startIndex + fg.maxFtes) % 2 ^ 32 = fg.stop := by
      simp only [FlowGroup.stop] at hstop ⊢
      omega
    simp only [scan, Nat.mod_eq_of_lt (by omega : c + size < 2 ^ 32), hstopEq] at hfull
    by_cases h : fg.startIndex < c + size
    · simp only [if_pos h] at hfull
      by_cases hin : x < fg.stop
      · exact ⟨fg, mem_cons_self, by omega, hin⟩
      · obtain ⟨fg', hfg', hmeet⟩ := ih hord.tail
          (fun fg' hfg' => hsound fg' (mem_cons_of_mem _ hfg')) hstop hfull (by omega)
        exact ⟨fg', mem_cons_of_mem _ hfg', hmeet⟩
    · simp only [if_neg h] at hfull
      omega

end

/-- The candidate stays in the table. -/
theorem scan_le (hsound : ∀ fg ∈ fgs, Sound lim max fg) (hmax : max ≤ 2 ^ 31) (hc : c ≤ max) :
    (scan size fgs c prev).1 ≤ max := by
  induction fgs generalizing c prev with
  | nil => exact hc
  | cons fg fgs ih =>
    have hstop := (hsound fg mem_cons_self).stopLe
    simp only [FlowGroup.stop] at hstop
    simp only [scan]
    split_ifs with h
    · rw [Nat.mod_eq_of_lt (by omega : fg.startIndex + fg.maxFtes < 2 ^ 32)]
      exact ih (fun fg' hfg' => hsound fg' (mem_cons_of_mem _ hfg')) hstop
    · exact hc

end Scan

/-! ## The table -/

/-- The groups that `num_groups` counts: automatic, and of the table's size. -/
def Counted (lim size : ℕ) (fg : FlowGroup) : Prop := fg.maxFtes = size ∧ fg.startIndex < lim

instance {lim size : ℕ} : DecidablePred (Counted lim size) :=
  fun fg => inferInstanceAs (Decidable (fg.maxFtes = size ∧ _))

structure Inv (ft : FlowTable) : Prop where
  maxLe : ft.maxFte ≤ 2 ^ 31
  autoLe : ft.autoMaxFte ≤ ft.maxFte
  sizeLe : ft.groupSize ≤ 2 * MAX_FLOW_GROUP_SIZE
  sound : ∀ fg ∈ ft.children, Sound ft.autoMaxFte ft.maxFte fg
  ordered : Ordered ft.autoMaxFte ft.children
  count : ft.numGroups = ft.children.countP fun fg => Counted ft.autoMaxFte ft.groupSize fg
  ids : (ft.children.map (·.id)).Nodup

section Table
variable {ft ft' : FlowTable} {id startIndex endIndex : ℕ} {fg : FlowGroup} {err : Option Errno}
  {f : FlowGroup → FlowGroup}

theorem Inv.create {maxFte : ℕ} {reserved n : ℤ} (hmax : maxFte ≤ 2 ^ 31) (hn : 0 ≤ n)
    (h : createAutoGroupedFlowTable maxFte reserved n = .ok ft) : Inv ft := by
  obtain ⟨rfl, hauto, hsize, hnil, hnum⟩ := create_spec hmax hn h
  exact ⟨hmax, hauto, hsize, by simp [hnil], by rw [hnil]; exact .nil, by rw [hnil, hnum]; rfl,
    by rw [hnil]; exact .nil⟩

theorem Inv.unique (h : Inv ft) {fg fg' : FlowGroup} (hfg : fg ∈ ft.children)
    (hfg' : fg' ∈ ft.children) (hid : fg.id = fg'.id) : fg = fg' :=
  List.inj_on_of_nodup_map h.ids hfg hfg' hid

theorem nextSize_pos : 0 < ft.nextSize := by
  simp only [FlowTable.nextSize]
  split_ifs <;> omega

theorem Inv.nextSize_lt (h : Inv ft) : ft.nextSize < 2 ^ 31 := by
  have hsize := h.sizeLe
  simp only [FlowTable.nextSize, MAX_FLOW_GROUP_SIZE] at hsize ⊢
  split_ifs <;> omega

/-- STEP: a group that stays in its place and keeps its range may change otherwise. -/
theorem Inv.update (h : Inv ft) (hid : ∀ fg, (f fg).id = fg.id)
    (hstart : ∀ fg, (f fg).startIndex = fg.startIndex) (hmax : ∀ fg, (f fg).maxFtes = fg.maxFtes)
    (hsound : ∀ fg ∈ ft.children, fg.id = id → Sound ft.autoMaxFte ft.maxFte (f fg)) :
    Inv (ft.update id f) := { h with
  sound fg' hfg' := by
    obtain ⟨fg, hfg, rfl⟩ := mem_map.mp hfg'
    by_cases heq : fg.id = id
    · rw [if_pos heq]
      exact hsound fg hfg heq
    · rw [if_neg heq]
      exact h.sound fg hfg
  ordered := by
    refine List.pairwise_map.mpr (h.ordered.imp fun {fg fg'} hle => ?_)
    have hstart' : ∀ fg : FlowGroup, (if fg.id = id then f fg else fg).startIndex = fg.startIndex :=
      fun fg => by split_ifs <;> simp [hstart]
    have hstop' : ∀ fg : FlowGroup, (if fg.id = id then f fg else fg).stop = fg.stop :=
      fun fg => by split_ifs <;> simp [FlowGroup.stop, hstart, hmax]
    rw [hstart', hstop']
    exact hle
  count := by
    show ft.numGroups = (ft.children.map fun fg => if fg.id = id then f fg else fg).countP
      fun fg => Counted ft.autoMaxFte ft.groupSize fg
    rw [h.count, List.countP_map]
    refine List.countP_congr fun fg _ => ?_
    have hcounted : Counted ft.autoMaxFte ft.groupSize (if fg.id = id then f fg else fg) ↔
        Counted ft.autoMaxFte ft.groupSize fg := by
      split_ifs <;> simp [Counted, hstart, hmax]
    rw [Function.comp_apply, decide_eq_true_iff, decide_eq_true_iff]
    exact hcounted.symm
  ids := by
    have hids : (ft.update id f).children.map (·.id) = ft.children.map (·.id) := by
      simp only [FlowTable.update, List.map_map]
      refine List.map_congr_left fun fg _ => ?_
      simp only [Function.comp_apply]
      split_ifs <;> simp [hid]
    rw [hids]
    exact h.ids }

/-- STEP: a new group may stand where it keeps the order. -/
theorem Inv.insert (h : Inv ft) {pre post : List FlowGroup} (hsplit : ft.children = pre ++ post)
    (hnew : ∀ fg' ∈ ft.children, fg'.id ≠ fg.id) (hsound : Sound ft.autoMaxFte ft.maxFte fg)
    (hpre : ∀ fg' ∈ pre, fg.startIndex < ft.autoMaxFte → fg'.stop ≤ fg.startIndex)
    (hpost : ∀ fg' ∈ post, fg'.startIndex < ft.autoMaxFte → fg.stop ≤ fg'.startIndex) :
    Inv { ft with
        numGroups := if Counted ft.autoMaxFte ft.groupSize fg then ft.numGroups + 1 else ft.numGroups,
        children := pre ++ fg :: post } := { h with
  sound fg' hfg' := by
    rcases mem_append.mp hfg' with hfg' | hfg'
    · exact h.sound fg' (hsplit ▸ List.mem_append_left _ hfg')
    · rcases List.mem_cons.mp hfg' with rfl | hfg'
      · exact hsound
      · exact h.sound fg' (hsplit ▸ List.mem_append_right _ hfg')
  ordered := by
    have hord := h.ordered
    rw [hsplit] at hord
    obtain ⟨h1, h2, h12⟩ := List.pairwise_append.mp hord
    refine List.pairwise_append.mpr ⟨h1, pairwise_cons.mpr ⟨hpost, h2⟩, ?_⟩
    exact fun fg' hfg' => forall_mem_cons.mpr ⟨hpre fg' hfg', h12 fg' hfg'⟩
  count := by
    have hcount := h.count
    rw [hsplit, countP_append] at hcount
    simp only [countP_append, List.countP_cons, decide_eq_true_eq]
    split_ifs <;> omega
  ids := by
    have hids := h.ids
    simp only [hsplit, map_append] at hids
    simp only [map_append]
    refine List.nodup_middle.mpr (List.nodup_cons.mpr ⟨fun hmem => ?_, hids⟩)
    rw [← map_append, ← hsplit] at hmem
    obtain ⟨fg', hfg', heq⟩ := mem_map.mp hmem
    exact hnew fg' hfg' heq }

/-- STEP: an automatic group goes into the first gap. -/
theorem Inv.allocAuto (h : Inv ft) (hnew : ∀ fg ∈ ft.children, fg.id ≠ id)
    (halloc : allocAutoFlowGroup ft id err = .ok ft') : Inv ft' := by
  have hle := h.maxLe
  have hauto := h.autoLe
  have hsize := h.nextSize_lt
  have hpos : 0 < ft.nextSize := nextSize_pos
  have hcand : (scan ft.nextSize ft.children 0 0).1 ≤ ft.maxFte :=
    scan_le h.sound hle (Nat.zero_le _)
  unfold allocAutoFlowGroup at halloc
  simp only [Nat.mod_eq_of_lt
    (by omega : (scan ft.nextSize ft.children 0 0).1 + ft.nextSize < 2 ^ 32)] at halloc
  by_cases hfull : ft.autoMaxFte < (scan ft.nextSize ft.children 0 0).1 + ft.nextSize
  · rw [if_pos hfull] at halloc
    cases halloc
  rw [if_neg hfull] at halloc
  cases err with
  | some e => cases halloc
  | none =>
    obtain ⟨pre, post, hsplit, hprev, -, hpre, hpost⟩ :=
      scan_fits h.ordered h.sound hle hsize (Nat.zero_le _)
        (fun _ _ _ => Nat.zero_le _) (Nat.not_lt.mp hfull)
    generalize (scan ft.nextSize ft.children 0 0).1 = cand at *
    rw [hprev, Nat.zero_add] at halloc
    have hnewgroup : (allocFlowGroup id cand (cand + ft.nextSize - 1)).maxFtes = ft.nextSize := by
      simp only [allocFlowGroup]
      omega
    have hstop : (allocFlowGroup id cand (cand + ft.nextSize - 1)).stop = cand + ft.nextSize := by
      simp only [FlowGroup.stop, hnewgroup]
      rfl
    have hsound : Sound ft.autoMaxFte ft.maxFte
        (allocFlowGroup id cand (cand + ft.nextSize - 1)) :=
      .alloc (by omega) (fun _ => by omega) (by omega)
    have hins := h.insert hsplit hnew hsound (fun fg' hfg' _ => hpre fg' hfg')
      fun fg' hfg' _ => hstop.trans_le (hpost fg' hfg')
    have hcounted : Counted ft.autoMaxFte ft.groupSize
        (allocFlowGroup id cand (cand + ft.nextSize - 1)) ↔ ft.nextSize = ft.groupSize := by
      rw [Counted, hnewgroup]
      exact and_iff_left (show cand < ft.autoMaxFte by omega)
    simp only [hcounted] at hins
    rw [hsplit, List.take_left, List.drop_left] at halloc
    cases halloc
    exact hins

/-- STEP: a group of the user goes to the tail. -/
theorem Inv.createFlowGroup (h : Inv ft) (hnew : ∀ fg ∈ ft.children, fg.id ≠ id)
    (hrange : ft.autoMaxFte ≤ startIndex → startIndex ≤ endIndex ∧ endIndex < ft.maxFte)
    (hcreate : AutoGroups.createFlowGroup ft id startIndex endIndex err = .ok ft') : Inv ft' := by
  unfold AutoGroups.createFlowGroup at hcreate
  by_cases hlow : startIndex < ft.autoMaxFte
  · rw [if_pos hlow] at hcreate
    cases hcreate
  rw [if_neg hlow] at hcreate
  obtain ⟨hle, hlt⟩ := hrange (Nat.not_lt.mp hlow)
  cases err with
  | some e => cases hcreate
  | none =>
    have hins := @Inv.insert ft (allocFlowGroup id startIndex endIndex) h _ _
      (List.append_nil ft.children).symm hnew (.alloc hle (fun hs => absurd hs hlow) hlt)
      (fun _ _ hs => absurd hs hlow) fun _ hfg => absurd hfg List.not_mem_nil
    have hcounted : ¬ Counted ft.autoMaxFte ft.groupSize (allocFlowGroup id startIndex endIndex) :=
      fun hc => hlow hc.2
    rw [if_neg hcounted] at hins
    cases hcreate
    exact hins

/-- STEP: a group that goes is counted out if it was counted. -/
theorem Inv.delSwFlowGroup (h : Inv ft) : Inv (delSwFlowGroup ft id) := by
  unfold AutoGroups.delSwFlowGroup
  cases hfind : ft.children.find? (·.id = id) with
  | none => exact h
  | some fg =>
    have hmem := List.mem_of_find?_eq_some hfind
    have hid : fg.id = id := by simpa using List.find?_some hfind
    obtain ⟨fg', pre, post, -, hid', hsplit, hrest⟩ :=
      List.exists_of_eraseP hmem (p := (·.id = id)) (by simpa using hid)
    obtain rfl : fg = fg' := h.unique hmem (by rw [hsplit]; simp)
      (hid.trans (by simpa using hid' : fg'.id = id).symm)
    have hsub : (pre ++ post).Sublist ft.children := by
      rw [hsplit]
      exact (List.sublist_cons_self fg post).append_left pre
    simp only [hrest]
    refine ⟨h.maxLe, h.autoLe, h.sizeLe, fun fg' hfg' => h.sound fg' (hsub.subset hfg'),
      h.ordered.sublist hsub, ?_, h.ids.sublist (hsub.map _)⟩
    have hcount := h.count
    rw [hsplit] at hcount
    rw [countP_append, List.countP_cons] at hcount
    show (if Counted ft.autoMaxFte ft.groupSize fg then ft.numGroups - 1 else ft.numGroups) =
      (pre ++ post).countP fun fg => Counted ft.autoMaxFte ft.groupSize fg
    rw [countP_append]
    by_cases hc : Counted ft.autoMaxFte ft.groupSize fg
    · rw [if_pos (decide_eq_true hc)] at hcount
      rw [if_pos hc]
      omega
    · rw [if_neg (by simpa using hc)] at hcount
      rw [if_neg hc]
      exact hcount

/-- STEP: every step keeps the table in order. -/
theorem Inv.step (h : Inv ft) {act : Act} (hok : Ok ft act) : Inv (step ft act) := by
  cases act with
  | allocAuto id err =>
    simp only [AutoGroups.step]
    cases halloc : allocAutoFlowGroup ft id err with
    | error e => exact h
    | ok ft' => exact h.allocAuto hok halloc
  | create id startIndex endIndex err =>
    simp only [AutoGroups.step]
    cases hcreate : AutoGroups.createFlowGroup ft id startIndex endIndex err with
    | error e => exact h
    | ok ft' => exact h.createFlowGroup hok.1 hok.2 hcreate
  | get id =>
    refine h.update (fun _ => rfl) (fun _ => rfl) (fun _ => rfl) fun fg hfg _ => ?_
    have hs := h.sound fg hfg
    exact { hs with held := Nat.le_succ_of_le hs.held }
  | put id =>
    obtain ⟨fg, hfg, hid, hheld⟩ := hok
    refine h.update (fun _ => rfl) (fun _ => rfl) (fun _ => rfl) fun fg' hfg' hid' => ?_
    obtain rfl := h.unique hfg hfg' (hid.trans hid'.symm)
    have hs := h.sound fg hfg
    exact { hs with held := Nat.le_sub_one_of_lt hheld }
  | delGroup id => exact h.delSwFlowGroup
  | insertFte id err =>
    exact h.update (fun fg => (afterInsert_range fg).1) (fun fg => (afterInsert_range fg).2.1)
      (fun fg => (afterInsert_range fg).2.2) fun fg hfg _ => (h.sound fg hfg).insert
  | delFte id index =>
    obtain ⟨fg, hfg, hid, hmem⟩ := hok
    refine h.update (fun _ => rfl) (fun _ => rfl) (fun _ => rfl) fun fg' hfg' hid' => ?_
    obtain rfl := h.unique hfg hfg' (hid.trans hid'.symm)
    exact (h.sound fg hfg).delete hmem

/-- RUN: the table is in order in every state of every run. -/
theorem Inv.run {ft₀ : FlowTable} (h₀ : Inv ft₀) (h : Reach AutoGroups.step Ok ft₀ ft) : Inv ft :=
  h.invariant h₀ fun _ _ hok hinv => hinv.step hok

end Table

/-! ## Runs -/

/-- How the groups and the ftes of a table lie: the automatic groups `autos` in the order of their
    ranges inside the automatic part, behind them the groups of the user. Only ftes of two groups of
    the user may share an index. -/
structure Placed (ft : FlowTable) (autos reserved : List FlowGroup) : Prop where
  children : ft.children = autos ++ reserved
  apart : autos.Pairwise fun fg fg' => fg.stop ≤ fg'.startIndex
  inside : ∀ fg ∈ autos, 0 < fg.maxFtes ∧ fg.stop ≤ ft.autoMaxFte
  behind : ∀ fg ∈ reserved, ft.autoMaxFte ≤ fg.startIndex
  numGroups : ft.numGroups = autos.countP fun fg => fg.maxFtes = ft.groupSize
  fteMem : ∀ fg ∈ ft.children, ∀ index ∈ fg.ftes, fg.startIndex ≤ index ∧ index < fg.stop
  fteNodup : ∀ fg ∈ ft.children, fg.ftes.Nodup
  fteApart : ft.children.Pairwise fun fg fg' => ∀ index ∈ fg.ftes, index ∈ fg'.ftes →
    fg ∈ reserved ∧ fg' ∈ reserved

/-- No range of `size` indices in the automatic part is free. -/
def Full (ft : FlowTable) (size : ℕ) : Prop :=
  ∀ x, x + size ≤ ft.autoMaxFte → ∃ fg ∈ ft.children, fg.startIndex < x + size ∧ x < fg.stop

section Runs
variable {ft : FlowTable} {id : ℕ} {err : Option Errno}

theorem Inv.placed (h : Inv ft) : ∃ autos reserved, Placed ft autos reserved := by
  obtain ⟨autos, reserved, hsplit, hauto, hres, hapart⟩ :=
    h.ordered.split fun fg hfg => (h.sound fg hfg).pos
  have hmem : ∀ fg ∈ autos, fg ∈ ft.children := fun fg hfg => hsplit ▸ List.mem_append_left _ hfg
  have hside : ∀ fg ∈ ft.children, ft.autoMaxFte ≤ fg.startIndex → fg ∈ reserved := by
    intro fg hfg hle
    rcases mem_append.mp (hsplit ▸ hfg) with hfg | hfg
    · exact absurd (hauto fg hfg) (by omega)
    · exact hfg
  refine ⟨autos, reserved, hsplit, hapart, fun fg hfg => ?_, hres, ?_,
    fun fg hfg _ hindex => (h.sound fg hfg).fte_mem hindex,
    fun fg hfg => (h.sound fg hfg).ftes_nodup, ?_⟩
  · have hs := h.sound fg (hmem fg hfg)
    exact ⟨hs.pos, hs.side (hauto fg hfg)⟩
  · have hnone : reserved.countP (fun fg => Counted ft.autoMaxFte ft.groupSize fg) = 0 :=
      List.countP_eq_zero.mpr fun fg hfg hc =>
        absurd (of_decide_eq_true hc).2 (Nat.not_lt.mpr (hres fg hfg))
    rw [h.count, hsplit, countP_append, hnone, Nat.add_zero]
    refine List.countP_congr fun fg hfg => ?_
    rw [decide_eq_true_iff, decide_eq_true_iff]
    exact and_iff_left (hauto fg hfg)
  · -- a common index keeps the second group out of the automatic part, and with it the first
    refine (List.Pairwise.and_mem.mp h.ordered).imp fun {fg fg'} ⟨hfg, hfg', hle⟩ index hi hi' => ?_
    have hin := (h.sound fg hfg).fte_mem hi
    have hin' := (h.sound fg' hfg').fte_mem hi'
    have hge : ft.autoMaxFte ≤ fg'.startIndex := by
      by_contra hlt
      omega
    refine ⟨hside fg hfg ?_, hside fg' hfg' hge⟩
    by_contra hlt
    have := (h.sound fg hfg).side (by omega)
    omega

theorem Inv.full (h : Inv ft) (herr : err ≠ some .enospc)
    (halloc : allocAutoFlowGroup ft id err = .error .enospc) : Full ft ft.nextSize := by
  have hle := h.maxLe
  have hsize := h.nextSize_lt
  have hcand : (scan ft.nextSize ft.children 0 0).1 ≤ ft.maxFte :=
    scan_le h.sound hle (Nat.zero_le _)
  unfold allocAutoFlowGroup at halloc
  simp only [Nat.mod_eq_of_lt
    (by omega : (scan ft.nextSize ft.children 0 0).1 + ft.nextSize < 2 ^ 32)] at halloc
  by_cases hfull : ft.autoMaxFte < (scan ft.nextSize ft.children 0 0).1 + ft.nextSize
  · exact fun x hx => scan_full h.ordered h.sound hle hsize (Nat.zero_le _) hfull (Nat.zero_le x) hx
  · rw [if_neg hfull] at halloc
    cases err with
    | some e =>
      cases halloc
      exact absurd rfl herr
    | none => cases halloc

/-- CORRECT only in part: in every run of an auto-grouped table the automatic groups are disjoint
    ranges below `autogroup.max_fte`, in increasing order before the reserved groups; `num_groups`
    is the number of those of the table's size; every fte has an index of its group, and two ftes
    have the same one only in two groups of the user. A group is refused for want of space only when
    there is no gap for it. -/
theorem auto_groups {maxFte : ℕ} {reserved maxNumGroups : ℤ} {ft₀ ft : FlowTable}
    (hmax : maxFte ≤ 2 ^ 31) (hn : 0 ≤ maxNumGroups)
    (h₀ : createAutoGroupedFlowTable maxFte reserved maxNumGroups = .ok ft₀)
    (h : Reach step Ok ft₀ ft) : (∃ autos reserved, Placed ft autos reserved) ∧
      ∀ id err, err ≠ some .enospc → allocAutoFlowGroup ft id err = .error .enospc →
        Full ft ft.nextSize :=
  have hinv := (Inv.create hmax hn h₀).run h
  ⟨hinv.placed, fun _ _ herr halloc => hinv.full herr halloc⟩

end Runs

/-- A table of sixteen entries, two of them reserved, with one group of seven and then small ones. -/
def demoTable : FlowTable := ⟨16, 1, 7, 0, 14, []⟩

/-- Two automatic groups with an fte each, of which the first group goes again; the next one takes
    its place. -/
def demoRun : List Act :=
  [.allocAuto 0 none, .insertFte 0 none, .put 0, .allocAuto 1 none, .insertFte 1 none,
    .delFte 0 0, .put 0, .delGroup 0, .allocAuto 2 none, .create 3 14 15 none]

theorem auto_groups_demo : (∃ autos reserved, Placed (demoRun.foldl step demoTable) autos reserved) ∧
    ∀ id err, err ≠ some .enospc →
      allocAutoFlowGroup (demoRun.foldl step demoTable) id err = .error .enospc →
        Full (demoRun.foldl step demoTable) (demoRun.foldl step demoTable).nextSize :=
  @auto_groups 16 2 1 demoTable _ (by norm_num) (by norm_num) (by decide)
    (Reach.runs .start (show Runs step Ok demoTable demoRun from by decide))

/-- BROKEN: `mlx5_create_flow_group` does not look at the other groups of the user. Two of them get
    the same range, and their ftes the same index. -/
theorem auto_groups_broken : createAutoGroupedFlowTable 16 2 1 = .ok demoTable ∧
    ∃ ft, Reach step Ok demoTable ft ∧ ¬ (ft.children.flatMap (·.ftes)).Nodup :=
  ⟨by decide, _, Reach.runs .start (show Runs step Ok demoTable
    [.create 0 14 15 none, .create 1 14 15 none, .insertFte 0 none, .insertFte 1 none] from
      by decide), by decide⟩

end RdmaDriver.AutoGroups
