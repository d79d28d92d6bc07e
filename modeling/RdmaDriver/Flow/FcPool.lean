import Mathlib.Algebra.BigOperators.Group.List.Basic
import Mathlib.Algebra.GroupWithZero.Nat
import Mathlib.Algebra.Order.Group.Nat
import Mathlib.Algebra.Ring.Int.Defs
import Mathlib.Data.List.Count
import Mathlib.Data.List.Nodup
import Mathlib.Logic.Function.Basic
import Mathlib.Tactic.Common

/-! @src drivers/net/ethernet/mellanox/mlx5/core/fs_counters.c | name:flow counter pool |
    scheme:pool | family:bitmap

    Flow counters are allocated from the firmware in bulks. A bulk has a bit for each free counter,
    and is on one of three lists:

        unused -- acquire -> partially used -- last free one acquired -> fully used
           ▴                    |  ▴                                        |
           +-- all free, kept --+  +-------------- one released ------------+

    A bulk whose counters are all free again is given back to the firmware when there are more free
    counters than the threshold. -/

namespace RdmaDriver.FcPool
open Function
open List (map_cons mem_append mem_cons mem_cons_self nodup_cons range sum_cons)

def MLX5_FC_POOL_MAX_THRESHOLD : ℤ := 2 ^ 18
def MLX5_FC_POOL_USED_BUFF_RATIO : ℤ := 10
def MLX5_FC_BULK_SIZE_FACTOR : ℕ := 128

/-- `struct mlx5_fc_bulk`; `free` is its bitmask. -/
structure Bulk where
  baseId : ℕ
  bulkLen : ℕ
  free : ℕ → Bool

/-- The lists of the pool. -/
inductive PoolList where
  | fullyUsed | partiallyUsed | unused
  deriving DecidableEq

/-- `struct mlx5_fc_pool`; bulks have keys. `allocBitmask` is `flow_counter_bulk_alloc`; `freed` has
    the bulks that went back to the firmware. -/
structure Pool where
  allocBitmask : ℕ
  bulk : ℕ → Bulk
  fresh : ℕ
  list : PoolList → List ℕ
  freed : List ℕ
  availableFcs : ℤ
  usedFcs : ℤ
  threshold : ℤ

/-- What the allocator and the firmware do when a bulk is made; `base` is what
    `ALLOC_FLOW_COUNTER` gives. -/
structure BulkEnv where
  kvzalloc : Bool
  kvcalloc : Bool
  base : Option ℕ

/-- The counter `i` of the bulk `b`. -/
structure Fcs where
  b : ℕ
  i : ℕ
  deriving DecidableEq

/-- `mlx5_fc_bulk_get_free_fcs_amount`. -/
def bulkGetFreeFcsAmount (v : Bulk) : ℕ := (range v.bulkLen).countP v.free

/-- The bits that `find_first_bit` looks at. -/
def findFirstBit (v : Bulk) : Option ℕ := (range v.bulkLen).find? v.free

/-- A write to a bit of a bulk. -/
def Pool.setBit (p : Pool) (b i : ℕ) (free : Bool) : Pool :=
  let v := p.bulk b
  { p with bulk := update p.bulk b { v with free := update v.free i free } }

/-- `list_del` of a bulk. -/
def Pool.unlink (p : Pool) (b : ℕ) : Pool := { p with list := fun k => (p.list k).erase b }

/-- `list_add` of a bulk. -/
def Pool.link (p : Pool) (b : ℕ) (k : PoolList) : Pool :=
  { p with list := update p.list k (b :: p.list k) }

/-- `list_add_tail` of a bulk. -/
def Pool.linkTail (p : Pool) (b : ℕ) (k : PoolList) : Pool :=
  { p with list := update p.list k (p.list k ++ [b]) }

/-- The size of a bulk. -/
def bulkLenOf (allocBitmask : ℕ) : ℕ :=
  if allocBitmask > 0 then MLX5_FC_BULK_SIZE_FACTOR * allocBitmask else 1

/-- `mlx5_fc_pool_update_threshold`. -/
def poolUpdateThreshold (p : Pool) : Pool :=
  { p with threshold := min MLX5_FC_POOL_MAX_THRESHOLD (p.usedFcs / MLX5_FC_POOL_USED_BUFF_RATIO) }

/-- `mlx5_fc_bulk_create`. -/
def bulkCreate (p : Pool) (e : BulkEnv) : Pool × Option ℕ :=
  if e.kvzalloc = false ∨ e.kvcalloc = false then (p, none)
  else
    match e.base with
    | none => (p, none)
    | some base =>
      let v : Bulk := ⟨base, bulkLenOf p.allocBitmask, fun _ => true⟩
      ({ p with bulk := update p.bulk p.fresh v, fresh := p.fresh + 1 }, some p.fresh)

/-- `mlx5_fc_pool_alloc_new_bulk`. -/
def poolAllocNewBulk (p : Pool) (e : BulkEnv) : Pool × Option ℕ :=
  match bulkCreate p e with
  | (p, some b) =>
    (poolUpdateThreshold { p with availableFcs := p.availableFcs + (p.bulk b).bulkLen }, some b)
  | (p, none) => (poolUpdateThreshold p, none)

/-- `mlx5_fc_bulk_destroy`. -/
def bulkDestroy (p : Pool) (b : ℕ) : Pool :=
  if bulkGetFreeFcsAmount (p.bulk b) < (p.bulk b).bulkLen then p
  else { p with freed := b :: p.freed }

/-- `mlx5_fc_pool_free_bulk`; the bulk is on no list. -/
def poolFreeBulk (p : Pool) (b : ℕ) : Pool :=
  let p := { p with availableFcs := p.availableFcs - (p.bulk b).bulkLen }
  poolUpdateThreshold (bulkDestroy p b)

/-- `mlx5_fc_bulk_acquire_fc`. -/
def bulkAcquireFc (p : Pool) (b : ℕ) : Pool × Option Fcs :=
  match findFirstBit (p.bulk b) with
  | none => (p, none)
  | some i => (p.setBit b i false, some ⟨b, i⟩)

/-- `mlx5_fc_pool_acquire_from_list`. -/
def poolAcquireFromList (p : Pool) (src next : PoolList) (moveNonFullBulk : Bool) :
    Pool × Option Fcs :=
  match p.list src with
  | [] => (p, none)
  | b :: _ =>
    let (p, fc) := bulkAcquireFc p b
    if moveNonFullBulk ∨ bulkGetFreeFcsAmount (p.bulk b) = 0 then ((p.unlink b).link b next, fc)
    else (p, fc)

/-- The counters of the pool when one more is used. -/
def Pool.count (p : Pool) : Pool :=
  { p with availableFcs := p.availableFcs - 1, usedFcs := p.usedFcs + 1 }

/-- `mlx5_fc_pool_acquire_counter`. -/
def poolAcquireCounter (p : Pool) (e : BulkEnv) : Pool × Option Fcs :=
  match poolAcquireFromList p .partiallyUsed .fullyUsed false with
  | (p, some fc) => (p.count, some fc)
  | (p, none) =>
    match poolAcquireFromList p .unused .partiallyUsed true with
    | (p, some fc) => (p.count, some fc)
    | (p, none) =>
      match poolAllocNewBulk p e with
      | (p, none) => (p, none)
      | (p, some b) =>
        let (p, fc) := bulkAcquireFc p b
        ((p.link b .partiallyUsed).count, fc)

/-- `mlx5_fc_pool_release_counter`. -/
def poolReleaseCounter (p : Pool) (fc : Fcs) : Pool :=
  if (p.bulk fc.b).free fc.i then p
  else
    let p := p.setBit fc.b fc.i true
    let p := { p with availableFcs := p.availableFcs + 1, usedFcs := p.usedFcs - 1 }
    let amount := bulkGetFreeFcsAmount (p.bulk fc.b)
    let p := if amount = 1 then (p.unlink fc.b).linkTail fc.b .partiallyUsed else p
    if amount = (p.bulk fc.b).bulkLen then
      let p := p.unlink fc.b
      if p.availableFcs > p.threshold then poolFreeBulk p fc.b else p.link fc.b .unused
    else p

/-- The bulks of the pool. -/
def Pool.bulks (p : Pool) : List ℕ :=
  p.list .fullyUsed ++ p.list .partiallyUsed ++ p.list .unused

/-- The list for a bulk with so many free counters. -/
def listFor (free len : ℕ) : PoolList :=
  if free = 0 then .fullyUsed else if free = len then .unused else .partiallyUsed

/-- The counter is in use. -/
def Pool.inUse (p : Pool) (fc : Fcs) : Prop :=
  fc.b ∈ p.bulks ∧ fc.i < (p.bulk fc.b).bulkLen ∧ (p.bulk fc.b).free fc.i = false

/-- The invariant of the pool: each bulk is on the list for the number of its free counters, and
    the ones that were given back have only free counters. -/
structure Inv (p : Pool) : Prop where
  nodup : p.bulks.Nodup
  fresh : ∀ b ∈ p.bulks, b < p.fresh
  len : ∀ b ∈ p.bulks, (p.bulk b).bulkLen = bulkLenOf p.allocBitmask
  onList : ∀ k, ∀ b ∈ p.list k, k = listFor (bulkGetFreeFcsAmount (p.bulk b)) (p.bulk b).bulkLen
  available : p.availableFcs = ((p.bulks.map fun b => bulkGetFreeFcsAmount (p.bulk b)).sum : ℕ)
  used : p.usedFcs = ((p.bulks.map fun b =>
    (p.bulk b).bulkLen - bulkGetFreeFcsAmount (p.bulk b)).sum : ℕ)
  freed : ∀ b ∈ p.freed, b ∉ p.bulks ∧ b < p.fresh ∧
    bulkGetFreeFcsAmount (p.bulk b) = (p.bulk b).bulkLen

section Amounts
variable {v : Bulk} {i : ℕ}

theorem freeFcsAmount_le : bulkGetFreeFcsAmount v ≤ v.bulkLen := by
  have h := List.countP_le_length (p := v.free) (l := range v.bulkLen)
  rwa [List.length_range] at h

/-- The bits but one count the same after a write to that one. -/
theorem countP_update {f : ℕ → Bool} {n : ℕ} (hi : i < n) (x : Bool) :
    (range n).countP (update f i x) + (if f i then 1 else 0) =
      (range n).countP f + if x then 1 else 0 := by
  have hperm := List.perm_cons_erase (List.mem_range.mpr hi)
  have hrest : ((range n).erase i).countP (update f i x) =
      ((range n).erase i).countP f := by
    refine List.countP_congr fun j hj => ?_
    have hne : j ≠ i := ((List.nodup_range).mem_erase_iff.mp hj).1
    rw [update_of_ne hne]
  rw [hperm.countP_eq, hperm.countP_eq f, List.countP_cons, List.countP_cons, hrest, update_self]
  omega

theorem freeFcsAmount_eq_len :
    bulkGetFreeFcsAmount v = v.bulkLen ↔ ∀ i < v.bulkLen, v.free i = true := by
  unfold bulkGetFreeFcsAmount
  have h := List.countP_eq_length (p := v.free) (l := range v.bulkLen)
  rw [List.length_range] at h
  rw [h]
  simp

theorem findFirstBit_some (h : findFirstBit v = some i) : i < v.bulkLen ∧ v.free i = true := by
  have hmem := List.mem_of_find?_eq_some h
  exact ⟨List.mem_range.mp hmem, List.find?_some h⟩

theorem findFirstBit_none (h : findFirstBit v = none) : bulkGetFreeFcsAmount v = 0 := by
  have hall := List.find?_eq_none.mp h
  unfold bulkGetFreeFcsAmount
  rw [List.countP_eq_zero]
  exact hall

end Amounts

theorem bulkLenOf_pos (m : ℕ) : 0 < bulkLenOf m := by
  unfold bulkLenOf MLX5_FC_BULK_SIZE_FACTOR
  split_ifs with h
  · omega
  · omega

section Lists
variable {p : Pool} {b x : ℕ} {k j : PoolList}

theorem mem_bulks : b ∈ p.bulks ↔ ∃ k, b ∈ p.list k := by
  unfold Pool.bulks
  rw [mem_append, mem_append]
  constructor
  · rintro ((h | h) | h)
    · exact ⟨_, h⟩
    · exact ⟨_, h⟩
    · exact ⟨_, h⟩
  · rintro ⟨k, h⟩
    cases k with
    | fullyUsed => exact .inl (.inl h)
    | partiallyUsed => exact .inl (.inr h)
    | unused => exact .inr h

/-- The lists have no bulk twice. -/
theorem bulks_nodup : p.bulks.Nodup ↔
    (∀ k, (p.list k).Nodup) ∧ ∀ k j b, b ∈ p.list k → b ∈ p.list j → k = j := by
  unfold Pool.bulks
  rw [List.nodup_append', List.nodup_append']
  constructor
  · rintro ⟨⟨hf, hp, hfp⟩, hu, hfu⟩
    have hdis : ∀ x, (x ∈ p.list .fullyUsed → x ∉ p.list .partiallyUsed) ∧
        (x ∈ p.list .fullyUsed → x ∉ p.list .unused) ∧
        (x ∈ p.list .partiallyUsed → x ∉ p.list .unused) := fun x =>
      ⟨fun h h' => hfp h h', fun h h' => hfu (List.mem_append_left _ h) h',
        fun h h' => hfu (List.mem_append_right _ h) h'⟩
    refine ⟨fun k => ?_, fun k j x hk hj => ?_⟩
    · cases k with
      | fullyUsed => exact hf
      | partiallyUsed => exact hp
      | unused => exact hu
    · obtain ⟨h1, h2, h3⟩ := hdis x
      cases k <;> cases j <;> first | rfl | (exfalso; tauto)
  · rintro ⟨hnd, hone⟩
    refine ⟨⟨hnd _, hnd _, fun x hx hx' => ?_⟩, hnd _, fun x hx hx' => ?_⟩
    · exact absurd (hone _ _ x hx hx') (by decide)
    · rcases mem_append.mp hx with hx | hx
      · exact absurd (hone _ _ x hx hx') (by decide)
      · exact absurd (hone _ _ x hx hx') (by decide)

end Lists

section Moves
variable {p p' : Pool} {b i : ℕ} {x : Bool}

@[simp] theorem setBit_bulkLen {y : ℕ} :
    ((p.setBit b i x).bulk y).bulkLen = (p.bulk y).bulkLen := by
  rcases eq_or_ne y b with rfl | hne
  · simp [Pool.setBit]
  · simp [Pool.setBit, update_of_ne hne]

@[simp] theorem setBit_baseId {y : ℕ} : ((p.setBit b i x).bulk y).baseId = (p.bulk y).baseId := by
  rcases eq_or_ne y b with rfl | hne
  · simp [Pool.setBit]
  · simp [Pool.setBit, update_of_ne hne]

theorem setBit_bulk_of_ne {y : ℕ} (h : y ≠ b) : (p.setBit b i x).bulk y = p.bulk y := by
  simp [Pool.setBit, update_of_ne h]

theorem setBit_free {y j : ℕ} : ((p.setBit b i x).bulk y).free j =
    if y = b ∧ j = i then x else (p.bulk y).free j := by
  rcases eq_or_ne y b with rfl | hne
  · rcases eq_or_ne j i with rfl | hj
    · simp [Pool.setBit]
    · simp [Pool.setBit, hj]
  · rw [setBit_bulk_of_ne hne, if_neg (by tauto)]

/-- A free counter more, or one less. -/
theorem setBit_amount (hi : i < (p.bulk b).bulkLen) (hx : (p.bulk b).free i = !x) :
    bulkGetFreeFcsAmount ((p.setBit b i x).bulk b) + (if x then 0 else 1) =
      bulkGetFreeFcsAmount (p.bulk b) + if x then 1 else 0 := by
  have h := countP_update (f := (p.bulk b).free) hi x
  have hb : ((p.setBit b i x).bulk b).free = update (p.bulk b).free i x := by
    simp [Pool.setBit]
  have hl : ((p.setBit b i x).bulk b).bulkLen = (p.bulk b).bulkLen := setBit_bulkLen
  unfold bulkGetFreeFcsAmount
  rw [hb, hl]
  rw [hx] at h
  cases x with
  | false => simpa using h
  | true => simpa using h

/-- What all elements hold, when one changes. -/
theorem sum_change {f g : ℕ → ℕ} {l l' : List ℕ} (hperm : l'.Perm l) (hnd : l.Nodup) (hb : b ∈ l)
    (h : ∀ y ∈ l, y ≠ b → f y = g y) : (l'.map f).sum + g b = (l.map g).sum + f b := by
  have herase := List.perm_cons_erase hb
  have hrest : ((l.erase b).map f).sum = ((l.erase b).map g).sum := by
    congr 1
    refine List.map_congr_left fun y hy => ?_
    have hmem := hnd.mem_erase_iff.mp hy
    exact h y hmem.2 hmem.1
  have hf := ((hperm.trans herase).map f).sum_eq
  have hg := (herase.map g).sum_eq
  rw [map_cons, sum_cons] at hf hg
  omega

/-- One counter of a bulk changes hands: the bulk goes to the list for what it has then. -/
structure Moves (p p' : Pool) (b i : ℕ) (x : Bool) : Prop where
  mask : p'.allocBitmask = p.allocBitmask
  fresh : p'.fresh = p.fresh
  freed : p'.freed = p.freed
  bulk : p'.bulk = (p.setBit b i x).bulk
  nodup : ∀ k, (p'.list k).Nodup
  mem : ∀ k y, y ∈ p'.list k ↔
    if y = b then k = listFor (bulkGetFreeFcsAmount (p'.bulk b)) (p'.bulk b).bulkLen
    else y ∈ p.list k

theorem Moves.mem_bulks (m : Moves p p' b i x) (hb : b ∈ p.bulks) {y : ℕ} :
    y ∈ p'.bulks ↔ y ∈ p.bulks := by
  rw [FcPool.mem_bulks, FcPool.mem_bulks]
  rcases eq_or_ne y b with rfl | hne
  · have hmem := m.mem (listFor (bulkGetFreeFcsAmount (p'.bulk y)) (p'.bulk y).bulkLen) y
    rw [if_pos rfl] at hmem
    exact iff_of_true ⟨_, hmem.mpr rfl⟩ (FcPool.mem_bulks.mp hb)
  · refine exists_congr fun k => ?_
    rw [m.mem, if_neg hne]

/-- STEP: the invariant, when one counter changes hands. -/
theorem Inv.moves (hp : Inv p) (m : Moves p p' b i x) (hb : b ∈ p.bulks)
    (hi : i < (p.bulk b).bulkLen) (hx : (p.bulk b).free i = !x)
    (ha : p'.availableFcs = p.availableFcs + if x then 1 else -1)
    (hu : p'.usedFcs = p.usedFcs - if x then 1 else -1) : Inv p' := by
  have hlen : ∀ y, (p'.bulk y).bulkLen = (p.bulk y).bulkLen := fun y => by
    rw [m.bulk, setBit_bulkLen]
  have hother : ∀ y, y ≠ b → p'.bulk y = p.bulk y := fun y hy => by
    rw [m.bulk, setBit_bulk_of_ne hy]
  have hnd : p'.bulks.Nodup := by
    refine bulks_nodup.mpr ⟨m.nodup, fun k j y hk hj => ?_⟩
    rw [m.mem] at hk hj
    rcases eq_or_ne y b with rfl | hne
    · rw [if_pos rfl] at hk hj
      exact hk.trans hj.symm
    · rw [if_neg hne] at hk hj
      exact (bulks_nodup.mp hp.nodup).2 k j y hk hj
  have hperm : p'.bulks.Perm p.bulks :=
    (List.perm_ext_iff_of_nodup hnd hp.nodup).mpr fun y => m.mem_bulks hb
  have hamount := setBit_amount hi hx
  rw [← m.bulk] at hamount
  have hle : bulkGetFreeFcsAmount (p.bulk b) ≤ (p.bulk b).bulkLen := freeFcsAmount_le
  have hle' : bulkGetFreeFcsAmount (p'.bulk b) ≤ (p'.bulk b).bulkLen := freeFcsAmount_le
  have hlenb := hlen b
  refine ⟨hnd, fun y hy => ?_, fun y hy => ?_, fun k y hy => ?_, ?_, ?_, fun y hy => ?_⟩
  · rw [m.fresh]
    exact hp.fresh y ((m.mem_bulks hb).mp hy)
  · rw [hlen, m.mask]
    exact hp.len y ((m.mem_bulks hb).mp hy)
  · rw [m.mem] at hy
    rcases eq_or_ne y b with rfl | hne
    · rwa [if_pos rfl] at hy
    · rw [if_neg hne] at hy
      rw [hother y hne]
      exact hp.onList k y hy
  · have hsum := sum_change (f := fun y => bulkGetFreeFcsAmount (p'.bulk y))
      (g := fun y => bulkGetFreeFcsAmount (p.bulk y)) hperm hp.nodup hb
      fun y _ hy => by rw [hother y hy]
    have havail := hp.available
    cases x with
    | false => simp only [Bool.false_eq_true, if_false] at *; omega
    | true => simp only [if_true] at *; omega
  · have hsum := sum_change
      (f := fun y => (p'.bulk y).bulkLen - bulkGetFreeFcsAmount (p'.bulk y))
      (g := fun y => (p.bulk y).bulkLen - bulkGetFreeFcsAmount (p.bulk y)) hperm hp.nodup hb
      fun y _ hy => by rw [hother y hy]
    have hused := hp.used
    cases x with
    | false => simp only [Bool.false_eq_true, if_false] at *; omega
    | true => simp only [if_true] at *; omega
  · rw [m.freed] at hy
    obtain ⟨hout, hlt, hall⟩ := hp.freed y hy
    have hne : y ≠ b := fun he => hout (he ▸ hb)
    rw [m.mem_bulks hb, m.fresh, hother y hne]
    exact ⟨hout, hlt, hall⟩

theorem Moves.inUse (m : Moves p p' b i x) (hb : b ∈ p.bulks) (hi : i < (p.bulk b).bulkLen)
    {fc : Fcs} : p'.inUse fc ↔ if fc = ⟨b, i⟩ then x = false else p.inUse fc := by
  obtain ⟨c, j⟩ := fc
  unfold Pool.inUse
  rw [m.mem_bulks hb, m.bulk, setBit_bulkLen, setBit_free]
  by_cases h : c = b ∧ j = i
  · obtain ⟨rfl, rfl⟩ := h
    rw [if_pos ⟨rfl, rfl⟩, if_pos rfl]
    exact ⟨fun h => h.2.2, fun h => ⟨hb, hi, h⟩⟩
  · rw [if_neg h, if_neg fun he => h (by simpa using he)]

end Moves

section Links
variable {p : Pool} {b y : ℕ} {k j : PoolList}

theorem link_list_self : (p.link b k).list k = b :: p.list k := update_self ..

theorem link_list_of_ne (h : k ≠ j) : (p.link b j).list k = p.list k := update_of_ne h ..

theorem linkTail_list_self : (p.linkTail b k).list k = p.list k ++ [b] := update_self ..

theorem linkTail_list_of_ne (h : k ≠ j) : (p.linkTail b j).list k = p.list k :=
  update_of_ne h ..

section
variable (h : ∀ k, (p.list k).Nodup)
include h

theorem mem_unlink : y ∈ (p.unlink b).list k ↔ y ≠ b ∧ y ∈ p.list k :=
  (h k).mem_erase_iff

theorem nodup_unlink (k : PoolList) : ((p.unlink b).list k).Nodup :=
  (h k).erase b

/-- `list_move`: the bulk is on the new list only. -/
theorem mem_relink :
    y ∈ ((p.unlink b).link b j).list k ↔ if y = b then k = j else y ∈ p.list k := by
  have hdel := mem_unlink (b := b) (y := y) (k := k) h
  rcases eq_or_ne k j with rfl | hk
  · rw [link_list_self, mem_cons, hdel]
    rcases eq_or_ne y b with rfl | hy
    · simp
    · simp [hy]
  · rw [link_list_of_ne hk, hdel]
    rcases eq_or_ne y b with rfl | hy
    · simp [hk]
    · simp [hy]

theorem nodup_relink (k : PoolList) : (((p.unlink b).link b j).list k).Nodup := by
  rcases eq_or_ne k j with rfl | hk
  · rw [link_list_self]
    exact nodup_cons.mpr ⟨fun hb => ((mem_unlink h).mp hb).1 rfl, nodup_unlink h k⟩
  · rw [link_list_of_ne hk]
    exact nodup_unlink h k

/-- `list_move_tail`. -/
theorem mem_relinkTail :
    y ∈ ((p.unlink b).linkTail b j).list k ↔ if y = b then k = j else y ∈ p.list k := by
  have hdel := mem_unlink (b := b) (y := y) (k := k) h
  rcases eq_or_ne k j with rfl | hk
  · rw [linkTail_list_self, mem_append, List.mem_singleton, hdel]
    rcases eq_or_ne y b with rfl | hy
    · simp
    · simp [hy]
  · rw [linkTail_list_of_ne hk, hdel]
    rcases eq_or_ne y b with rfl | hy
    · simp [hk]
    · simp [hy]

theorem nodup_relinkTail (k : PoolList) : (((p.unlink b).linkTail b j).list k).Nodup := by
  rcases eq_or_ne k j with rfl | hk
  · rw [linkTail_list_self]
    have hout : b ∉ (p.unlink b).list k := fun hb => ((mem_unlink h).mp hb).1 rfl
    have hperm : ((p.unlink b).list k ++ [b]).Perm (b :: (p.unlink b).list k) :=
      List.perm_append_singleton b _
    exact hperm.nodup_iff.mpr (nodup_cons.mpr ⟨hout, nodup_unlink h k⟩)
  · rw [linkTail_list_of_ne hk]
    exact nodup_unlink h k

end

end Links

section Acquire
variable {p : Pool} {e : BulkEnv} {b i : ℕ} {fc : Fcs}

/-- The counter that the next one to come gets from the bulks that there are. -/
def nextFc (p : Pool) : Option Fcs :=
  match p.list .partiallyUsed ++ p.list .unused with
  | [] => none
  | b :: _ => (findFirstBit (p.bulk b)).map fun i => ⟨b, i⟩

theorem Inv.lists (hp : Inv p) (k : PoolList) : (p.list k).Nodup := (bulks_nodup.mp hp.nodup).1 k

theorem Inv.mem_list (hp : Inv p) (hb : b ∈ p.bulks) {k : PoolList} :
    b ∈ p.list k ↔ k = listFor (bulkGetFreeFcsAmount (p.bulk b)) (p.bulk b).bulkLen := by
  refine ⟨hp.onList k b, fun hk => ?_⟩
  obtain ⟨j, hj⟩ := mem_bulks.mp hb
  rwa [hk, ← hp.onList j b hj]

theorem Inv.bulkLen_gt (hp : Inv p) (hm : 0 < p.allocBitmask) (hb : b ∈ p.bulks) :
    1 < (p.bulk b).bulkLen := by
  rw [hp.len b hb]
  unfold bulkLenOf MLX5_FC_BULK_SIZE_FACTOR
  rw [if_pos hm]
  omega

theorem listFor_full {n len : ℕ} : listFor n len = .fullyUsed ↔ n = 0 := by
  unfold listFor
  split_ifs <;> simp_all

theorem listFor_partly {n len : ℕ} : listFor n len = .partiallyUsed ↔ n ≠ 0 ∧ n ≠ len := by
  unfold listFor
  split_ifs <;> simp_all

theorem listFor_unused {n len : ℕ} : listFor n len = .unused ↔ n ≠ 0 ∧ n = len := by
  unfold listFor
  split_ifs <;> simp_all

/-- A bulk that has a free counter gives its first. -/
theorem bulkAcquireFc_eq (h : bulkGetFreeFcsAmount (p.bulk b) ≠ 0) :
    ∃ i, findFirstBit (p.bulk b) = some i ∧ i < (p.bulk b).bulkLen ∧
      (p.bulk b).free i = true ∧ bulkAcquireFc p b = (p.setBit b i false, some ⟨b, i⟩) := by
  cases hf : findFirstBit (p.bulk b) with
  | none => exact absurd (findFirstBit_none hf) h
  | some i =>
    obtain ⟨hi, hfree⟩ := findFirstBit_some hf
    refine ⟨i, rfl, hi, hfree, ?_⟩
    unfold bulkAcquireFc
    rw [hf]

/-- STEP: a counter from the first bulk of a list, which goes to the list for what it has left. -/
theorem acquireFromList_spec (hp : Inv p) (hm : 0 < p.allocBitmask) {src next : PoolList}
    {moveNonFull : Bool} (hsrc : (src, next, moveNonFull) = (.partiallyUsed, .fullyUsed, false) ∨
      (src, next, moveNonFull) = (.unused, .partiallyUsed, true))
    {rest : List ℕ} (hl : p.list src = b :: rest) :
    ∃ p' i, poolAcquireFromList p src next moveNonFull = (p', some ⟨b, i⟩) ∧
      findFirstBit (p.bulk b) = some i ∧ i < (p.bulk b).bulkLen ∧ (p.bulk b).free i = true ∧
      Moves p p' b i false ∧ p'.availableFcs = p.availableFcs ∧ p'.usedFcs = p.usedFcs := by
  have hmem : b ∈ p.list src := by
    rw [hl]
    exact mem_cons_self
  have hb : b ∈ p.bulks := mem_bulks.mpr ⟨src, hmem⟩
  have hon := (hp.mem_list hb).mp hmem
  have hgt := hp.bulkLen_gt hm hb
  have hne : bulkGetFreeFcsAmount (p.bulk b) ≠ 0 := by
    rcases hsrc with h | h
    · obtain ⟨rfl, -⟩ := Prod.mk.inj h
      exact (listFor_partly.mp hon.symm).1
    · obtain ⟨rfl, -⟩ := Prod.mk.inj h
      exact (listFor_unused.mp hon.symm).1
  obtain ⟨i, hfirst, hi, hfree, hacq⟩ := bulkAcquireFc_eq hne
  have hamount := setBit_amount (x := false) hi hfree
  simp only [Bool.false_eq_true, if_false] at hamount
  have hlen : ((p.setBit b i false).bulk b).bulkLen = (p.bulk b).bulkLen := setBit_bulkLen
  have hlists : ∀ k, ((p.setBit b i false).list k).Nodup := hp.lists
  by_cases hmove : moveNonFull = true ∨ bulkGetFreeFcsAmount ((p.setBit b i false).bulk b) = 0
  · have hnext : next =
        listFor (bulkGetFreeFcsAmount ((p.setBit b i false).bulk b)) (p.bulk b).bulkLen := by
      rcases hsrc with h | h
      · obtain ⟨rfl, hnm⟩ := Prod.mk.inj h
        obtain ⟨rfl, rfl⟩ := Prod.mk.inj hnm
        exact (listFor_full.mpr (hmove.resolve_left (by decide))).symm
      · obtain ⟨rfl, hnm⟩ := Prod.mk.inj h
        obtain ⟨rfl, rfl⟩ := Prod.mk.inj hnm
        have hfull := (listFor_unused.mp hon.symm).2
        exact (listFor_partly.mpr ⟨by omega, by omega⟩).symm
    refine ⟨((p.setBit b i false).unlink b).link b next, i, ?_, hfirst, hi, hfree, ?_, rfl, rfl⟩
    · unfold poolAcquireFromList
      rw [hl]
      simp only [hacq, if_pos hmove]
    · refine ⟨rfl, rfl, rfl, rfl, nodup_relink hlists, fun k y => ?_⟩
      rw [mem_relink hlists, hnext]
      exact Iff.of_eq (by rw [← hlen]; rfl)
  · obtain ⟨hmv, hleft⟩ := not_or.mp hmove
    obtain ⟨rfl, -⟩ : src = .partiallyUsed ∧ next = .fullyUsed := by
      rcases hsrc with h | h
      · obtain ⟨rfl, hnm⟩ := Prod.mk.inj h
        exact ⟨rfl, (Prod.mk.inj hnm).1⟩
      · exact absurd (Prod.mk.inj (Prod.mk.inj h).2).2 hmv
    refine ⟨p.setBit b i false, i, ?_, hfirst, hi, hfree, ?_, rfl, rfl⟩
    · unfold poolAcquireFromList
      rw [hl]
      simp only [hacq, if_neg hmove]
    · refine ⟨rfl, rfl, rfl, rfl, hlists, fun k y => ?_⟩
      rcases eq_or_ne y b with rfl | hy
      · have hle : bulkGetFreeFcsAmount (p.bulk y) ≤ (p.bulk y).bulkLen := freeFcsAmount_le
        have hpart : listFor (bulkGetFreeFcsAmount ((p.setBit y i false).bulk y))
            ((p.setBit y i false).bulk y).bulkLen = .partiallyUsed :=
          listFor_partly.mpr ⟨hleft, by omega⟩
        rw [if_pos rfl, hpart, hon]
        exact hp.mem_list hb
      · rw [if_neg hy]
        exact Iff.rfl

end Acquire

section New
variable {p p' : Pool} {e : BulkEnv} {b i base : ℕ} {x : Bool} {fc : Fcs}

/-- The pool with a new bulk that has no user. -/
def Pool.grow (p : Pool) (base : ℕ) : Pool :=
  let v : Bulk := ⟨base, bulkLenOf p.allocBitmask, fun _ => true⟩
  { p with
    bulk := update p.bulk p.fresh v, fresh := p.fresh + 1,
    list := update p.list .unused (p.fresh :: p.list .unused),
    availableFcs := p.availableFcs + bulkLenOf p.allocBitmask }

theorem grow_bulk_self : (p.grow base).bulk p.fresh =
    ⟨base, bulkLenOf p.allocBitmask, fun _ => true⟩ := update_self ..

theorem grow_bulk_of_ne (h : b ≠ p.fresh) : (p.grow base).bulk b = p.bulk b :=
  update_of_ne h ..

theorem amount_new {n : ℕ} : bulkGetFreeFcsAmount ⟨base, n, fun _ => true⟩ = n :=
  freeFcsAmount_eq_len.mpr fun _ _ => rfl

theorem grow_list_unused : (p.grow base).list .unused = p.fresh :: p.list .unused := by
  simp [Pool.grow]

theorem grow_list_of_ne {k : PoolList} (h : k ≠ .unused) : (p.grow base).list k = p.list k :=
  update_of_ne h ..

theorem grow_bulks : (p.grow base).bulks.Perm (p.fresh :: p.bulks) := by
  unfold Pool.bulks
  rw [grow_list_unused, grow_list_of_ne (by decide), grow_list_of_ne (by decide)]
  exact List.perm_middle

theorem mem_grow_bulks : b ∈ (p.grow base).bulks ↔ b = p.fresh ∨ b ∈ p.bulks := by
  rw [grow_bulks.mem_iff, mem_cons]

/-- STEP: the invariant, when a bulk is made. -/
theorem Inv.grow (hp : Inv p) (base : ℕ) : Inv (p.grow base) := by
  have hne : ∀ y ∈ p.bulks, y ≠ p.fresh := fun y hy => (hp.fresh y hy).ne
  have hnew := @grow_bulk_self p base
  have hpos := bulkLenOf_pos p.allocBitmask
  refine ⟨?_, fun y hy => ?_, fun y hy => ?_, fun k y hy => ?_, ?_, ?_, fun y hy => ?_⟩
  · rw [grow_bulks.nodup_iff, nodup_cons]
    exact ⟨fun h => hne _ h rfl, hp.nodup⟩
  · rcases mem_grow_bulks.mp hy with rfl | hy
    · exact Nat.lt_succ_self _
    · exact Nat.lt_succ_of_lt (hp.fresh y hy)
  · rcases mem_grow_bulks.mp hy with rfl | hy
    · rw [hnew]
      rfl
    · rw [grow_bulk_of_ne (hne y hy)]
      exact hp.len y hy
  · have hold : y ∈ p.list k → k = listFor (bulkGetFreeFcsAmount ((p.grow base).bulk y))
          ((p.grow base).bulk y).bulkLen := by
      intro h
      rw [grow_bulk_of_ne (hne y (mem_bulks.mpr ⟨k, h⟩))]
      exact hp.onList k y h
    rcases eq_or_ne k .unused with rfl | hk
    · rw [grow_list_unused] at hy
      rcases mem_cons.mp hy with rfl | hy
      · rw [hnew, amount_new]
        exact (listFor_unused.mpr ⟨hpos.ne', rfl⟩).symm
      · exact hold hy
    · rw [grow_list_of_ne hk] at hy
      exact hold hy
  · have hsum := (@grow_bulks p base).map
      fun b => bulkGetFreeFcsAmount ((p.grow base).bulk b)
    have hrest : p.bulks.map (fun b => bulkGetFreeFcsAmount ((p.grow base).bulk b)) =
        p.bulks.map fun b => bulkGetFreeFcsAmount (p.bulk b) :=
      List.map_congr_left fun y hy => by rw [grow_bulk_of_ne (hne y hy)]
    rw [hsum.sum_eq, map_cons, sum_cons, hnew, amount_new, hrest]
    have havail := hp.available
    have hgrow : (p.grow base).availableFcs = p.availableFcs + bulkLenOf p.allocBitmask := rfl
    omega
  · have hsum := (@grow_bulks p base).map
      fun b => ((p.grow base).bulk b).bulkLen - bulkGetFreeFcsAmount ((p.grow base).bulk b)
    have hrest : p.bulks.map (fun b => ((p.grow base).bulk b).bulkLen -
        bulkGetFreeFcsAmount ((p.grow base).bulk b)) =
        p.bulks.map fun b => (p.bulk b).bulkLen - bulkGetFreeFcsAmount (p.bulk b) :=
      List.map_congr_left fun y hy => by rw [grow_bulk_of_ne (hne y hy)]
    rw [hsum.sum_eq, map_cons, sum_cons, hnew, amount_new, hrest, Nat.sub_self]
    have hused := hp.used
    have hgrow : (p.grow base).usedFcs = p.usedFcs := rfl
    omega
  · obtain ⟨hout, hlt, hall⟩ := hp.freed y hy
    have hlt' : y ≠ p.fresh := hlt.ne
    rw [mem_grow_bulks, grow_bulk_of_ne hlt']
    exact ⟨fun h => h.elim hlt' hout, Nat.lt_succ_of_lt hlt, hall⟩

theorem grow_inUse (hp : Inv p) : (p.grow base).inUse fc ↔ p.inUse fc := by
  unfold Pool.inUse
  rw [mem_grow_bulks]
  rcases eq_or_ne fc.b p.fresh with h | h
  · rw [h, grow_bulk_self]
    exact iff_of_false (fun hu => by simp at hu) fun hu => (hp.fresh _ hu.1).ne rfl
  · rw [grow_bulk_of_ne h]
    simp [h]

/-- STEP: a new bulk gives a counter and is partially used. -/
theorem newBulk_spec (hp : Inv p) (hm : 0 < p.allocBitmask) {q : Pool}
    (hmask : q.allocBitmask = p.allocBitmask) (hfresh : q.fresh = p.fresh + 1)
    (hfreed : q.freed = p.freed) (hbulk : q.bulk = (p.grow base).bulk) (hlist : q.list = p.list)
    (ha : q.availableFcs = p.availableFcs + bulkLenOf p.allocBitmask)
    (hu : q.usedFcs = p.usedFcs) :
    ∃ i q', bulkAcquireFc q p.fresh = (q', some ⟨p.fresh, i⟩) ∧
      i < ((p.grow base).bulk p.fresh).bulkLen ∧
      Moves (p.grow base) (q'.link p.fresh .partiallyUsed).count p.fresh i false ∧
      Inv (q'.link p.fresh .partiallyUsed).count := by
  have hg := hp.grow base
  have hmem : p.fresh ∈ (p.grow base).bulks := mem_grow_bulks.mpr (.inl rfl)
  have hgt := hg.bulkLen_gt hm hmem
  have hnew : (p.grow base).bulk p.fresh = ⟨base, bulkLenOf p.allocBitmask, fun _ => true⟩ :=
    grow_bulk_self
  have hall : bulkGetFreeFcsAmount ((p.grow base).bulk p.fresh) =
      ((p.grow base).bulk p.fresh).bulkLen := by
    rw [hnew, amount_new]
  have hne : bulkGetFreeFcsAmount (q.bulk p.fresh) ≠ 0 := by
    rw [hbulk]
    omega
  have hout : ∀ k, p.fresh ∉ p.list k := fun k hk =>
    (hp.fresh _ (mem_bulks.mpr ⟨k, hk⟩)).ne rfl
  obtain ⟨i, -, hi, hfree, hacq⟩ := bulkAcquireFc_eq hne
  rw [hbulk] at hi hfree
  have hset : (q.setBit p.fresh i false).bulk = ((p.grow base).setBit p.fresh i false).bulk := by
    unfold Pool.setBit
    rw [hbulk]
  have hamount := setBit_amount (x := false) hi hfree
  simp only [Bool.false_eq_true, if_false] at hamount
  have hlen : (((p.grow base).setBit p.fresh i false).bulk p.fresh).bulkLen =
      ((p.grow base).bulk p.fresh).bulkLen := setBit_bulkLen
  have m : Moves (p.grow base) ((q.setBit p.fresh i false).link p.fresh .partiallyUsed).count
      p.fresh i false := by
    refine ⟨hmask, hfresh, hfreed, hset, fun k => ?_, fun k y => ?_⟩
    · change (((q.setBit p.fresh i false).link p.fresh .partiallyUsed).list k).Nodup
      rcases eq_or_ne k .partiallyUsed with rfl | hk
      · rw [link_list_self]
        change (p.fresh :: q.list _).Nodup
        rw [hlist]
        exact nodup_cons.mpr ⟨hout _, hp.lists _⟩
      · rw [link_list_of_ne hk]
        change (q.list k).Nodup
        rw [hlist]
        exact hp.lists k
    · have hpart : listFor
          (bulkGetFreeFcsAmount (((q.setBit p.fresh i false).link p.fresh .partiallyUsed).count.bulk
            p.fresh))
          (((q.setBit p.fresh i false).link p.fresh .partiallyUsed).count.bulk p.fresh).bulkLen =
          .partiallyUsed := by
        change listFor (bulkGetFreeFcsAmount ((q.setBit p.fresh i false).bulk p.fresh))
          ((q.setBit p.fresh i false).bulk p.fresh).bulkLen = _
        rw [hset]
        exact listFor_partly.mpr ⟨by omega, by omega⟩
      rw [hpart]
      change y ∈ ((q.setBit p.fresh i false).link p.fresh .partiallyUsed).list k ↔ _
      have hq : (q.setBit p.fresh i false).list = p.list := hlist
      rcases eq_or_ne y p.fresh with rfl | hy
      · rw [if_pos rfl]
        rcases eq_or_ne k .partiallyUsed with rfl | hk
        · simp [link_list_self]
        · rw [link_list_of_ne hk, hq]
          exact iff_of_false (hout k) hk
      · rw [if_neg hy]
        have hold : y ∈ (p.grow base).list k ↔ y ∈ p.list k := by
          rcases eq_or_ne k .unused with rfl | hk
          · rw [grow_list_unused, mem_cons]
            simp [hy]
          · rw [grow_list_of_ne hk]
        rcases eq_or_ne k .partiallyUsed with rfl | hk
        · rw [link_list_self, hq, hold, mem_cons]
          simp [hy]
        · rw [link_list_of_ne hk, hq, hold]
  refine ⟨i, _, hacq, hi, m, hg.moves m hmem hi hfree ?_ ?_⟩
  · change q.availableFcs - 1 = p.availableFcs + bulkLenOf p.allocBitmask + -1
    omega
  · change q.usedFcs + 1 = p.usedFcs - -1
    omega

/-- What `mlx5_fc_pool_acquire_counter` does: it takes the next counter, or one of a new bulk, or it
    fails. -/
theorem poolAcquireCounter_spec (hp : Inv p) (hm : 0 < p.allocBitmask) (e : BulkEnv) :
    (∃ fc p', nextFc p = some fc ∧ poolAcquireCounter p e = (p', some fc) ∧ fc.b ∈ p.bulks ∧
      fc.i < (p.bulk fc.b).bulkLen ∧ (p.bulk fc.b).free fc.i = true ∧
      Moves p p' fc.b fc.i false ∧ Inv p') ∨ (∃ base i p', nextFc p = none ∧ e.base = some base ∧
      poolAcquireCounter p e = (p', some ⟨p.fresh, i⟩) ∧ i < ((p.grow base).bulk p.fresh).bulkLen ∧
      Moves (p.grow base) p' p.fresh i false ∧ Inv p') ∨
    nextFc p = none ∧ poolAcquireCounter p e = (poolUpdateThreshold p, none) := by
  have hcount : ∀ {q : Pool} {b i : ℕ}, b ∈ p.bulks → i < (p.bulk b).bulkLen →
      (p.bulk b).free i = true → Moves p q b i false → q.availableFcs = p.availableFcs →
      q.usedFcs = p.usedFcs → Moves p q.count b i false ∧ Inv q.count := by
    intro q b i hb hi hfree m ha hu
    have m' : Moves p q.count b i false := { m with }
    refine ⟨m', hp.moves m' hb hi hfree ?_ ?_⟩
    · exact congrArg (· - 1) ha
    · exact congrArg (· + 1) hu
  cases hpart : p.list .partiallyUsed with
  | cons b rest =>
    obtain ⟨p', i, hacq, hfirst, hi, hfree, m, ha, hu⟩ :=
      acquireFromList_spec hp hm (.inl rfl) hpart
    have hb : b ∈ p.bulks := mem_bulks.mpr ⟨_, hpart ▸ mem_cons_self⟩
    obtain ⟨m', hi'⟩ := hcount hb hi hfree m ha hu
    refine .inl ⟨⟨b, i⟩, p'.count, ?_, ?_, hb, hi, hfree, m', hi'⟩
    · unfold nextFc
      rw [hpart, List.cons_append]
      simp only [hfirst, Option.map_some]
    · unfold poolAcquireCounter
      rw [hacq]
  | nil =>
    have hfrom : poolAcquireFromList p .partiallyUsed .fullyUsed false = (p, none) := by
      unfold poolAcquireFromList
      rw [hpart]
    cases hun : p.list .unused with
    | cons b rest =>
      obtain ⟨p', i, hacq, hfirst, hi, hfree, m, ha, hu⟩ :=
        acquireFromList_spec hp hm (.inr rfl) hun
      have hb : b ∈ p.bulks := mem_bulks.mpr ⟨_, hun ▸ mem_cons_self⟩
      obtain ⟨m', hi'⟩ := hcount hb hi hfree m ha hu
      refine .inl ⟨⟨b, i⟩, p'.count, ?_, ?_, hb, hi, hfree, m', hi'⟩
      · unfold nextFc
        rw [hpart, hun, List.nil_append]
        simp only [hfirst, Option.map_some]
      · unfold poolAcquireCounter
        rw [hfrom]
        simp only [hacq]
    | nil =>
      have hfrom' : poolAcquireFromList p .unused .partiallyUsed true = (p, none) := by
        unfold poolAcquireFromList
        rw [hun]
      have hnext : nextFc p = none := by
        unfold nextFc
        rw [hpart, hun]
        rfl
      have hstart : poolAcquireCounter p e = match poolAllocNewBulk p e with
          | (p, none) => (p, none)
          | (p, some b) =>
            let (p, fc) := bulkAcquireFc p b
            ((p.link b .partiallyUsed).count, fc) := by
        unfold poolAcquireCounter
        rw [hfrom]
        simp only [hfrom']
      have hfail : poolAllocNewBulk p e = (poolUpdateThreshold p, none) →
          poolAcquireCounter p e = (poolUpdateThreshold p, none) := fun h => by rw [hstart, h]
      by_cases halloc : e.kvzalloc = false ∨ e.kvcalloc = false
      · refine .inr (.inr ⟨hnext, hfail ?_⟩)
        unfold poolAllocNewBulk bulkCreate
        rw [if_pos halloc]
      · cases hbase : e.base with
        | none =>
          refine .inr (.inr ⟨hnext, hfail ?_⟩)
          unfold poolAllocNewBulk bulkCreate
          rw [if_neg halloc, hbase]
        | some base =>
          refine .inr (.inl ?_)
          have hmade : ∃ q, poolAllocNewBulk p e = (q, some p.fresh) ∧
              q.allocBitmask = p.allocBitmask ∧ q.fresh = p.fresh + 1 ∧ q.freed = p.freed ∧
              q.bulk = (p.grow base).bulk ∧ q.list = p.list ∧
              q.availableFcs = p.availableFcs + bulkLenOf p.allocBitmask ∧
              q.usedFcs = p.usedFcs := by
            unfold poolAllocNewBulk bulkCreate
            rw [if_neg halloc, hbase]
            refine ⟨_, rfl, rfl, rfl, rfl, rfl, rfl, ?_, rfl⟩
            simp [poolUpdateThreshold]
          obtain ⟨q, hq, h1, h2, h3, h4, h5, h6, h7⟩ := hmade
          obtain ⟨i, q', hacq, hlt, m, hi⟩ := newBulk_spec hp hm h1 h2 h3 h4 h5 h6 h7
          refine ⟨base, i, _, hnext, rfl, ?_, hlt, m, hi⟩
          rw [hstart, hq]
          simp only [hacq]

end New

section Release
variable {p p' q : Pool} {b i : ℕ} {fc : Fcs}

/-- A bulk without users goes back to the firmware. -/
structure Drops (q p' : Pool) (b : ℕ) : Prop where
  mask : p'.allocBitmask = q.allocBitmask
  fresh : p'.fresh = q.fresh
  bulk : p'.bulk = q.bulk
  freed : p'.freed = b :: q.freed
  nodup : ∀ k, (p'.list k).Nodup
  mem : ∀ k y, y ∈ p'.list k ↔ y ≠ b ∧ y ∈ q.list k

theorem Drops.mem_bulks (d : Drops q p' b) {y : ℕ} : y ∈ p'.bulks ↔ y ≠ b ∧ y ∈ q.bulks := by
  rw [FcPool.mem_bulks, FcPool.mem_bulks]
  constructor
  · rintro ⟨k, hk⟩
    exact ⟨((d.mem k y).mp hk).1, k, ((d.mem k y).mp hk).2⟩
  · rintro ⟨hne, k, hk⟩
    exact ⟨k, (d.mem k y).mpr ⟨hne, hk⟩⟩

theorem Drops.inUse (d : Drops q p' b)
    (hall : bulkGetFreeFcsAmount (q.bulk b) = (q.bulk b).bulkLen) :
    p'.inUse fc ↔ q.inUse fc := by
  unfold Pool.inUse
  rw [d.mem_bulks, d.bulk]
  constructor
  · rintro ⟨⟨-, hb⟩, hi, hu⟩
    exact ⟨hb, hi, hu⟩
  · rintro ⟨hb, hi, hu⟩
    refine ⟨⟨fun he => ?_, hb⟩, hi, hu⟩
    rw [he] at hi hu
    have hfree := freeFcsAmount_eq_len.mp hall fc.i hi
    rw [hfree] at hu
    cases hu

theorem poolFreeBulk_eq (hall : bulkGetFreeFcsAmount (p.bulk b) = (p.bulk b).bulkLen) :
    poolFreeBulk p b = poolUpdateThreshold { p with
      availableFcs := p.availableFcs - (p.bulk b).bulkLen, freed := b :: p.freed } := by
  simp [poolFreeBulk, bulkDestroy, hall]

/-- STEP: the invariant, when a bulk goes back. -/
theorem Inv.drops (hq : Inv q) (d : Drops q p' b) (hb : b ∈ q.bulks)
    (hall : bulkGetFreeFcsAmount (q.bulk b) = (q.bulk b).bulkLen)
    (ha : p'.availableFcs = q.availableFcs - (q.bulk b).bulkLen)
    (hu : p'.usedFcs = q.usedFcs) : Inv p' := by
  have hnd : p'.bulks.Nodup := by
    refine bulks_nodup.mpr ⟨d.nodup, fun k j y hk hj => ?_⟩
    exact (bulks_nodup.mp hq.nodup).2 k j y ((d.mem k y).mp hk).2 ((d.mem j y).mp hj).2
  have hperm : (b :: p'.bulks).Perm q.bulks := by
    have hcons : (b :: p'.bulks).Nodup :=
      nodup_cons.mpr ⟨fun h => (d.mem_bulks.mp h).1 rfl, hnd⟩
    refine (List.perm_ext_iff_of_nodup hcons hq.nodup).mpr fun y => ?_
    rw [mem_cons, d.mem_bulks]
    rcases eq_or_ne y b with rfl | hne
    · simp [hb]
    · simp [hne]
  refine ⟨hnd, fun y hy => ?_, fun y hy => ?_, fun k y hy => ?_, ?_, ?_, fun y hy => ?_⟩
  · rw [d.fresh]
    exact hq.fresh y (d.mem_bulks.mp hy).2
  · rw [d.bulk, d.mask]
    exact hq.len y (d.mem_bulks.mp hy).2
  · rw [d.bulk]
    exact hq.onList k y ((d.mem k y).mp hy).2
  · have hsum := (hperm.map fun y => bulkGetFreeFcsAmount (q.bulk y)).sum_eq
    rw [map_cons, sum_cons, hall] at hsum
    have havail := hq.available
    rw [d.bulk]
    omega
  · have hsum :=
      (hperm.map fun y => (q.bulk y).bulkLen - bulkGetFreeFcsAmount (q.bulk y)).sum_eq
    rw [map_cons, sum_cons, hall, Nat.sub_self] at hsum
    have hused := hq.used
    rw [d.bulk]
    omega
  · rw [d.freed] at hy
    rw [d.mem_bulks, d.fresh, d.bulk]
    rcases mem_cons.mp hy with rfl | hy
    · exact ⟨fun h => h.1 rfl, hq.fresh y hb, hall⟩
    · obtain ⟨hout, hlt, hy⟩ := hq.freed y hy
      exact ⟨fun h => hout h.2, hlt, hy⟩

/-- What `mlx5_fc_pool_release_counter` does with a counter in use: the bulk moves to the list for
    what it has then, or it goes back because there are more free counters than the threshold. -/
theorem poolReleaseCounter_spec (hp : Inv p) (hfc : p.inUse fc) :
    (∃ p', poolReleaseCounter p fc = p' ∧ Moves p p' fc.b fc.i true ∧ Inv p' ∧
      (fc.b ∈ p'.list .unused → p'.availableFcs ≤ p'.threshold)) ∨
    ∃ q p', poolReleaseCounter p fc = p' ∧ Moves p q fc.b fc.i true ∧ Inv q ∧ Drops q p' fc.b ∧
      bulkGetFreeFcsAmount (q.bulk fc.b) = (q.bulk fc.b).bulkLen ∧
      p.threshold < q.availableFcs ∧ Inv p' := by
  obtain ⟨b, i⟩ := fc
  obtain ⟨hb, hi, hused⟩ := hfc
  have hamount := setBit_amount (x := true) hi hused
  simp only [if_true] at hamount
  have hlen : ((p.setBit b i true).bulk b).bulkLen = (p.bulk b).bulkLen := setBit_bulkLen
  have hlists : ∀ k, ((p.setBit b i true).list k).Nodup := hp.lists
  -- the pool after the first of the two moves
  set p₁ : Pool :=
    { p.setBit b i true with availableFcs := p.availableFcs + 1, usedFcs := p.usedFcs - 1 }
    with hp₁
  set n := bulkGetFreeFcsAmount ((p.setBit b i true).bulk b) with hn
  set p₂ : Pool := if n = 1 then (p₁.unlink b).linkTail b .partiallyUsed else p₁ with hp₂
  have hkeep : p₂.allocBitmask = p.allocBitmask ∧ p₂.fresh = p.fresh ∧ p₂.freed = p.freed ∧
      p₂.bulk = (p.setBit b i true).bulk ∧ p₂.availableFcs = p.availableFcs + 1 ∧
      p₂.usedFcs = p.usedFcs - 1 ∧ p₂.threshold = p.threshold := by
    rw [hp₂]
    split_ifs
    · exact ⟨rfl, rfl, rfl, rfl, rfl, rfl, rfl⟩
    · exact ⟨rfl, rfl, rfl, rfl, rfl, rfl, rfl⟩
  obtain ⟨hmask, hfresh, hfreed, hbulk, havail, hu, hthr⟩ := hkeep
  have hnd₂ : ∀ k, (p₂.list k).Nodup := by
    intro k
    rw [hp₂]
    split_ifs
    · exact nodup_relinkTail hlists k
    · exact hlists k
  have hmem₂ : ∀ k y, y ∈ p₂.list k ↔ if y = b then k = (if n = 1 then .partiallyUsed
        else listFor (bulkGetFreeFcsAmount (p.bulk b)) (p.bulk b).bulkLen) else y ∈ p.list k := by
    intro k y
    rw [hp₂]
    by_cases h1 : n = 1
    · rw [if_pos h1, if_pos h1]
      exact mem_relinkTail hlists
    · rw [if_neg h1, if_neg h1]
      rcases eq_or_ne y b with rfl | hy
      · rw [if_pos rfl]
        exact hp.mem_list hb
      · rw [if_neg hy]
        exact Iff.rfl
  have hstart : poolReleaseCounter p ⟨b, i⟩ = if n = (p₂.bulk b).bulkLen then
        (if p₂.availableFcs > p₂.threshold then poolFreeBulk (p₂.unlink b) b
          else (p₂.unlink b).link b .unused) else p₂ := by
    unfold poolReleaseCounter
    simp only [hused]
    rfl
  rw [hbulk, hlen] at hstart
  by_cases hall : n = (p.bulk b).bulkLen
  · -- the bulk as it is on the unused list
    have m : Moves p ((p₂.unlink b).link b .unused) b i true := by
      refine ⟨hmask, hfresh, hfreed, hbulk, nodup_relink hnd₂, fun k y => ?_⟩
      have hun : listFor (bulkGetFreeFcsAmount (((p₂.unlink b).link b .unused).bulk b))
          (((p₂.unlink b).link b .unused).bulk b).bulkLen = .unused := by
        change listFor (bulkGetFreeFcsAmount (p₂.bulk b)) (p₂.bulk b).bulkLen = _
        rw [hbulk]
        exact listFor_unused.mpr ⟨by omega, by omega⟩
      rw [mem_relink hnd₂, hun]
      rcases eq_or_ne y b with rfl | hy
      · rw [if_pos rfl, if_pos rfl]
      · rw [if_neg hy, if_neg hy, hmem₂, if_neg hy]
    have hinv : Inv ((p₂.unlink b).link b .unused) := by
      refine hp.moves m hb hi hused ?_ ?_
      · exact havail
      · exact hu
    have hfull : bulkGetFreeFcsAmount (p₂.bulk b) = (p₂.bulk b).bulkLen := by
      rw [hbulk, hlen]
      exact hall
    rw [if_pos hall] at hstart
    by_cases hover : p₂.availableFcs > p₂.threshold
    · rw [if_pos hover] at hstart
      have hfree := poolFreeBulk_eq (p := p₂.unlink b) hfull
      have d : Drops ((p₂.unlink b).link b .unused) (poolFreeBulk (p₂.unlink b) b) b := by
        rw [hfree]
        refine ⟨rfl, rfl, rfl, rfl, nodup_unlink hnd₂, fun k y => ?_⟩
        rw [mem_relink hnd₂]
        refine (mem_unlink hnd₂).trans ?_
        rcases eq_or_ne y b with rfl | hy
        · simp
        · simp [hy]
      refine .inr ⟨_, _, hstart, m, hinv, d, hfull, ?_, ?_⟩
      · change p.threshold < p₂.availableFcs
        omega
      · refine hinv.drops d ((m.mem_bulks hb).mpr hb) hfull ?_ ?_
        · rw [hfree]
          rfl
        · rw [hfree]
          rfl
    · rw [if_neg hover] at hstart
      exact .inl ⟨_, hstart, m, hinv, fun _ => not_lt.mp hover⟩
  · rw [if_neg hall] at hstart
    have hle : bulkGetFreeFcsAmount ((p.setBit b i true).bulk b) ≤
        ((p.setBit b i true).bulk b).bulkLen := freeFcsAmount_le
    have hpart : listFor n (p.bulk b).bulkLen = .partiallyUsed :=
      listFor_partly.mpr ⟨by omega, hall⟩
    have m : Moves p p₂ b i true := by
      refine ⟨hmask, hfresh, hfreed, hbulk, hnd₂, fun k y => ?_⟩
      rw [hmem₂, hbulk, hlen, ← hn, hpart]
      by_cases h1 : n = 1
      · rw [if_pos h1]
      · have hold : listFor (bulkGetFreeFcsAmount (p.bulk b)) (p.bulk b).bulkLen =
            .partiallyUsed := listFor_partly.mpr ⟨by omega, by omega⟩
        rw [if_neg h1, hold]
    refine .inl ⟨_, hstart, m, hp.moves m hb hi hused havail hu, fun hun => ?_⟩
    have hon := (m.mem .unused b).mp hun
    rw [if_pos rfl, hbulk, hlen, ← hn, hpart] at hon
    cases hon

end Release

end RdmaDriver.FcPool
