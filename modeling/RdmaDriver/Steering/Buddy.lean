import RdmaDriver.Basic
import RdmaDriver.Schemes.Run
import RdmaDriver.Schemes.Dyadic

/-! @src mlx5/core/steering/dr_buddy.c | name:ICM buddy allocator | scheme:run | family:allocator

    One bitmap for each order has a bit for each free block, and `num_free` counts the bits. An
    allocation takes the first block of the smallest order that has one and splits it down, a free
    merges with the buddy as long as that is free. The merge has no test for the top order: there the
    buddy of the only block is a bit beyond the bitmap, in the word that was allocated for it.

        order 2   [ 0 ]              test_bit(1) here
        order 1   [ 0  1 ]
        order 0   [ 0  1  2  3 ] -/

namespace RdmaDriver.DrBuddy
open Schemes Function
open Nat (mul_div_cancel pow_add pow_succ two_pow_pos)

/-- `n << k` on an `unsigned int`. -/
def shl (n k : ℕ) : ℕ := n * 2 ^ k % 2 ^ 32

/-- `struct mlx5dr_icm_buddy_mem`, the part of the allocator. -/
structure Buddy where
  maxOrder : ℕ
  bitmap : ℕ → ℕ → Bool
  numFree : ℕ → ℕ

/-- `bitmap_set` and `++num_free`. -/
def Buddy.setFree (b : Buddy) (order seg : ℕ) : Buddy :=
  { b with
    bitmap := setBit b.bitmap order seg true
    numFree := update b.numFree order (toU 32 (b.numFree order + 1 : ℕ)) }

/-- `bitmap_clear` and `--num_free`. -/
def Buddy.clearFree (b : Buddy) (order seg : ℕ) : Buddy :=
  { b with
    bitmap := setBit b.bitmap order seg false
    numFree := update b.numFree order (toU 32 ((b.numFree order : ℤ) - 1)) }

/-- The state after `mlx5dr_buddy_init`. -/
def newBuddy (maxOrder : ℕ) : Buddy where
  maxOrder := maxOrder
  bitmap := setBit (fun _ _ => false) maxOrder 0 true
  numFree := update (fun _ => 0) maxOrder 1

/-- `mlx5dr_buddy_init`. -/
def mlx5drBuddyInit (maxOrder : ℕ) (allocOk : Bool) : Option Buddy :=
  if allocOk then some (newBuddy maxOrder) else none

/-- The loop of `dr_buddy_find_free_seg` over the orders. -/
def findOrder (numFree : ℕ → ℕ) : ℕ → ℕ → Option ℕ
  | 0, _ => none
  | fuel + 1, orderIter =>
    if numFree orderIter ≠ 0 then some orderIter else findOrder numFree fuel (orderIter + 1)

/-- `dr_buddy_find_free_seg`: the segment and its order. -/
def drBuddyFindFreeSeg (b : Buddy) (startOrder : ℕ) : Option (ℕ × ℕ) :=
  match findOrder b.numFree (b.maxOrder + 1 - startOrder) startOrder with
  | none => none
  | some order =>
    let m := shl 1 (b.maxOrder - order)
    let seg := findFirstBit (b.bitmap order) m
    if m ≤ seg then none else some (seg, order)

/-- The loop of `mlx5dr_buddy_alloc_mem`: as many splits as are left. -/
def splitLoop : ℕ → Buddy → ℕ → ℕ → Buddy × ℕ
  | 0, b, seg, _ => (b, seg)
  | n + 1, b, seg, orderIter =>
    splitLoop n (b.setFree (orderIter - 1) (shl seg 1 ^^^ 1)) (shl seg 1) (orderIter - 1)

/-- `mlx5dr_buddy_alloc_mem`. -/
def mlx5drBuddyAllocMem (b : Buddy) (order : ℕ) : Option (Buddy × ℕ) :=
  match drBuddyFindFreeSeg b order with
  | none => none
  | some (seg, orderIter) =>
    let p := splitLoop (orderIter - order) (b.clearFree orderIter seg) seg orderIter
    some (p.1, shl p.2 order)

/-- An access to a bitmap. -/
structure Touch where
  order : ℕ
  pos : ℕ
  write : Bool
  deriving DecidableEq

/-- The loop of `mlx5dr_buddy_free_mem`, with the accesses to the bitmaps. `none`: it has left the
    bitmaps. -/
def mergeLoop : ℕ → Buddy → ℕ → ℕ → List Touch → Option (Buddy × List Touch)
  | 0, _, _, _, _ => none
  | n + 1, b, seg, order, log =>
    if b.bitmap order (seg ^^^ 1) then
      mergeLoop n (b.clearFree order (seg ^^^ 1)) (seg / 2) (order + 1)
        (log ++ [⟨order, seg ^^^ 1, false⟩, ⟨order, seg ^^^ 1, true⟩])
    else some (b.setFree order seg, log ++ [⟨order, seg ^^^ 1, false⟩, ⟨order, seg, true⟩])

/-- `mlx5dr_buddy_free_mem`. -/
def mlx5drBuddyFreeMem (b : Buddy) (seg order : ℕ) : Option (Buddy × List Touch) :=
  mergeLoop (b.maxOrder + 1 - order) b (seg / 2 ^ order) order []

/-! ### The partition -/

/-- How many allocated blocks, pairs of segment and order, lie over a unit. -/
def liveAt (live : List (ℕ × ℕ)) (u : ℕ) : ℕ :=
  (live.map fun p => inBlock p.2 (p.1 / 2 ^ p.2) u).sum

/-- Counters and bitmaps agree, all blocks lie in the area, and no two free blocks are buddies. -/
structure BitsInv (m : ℕ) (b : Buddy) : Prop where
  max : b.maxOrder = m
  range : ∀ o s, b.bitmap o s = true → o ≤ m ∧ s < 2 ^ (m - o)
  count : ∀ o, b.numFree o = setBits (b.bitmap o) (2 ^ (m - o))
  buddies : ∀ o s, b.bitmap o s = true → b.bitmap o (s ^^^ 1) = false

/-- An allocated block lies in the area. -/
def LiveOk (m : ℕ) (p : ℕ × ℕ) : Prop := p.2 ≤ m ∧ ∃ s < 2 ^ (m - p.2), p.1 = s * 2 ^ p.2

/-- Between two calls each unit is in one block, free or allocated. -/
structure Inv (m : ℕ) (b : Buddy) (live : List (ℕ × ℕ)) : Prop extends BitsInv m b where
  liveOk : ∀ p ∈ live, LiveOk m p
  tile : ∀ u < 2 ^ m, blocksAt m b.bitmap u + liveAt live u = 1

/-- Within a call one more block, `s` of order `o`, is neither free nor allocated. -/
structure Mid (m : ℕ) (b : Buddy) (live : List (ℕ × ℕ)) (o s : ℕ) : Prop extends BitsInv m b where
  liveOk : ∀ p ∈ live, LiveOk m p
  orderLe : o ≤ m
  segLt : s < 2 ^ (m - o)
  tile : ∀ u < 2 ^ m, blocksAt m b.bitmap u + liveAt live u + inBlock o s u = 1

section Blocks

variable {m o s : ℕ} {b : Buddy} {live : List (ℕ × ℕ)}

/-- The first unit of a block in the area. -/
theorem first_unit (ho : o ≤ m) (hs : s < 2 ^ (m - o)) :
    s * 2 ^ o < 2 ^ m ∧ s * 2 ^ o / 2 ^ o = s := by
  refine ⟨?_, mul_div_cancel _ (two_pow_pos o)⟩
  have h := Nat.mul_lt_mul_of_pos_right hs (two_pow_pos o)
  rwa [← pow_add, Nat.sub_add_cancel ho] at h

theorem setFree_bits (hm : m < 32) (inv : BitsInv m b) (ho : o ≤ m) (hs : s < 2 ^ (m - o))
    (hbit : b.bitmap o s = false) (hbuddy : b.bitmap o (s ^^^ 1) = false) :
    BitsInv m (b.setFree o s) := by
  refine ⟨inv.max, fun o' s' h => ?_, fun o' => ?_, fun o' s' h => ?_⟩
  · by_cases heq : o' = o ∧ s' = s
    · rw [heq.1, heq.2]
      exact ⟨ho, hs⟩
    · replace h : setBit b.bitmap o s true o' s' = true := h
      rw [setBit_ne true heq] at h
      exact inv.range o' s' h
  · change update b.numFree o _ o' = setBits (setBit b.bitmap o s true o') _
    by_cases heq : o' = o
    · subst heq
      have hlt := setBits_le (b.bitmap o') (2 ^ (m - o'))
      have hpow : 2 ^ (m - o') ≤ 2 ^ 31 := Nat.pow_le_pow_right (by norm_num) (by omega)
      rw [update_self]
      unfold setBit
      rw [update_self, setBits_set hs hbit, inv.count o']
      exact toU_of_lt (by omega)
    · rw [update_of_ne heq, setBit_order true heq]
      exact inv.count o'
  · change setBit b.bitmap o s true o' (s' ^^^ 1) = false
    replace h : setBit b.bitmap o s true o' s' = true := h
    by_cases heq : o' = o ∧ s' = s
    · obtain ⟨rfl, rfl⟩ := heq
      rw [setBit_ne true fun hc => xor_one_ne s' hc.2]
      exact hbuddy
    · rw [setBit_ne true heq] at h
      rw [setBit_ne true]
      · exact inv.buddies o' s' h
      · rintro ⟨rfl, rfl⟩
        rw [xor_one_xor_one, h] at hbuddy
        cases hbuddy

theorem clearFree_bits (inv : BitsInv m b) (hbit : b.bitmap o s = true) (hm : m < 32) :
    BitsInv m (b.clearFree o s) := by
  have hold : ∀ o' s', (b.clearFree o s).bitmap o' s' = true → b.bitmap o' s' = true := by
    intro o' s' h
    replace h : setBit b.bitmap o s false o' s' = true := h
    by_cases heq : o' = o ∧ s' = s
    · rw [heq.1, heq.2]
      exact hbit
    · rwa [setBit_ne false heq] at h
  refine ⟨inv.max, fun o' s' h => inv.range o' s' (hold o' s' h), fun o' => ?_, fun o' s' h => ?_⟩
  · change update b.numFree o _ o' = setBits (setBit b.bitmap o s false o') _
    by_cases heq : o' = o
    · subst heq
      have hclear := setBits_clear (inv.range o' s hbit).2 hbit
      have hle := setBits_le (b.bitmap o') (2 ^ (m - o'))
      have hpow : 2 ^ (m - o') ≤ 2 ^ 31 := Nat.pow_le_pow_right (by norm_num) (by omega)
      rw [update_self]
      unfold setBit
      rw [update_self, inv.count o']
      have hsub : toU 32 ((setBits (b.bitmap o') (2 ^ (m - o')) : ℤ) - (1 : ℕ)) =
          setBits (b.bitmap o') (2 ^ (m - o')) - 1 := toU_sub (by omega) (by omega)
      exact hsub.trans (by omega)
    · rw [update_of_ne heq, setBit_order false heq]
      exact inv.count o'
  · have hb := inv.buddies o' s' (hold o' s' h)
    by_contra hne
    rw [hold o' (s' ^^^ 1) (by simpa using hne)] at hb
    cases hb

theorem liveAt_cons (p : ℕ × ℕ) (u : ℕ) :
    liveAt (p :: live) u = inBlock p.2 (p.1 / 2 ^ p.2) u + liveAt live u := by
  simp [liveAt]

theorem liveAt_erase {p : ℕ × ℕ} (h : p ∈ live) (u : ℕ) :
    liveAt (live.erase p) u + inBlock p.2 (p.1 / 2 ^ p.2) u = liveAt live u := by
  have hperm := ((List.perm_cons_erase h).map
    fun q => inBlock q.2 (q.1 / 2 ^ q.2) u).sum_eq
  unfold liveAt
  rw [hperm, List.map_cons, List.sum_cons, Nat.add_comm]

/-- A free block is taken. -/
theorem Inv.take (inv : Inv m b live) (hm : m < 32) (hbit : b.bitmap o s = true) :
    Mid m (b.clearFree o s) live o s := by
  obtain ⟨ho, hs⟩ := inv.range o s hbit
  refine ⟨clearFree_bits inv.toBitsInv hbit hm, inv.liveOk, ho, hs, fun u hu => ?_⟩
  have hclear := blocksAt_clear ho hbit u
  have htile := inv.tile u hu
  change blocksAt m (setBit b.bitmap o s false) u + _ + _ = 1
  omega

/-- An allocated block is given back. -/
theorem Inv.giveBack (inv : Inv m b live) {p : ℕ × ℕ} (hp : p ∈ live) :
    Mid m b (live.erase p) p.2 (p.1 / 2 ^ p.2) := by
  obtain ⟨ho, s, hs, hseg⟩ := inv.liveOk p hp
  have hdiv : p.1 / 2 ^ p.2 = s := by
    rw [hseg]
    exact mul_div_cancel _ (two_pow_pos _)
  refine ⟨inv.toBitsInv, fun q hq => inv.liveOk q (List.mem_of_mem_erase hq), ho, hdiv ▸ hs,
    fun u hu => ?_⟩
  have herase := liveAt_erase hp u
  have htile := inv.tile u hu
  omega

/-- Over the units of the block itself nothing else lies. -/
theorem Mid.alone (mid : Mid m b live o s) {o' s' : ℕ} (ho' : o' ≤ m)
    (hu : s' * 2 ^ o' < 2 ^ m) (hin : s' * 2 ^ o' / 2 ^ o = s) : b.bitmap o' s' = false := by
  by_contra hbit
  have htile := mid.tile _ hu
  have hdiv : s' * 2 ^ o' / 2 ^ o' = s' := mul_div_cancel _ (two_pow_pos _)
  have hpos := @blocksAt_pos m o' (s' * 2 ^ o') b.bitmap ho' (by simpa using hbit)
  have hin' : inBlock o s (s' * 2 ^ o') = 1 := if_pos hin
  omega

theorem Mid.not_free (mid : Mid m b live o s) : b.bitmap o s = false := by
  obtain ⟨hu, hin⟩ := first_unit mid.orderLe mid.segLt
  exact mid.alone mid.orderLe hu hin

/-- STEP: the block is split, its second half is free. -/
theorem Mid.split (mid : Mid m b live (o + 1) s) (hm : m < 32) :
    Mid m (b.setFree o ((2 * s) ^^^ 1)) live o (2 * s) := by
  have ho := mid.orderLe
  have hpow : 2 ^ (m - o) = 2 * 2 ^ (m - (o + 1)) := by
    rw [show m - o = m - (o + 1) + 1 by omega, pow_succ, Nat.mul_comm]
  have hs := mid.segLt
  rw [xor_one_even]
  have hhalf (t : ℕ) (ht : t / 2 = s) (hlt : t < 2 ^ (m - o)) : b.bitmap o t = false := by
    obtain ⟨hu, hin⟩ := first_unit (by omega) hlt
    refine mid.alone (by omega) hu ?_
    rw [pow_succ, ← Nat.div_div_eq_div_mul, hin, ht]
  have hodd := hhalf (2 * s + 1) (by omega) (by omega)
  have heven := hhalf (2 * s) (by omega) (by omega)
  have hbits : BitsInv m (b.setFree o (2 * s + 1)) :=
    setFree_bits hm mid.toBitsInv (by omega) (by omega) hodd (by rwa [xor_one_odd])
  refine ⟨hbits, mid.liveOk, by omega, by omega, fun u hu => ?_⟩
  have hset := blocksAt_set (by omega : o ≤ m) hodd u
  have htile := mid.tile u hu
  have hsum := inBlock_buddies o (2 * s) u
  rw [xor_one_even, show 2 * s / 2 = s by omega] at hsum
  change blocksAt m (setBit b.bitmap o (2 * s + 1) true) u + _ + _ = 1
  omega

/-- STEP: the block and its free buddy are merged. -/
theorem Mid.merge (mid : Mid m b live o s) (hm : m < 32) (hbit : b.bitmap o (s ^^^ 1) = true) :
    o < m ∧ Mid m (b.clearFree o (s ^^^ 1)) live (o + 1) (s / 2) := by
  obtain ⟨ho, hlt⟩ := mid.range o _ hbit
  have hs := mid.segLt
  have hom : o < m := by
    -- at the top there is no buddy
    refine lt_of_le_of_ne ho fun heq => ?_
    subst heq
    rw [Nat.sub_self, Nat.pow_zero] at hlt hs
    exact xor_one_ne s (by omega)
  have hpow : 2 ^ (m - o) = 2 * 2 ^ (m - (o + 1)) := by
    rw [show m - o = m - (o + 1) + 1 by omega, pow_succ, Nat.mul_comm]
  refine ⟨hom, clearFree_bits mid.toBitsInv hbit hm, mid.liveOk, hom, by omega, fun u hu => ?_⟩
  have hclear := blocksAt_clear ho hbit u
  have htile := mid.tile u hu
  have hsum := inBlock_buddies o s u
  change blocksAt m (setBit b.bitmap o (s ^^^ 1) false) u + _ + _ = 1
  omega

/-- The block is freed. -/
theorem Mid.free (mid : Mid m b live o s) (hm : m < 32) (hbit : b.bitmap o (s ^^^ 1) = false) :
    Inv m (b.setFree o s) live := by
  have hnot := mid.not_free
  refine ⟨setFree_bits hm mid.toBitsInv mid.orderLe mid.segLt hnot hbit, mid.liveOk,
    fun u hu => ?_⟩
  have hset := blocksAt_set mid.orderLe hnot u
  have htile := mid.tile u hu
  change blocksAt m (setBit b.bitmap o s true) u + _ = 1
  omega

/-- The block is allocated. -/
theorem Mid.allocate (mid : Mid m b live o s) : Inv m b ((s * 2 ^ o, o) :: live) := by
  refine ⟨mid.toBitsInv, fun p hp => ?_, fun u hu => ?_⟩
  · rcases List.mem_cons.mp hp with rfl | hp
    · exact ⟨mid.orderLe, s, mid.segLt, rfl⟩
    · exact mid.liveOk p hp
  · have htile := mid.tile u hu
    rw [liveAt_cons]
    dsimp only
    rw [mul_div_cancel _ (two_pow_pos o)]
    omega

end Blocks

/-! ### The search -/

theorem findOrder_none {numFree : ℕ → ℕ} : ∀ {fuel o : ℕ}, findOrder numFree fuel o = none →
    ∀ i, o ≤ i → i < o + fuel → numFree i = 0
  | 0, o, _, i, hi, hlt => by omega
  | fuel + 1, o, h, i, hi, hlt => by
    unfold findOrder at h
    split at h
    · cases h
    · rename_i hzero
      rcases Nat.eq_or_lt_of_le hi with rfl | hi
      · simpa using hzero
      · exact findOrder_none h i hi (by omega)

theorem findOrder_some {numFree : ℕ → ℕ} {k : ℕ} : ∀ {fuel o : ℕ},
    findOrder numFree fuel o = some k → o ≤ k ∧ k < o + fuel ∧ numFree k ≠ 0
  | 0, o, h => by cases h
  | fuel + 1, o, h => by
    unfold findOrder at h
    split at h
    · rename_i hne
      cases h
      exact ⟨le_rfl, by omega, hne⟩
    · obtain ⟨hle, hlt, hne⟩ := findOrder_some h
      exact ⟨by omega, by omega, hne⟩

section Search

variable {m order o seg : ℕ} {b : Buddy} {live : List (ℕ × ℕ)}

/-- An order that counts a free block has one in its bitmap. -/
theorem first_spec (hm : m < 32) (inv : BitsInv m b) (ho : o ≤ m) (hne : b.numFree o ≠ 0) :
    findFirstBit (b.bitmap o) (shl 1 (m - o)) < shl 1 (m - o) ∧
      b.bitmap o (findFirstBit (b.bitmap o) (shl 1 (m - o))) = true := by
  have hpow : 2 ^ (m - o) ≤ 2 ^ 31 := Nat.pow_le_pow_right (by norm_num) (by omega)
  have hshl : shl 1 (m - o) = 2 ^ (m - o) := by
    unfold shl
    omega
  rw [hshl]
  refine findFirstBit_spec ?_
  by_contra hnone
  refine hne ((inv.count o).trans (setBits_eq_zero.mpr fun i hi => ?_))
  by_contra hbit
  exact hnone ⟨i, hi, by simpa using hbit⟩

theorem find_some (hm : m < 32) (inv : BitsInv m b)
    (h : drBuddyFindFreeSeg b order = some (seg, o)) : order ≤ o ∧ b.bitmap o seg = true := by
  unfold drBuddyFindFreeSeg at h
  split at h
  · cases h
  · rename_i k hk
    obtain ⟨hle, hlt, hne⟩ := findOrder_some hk
    rw [inv.max] at hlt
    obtain ⟨hfirst, hbit⟩ := first_spec hm inv (by omega) hne
    rw [inv.max, if_neg (by omega)] at h
    cases h
    exact ⟨hle, hbit⟩

theorem find_none (hm : m < 32) (inv : BitsInv m b) (h : drBuddyFindFreeSeg b order = none)
    (ho : order ≤ o) : b.bitmap o seg = false := by
  by_contra hbit
  replace hbit : b.bitmap o seg = true := by simpa using hbit
  obtain ⟨hom, hs⟩ := inv.range o seg hbit
  unfold drBuddyFindFreeSeg at h
  split at h
  · rename_i hnone
    have hzero := findOrder_none hnone o ho (by rw [inv.max]; omega)
    rw [inv.count o] at hzero
    rw [setBits_eq_zero.mp hzero seg hs] at hbit
    cases hbit
  · rename_i k hk
    obtain ⟨hle, hlt, hne⟩ := findOrder_some hk
    rw [inv.max] at hlt
    have hfirst := (first_spec hm inv (by omega) hne).1
    rw [inv.max, if_neg (by omega)] at h
    cases h

/-- RUN: the splits down to the requested order. -/
theorem splitLoop_run (hm : m < 32) : ∀ (n : ℕ) {b : Buddy} {s : ℕ}, Mid m b live (o + n) s →
    Mid m (splitLoop n b s (o + n)).1 live o (splitLoop n b s (o + n)).2
  | 0, _, _, mid => mid
  | n + 1, b, s, mid => by
    have hs := mid.segLt
    have hle := mid.orderLe
    have hpow : 2 ^ (m - (o + (n + 1))) ≤ 2 ^ 30 := Nat.pow_le_pow_right (by norm_num) (by omega)
    have hshl : shl s 1 = 2 * s := by
      unfold shl
      omega
    have hsplit := splitLoop_run hm n (mid.split hm)
    unfold splitLoop
    rwa [hshl, show o + (n + 1) - 1 = o + n by omega]

/-- An allocation takes a block out of the free ones. -/
theorem alloc_some (hm : m < 32) (inv : Inv m b live) {b' : Buddy}
    (h : mlx5drBuddyAllocMem b order = some (b', seg)) : Inv m b' ((seg, order) :: live) := by
  unfold mlx5drBuddyAllocMem at h
  split at h
  · cases h
  · rename_i s k hfind
    obtain ⟨hle, hbit⟩ := find_some hm inv.toBitsInv hfind
    obtain ⟨n, rfl⟩ := Nat.exists_eq_add_of_le hle
    rw [Nat.add_sub_cancel_left] at h
    cases h
    have mid := splitLoop_run hm n (inv.take hm hbit)
    have hfirst := (first_unit mid.orderLe mid.segLt).1
    have hpow : 2 ^ m ≤ 2 ^ 31 := Nat.pow_le_pow_right (by norm_num) (by omega)
    have hshl : shl (splitLoop n (b.clearFree (order + n) s) s (order + n)).2 order =
        (splitLoop n (b.clearFree (order + n) s) s (order + n)).2 * 2 ^ order :=
      Nat.mod_eq_of_lt (by omega)
    rw [hshl]
    exact mid.allocate

/-- It fails exactly when there is no free block that is large enough. -/
theorem alloc_none (hm : m < 32) (inv : BitsInv m b) :
    mlx5drBuddyAllocMem b order = none ↔ ∀ o s, order ≤ o → b.bitmap o s = false := by
  unfold mlx5drBuddyAllocMem
  constructor
  · intro h
    split at h
    · exact fun o s => find_none hm inv ‹_›
    · cases h
  · intro h
    split
    · rfl
    · rename_i s k hfind
      obtain ⟨hle, hbit⟩ := find_some hm inv hfind
      rw [h k s hle] at hbit
      cases hbit

end Search

/-! ### The merge -/

/-- The access is within the bitmap of its order. -/
def Touch.inside (m : ℕ) (t : Touch) : Prop := t.order ≤ m ∧ t.pos < 2 ^ (m - t.order)

/-- The read of the buddy of the one block of the top order. -/
def topRead (m : ℕ) : Touch := ⟨m, 1, false⟩

section Merge

variable {m o s : ℕ} {b : Buddy} {live : List (ℕ × ℕ)}

theorem Mid.seg_inside (mid : Mid m b live o s) (w : Bool) : (Touch.mk o s w).inside m :=
  ⟨mid.orderLe, mid.segLt⟩

/-- Below the top the buddy is in the bitmap, at the top it is the bit after it. -/
theorem Mid.buddy_read (mid : Mid m b live o s) :
    (o < m ∧ (Touch.mk o (s ^^^ 1) false).inside m) ∨
      (o = m ∧ Touch.mk o (s ^^^ 1) false = topRead m ∧ s = 0) := by
  have hs := mid.segLt
  rcases Nat.lt_or_eq_of_le mid.orderLe with hlt | rfl
  · refine .inl ⟨hlt, mid.orderLe, ?_⟩
    have hpow : 2 ^ (m - o) = 2 * 2 ^ (m - (o + 1)) := by
      rw [show m - o = m - (o + 1) + 1 by omega, pow_succ, Nat.mul_comm]
    have hdiv := xor_one_div s
    change s ^^^ 1 < 2 ^ (m - o)
    omega
  · rw [Nat.sub_self, Nat.pow_zero] at hs
    obtain rfl : s = 0 := by omega
    exact .inr ⟨rfl, rfl, rfl⟩

/-- RUN: the merges end within the bitmaps, at the latest at the top. -/
theorem mergeLoop_run (hm : m < 32) : ∀ (n : ℕ) {b : Buddy} {o s : ℕ} (log : List Touch),
    Mid m b live o s → m < o + n → ∃ b' log', mergeLoop n b s o log = some (b', log ++ log') ∧
      Inv m b' live ∧ (∀ t ∈ log', t.inside m ∨ t = topRead m) ∧
      (topRead m ∈ log' ↔ b'.bitmap m 0 = true)
  | 0, b, o, s, log, mid, hn => by
    have hle := mid.orderLe
    omega
  | n + 1, b, o, s, log, mid, hn => by
    unfold mergeLoop
    split
    · rename_i hbit
      obtain ⟨hom, hmerge⟩ := mid.merge hm hbit
      obtain ⟨b', log', heq, hinv, hlog, htop⟩ := mergeLoop_run hm n
        (log ++ [⟨o, s ^^^ 1, false⟩, ⟨o, s ^^^ 1, true⟩]) hmerge (by omega)
      have hin := mid.range o _ hbit
      have hne (w : Bool) : topRead m ≠ ⟨o, s ^^^ 1, w⟩ := by
        intro h
        have := congrArg Touch.order h
        change m = o at this
        omega
      refine ⟨b', ⟨o, s ^^^ 1, false⟩ :: ⟨o, s ^^^ 1, true⟩ :: log', ?_, hinv, ?_, ?_⟩
      · rw [heq, List.append_assoc]
        rfl
      · intro t ht
        rcases List.mem_cons.mp ht with rfl | ht
        · exact .inl hin
        · rcases List.mem_cons.mp ht with rfl | ht
          · exact .inl hin
          · exact hlog t ht
      · simp [hne, htop]
    · rename_i hbit
      replace hbit : b.bitmap o (s ^^^ 1) = false := by simpa using hbit
      have hinv := mid.free hm hbit
      refine ⟨_, _, rfl, hinv, ?_, ?_⟩
      · intro t ht
        rcases List.mem_cons.mp ht with rfl | ht
        · rcases mid.buddy_read with h | h
          · exact .inl h.2
          · exact .inr h.2.1
        · obtain rfl := List.mem_singleton.mp ht
          exact .inl (mid.seg_inside true)
      · change _ ↔ setBit b.bitmap o s true m 0 = true
        have hwrite : topRead m ≠ ⟨o, s, true⟩ := fun h => Bool.noConfusion (congrArg Touch.write h)
        rcases mid.buddy_read with ⟨hom, hin⟩ | ⟨rfl, htop, rfl⟩
        · have hread : topRead m ≠ ⟨o, s ^^^ 1, false⟩ := by
            intro h
            have := congrArg Touch.order h
            change m = o at this
            omega
          have hfree : b.bitmap m 0 = false := by
            by_contra hbit
            obtain ⟨hu, hseg⟩ := first_unit mid.orderLe mid.segLt
            have htile := mid.tile _ hu
            have hpos := @blocksAt_pos m m (s * 2 ^ o) b.bitmap le_rfl
              (by simpa [Nat.div_eq_of_lt hu] using hbit)
            have hin' : inBlock o s (s * 2 ^ o) = 1 := if_pos hseg
            omega
          rw [setBit_ne true fun hc => by omega, hfree]
          simp [hread, hwrite]
        · rw [setBit_same]
          simp [← htop]

end Merge

/-! ### What the owners of the blocks see -/

section Owners

variable {m : ℕ} {b : Buddy} {live live' : List (ℕ × ℕ)}

theorem Inv.perm (inv : Inv m b live) (h : live.Perm live') : Inv m b live' := by
  refine ⟨inv.toBitsInv, fun p hp => inv.liveOk p (h.mem_iff.mpr hp), fun u hu => ?_⟩
  have heq : liveAt live' u = liveAt live u :=
    ((h.map fun p : ℕ × ℕ => inBlock p.2 (p.1 / 2 ^ p.2) u).sum_eq).symm
  rw [heq]
  exact inv.tile u hu

theorem liveAt_pos {p : ℕ × ℕ} (h : p ∈ live) (u : ℕ) :
    inBlock p.2 (p.1 / 2 ^ p.2) u ≤ liveAt live u :=
  List.le_sum_of_mem (List.mem_map.mpr ⟨p, h, rfl⟩)

/-- A unit of an allocated block. -/
theorem LiveOk.inBlock_eq {p : ℕ × ℕ} (h : LiveOk m p) {u : ℕ} (hle : p.1 ≤ u)
    (hlt : u < p.1 + 2 ^ p.2) : inBlock p.2 (p.1 / 2 ^ p.2) u = 1 := by
  obtain ⟨-, s, -, hseg⟩ := h
  rw [hseg, mul_div_cancel _ (two_pow_pos _)]
  refine if_pos (Nat.div_eq_of_lt_le (hseg ▸ hle) ?_)
  rw [Nat.succ_mul, ← hseg]
  exact hlt

theorem LiveOk.le {p : ℕ × ℕ} (h : LiveOk m p) : p.1 + 2 ^ p.2 ≤ 2 ^ m := by
  obtain ⟨ho, s, hs, hseg⟩ := h
  have hle : (s + 1) * 2 ^ p.2 ≤ 2 ^ (m - p.2) * 2 ^ p.2 := Nat.mul_le_mul_right _ hs
  rw [← pow_add, Nat.sub_add_cancel ho, Nat.succ_mul, ← hseg] at hle
  exact hle

/-- Two blocks without a common unit. -/
def Apart (p q : ℕ × ℕ) : Prop := p.1 + 2 ^ p.2 ≤ q.1 ∨ q.1 + 2 ^ q.2 ≤ p.1

/-- A common unit of two allocated blocks would be counted twice. -/
theorem apart_of_tile : ∀ {live : List (ℕ × ℕ)}, (∀ p ∈ live, LiveOk m p) →
    (∀ u < 2 ^ m, liveAt live u ≤ 1) → live.Pairwise Apart
  | [], _, _ => .nil
  | p :: live, hok, htile => by
    have hp := hok p List.mem_cons_self
    refine .cons (fun q hq => ?_) (apart_of_tile (fun q hq => hok q (List.mem_cons_of_mem _ hq))
      fun u hu => ?_)
    · by_contra hnot
      obtain ⟨h₁, h₂⟩ := not_or.mp hnot
      have hokq := hok q (List.mem_cons_of_mem _ hq)
      have hpos := two_pow_pos p.2
      have hposq := two_pow_pos q.2
      have hlep := hp.le
      have hinp := hp.inBlock_eq (u := max p.1 q.1) (le_max_left ..) (by omega)
      have hinq := hokq.inBlock_eq (u := max p.1 q.1) (le_max_right ..) (by omega)
      have hle := liveAt_pos hq (max p.1 q.1)
      have htwo := htile (max p.1 q.1) (by omega)
      rw [liveAt_cons] at htwo
      omega
    · have h := htile u hu
      rw [liveAt_cons] at h
      omega

theorem Inv.apart (inv : Inv m b live) : live.Pairwise Apart :=
  apart_of_tile inv.liveOk fun u hu => by
    have := inv.tile u hu
    omega

/-- The allocated blocks fit in the area. -/
theorem Inv.total_le (inv : Inv m b live) : (live.map fun p => 2 ^ p.2).sum ≤ 2 ^ m := by
  have hsum : ∀ {live : List (ℕ × ℕ)}, (∀ p ∈ live, LiveOk m p) →
      (live.map fun p => 2 ^ p.2).sum = ∑ u ∈ Finset.range (2 ^ m), liveAt live u := by
    intro live hok
    induction live with
    | nil => simp [liveAt]
    | cons p live ih =>
      obtain ⟨ho, s, hs, hseg⟩ := hok p List.mem_cons_self
      have hcount := sum_inBlock ho hs
      simp only [liveAt_cons, Finset.sum_add_distrib, List.map_cons, List.sum_cons]
      rw [ih fun q hq => hok q (List.mem_cons_of_mem _ hq), hseg,
        mul_div_cancel _ (two_pow_pos _), hcount]
  rw [hsum inv.liveOk]
  calc ∑ u ∈ Finset.range (2 ^ m), liveAt live u
      ≤ ∑ _u ∈ Finset.range (2 ^ m), 1 := Finset.sum_le_sum fun u hu => by
        have := inv.tile u (Finset.mem_range.mp hu)
        omega
    _ = 2 ^ m := by simp

end Owners

/-! ### Runs -/

/-- The allocator and the pairs (segment, order) that its callers hold. -/
structure World where
  b : Buddy
  live : List (ℕ × ℕ)

/-- A call. -/
inductive Act where
  | alloc (order : ℕ)
  | free (seg order : ℕ)
  deriving DecidableEq

/-- One call. -/
def step (w : World) : Act → World
  | .alloc order =>
    match mlx5drBuddyAllocMem w.b order with
    | none => w
    | some (b, seg) => ⟨b, (seg, order) :: w.live⟩
  | .free seg order =>
    match mlx5drBuddyFreeMem w.b seg order with
    | none => w
    | some (b, _) => ⟨b, w.live.erase (seg, order)⟩

/-- Only what is allocated is freed. -/
def ok (w : World) : Act → Prop
  | .alloc _ => True
  | .free seg order => (seg, order) ∈ w.live

instance (w : World) (a : Act) : Decidable (ok w a) := by
  cases a <;> unfold ok <;> infer_instance

/-- After `mlx5dr_buddy_init`. -/
def start (maxOrder : ℕ) : World := ⟨newBuddy maxOrder, []⟩

section Runs

variable {m order seg : ℕ} {b : Buddy} {live : List (ℕ × ℕ)} {w : World}

theorem newBuddy_inv (m : ℕ) : Inv m (newBuddy m) [] := by
  have hbits : ∀ o s, (newBuddy m).bitmap o s = true → o = m ∧ s = 0 := by
    intro o s h
    by_contra hne
    replace h : setBit (fun _ _ => false) m 0 true o s = true := h
    rw [setBit_ne true hne] at h
    cases h
  refine ⟨⟨rfl, fun o s h => ?_, fun o => ?_, fun o s h => ?_⟩, fun p hp => (by cases hp),
    fun u hu => ?_⟩
  · obtain ⟨rfl, rfl⟩ := hbits o s h
    exact ⟨le_rfl, two_pow_pos _⟩
  · change update (fun _ => 0) m 1 o = setBits (setBit (fun _ _ => false) m 0 true o) _
    by_cases heq : o = m
    · subst heq
      unfold setBit
      rw [update_self, update_self, setBits_set (two_pow_pos _) rfl,
        setBits_eq_zero.mpr fun _ _ => rfl]
    · rw [update_of_ne heq, setBit_order true heq, setBits_eq_zero.mpr fun _ _ => rfl]
  · by_contra hbit
    obtain ⟨rfl, rfl⟩ := hbits o s h
    exact absurd (hbits o (0 ^^^ 1) (by simpa using hbit)).2 (xor_one_ne 0)
  · change blocksAt m (setBit (fun _ _ => false) m 0 true) u + 0 = 1
    rw [blocksAt_set le_rfl rfl]
    have hnone : blocksAt m (fun _ _ => false) u = 0 := by
      by_contra hne
      obtain ⟨o, -, hbit⟩ := exists_of_blocksAt hne
      cases hbit
    have hin : inBlock m 0 u = 1 := if_pos (Nat.div_eq_of_lt hu)
    omega

/-- The whole area is one free block exactly when nothing is allocated. -/
theorem top_free (inv : Inv m b live) : b.bitmap m 0 = true ↔ live = [] := by
  constructor
  · intro hbit
    rcases live with _ | ⟨p, live⟩
    · rfl
    · obtain ⟨ho, s, hs, hseg⟩ := inv.liveOk p List.mem_cons_self
      obtain ⟨hu, hdiv⟩ := first_unit ho hs
      have htile := inv.tile _ hu
      have hpos := @blocksAt_pos m m (s * 2 ^ p.2) b.bitmap le_rfl
        (by rwa [Nat.div_eq_of_lt hu])
      have hin : inBlock p.2 (p.1 / 2 ^ p.2) (s * 2 ^ p.2) = 1 := by
        rw [hseg]
        exact if_pos rfl
      rw [liveAt_cons] at htile
      omega
  · rintro rfl
    obtain ⟨k, hk, hbit⟩ := @exists_block m b.bitmap inv.buddies m 0 fun u hu => (by
      have hlt : u < 2 ^ m := (Nat.div_eq_zero_iff_lt (two_pow_pos m)).mp hu
      have htile := inv.tile u hlt
      have hnil : liveAt [] u = 0 := rfl
      omega)
    obtain rfl : k = 0 := by omega
    rwa [Nat.pow_zero, Nat.div_one] at hbit

/-- With nothing allocated the allocator is as it was built. -/
theorem restored (inv : Inv m b []) : b = newBuddy m := by
  have htop := (top_free inv).mpr rfl
  have hbits : b.bitmap = (newBuddy m).bitmap := by
    funext o s
    change _ = setBit (fun _ _ => false) m 0 true o s
    by_cases heq : o = m ∧ s = 0
    · rw [heq.1, heq.2, setBit_same, htop]
    · rw [setBit_ne true heq]
      by_contra hbit
      replace hbit : b.bitmap o s = true := by simpa using hbit
      obtain ⟨ho, hs⟩ := inv.range o s hbit
      obtain ⟨hu, hdiv⟩ := first_unit ho hs
      -- without the top block this unit is still covered
      have hclear := blocksAt_clear le_rfl htop (s * 2 ^ o)
      have hpos := @blocksAt_pos m o (s * 2 ^ o) (setBit b.bitmap m 0 false) ho (by
        rw [hdiv, setBit_ne false heq]
        exact hbit)
      have hin : inBlock m 0 (s * 2 ^ o) = 1 := if_pos (Nat.div_eq_of_lt hu)
      have htile := inv.tile _ hu
      omega
  have hnum : b.numFree = (newBuddy m).numFree := by
    funext o
    rw [inv.count, (newBuddy_inv m).count, hbits]
  have hmax := inv.max
  obtain ⟨maxOrder, bitmap, numFree⟩ := b
  dsimp only at hmax hbits hnum
  rw [hmax, hbits, hnum]
  rfl

/-- A free merges as far as it can and stays within the bitmaps but for `topRead`. -/
theorem free_some (hm : m < 32) (inv : Inv m b live) {p : ℕ × ℕ} (hp : p ∈ live) :
    ∃ b' log, mlx5drBuddyFreeMem b p.1 p.2 = some (b', log) ∧ Inv m b' (live.erase p) ∧
      (∀ t ∈ log, t.inside m ∨ t = topRead m) ∧ (topRead m ∈ log ↔ live = [p]) := by
  obtain ⟨b', log, heq, hinv, hlog, htop⟩ := mergeLoop_run hm (m + 1 - p.2) [] (inv.giveBack hp)
    (by have := (inv.liveOk p hp).1; omega)
  refine ⟨b', log, ?_, hinv, hlog, htop.trans ((top_free hinv).trans ?_)⟩
  · unfold mlx5drBuddyFreeMem
    rw [inv.max]
    exact heq
  · constructor
    · intro hnil
      have hperm := List.perm_cons_erase hp
      rw [hnil] at hperm
      exact List.perm_singleton.mp hperm
    · rintro rfl
      exact List.erase_cons_head ..

/-- STEP: the partition is kept. -/
theorem step_inv (hm : m < 32) (a : Act) (hok : ok w a) (inv : Inv m w.b w.live) :
    Inv m (step w a).b (step w a).live := by
  cases a with
  | alloc order =>
    dsimp only [step]
    split
    · exact inv
    · rename_i heq
      exact alloc_some hm inv heq
  | free seg order =>
    obtain ⟨b', log, heq, hinv, -, -⟩ := free_some hm inv hok
    dsimp only [step] at heq ⊢
    rw [heq]
    exact hinv

/-- RUN: from the new allocator on. -/
theorem reach_inv (hm : m < 32) (h : Reach step ok (start m) w) : Inv m w.b w.live :=
  @Reach.invariant _ _ step ok (start m) w (fun w => Inv m w.b w.live) h (newBuddy_inv m)
    fun _ a hok hinv => step_inv hm a hok hinv

/-- CORRECT: in every state of every run each unit is in exactly one free or allocated block, no two
    free blocks are buddies, the counters count the bits, and an allocated block is aligned. An
    allocation fails exactly when there is no free block of its order or a larger one. A free stays in
    the bitmaps, but for one read of the bit after the one bit of the top order, which happens exactly
    when the last allocated block is freed. With nothing allocated the allocator is as it was built. -/
theorem buddy_partition {m : ℕ} (hm : m < 32) {w : World} (h : Reach step ok (start m) w) :
    (∀ u < 2 ^ m, blocksAt m w.b.bitmap u + liveAt w.live u = 1) ∧
      (∀ o s, w.b.bitmap o s = true →
        o ≤ m ∧ s < 2 ^ (m - o) ∧ w.b.bitmap o (s ^^^ 1) = false) ∧
      (∀ o, w.b.numFree o = setBits (w.b.bitmap o) (2 ^ (m - o))) ∧
      (∀ p ∈ w.live, p.2 ≤ m ∧ 2 ^ p.2 ∣ p.1 ∧ p.1 + 2 ^ p.2 ≤ 2 ^ m) ∧
      (∀ order, mlx5drBuddyAllocMem w.b order = none ↔
        ∀ o s, order ≤ o → w.b.bitmap o s = false) ∧
      (∀ p ∈ w.live, ∃ b log, mlx5drBuddyFreeMem w.b p.1 p.2 = some (b, log) ∧
        (∀ t ∈ log, t.inside m ∨ t = topRead m) ∧ (topRead m ∈ log ↔ w.live = [p])) ∧
      (w.live = [] → w.b = newBuddy m) := by
  have inv := reach_inv hm h
  refine ⟨inv.tile, fun o s hbit => ?_, inv.count, fun p hp => ?_,
    fun order => alloc_none hm inv.toBitsInv, fun p hp => ?_, fun hnil => ?_⟩
  · obtain ⟨ho, hs⟩ := inv.range o s hbit
    exact ⟨ho, hs, inv.buddies o s hbit⟩
  · have hle := (inv.liveOk p hp).le
    obtain ⟨ho, s, -, hseg⟩ := inv.liveOk p hp
    exact ⟨ho, ⟨s, by rw [hseg, Nat.mul_comm]⟩, hle⟩
  · obtain ⟨b, log, heq, -, hlog, htop⟩ := free_some hm inv hp
    exact ⟨b, log, heq, hlog, htop⟩
  · exact restored (hnil ▸ inv)

/-- Two blocks of an area of four units, allocated and freed. -/
theorem buddy_partition_two :
    ([Act.alloc 0, .alloc 1, .free 0 0, .free 2 1].foldl step (start 2)).b = newBuddy 2 :=
  (buddy_partition (m := 2) (by decide) (Reach.start.runs (by decide))).2.2.2.2.2.2 (by decide)

/-- The whole area is allocated and freed: a read of the second bit of a one-bit bitmap. -/
theorem buddy_top_read : ∃ w, Reach step ok (start 2) w ∧ (0, 2) ∈ w.live ∧
    ∃ b log, mlx5drBuddyFreeMem w.b 0 2 = some (b, log) ∧ ¬ ∀ t ∈ log, t.inside 2 :=
  ⟨_, Reach.start.runs (l := [.alloc 2]) (by decide), by decide, _, _, rfl, fun h =>
    absurd (h ⟨2, 1, false⟩ (by decide)).2 (by decide)⟩

variable {o s : ℕ}

/-- No allocated block meets block `s` of order `o`. -/
def Vacant (live : List (ℕ × ℕ)) (o s : ℕ) : Prop := ∀ u, u / 2 ^ o = s → liveAt live u = 0

/-- A unit of a block of the area is a unit of the area. -/
theorem unit_lt (ho : o ≤ m) (hs : s < 2 ^ (m - o)) {u : ℕ} (hu : u / 2 ^ o = s) : u < 2 ^ m := by
  rw [← hu, Nat.div_lt_iff_lt_mul (two_pow_pos o), ← pow_add, Nat.sub_add_cancel ho] at hs
  exact hs

theorem Inv.vacant (inv : Inv m b live) (hbit : b.bitmap o s = true) : Vacant live o s := by
  obtain ⟨ho, hs⟩ := inv.range o s hbit
  intro u hu
  have htile := inv.tile u (unit_lt ho hs hu)
  have hpos := @blocksAt_pos m o u b.bitmap ho (by rwa [hu])
  omega

/-- A vacant block lies in a free one. -/
theorem Inv.free_of_vacant (inv : Inv m b live) (ho : o ≤ m) (hs : s < 2 ^ (m - o))
    (hv : Vacant live o s) : ∃ k, o + k ≤ m ∧ b.bitmap (o + k) (s / 2 ^ k) = true :=
  exists_block inv.buddies o s fun u hu => by
    have htile := inv.tile u (unit_lt ho hs hu)
    have hnone := hv u hu
    omega

/-- MAXIMAL: the free blocks are the largest vacant ones. -/
theorem Inv.free_iff (hm : m < 32) (inv : Inv m b live) : b.bitmap o s = true ↔
    o ≤ m ∧ s < 2 ^ (m - o) ∧ Vacant live o s ∧ (o < m → ¬ Vacant live (o + 1) (s / 2)) := by
  constructor
  · intro hbit
    obtain ⟨ho, hs⟩ := inv.range o s hbit
    refine ⟨ho, hs, inv.vacant hbit, fun hlt hv => ?_⟩
    have hs' : s / 2 < 2 ^ (m - (o + 1)) := by
      rw [show m - o = m - (o + 1) + 1 by omega, pow_succ] at hs
      omega
    obtain ⟨k, hk, hbit'⟩ := inv.free_of_vacant hlt hs' hv
    -- the first unit would lie in two free blocks
    obtain ⟨hu, hdiv⟩ := first_unit ho hs
    have hnone := (inv.take hm hbit').alone ho hu (by
      rw [pow_add, pow_succ, ← Nat.div_div_eq_div_mul, ← Nat.div_div_eq_div_mul, hdiv])
    rw [(setBit_ne false (by omega)).symm.trans hnone] at hbit
    cases hbit
  · rintro ⟨ho, hs, hv, hmax⟩
    obtain ⟨_ | k, hk, hbit⟩ := inv.free_of_vacant ho hs hv
    · rwa [Nat.pow_zero, Nat.div_one] at hbit
    · -- the free block is larger, and vacant
      refine absurd (fun u hu => inv.vacant hbit u ?_) (hmax (by omega))
      rw [← Nat.add_assoc, Nat.add_right_comm, pow_add, ← Nat.div_div_eq_div_mul, hu,
        Nat.div_div_eq_div_mul, ← Nat.pow_succ']

/-- CORRECT: in every state of every run the free blocks are the largest vacant ones, so that the
    allocator depends on what is allocated alone: two runs that end with the same blocks, in whatever
    order these and others came and went, end with the same allocator. -/
theorem buddy_history (hm : m < 32) (h : Reach step ok (start m) w) :
    (∀ o s, w.b.bitmap o s = true ↔ o ≤ m ∧ s < 2 ^ (m - o) ∧ Vacant w.live o s ∧
      (o < m → ¬ Vacant w.live (o + 1) (s / 2))) ∧
    ∀ w', Reach step ok (start m) w' → w'.live.Perm w.live → w'.b = w.b := by
  have inv := reach_inv hm h
  refine ⟨fun o s => inv.free_iff hm, fun w' h' hperm => ?_⟩
  have inv' := (reach_inv hm h').perm hperm
  have hbits : w'.b.bitmap = w.b.bitmap := by
    funext o s
    rw [Bool.eq_iff_iff, inv.free_iff hm, inv'.free_iff hm]
  have hnum : w'.b.numFree = w.b.numFree := by
    funext o
    rw [inv'.count, inv.count, hbits]
  have hmax := inv'.max.trans inv.max.symm
  obtain ⟨⟨_, _, _⟩, _⟩ := w'
  obtain ⟨⟨_, _, _⟩, _⟩ := w
  dsimp only at hmax hbits hnum ⊢
  rw [hmax, hbits, hnum]

theorem buddy_history_two : ([Act.alloc 0, .alloc 1, .free 0 0, .alloc 0].foldl step (start 2)).b =
    ([Act.alloc 0, .alloc 1].foldl step (start 2)).b :=
  (buddy_history (m := 2) (by decide) (Reach.start.runs (by decide))).2 _
    (Reach.start.runs (by decide)) (by decide)

end Runs

end RdmaDriver.DrBuddy
