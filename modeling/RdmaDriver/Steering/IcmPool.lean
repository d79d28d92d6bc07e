import RdmaDriver.Basic
import RdmaDriver.Schemes.Run
import RdmaDriver.Steering.Buddy

/-! @src mlx5/core/steering/dr_icm_pool.c | name:ICM pool with hot chunks | scheme:run | family:allocator

    Chunks come from a list of buddy allocators. A freed chunk is hot: hardware may still use it. It
    waits in an array until a sync command has been executed, which is issued when the hot chunks have
    more than a percentage of one buddy. The array has room for as many of the smallest chunks as fit
    in the threshold, and for one more; a sync that fails leaves the array as it is.

        live --free--> hot --sync--> buddy --alloc--> live -/

namespace RdmaDriver.DrIcmPool
open Schemes Function
open DrBuddy (Buddy newBuddy mlx5drBuddyInit mlx5drBuddyAllocMem mlx5drBuddyFreeMem shl Apart)
open List (map_cons mem_cons mem_cons_of_mem mem_cons_self mem_filter mem_map)

/-- `enum mlx5dr_icm_type`. -/
inductive IcmType where
  | ste | modifyAction | modifyHdrPtrn
  deriving DecidableEq

/-- `mlx5dr_icm_pool_dm_type_to_entry_size`. -/
def dmTypeToEntrySize : IcmType → ℕ
  | .ste => 64
  | _ => 8

/-- `mlx5dr_icm_pool_chunk_size_to_entries`. -/
def chunkSizeToEntries (chunkSize : ℕ) : ℕ := shl 1 chunkSize

/-- `mlx5dr_icm_pool_chunk_size_to_byte`. -/
def chunkSizeToByte (chunkSize : ℕ) (icmType : IcmType) : ℕ :=
  dmTypeToEntrySize icmType * chunkSizeToEntries chunkSize % 2 ^ 32

/-- The capabilities that bound the size of a buddy. -/
structure Caps where
  logIcmSize : ℕ
  logModifyPatternIcmSize : ℕ

/-- The `max_log_*_icm_sz` that `mlx5dr_domain_create` sets for a pool. -/
def maxLogIcmSz (caps : Caps) : IcmType → ℕ
  | .ste => min 20 caps.logIcmSize
  | .modifyAction => 12
  | .modifyHdrPtrn => min 12 caps.logModifyPatternIcmSize

/-- `DR_ICM_POOL_*_HOT_MEM_PERCENT`. -/
def hotMemPercent : IcmType → ℕ
  | .ste => 25
  | .modifyAction => 90
  | .modifyHdrPtrn => 50

/-- The `max_hot_size` of `mlx5dr_icm_pool_create`. -/
def maxHotSize (maxLogChunkSz : ℕ) (icmType : IcmType) : ℕ :=
  chunkSizeToByte maxLogChunkSz icmType * hotMemPercent icmType % 2 ^ 32 / 100

/-- `a += b` on a `u64`. -/
def addU64 (a b : ℕ) : ℕ := (a + b) % 2 ^ 64

/-- `a -= b` on a `u64`. -/
def subU64 (a b : ℕ) : ℕ := (a + (2 ^ 64 - b)) % 2 ^ 64

/-- `struct mlx5dr_icm_chunk` and `struct mlx5dr_icm_hot_chunk`. A buddy is given by its place. -/
structure Chunk where
  buddyMem : ℕ
  seg : ℕ
  size : ℕ
  deriving DecidableEq

/-- `struct mlx5dr_icm_buddy_mem`. -/
structure BuddyMem where
  buddy : Buddy
  usedMemory : ℕ

/-- `struct mlx5dr_icm_pool`: `mem` is what is at a place, `next` the first place never used, and
    `hot_chunks_arr` the entries in use of an array with `num_of_chunks`. -/
structure Pool where
  icmType : IcmType
  maxLogChunkSz : ℕ
  mem : ℕ → BuddyMem
  next : ℕ
  buddyMemList : List ℕ
  hotChunksArr : List Chunk
  numOfChunks : ℕ
  hotMemorySize : ℕ
  th : ℕ

/-- The new content of a place. -/
def Pool.put (pool : Pool) (id : ℕ) (bm : BuddyMem) : Pool :=
  { pool with mem := update pool.mem id bm }

/-- The pool after `mlx5dr_icm_pool_create`. -/
def newPool (maxLogChunkSz : ℕ) (icmType : IcmType) : Pool where
  icmType := icmType
  maxLogChunkSz := maxLogChunkSz
  mem := fun _ => ⟨newBuddy 0, 0⟩
  next := 0
  buddyMemList := []
  hotChunksArr := []
  numOfChunks :=
    divRoundUp (maxHotSize maxLogChunkSz icmType) (dmTypeToEntrySize icmType) + 1
  hotMemorySize := 0
  th := maxHotSize maxLogChunkSz icmType

/-- `dr_icm_buddy_create`; `createOk` is false when any of its allocations or commands fails. -/
def drIcmBuddyCreate (pool : Pool) (createOk : Bool) : Option Pool :=
  match mlx5drBuddyInit pool.maxLogChunkSz createOk with
  | none => none
  | some b =>
    some { pool.put pool.next ⟨b, 0⟩ with
      next := pool.next + 1
      buddyMemList := pool.next :: pool.buddyMemList }

/-- `mlx5dr_buddy_free_mem` on a buddy. -/
def buddyFreeMem (b : Buddy) (seg order : ℕ) : Buddy :=
  match mlx5drBuddyFreeMem b seg order with
  | none => b
  | some (b, _) => b

/-- The loop of `dr_icm_handle_buddies_get_mem`: the first buddy with a free segment. -/
def firstFit (mem : ℕ → BuddyMem) (chunkSize : ℕ) : List ℕ → Option (ℕ × Buddy × ℕ)
  | [] => none
  | id :: l =>
    match mlx5drBuddyAllocMem (mem id).buddy chunkSize with
    | some (b, seg) => some (id, b, seg)
    | none => firstFit mem chunkSize l

/-- `dr_icm_handle_buddies_get_mem`: the buddy and the segment. In the second round only the new
    buddy, the first in the list, is tried. -/
def drIcmHandleBuddiesGetMem (pool : Pool) (chunkSize : ℕ) (createOk : Bool) :
    Pool × Option (ℕ × ℕ) :=
  match firstFit pool.mem chunkSize pool.buddyMemList with
  | some (id, b, seg) => (pool.put id { pool.mem id with buddy := b }, some (id, seg))
  | none =>
    match drIcmBuddyCreate pool createOk with
    | none => (pool, none)
    | some pool =>
      match firstFit pool.mem chunkSize (pool.buddyMemList.take 1) with
      | some (id, b, seg) => (pool.put id { pool.mem id with buddy := b }, some (id, seg))
      | none => (pool, none)

/-- `dr_icm_chunk_init`, the part of the pool. -/
def drIcmChunkInit (pool : Pool) (c : Chunk) : Pool :=
  pool.put c.buddyMem { pool.mem c.buddyMem with
    usedMemory := addU64 (pool.mem c.buddyMem).usedMemory
      (chunkSizeToByte c.size pool.icmType) }

/-- `mlx5dr_icm_alloc_chunk`. -/
def mlx5drIcmAllocChunk (pool : Pool) (chunkSize : ℕ) (createOk chunkOk : Bool) :
    Pool × Option Chunk :=
  if pool.maxLogChunkSz < chunkSize then (pool, none)
  else
    match drIcmHandleBuddiesGetMem pool chunkSize createOk with
    | (pool, none) => (pool, none)
    | (pool, some (id, seg)) =>
      if chunkOk then (drIcmChunkInit pool ⟨id, seg, chunkSize⟩, some ⟨id, seg, chunkSize⟩)
      else
        (pool.put id { pool.mem id with
          buddy := buddyFreeMem (pool.mem id).buddy seg chunkSize }, none)

/-- The body of the loop of `dr_icm_pool_clear_hot_chunks_arr`. -/
def clearHotChunk (pool : Pool) (c : Chunk) : Pool :=
  pool.put c.buddyMem
    ⟨buddyFreeMem (pool.mem c.buddyMem).buddy c.seg (Nat.log2 (chunkSizeToEntries c.size)),
      subU64 (pool.mem c.buddyMem).usedMemory (chunkSizeToByte c.size pool.icmType)⟩

/-- `dr_icm_pool_clear_hot_chunks_arr`. -/
def drIcmPoolClearHotChunksArr (pool : Pool) : Pool :=
  { pool.hotChunksArr.foldl clearHotChunk pool with hotChunksArr := [], hotMemorySize := 0 }

/-- The last loop of `dr_icm_pool_sync_all_buddy_pools`. -/
def destroyUnused (pool : Pool) : Pool :=
  { pool with
    buddyMemList := pool.buddyMemList.filter fun id =>
      !(decide ((pool.mem id).usedMemory = 0) && decide (pool.icmType = .ste)) }

/-- `dr_icm_pool_sync_all_buddy_pools`; `syncOk` is the result of the command. -/
def drIcmPoolSyncAllBuddyPools (pool : Pool) (syncOk : Bool) : Pool :=
  if syncOk then destroyUnused (drIcmPoolClearHotChunksArr pool) else pool

/-- The new entry of `hot_chunks_arr`. -/
def addHotChunk (pool : Pool) (c : Chunk) : Pool :=
  { pool with
    hotChunksArr := pool.hotChunksArr ++ [c]
    hotMemorySize := addU64 pool.hotMemorySize (chunkSizeToByte c.size pool.icmType) }

/-- `mlx5dr_icm_free_chunk`. -/
def mlx5drIcmFreeChunk (pool : Pool) (c : Chunk) (syncOk : Bool) : Pool :=
  if (addHotChunk pool c).th < (addHotChunk pool c).hotMemorySize then
    drIcmPoolSyncAllBuddyPools (addHotChunk pool c) syncOk
  else addHotChunk pool c

/-! ### Sizes -/

section Sizes

variable {ty : IcmType} {m k a b : ℕ}

theorem maxLogIcmSz_le (caps : Caps) (ty : IcmType) :
    maxLogIcmSz caps ty ≤ 20 ∧ (ty ≠ .ste → maxLogIcmSz caps ty ≤ 12) := by
  cases ty <;> unfold maxLogIcmSz <;> simp

theorem entrySize_pos (ty : IcmType) : 0 < dmTypeToEntrySize ty := by
  cases ty <;> decide

theorem entrySize_le (ty : IcmType) : dmTypeToEntrySize ty ≤ 64 := by
  cases ty <;> decide

theorem entries_eq (hk : k ≤ 20) : chunkSizeToEntries k = 2 ^ k := by
  have hpow : 2 ^ k ≤ 2 ^ 20 := Nat.pow_le_pow_right (by norm_num) hk
  unfold chunkSizeToEntries shl
  omega

theorem byte_eq (hk : k ≤ 20) : chunkSizeToByte k ty = dmTypeToEntrySize ty * 2 ^ k := by
  have hpow : 2 ^ k ≤ 2 ^ 20 := Nat.pow_le_pow_right (by norm_num) hk
  have hmul : dmTypeToEntrySize ty * 2 ^ k ≤ 64 * 2 ^ 20 := Nat.mul_le_mul (entrySize_le ty) hpow
  unfold chunkSizeToByte
  rw [entries_eq hk]
  exact Nat.mod_eq_of_lt (by omega)

theorem entrySize_le_byte (hk : k ≤ 20) : dmTypeToEntrySize ty ≤ chunkSizeToByte k ty := by
  rw [byte_eq hk]
  exact Nat.le_mul_of_pos_right _ (Nat.two_pow_pos k)

theorem byte_le (hk : k ≤ 20) : chunkSizeToByte k ty ≤ 2 ^ 26 := by
  have hpow : 2 ^ k ≤ 2 ^ 20 := Nat.pow_le_pow_right (by norm_num) hk
  rw [byte_eq hk]
  exact (Nat.mul_le_mul (entrySize_le ty) hpow).trans (by norm_num)

theorem addU64_eq (h : a + b < 2 ^ 64) : addU64 a b = a + b := Nat.mod_eq_of_lt h

theorem subU64_eq (h : a + b < 2 ^ 64) : subU64 (a + b) b = a := by
  unfold subU64
  omega

end Sizes

/-! ### What the buddies hold -/

/-- The chunks of a buddy. -/
def chunksOf (id : ℕ) (l : List Chunk) : List Chunk := l.filter fun c => c.buddyMem = id

/-- Its blocks, pairs of segment and order. -/
def blocksOf (id : ℕ) (l : List Chunk) : List (ℕ × ℕ) :=
  (chunksOf id l).map fun c => (c.seg, c.size)

/-- The bytes of chunks. -/
def bytesOf (ty : IcmType) (l : List Chunk) : ℕ :=
  (l.map fun c => chunkSizeToByte c.size ty).sum

/-- The buddies of the list have handed out `area` and count the bytes of `used`. -/
structure Owned (pool : Pool) (area used : List Chunk) : Prop where
  maxLe : pool.maxLogChunkSz ≤ 20
  nodup : pool.buddyMemList.Nodup
  fresh : ∀ id ∈ pool.buddyMemList, id < pool.next
  listed : ∀ c ∈ area, c.buddyMem ∈ pool.buddyMemList
  sub : ∀ c ∈ used, c ∈ area
  areas : ∀ id ∈ pool.buddyMemList,
    DrBuddy.Inv pool.maxLogChunkSz (pool.mem id).buddy (blocksOf id area)
  bytes : ∀ id ∈ pool.buddyMemList,
    (pool.mem id).usedMemory = bytesOf pool.icmType (chunksOf id used)

section Lists

variable {id : ℕ} {c : Chunk} {l l' : List Chunk} {ty : IcmType}

theorem chunksOf_cons_self : chunksOf c.buddyMem (c :: l) = c :: chunksOf c.buddyMem l :=
  List.filter_cons_of_pos (by simp)

theorem chunksOf_cons_ne (h : c.buddyMem ≠ id) : chunksOf id (c :: l) = chunksOf id l :=
  List.filter_cons_of_neg (by simpa using h)

theorem chunksOf_perm (h : l.Perm l') : (chunksOf id l).Perm (chunksOf id l') := h.filter _

theorem bytesOf_perm (h : l.Perm l') : bytesOf ty l = bytesOf ty l' := (h.map _).sum_eq

theorem bytesOf_cons : bytesOf ty (c :: l) = chunkSizeToByte c.size ty + bytesOf ty l := by
  simp [bytesOf]

theorem bytesOf_append : bytesOf ty (l ++ l') = bytesOf ty l + bytesOf ty l' := by
  simp [bytesOf]

theorem bytesOf_pos (h : c ∈ l) (hsize : c.size ≤ 20) : 0 < bytesOf ty l := by
  have hle := List.le_sum_of_mem (List.mem_map_of_mem (f := fun c => chunkSizeToByte c.size ty) h)
  have hpos := entrySize_pos ty
  have hentry := @entrySize_le_byte ty _ hsize
  unfold bytesOf
  omega

theorem bytesOf_eq : ∀ {l : List Chunk}, (∀ c ∈ l, c.size ≤ 20) →
    bytesOf ty l = dmTypeToEntrySize ty * (l.map fun c => 2 ^ c.size).sum
  | [], _ => rfl
  | c :: l, h => by
    rw [bytesOf_cons, bytesOf_eq fun d hd => h d (mem_cons_of_mem c hd),
      byte_eq (h c mem_cons_self), map_cons, List.sum_cons, Nat.mul_add]

/-- Each chunk has at least one entry. -/
theorem length_le_bytesOf : ∀ {l : List Chunk}, (∀ c ∈ l, c.size ≤ 20) →
    l.length * dmTypeToEntrySize ty ≤ bytesOf ty l ∧ bytesOf ty l ≤ l.length * 2 ^ 26
  | [], _ => by simp [bytesOf]
  | c :: l, h => by
    obtain ⟨hlow, hhigh⟩ := length_le_bytesOf fun d hd => h d (mem_cons_of_mem c hd)
    have hentry := @entrySize_le_byte ty _ (h c mem_cons_self)
    have hbyte := @byte_le ty _ (h c mem_cons_self)
    rw [bytesOf_cons, List.length_cons, Nat.succ_mul, Nat.succ_mul]
    omega

end Lists

section Owned

variable {pool pool' : Pool} {area used : List Chunk} {c : Chunk} {id seg size : ℕ}

theorem Owned.size_le (own : Owned pool area used) (h : c ∈ area) :
    c.size ≤ pool.maxLogChunkSz := by
  have hmem : (c.seg, c.size) ∈ blocksOf c.buddyMem area :=
    mem_map.mpr ⟨c, mem_filter.mpr ⟨h, by simp⟩, rfl⟩
  exact ((own.areas _ (own.listed c h)).liveOk _ hmem).1

theorem Owned.perm (own : Owned pool area used) {area' used' : List Chunk} (ha : area.Perm area')
    (hu : used.Perm used') : Owned pool area' used' :=
  ⟨own.maxLe, own.nodup, own.fresh, fun c hc => own.listed c (ha.mem_iff.mpr hc),
    fun c hc => ha.mem_iff.mp (own.sub c (hu.mem_iff.mpr hc)),
    fun id hid => (own.areas id hid).perm ((chunksOf_perm ha).map _),
    fun id hid => (own.bytes id hid).trans (bytesOf_perm (chunksOf_perm hu))⟩

/-- The chunks of a buddy fit in a `u64`. -/
theorem Owned.bytes_le (own : Owned pool area used) (hid : id ∈ pool.buddyMemList) :
    bytesOf pool.icmType (chunksOf id area) ≤ 2 ^ 26 := by
  have htotal := (own.areas id hid).total_le
  rw [blocksOf, List.map_map] at htotal
  have hpow : 2 ^ pool.maxLogChunkSz ≤ 2 ^ 20 := Nat.pow_le_pow_right (by norm_num) own.maxLe
  have hsize : ∀ c ∈ chunksOf id area, c.size ≤ 20 := fun c hc =>
    (own.size_le (List.mem_of_mem_filter hc)).trans own.maxLe
  rw [bytesOf_eq hsize]
  exact (Nat.mul_le_mul (entrySize_le _) (htotal.trans hpow)).trans (by norm_num)

theorem firstFit_some {mem : ℕ → BuddyMem} {b : Buddy} : ∀ {l : List ℕ},
    firstFit mem size l = some (id, b, seg) →
      id ∈ l ∧ mlx5drBuddyAllocMem (mem id).buddy size = some (b, seg)
  | [], h => by cases h
  | _ :: l, h => by
    unfold firstFit at h
    split at h
    · rename_i heq
      cases h
      exact ⟨mem_cons_self, heq⟩
    · obtain ⟨hid, heq⟩ := firstFit_some h
      exact ⟨mem_cons_of_mem _ hid, heq⟩

/-- STEP: a new buddy. -/
theorem Owned.create (own : Owned pool area used) {createOk : Bool}
    (h : drIcmBuddyCreate pool createOk = some pool') : Owned pool' area used := by
  unfold drIcmBuddyCreate mlx5drBuddyInit at h
  split at h
  · cases h
  · rename_i b hb
    split at hb
    · cases hb
      cases h
      have hnew : pool.next ∉ pool.buddyMemList := fun hc => (own.fresh _ hc).false
      have hne : ∀ id ∈ pool.buddyMemList, id ≠ pool.next := fun id hid hc => hnew (hc ▸ hid)
      have hnone (l : List Chunk) (hl : ∀ c ∈ l, c ∈ area) : chunksOf pool.next l = [] := by
        refine List.filter_eq_nil_iff.mpr fun c hc => ?_
        simp only [decide_eq_true_eq]
        intro heq
        exact hnew (heq ▸ own.listed c (hl c hc))
      refine ⟨own.maxLe, List.nodup_cons.mpr ⟨hnew, own.nodup⟩, fun id hid => ?_,
        fun c hc => mem_cons_of_mem _ (own.listed c hc), own.sub, fun id hid => ?_,
        fun id hid => ?_⟩
      · rcases mem_cons.mp hid with rfl | hid
        · exact Nat.lt_succ_self _
        · exact Nat.lt_succ_of_lt (own.fresh id hid)
      · change DrBuddy.Inv _ (update pool.mem pool.next ⟨_, 0⟩ id).buddy _
        rcases mem_cons.mp hid with rfl | hid
        · rw [update_self, blocksOf, hnone area fun _ hc => hc]
          exact DrBuddy.newBuddy_inv _
        · rw [update_of_ne (hne id hid)]
          exact own.areas id hid
      · change (update pool.mem pool.next ⟨_, 0⟩ id).usedMemory = _
        rcases mem_cons.mp hid with rfl | hid
        · rw [update_self]
          rw [hnone used own.sub]
          rfl
        · rw [update_of_ne (hne id hid)]
          exact own.bytes id hid
    · cases hb

/-- STEP: a segment of a buddy is handed out. -/
theorem Owned.segment (own : Owned pool area used) {b : Buddy} (hid : id ∈ pool.buddyMemList)
    (h : mlx5drBuddyAllocMem (pool.mem id).buddy size = some (b, seg)) :
    Owned (pool.put id { pool.mem id with buddy := b }) (⟨id, seg, size⟩ :: area) used := by
  have hmax := own.maxLe
  refine ⟨own.maxLe, own.nodup, own.fresh, fun c hc => ?_,
    fun c hc => mem_cons_of_mem _ (own.sub c hc), fun id' hid' => ?_, fun id' hid' => ?_⟩
  · rcases mem_cons.mp hc with rfl | hc
    · exact hid
    · exact own.listed c hc
  · change DrBuddy.Inv _ (update pool.mem id _ id').buddy _
    by_cases heq : id = id'
    · subst heq
      rw [update_self, blocksOf, chunksOf_cons_self (c := ⟨id, seg, size⟩)]
      exact DrBuddy.alloc_some (by omega) (own.areas id hid) h
    · rw [update_of_ne (Ne.symm heq), blocksOf, chunksOf_cons_ne heq]
      exact own.areas id' hid'
  · change (update pool.mem id _ id').usedMemory = _
    by_cases heq : id = id'
    · subst heq
      rw [update_self]
      exact own.bytes id hid
    · rw [update_of_ne (Ne.symm heq)]
      exact own.bytes id' hid'

/-- STEP: the bytes of the segment are counted. -/
theorem Owned.count (own : Owned pool (c :: area) area) :
    Owned (drIcmChunkInit pool c) (c :: area) (c :: area) := by
  have hid := own.listed c mem_cons_self
  refine { own with
      sub := fun _ hc => hc, areas := fun id' hid' => ?_, bytes := fun id' hid' => ?_ }
  · change DrBuddy.Inv _ (update pool.mem c.buddyMem _ id').buddy _
    by_cases heq : c.buddyMem = id'
    · subst heq
      rw [update_self]
      exact own.areas _ hid
    · rw [update_of_ne (Ne.symm heq)]
      exact own.areas id' hid'
  · change (update pool.mem c.buddyMem _ id').usedMemory = bytesOf pool.icmType _
    by_cases heq : c.buddyMem = id'
    · subst heq
      have hle := own.bytes_le hid
      rw [chunksOf_cons_self, bytesOf_cons] at hle
      rw [update_self, chunksOf_cons_self, bytesOf_cons]
      rw [own.bytes _ hid, addU64_eq (by omega), Nat.add_comm]
    · rw [update_of_ne (Ne.symm heq), chunksOf_cons_ne heq]
      exact own.bytes id' hid'

theorem Owned.area_free (own : Owned pool (c :: area) used) :
    DrBuddy.Inv pool.maxLogChunkSz (buddyFreeMem (pool.mem c.buddyMem).buddy c.seg c.size)
      (blocksOf c.buddyMem area) := by
  have hmax := own.maxLe
  have inv := own.areas _ (own.listed c mem_cons_self)
  rw [blocksOf, chunksOf_cons_self, map_cons] at inv
  obtain ⟨b, log, heq, hinv, -, -⟩ := DrBuddy.free_some (by omega) inv mem_cons_self
  rw [List.erase_cons_head] at hinv
  unfold buddyFreeMem
  rw [heq]
  exact hinv

/-- STEP: the segment is given back when there is no memory for the chunk. -/
theorem Owned.undo (own : Owned pool (c :: area) area) :
    Owned (pool.put c.buddyMem { pool.mem c.buddyMem with
      buddy := buddyFreeMem (pool.mem c.buddyMem).buddy c.seg c.size }) area area := by
  refine ⟨own.maxLe, own.nodup, own.fresh, fun d hd => own.listed d (mem_cons_of_mem c hd),
    fun _ hc => hc, fun id' hid' => ?_, fun id' hid' => ?_⟩
  · change DrBuddy.Inv _ (update pool.mem c.buddyMem _ id').buddy _
    by_cases heq : c.buddyMem = id'
    · subst heq
      rw [update_self]
      exact own.area_free
    · have inv := own.areas id' hid'
      rw [blocksOf, chunksOf_cons_ne heq] at inv
      rw [update_of_ne (Ne.symm heq)]
      exact inv
  · change (update pool.mem c.buddyMem _ id').usedMemory = _
    by_cases heq : c.buddyMem = id'
    · subst heq
      rw [update_self]
      exact own.bytes _ hid'
    · rw [update_of_ne (Ne.symm heq)]
      exact own.bytes id' hid'

/-- STEP: a hot chunk goes back to its buddy. -/
theorem Owned.clear (own : Owned pool (c :: area) (c :: area)) :
    Owned (clearHotChunk pool c) area area := by
  have hsize := (own.size_le mem_cons_self).trans own.maxLe
  refine ⟨own.maxLe, own.nodup, own.fresh, fun d hd => own.listed d (mem_cons_of_mem c hd),
    fun _ hc => hc, fun id' hid' => ?_, fun id' hid' => ?_⟩
  · change DrBuddy.Inv _ (update pool.mem c.buddyMem _ id').buddy _
    by_cases heq : c.buddyMem = id'
    · subst heq
      rw [update_self]
      rw [entries_eq hsize, Nat.log2_two_pow]
      exact own.area_free
    · have inv := own.areas id' hid'
      rw [blocksOf, chunksOf_cons_ne heq] at inv
      rw [update_of_ne (Ne.symm heq)]
      exact inv
  · change (update pool.mem c.buddyMem _ id').usedMemory = bytesOf pool.icmType _
    by_cases heq : c.buddyMem = id'
    · subst heq
      have hle := own.bytes_le hid'
      have hused := own.bytes _ hid'
      rw [chunksOf_cons_self, bytesOf_cons, Nat.add_comm] at hle hused
      rw [update_self]
      rw [hused, subU64_eq (by omega)]
    · have hused := own.bytes id' hid'
      rw [chunksOf_cons_ne heq] at hused
      rw [update_of_ne (Ne.symm heq)]
      exact hused

/-- RUN: all hot chunks go back. -/
theorem Owned.clear_all : ∀ {hot : List Chunk} {pool : Pool},
    Owned pool (hot ++ area) (hot ++ area) → Owned (hot.foldl clearHotChunk pool) area area
  | [], _, own => own
  | _ :: hot, _, own => @Owned.clear_all hot _ own.clear

/-- STEP: no buddy with chunks is destroyed. -/
theorem Owned.destroy (own : Owned pool area area) : Owned (destroyUnused pool) area area := by
  have hmem : ∀ id ∈ (destroyUnused pool).buddyMemList, id ∈ pool.buddyMemList :=
    fun id hid => List.mem_of_mem_filter hid
  refine ⟨own.maxLe, own.nodup.filter _, fun id hid => own.fresh id (hmem id hid), fun c hc => ?_,
    fun _ hc => hc, fun id hid => own.areas id (hmem id hid),
    fun id hid => own.bytes id (hmem id hid)⟩
  have hid := own.listed c hc
  have hpos := @bytesOf_pos c (chunksOf c.buddyMem area) pool.icmType
    (mem_filter.mpr ⟨hc, by simp⟩) ((own.size_le hc).trans own.maxLe)
  refine mem_filter.mpr ⟨hid, ?_⟩
  have hne : (pool.mem c.buddyMem).usedMemory ≠ 0 := by
    rw [own.bytes _ hid]
    exact hpos.ne'
  simp [hne]

/-- STEP: the search hands out one more segment or none. -/
theorem Owned.get (own : Owned pool area area) (createOk : Bool) :
    match drIcmHandleBuddiesGetMem pool size createOk with
    | (pool', some (id, seg)) => Owned pool' (⟨id, seg, size⟩ :: area) area
    | (pool', none) => Owned pool' area area := by
  unfold drIcmHandleBuddiesGetMem
  rcases hfit : firstFit pool.mem size pool.buddyMemList with _ | ⟨id, b, seg⟩
  · dsimp only
    rcases hnew : drIcmBuddyCreate pool createOk with _ | pool'
    · exact own
    · have own' := own.create hnew
      dsimp only
      rcases hfit' : firstFit pool'.mem size (pool'.buddyMemList.take 1) with _ | ⟨id, b, seg⟩
      · exact own'
      · obtain ⟨hid, heq⟩ := firstFit_some hfit'
        exact own'.segment (List.mem_of_mem_take hid) heq
  · obtain ⟨hid, heq⟩ := firstFit_some hfit
    exact own.segment hid heq

/-- An allocation hands out one more chunk or leaves everything with its owner. -/
theorem Owned.alloc (own : Owned pool area area) (createOk chunkOk : Bool) :
    match mlx5drIcmAllocChunk pool size createOk chunkOk with
    | (pool', some c) => Owned pool' (c :: area) (c :: area)
    | (pool', none) => Owned pool' area area := by
  have hget := @Owned.get pool area size own createOk
  unfold mlx5drIcmAllocChunk
  by_cases hsize : pool.maxLogChunkSz < size
  · rw [if_pos hsize]
    exact own
  · rw [if_neg hsize]
    rcases hres : drIcmHandleBuddiesGetMem pool size createOk with ⟨pool', _ | ⟨id, seg⟩⟩
    · rw [hres] at hget
      exact hget
    · rw [hres] at hget
      cases chunkOk
      · exact Owned.undo (c := ⟨id, seg, size⟩) hget
      · exact Owned.count (c := ⟨id, seg, size⟩) hget

end Owned

/-! ### Runs -/

/-- The pool and the chunks that its users hold. -/
structure World where
  pool : Pool
  live : List Chunk

/-- A call, with what its allocations and its command return. -/
inductive Act where
  | alloc (chunkSize : ℕ) (createOk chunkOk : Bool)
  | free (c : Chunk) (syncOk : Bool)

/-- One call. -/
def step (w : World) : Act → World
  | .alloc chunkSize createOk chunkOk =>
    match mlx5drIcmAllocChunk w.pool chunkSize createOk chunkOk with
    | (pool, some c) => ⟨pool, c :: w.live⟩
    | (pool, none) => ⟨pool, w.live⟩
  | .free c syncOk => ⟨mlx5drIcmFreeChunk w.pool c syncOk, w.live.erase c⟩

/-- Only what is held is freed. -/
def ok (w : World) : Act → Prop
  | .alloc .. => True
  | .free c _ => c ∈ w.live

/-- A free finds room in the array. -/
def room (w : World) (a : Act) : Prop :=
  ok w a ∧ match a with
    | .alloc .. => True
    | .free .. => w.pool.hotChunksArr.length < w.pool.numOfChunks

/-- The sync command of a free does not fail. -/
def synced (w : World) (a : Act) : Prop :=
  ok w a ∧ match a with
    | .alloc .. => True
    | .free _ syncOk => syncOk = true

instance (w : World) (a : Act) : Decidable (ok w a) := by
  cases a <;> unfold ok <;> infer_instance

instance (w : World) (a : Act) : Decidable (room w a) := by
  cases a <;> unfold room <;> infer_instance

/-- After `mlx5dr_icm_pool_create`. -/
def start (caps : Caps) (ty : IcmType) : World := ⟨newPool (maxLogIcmSz caps ty) ty, []⟩

/-- The fields that only a free writes, and the constants. -/
def SameHot (p q : Pool) : Prop :=
  q.icmType = p.icmType ∧ q.hotChunksArr = p.hotChunksArr ∧
    q.numOfChunks = p.numOfChunks ∧ q.hotMemorySize = p.hotMemorySize ∧ q.th = p.th

section Runs

variable {w : World} {caps : Caps} {ty : IcmType} {pool : Pool}

theorem create_sameHot {pool' : Pool} {createOk : Bool}
    (h : drIcmBuddyCreate pool createOk = some pool') : SameHot pool pool' := by
  unfold drIcmBuddyCreate at h
  split at h
  · cases h
  · cases h
    exact ⟨rfl, rfl, rfl, rfl, rfl⟩

theorem get_sameHot (size : ℕ) (createOk : Bool) :
    SameHot pool (drIcmHandleBuddiesGetMem pool size createOk).1 := by
  unfold drIcmHandleBuddiesGetMem
  split
  · exact ⟨rfl, rfl, rfl, rfl, rfl⟩
  · split
    · exact ⟨rfl, rfl, rfl, rfl, rfl⟩
    · rename_i hnew
      have hsame := create_sameHot hnew
      split
      · exact hsame
      · exact hsame

theorem alloc_sameHot (size : ℕ) (createOk chunkOk : Bool) :
    SameHot pool (mlx5drIcmAllocChunk pool size createOk chunkOk).1 := by
  have hget := @get_sameHot pool size createOk
  unfold mlx5drIcmAllocChunk
  by_cases hsize : pool.maxLogChunkSz < size
  · rw [if_pos hsize]
    exact ⟨rfl, rfl, rfl, rfl, rfl⟩
  · rw [if_neg hsize]
    rcases hres : drIcmHandleBuddiesGetMem pool size createOk with ⟨pool', _ | ⟨id, seg⟩⟩
    · rw [hres] at hget
      exact hget
    · rw [hres] at hget
      cases chunkOk
      · exact hget
      · exact hget

theorem clear_sameHot : ∀ (hot : List Chunk) (pool : Pool),
    SameHot pool (hot.foldl clearHotChunk pool)
  | [], _ => ⟨rfl, rfl, rfl, rfl, rfl⟩
  | c :: hot, pool => clear_sameHot hot (clearHotChunk pool c)

/-- What holds between two calls. -/
structure Inv (caps : Caps) (ty : IcmType) (w : World) : Prop where
  own : Owned w.pool (w.pool.hotChunksArr ++ w.live) (w.pool.hotChunksArr ++ w.live)
  type : w.pool.icmType = ty
  num : w.pool.numOfChunks =
    divRoundUp (maxHotSize (maxLogIcmSz caps ty) ty) (dmTypeToEntrySize ty) + 1
  threshold : w.pool.th = maxHotSize (maxLogIcmSz caps ty) ty
  capacity : w.pool.hotChunksArr.length ≤ w.pool.numOfChunks
  hotSize : w.pool.hotMemorySize = bytesOf ty w.pool.hotChunksArr

theorem start_inv (caps : Caps) (ty : IcmType) : Inv caps ty (start caps ty) :=
  ⟨⟨(maxLogIcmSz_le caps ty).1, .nil, fun _ h => (by cases h), fun _ h => (by cases h),
    fun _ h => h, fun _ h => (by cases h), fun _ h => (by cases h)⟩, rfl, rfl, rfl,
    Nat.zero_le _, rfl⟩

/-- STEP: an allocation leaves the array alone. -/
theorem Inv.alloc (inv : Inv caps ty w) (size : ℕ) (createOk chunkOk : Bool) :
    Inv caps ty (step w (.alloc size createOk chunkOk)) := by
  have hsame := @alloc_sameHot w.pool size createOk chunkOk
  have hown := @Owned.alloc _ _ size inv.own createOk chunkOk
  dsimp only [step]
  rcases hres : mlx5drIcmAllocChunk w.pool size createOk chunkOk with ⟨pool', _ | c⟩
  all_goals
    rw [hres] at hsame hown
    obtain ⟨htype, hhot, hnum, hsize, hth⟩ := hsame
  · refine ⟨hhot ▸ hown, htype.trans inv.type, hnum.trans inv.num, hth.trans inv.threshold, ?_, ?_⟩
    · rw [hhot, hnum]
      exact inv.capacity
    · rw [hhot, hsize]
      exact inv.hotSize
  · refine ⟨?_, htype.trans inv.type, hnum.trans inv.num, hth.trans inv.threshold, ?_, ?_⟩
    · rw [← hhot] at hown
      exact hown.perm List.perm_middle.symm List.perm_middle.symm
    · rw [hhot, hnum]
      exact inv.capacity
    · rw [hhot, hsize]
      exact inv.hotSize

/-- The capacity is small: the sizes of the hot chunks do not wrap. -/
theorem num_le (caps : Caps) (ty : IcmType) :
    divRoundUp (maxHotSize (maxLogIcmSz caps ty) ty) (dmTypeToEntrySize ty) + 1 ≤ 2 ^ 32 := by
  have hlt : maxHotSize (maxLogIcmSz caps ty) ty < 2 ^ 31 := by
    unfold maxHotSize
    omega
  have hle := entrySize_le ty
  have hdiv := Nat.div_le_self (maxHotSize (maxLogIcmSz caps ty) ty + dmTypeToEntrySize ty - 1)
    (dmTypeToEntrySize ty)
  unfold divRoundUp
  omega

section
variable (inv : Inv caps ty w)
include inv

/-- The new hot chunk. -/
theorem Inv.hot {c : Chunk} (hc : c ∈ w.live)
    (hroom : w.pool.hotChunksArr.length < w.pool.numOfChunks) :
    Inv caps ty ⟨addHotChunk w.pool c, w.live.erase c⟩ := by
  have hperm : (w.pool.hotChunksArr ++ w.live).Perm
      (w.pool.hotChunksArr ++ [c] ++ w.live.erase c) := by
    rw [List.append_assoc]
    exact (List.perm_cons_erase hc).append_left _
  have hown := inv.own.perm hperm hperm
  have hsize : ∀ d ∈ w.pool.hotChunksArr ++ [c], d.size ≤ 20 := fun d hd =>
    (hown.size_le (List.mem_append_left _ hd)).trans hown.maxLe
  refine ⟨{ hown with },
    inv.type, inv.num, inv.threshold, ?_, ?_⟩
  · change (w.pool.hotChunksArr ++ [c]).length ≤ w.pool.numOfChunks
    rw [List.length_append]
    exact hroom
  · change addU64 w.pool.hotMemorySize (chunkSizeToByte c.size w.pool.icmType) =
      bytesOf ty (w.pool.hotChunksArr ++ [c])
    have hbytes := (@length_le_bytesOf ty _ hsize).2
    have hnum := num_le caps ty
    have hlen : (w.pool.hotChunksArr ++ [c]).length ≤ 2 ^ 32 := by
      rw [List.length_append]
      have := inv.num
      change _ + 1 ≤ _
      omega
    have hsum : bytesOf ty (w.pool.hotChunksArr ++ [c]) =
        bytesOf ty w.pool.hotChunksArr + chunkSizeToByte c.size ty := by
      rw [bytesOf_append, bytesOf_cons]
      rfl
    rw [hsum] at hbytes ⊢
    rw [inv.type, inv.hotSize, addU64_eq]
    omega

/-- STEP: a sync that succeeds empties the array. -/
theorem Inv.sync (syncOk : Bool) :
    Inv caps ty ⟨drIcmPoolSyncAllBuddyPools w.pool syncOk, w.live⟩ := by
  cases syncOk with
  | false => exact inv
  | true =>
    have hown := inv.own.clear_all
    obtain ⟨htype, -, hnum, -, hth⟩ := clear_sameHot w.pool.hotChunksArr w.pool
    have hcleared : Owned (drIcmPoolClearHotChunksArr w.pool) w.live w.live :=
      { hown with }
    exact ⟨hcleared.destroy, htype.trans inv.type, hnum.trans inv.num, hth.trans inv.threshold,
      Nat.zero_le _, rfl⟩

/-- STEP: a free that finds room. -/
theorem Inv.free {c : Chunk} (syncOk : Bool) (hc : c ∈ w.live)
    (hroom : w.pool.hotChunksArr.length < w.pool.numOfChunks) :
    Inv caps ty (step w (.free c syncOk)) := by
  have hhot := inv.hot hc hroom
  dsimp only [step]
  unfold mlx5drIcmFreeChunk
  split
  · exact hhot.sync syncOk
  · exact hhot

theorem step_inv (a : Act) (h : room w a) : Inv caps ty (step w a) := by
  cases a with
  | alloc size createOk chunkOk => exact inv.alloc size createOk chunkOk
  | free c syncOk => exact inv.free syncOk h.1 h.2

end

/-- RUN: as long as each free finds room. -/
theorem reach_inv (h : Reach step room (start caps ty) w) : Inv caps ty w :=
  h.invariant (start_inv caps ty) fun _ a hok inv => step_inv inv a hok

/-! ### The array -/

/-- What is promised for the pool and its chunks. -/
structure Good (w : World) : Prop where
  capacity : w.pool.hotChunksArr.length ≤ w.pool.numOfChunks
  hotSize : w.pool.hotMemorySize = bytesOf w.pool.icmType w.pool.hotChunksArr
  apart : (w.pool.hotChunksArr ++ w.live).Pairwise fun c d =>
    c.buddyMem = d.buddyMem → Apart (c.seg, c.size) (d.seg, d.size)
  used : ∀ id ∈ w.pool.buddyMemList, (w.pool.mem id).usedMemory =
    bytesOf w.pool.icmType (chunksOf id (w.pool.hotChunksArr ++ w.live))
  listed : ∀ c ∈ w.pool.hotChunksArr ++ w.live, c.buddyMem ∈ w.pool.buddyMemList

theorem Owned.apart {area used : List Chunk} (own : Owned pool area used) :
    area.Pairwise fun c d => c.buddyMem = d.buddyMem → Apart (c.seg, c.size) (d.seg, d.size) := by
  have hone : ∀ {l : List Chunk}, (∀ c ∈ l, (blocksOf c.buddyMem l).Pairwise Apart) →
      l.Pairwise fun c d => c.buddyMem = d.buddyMem → Apart (c.seg, c.size) (d.seg, d.size) := by
    intro l hl
    induction l with
    | nil => exact .nil
    | cons c l ih =>
      have hc := hl c mem_cons_self
      rw [blocksOf, chunksOf_cons_self, map_cons, List.pairwise_cons] at hc
      refine .cons (fun d hd heq => hc.1 (d.seg, d.size) ?_) (ih fun d hd => ?_)
      · exact mem_map.mpr ⟨d, mem_filter.mpr ⟨hd, by simp [heq]⟩, rfl⟩
      · have hsub : (blocksOf d.buddyMem l).Sublist (blocksOf d.buddyMem (c :: l)) :=
          ((List.sublist_cons_self c l).filter _).map _
        exact (hl d (mem_cons_of_mem c hd)).sublist hsub
  exact hone fun c hc => (own.areas _ (own.listed c hc)).apart

theorem Inv.good (inv : Inv caps ty w) : Good w :=
  ⟨inv.capacity, inv.type ▸ inv.hotSize, inv.own.apart, inv.own.bytes, inv.own.listed⟩

/-- A chunk that is handed out has nothing in common with a hot or a live one. -/
theorem Inv.alloc_apart (inv : Inv caps ty w) {size : ℕ} {createOk chunkOk : Bool} {c : Chunk}
    (h : (mlx5drIcmAllocChunk w.pool size createOk chunkOk).2 = some c) :
    ∀ d ∈ w.pool.hotChunksArr ++ w.live,
      c.buddyMem = d.buddyMem → Apart (c.seg, c.size) (d.seg, d.size) := by
  have hown := @Owned.alloc _ _ size inv.own createOk chunkOk
  rcases hres : mlx5drIcmAllocChunk w.pool size createOk chunkOk with ⟨pool', _ | c'⟩
  · rw [hres] at h
    cases h
  · rw [hres] at h hown
    cases h
    exact (List.pairwise_cons.mp hown.apart).1

/-- Only a sync that succeeds takes chunks out of the array. -/
theorem hot_prefix (w : World) (a : Act) (h : ∀ c, a ≠ .free c true) :
    w.pool.hotChunksArr <+: (step w a).pool.hotChunksArr := by
  cases a with
  | alloc size createOk chunkOk =>
    have hsame := (@alloc_sameHot w.pool size createOk chunkOk).2.1
    dsimp only [step]
    rcases hres : mlx5drIcmAllocChunk w.pool size createOk chunkOk with ⟨pool', _ | c⟩
    all_goals
      rw [hres] at hsame
      exact hsame ▸ List.prefix_rfl
  | free c syncOk =>
    obtain rfl : syncOk = false := by
      cases syncOk
      · rfl
      · exact absurd rfl (h c)
    dsimp only [step]
    unfold mlx5drIcmFreeChunk drIcmPoolSyncAllBuddyPools
    simp [addHotChunk]

/-- After a sync that succeeds, or where none is needed, the array has room. -/
theorem room_of_threshold (inv : Inv caps ty w) (h : w.pool.hotMemorySize ≤ w.pool.th) :
    w.pool.hotChunksArr.length < w.pool.numOfChunks := by
  have hsize : ∀ d ∈ w.pool.hotChunksArr, d.size ≤ 20 := fun d hd =>
    (inv.own.size_le (List.mem_append_left _ hd)).trans inv.own.maxLe
  have hlen := (@length_le_bytesOf ty _ hsize).1
  have hpos := entrySize_pos ty
  rw [inv.hotSize, inv.threshold] at h
  rw [inv.num]
  refine Nat.lt_succ_of_le ((Nat.le_div_iff_mul_le hpos).mpr ?_)
  omega

/-- STEP: below the threshold, with a sync that does not fail. -/
theorem step_threshold (a : Act) (h : synced w a) (hth : w.pool.hotMemorySize ≤ w.pool.th) :
    (step w a).pool.hotMemorySize ≤ (step w a).pool.th := by
  cases a with
  | alloc size createOk chunkOk =>
    obtain ⟨-, -, -, hsize, hth'⟩ := @alloc_sameHot w.pool size createOk chunkOk
    dsimp only [step]
    rcases hres : mlx5drIcmAllocChunk w.pool size createOk chunkOk with ⟨pool', _ | c⟩
    all_goals
      rw [hres] at hsize hth'
      rwa [hsize, hth']
  | free c syncOk =>
    obtain ⟨-, rfl⟩ := h
    dsimp only [step]
    unfold mlx5drIcmFreeChunk
    split
    · exact Nat.zero_le _
    · rename_i hle
      exact Nat.le_of_not_lt hle

/-- RUN: where no sync fails each free finds room. -/
theorem synced_room (h : Reach step synced (start caps ty) w) :
    Reach step room (start caps ty) w ∧ w.pool.hotMemorySize ≤ w.pool.th := by
  induction h with
  | start => exact ⟨.start, Nat.zero_le _⟩
  | @next w a _ hok ih =>
    obtain ⟨hreach, hth⟩ := ih
    refine ⟨hreach.next ⟨hok.1, ?_⟩, step_threshold a hok hth⟩
    cases a with
    | alloc => trivial
    | free => exact room_of_threshold (reach_inv hreach) hth

/-- CORRECT: as long as no free finds the array full, the array keeps within its capacity, its size is
    that of the hot chunks, live and hot chunks are pairwise disjoint, the buddies count the bytes of
    theirs, and a destroyed buddy has none. Hot chunks stay hot until a sync succeeds and are not
    handed out before. Where no sync fails the array is never full. -/
theorem hot_chunks {caps : Caps} {ty : IcmType} {w : World}
    (h : Reach step room (start caps ty) w) :
    Good w ∧
      (∀ a, (∀ c, a ≠ .free c true) →
        w.pool.hotChunksArr <+: (step w a).pool.hotChunksArr) ∧
      (∀ size createOk chunkOk c,
        (mlx5drIcmAllocChunk w.pool size createOk chunkOk).2 = some c →
          ∀ d ∈ w.pool.hotChunksArr ++ w.live,
            c.buddyMem = d.buddyMem → Apart (c.seg, c.size) (d.seg, d.size)) ∧
      ∀ w', Reach step synced (start caps ty) w' → Reach step room (start caps ty) w' :=
  ⟨(reach_inv h).good, hot_prefix w, fun _ _ _ _ hc => (reach_inv h).alloc_apart hc,
    fun _ h' => (synced_room h').1⟩

/-- Two chunks of one entry each are allocated, one is freed. -/
theorem hot_chunks_two : Good ([Act.alloc 0 true true, .alloc 0 true true,
    .free ⟨0, 0, 0⟩ true].foldl step (start ⟨1, 1⟩ .ste)) :=
  (@hot_chunks ⟨1, 1⟩ .ste _ (Reach.start.runs (by decide))).1

/-- Three chunks are freed and every sync fails: the third one is written behind an array of two. -/
theorem hot_chunks_overrun : ∃ w, Reach step ok (start ⟨0, 0⟩ .ste) w ∧
    w.pool.numOfChunks < w.pool.hotChunksArr.length :=
  ⟨_, Reach.start.runs (l := [.alloc 0 true true, .alloc 0 true true, .alloc 0 true true,
    .free ⟨0, 0, 0⟩ false, .free ⟨1, 0, 0⟩ false, .free ⟨2, 0, 0⟩ false]) (by decide), by decide⟩

end Runs

end RdmaDriver.DrIcmPool
