import RdmaDriver.Steering.IcmPool

/-! @src mlx5/core/steering/dr_send.c | name:Whole-Table Writes | scheme:chunked-loop |
    family:serializer

    A hash table goes to device memory in posts of at most `max_post_send_size` bytes. Each post is
    made of as many entries, and goes to the address of its first one.

        entries   0 … per-1 | per … 2*per-1 | ⋯ | … n-1
        post      i = 0       i = 1               i = iterations-1
        index     i * per, in a u32, or in a u8 where all entries are the same -/

namespace RdmaDriver.HtblWrite
open DrIcmPool (chunkSizeToEntries chunkSizeToByte)
open List (range)

/-! ### Code -/

def DR_STE_SIZE : ℕ := 64
def DR_STE_SIZE_CTRL : ℕ := 32
def DR_STE_SIZE_TAG : ℕ := 16
def DR_STE_SIZE_MASK : ℕ := 16
def DR_STE_SIZE_REDUCED : ℕ := DR_STE_SIZE - DR_STE_SIZE_MASK
def ENOMEM : ℤ := 12

/-- The bytes of an entry, or of a part of it. -/
abbrev Image := List (BitVec 8)

/-- The chunk of a hash table: the entries' reference counts and reduced images. -/
structure Chunk where
  size : ℕ
  mrAddr : ℕ
  rkey : ℕ
  refcount : ℕ → ℕ
  hwSteArr : ℕ → Image

/-- What a domain decides: whether its STE format swaps tag and mask, and its send ring's
    `max_post_send_size`. -/
structure Domain where
  swap : Bool
  maxPostSendSize : ℕ

/-- `send_info` of a post: `data` are the entries in the buffer. -/
structure Post where
  data : List Image
  length : ℕ
  remoteAddr : ℕ
  rkey : ℕ

/-- `mlx5dr_ste_prepare_for_postsend` for a whole STE. -/
def prepareForPostsend (dmn : Domain) (ste : Image) : Image :=
  if dmn.swap then
    ste.take DR_STE_SIZE_CTRL ++ ste.drop (DR_STE_SIZE_CTRL + DR_STE_SIZE_TAG) ++
      (ste.drop DR_STE_SIZE_CTRL).take DR_STE_SIZE_TAG
  else ste

/-- `mlx5dr_ste_get_mr_addr` of entry `index`. -/
def steMrAddr (chunk : Chunk) (index : ℕ) : ℕ := chunk.mrAddr + DR_STE_SIZE * index

/-- What `dr_get_tbl_copy_details` sets, besides the buffer. -/
structure CopyDetails where
  byteSize : ℕ
  iterations : ℕ
  numStes : ℕ

/-- `dr_get_tbl_copy_details`; its callers start with the byte size of the chunk. -/
def tblCopyDetails (dmn : Domain) (chunk : Chunk) : CopyDetails :=
  let chunkByteSize := chunkSizeToByte chunk.size .ste
  if chunkByteSize > dmn.maxPostSendSize then
    { byteSize := dmn.maxPostSendSize,
      iterations := chunkByteSize / dmn.maxPostSendSize,
      numStes := dmn.maxPostSendSize / DR_STE_SIZE }
  else
    { byteSize := chunkByteSize, iterations := 1,
      numStes := chunkSizeToEntries chunk.size }

/-- The loop over the iterations, up to a post that fails: post `i` returns `ret i`. -/
def sendAll (post : ℕ → Post) (ret : ℕ → ℤ) : ℕ → ℕ → ℤ × List Post
  | 0, _ => (0, [])
  | left + 1, i =>
    if ret i ≠ 0 then (ret i, [])
    else
      let r := sendAll post ret left (i + 1)
      (r.1, post i :: r.2)

/-- The image of entry `index` in `mlx5dr_send_postsend_htbl`. -/
def entryImage (dmn : Domain) (chunk : Chunk) (formattedSte mask : Image) (index : ℕ) : Image :=
  if chunk.refcount index = 0 then formattedSte
  else prepareForPostsend dmn
    ((chunk.hwSteArr index).take DR_STE_SIZE_REDUCED ++ mask.take DR_STE_SIZE_MASK)

/-- `mlx5dr_send_postsend_htbl`: what it returns, and its posts. -/
def postsendHtbl (dmn : Domain) (chunk : Chunk) (formattedSte mask : Image) (mem : Bool)
    (ret : ℕ → ℤ) : ℤ × List Post :=
  if mem then
    let d := tblCopyDetails dmn chunk
    let formattedSte := prepareForPostsend dmn formattedSte
    sendAll (fun i =>
      let steIndex := toU 32 (i * (d.byteSize / DR_STE_SIZE) : ℕ)
      { data := (range d.numStes).map fun j =>
          entryImage dmn chunk formattedSte mask (steIndex + j),
        length := d.byteSize, remoteAddr := steMrAddr chunk steIndex,
        rkey := chunk.rkey }) ret d.iterations 0
  else (-ENOMEM, [])

/-- `mlx5dr_send_postsend_formatted_htbl`: what it returns, its posts, and the chunk. -/
def postsendFormattedHtbl (dmn : Domain) (chunk : Chunk) (steInitData : Image)
    (updateHwSte mem : Bool) (ret : ℕ → ℤ) : (ℤ × List Post) × Chunk :=
  if mem then
    let d := tblCopyDetails dmn chunk
    let hwSteArr := fun i =>
      if updateHwSte ∧ i < d.numStes then steInitData.take DR_STE_SIZE_REDUCED
      else chunk.hwSteArr i
    let data := prepareForPostsend dmn steInitData
    (sendAll (fun i =>
      let steIndex := toU 8 (i * (d.byteSize / DR_STE_SIZE) : ℕ)
      { data := (range d.numStes).map fun _ => data, length := d.byteSize,
        remoteAddr := steMrAddr chunk steIndex, rkey := chunk.rkey }) ret d.iterations 0,
      { chunk with hwSteArr := hwSteArr })
  else ((-ENOMEM, []), chunk)

/-! ### What arrives -/

/-- The entries that a post writes: their hardware addresses and images. -/
def Post.writes (p : Post) : List (ℕ × Image) :=
  (p.data.take (p.length / DR_STE_SIZE)).mapIdx fun k ste => (p.remoteAddr + DR_STE_SIZE * k, ste)

/-- The writes of a table whose entry `e` is to have image `image e`: every entry once, in order,
    and nothing else. -/
def tableWrites (chunk : Chunk) (image : ℕ → Image) : List (ℕ × Image) :=
  (range (chunkSizeToEntries chunk.size)).map fun e => (steMrAddr chunk e, image e)

/-- The whole table is written with each entry's own image, or the formatted one. -/
def HtblWritten (dmn : Domain) (chunk : Chunk) (formattedSte mask : Image) (r : ℤ × List Post) :
    Prop :=
  r.1 = 0 ∧ r.2.flatMap Post.writes =
    tableWrites chunk (entryImage dmn chunk (prepareForPostsend dmn formattedSte) mask)

/-- The whole table is written with the formatted image, which is every software image as well if
    that is asked for. -/
def FormattedWritten (dmn : Domain) (chunk : Chunk) (steInitData : Image) (updateHwSte : Bool)
    (r : (ℤ × List Post) × Chunk) : Prop :=
  r.1.1 = 0 ∧
    r.1.2.flatMap Post.writes = tableWrites chunk (fun _ => prepareForPostsend dmn steInitData) ∧
    (updateHwSte → ∀ e < chunkSizeToEntries chunk.size,
      r.2.hwSteArr e = steInitData.take DR_STE_SIZE_REDUCED)

/-! ### Loops -/

variable {dmn : Domain} {chunk : Chunk} {formattedSte mask steInitData : Image} {ret : ℕ → ℤ}
  {per iters index k m n i : ℕ} {upd : Bool}

/-- A range in windows of equal size. -/
theorem range_mul (iters per : ℕ) : range (iters * per) =
    (range iters).flatMap fun i => (range per).map fun j => i * per + j := by
  induction iters with
  | zero => rw [Nat.zero_mul]; rfl
  | succ iters ih =>
    rw [Nat.succ_mul, List.range_add, ih, List.range_succ, List.flatMap_append,
      List.flatMap_singleton]

/-- When all posts succeed every iteration is posted. -/
theorem sendAll_eq (post : ℕ → Post) (hret : ∀ i, ret i = 0) (n i : ℕ) :
    sendAll post ret n i = (0, (range n).map fun j => post (i + j)) := by
  induction n generalizing i with
  | zero => rfl
  | succ n ih =>
    rw [sendAll, if_neg (not_not.mpr (hret i)), ih, List.range_succ_eq_map, List.map_cons,
      List.map_map, Nat.add_zero]
    refine congrArg (fun l => ((0 : ℤ), post i :: l)) (List.map_congr_left fun j _ => ?_)
    rw [Function.comp_apply, Nat.succ_eq_add_one, Nat.add_assoc, Nat.add_comm 1 j]

theorem entries_eq (hk : k ≤ 21) : chunkSizeToEntries k = 2 ^ k := by
  have hpow : 2 ^ k ≤ 2 ^ 21 := Nat.pow_le_pow_right (by norm_num) hk
  unfold chunkSizeToEntries DrBuddy.shl
  omega

theorem byte_eq (hk : k ≤ 21) : chunkSizeToByte k .ste = DR_STE_SIZE * 2 ^ k := by
  have hpow : 2 ^ k ≤ 2 ^ 21 := Nat.pow_le_pow_right (by norm_num) hk
  unfold chunkSizeToByte
  rw [entries_eq hk]
  exact Nat.mod_eq_of_lt (show 64 * 2 ^ k < 2 ^ 32 by omega)

/-- DETAILS: the table is cut into posts of equal size. -/
theorem details_eq (hk : chunk.size ≤ 21) (hmax : dmn.maxPostSendSize = DR_STE_SIZE * 2 ^ m) :
    ∃ per iters, tblCopyDetails dmn chunk = ⟨DR_STE_SIZE * per, iters, per⟩ ∧
      iters * per = 2 ^ chunk.size ∧ per = min (2 ^ chunk.size) (2 ^ m) := by
  have h64 : 0 < DR_STE_SIZE := by decide
  rw [tblCopyDetails, byte_eq hk, entries_eq hk, hmax]
  rcases Nat.lt_or_ge m chunk.size with hlt | hge
  · have hpow : 2 ^ m < 2 ^ chunk.size := Nat.pow_lt_pow_right (by norm_num) hlt
    refine ⟨2 ^ m, 2 ^ (chunk.size - m), ?_, ?_, (min_eq_right hpow.le).symm⟩
    · rw [if_pos (Nat.mul_lt_mul_of_pos_left hpow h64), Nat.mul_div_mul_left _ _ h64,
        Nat.pow_div hlt.le Nat.two_pos, Nat.mul_div_cancel_left _ h64]
    · rw [← Nat.pow_add, Nat.sub_add_cancel hlt.le]
  · have hpow : 2 ^ chunk.size ≤ 2 ^ m := Nat.pow_le_pow_right (by norm_num) hge
    refine ⟨2 ^ chunk.size, 1, ?_, Nat.one_mul _, (min_eq_left hpow).symm⟩
    rw [if_neg (Nat.not_lt.mpr (Nat.mul_le_mul_left _ hpow))]

/-- ONE POST: the entries from its index on. -/
theorem writes_eq (image : ℕ → Image) (rkey : ℕ) :
    Post.writes { data := (range per).map image, length := DR_STE_SIZE * per,
                  remoteAddr := steMrAddr chunk index, rkey := rkey } =
      (range per).map fun j => (steMrAddr chunk (index + j), image j) := by
  rw [Post.writes]
  rw [Nat.mul_div_cancel_left _ (by decide : 0 < DR_STE_SIZE), List.take_of_length_le (by simp)]
  refine List.ext_getElem? fun j => ?_
  rw [List.getElem?_mapIdx, List.getElem?_map, List.getElem?_map, Option.map_map]
  by_cases hj : j < per
  · rw [List.getElem?_range hj, Option.map_some, Option.map_some, Function.comp_apply]
    simp only [steMrAddr, Nat.mul_add, Nat.add_assoc]
  · rw [List.getElem?_eq_none (by rw [List.length_range]; omega)]
    rfl

/-- ALL POSTS: indices that do not wrap give every entry once. -/
theorem posts_eq (hn : iters * per = chunkSizeToEntries chunk.size) (image : ℕ → Image) (rkey : ℕ)
    {idx : ℕ → ℕ} (hidx : ∀ i < iters, idx i = i * per) :
    ((range iters).map fun i =>
        ({ data := (range per).map fun j => image (idx i + j), length := DR_STE_SIZE * per,
           remoteAddr := steMrAddr chunk (idx i), rkey := rkey } : Post)).flatMap Post.writes =
      tableWrites chunk image := by
  rw [List.flatMap_map, tableWrites, ← hn, range_mul, List.map_flatMap]
  refine List.flatMap_congr fun i hi => ?_
  rw [writes_eq fun j => image (idx i + j), List.map_map, hidx i (List.mem_range.mp hi)]
  rfl

/-! ### The two functions -/

/-- A table of more than one post: its first index that is not zero is a window behind the first. -/
theorem index_lt (hn : iters * per = 2 ^ k) (hi : i < iters) : i * per + per ≤ 2 ^ k := by
  rw [← hn, ← Nat.succ_mul]
  exact Nat.mul_le_mul_right _ hi

section
variable (hk : chunk.size ≤ 21) (hmax : dmn.maxPostSendSize = DR_STE_SIZE * 2 ^ m)
  (hret : ∀ i, ret i = 0)
include hk hmax hret

/-- Each entry's own image: the index is a `u32` and does not wrap. -/
theorem htblWritten : HtblWritten dmn chunk formattedSte mask
      (postsendHtbl dmn chunk formattedSte mask true ret) := by
  obtain ⟨per, iters, hd, hn, hper⟩ := details_eq hk hmax
  have hpow : 2 ^ chunk.size ≤ 2 ^ 21 := Nat.pow_le_pow_right (by norm_num) hk
  have hidx : ∀ i < iters, toU 32 (i * per : ℕ) = i * per := fun i hi => by
    have := index_lt hn hi
    exact toU_of_lt (by omega)
  rw [postsendHtbl, if_pos rfl, hd]
  simp only [Nat.mul_div_cancel_left _ (by decide : 0 < DR_STE_SIZE)]
  rw [sendAll_eq _ hret]
  refine ⟨rfl, ?_⟩
  simp only [Nat.zero_add]
  exact posts_eq (hn.trans (entries_eq hk).symm) _ _ hidx

/-- The posts of the formatted table. -/
theorem formatted_posts :
    ∃ per iters, iters * per = 2 ^ chunk.size ∧ per = min (2 ^ chunk.size) (2 ^ m) ∧
      postsendFormattedHtbl dmn chunk steInitData upd true ret =
        ((0, (range iters).map fun i =>
          ({ data := (range per).map fun _ => prepareForPostsend dmn steInitData,
             length := DR_STE_SIZE * per, remoteAddr := steMrAddr chunk (toU 8 (i * per : ℕ)),
             rkey := chunk.rkey } : Post)),
          { chunk with hwSteArr := fun i =>
              if upd ∧ i < per then steInitData.take DR_STE_SIZE_REDUCED
              else chunk.hwSteArr i }) := by
  obtain ⟨per, iters, hd, hn, hper⟩ := details_eq hk hmax
  refine ⟨per, iters, hn, hper, ?_⟩
  rw [postsendFormattedHtbl, if_pos rfl, hd]
  simp only [Nat.mul_div_cancel_left _ (by decide : 0 < DR_STE_SIZE)]
  rw [sendAll_eq _ hret]
  simp only [Nat.zero_add]

end

/-- An index in a `u8` is below 256, and it is zero where a post has 256 entries or more. -/
theorem index_wrap (hper : per = 2 ^ m) (i : ℕ) : toU 8 (i * per : ℕ) + per ≤ max 256 per := by
  rw [toU_eq_mod, show 2 ^ 8 = 256 by norm_num]
  rcases Nat.lt_or_ge m 8 with hlt | hge
  · -- the window is a part of 256 entries
    have hdvd : per ∣ 256 := hper ▸ Nat.pow_dvd_pow 2 hlt.le
    obtain ⟨d, hd⟩ := hdvd
    have hmul : i * per % (per * d) = per * (i % d) := by
      rw [Nat.mul_comm i, Nat.mul_mod_mul_left]
    have hpos : 0 < d := by
      rcases Nat.eq_zero_or_pos d with rfl | h
      · omega
      · exact h
    have hle : per * (i % d + 1) ≤ per * d := Nat.mul_le_mul_left _ (Nat.mod_lt _ hpos)
    rw [Nat.mul_add, Nat.mul_one, ← hmul, ← hd] at hle
    exact hle.trans (le_max_left _ _)
  · have hdvd : 256 ∣ i * per := Dvd.dvd.mul_left (hper ▸ Nat.pow_dvd_pow 2 hge) i
    rw [Nat.mod_eq_zero_of_dvd hdvd, Nat.zero_add]
    exact le_max_right _ _

/-- The formatted posts write the whole table iff no index wraps. -/
theorem formatted_writes_iff (hn : iters * per = 2 ^ chunk.size) (hk : chunk.size ≤ 21)
    (hper : per = 2 ^ m) (image : Image) (rkey : ℕ) :
    ((range iters).map fun i =>
        ({ data := (range per).map fun _ => image, length := DR_STE_SIZE * per,
           remoteAddr := steMrAddr chunk (toU 8 (i * per : ℕ)), rkey := rkey } : Post)).flatMap
        Post.writes = tableWrites chunk (fun _ => image) ↔
      2 ^ chunk.size ≤ max 256 per := by
  have hentries := entries_eq hk
  have hpos : 0 < 2 ^ chunk.size := Nat.two_pow_pos _
  constructor
  · intro h
    -- the last entry is written by some post
    have hlast : (steMrAddr chunk (2 ^ chunk.size - 1), image) ∈
        tableWrites chunk fun _ => image := by
      exact List.mem_map.mpr ⟨_, List.mem_range.mpr (by omega), rfl⟩
    rw [← h, List.flatMap_map] at hlast
    obtain ⟨i, -, hi⟩ := List.mem_flatMap.mp hlast
    rw [writes_eq fun _ => image] at hi
    obtain ⟨j, hj, heq⟩ := List.mem_map.mp hi
    have haddr := congrArg Prod.fst heq
    simp only [steMrAddr, DR_STE_SIZE] at haddr
    have hj := List.mem_range.mp hj
    have hwrap := index_wrap hper i
    omega
  · intro h
    refine posts_eq (hn.trans hentries.symm) (fun _ => image) rkey fun i hi => ?_
    have hlt := index_lt hn hi
    have hper0 : 0 < per := hper ▸ Nat.two_pow_pos m
    refine toU_of_lt (show i * per < 256 from ?_)
    rcases le_max_iff.mp h with h | h
    · omega
    · have hone : i * per = 0 := by omega
      omega

/-- CORRECT only in part: a table of used entries is always written as it should be. A formatted
    table is iff it fits in one post, or has at most 256 entries and no software image behind the
    first post is still to be made the formatted one. -/
theorem htbl_writes (hk : chunk.size ≤ 21)
    (hmax : dmn.maxPostSendSize = DR_STE_SIZE * 2 ^ m) (hret : ∀ i, ret i = 0) :
    HtblWritten dmn chunk formattedSte mask
      (postsendHtbl dmn chunk formattedSte mask true ret) ∧
    (FormattedWritten dmn chunk steInitData upd
        (postsendFormattedHtbl dmn chunk steInitData upd true ret) ↔
      2 ^ chunk.size ≤ 2 ^ m ∨ 2 ^ chunk.size ≤ 256 ∧ (upd → ∀ e, 2 ^ m ≤ e → e < 2 ^ chunk.size →
        chunk.hwSteArr e = steInitData.take DR_STE_SIZE_REDUCED)) := by
  refine ⟨htblWritten hk hmax hret, ?_⟩
  obtain ⟨per, iters, hn, hper, hposts⟩ := @formatted_posts _ _ steInitData _ _ upd hk hmax hret
  obtain ⟨l, hl⟩ : ∃ l, per = 2 ^ l := by
    rcases min_choice (2 ^ chunk.size) (2 ^ m) with h | h
    · exact ⟨chunk.size, hper.trans h⟩
    · exact ⟨m, hper.trans h⟩
  have hwrites := formatted_writes_iff hn hk hl (prepareForPostsend dmn steInitData) chunk.rkey
  rw [hposts, FormattedWritten, hwrites, entries_eq hk]
  constructor
  · rintro ⟨-, hle, hsw⟩
    by_cases hone : 2 ^ chunk.size ≤ 2 ^ m
    · exact .inl hone
    · refine .inr ⟨by omega, fun hupd e he hlt => ?_⟩
      have hnot : ¬(upd = true ∧ e < per) := fun hc => by omega
      exact (if_neg hnot).symm.trans (hsw hupd e hlt)
  · intro h
    refine ⟨rfl, ?_, fun hupd e he => ?_⟩
    · rcases h with h | ⟨h, -⟩ <;> omega
    · by_cases hin : e < per
      · exact if_pos ⟨hupd, hin⟩
      · rcases h with h | ⟨-, h⟩
        · omega
        · exact (if_neg fun hc => hin hc.2).trans (h hupd e (by omega) he)

/-- A send ring whose posts hold `2 ^ m` entries; as it is allocated, 1024. -/
def demoDomain (m : ℕ) : Domain := { swap := true, maxPostSendSize := DR_STE_SIZE * 2 ^ m }

/-- A table of `2 ^ size` entries, of which every third is unused. -/
def demoChunk (size : ℕ) : Chunk :=
  { size := size, mrAddr := 4096, rkey := 7, refcount := fun e => e % 3,
    hwSteArr := fun e => List.replicate DR_STE_SIZE_REDUCED (BitVec.ofNat 8 e) }

/-- A formatted entry and a mask. -/
def demoSte : Image := List.replicate DR_STE_SIZE 1

def demoMask : Image := List.replicate DR_STE_SIZE_MASK 0xff

/-- Four posts of either function. -/
theorem htbl_writes_demo :
    (postsendHtbl (demoDomain 10) (demoChunk 12) demoSte demoMask true fun _ => 0).2.length = 4 ∧
    HtblWritten (demoDomain 10) (demoChunk 12) demoSte demoMask
      (postsendHtbl (demoDomain 10) (demoChunk 12) demoSte demoMask true fun _ => 0) ∧
    FormattedWritten (demoDomain 6) (demoChunk 8) demoSte false
      (postsendFormattedHtbl (demoDomain 6) (demoChunk 8) demoSte false true fun _ => 0) :=
  ⟨by decide +kernel,
    (@htbl_writes _ _ _ _ demoSte _ 10 false (by decide) rfl fun _ => rfl).1,
    (@htbl_writes _ _ demoSte demoMask _ _ 6 _ (by decide) rfl fun _ => rfl).2.mpr
      (.inr ⟨by decide, fun h => by cases h⟩)⟩

/-- A write of a post goes behind its address. -/
theorem mem_writes {p : Post} {w : ℕ × Image} (h : w ∈ p.writes) :
    w.1 < p.remoteAddr + p.length := by
  obtain ⟨k, hk, rfl⟩ := List.mem_mapIdx.mp h
  have hlen := List.length_take_le (p.length / DR_STE_SIZE) p.data
  have hdiv := Nat.div_mul_le_self p.length DR_STE_SIZE
  simp only [DR_STE_SIZE] at hk hlen hdiv ⊢
  omega

/-- What is sent when a start table that has grown to 2048 entries is connected again. -/
def brokenSend : (ℤ × List Post) × Chunk :=
  postsendFormattedHtbl (demoDomain 10) (demoChunk 11) demoSte false true fun _ => 0

/-- BROKEN: of 2048 entries the second post, of the last 1024, goes to the address of entry 0 as the
    first one does, and nothing is written to the last entry. -/
theorem htbl_writes_broken :
    (brokenSend.1.2.map fun p => (p.remoteAddr, p.length)) = [(4096, 65536), (4096, 65536)] ∧
      (∀ w ∈ brokenSend.1.2.flatMap Post.writes, w.1 ≠ steMrAddr (demoChunk 11) 2047) ∧
      ¬FormattedWritten (demoDomain 10) (demoChunk 11) demoSte false brokenSend := by
  have hposts : (brokenSend.1.2.map fun p => (p.remoteAddr, p.length)) =
      [(4096, 65536), (4096, 65536)] := by decide +kernel
  have hmiss : ∀ w ∈ brokenSend.1.2.flatMap Post.writes,
      w.1 ≠ steMrAddr (demoChunk 11) 2047 := by
    intro w hw
    obtain ⟨p, hp, hw⟩ := List.mem_flatMap.mp hw
    have hpair := List.mem_map_of_mem (f := fun p : Post => (p.remoteAddr, p.length)) hp
    rw [hposts] at hpair
    have hp' : p.remoteAddr = 4096 ∧ p.length = 65536 := by simpa using hpair
    have hlt := mem_writes hw
    simp only [steMrAddr, demoChunk, DR_STE_SIZE]
    omega
  refine ⟨hposts, hmiss, fun h => ?_⟩
  refine hmiss (steMrAddr (demoChunk 11) 2047, prepareForPostsend (demoDomain 10) demoSte) ?_ rfl
  rw [h.2.1]
  exact List.mem_map.mpr ⟨2047, by decide +kernel, rfl⟩

end RdmaDriver.HtblWrite
