import RdmaDriver.Basic
import RdmaDriver.Schemes.BeBits
import RdmaDriver.Schemes.Run

/-! @src drivers/net/ethernet/mellanox/mlx5/core/cmd.c | name:Command Mailboxes | scheme:run |
    family:codec

    A command lies in 16 bytes of its message and in a chain of mailboxes. The chain is built from
    its end; a message of a cache keeps the chain of its first allocation, however short the command
    is that it carries.

        first.data | block 0 | block 1 | ⋯ | block n - 1 | ⋯  unused blocks of a cached message
            16         512       512          ≤ 512

        block      data | rsvd0 | next | block_num | rsvd1 | token | ctrl_sig | sig
                   0      512     560    568         572     573     574        575       -/

namespace RdmaDriver.Mailbox
open Schemes Function
open List (getElem?_map getElem?_mapIdx)

/-! ### Code -/

def MLX5_CMD_DATA_BLOCK_SIZE : ℕ := 512

/-- `sizeof(msg->first.data)`. -/
def firstSize : ℕ := 16

/-- `offsetof(struct mlx5_cmd_prot_block, ...)`. -/
def rsvd0Off : ℕ := 512
def nextOff : ℕ := 560
def blockNumOff : ℕ := 568
def tokenOff : ℕ := 573
def ctrlSigOff : ℕ := 574
def sigOff : ℕ := 575

/-- `sizeof(struct mlx5_cmd_prot_block)`. -/
def blockSize : ℕ := 576

/-- `struct mlx5_cmd_mailbox`: a block and its bus address. -/
structure CmdMailbox where
  buf : Memory
  dma : ℕ

/-- `struct mlx5_cmd_msg`; `parent` is the index of the cache that it belongs to. -/
structure CmdMsg where
  parent : Option ℕ
  len : ℕ
  first : Memory
  next : List CmdMailbox

/-- What the allocator answers to one `mlx5_alloc_cmd_msg`: for the message, and for each box its
    bus address. -/
structure Answers where
  msg : Bool
  box : ℕ → Option ℕ

/-- `mlx5_calc_cmd_blocks`. -/
def calcCmdBlocks (len : ℕ) : ℤ :=
  let size := toInt len
  let blen := size - min (firstSize : ℤ) size
  (toInt (blen + MLX5_CMD_DATA_BLOCK_SIZE - 1)).tdiv MLX5_CMD_DATA_BLOCK_SIZE

/-- `xor8_buf`. -/
def xor8Buf (buf : Memory) (offset : ℕ) : ℕ → BitVec 8
  | 0 => 0
  | len + 1 => xor8Buf buf offset len ^^^ buf (offset + len)

/-- `verify_block_sig`. -/
def verifyBlockSig (block : Memory) : Option Errno :=
  if xor8Buf block rsvd0Off (blockSize - MLX5_CMD_DATA_BLOCK_SIZE - 1) ≠ 0xff then some .ehwpoison
  else if xor8Buf block 0 blockSize ≠ 0xff then some .ehwpoison
  else none

/-- `calc_block_sig`. -/
def calcBlockSig (block : Memory) : Memory :=
  let block := update block ctrlSigOff
    (~~~xor8Buf block rsvd0Off (blockSize - MLX5_CMD_DATA_BLOCK_SIZE - 2))
  update block sigOff (~~~xor8Buf block 0 (blockSize - 1))

/-- The loop of `calc_chain_sig`. -/
def signBlocks : ℕ → List CmdMailbox → List CmdMailbox
  | n + 1, next :: rest => { next with buf := calcBlockSig next.buf } :: signBlocks n rest
  | _, l => l

/-- `calc_chain_sig`. -/
def calcChainSig (msg : CmdMsg) : CmdMsg :=
  { msg with next := signBlocks (calcCmdBlocks msg.len).toNat msg.next }

/-- One block in `mlx5_copy_to_msg`: `copy` bytes from `pos`, and the token. -/
def fillBlock (frm : Memory) (token : BitVec 8) (pos copy : ℕ) (box : CmdMailbox) : CmdMailbox :=
  { box with buf := update (copyBytes box.buf 0 frm pos copy) tokenOff token }

/-- The loop of `mlx5_copy_to_msg`: `size` bytes are left, the next one at `pos`. -/
def copyToBlocks (frm : Memory) (token : BitVec 8) :
    ℕ → ℕ → List CmdMailbox → Option Errno × List CmdMailbox
  | _, size, [] => (if size = 0 then none else some .enomem, [])
  | pos, size, next :: rest =>
    if size = 0 then (none, next :: rest)
    else
      let copy := min size MLX5_CMD_DATA_BLOCK_SIZE
      let r := copyToBlocks frm token (pos + copy) (size - copy) rest
      (r.1, fillBlock frm token pos copy next :: r.2)

/-- `mlx5_copy_to_msg`. -/
def copyToMsg (dst : CmdMsg) (frm : Memory) (size : ℕ) (token : BitVec 8) : Option Errno × CmdMsg :=
  let copy := min size firstSize
  let r := copyToBlocks frm token copy (size - copy) dst.next
  (r.1, { dst with first := copyBytes dst.first 0 frm 0 copy, next := r.2 })

/-- The loop of `mlx5_copy_from_msg`. -/
def copyFromBlocks (dst : Memory) : ℕ → ℕ → List CmdMailbox → Option Errno × Memory
  | _, size, [] => (if size = 0 then none else some .enomem, dst)
  | pos, size, next :: rest =>
    if size = 0 then (none, dst)
    else
      let copy := min size MLX5_CMD_DATA_BLOCK_SIZE
      copyFromBlocks (copyBytes dst pos next.buf 0 copy) (pos + copy) (size - copy) rest

/-- `mlx5_copy_from_msg`. -/
def copyFromMsg (dst : Memory) (frm : CmdMsg) (size : ℕ) : Option Errno × Memory :=
  let copy := min size firstSize
  copyFromBlocks (copyBytes dst 0 frm.first 0 copy) copy (size - copy) frm.next

/-- A zeroed block with its link, number and token. -/
def newBlock (next num : ℕ) (token : BitVec 8) : Memory :=
  update (beWrite (beWrite (fun _ => 0) nextOff 8 next) blockNumOff 4 num) tokenOff token

/-- The loop of `mlx5_alloc_cmd_msg` up to its round `i`; none if a box is missing. -/
def allocBlocks (box : ℕ → Option ℕ) (token : BitVec 8) (n : ℕ) : ℕ → Option (List CmdMailbox)
  | 0 => some []
  | i + 1 => do
    let head ← allocBlocks box token n i
    let dma ← box i
    let buf := newBlock (head.head?.elim 0 CmdMailbox.dma) (n - i - 1) token
    some ({ buf := buf, dma := dma } :: head)

/-- `mlx5_alloc_cmd_msg`. -/
def allocCmdMsg (a : Answers) (size : ℕ) (token : BitVec 8) : Option CmdMsg :=
  if a.msg then
    let n := (calcCmdBlocks size).toNat
    (allocBlocks a.box token n n).map fun head =>
      { parent := none, len := size, first := fun _ => 0, next := head }
  else none

/-- `struct cmd_msg_cache`. -/
structure CmdMsgCache where
  head : List CmdMsg
  maxInboxSize : ℕ

/-- The loop of `alloc_msg` over the caches. -/
def takeCached (inSize : ℕ) : List CmdMsgCache → Option (CmdMsg × List CmdMsgCache)
  | [] => none
  | ch :: rest =>
    let skip := (takeCached inSize rest).map fun r => (r.1, ch :: r.2)
    if inSize > ch.maxInboxSize then skip
    else match ch.head with
      | [] => skip
      | msg :: head => some ({ msg with len := inSize }, { ch with head := head } :: rest)

/-- `alloc_msg`. -/
def allocMsg (caches : List CmdMsgCache) (a : Answers) (inSize : ℕ) :
    Option CmdMsg × List CmdMsgCache :=
  let miss := (allocCmdMsg a inSize 0, caches)
  if inSize ≤ 16 then miss
  else match takeCached inSize caches with
    | some (msg, caches) => (some msg, caches)
    | none => miss

/-- `free_msg`. -/
def freeMsg (caches : List CmdMsgCache) (msg : CmdMsg) : List CmdMsgCache :=
  match msg.parent with
  | some k => caches.modify k fun ch => { ch with head := ch.head ++ [msg] }
  | none => caches

/-- `cmd_cache_num_ent` and `cmd_cache_ent_size`. -/
def cmdCacheEnt : List (ℕ × ℕ) :=
  [(512, 16 + MLX5_CMD_DATA_BLOCK_SIZE), (32, 16 + MLX5_CMD_DATA_BLOCK_SIZE * 2),
    (16, 16 + MLX5_CMD_DATA_BLOCK_SIZE * 16), (8, 16 + MLX5_CMD_DATA_BLOCK_SIZE * 256),
    (2, 16 + MLX5_CMD_DATA_BLOCK_SIZE * 512)]

/-- The entries of cache `k`, up to the first that cannot be allocated. -/
def fillCache (k size : ℕ) (a : ℕ → Answers) : ℕ → List CmdMsg
  | 0 => []
  | left + 1 =>
    match allocCmdMsg (a left) size 0 with
    | none => []
    | some msg => { msg with parent := some k } :: fillCache k size a left

/-- `create_msg_cache` for the first `num` caches. -/
def createMsgCache (num : ℕ) (a : ℕ → ℕ → Answers) : List CmdMsgCache :=
  (cmdCacheEnt.take num).mapIdx fun k e =>
    { head := fillCache k e.2 (a k) e.1, maxInboxSize := e.2 }

/-- The caches and the messages of the commands that run. -/
structure State where
  caches : List CmdMsgCache
  busy : List CmdMsg

/-- What happens to the messages of commands: an inbox and an outbox are allocated, the inbox is
    filled, a message is signed, a message is freed. -/
inductive Act where
  | allocIn (a : Answers) (inSize : ℕ)
  | allocOut (a : Answers) (outSize : ℕ) (token : BitVec 8)
  | copyTo (i : ℕ) (frm : Memory) (token : BitVec 8)
  | sign (i : ℕ)
  | free (i : ℕ)

/-- The action is done. -/
def step (s : State) : Act → State
  | .allocIn a inSize =>
    let r := allocMsg s.caches a inSize
    { caches := r.2, busy := s.busy ++ r.1.toList }
  | .allocOut a outSize token =>
    { s with busy := s.busy ++ (allocCmdMsg a outSize token).toList }
  | .copyTo i frm token =>
    { s with busy := s.busy.modify i fun m => (copyToMsg m frm m.len token).2 }
  | .sign i => { s with busy := s.busy.modify i calcChainSig }
  | .free i =>
    match s.busy[i]? with
    | none => s
    | some m => { caches := freeMsg s.caches m, busy := s.busy.eraseIdx i }

/-- A size is an `int`, and not negative. -/
def ok (_ : State) : Act → Prop
  | .allocIn _ size | .allocOut _ size _ => size < 2 ^ 31
  | _ => True

/-! ### Signatures -/

variable {m m' : Memory} {k n off size pos len : ℕ} {frm : Memory} {token : BitVec 8}
  {l : List CmdMailbox} {b : CmdMailbox}

theorem xor8_congr (h : ∀ x, off ≤ x → x < off + n → m x = m' x) :
    xor8Buf m off n = xor8Buf m' off n := by
  induction n with
  | zero => rfl
  | succ n ih =>
    rw [xor8Buf, xor8Buf, ih fun x h1 h2 => h x h1 (by omega), h (off + n) (by omega) (by omega)]

/-- The byte that closes a sum. -/
theorem xor8_close : xor8Buf (update m (off + n) (~~~xor8Buf m off n)) off (n + 1) = 0xff := by
  have hrest : xor8Buf (update m (off + n) (~~~xor8Buf m off n)) off n = xor8Buf m off n :=
    xor8_congr fun x _ hx => update_of_ne (by omega) _ _
  rw [xor8Buf, hrest, update_self]
  rw [← BitVec.xor_allOnes, ← BitVec.xor_assoc, BitVec.xor_self, BitVec.zero_xor]
  rfl

/-- SIGNED: a block passes the check of the signatures that were calculated for it. -/
theorem verify_calcBlockSig (m : Memory) : verifyBlockSig (calcBlockSig m) = none := by
  have hctrl : xor8Buf (calcBlockSig m) rsvd0Off 63 = 0xff := by
    have hsame : ∀ x, rsvd0Off ≤ x → x < rsvd0Off + 63 → calcBlockSig m x =
        update m (rsvd0Off + 62) (~~~xor8Buf m rsvd0Off 62) x := fun x _ hx =>
      update_of_ne (Nat.ne_of_lt hx) _ _
    exact (xor8_congr hsame).trans xor8_close
  have hall : xor8Buf (calcBlockSig m) 0 576 = 0xff := @xor8_close _ 575 0
  exact (if_neg (not_not.mpr hctrl)).trans (if_neg (not_not.mpr hall))

/-- A signature changes its own bytes only. -/
theorem calcBlockSig_of_lt {x : ℕ} (hx : x < ctrlSigOff) : calcBlockSig m x = m x := by
  have hx : x < 574 := hx
  have h1 : x ≠ sigOff := by rw [sigOff]; omega
  have h2 : x ≠ ctrlSigOff := by rw [ctrlSigOff]; omega
  rw [calcBlockSig, update_of_ne h1, update_of_ne h2]

/-! ### Loops over a chain -/

theorem mapIdx_id {f : ℕ → CmdMailbox → CmdMailbox} (h : ∀ i b, f i b = b) : l.mapIdx f = l := by
  refine List.ext_getElem? fun i => ?_
  rw [getElem?_mapIdx, show f i = id from funext (h i), Option.map_id, id]

/-- SIGN: the first `n` blocks of the chain are signed. -/
theorem signBlocks_eq (n : ℕ) (l : List CmdMailbox) : signBlocks n l =
    l.mapIdx fun i b => if i < n then { b with buf := calcBlockSig b.buf } else b := by
  induction l generalizing n with
  | nil => cases n <;> rfl
  | cons b l ih =>
    cases n with
    | zero => exact (mapIdx_id fun i b => if_neg (Nat.not_lt_zero i)).symm
    | succ n => simp [signBlocks, ih]

/-- COPY IN: the blocks that the copy reaches get their bytes and the token, the others stay; it
    fails if the chain is too short. -/
theorem copyToBlocks_eq (frm : Memory) (token : BitVec 8) (pos size : ℕ) (l : List CmdMailbox) :
    copyToBlocks frm token pos size l = (if size ≤ 512 * l.length then none else some .enomem,
      l.mapIdx fun i b => if 512 * i < size then
        fillBlock frm token (pos + 512 * i) (min (size - 512 * i) 512) b else b) := by
  induction l generalizing pos size with
  | nil => simp [copyToBlocks]
  | cons b l ih =>
    rw [copyToBlocks]
    by_cases h0 : size = 0
    · subst h0
      rw [if_pos rfl, if_pos (Nat.zero_le _), mapIdx_id fun i b => if_neg (Nat.not_lt_zero _)]
    · have hlong : size - min size 512 ≤ 512 * l.length ↔ size ≤ 512 * (b :: l).length := by
        rw [List.length_cons]
        omega
      have hnext (i : ℕ) : 512 * i < size - min size 512 ↔ 512 * (i + 1) < size := by omega
      simp only [MLX5_CMD_DATA_BLOCK_SIZE]
      rw [if_neg h0, ih]
      simp only [List.mapIdx_cons, hlong, hnext, if_pos (Nat.pos_of_ne_zero h0)]
      refine congrArg (Prod.mk _) (congrArg (List.cons _) (List.mapIdx_eq_mapIdx_iff.mpr ?_))
      intro i hi
      by_cases hin : 512 * (i + 1) < size
      · rw [if_pos hin, if_pos hin,
          show pos + min size 512 + 512 * i = pos + 512 * (i + 1) by omega,
          show size - min size 512 - 512 * i = size - 512 * (i + 1) by omega]
      · rw [if_neg hin, if_neg hin]

/-- COPY OUT: blocks that hold the bytes of `frm` give them back. -/
theorem copyFromBlocks_eq {dst : Memory} (hlen : size ≤ 512 * l.length)
    (h : ∀ i b, l[i]? = some b → ∀ k < 512, 512 * i + k < size →
      b.buf k = frm (pos + 512 * i + k)) :
    copyFromBlocks dst pos size l = (none, copyBytes dst pos frm pos size) := by
  induction l generalizing pos size dst with
  | nil =>
    obtain rfl : size = 0 := by simpa using hlen
    have : copyBytes dst pos frm pos 0 = dst := funext fun x => if_neg (by omega)
    rw [this, copyFromBlocks, if_pos rfl]
  | cons b l ih =>
    rw [copyFromBlocks]
    by_cases h0 : size = 0
    · have : copyBytes dst pos frm pos 0 = dst := funext fun x => if_neg (by omega)
      rw [if_pos h0, h0, this]
    · rw [List.length_cons] at hlen
      simp only [MLX5_CMD_DATA_BLOCK_SIZE]
      rw [if_neg h0, ih (by omega)]
      · refine congrArg (Prod.mk none) (funext fun x => ?_)
        simp only [copyBytes]
        by_cases hx : pos ≤ x ∧ x < pos + size
        · by_cases hlow : x < pos + min size 512
          · rw [if_neg (by omega), if_pos ⟨hx.1, hlow⟩, if_pos hx]
            have := h 0 b rfl (x - pos) (by omega) (by omega)
            rw [Nat.zero_add, this, Nat.mul_zero, Nat.add_zero]
          · rw [if_pos (by omega), if_pos hx]
            congr 1
            omega
        · rw [if_neg (by omega), if_neg (by omega), if_neg hx]
      · intro i c hc k hk hlt
        have := h (i + 1) c (by simpa using hc) k hk (by omega)
        rw [this]
        congr 1
        omega

/-! ### Numbers of blocks -/

theorem calcCmdBlocks_of_le (h : len ≤ 2 ^ 31 - 496) :
    calcCmdBlocks len = ((len - 16 + 511) / 512 : ℕ) := by
  have hlen : toInt len = len := toInt_of_lt (by omega)
  have hblen : (len : ℤ) - min (firstSize : ℤ) len + MLX5_CMD_DATA_BLOCK_SIZE - 1 =
      (len - 16 + 511 : ℕ) := by
    rw [firstSize, MLX5_CMD_DATA_BLOCK_SIZE]
    omega
  rw [calcCmdBlocks, hlen, hblen, toInt_of_lt (by omega), MLX5_CMD_DATA_BLOCK_SIZE]
  rfl

/-- The sum wraps around, and no block is counted. -/
theorem calcCmdBlocks_of_gt (h : 2 ^ 31 - 496 < len) (hlt : len < 2 ^ 31) :
    (calcCmdBlocks len).toNat = 0 := by
  have hlen : toInt len = len := toInt_of_lt hlt
  have hblen : toInt ((len : ℤ) - min (firstSize : ℤ) len + MLX5_CMD_DATA_BLOCK_SIZE - 1) < 0 := by
    rw [firstSize, MLX5_CMD_DATA_BLOCK_SIZE, toInt]
    omega
  rw [calcCmdBlocks, hlen]
  refine Int.toNat_eq_zero.mpr (Int.neg_nonneg.mp ?_)
  rw [← Int.neg_tdiv]
  exact Int.tdiv_nonneg (Int.neg_nonneg.mpr hblen.le) (Int.natCast_nonneg _)

/-- The blocks of a chain carry their places. -/
def Numbered (l : List CmdMailbox) : Prop := ∀ i b, l[i]? = some b → beRead b.buf blockNumOff 4 = i

/-- What leaves the numbers of the blocks alone keeps the order. -/
theorem Numbered.mapIdx (h : Numbered l) {f : ℕ → CmdMailbox → CmdMailbox}
    (hf : ∀ i b x, blockNumOff ≤ x → x < blockNumOff + 4 → (f i b).buf x = b.buf x) :
    Numbered (l.mapIdx f) := by
  intro i b hb
  rw [getElem?_mapIdx] at hb
  obtain ⟨c, hc, rfl⟩ := Option.map_eq_some_iff.mp hb
  rw [beRead_congr (hf i c), h i c hc]

theorem fillBlock_of_ge {copy x : ℕ} (hcopy : copy ≤ 512) (hx : 512 ≤ x) (hne : x ≠ tokenOff) :
    (fillBlock frm token pos copy b).buf x = b.buf x := by
  exact (update_of_ne hne _ _).trans (if_neg (by omega))

theorem numbered_copyTo (h : Numbered l) :
    Numbered (copyToBlocks frm token pos size l).2 := by
  rw [copyToBlocks_eq]
  refine h.mapIdx fun i b x h1 h2 => ?_
  have h1 : 568 ≤ x := h1
  have h2 : x < 572 := h2
  split_ifs with hi
  · exact fillBlock_of_ge (by omega) (by omega) (by rw [tokenOff]; omega)
  · rfl

theorem numbered_sign (h : Numbered l) : Numbered (signBlocks n l) := by
  rw [signBlocks_eq]
  refine h.mapIdx fun i b x h1 h2 => ?_
  have h2 : x < 572 := h2
  by_cases hi : i < n
  · rw [if_pos hi]
    exact calcBlockSig_of_lt (h2.trans (by decide))
  · rw [if_neg hi]

theorem beRead_newBlock {nxt num : ℕ} (h : num < 2 ^ 32) :
    beRead (newBlock nxt num token) blockNumOff 4 = num := by
  have hnum : ∀ x, blockNumOff ≤ x → x < blockNumOff + 4 → newBlock nxt num token x =
      beWrite (beWrite (fun _ => 0) nextOff 8 nxt) blockNumOff 4 num x := by
    intro x _ hx
    have hx : x < 572 := hx
    exact update_of_ne (by rw [tokenOff]; omega) _ _
  rw [beRead_congr hnum]
  exact beRead_beWrite _ _ _ h

/-- ALLOCATE: after `i` rounds the chain holds the last `i` numbers in order. -/
theorem allocBlocks_spec {box : ℕ → Option ℕ} {i : ℕ} (hn : n ≤ 2 ^ 32) (hi : i ≤ n)
    (h : allocBlocks box token n i = some l) :
    l.length = i ∧ ∀ j b, l[j]? = some b → beRead b.buf blockNumOff 4 = n - i + j := by
  induction i generalizing l with
  | zero =>
    obtain rfl : [] = l := Option.some.inj h
    exact ⟨rfl, fun j b hb => by simp at hb⟩
  | succ i ih =>
    obtain ⟨head, hhead, h⟩ := Option.bind_eq_some_iff.mp h
    obtain ⟨dma, -, h⟩ := Option.bind_eq_some_iff.mp h
    obtain rfl := Option.some.inj h
    obtain ⟨hlen, hnum⟩ := ih (by omega) hhead
    refine ⟨by rw [List.length_cons, hlen], fun j b hb => ?_⟩
    cases j with
    | zero =>
      obtain rfl := Option.some.inj hb
      rw [beRead_newBlock (by omega)]
      omega
    | succ j =>
      rw [hnum j b (by simpa using hb)]
      omega

/-! ### Messages in the caches and in use -/

variable {sizes : List ℕ} {msg : CmdMsg} {caches : List CmdMsgCache} {a : Answers} {s : State}

/-- A message of cache `k`, whose largest command has `size` bytes. -/
structure Kept (k size : ℕ) (msg : CmdMsg) : Prop where
  parent : msg.parent = some k
  numbered : Numbered msg.next
  blocks : (calcCmdBlocks size).toNat ≤ msg.next.length

/-- A message in use: its chain has the blocks of its command, and of every command of its cache. A
    command whose blocks cannot be counted has none. -/
structure Fits (sizes : List ℕ) (msg : CmdMsg) : Prop where
  lt : msg.len < 2 ^ 31
  numbered : Numbered msg.next
  blocks : (calcCmdBlocks msg.len).toNat ≤ msg.next.length
  long : 2 ^ 31 - 496 < msg.len → msg.next = []
  home : ∀ k, msg.parent = some k → ∀ size, sizes[k]? = some size →
    (calcCmdBlocks size).toNat ≤ msg.next.length

/-- The caches and the messages in use. -/
structure Inv (sizes : List ℕ) (s : State) : Prop where
  size : s.caches.map CmdMsgCache.maxInboxSize = sizes
  kept : ∀ k ch, s.caches[k]? = some ch → ∀ msg ∈ ch.head, Kept k ch.maxInboxSize msg
  busy : ∀ msg ∈ s.busy, Fits sizes msg

theorem allocCmdMsg_spec (hlt : size < 2 ^ 31) (h : allocCmdMsg a size token = some msg) :
    Fits sizes msg ∧ msg.len = size ∧ msg.parent = none := by
  rw [allocCmdMsg] at h
  by_cases hmsg : a.msg
  · rw [if_pos hmsg] at h
    obtain ⟨head, hhead, rfl⟩ := Option.map_eq_some_iff.mp h
    rcases Nat.lt_or_ge (2 ^ 31 - 496) size with hbig | hle
    · rw [calcCmdBlocks_of_gt hbig hlt] at hhead
      obtain rfl : [] = head := Option.some.inj hhead
      refine ⟨⟨hlt, fun i b hb => by simp at hb, ?_, fun _ => rfl, fun k hk => by cases hk⟩,
        rfl, rfl⟩
      exact (calcCmdBlocks_of_gt hbig hlt).le
    · have hn := calcCmdBlocks_of_le hle
      obtain ⟨hlen, hnum⟩ := allocBlocks_spec (by omega) le_rfl hhead
      refine ⟨⟨hlt, fun i b hb => ?_, hlen.ge, fun h => absurd h hle.not_gt,
        fun k hk => by cases hk⟩, rfl, rfl⟩
      rw [hnum i b hb, Nat.sub_self, Nat.zero_add]
  · rw [if_neg hmsg] at h
    cases h

/-- TAKE: the first message of the first cache with one that is large enough. -/
theorem takeCached_spec {inSize : ℕ} {r : CmdMsg × List CmdMsgCache}
    (h : takeCached inSize caches = some r) : ∃ k ch msg head, caches[k]? = some ch ∧
      ch.head = msg :: head ∧ inSize ≤ ch.maxInboxSize ∧ r.1 = { msg with len := inSize } ∧
      r.2 = caches.set k { ch with head := head } := by
  induction caches generalizing r with
  | nil => cases h
  | cons ch rest ih =>
    have hskip : ∀ r, (takeCached inSize rest).map (fun r => (r.1, ch :: r.2)) = some r →
        ∃ k ch' msg head, (ch :: rest)[k]? = some ch' ∧ ch'.head = msg :: head ∧
          inSize ≤ ch'.maxInboxSize ∧ r.1 = { msg with len := inSize } ∧
          r.2 = (ch :: rest).set k { ch' with head := head } := by
      intro r hr
      obtain ⟨r', hr', rfl⟩ := Option.map_eq_some_iff.mp hr
      obtain ⟨k, ch', msg, head, h1, h2, h3, h4, h5⟩ := ih hr'
      exact ⟨k + 1, ch', msg, head, h1, h2, h3, h4, by rw [List.set_cons_succ, ← h5]⟩
    rw [takeCached] at h
    by_cases hbig : inSize > ch.maxInboxSize
    · rw [if_pos hbig] at h
      exact hskip r h
    · rw [if_neg hbig] at h
      rcases hhead : ch.head with _ | ⟨msg, head⟩ <;> rw [hhead] at h
      · exact hskip r h
      · obtain rfl := Option.some.inj h
        exact ⟨0, ch, msg, head, rfl, hhead, by omega, rfl, rfl⟩

theorem Fits.withNext (h : Fits sizes msg) {first : Memory} {next : List CmdMailbox}
    (hlen : next.length = msg.next.length) (hnum : Numbered next) :
    Fits sizes { msg with first := first, next := next } where
  lt := h.lt
  numbered := hnum
  blocks := h.blocks.trans hlen.ge
  long hbig := List.eq_nil_of_length_eq_zero (by rw [hlen, h.long hbig]; rfl)
  home k hk size hsize := (h.home k hk size hsize).trans hlen.ge

theorem Fits.copyTo (h : Fits sizes msg) : Fits sizes (copyToMsg msg frm size token).2 :=
  h.withNext (by rw [copyToBlocks_eq, List.length_mapIdx]) (numbered_copyTo h.numbered)

theorem Fits.sign (h : Fits sizes msg) : Fits sizes (calcChainSig msg) :=
  h.withNext (by rw [signBlocks_eq, List.length_mapIdx]) (numbered_sign h.numbered)

theorem mem_modify {f : CmdMsg → CmdMsg} {msgs : List CmdMsg} {i : ℕ}
    (h : msg ∈ msgs.modify i f) : msg ∈ msgs ∨ ∃ msg' ∈ msgs, msg = f msg' := by
  obtain ⟨j, hj⟩ := List.mem_iff_getElem?.mp h
  rw [List.getElem?_modify] at hj
  obtain ⟨msg', hmsg', rfl⟩ := Option.map_eq_some_iff.mp hj
  have hmem := List.mem_of_getElem? hmsg'
  by_cases hij : i = j
  · exact .inr ⟨msg', hmem, by rw [if_pos hij]⟩
  · exact .inl (by rw [if_neg hij]; exact hmem)

/-- The largest commands of the caches. -/
def cacheSizes (num : ℕ) : List ℕ := (cmdCacheEnt.take num).map Prod.snd

theorem cacheSizes_le {num : ℕ} (h : size ∈ cacheSizes num) : size ≤ 16 + 512 * 512 := by
  have hall : ∀ e ∈ cmdCacheEnt, e.2 ≤ 16 + 512 * 512 := by decide
  obtain ⟨e, he, rfl⟩ := List.mem_map.mp h
  exact hall e (List.mem_of_mem_take he)

theorem fillCache_kept {a : ℕ → Answers} (hsize : size ≤ 2 ^ 31 - 496) (n : ℕ) :
    ∀ msg ∈ fillCache k size a n, Kept k size msg := by
  induction n with
  | zero => exact fun msg h => by cases h
  | succ n ih =>
    intro msg h
    rw [fillCache] at h
    rcases hmsg : allocCmdMsg (a n) size 0 with _ | msg' <;> rw [hmsg] at h
    · cases h
    · obtain ⟨hfit, hlen, -⟩ := @allocCmdMsg_spec _ _ [] _ _ (by omega) hmsg
      rcases List.mem_cons.mp h with rfl | h
      · exact ⟨rfl, hfit.numbered, hlen ▸ hfit.blocks⟩
      · exact ih msg h

theorem createMsgCache_inv (num : ℕ) (a : ℕ → ℕ → Answers) :
    Inv (cacheSizes num) { caches := createMsgCache num a, busy := [] } where
  size := by
    refine List.ext_getElem? fun i => ?_
    rw [createMsgCache, getElem?_map, getElem?_mapIdx, cacheSizes, getElem?_map,
      Option.map_map]
    rfl
  kept k ch hch msg hmsg := by
    rw [createMsgCache, getElem?_mapIdx] at hch
    obtain ⟨e, he, rfl⟩ := Option.map_eq_some_iff.mp hch
    have hle : e.2 ≤ 16 + 512 * 512 :=
      cacheSizes_le (List.mem_map_of_mem (List.mem_of_getElem? he))
    exact fillCache_kept (hle.trans (by decide)) _ msg hmsg
  busy msg h := by cases h

/-- The messages of one cache are changed. -/
theorem Inv.setHead (h : Inv sizes s) {ch : CmdMsgCache} (hch : s.caches[k]? = some ch)
    {head : List CmdMsg} (hhead : ∀ msg ∈ head, Kept k ch.maxInboxSize msg)
    (hcaches : ∀ j, caches[j]? = if k = j then some { ch with head := head } else s.caches[j]?)
    {busy : List CmdMsg} (hbusy : ∀ msg ∈ busy, Fits sizes msg) :
    Inv sizes { caches := caches, busy := busy } where
  size := by
    rw [← h.size]
    refine List.ext_getElem? fun j => ?_
    rw [getElem?_map, getElem?_map, hcaches]
    split_ifs with hj
    · rw [← hj, hch]
      rfl
    · rfl
  kept j ch' hch' msg hmsg := by
    rw [hcaches] at hch'
    by_cases hj : k = j
    · rw [if_pos hj] at hch'
      obtain rfl := Option.some.inj hch'
      exact hj ▸ hhead msg hmsg
    · rw [if_neg hj] at hch'
      exact h.kept j ch' hch' msg hmsg
  busy := hbusy

/-- ALLOCATE: a message of a cache, or a new one. -/
theorem Inv.allocMsg (h : Inv sizes s) (hmax : ∀ size ∈ sizes, size ≤ 16 + 512 * 512) {inSize : ℕ}
    (hlt : inSize < 2 ^ 31) : Inv sizes
      { caches := (allocMsg s.caches a inSize).2,
        busy := s.busy ++ (allocMsg s.caches a inSize).1.toList } := by
  have hbusy : ∀ {r : Option CmdMsg}, (∀ msg ∈ r, Fits sizes msg) →
      ∀ msg ∈ s.busy ++ r.toList, Fits sizes msg := by
    intro r hr msg hmsg
    rcases List.mem_append.mp hmsg with hmsg | hmsg
    · exact h.busy msg hmsg
    · exact hr msg (Option.mem_toList.mp hmsg)
  have hmiss : Inv sizes
      { caches := s.caches, busy := s.busy ++ (allocCmdMsg a inSize 0).toList } :=
    ⟨h.size, h.kept, hbusy fun msg hmsg => (allocCmdMsg_spec hlt hmsg).1⟩
  rw [Mailbox.allocMsg]
  split_ifs with hsmall
  · exact hmiss
  · rcases htake : takeCached inSize s.caches with _ | ⟨msg', caches⟩
    · exact hmiss
    · obtain ⟨k, ch, msg, head, hch, hhead, hle, rfl, rfl⟩ := takeCached_spec htake
      have hkept := h.kept k ch hch
      rw [hhead] at hkept
      have hmsg := hkept msg List.mem_cons_self
      have hk : sizes[k]? = some ch.maxInboxSize := by rw [← h.size, getElem?_map, hch]; rfl
      have hchmax := hmax _ (List.mem_of_getElem? hk)
      have hblocks := hmsg.blocks
      refine h.setHead hch (fun m hm => hkept m (List.mem_cons_of_mem _ hm)) (fun j => ?_)
        (hbusy fun m hm => ?_)
      · rw [List.getElem?_set']
        by_cases hj : k = j
        · rw [if_pos hj, if_pos hj, ← hj, hch]
          rfl
        · rw [if_neg hj, if_neg hj]
      · obtain rfl := Option.some.inj hm
        refine ⟨hlt, hmsg.numbered, ?_, fun hbig => ?_, fun j hj size hsize => ?_⟩
        · -- the chain was made for the largest command of the cache
          have hin := @calcCmdBlocks_of_le inSize (by omega)
          have hch := @calcCmdBlocks_of_le ch.maxInboxSize (by omega)
          refine le_trans ?_ hblocks
          rw [hin, hch]
          exact Int.toNat_le_toNat (by exact_mod_cast Nat.div_le_div_right (by omega))
        · have hbig : 2 ^ 31 - 496 < inSize := hbig
          omega
        · obtain rfl : k = j := Option.some.inj (hmsg.parent.symm.trans hj)
          rw [hk] at hsize
          exact Option.some.inj hsize ▸ hblocks

/-- FREE: the message is in its cache again. -/
theorem Inv.freeMsg (h : Inv sizes s) (hmsg : Fits sizes msg) {busy : List CmdMsg}
    (hbusy : ∀ msg ∈ busy, Fits sizes msg) :
    Inv sizes { caches := freeMsg s.caches msg, busy := busy } := by
  rw [Mailbox.freeMsg]
  rcases hparent : msg.parent with _ | k
  · exact ⟨h.size, h.kept, hbusy⟩
  · rcases hch : s.caches[k]? with _ | ch
    · have hsame : s.caches.modify k (fun ch => { ch with head := ch.head ++ [msg] }) = s.caches :=
        List.modify_eq_self (List.getElem?_eq_none_iff.mp hch)
      simp only [hsame]
      exact ⟨h.size, h.kept, hbusy⟩
    · refine h.setHead hch (fun m (hm : m ∈ ch.head ++ [msg]) => ?_) (fun j => ?_) hbusy
      · rcases List.mem_append.mp hm with hm | hm
        · exact h.kept k ch hch m hm
        · obtain rfl := List.mem_singleton.mp hm
          refine ⟨hparent, hmsg.numbered, hmsg.home k hparent _ ?_⟩
          rw [← h.size, getElem?_map, hch]
          rfl
      · rw [List.getElem?_modify]
        by_cases hj : k = j
        · rw [if_pos hj, ← hj, hch]
          simp
        · rw [if_neg hj]
          simp [hj]

/-- STEP: every action keeps the caches and the messages in use. -/
theorem Inv.step (h : Inv sizes s) (hmax : ∀ size ∈ sizes, size ≤ 16 + 512 * 512) {act : Act}
    (hok : ok s act) : Inv sizes (step s act) := by
  cases act with
  | allocIn a inSize => exact h.allocMsg hmax hok
  | allocOut a outSize token =>
    refine ⟨h.size, h.kept, fun msg hmsg => ?_⟩
    rcases List.mem_append.mp hmsg with hmsg | hmsg
    · exact h.busy msg hmsg
    · exact (allocCmdMsg_spec hok (Option.mem_toList.mp hmsg)).1
  | copyTo i frm token =>
    refine ⟨h.size, h.kept, fun msg hmsg => ?_⟩
    rcases mem_modify hmsg with hmsg | ⟨old, hold, rfl⟩
    · exact h.busy msg hmsg
    · exact (h.busy old hold).copyTo
  | sign i =>
    refine ⟨h.size, h.kept, fun msg hmsg => ?_⟩
    rcases mem_modify hmsg with hmsg | ⟨old, hold, rfl⟩
    · exact h.busy msg hmsg
    · exact (h.busy old hold).sign
  | free i =>
    rw [Mailbox.step]
    rcases hi : s.busy[i]? with _ | msg
    · exact h
    · exact h.freeMsg (h.busy msg (List.mem_of_getElem? hi)) fun m hm =>
        h.busy m (List.mem_of_mem_eraseIdx hm)

/-- RUN: whatever commands have run, the chains fit. -/
theorem reach_inv {num : ℕ} {a : ℕ → ℕ → Answers}
    (h : Reach step ok { caches := createMsgCache num a, busy := [] } s) :
    Inv (cacheSizes num) s :=
  h.invariant (createMsgCache_inv num a) fun _ _ hok hs => hs.step (fun _ => cacheSizes_le) hok

/-! ### The layout -/

/-- The message carries its bytes: the blocks that it counts have their numbers in chain order and
    the token, and the bytes are read back. -/
structure Carries (msg : CmdMsg) (frm : Memory) (token : BitVec 8) : Prop where
  blocks : ∀ i : ℕ, (i : ℤ) < calcCmdBlocks msg.len → ∃ b, msg.next[i]? = some b ∧
    beRead b.buf blockNumOff 4 = i ∧ b.buf tokenOff = token
  back : ∀ dst, copyFromMsg dst msg msg.len = (none, copyBytes dst 0 frm 0 msg.len)

/-- A command is laid out in the message: it is copied in, the message carries it before and after
    it is signed, and every block that is counted passes the check of its signatures. -/
structure Laid (msg : CmdMsg) (frm : Memory) (token : BitVec 8) : Prop where
  copied : (copyToMsg msg frm msg.len token).1 = none
  plain : Carries (copyToMsg msg frm msg.len token).2 frm token
  signed : Carries (calcChainSig (copyToMsg msg frm msg.len token).2) frm token
  verified : ∀ i : ℕ, (i : ℤ) < calcCmdBlocks msg.len → ∃ b,
    (calcChainSig (copyToMsg msg frm msg.len token).2).next[i]? = some b ∧
      verifyBlockSig b.buf = none

/-- Block `i` of a command of `size` bytes behind the first ones. -/
structure Filled (frm : Memory) (token : BitVec 8) (pos size i : ℕ) (b : CmdMailbox) : Prop where
  token : b.buf tokenOff = token
  bytes : ∀ k < 512, 512 * i + k < size → b.buf k = frm (pos + 512 * i + k)

theorem filled_copyTo {i : ℕ} (hi : 512 * i < size)
    (hb : (copyToBlocks frm token pos size l).2[i]? = some b) : Filled frm token pos size i b := by
  rw [copyToBlocks_eq, getElem?_mapIdx] at hb
  obtain ⟨c, -, rfl⟩ := Option.map_eq_some_iff.mp hb
  rw [if_pos hi]
  refine ⟨by simp [fillBlock], fun k hk hlt => ?_⟩
  have hne : k ≠ tokenOff := by
    rw [tokenOff]
    omega
  refine (update_of_ne hne _ _).trans ((if_pos (by omega)).trans ?_)
  rw [Nat.sub_zero]

theorem filled_sign {i : ℕ} (h : ∀ b, l[i]? = some b → Filled frm token pos size i b)
    (hb : (signBlocks n l)[i]? = some b) : Filled frm token pos size i b := by
  rw [signBlocks_eq, getElem?_mapIdx] at hb
  obtain ⟨c, hc, rfl⟩ := Option.map_eq_some_iff.mp hb
  have hfill := h c hc
  split_ifs with hi
  · refine ⟨(calcBlockSig_of_lt (by decide)).trans hfill.token, fun k hk hlt => ?_⟩
    have hlow : k < ctrlSigOff := hk.trans (by decide)
    exact (calcBlockSig_of_lt hlow).trans (hfill.bytes k hk hlt)
  · exact hfill

theorem carries_of (hlen : msg.len ≤ 2 ^ 31 - 496)
    (hblocks : (calcCmdBlocks msg.len).toNat ≤ msg.next.length) (hnum : Numbered msg.next)
    (hfirst : ∀ k < min msg.len 16, msg.first k = frm k)
    (hfill : ∀ i b, 512 * i < msg.len - min msg.len 16 → msg.next[i]? = some b →
      Filled frm token (min msg.len 16) (msg.len - min msg.len 16) i b) :
    Carries msg frm token where
  blocks i hi := by
    obtain ⟨b, hb⟩ : ∃ b, msg.next[i]? = some b :=
      ⟨_, List.getElem?_eq_getElem (show i < msg.next.length by omega)⟩
    rw [calcCmdBlocks_of_le hlen] at hi
    exact ⟨b, hb, hnum i b hb, (hfill i b (by omega) hb).token⟩
  back dst := by
    rw [calcCmdBlocks_of_le hlen, Int.toNat_natCast] at hblocks
    rw [copyFromMsg, firstSize, copyFromBlocks_eq (by omega) fun i b hb k hk hlt =>
      (hfill i b (by omega) hb).bytes k hk hlt]
    refine congrArg (Prod.mk none) (funext fun x => ?_)
    simp only [copyBytes, Nat.zero_le, true_and, Nat.zero_add, Nat.sub_zero]
    by_cases hx : x < msg.len
    · by_cases hlow : x < min msg.len 16
      · rw [if_neg (by omega), if_pos hlow, if_pos hx, hfirst x hlow]
      · rw [if_pos (by omega), if_pos hx]
        congr 1
        omega
    · rw [if_neg (by omega), if_neg (by omega), if_neg hx]

/-- A message that fits is laid out. -/
theorem Fits.laid (h : Fits sizes msg) (hlen : msg.len ≤ 2 ^ 31 - 496) : Laid msg frm token := by
  have hblocks := h.blocks
  have hn := calcCmdBlocks_of_le hlen
  have hfirst : ∀ k < min msg.len 16, copyBytes msg.first 0 frm 0 (min msg.len 16) k = frm k := by
    intro k hk
    rw [copyBytes, if_pos (by omega), Nat.zero_add, Nat.sub_zero]
  have hcopy : Fits sizes (copyToMsg msg frm msg.len token).2 := h.copyTo
  have hsign := hcopy.sign
  have hplain : Carries (copyToMsg msg frm msg.len token).2 frm token := by
    refine carries_of hlen hcopy.blocks hcopy.numbered hfirst ?_
    exact fun i b hi hb => filled_copyTo hi hb
  have hsigned : Carries (calcChainSig (copyToMsg msg frm msg.len token).2) frm token := by
    refine carries_of hlen hsign.blocks hsign.numbered hfirst ?_
    intro i b hi hb
    have hall : ∀ b, (copyToMsg msg frm msg.len token).2.next[i]? = some b →
        Filled frm token (min msg.len 16) (msg.len - min msg.len 16) i b :=
      fun b hb => filled_copyTo hi hb
    simp only [calcChainSig] at hb
    exact filled_sign hall hb
  refine ⟨?_, hplain, hsigned, fun i hi => ?_⟩
  · rw [hn, Int.toNat_natCast] at hblocks
    have hlong : msg.len - min msg.len 16 ≤ 512 * msg.next.length := by omega
    simp only [copyToMsg, copyToBlocks_eq]
    exact if_pos hlong
  · obtain ⟨b, hb, -⟩ := hplain.blocks i hi
    refine ⟨{ b with buf := calcBlockSig b.buf }, ?_, verify_calcBlockSig _⟩
    have hi' : i < (calcCmdBlocks msg.len).toNat := by omega
    rw [calcChainSig, signBlocks_eq, getElem?_mapIdx, hb]
    exact congrArg some (if_pos hi')

/-- CORRECT only in part: a message in use, whatever commands have run before and whether it is new
    or a cached one, lays out every command of its size iff the number of blocks of that size does
    not overflow an `int`. -/
theorem mailbox_layout {num : ℕ} {a : ℕ → ℕ → Answers}
    (h : Reach step ok { caches := createMsgCache num a, busy := [] } s) (hmsg : msg ∈ s.busy) :
    (∀ frm token, Laid msg frm token) ↔ msg.len ≤ 2 ^ 31 - 496 := by
  have hfit := (reach_inv h).busy msg hmsg
  refine ⟨fun hlaid => ?_, fun hlen frm token => hfit.laid hlen⟩
  by_contra hlong
  have hnil := hfit.long (by omega)
  have hcopied := (hlaid (fun _ => 0) 0).copied
  rw [copyToMsg, hnil, firstSize, copyToBlocks, if_neg (by omega)] at hcopied
  cases hcopied

/-- The allocator always has memory. -/
def plenty : Answers := { msg := true, box := some }

/-- The first cache has one message, and it carries a command of 100 bytes. -/
def demoStart : State :=
  { caches := createMsgCache 1 fun _ left => if left = 511 then plenty else ⟨false, some⟩,
    busy := [] }

def demoState : State := step demoStart (.allocIn plenty 100)

def demoMsg : CmdMsg := demoState.busy.headD ⟨none, 0, fun _ => 0, []⟩

theorem demoState_reach : Reach step ok demoStart demoState :=
  Reach.start.next (show 100 < 2 ^ 31 by decide)

theorem mailbox_layout_demo :
    demoMsg.parent = some 0 ∧ ((∀ frm token, Laid demoMsg frm token) ↔
      demoMsg.len ≤ 2 ^ 31 - 496) :=
  ⟨rfl, mailbox_layout demoState_reach (List.mem_singleton.mpr rfl)⟩

/-- No cache, and a command of nearly 2^31 bytes. -/
def brokenState : State := step { caches := [], busy := [] } (.allocIn plenty (2 ^ 31 - 100))

/-- BROKEN: the number of blocks overflows, the message has none, and the copy reaches the branch
    for a missing block. -/
theorem mailbox_layout_broken :
    Reach step ok { caches := createMsgCache 0 fun _ _ => plenty, busy := [] } brokenState ∧
      ∃ msg ∈ brokenState.busy, msg.len = 2 ^ 31 - 100 ∧ msg.next.length = 0 ∧
        (copyToMsg msg (fun _ => 7) msg.len 1).1 = some .enomem ∧
        ¬Laid msg (fun _ => 7) 1 := by
  have hcopy : (copyToMsg ⟨none, 2 ^ 31 - 100, fun _ => 0, []⟩ (fun _ => 7) (2 ^ 31 - 100) 1).1 =
      some .enomem := by decide
  refine ⟨Reach.start.next (by decide : (2 ^ 31 - 100 : ℕ) < 2 ^ 31), ⟨none, 2 ^ 31 - 100,
    fun _ => 0, []⟩, ?_, rfl, rfl, hcopy, fun h => ?_⟩
  · exact List.mem_singleton.mpr rfl
  · have := h.copied.symm.trans hcopy
    cases this

end RdmaDriver.Mailbox
