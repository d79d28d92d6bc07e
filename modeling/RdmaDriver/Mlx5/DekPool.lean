import Mathlib.Algebra.BigOperators.Group.List.Basic
import Mathlib.Algebra.Order.Group.Int
import Mathlib.Algebra.Ring.Int.Defs
import Mathlib.Data.List.Perm.Basic
import Mathlib.Data.List.Nodup
import Mathlib.Data.Nat.Count
import Mathlib.Logic.Function.Basic
import RdmaDriver.Schemes.Run
import RdmaDriver.Schemes.Tally

/-! @src drivers/net/ethernet/mellanox/mlx5/core/lib/crypto.c | name:encryption keys | scheme:pool |
    family:bitmaps

    Encryption keys are made in bulks. A key that was used is not given out again before a command
    has synchronised the device with the keys that were freed.

        need_sync, in_use:   0 0 -- pop --> 1 1 -- free --> 1 0 -- sync works --> 0 0

        partial -- last one taken --> full -- last one freed --> sync
           ^ taken            some synced |                       | synced
        avail <-------- all synced -------+<----------------------+      (one is kept)

    While a sync is under way, keys that are freed are parked; they are freed when it has worked. -/

namespace RdmaDriver.DekPool
open RdmaDriver.Schemes Function
open List (append_nil count_append count_cons count_pos_iff length_cons map_cons mem_append
  mem_cons mem_cons_of_mem mem_cons_self nodup_cons nodup_iff_count_le_one perm_iff_count sum_cons)
open Nat (count)

def MLX5_CRYPTO_DEK_POOL_SYNC_THRESH : ℤ := 128
def BITS_PER_LONG : ℕ := 64

/-- The lists of a pool. -/
inductive Kind where
  | part | full | avail | sync
  deriving DecidableEq

/-- `struct mlx5_crypto_dek_bulk`. -/
structure Bulk where
  availStart : ℕ
  availDeks : ℤ
  inUseDeks : ℤ
  inUse : ℕ → Bool
  needSync : ℕ → Bool

/-- A key: the bulk and the bit. -/
abbrev Dek := ℕ × ℕ

/-- `struct mlx5_crypto_dek_pool` with its bulks, and its two works. Beside them: the name of the
    next bulk, the bulks that were given back, the keys that have a user, the keys that no user had
    since the last sync command was started, and the keys that no user had since a sync command that
    worked was started. -/
structure St where
  list : Kind → List ℕ
  bulk : ℕ → Bulk
  numDeks : ℤ
  availDeks : ℤ
  inUseDeks : ℤ
  syncing : Bool
  waitForFree : List Dek
  destroyList : List ℕ
  syncPending : Bool
  syncRunning : Bool
  destroyPending : Bool
  next : ℕ
  freed : List ℕ
  held : List Dek
  covered : Dek → Bool
  clean : Dek → Bool

/-- `MLX5_CRYPTO_DEK_BULK_CALC_FREED`. -/
def bulkCalcFreed (n : ℕ) (v : Bulk) : ℤ := n - v.availDeks - v.inUseDeks

/-- `MLX5_CRYPTO_DEK_POOL_CALC_FREED`. -/
def poolCalcFreed (s : St) : ℤ := s.numDeks - s.availDeks - s.inUseDeks

/-- `list_del` of a bulk. -/
def listDel (list : Kind → List ℕ) (b : ℕ) : Kind → List ℕ := fun k => (list k).erase b

/-- `list_move` of a bulk. -/
def listMove (list : Kind → List ℕ) (b : ℕ) (k : Kind) : Kind → List ℕ :=
  update (listDel list b) k (b :: (list k).erase b)

section Pop
variable (n : ℕ)

/-- `mlx5_crypto_dek_bulk_create` that works. -/
def bulkCreate : Bulk := ⟨0, n, 0, fun _ => false, fun _ => false⟩

/-- `mlx5_crypto_dek_pool_add_bulk`. -/
def poolAddBulk (s : St) : St :=
  { s with
    availDeks := s.availDeks + n
    numDeks := s.numDeks + n
    bulk := update s.bulk s.next (bulkCreate n)
    list := update s.list .part (s.next :: s.list .part)
    clean := fun k => if k.1 = s.next then true else s.clean k
    next := s.next + 1 }

/-- `find_next_zero_bit`. -/
def findNextZeroBit (bits : ℕ → Bool) (start : ℕ) : ℕ :=
  ((List.range' start (n - start)).find? fun j => !bits j).getD n

/-- The end of `mlx5_crypto_dek_pool_pop`, with the bulk and the bit. -/
def popTake (s : St) (b pos : ℕ) : St :=
  let v := s.bulk b
  let v := { v with
    needSync := update v.needSync pos true
    inUse := update v.inUse pos true
    inUseDeks := v.inUseDeks + 1
    availDeks := v.availDeks - 1 }
  let s := { s with
    availDeks := s.availDeks - 1
    inUseDeks := s.inUseDeks + 1
    held := (b, pos) :: s.held
    covered := update s.covered (b, pos) false
    clean := update s.clean (b, pos) false }
  if v.availDeks = 0 then
    { s with
      list := listMove s.list b .full
      bulk := update s.bulk b { v with availStart := n } }
  else { s with bulk := update s.bulk b { v with availStart := pos + 1 } }

/-- The bit of a bulk with free keys in `mlx5_crypto_dek_pool_pop`. -/
def popPos (v : Bulk) : ℕ :=
  let pos := findNextZeroBit n v.needSync v.availStart
  if pos = n then findNextZeroBit n v.needSync 0 else pos

/-- `mlx5_crypto_dek_pool_pop`: the key, unless a bulk cannot be created. -/
def mlx5CryptoDekPoolPop (s : St) (bulkOk : Bool) : Option (Dek × St) :=
  match s.list .part, s.list .avail with
  | b :: _, _ => some ((b, popPos n (s.bulk b)), popTake n s b (popPos n (s.bulk b)))
  | [], b :: _ => some ((b, 0), popTake n { s with list := listMove s.list b .part } b 0)
  | [], [] => if bulkOk then some ((s.next, 0), popTake n (poolAddBulk n s) s.next 0) else none

end Pop

section Free

/-- `mlx5_crypto_dek_need_sync`. -/
def mlx5CryptoDekNeedSync (s : St) : Bool :=
  !s.syncing && decide (poolCalcFreed s > MLX5_CRYPTO_DEK_POOL_SYNC_THRESH)

/-- `schedule_work(&pool->sync_work)`, with what follows where it was not queued yet. -/
def scheduleSync (s : St) : St :=
  if s.syncPending then s else { s with syncPending := true, syncing := true }

/-- `mlx5_crypto_dek_free_locked`. -/
def mlx5CryptoDekFreeLocked (s : St) (d : Dek) : St :=
  let v := s.bulk d.1
  if !v.inUse d.2 then s
  else
    let v := { v with inUse := update v.inUse d.2 false, inUseDeks := v.inUseDeks - 1 }
    let s := { s with bulk := update s.bulk d.1 v, inUseDeks := s.inUseDeks - 1 }
    let s :=
      if v.availDeks = 0 ∧ v.inUseDeks = 0 then { s with list := listMove s.list d.1 .sync } else s
    if mlx5CryptoDekNeedSync s then scheduleSync s else s

/-- `mlx5_crypto_dek_pool_push`, by the user of the key. -/
def mlx5CryptoDekPoolPush (s : St) (d : Dek) : St :=
  let s := { s with held := s.held.erase d }
  if s.syncing then { s with waitForFree := d :: s.waitForFree }
  else mlx5CryptoDekFreeLocked s d

/-- `mlx5_crypto_dek_pool_free_wait_keys`. -/
def poolFreeWaitKeys : List Dek → St → St
  | [], s => s
  | d :: l, s => poolFreeWaitKeys l (mlx5CryptoDekFreeLocked { s with waitForFree := l } d)

end Free

section Sync
variable (n : ℕ)

/-- `hweight_long` of the bits of word `i` in which the two bitmaps differ. -/
def hweightXor (v : Bulk) (i : ℕ) : ℕ :=
  count (fun j => j / BITS_PER_LONG = i ∧ v.needSync j ≠ v.inUse j) n

/-- The loop of `mlx5_crypto_dek_bulk_reset_synced` from word `i` on, for so many words: the bulk
    and how many keys it adds to those of the pool. -/
def resetLoop : ℕ → ℕ → ℤ → Bool → Bulk → ℤ → Bulk × ℤ
  | 0, _, _, _, v, added => (v, added)
  | w + 1, i, freed, first, v, added =>
    if freed = 0 then (v, added)
    else
      let reused := hweightXor n v i
      if reused = 0 then resetLoop w (i + 1) freed first v added
      else
        let availNext := i * BITS_PER_LONG
        let availStart := if first ∧ v.availStart > availNext then availNext else v.availStart
        let needSync := fun j => if j / BITS_PER_LONG = i then v.inUse j else v.needSync j
        let v := { v with
          availDeks := v.availDeks + reused, needSync := needSync, availStart := availStart }
        resetLoop w (i + 1) (freed - reused) false v (added + reused)

/-- `mlx5_crypto_dek_bulk_reset_synced`. -/
def bulkResetSynced (s : St) (b : ℕ) : St :=
  let r := resetLoop n ((n + BITS_PER_LONG - 1) / BITS_PER_LONG) 0 (bulkCalcFreed n (s.bulk b)) true
    (s.bulk b) 0
  { s with bulk := update s.bulk b r.1, availDeks := s.availDeks + r.2 }

/-- `mlx5_crypto_dek_bulk_handle_avail`: whether the bulk is kept; the list of bulks to destroy is
    that of the pool. -/
def bulkHandleAvail (s : St) (b : ℕ) : Bool × St :=
  if s.list .avail = [] then (true, { s with list := listMove s.list b .avail })
  else
    (false, { s with
      numDeks := s.numDeks - n
      availDeks := s.availDeks - (s.bulk b).availDeks
      inUseDeks := s.inUseDeks - (s.bulk b).inUseDeks
      list := listDel s.list b
      destroyList := b :: s.destroyList })

/-- A turn of the loop of `mlx5_crypto_dek_pool_reset_synced` over the partial list. -/
def resetPart (s : St) (b : ℕ) : St :=
  let s := bulkResetSynced n s b
  if (s.bulk b).availDeks = n then (bulkHandleAvail n s b).2 else s

/-- A turn of the loop over the full list. -/
def resetFull (s : St) (b : ℕ) : St :=
  let s := bulkResetSynced n s b
  if (s.bulk b).availDeks = 0 then s
  else if (s.bulk b).availDeks = n then (bulkHandleAvail n s b).2
  else { s with list := listMove s.list b .part }

/-- A turn of the loop over the sync list. -/
def resetSync (s : St) (b : ℕ) : St :=
  let v := { s.bulk b with availDeks := n }
  let s := { s with bulk := update s.bulk b v, availDeks := s.availDeks + n }
  match bulkHandleAvail n s b with
  | (true, s) =>
    { s with
      bulk := update s.bulk b { v with needSync := fun _ => false, availStart := 0 } }
  | (false, s) => s

/-- The three loops of `mlx5_crypto_dek_pool_reset_synced`. -/
def resetLists (s : St) : St :=
  let s := (s.list .part).foldl (resetPart n) s
  let s := (s.list .full).foldl (resetFull n) s
  (s.list .sync).foldl (resetSync n) s

/-- `mlx5_crypto_dek_pool_reset_synced`. -/
def poolResetSynced (s : St) : St :=
  let s' := resetLists n s
  let s' := poolFreeWaitKeys s'.waitForFree s'
  if s'.destroyList.length > s.destroyList.length then { s' with destroyPending := true } else s'

/-- `mlx5_crypto_dek_sync_work_fn`, up to the command. -/
def syncStart (s : St) : St :=
  { s with
    syncPending := false
    syncRunning := true
    covered := fun d => !s.held.contains d }

/-- `mlx5_crypto_dek_sync_work_fn` after the command. -/
def syncEnd (s : St) (ok : Bool) : St :=
  let s :=
    if ok then poolResetSynced n { s with clean := fun d => s.clean d || s.covered d } else s
  { s with syncing := false, syncRunning := false }

/-- `mlx5_crypto_dek_destroy_work_fn`. -/
def destroyWork (s : St) : St :=
  { s with destroyPending := false, destroyList := [], freed := s.destroyList ++ s.freed }

/-- `cancel_work_sync` of the sync work waits for a command that is under way. -/
def waitSync (s : St) (ok : Bool) : St := if s.syncRunning then syncEnd n s ok else s

/-- `mlx5_crypto_dek_pool_destroy`; a command that is under way works or fails. -/
def mlx5CryptoDekPoolDestroy (s : St) (ok : Bool) : St :=
  let s := { waitSync n s ok with syncPending := false, destroyPending := false }
  let s := poolFreeWaitKeys s.waitForFree s
  { s with
    list := fun _ => []
    freed :=
      s.list .avail ++ s.list .full ++ s.list .sync ++ s.list .part ++ s.destroyList ++ s.freed
    destroyList := [] }

end Sync

/-- A step: a key is taken, in the creation of a key; a key is given back, by its destruction or by
    the creation that fails after it; the works; and the end of the pool. -/
inductive Op where
  | pop (bulkOk : Bool)
  | push (d : Dek)
  | syncStart
  | syncEnd (ok : Bool)
  | destroyWork

/-- The pool after a step. -/
def step (n : ℕ) (s : St) : Op → St
  | .pop bulkOk => ((mlx5CryptoDekPoolPop n s bulkOk).map Prod.snd).getD s
  | .push d => mlx5CryptoDekPoolPush s d
  | .syncStart => syncStart s
  | .syncEnd ok => syncEnd n s ok
  | .destroyWork => destroyWork s

/-- A key is given back by its user, and a work runs where it is queued. -/
def Allowed (s : St) : Op → Prop
  | .pop _ => True
  | .push d => d ∈ s.held
  | .syncStart => s.syncPending = true ∧ s.syncRunning = false
  | .syncEnd _ => s.syncRunning = true
  | .destroyWork => s.destroyPending = true

/-- `mlx5_crypto_dek_pool_create`. -/
def start : St :=
  ⟨fun _ => [], fun _ => ⟨0, 0, 0, fun _ => false, fun _ => false⟩, 0, 0, 0, false, [], [], false,
    false, false, 0, [], [], fun _ => false, fun _ => false⟩

section Counting
variable {p q : ℕ → Prop} [DecidablePred p] [DecidablePred q] {n : ℕ}

/-- The indices with a property are those with another one as well, and those without it. -/
theorem count_split (p q : ℕ → Prop) [DecidablePred p] [DecidablePred q] : ∀ n : ℕ,
    count p n = count (fun j => p j ∧ q j) n + count (fun j => p j ∧ ¬q j) n
  | 0 => rfl
  | n + 1 => by
    rw [Nat.count_succ, Nat.count_succ, Nat.count_succ, count_split p q n]
    by_cases hp : p n <;> by_cases hq : q n <;> simp [hq] <;> omega

/-- The indices with a property and those without it are all of them. -/
theorem count_not (p : ℕ → Prop) [DecidablePred p] (n : ℕ) :
    count p n + count (fun j => ¬p j) n = n := by
  have h := count_split (fun _ => True) p n
  simpa using h.symm

end Counting

section Bulks
variable {n : ℕ} {v : Bulk} {j : ℕ}

/-- A bulk whose counts are those of its bits, and whose used keys need a sync. -/
structure BulkOk (n : ℕ) (v : Bulk) : Prop where
  used : ∀ j < n, v.inUse j = true → v.needSync j = true
  avail : v.availDeks = count (fun j => v.needSync j = false) n
  inUse : v.inUseDeks = count (fun j => v.inUse j = true) n

/-- The list that the counts of a bulk prescribe. -/
def InKind (n : ℕ) (v : Bulk) : Kind → Prop
  | .part => 0 < v.availDeks ∧ v.availDeks < n ∧ ∀ j < n, v.needSync j = false → v.availStart ≤ j
  | .full => v.availDeks = 0 ∧ 0 < v.inUseDeks
  | .avail => v.availDeks = n
  | .sync => v.availDeks = 0 ∧ v.inUseDeks = 0

/-- The keys that were freed, and not synchronised yet, are those with different bits. -/
theorem BulkOk.calcFreed (h : BulkOk n v) :
    bulkCalcFreed n v = count (fun j => v.needSync j ≠ v.inUse j) n := by
  have hneed := count_not (fun j => v.needSync j = false) n
  have hsplit := count_split (fun j => ¬v.needSync j = false) (fun j => v.inUse j = true) n
  have huse : count (fun j => ¬v.needSync j = false ∧ v.inUse j = true) n =
      count (fun j => v.inUse j = true) n :=
    count_congr fun j hj => ⟨And.right, fun hu => ⟨by rw [h.used j hj hu]; decide, hu⟩⟩
  have hdiff : count (fun j => ¬v.needSync j = false ∧ ¬v.inUse j = true) n =
      count (fun j => v.needSync j ≠ v.inUse j) n := by
    refine count_congr fun j hj => ?_
    have hu := h.used j hj
    cases hn : v.needSync j <;> cases hi : v.inUse j <;> simp [hn, hi] at hu ⊢
  unfold bulkCalcFreed
  rw [h.avail, h.inUse]
  omega

/-- A bulk of which all keys are available has no key in use and none that needs a sync. -/
theorem BulkOk.idle (h : BulkOk n v) (hall : v.availDeks = n) :
    v.inUseDeks = 0 ∧ ∀ j < n, v.needSync j = false ∧ v.inUse j = false := by
  have hcount : count (fun j => v.needSync j = false) n = n := by
    have := h.avail
    omega
  have hneed := Nat.count_iff_forall.mp hcount
  have huse : ∀ j < n, v.inUse j = false := fun j hj => by
    by_contra hu
    have hn := h.used j hj (by simpa using hu)
    rw [hneed j hj] at hn
    cases hn
  refine ⟨?_, fun j hj => ⟨hneed j hj, huse j hj⟩⟩
  rw [h.inUse, Nat.count_iff_forall_not.mpr fun j hj => by rw [huse j hj]; decide]
  rfl

/-- What is left of the loop after some words: the bits are the same in all words, the keys in which
    they differed are available, and the search starts in front of these. -/
theorem resetLoop_spec : ∀ (w i : ℕ) (first : Bool) (v : Bulk) (added : ℤ),
    n ≤ (i + w) * BITS_PER_LONG → (∀ j < n, j < i * BITS_PER_LONG → v.needSync j = v.inUse j) →
    (first = false → v.availStart ≤ i * BITS_PER_LONG) →
    ∃ v', resetLoop n w i (count (fun j => v.needSync j ≠ v.inUse j) n : ℕ) first v added =
        (v', added + (count (fun j => v.needSync j ≠ v.inUse j) n : ℕ)) ∧
      v'.availDeks = v.availDeks + (count (fun j => v.needSync j ≠ v.inUse j) n : ℕ) ∧
      v'.inUseDeks = v.inUseDeks ∧ v'.inUse = v.inUse ∧ (∀ j < n, v'.needSync j = v.inUse j) ∧
      v'.availStart ≤ v.availStart ∧ ∀ j < n, v.needSync j ≠ v.inUse j → v'.availStart ≤ j
  | 0, i, first, v, added, hn, hsame, _ => by
    have hsame' : ∀ j < n, v.needSync j = v.inUse j := fun j hj =>
      hsame j hj (by rw [Nat.add_zero] at hn; omega)
    have hzero : count (fun j => v.needSync j ≠ v.inUse j) n = 0 :=
      Nat.count_iff_forall_not.mpr fun j hj => not_not.mpr (hsame' j hj)
    rw [hzero]
    exact ⟨v, by simp [resetLoop], by simp, rfl, rfl, hsame', Nat.le_refl _,
      fun j hj hne => absurd (hsame' j hj) hne⟩
  | w + 1, i, first, v, added, hn, hsame, hstart => by
    by_cases hzero : count (fun j => v.needSync j ≠ v.inUse j) n = 0
    · have hsame' : ∀ j < n, v.needSync j = v.inUse j := fun j hj =>
        not_not.mp (Nat.count_iff_forall_not.mp hzero j hj)
      rw [hzero]
      exact ⟨v, by simp [resetLoop], by simp, rfl, rfl, hsame', Nat.le_refl _,
        fun j hj hne => absurd (hsame' j hj) hne⟩
    have hn' : n ≤ (i + 1 + w) * BITS_PER_LONG := by rwa [Nat.add_right_comm i 1 w]
    have hfreed : ((count (fun j => v.needSync j ≠ v.inUse j) n : ℕ) : ℤ) ≠ 0 := by
      exact_mod_cast hzero
    have hi : (i + 1) * BITS_PER_LONG = i * BITS_PER_LONG + 64 := by
      rw [Nat.add_mul, Nat.one_mul]
      rfl
    have hword : ∀ j, j / BITS_PER_LONG = i ↔ i * BITS_PER_LONG ≤ j ∧ j < (i + 1) * BITS_PER_LONG :=
      fun j => by
        rw [hi]
        unfold BITS_PER_LONG
        omega
    rw [resetLoop, if_neg hfreed]
    by_cases hr : hweightXor n v i = 0
    · simp only [hr]
      refine resetLoop_spec w (i + 1) first v added hn' ?_ ?_
      · intro j hj hlt
        by_cases hlow : j < i * BITS_PER_LONG
        · exact hsame j hj hlow
        · by_contra hne
          exact Nat.count_iff_forall_not.mp hr j hj ⟨(hword j).mpr ⟨by omega, hlt⟩, hne⟩
      · intro hf
        exact (hstart hf).trans (by omega)
    · simp only [if_neg hr]
      set start := if first = true ∧ v.availStart > i * BITS_PER_LONG then i * BITS_PER_LONG
        else v.availStart with hdef
      have hle : start ≤ v.availStart ∧ start ≤ i * BITS_PER_LONG := by
        rw [hdef]
        split_ifs with hc
        · exact ⟨hc.2.le, Nat.le_refl _⟩
        · refine ⟨Nat.le_refl _, ?_⟩
          cases first with
          | false => exact hstart rfl
          | true => exact Nat.not_lt.mp fun hlt => hc ⟨rfl, hlt⟩
      set need := fun j => if j / BITS_PER_LONG = i then v.inUse j else v.needSync j with hneed
      have hdiff : ∀ j, need j ≠ v.inUse j ↔ v.needSync j ≠ v.inUse j ∧ ¬j / BITS_PER_LONG = i := by
        intro j
        rw [hneed]
        by_cases hj : j / BITS_PER_LONG = i <;> simp [hj]
      have hcount : ((count (fun j => v.needSync j ≠ v.inUse j) n : ℕ) : ℤ) - hweightXor n v i =
          (count (fun j => need j ≠ v.inUse j) n : ℕ) := by
        have hsplit := count_split (fun j => v.needSync j ≠ v.inUse j)
          (fun j => j / BITS_PER_LONG = i) n
        have hword' : count (fun j => v.needSync j ≠ v.inUse j ∧ j / BITS_PER_LONG = i) n =
            hweightXor n v i := count_congr fun j _ => and_comm
        have hrest := count_congr (n := n) fun j _ => hdiff j
        omega
      rw [hcount]
      obtain ⟨v', hrun, havail, hin, huse, hall, hst, hlow⟩ := resetLoop_spec w (i + 1) false
        { v with
          availDeks := v.availDeks + hweightXor n v i, needSync := need, availStart := start }
        (added + hweightXor n v i) hn'
        (fun j hj hlt => by
          by_contra hne
          obtain ⟨hne', hnot⟩ := (hdiff j).mp hne
          have hge : ¬j < i * BITS_PER_LONG := fun h => hne' (hsame j hj h)
          exact hnot ((hword j).mpr ⟨Nat.not_lt.mp hge, hlt⟩))
        (fun _ => hle.2.trans (by omega))
      refine ⟨v', ?_, ?_, hin, huse, hall, hst.trans hle.1, fun j hj hne => ?_⟩
      · rw [hrun]
        congr 1
        simp only
        omega
      · rw [havail]
        simp only
        omega
      · by_cases hj' : j / BITS_PER_LONG = i
        · exact (hst.trans hle.2).trans ((hword j).mp hj').1
        · exact hlow j hj ((hdiff j).mpr ⟨hne, hj'⟩)

end Bulks

section Reset
variable {n : ℕ} {v : Bulk} {j : ℕ}

/-- STEP: a bulk after `mlx5_crypto_dek_bulk_reset_synced`. -/
theorem BulkOk.reset (h : BulkOk n v) : ∃ v',
    resetLoop n ((n + BITS_PER_LONG - 1) / BITS_PER_LONG) 0 (bulkCalcFreed n v) true v 0 =
      (v', bulkCalcFreed n v) ∧ BulkOk n v' ∧
    v'.availDeks = v.availDeks + bulkCalcFreed n v ∧ v'.inUseDeks = v.inUseDeks ∧
    v'.inUse = v.inUse ∧ (∀ j < n, v'.needSync j = v.inUse j) ∧
    ∀ j < n, v'.needSync j = false → (v.needSync j = false → v.availStart ≤ j) →
      v'.availStart ≤ j := by
  have hwords : n ≤ (0 + (n + BITS_PER_LONG - 1) / BITS_PER_LONG) * BITS_PER_LONG := by
    unfold BITS_PER_LONG
    omega
  obtain ⟨v', hrun, havail, hin, huse, hall, hst, hlow⟩ := resetLoop_spec _ 0 true v 0 hwords
    (fun j _ h => absurd h (by rw [Nat.zero_mul]; exact Nat.not_lt_zero j)) (fun h => by cases h)
  rw [← h.calcFreed] at hrun havail
  rw [Int.zero_add] at hrun
  refine ⟨v', hrun, ⟨fun j hj hu => ?_, ?_, ?_⟩, havail, hin, huse, hall, fun j hj hz hold => ?_⟩
  · rw [hall j hj, ← huse]
    exact hu
  · have hnot := count_not (fun j => v.inUse j = true) n
    have hfree : count (fun j => v'.needSync j = false) n =
        count (fun j => ¬v.inUse j = true) n :=
      count_congr fun j hj => by rw [hall j hj, Bool.not_eq_true]
    have hu := h.inUse
    rw [havail]
    unfold bulkCalcFreed
    omega
  · rw [hin, h.inUse, huse]
  · by_cases hd : v.needSync j = v.inUse j
    · exact hst.trans (hold (hd.trans ((hall j hj).symm.trans hz)))
    · exact hlow j hj hd

theorem BulkOk.calcFreed_nonneg (h : BulkOk n v) : 0 ≤ bulkCalcFreed n v := by
  rw [h.calcFreed]
  exact Int.natCast_nonneg _

theorem BulkOk.nonneg (h : BulkOk n v) : 0 ≤ v.availDeks ∧ 0 ≤ v.inUseDeks := by
  rw [h.avail, h.inUse]
  exact ⟨Int.natCast_nonneg _, Int.natCast_nonneg _⟩

end Reset

section Lists
variable {list list' : Kind → List ℕ} {b x : ℕ} {k : Kind}

/-- The bulks on the lists. -/
def allOf (list : Kind → List ℕ) : List ℕ :=
  list .part ++ list .full ++ list .avail ++ list .sync

theorem mem_allOf : b ∈ allOf list ↔ ∃ k, b ∈ list k := by
  unfold allOf
  simp only [mem_append]
  constructor
  · rintro (((h | h) | h) | h)
    · exact ⟨_, h⟩
    · exact ⟨_, h⟩
    · exact ⟨_, h⟩
    · exact ⟨_, h⟩
  · rintro ⟨k, h⟩
    cases k with
    | part => exact .inl (.inl (.inl h))
    | full => exact .inl (.inl (.inr h))
    | avail => exact .inl (.inr h)
    | sync => exact .inr h

theorem count_allOf (x : ℕ) : (allOf list).count x = (list .part).count x + (list .full).count x +
    (list .avail).count x + (list .sync).count x := by
  unfold allOf
  rw [count_append, count_append, count_append]

/-- A bulk is on one list, once. -/
theorem count_list_le (hn : (allOf list).Nodup) (x : ℕ) : (list k).count x ≤ 1 := by
  have hone := nodup_iff_count_le_one.mp hn x
  rw [count_allOf] at hone
  cases k <;> omega

theorem list_unique (hn : (allOf list).Nodup) {k' : Kind} (h : x ∈ list k) (h' : x ∈ list k') :
    k = k' := by
  have hone := nodup_iff_count_le_one.mp hn x
  have hpos := count_pos_iff.mpr h
  have hpos' := count_pos_iff.mpr h'
  rw [count_allOf] at hone
  cases k <;> cases k' <;> first | rfl | (exfalso; omega)

theorem listDel_count (b x : ℕ) : (listDel list b k).count x =
    (list k).count x - if x = b then 1 else 0 := by
  unfold listDel
  by_cases h : x = b
  · subst h
    rw [List.count_erase_self, if_pos rfl]
  · rw [List.count_erase_of_ne h, if_neg h, Nat.sub_zero]

theorem listMove_count (b x : ℕ) (k k' : Kind) : (listMove list b k k').count x =
    ((list k').count x - if x = b then 1 else 0) + if x = b ∧ k' = k then 1 else 0 := by
  unfold listMove
  by_cases hk : k' = k
  · subst hk
    by_cases h : x = b
    · simp [h]
    · simp [h, Ne.symm h]
  · rw [update_of_ne hk, listDel_count]
    simp [hk]

/-- A bulk that is moved leaves all the bulks as they are. -/
theorem listMove_perm (hn : (allOf list).Nodup) (hb : b ∈ allOf list) (k : Kind) :
    (allOf (listMove list b k)).Perm (allOf list) := by
  rw [perm_iff_count]
  intro x
  have hpos := count_pos_iff.mpr hb
  have hone := nodup_iff_count_le_one.mp hn b
  rw [count_allOf] at hpos hone ⊢
  rw [count_allOf]
  simp only [listMove_count]
  by_cases hx : x = b
  · subst hx
    cases k <;> simp <;> omega
  · simp [hx]

/-- A bulk that is moved is on that list, and the others are where they were. -/
theorem mem_listMove (hn : (allOf list).Nodup) {k' : Kind} (h : x ∈ listMove list b k k') :
    x ≠ b ∧ x ∈ list k' ∨ x = b ∧ k' = k := by
  have hpos := count_pos_iff.mpr h
  rw [listMove_count] at hpos
  have hle := count_list_le (k := k') hn x
  by_cases hx : x = b
  · by_cases hk : k' = k
    · exact .inr ⟨hx, hk⟩
    · simp [hx, hk] at hpos
      subst hx
      omega
  · simp only [hx] at hpos
    exact .inl ⟨hx, count_pos_iff.mp hpos⟩

/-- A bulk that is removed is on no list. -/
theorem listDel_perm (hn : (allOf list).Nodup) (hb : b ∈ allOf list) :
    (b :: allOf (listDel list b)).Perm (allOf list) := by
  rw [perm_iff_count]
  intro x
  have hpos := count_pos_iff.mpr hb
  have hone := nodup_iff_count_le_one.mp hn b
  rw [count_cons, count_allOf]
  rw [count_allOf] at hpos hone ⊢
  simp only [listDel_count]
  by_cases hx : x = b
  · subst hx
    simp
    omega
  · simp [hx, Ne.symm hx]

theorem mem_listDel (h : x ∈ listDel list b k) : x ∈ list k := List.mem_of_mem_erase h

end Lists

section Shapes
variable {n : ℕ} {s s' : St} {b : ℕ} {v : Bulk} {k : Kind}

/-- A sum over the bulks, when one of them changes. -/
theorem sum_update {f : Bulk → ℤ} {bulk : ℕ → Bulk} {l l' : List ℕ} (hp : l'.Perm l)
    (hn : l.Nodup) (hb : b ∈ l) :
    (l'.map fun c => f (update bulk b v c)).sum =
      (l.map fun c => f (bulk c)).sum + (f v - f (bulk b)) := by
  have herase := List.perm_cons_erase hb
  have hrest : ((l.erase b).map fun c => f (update bulk b v c)) =
      (l.erase b).map fun c => f (bulk c) := by
    refine List.map_congr_left fun c hc => ?_
    have hne := (hn.mem_erase_iff.mp hc).1
    rw [update_of_ne hne]
  rw [((hp.trans herase).map _).sum_eq, (herase.map fun c => f (bulk c)).sum_eq]
  simp only [map_cons, sum_cons, update_self, hrest]
  omega

/-- A pool whose bulks are in order, on the lists that their counts prescribe, and whose counts are
    the sums of those of its bulks; what was given back is on no list. -/
structure Shape (n : ℕ) (s : St) : Prop where
  nodup : (allOf s.list).Nodup
  lt : ∀ b ∈ allOf s.list, b < s.next
  gone : ∀ b ∈ s.destroyList ++ s.freed, b < s.next ∧ b ∉ allOf s.list
  ok : ∀ b ∈ allOf s.list, BulkOk n (s.bulk b)
  kind : ∀ k, ∀ b ∈ s.list k, InKind n (s.bulk b) k
  num : s.numDeks = n * ((allOf s.list).length : ℤ)
  avail : s.availDeks = ((allOf s.list).map fun b => (s.bulk b).availDeks).sum
  inUse : s.inUseDeks = ((allOf s.list).map fun b => (s.bulk b).inUseDeks).sum

/-- Bulk `b` becomes `v`, and the lists have the same bulks; the counts of the pool follow. -/
structure Puts (n : ℕ) (s s' : St) (b : ℕ) (v : Bulk) : Prop where
  bulk : s'.bulk = update s.bulk b v
  perm : (allOf s'.list).Perm (allOf s.list)
  others : ∀ k, ∀ c ∈ s'.list k, c ≠ b → c ∈ s.list k
  kind : ∀ k, b ∈ s'.list k → InKind n v k
  num : s'.numDeks = s.numDeks
  avail : s'.availDeks = s.availDeks + (v.availDeks - (s.bulk b).availDeks)
  inUse : s'.inUseDeks = s.inUseDeks + (v.inUseDeks - (s.bulk b).inUseDeks)
  next : s'.next = s.next
  gone : s'.destroyList = s.destroyList ∧ s'.freed = s.freed

/-- STEP: one bulk changes. -/
theorem Shape.puts (h : Shape n s) (hb : b ∈ allOf s.list) (hok : BulkOk n v)
    (hp : Puts n s s' b v) : Shape n s' := by
  have hself : s'.bulk b = v := by rw [hp.bulk, update_self]
  have hother : ∀ c, c ≠ b → s'.bulk c = s.bulk c := fun c hc => by
    rw [hp.bulk, update_of_ne hc]
  refine ⟨hp.perm.nodup_iff.mpr h.nodup, fun c hc => ?_, fun c hc => ?_, fun c hc => ?_,
    fun k c hc => ?_, ?_, ?_, ?_⟩
  · rw [hp.next]
    exact h.lt c (hp.perm.mem_iff.mp hc)
  · rw [hp.gone.1, hp.gone.2] at hc
    rw [hp.next, hp.perm.mem_iff]
    exact h.gone c hc
  · by_cases he : c = b
    · subst he
      rwa [hself]
    · rw [hother c he]
      exact h.ok c (hp.perm.mem_iff.mp hc)
  · by_cases he : c = b
    · subst he
      rw [hself]
      exact hp.kind k hc
    · rw [hother c he]
      exact h.kind k c (hp.others k c hc he)
  · rw [hp.num, h.num, hp.perm.length_eq]
  · rw [hp.avail, hp.bulk, h.avail, sum_update (f := Bulk.availDeks) hp.perm h.nodup hb]
  · rw [hp.inUse, hp.bulk, h.inUse, sum_update (f := Bulk.inUseDeks) hp.perm h.nodup hb]

/-- The bulk stays on its list. -/
theorem Shape.stay (h : Shape n s) {k₀ : Kind} (hb : b ∈ s.list k₀) (hkind : InKind n v k₀) :
    ∀ k, b ∈ s.list k → InKind n v k := by
  intro k hk
  rw [list_unique h.nodup hk hb]
  exact hkind

/-- The bulk is moved to a list. -/
theorem Shape.moved (h : Shape n s) (hkind : InKind n v k) :
    ∀ k', b ∈ listMove s.list b k k' → InKind n v k' := by
  intro k' hk
  rcases mem_listMove h.nodup hk with ⟨hne, -⟩ | ⟨-, rfl⟩
  · exact absurd rfl hne
  · exact hkind

theorem Shape.moved_others (h : Shape n s) :
    ∀ k', ∀ c ∈ listMove s.list b k k', c ≠ b → c ∈ s.list k' := by
  intro k' c hc hne
  rcases mem_listMove h.nodup hc with ⟨-, hmem⟩ | ⟨he, -⟩
  · exact hmem
  · exact absurd he hne

/-- Bulk `b` is on no list any more, and waits to be destroyed. -/
structure Removes (n : ℕ) (s s' : St) (b : ℕ) : Prop where
  bulk : ∀ c, c ≠ b → s'.bulk c = s.bulk c
  list : s'.list = listDel s.list b
  num : s'.numDeks = s.numDeks - n
  avail : s'.availDeks = s.availDeks - (s.bulk b).availDeks
  inUse : s'.inUseDeks = s.inUseDeks - (s.bulk b).inUseDeks
  next : s'.next = s.next
  gone : s'.destroyList = b :: s.destroyList ∧ s'.freed = s.freed

/-- STEP: a bulk is removed. -/
theorem Shape.remove (h : Shape n s) (hb : b ∈ allOf s.list) (hr : Removes n s s' b) :
    Shape n s' := by
  have hperm : (b :: allOf s'.list).Perm (allOf s.list) := by
    rw [hr.list]
    exact listDel_perm h.nodup hb
  have hcons := nodup_cons.mp (hperm.nodup_iff.mpr h.nodup)
  have hmem : ∀ c ∈ allOf s'.list, c ∈ allOf s.list := fun c hc =>
    hperm.mem_iff.mp (mem_cons_of_mem b hc)
  have hbulk : ∀ c ∈ allOf s'.list, s'.bulk c = s.bulk c := fun c hc =>
    hr.bulk c fun he => hcons.1 (he ▸ hc)
  have hsum : ∀ f : Bulk → ℤ, ((allOf s.list).map fun c => f (s.bulk c)).sum =
      f (s.bulk b) + ((allOf s'.list).map fun c => f (s'.bulk c)).sum := fun f => by
    rw [← (hperm.map _).sum_eq, map_cons, sum_cons]
    congr 2
    exact List.map_congr_left fun c hc => by rw [hbulk c hc]
  refine ⟨hcons.2, fun c hc => ?_, fun c hc => ?_, fun c hc => ?_, fun k c hc => ?_, ?_, ?_, ?_⟩
  · rw [hr.next]
    exact h.lt c (hmem c hc)
  · rw [hr.gone.1, hr.gone.2, List.cons_append] at hc
    rw [hr.next]
    rcases mem_cons.mp hc with rfl | hc
    · exact ⟨h.lt c hb, hcons.1⟩
    · obtain ⟨hlt, hout⟩ := h.gone c hc
      exact ⟨hlt, fun hin => hout (hmem c hin)⟩
  · rw [hbulk c hc]
    exact h.ok c (hmem c hc)
  · rw [hbulk c (mem_allOf.mpr ⟨k, hc⟩)]
    rw [hr.list] at hc
    exact h.kind k c (mem_listDel hc)
  · have hlen := hperm.length_eq
    rw [length_cons] at hlen
    rw [hr.num, h.num, ← hlen, Nat.cast_succ, Int.mul_add, Int.mul_one]
    omega
  · rw [hr.avail, h.avail, hsum]
    omega
  · rw [hr.inUse, h.inUse, hsum]
    omega

/-- STEP: a bulk that is new is on a list, with one key taken from it. -/
theorem Shape.added (h : Shape n s) (hok : BulkOk n v) (hkind : InKind n v k)
    (hbulk : s'.bulk = update s.bulk s.next v)
    (hlist : s'.list = update s.list k (s.next :: s.list k)) (hnext : s'.next = s.next + 1)
    (hgone : s'.destroyList = s.destroyList ∧ s'.freed = s.freed)
    (hnum : s'.numDeks = s.numDeks + n)
    (havail : s'.availDeks = s.availDeks + v.availDeks)
    (hin : s'.inUseDeks = s.inUseDeks + v.inUseDeks) : Shape n s' := by
  have hperm : (allOf s'.list).Perm (s.next :: allOf s.list) := by
    rw [perm_iff_count]
    intro x
    rw [count_cons, count_allOf, count_allOf, hlist]
    cases k <;> simp only [update_self, update_of_ne, ne_eq, reduceCtorEq,
      not_false_eq_true, count_cons] <;> omega
  have hout : s.next ∉ allOf s.list := fun hmem => absurd (h.lt _ hmem) (Nat.lt_irrefl _)
  have hself : s'.bulk s.next = v := by rw [hbulk, update_self]
  have hother : ∀ c ∈ allOf s.list, s'.bulk c = s.bulk c := fun c hc => by
    rw [hbulk, update_of_ne]
    rintro rfl
    exact hout hc
  have hsum : ∀ f : Bulk → ℤ, ((allOf s'.list).map fun c => f (s'.bulk c)).sum =
      f v + ((allOf s.list).map fun c => f (s.bulk c)).sum := fun f => by
    rw [(hperm.map _).sum_eq, map_cons, sum_cons, hself]
    congr 2
    exact List.map_congr_left fun c hc => by rw [hother c hc]
  have hcase : ∀ c ∈ allOf s'.list, c = s.next ∨ c ∈ allOf s.list := fun c hc =>
    mem_cons.mp (hperm.mem_iff.mp hc)
  refine ⟨hperm.nodup_iff.mpr (nodup_cons.mpr ⟨hout, h.nodup⟩), fun c hc => ?_,
    fun c hc => ?_, fun c hc => ?_, fun k' c hc => ?_, ?_, ?_, ?_⟩
  · rw [hnext]
    rcases hcase c hc with rfl | hc
    · exact Nat.lt_succ_self _
    · exact Nat.lt_succ_of_lt (h.lt c hc)
  · rw [hgone.1, hgone.2] at hc
    obtain ⟨hlt, hnot⟩ := h.gone c hc
    rw [hnext]
    refine ⟨Nat.lt_succ_of_lt hlt, fun hin => ?_⟩
    rcases hcase c hin with rfl | hin
    · exact absurd hlt (Nat.lt_irrefl _)
    · exact hnot hin
  · rcases hcase c hc with rfl | hc
    · rwa [hself]
    · rw [hother c hc]
      exact h.ok c hc
  · rw [hlist] at hc
    by_cases hk : k' = k
    · subst hk
      rw [update_self] at hc
      rcases mem_cons.mp hc with rfl | hc
      · rwa [hself]
      · rw [hother c (mem_allOf.mpr ⟨k', hc⟩)]
        exact h.kind k' c hc
    · rw [update_of_ne hk] at hc
      rw [hother c (mem_allOf.mpr ⟨k', hc⟩)]
      exact h.kind k' c hc
  · rw [hnum, h.num, hperm.length_eq, length_cons, Nat.cast_succ, Int.mul_add, Int.mul_one]
  · rw [havail, h.avail, hsum]
    omega
  · rw [hin, h.inUse, hsum]
    omega

end Shapes

section KeyUse
variable {n : ℕ} {s s' : St} {b j : ℕ} {v : Bulk} {us us' : List Dek} {d : Dek}

/-- The keys in use are those with a user or parked; a key that needs no sync is as new. -/
structure Keys (n : ℕ) (s : St) (us : List Dek) : Prop where
  mem : ∀ d ∈ us, d.1 ∈ allOf s.list ∧ d.2 < n
  nodup : us.Nodup
  use : ∀ b ∈ allOf s.list, ∀ j < n, (s.bulk b).inUse j = true ↔ (b, j) ∈ us
  clean : ∀ b ∈ allOf s.list, ∀ j < n, (s.bulk b).needSync j = false → s.clean (b, j) = true

theorem Shape.same (h : Shape n s) (hs : s'.list = s.list ∧ s'.bulk = s.bulk ∧
    s'.numDeks = s.numDeks ∧ s'.availDeks = s.availDeks ∧ s'.inUseDeks = s.inUseDeks ∧
    s'.next = s.next ∧ s'.destroyList = s.destroyList ∧ s'.freed = s.freed) : Shape n s' := by
  obtain ⟨h₁, h₂, h₃, h₄, h₅, h₆, h₇, h₈⟩ := hs
  constructor
  · rw [h₁]; exact h.nodup
  · rw [h₁, h₆]; exact h.lt
  · rw [h₁, h₆, h₇, h₈]; exact h.gone
  · rw [h₁, h₂]; exact h.ok
  · rw [h₁, h₂]; exact h.kind
  · rw [h₁, h₃]; exact h.num
  · rw [h₁, h₂, h₄]; exact h.avail
  · rw [h₁, h₂, h₅]; exact h.inUse

theorem Keys.same (h : Keys n s us) (hlist : s'.list = s.list) (hbulk : s'.bulk = s.bulk)
    (hclean : ∀ d, s.clean d = true → s'.clean d = true) (hus : us'.Perm us) : Keys n s' us' := by
  constructor
  · rw [hlist]
    exact fun d hd => h.mem d (hus.mem_iff.mp hd)
  · exact hus.nodup_iff.mpr h.nodup
  · rw [hlist, hbulk]
    exact fun b hb j hj => (h.use b hb j hj).trans hus.mem_iff.symm
  · rw [hlist, hbulk]
    exact fun b hb j hj hz => hclean _ (h.clean b hb j hj hz)

/-- STEP: the keys of one bulk change. -/
theorem Keys.puts (h : Keys n s us) (hb : b ∈ allOf s.list) (hp : Puts n s s' b v)
    (hnew : ∀ d ∈ us', d ∈ us ∨ d.1 = b ∧ d.2 < n) (hnodup : us'.Nodup)
    (huse : ∀ j < n, v.inUse j = true ↔ (b, j) ∈ us')
    (hrest : ∀ d, d.1 ≠ b → (d ∈ us' ↔ d ∈ us))
    (hclean : ∀ j < n, v.needSync j = false → s'.clean (b, j) = true)
    (hsame : ∀ d, d.1 ≠ b → s'.clean d = s.clean d) : Keys n s' us' := by
  have hself : s'.bulk b = v := by rw [hp.bulk, update_self]
  have hother : ∀ c, c ≠ b → s'.bulk c = s.bulk c := fun c hc => by
    rw [hp.bulk, update_of_ne hc]
  refine ⟨fun d hd => ?_, hnodup, fun c hc j hj => ?_, fun c hc j hj hz => ?_⟩
  · rw [hp.perm.mem_iff]
    rcases hnew d hd with hd | ⟨rfl, hlt⟩
    · exact h.mem d hd
    · exact ⟨hb, hlt⟩
  · by_cases he : c = b
    · subst he
      rw [hself]
      exact huse j hj
    · rw [hother c he, h.use c (hp.perm.mem_iff.mp hc) j hj]
      exact (hrest (c, j) he).symm
  · by_cases he : c = b
    · subst he
      rw [hself] at hz
      exact hclean j hj hz
    · rw [hother c he] at hz
      rw [hsame (c, j) he]
      exact h.clean c (hp.perm.mem_iff.mp hc) j hj hz

/-- A bulk after one of its keys is freed. -/
def freeKey (v : Bulk) (j : ℕ) : Bulk :=
  { v with inUse := update v.inUse j false, inUseDeks := v.inUseDeks - 1 }

theorem BulkOk.freeKey (h : BulkOk n v) (hj : j < n) (hu : v.inUse j = true) :
    BulkOk n (freeKey v j) := by
  refine ⟨fun i hi hui => ?_, h.avail, ?_⟩
  · by_cases he : i = j
    · subst he
      exact h.used i hi hu
    · have hui' : update v.inUse j false i = true := hui
      rw [update_of_ne he] at hui'
      exact h.used i hi hui'
  · have hcount := count_insert (p := fun i => update v.inUse j false i = true)
      (q := fun i => v.inUse i = true) (by simp) hu
      (fun i hi => by rw [update_of_ne hi]) hj
    change v.inUseDeks - 1 = (count (fun i => update v.inUse j false i = true) n : ℕ)
    rw [h.inUse, hcount]
    omega

/-- `mlx5_crypto_dek_free_locked` up to the work. -/
def freeOnly (s : St) (d : Dek) : St :=
  let v := freeKey (s.bulk d.1) d.2
  let s := { s with bulk := update s.bulk d.1 v, inUseDeks := s.inUseDeks - 1 }
  if v.availDeks = 0 ∧ v.inUseDeks = 0 then { s with list := listMove s.list d.1 .sync } else s

theorem freeLocked_eq (hu : (s.bulk d.1).inUse d.2 = true) : mlx5CryptoDekFreeLocked s d =
    if mlx5CryptoDekNeedSync (freeOnly s d) then scheduleSync (freeOnly s d) else freeOnly s d := by
  unfold mlx5CryptoDekFreeLocked freeOnly freeKey
  simp only [hu, Bool.not_true, Bool.false_eq_true, if_false]

/-- The bulk of a key that is freed is put on the list that its counts prescribe. -/
theorem puts_freeOnly (h : Shape n s) (hb : d.1 ∈ allOf s.list) (hj : d.2 < n)
    (hu : (s.bulk d.1).inUse d.2 = true) :
    Puts n s (freeOnly s d) d.1 (freeKey (s.bulk d.1) d.2) := by
  have hin : s.inUseDeks - 1 = s.inUseDeks +
      ((freeKey (s.bulk d.1) d.2).inUseDeks - (s.bulk d.1).inUseDeks) := by
    unfold freeKey
    simp only
    omega
  have havail : s.availDeks = s.availDeks +
      ((freeKey (s.bulk d.1) d.2).availDeks - (s.bulk d.1).availDeks) := by
    unfold freeKey
    simp only
    omega
  have hok := (h.ok d.1 hb).freeKey hj hu
  unfold freeOnly
  by_cases hz : (freeKey (s.bulk d.1) d.2).availDeks = 0 ∧ (freeKey (s.bulk d.1) d.2).inUseDeks = 0
  · rw [if_pos hz]
    exact ⟨rfl, listMove_perm h.nodup hb .sync, h.moved_others, h.moved hz, rfl, havail, hin, rfl,
      rfl, rfl⟩
  · rw [if_neg hz]
    obtain ⟨k, hk⟩ := mem_allOf.mp hb
    refine ⟨rfl, List.Perm.refl _, fun _ _ hc _ => hc, h.stay hk ?_, rfl, havail, hin, rfl, rfl,
      rfl⟩
    have hold := h.kind k _ hk
    cases k with
    | part => exact hold
    | full => exact ⟨hold.1, lt_of_le_of_ne hok.nonneg.2 fun he => hz ⟨hold.1, he.symm⟩⟩
    | avail => exact hold
    | sync =>
      -- a key that is in use is on no bulk of the sync list
      have hnone := hok.nonneg.2
      have hzero := hold.2
      omega

/-- STEP: a key is freed. -/
theorem freeOnly_spec (h : Shape n s) (hk : Keys n s us) (hd : us.Perm (d :: us')) :
    Shape n (freeOnly s d) ∧ Keys n (freeOnly s d) us' := by
  have hmem := hk.mem d (hd.mem_iff.mpr mem_cons_self)
  have hu : (s.bulk d.1).inUse d.2 = true :=
    (hk.use d.1 hmem.1 d.2 hmem.2).mpr (hd.mem_iff.mpr mem_cons_self)
  have hp := puts_freeOnly h hmem.1 hmem.2 hu
  have hnd := nodup_cons.mp (hd.nodup_iff.mp hk.nodup)
  have hclean : (freeOnly s d).clean = s.clean := by
    unfold freeOnly
    simp only
    split_ifs <;> rfl
  refine ⟨h.puts hmem.1 ((h.ok _ hmem.1).freeKey hmem.2 hu) hp, hk.puts hmem.1 hp
    (fun e he => .inl (hd.mem_iff.mpr (mem_cons_of_mem _ he))) hnd.2 (fun j hj => ?_)
    (fun e he => ?_) (fun j hj hz => ?_) fun e _ => by rw [hclean]⟩
  · by_cases he : j = d.2
    · subst he
      refine iff_of_false (by simp [freeKey]) hnd.1
    · have hne : (d.1, j) ≠ d := fun h => he (by rw [← h])
      change update (s.bulk d.1).inUse d.2 false j = true ↔ _
      rw [update_of_ne he, hk.use d.1 hmem.1 j hj, hd.mem_iff, mem_cons]
      exact or_iff_right hne
  · rw [hd.mem_iff, mem_cons]
    exact (or_iff_right fun h => he (by rw [h])).symm
  · rw [hclean]
    exact hk.clean d.1 hmem.1 j hj hz

end KeyUse

section Taking
variable {n : ℕ} {s : St} {b pos : ℕ} {v : Bulk} {us : List Dek} {bits : ℕ → Bool} {first : ℕ}

/-- The first bit from the start on that is not set, where there is one. -/
theorem findNextZeroBit_spec {j : ℕ} (hle : first ≤ j) (hj : j < n) (hz : bits j = false) :
    findNextZeroBit n bits first < n ∧ bits (findNextZeroBit n bits first) = false ∧
      ∀ i < findNextZeroBit n bits first, first ≤ i → bits i = true := by
  have hlen : j ∈ List.range' first (n - first) := List.mem_range'_1.mpr ⟨hle, by omega⟩
  obtain ⟨i, hi⟩ : ∃ i, (List.range' first (n - first)).find? (fun j => !bits j) = some i := by
    rw [← Option.isSome_iff_exists, List.find?_isSome]
    exact ⟨j, hlen, by simp [hz]⟩
  have hfind : findNextZeroBit n bits first = i := by
    unfold findNextZeroBit
    rw [hi]
    rfl
  obtain ⟨hbit, hmem, hbefore⟩ := List.find?_range'_eq_some.mp hi
  have hmem' := List.mem_range'_1.mp hmem
  rw [hfind]
  refine ⟨by omega, by simpa using hbit, fun k hk hle' => ?_⟩
  simpa using hbefore k hle' hk

/-- A bulk after one of its keys is taken. -/
def takeKey (n : ℕ) (v : Bulk) (pos : ℕ) : Bulk where
  needSync := update v.needSync pos true
  inUse := update v.inUse pos true
  inUseDeks := v.inUseDeks + 1
  availDeks := v.availDeks - 1
  availStart := if v.availDeks - 1 = 0 then n else pos + 1

section
variable (h : BulkOk n v) (hpos : pos < n) (hz : v.needSync pos = false)
include h hpos hz

theorem BulkOk.unused : v.inUse pos = false := by
  cases hu : v.inUse pos with
  | false => rfl
  | true =>
    have hneed := h.used pos hpos hu
    rw [hz] at hneed
    cases hneed

theorem BulkOk.takeKey : BulkOk n (takeKey n v pos) := by
  have huse := h.unused hpos hz
  refine ⟨fun j hj hu => ?_, ?_, ?_⟩
  · by_cases he : j = pos
    · subst he
      exact update_self ..
    · have hu' : update v.inUse pos true j = true := hu
      rw [update_of_ne he] at hu'
      change update v.needSync pos true j = true
      rw [update_of_ne he]
      exact h.used j hj hu'
  · have hcount := count_insert (p := fun j => update v.needSync pos true j = false)
      (q := fun j => v.needSync j = false) (by simp) hz
      (fun j hj => by rw [update_of_ne hj]) hpos
    change v.availDeks - 1 = (count (fun j => update v.needSync pos true j = false) n : ℕ)
    rw [h.avail, hcount]
    omega
  · have hcount := count_insert (p := fun j => v.inUse j = true)
      (q := fun j => update v.inUse pos true j = true) (by simp [huse]) (by simp)
      (fun j hj => by rw [update_of_ne hj]) hpos
    change v.inUseDeks + 1 = (count (fun j => update v.inUse pos true j = true) n : ℕ)
    rw [h.inUse, hcount]
    omega

/-- The list of a bulk after its first free key is taken. -/
theorem BulkOk.takeKey_kind (hfirst : ∀ j < n, v.needSync j = false → pos ≤ j) :
    InKind n (DekPool.takeKey n v pos) (if v.availDeks - 1 = 0 then .full else .part) := by
  have hok := h.takeKey hpos hz
  have hin : (DekPool.takeKey n v pos).inUseDeks = v.inUseDeks + 1 := rfl
  have havail : (DekPool.takeKey n v pos).availDeks = v.availDeks - 1 := rfl
  have hnonneg := h.nonneg
  split_ifs with hlast
  · exact ⟨hlast, by omega⟩
  · have hle : v.availDeks ≤ n := by
      rw [h.avail]
      exact_mod_cast Nat.count_le _
    have hpos' := hok.nonneg.1
    refine ⟨by omega, by omega, fun j hj hfree => ?_⟩
    have hfree' : update v.needSync pos true j = false := hfree
    have hne : j ≠ pos := by
      rintro rfl
      rw [update_self] at hfree'
      cases hfree'
    rw [update_of_ne hne] at hfree'
    have hle' := hfirst j hj hfree'
    change (if v.availDeks - 1 = 0 then n else pos + 1) ≤ j
    rw [if_neg hlast]
    omega

end

/-- A bulk from which a key is taken, and which was on the partial list or is put there first. -/
theorem puts_popTake (h : Shape n s) (hb : b ∈ allOf s.list) {list : Kind → List ℕ}
    (hperm : (allOf list).Perm (allOf s.list))
    (hothers : ∀ k, ∀ c ∈ list k, c ≠ b → c ∈ s.list k) (hpart : b ∈ list .part)
    (hkind : InKind n (takeKey n (s.bulk b) pos)
      (if (s.bulk b).availDeks - 1 = 0 then .full else .part)) :
    Puts n s (popTake n { s with list := list } b pos) b (takeKey n (s.bulk b) pos) := by
  have hn := hperm.nodup_iff.mpr h.nodup
  have hb' := hperm.mem_iff.mpr hb
  have havail : s.availDeks - 1 = s.availDeks +
      ((takeKey n (s.bulk b) pos).availDeks - (s.bulk b).availDeks) := by
    unfold takeKey
    simp only
    omega
  have hin : s.inUseDeks + 1 = s.inUseDeks +
      ((takeKey n (s.bulk b) pos).inUseDeks - (s.bulk b).inUseDeks) := by
    unfold takeKey
    simp only
    omega
  unfold popTake
  by_cases hlast : (s.bulk b).availDeks - 1 = 0
  · rw [if_pos hlast] at hkind ⊢
    refine ⟨by simp [takeKey, hlast], (listMove_perm hn hb' .full).trans hperm,
      fun k c hc hne => ?_, fun k hk => ?_, rfl, havail, hin, rfl, rfl, rfl⟩
    · rcases mem_listMove hn hc with ⟨-, hmem⟩ | ⟨he, -⟩
      · exact hothers k c hmem hne
      · exact absurd he hne
    · rcases mem_listMove hn hk with ⟨hne, -⟩ | ⟨-, rfl⟩
      · exact absurd rfl hne
      · exact hkind
  · rw [if_neg hlast] at hkind ⊢
    refine ⟨by simp [takeKey, hlast], hperm, hothers, fun k hk => ?_, rfl, havail, hin, rfl, rfl,
      rfl⟩
    rw [list_unique hn hk hpart]
    exact hkind

/-- What taking a key does not change, and what it says of the key. -/
theorem popTake_rest : (popTake n s b pos).held = (b, pos) :: s.held ∧
    (popTake n s b pos).waitForFree = s.waitForFree ∧
    (popTake n s b pos).covered = update s.covered (b, pos) false ∧
    (popTake n s b pos).clean = update s.clean (b, pos) false ∧
    (popTake n s b pos).syncing = s.syncing ∧ (popTake n s b pos).syncPending = s.syncPending ∧
    (popTake n s b pos).syncRunning = s.syncRunning := by
  unfold popTake
  simp only
  split_ifs <;> exact ⟨rfl, rfl, rfl, rfl, rfl, rfl, rfl⟩

end Taking

section Pops
variable {n : ℕ} {s s' : St} {b pos : ℕ} {us : List Dek} {d : Dek}

/-- No user had the keys that are freed since the sync command was started. -/
def Covered (n : ℕ) (s : St) : Prop :=
  ∀ b ∈ allOf s.list, ∀ j < n,
    (s.bulk b).needSync j = true → (s.bulk b).inUse j = false → s.covered (b, j) = true

/-- STEP: the first free key of a bulk is taken. -/
theorem take_spec (h : Shape n s) (hk : Keys n s us) (hb : b ∈ allOf s.list)
    {list : Kind → List ℕ} (hperm : (allOf list).Perm (allOf s.list))
    (hothers : ∀ k, ∀ c ∈ list k, c ≠ b → c ∈ s.list k) (hpart : b ∈ list .part) (hpos : pos < n)
    (hz : (s.bulk b).needSync pos = false)
    (hfirst : ∀ j < n, (s.bulk b).needSync j = false → pos ≤ j) :
    Shape n (popTake n { s with list := list } b pos) ∧
      Keys n (popTake n { s with list := list } b pos) ((b, pos) :: us) ∧ (b, pos) ∉ us ∧
      s.clean (b, pos) = true ∧
      (Covered n s → Covered n (popTake n { s with list := list } b pos)) := by
  have hok := h.ok b hb
  have hunused := hok.unused hpos hz
  have hout : (b, pos) ∉ us := fun hmem => by
    have hu := (hk.use b hb pos hpos).mpr hmem
    rw [hunused] at hu
    cases hu
  have hp := puts_popTake h hb hperm hothers hpart (hok.takeKey_kind hpos hz hfirst)
  obtain ⟨-, -, hcov, hclean, -⟩ := @popTake_rest n { s with list := list } b pos
  refine ⟨h.puts hb (hok.takeKey hpos hz) hp, ?_, hout, hk.clean b hb pos hpos hz, fun hc c hc' j
    hj hneed huse => ?_⟩
  · refine hk.puts hb hp (fun e he => ?_) (nodup_cons.mpr ⟨hout, hk.nodup⟩) (fun j hj => ?_)
      (fun e he => ?_) (fun j hj hfree => ?_) fun e he => ?_
    · rcases mem_cons.mp he with rfl | he
      · exact .inr ⟨rfl, hpos⟩
      · exact .inl he
    · change update (s.bulk b).inUse pos true j = true ↔ _
      by_cases he : j = pos
      · subst he
        rw [update_self]
        exact iff_of_true rfl mem_cons_self
      · have hne : (b, j) ≠ (b, pos) := fun h => he (Prod.mk.inj h).2
        rw [update_of_ne he, hk.use b hb j hj, mem_cons]
        exact (or_iff_right hne).symm
    · rw [mem_cons]
      exact or_iff_right fun h => he (by rw [h])
    · have hfree' : update (s.bulk b).needSync pos true j = false := hfree
      have hne : j ≠ pos := by
        rintro rfl
        rw [update_self] at hfree'
        cases hfree'
      rw [update_of_ne hne] at hfree'
      rw [hclean, update_of_ne fun h => hne (Prod.mk.inj h).2]
      exact hk.clean b hb j hj hfree'
    · rw [hclean, update_of_ne fun h => he (by rw [h])]
  · rw [hcov]
    rw [hp.bulk] at hneed huse
    by_cases hcb : c = b
    · subst hcb
      rw [update_self] at hneed huse
      have huse' : update (s.bulk c).inUse pos true j = false := huse
      have hneed' : update (s.bulk c).needSync pos true j = true := hneed
      have hne : j ≠ pos := by
        rintro rfl
        rw [update_self] at huse'
        cases huse'
      rw [update_of_ne hne] at huse' hneed'
      rw [update_of_ne fun h => hne (Prod.mk.inj h).2]
      exact hc c hb j hj hneed' huse'
    · rw [update_of_ne hcb] at hneed huse
      rw [update_of_ne fun h => hcb (Prod.mk.inj h).1]
      exact hc c (hp.perm.mem_iff.mp hc') j hj hneed huse

/-- A pool with a new bulk, which would be on the list of the bulks that are all available. -/
theorem added_spec (h : Shape n s) (hk : Keys n s us) :
    Shape n { poolAddBulk n s with
        list := update s.list .avail (s.next :: s.list .avail) } ∧ Keys n { poolAddBulk n s with
        list := update s.list .avail (s.next :: s.list .avail) } us ∧
      (Covered n s → Covered n { poolAddBulk n s with
        list := update s.list .avail (s.next :: s.list .avail) }) := by
  have hmem : ∀ c, c ∈ allOf (update s.list .avail (s.next :: s.list .avail)) ↔
      c = s.next ∨ c ∈ allOf s.list := fun c => by
    unfold allOf
    simp only [mem_append, update_self, update_of_ne, ne_eq, reduceCtorEq,
      not_false_eq_true, mem_cons]
    tauto
  have hout : ∀ c ∈ allOf s.list, c ≠ s.next := fun c hc he =>
    absurd (h.lt c hc) (by rw [he]; exact Nat.lt_irrefl _)
  have hok : BulkOk n (bulkCreate n) := by
    refine ⟨fun _ _ hu => Bool.noConfusion hu, ?_, ?_⟩
    · change (n : ℤ) = (count (fun _ => false = false) n : ℕ)
      rw [Nat.count_iff_forall.mpr fun _ _ => rfl]
    · change (0 : ℤ) = (count (fun _ => false = true) n : ℕ)
      rw [Nat.count_iff_forall_not.mpr fun _ _ => by decide]
      rfl
  have hnew : (poolAddBulk n s).bulk s.next = bulkCreate n := update_self ..
  have hold : ∀ c ∈ allOf s.list, (poolAddBulk n s).bulk c = s.bulk c := fun c hc =>
    update_of_ne (hout c hc) ..
  refine ⟨h.added hok (k := .avail) rfl rfl rfl rfl ⟨rfl, rfl⟩ rfl rfl
    (by simp [poolAddBulk, bulkCreate]), ⟨fun d hd => ?_, hk.nodup, fun c hc j hj => ?_,
    fun c hc j hj hz => ?_⟩, fun hcov c hc j hj hneed huse => ?_⟩
  · obtain ⟨hd', hlt⟩ := hk.mem d hd
    exact ⟨(hmem d.1).mpr (.inr hd'), hlt⟩
  · change ((poolAddBulk n s).bulk c).inUse j = true ↔ _
    rcases (hmem c).mp hc with rfl | hc
    · rw [hnew]
      exact iff_of_false Bool.false_ne_true fun hd => hout _ (hk.mem _ hd).1 rfl
    · rw [hold c hc]
      exact hk.use c hc j hj
  · change (if c = s.next then true else s.clean (c, j)) = true
    rcases (hmem c).mp hc with rfl | hc
    · rw [if_pos rfl]
    · rw [if_neg (hout c hc)]
      refine hk.clean c hc j hj ?_
      rw [← hold c hc]
      exact hz
  · rcases (hmem c).mp hc with rfl | hc
    · have hneed' : ((poolAddBulk n s).bulk s.next).needSync j = true := hneed
      rw [hnew] at hneed'
      cases hneed'
    · refine hcov c hc j hj ?_ ?_
      · rw [← hold c hc]
        exact hneed
      · rw [← hold c hc]
        exact huse

/-- STEP: a key is popped. No user has it, and no user had it since a sync that worked was started;
    or it is of a new bulk. -/
theorem pop_spec (hn : 0 < n) (h : Shape n s) (hk : Keys n s us) {bulkOk : Bool}
    (hp : mlx5CryptoDekPoolPop n s bulkOk = some (d, s')) :
    (Shape n s' ∧ Keys n s' (d :: us) ∧ (Covered n s → Covered n s')) ∧ d ∉ us ∧
      (d.1 = s.next ∨ s.clean d = true) ∧ (s'.held = d :: s.held ∧ s'.waitForFree = s.waitForFree) ∧
      (s'.syncing = s.syncing ∧ s'.syncPending = s.syncPending ∧ s'.syncRunning = s.syncRunning) ∧
      (s'.clean d = false ∧ s'.covered d = false) ∧
      ∀ e, e.1 ≠ s.next → (s.clean e = false → s'.clean e = false) ∧
        (s.covered e = false → s'.covered e = false) := by
  have hupd : ∀ (f : Dek → Bool) (d e : Dek), f e = false → update f d false e = false :=
    fun f d e he => by
      by_cases hde : e = d
      · subst hde
        rw [update_self]
      · rw [update_of_ne hde, he]
  unfold mlx5CryptoDekPoolPop at hp
  split at hp
  · rename_i b _ hlist
    obtain ⟨rfl, rfl⟩ : (b, popPos n (s.bulk b)) = d ∧ _ = s' := by simpa using hp
    have hpart : b ∈ s.list .part := hlist ▸ mem_cons_self
    have hb : b ∈ allOf s.list := mem_allOf.mpr ⟨_, hpart⟩
    obtain ⟨hpos, -, hstart⟩ := h.kind .part b hpart
    -- there is a free key, and it is not in front of the start
    have hcount := (h.ok b hb).avail
    obtain ⟨j, hj, hz⟩ : ∃ j < n, (s.bulk b).needSync j = false := by
      by_contra hnone
      have hzero : count (fun j => (s.bulk b).needSync j = false) n = 0 :=
        Nat.count_iff_forall_not.mpr fun j hj hz => hnone ⟨j, hj, hz⟩
      omega
    obtain ⟨hlt, hzero, hfirst⟩ := findNextZeroBit_spec (hstart j hj hz) hj hz
    have hpop : popPos n (s.bulk b) =
        findNextZeroBit n (s.bulk b).needSync (s.bulk b).availStart := by
      exact if_neg (Nat.ne_of_lt hlt)
    rw [← hpop] at hlt hzero hfirst
    obtain ⟨hshape, hkeys, hout, hclean, hcov⟩ := take_spec h hk hb (List.Perm.refl _)
      (fun _ _ hc _ => hc) hpart hlt hzero fun i hi hfree => by
        by_contra hlt'
        have hset := hfirst i (Nat.not_le.mp hlt') (hstart i hi hfree)
        rw [hfree] at hset
        cases hset
    obtain ⟨h₁, h₂, h₃, h₄, h₅⟩ := @popTake_rest n s b (popPos n (s.bulk b))
    rw [h₃, h₄]
    exact ⟨⟨hshape, hkeys, hcov⟩, hout, .inr hclean, ⟨h₁, h₂⟩, h₅,
      ⟨update_self .., update_self ..⟩, fun e _ => ⟨hupd _ _ _, hupd _ _ _⟩⟩
  · rename_i b _ _ hlist
    obtain ⟨rfl, rfl⟩ : (b, 0) = d ∧ _ = s' := by simpa using hp
    have havail : b ∈ s.list .avail := hlist ▸ mem_cons_self
    have hb : b ∈ allOf s.list := mem_allOf.mpr ⟨_, havail⟩
    have hidle := ((h.ok b hb).idle (h.kind .avail b havail)).2
    obtain ⟨hshape, hkeys, hout, hclean, hcov⟩ := take_spec h hk hb
      (listMove_perm h.nodup hb .part) h.moved_others
      (by unfold listMove; rw [update_self]; exact mem_cons_self) hn (hidle 0 hn).1
      fun _ _ _ => Nat.zero_le _
    obtain ⟨h₁, h₂, h₃, h₄, h₅⟩ := @popTake_rest n { s with list := listMove s.list b .part } b 0
    rw [h₃, h₄]
    exact ⟨⟨hshape, hkeys, hcov⟩, hout, .inr hclean, ⟨h₁, h₂⟩, h₅,
      ⟨update_self .., update_self ..⟩, fun e _ => ⟨hupd _ _ _, hupd _ _ _⟩⟩
  · cases bulkOk with
    | false => cases hp
    | true =>
      obtain ⟨rfl, rfl⟩ : (s.next, 0) = d ∧ _ = s' := by simpa using hp
      obtain ⟨hshape₁, hkeys₁, hcov₁⟩ := added_spec h hk
      have hperm : (allOf (poolAddBulk n s).list).Perm
          (allOf (update s.list .avail (s.next :: s.list .avail))) := by
        rw [perm_iff_count]
        intro x
        rw [count_allOf, count_allOf]
        simp only [poolAddBulk, update_self, update_of_ne, ne_eq, reduceCtorEq,
          not_false_eq_true, count_cons]
        omega
      have hothers : ∀ k, ∀ c ∈ (poolAddBulk n s).list k, c ≠ s.next →
          c ∈ update s.list .avail (s.next :: s.list .avail) k := by
        intro k c hc hne
        cases k <;> simp_all [poolAddBulk]
      have hpart : s.next ∈ (poolAddBulk n s).list .part := by
        exact mem_cons_self
      have hb : s.next ∈ allOf (update s.list .avail (s.next :: s.list .avail)) :=
        mem_allOf.mpr ⟨.avail, by rw [update_self]; exact mem_cons_self⟩
      have hz : ((poolAddBulk n s).bulk s.next).needSync 0 = false := by
        simp [poolAddBulk, bulkCreate]
      obtain ⟨hshape, hkeys, hout, -, hcov⟩ := take_spec hshape₁ hkeys₁ hb hperm hothers hpart hn hz
        fun _ _ _ => Nat.zero_le _
      obtain ⟨h₁, h₂, h₃, h₄, h₅⟩ := @popTake_rest n (poolAddBulk n s) s.next 0
      rw [h₃, h₄]
      refine ⟨⟨hshape, hkeys, fun hc => hcov (hcov₁ hc)⟩, hout, .inl rfl, ⟨h₁, h₂⟩, h₅,
        ⟨update_self .., update_self ..⟩, fun e he => ⟨fun hf => hupd _ _ _ ?_, hupd _ _ _⟩⟩
      change (if e.1 = s.next then true else s.clean e) = false
      rw [if_neg he, hf]

end Pops

section Frees
variable {n : ℕ} {s : St} {d : Dek} {us us' : List Dek}

/-- A step of a pool that no command, no user and no queue takes part in. -/
structure Frame (s s' : St) : Prop where
  held : s'.held = s.held
  running : s'.syncRunning = s.syncRunning
  covered : s'.covered = s.covered
  clean : s'.clean = s.clean

theorem Frame.trans {s₁ s₂ s₃ : St} (h : Frame s₁ s₂) (h' : Frame s₂ s₃) : Frame s₁ s₃ :=
  ⟨h'.held.trans h.held, h'.running.trans h.running, h'.covered.trans h.covered,
    h'.clean.trans h.clean⟩

theorem freeOnly_frame : Frame s (freeOnly s d) ∧ (freeOnly s d).waitForFree = s.waitForFree ∧
    (freeOnly s d).syncing = s.syncing ∧ (freeOnly s d).syncPending = s.syncPending ∧
    (freeOnly s d).destroyList = s.destroyList ∧ (freeOnly s d).destroyPending = s.destroyPending ∧
    poolCalcFreed (freeOnly s d) = poolCalcFreed s + 1 := by
  have hone : s.numDeks - s.availDeks - (s.inUseDeks - 1) =
      s.numDeks - s.availDeks - s.inUseDeks + 1 := by omega
  unfold freeOnly poolCalcFreed
  simp only
  split_ifs <;> exact ⟨⟨rfl, rfl, rfl, rfl⟩, rfl, rfl, rfl, rfl, rfl, hone⟩

/-- STEP: a key is freed, and the sync work is queued where many keys were freed. -/
theorem freeLocked_spec (h : Shape n s) (hk : Keys n s us) (hd : us.Perm (d :: us')) :
    (Shape n (mlx5CryptoDekFreeLocked s d) ∧ Keys n (mlx5CryptoDekFreeLocked s d) us') ∧
      Frame s (mlx5CryptoDekFreeLocked s d) ∧
      (mlx5CryptoDekFreeLocked s d).waitForFree = s.waitForFree ∧
      (mlx5CryptoDekFreeLocked s d).destroyList = s.destroyList ∧
      (mlx5CryptoDekFreeLocked s d).destroyPending = s.destroyPending ∧
      poolCalcFreed (mlx5CryptoDekFreeLocked s d) = poolCalcFreed s + 1 ∧
      (allOf (mlx5CryptoDekFreeLocked s d).list).Perm (allOf s.list) ∧
      ((s.syncPending = true → s.syncing = true) →
        ((mlx5CryptoDekFreeLocked s d).syncing = true ↔ s.syncing = true ∨
          poolCalcFreed s + 1 > MLX5_CRYPTO_DEK_POOL_SYNC_THRESH) ∧
        ((mlx5CryptoDekFreeLocked s d).syncPending = true ↔ s.syncPending = true ∨
          s.syncing = false ∧ poolCalcFreed s + 1 > MLX5_CRYPTO_DEK_POOL_SYNC_THRESH)) := by
  have hmem := hk.mem d (hd.mem_iff.mpr mem_cons_self)
  have hu : (s.bulk d.1).inUse d.2 = true :=
    (hk.use d.1 hmem.1 d.2 hmem.2).mpr (hd.mem_iff.mpr mem_cons_self)
  obtain ⟨hshape, hkeys⟩ := freeOnly_spec h hk hd
  have hperm := (puts_freeOnly h hmem.1 hmem.2 hu).perm
  obtain ⟨hframe, hwait, hsync, hpend, hlist, hdp, hfreed⟩ := @freeOnly_frame s d
  have hneed : mlx5CryptoDekNeedSync (freeOnly s d) = true ↔
      s.syncing = false ∧ poolCalcFreed s + 1 > MLX5_CRYPTO_DEK_POOL_SYNC_THRESH := by
    unfold mlx5CryptoDekNeedSync
    rw [hsync, hfreed, Bool.and_eq_true, Bool.not_eq_true', decide_eq_true_eq]
  rw [freeLocked_eq hu]
  split_ifs with hn
  · obtain ⟨hidle, hmany⟩ := hneed.mp hn
    unfold scheduleSync
    by_cases hp : (freeOnly s d).syncPending = true
    · -- a work that is queued has marked the pool
      rw [if_pos hp]
      refine ⟨⟨hshape, hkeys⟩, hframe, hwait, hlist, hdp, hfreed, hperm, fun hw => ?_⟩
      rw [hpend] at hp
      rw [hw hp] at hidle
      cases hidle
    · rw [if_neg hp]
      refine ⟨⟨hshape.same ⟨rfl, rfl, rfl, rfl, rfl, rfl, rfl, rfl⟩,
        hkeys.same rfl rfl (fun _ h => h) (List.Perm.refl _)⟩,
        hframe.trans ⟨rfl, rfl, rfl, rfl⟩, hwait, hlist, hdp, hfreed, hperm, fun _ => ⟨?_, ?_⟩⟩
      · exact iff_of_true rfl (.inr hmany)
      · exact iff_of_true rfl (.inr ⟨hidle, hmany⟩)
  · refine ⟨⟨hshape, hkeys⟩, hframe, hwait, hlist, hdp, hfreed, hperm, fun _ => ?_⟩
    rw [hsync, hpend]
    rw [hneed] at hn
    cases hs : s.syncing with
    | true => simp
    | false =>
      have hmany : ¬poolCalcFreed s + 1 > MLX5_CRYPTO_DEK_POOL_SYNC_THRESH := fun h => hn ⟨hs, h⟩
      simp [hmany]

/-- RUN: the parked keys are freed. Where no sync is under way, it is queued where with them more
    keys were freed than the threshold. -/
theorem poolFreeWaitKeys_spec (l : List Dek) : ∀ (s : St), Shape n s → Keys n s (s.held ++ l) →
    s.waitForFree = l → (s.syncPending = true → s.syncing = true) →
    (Shape n (poolFreeWaitKeys l s) ∧ Keys n (poolFreeWaitKeys l s) s.held) ∧
      Frame s (poolFreeWaitKeys l s) ∧ (poolFreeWaitKeys l s).waitForFree = [] ∧
      (poolFreeWaitKeys l s).destroyList = s.destroyList ∧
      (poolFreeWaitKeys l s).destroyPending = s.destroyPending ∧
      (allOf (poolFreeWaitKeys l s).list).Perm (allOf s.list) ∧
      ((poolFreeWaitKeys l s).syncPending = true ↔ s.syncPending = true ∨ s.syncing = false ∧
        l ≠ [] ∧ poolCalcFreed s + l.length > MLX5_CRYPTO_DEK_POOL_SYNC_THRESH) := by
  induction l with
  | nil =>
    intro s h hk hwait _
    rw [append_nil] at hk
    exact ⟨⟨h, hk⟩, ⟨rfl, rfl, rfl, rfl⟩, hwait, rfl, rfl, List.Perm.refl _,
      by simp [poolFreeWaitKeys]⟩
  | cons d l ih =>
    intro s h hk hwait hwork
    obtain ⟨⟨h₁, hk₁⟩, hframe, hwait₁, hlist, hdp, hfreed, hperm, hsched⟩ :=
      @freeLocked_spec n { s with waitForFree := l } d _ (s.held ++ l)
        (h.same ⟨rfl, rfl, rfl, rfl, rfl, rfl, rfl, rfl⟩)
        (hk.same rfl rfl (fun _ h => h) (List.Perm.refl _)) List.perm_middle
    obtain ⟨hsync, hpend⟩ := hsched hwork
    obtain ⟨hgood, hframe', hwait', hlist', hdp', hperm', hpend'⟩ := ih
      (mlx5CryptoDekFreeLocked { s with waitForFree := l } d) h₁ (by rw [hframe.held]; exact hk₁)
      hwait₁ fun hp => hsync.mpr ((hpend.mp hp).imp hwork And.right)
    rw [hframe.held] at hgood
    refine ⟨hgood, (⟨rfl, rfl, rfl, rfl⟩ : Frame s { s with waitForFree := l }).trans
      (hframe.trans hframe'), hwait', hlist'.trans hlist, hdp'.trans hdp, hperm'.trans hperm,
      hpend'.trans ?_⟩
    have hidle := not_congr hsync
    simp only [Bool.not_eq_true, not_or] at hidle
    have hcalc : poolCalcFreed { s with waitForFree := l } = poolCalcFreed s := rfl
    rw [hpend, hfreed, hidle, hcalc, length_cons, Nat.cast_succ]
    cases l with
    | nil => simp
    | cons e l =>
      -- the count grows with each key, so that the last one decides
      cases s.syncPending <;> cases s.syncing
      all_goals simp only [true_or, false_or, not_false_eq_true, true_and, false_and, ne_eq,
        reduceCtorEq]
      omega

end Frees

section Turns
variable {n : ℕ} {s s' : St} {b : ℕ} {v : Bulk} {us : List Dek}

/-- A pool in which a sync has worked: what no user has, is as new. -/
structure Fresh (n : ℕ) (s : St) (us : List Dek) : Prop where
  shape : Shape n s
  keys : Keys n s us
  free : ∀ b ∈ allOf s.list, ∀ j < n, (s.bulk b).inUse j = false → s.clean (b, j) = true

/-- STEP: a bulk in which no key comes in use or goes out of use. -/
theorem Fresh.puts (h : Fresh n s us) (hb : b ∈ allOf s.list) (hok : BulkOk n v)
    (hp : Puts n s s' b v) (huse : v.inUse = (s.bulk b).inUse) (hclean : s'.clean = s.clean) :
    Fresh n s' us := by
  refine ⟨h.shape.puts hb hok hp, h.keys.puts hb hp (fun _ hd => .inl hd) h.keys.nodup
    (fun j hj => ?_) (fun _ _ => Iff.rfl) (fun j hj hz => ?_) fun e _ => by rw [hclean],
    fun c hc j hj hz => ?_⟩
  · rw [huse]
    exact h.keys.use b hb j hj
  · rw [hclean]
    refine h.free b hb j hj ?_
    rw [← huse]
    exact hok.unused hj hz
  · rw [hclean]
    refine h.free c (hp.perm.mem_iff.mp hc) j hj ?_
    rw [← hz, hp.bulk]
    by_cases he : c = b
    · subst he
      rw [update_self, huse]
    · rw [update_of_ne he]

/-- STEP: a bulk of which no key is in use is removed. -/
theorem Fresh.remove (h : Fresh n s us) (hb : b ∈ allOf s.list) (hr : Removes n s s' b)
    (hidle : ∀ j < n, (s.bulk b).inUse j = false) (hclean : s'.clean = s.clean) :
    Fresh n s' us := by
  have hperm : (b :: allOf s'.list).Perm (allOf s.list) := by
    rw [hr.list]
    exact listDel_perm h.shape.nodup hb
  have hcons := nodup_cons.mp (hperm.nodup_iff.mpr h.shape.nodup)
  have hmem : ∀ c ∈ allOf s'.list, c ∈ allOf s.list := fun c hc =>
    hperm.mem_iff.mp (mem_cons_of_mem b hc)
  have hbulk : ∀ c ∈ allOf s'.list, s'.bulk c = s.bulk c := fun c hc =>
    hr.bulk c fun he => hcons.1 (he ▸ hc)
  refine ⟨h.shape.remove hb hr, ⟨fun d hd => ?_, h.keys.nodup, fun c hc j hj => ?_,
    fun c hc j hj hz => ?_⟩, fun c hc j hj hz => ?_⟩
  · obtain ⟨hd', hlt⟩ := h.keys.mem d hd
    refine ⟨(mem_cons.mp (hperm.mem_iff.mpr hd')).resolve_left fun he => ?_, hlt⟩
    have hu := (h.keys.use b hb d.2 hlt).mpr (by rw [← he]; exact hd)
    rw [hidle d.2 hlt] at hu
    cases hu
  · rw [hbulk c hc]
    exact h.keys.use c (hmem c hc) j hj
  · rw [hbulk c hc] at hz
    rw [hclean]
    exact h.keys.clean c (hmem c hc) j hj hz
  · rw [hbulk c hc] at hz
    rw [hclean]
    exact h.free c (hmem c hc) j hj hz

/-- What a turn of one of the loops does beside the bulk: the others stay where they are. -/
structure Turn (s s' : St) (b : ℕ) : Prop where
  frame : Frame s s'
  wait : s'.waitForFree = s.waitForFree
  work : s'.syncing = s.syncing ∧ s'.syncPending = s.syncPending
  others : ∀ k, ∀ c ∈ s.list k, c ≠ b → c ∈ s'.list k

theorem mem_listMove_of_ne {list : Kind → List ℕ} {c : ℕ} {k k' : Kind} (hc : c ∈ list k')
    (hne : c ≠ b) : c ∈ listMove list b k k' := by
  refine count_pos_iff.mp ?_
  rw [listMove_count, if_neg hne]
  exact Nat.lt_of_lt_of_le (count_pos_iff.mpr hc) (by omega)

/-- STEP: a bulk whose keys are all available is kept, or removed where another one was kept. -/
theorem handleAvail_spec (h : Fresh n s us) (hb : b ∈ allOf s.list) (hok : BulkOk n v)
    (hall : v.availDeks = n) (huse : v.inUse = (s.bulk b).inUse)
    (hin : (s.bulk b).inUseDeks = v.inUseDeks)
    (hs : s' = { s with
      bulk := update s.bulk b v
      availDeks := s.availDeks + (v.availDeks - (s.bulk b).availDeks) }) :
    Fresh n (bulkHandleAvail n s' b).2 us ∧ Turn s (bulkHandleAvail n s' b).2 b := by
  subst hs
  unfold bulkHandleAvail
  split_ifs with hnone
  · refine ⟨h.puts hb hok ⟨rfl, listMove_perm h.shape.nodup hb .avail, h.shape.moved_others,
      h.shape.moved hall, rfl, rfl, ?_, rfl, rfl, rfl⟩ huse rfl, ⟨rfl, rfl, rfl, rfl⟩, rfl,
      ⟨rfl, rfl⟩, fun k c hc hne => mem_listMove_of_ne hc hne⟩
    change s.inUseDeks = s.inUseDeks + (v.inUseDeks - (s.bulk b).inUseDeks)
    omega
  · refine ⟨h.remove hb ⟨fun c hc => update_of_ne hc .., rfl, rfl, ?_, ?_, rfl, rfl, rfl⟩
      (fun j hj => ?_) rfl, ⟨rfl, rfl, rfl, rfl⟩, rfl, ⟨rfl, rfl⟩,
      fun k c hc hne => (List.mem_erase_of_ne hne).mpr hc⟩
    · change s.availDeks + (v.availDeks - (s.bulk b).availDeks) -
        (update s.bulk b v b).availDeks = s.availDeks - (s.bulk b).availDeks
      rw [update_self]
      omega
    · change s.inUseDeks - (update s.bulk b v b).inUseDeks = _
      rw [update_self, hin]
    · rw [← huse]
      exact ((hok.idle hall).2 j hj).2

/-- A bulk whose bits were reset, as it is put back by the loops. -/
theorem bulkResetSynced_spec (h : Shape n s) (hb : b ∈ allOf s.list) : ∃ v, BulkOk n v ∧
    bulkResetSynced n s b = { s with
      bulk := update s.bulk b v
      availDeks := s.availDeks + (v.availDeks - (s.bulk b).availDeks) } ∧
    v.inUseDeks = (s.bulk b).inUseDeks ∧ v.inUse = (s.bulk b).inUse ∧
    (s.bulk b).availDeks ≤ v.availDeks ∧ v.availDeks ≤ n ∧
    ∀ j < n, v.needSync j = false → ((s.bulk b).needSync j = false → (s.bulk b).availStart ≤ j) →
      v.availStart ≤ j := by
  obtain ⟨v, hrun, hok, havail, hin, huse, -, hstart⟩ := (h.ok b hb).reset
  have hnonneg := (h.ok b hb).calcFreed_nonneg
  refine ⟨v, hok, ?_, hin, huse, by omega, ?_, hstart⟩
  · unfold bulkResetSynced
    rw [hrun]
    have he : v.availDeks - (s.bulk b).availDeks = bulkCalcFreed n (s.bulk b) := by omega
    rw [he]
  · rw [hok.avail]
    exact_mod_cast Nat.count_le _

/-- STEP: a turn of the loop over the partial list. -/
theorem resetPart_spec (h : Fresh n s us) (hb : b ∈ s.list .part) :
    Fresh n (resetPart n s b) us ∧ Turn s (resetPart n s b) b := by
  have hall : b ∈ allOf s.list := mem_allOf.mpr ⟨_, hb⟩
  obtain ⟨v, hok, heq, hin, huse, hle, hmax, hstart⟩ := bulkResetSynced_spec h.shape hall
  obtain ⟨hpos, -, hold⟩ := h.shape.kind .part b hb
  have hself : (bulkResetSynced n s b).bulk b = v := by
    rw [heq]
    exact update_self ..
  unfold resetPart
  simp only [hself]
  split_ifs with hidle
  · exact handleAvail_spec h hall hok hidle huse hin.symm heq
  · rw [heq]
    refine ⟨h.puts hall hok ⟨rfl, List.Perm.refl _, fun _ _ hc _ => hc, h.shape.stay hb
      ⟨by omega, by omega, fun j hj hz => hstart j hj hz (hold j hj)⟩, rfl, rfl, ?_, rfl, rfl, rfl⟩
      huse rfl, ⟨rfl, rfl, rfl, rfl⟩, rfl, ⟨rfl, rfl⟩, fun _ _ hc _ => hc⟩
    change s.inUseDeks = s.inUseDeks + (v.inUseDeks - (s.bulk b).inUseDeks)
    omega

/-- STEP: a turn of the loop over the full list. -/
theorem resetFull_spec (h : Fresh n s us) (hb : b ∈ s.list .full) :
    Fresh n (resetFull n s b) us ∧ Turn s (resetFull n s b) b := by
  have hall : b ∈ allOf s.list := mem_allOf.mpr ⟨_, hb⟩
  obtain ⟨v, hok, heq, hin, huse, hle, hmax, hstart⟩ := bulkResetSynced_spec h.shape hall
  obtain ⟨hfull, hsome⟩ := h.shape.kind .full b hb
  have hself : (bulkResetSynced n s b).bulk b = v := by
    rw [heq]
    exact update_self ..
  have hsum : s.inUseDeks = s.inUseDeks + (v.inUseDeks - (s.bulk b).inUseDeks) := by omega
  unfold resetFull
  simp only [hself]
  by_cases hzero : v.availDeks = 0
  · rw [if_pos hzero, heq]
    exact ⟨h.puts hall hok ⟨rfl, List.Perm.refl _, fun _ _ hc _ => hc, h.shape.stay hb
      ⟨hzero, by omega⟩, rfl, rfl, hsum, rfl, rfl, rfl⟩ huse rfl, ⟨rfl, rfl, rfl, rfl⟩, rfl,
      ⟨rfl, rfl⟩, fun _ _ hc _ => hc⟩
  rw [if_neg hzero]
  split_ifs with hidle
  · exact handleAvail_spec h hall hok hidle huse hin.symm heq
  · rw [heq]
    have hnofree : ∀ j < n, (s.bulk b).needSync j ≠ false := by
      have hcount := (h.shape.ok b hall).avail
      exact Nat.count_iff_forall_not.mp (by omega)
    refine ⟨h.puts hall hok ⟨rfl, listMove_perm h.shape.nodup hall .part, h.shape.moved_others,
      h.shape.moved ⟨by omega, by omega, fun j hj hz => ?_⟩, rfl, rfl, hsum, rfl, rfl, rfl⟩
      huse rfl, ⟨rfl, rfl, rfl, rfl⟩, rfl, ⟨rfl, rfl⟩, fun _ _ hc hne => mem_listMove_of_ne hc hne⟩
    exact hstart j hj hz fun hfree => absurd hfree (hnofree j hj)

end Turns

section Loops
variable {n : ℕ} {s : St} {b : ℕ} {us : List Dek} {turn : St → ℕ → St} {k : Kind}

/-- STEP: a turn of the loop over the sync list. The bits of a bulk that is kept are cleared. -/
theorem resetSync_spec (h : Fresh n s us) (hb : b ∈ s.list .sync) :
    Fresh n (resetSync n s b) us ∧ Turn s (resetSync n s b) b := by
  have hall : b ∈ allOf s.list := mem_allOf.mpr ⟨_, hb⟩
  have hok := h.shape.ok b hall
  obtain ⟨hnone, hidle⟩ := h.shape.kind .sync b hb
  have hunused : ∀ j < n, (s.bulk b).inUse j ≠ true := by
    have hcount := hok.inUse
    exact Nat.count_iff_forall_not.mp (by omega)
  have hclear : BulkOk n ⟨0, n, 0, (s.bulk b).inUse, fun _ => false⟩ := by
    refine ⟨fun j hj hu => absurd hu (hunused j hj), ?_, ?_⟩
    · change (n : ℤ) = (count (fun _ => false = false) n : ℕ)
      rw [Nat.count_iff_forall.mpr fun _ _ => rfl]
    · change (0 : ℤ) = (count (fun j => (s.bulk b).inUse j = true) n : ℕ)
      rw [Nat.count_iff_forall_not.mpr hunused]
      rfl
  unfold resetSync bulkHandleAvail
  by_cases hfirst : s.list .avail = []
  · simp only [if_pos hfirst]
    refine ⟨h.puts hall hclear ⟨?_, listMove_perm h.shape.nodup hall .avail, h.shape.moved_others,
      h.shape.moved rfl, rfl, ?_, ?_, rfl, rfl, rfl⟩ rfl rfl, ⟨rfl, rfl, rfl, rfl⟩, rfl,
      ⟨rfl, rfl⟩, fun _ _ hc hne => mem_listMove_of_ne hc hne⟩
    · change update (update s.bulk b _) b _ = _
      rw [update_idem, hidle]
    · change s.availDeks + n = s.availDeks + ((n : ℤ) - (s.bulk b).availDeks)
      omega
    · change s.inUseDeks = s.inUseDeks + (0 - (s.bulk b).inUseDeks)
      omega
  · simp only [if_neg hfirst]
    refine ⟨h.remove hall ⟨fun c hc => update_of_ne hc .., rfl, rfl, ?_, ?_, rfl, rfl, rfl⟩
      (fun j hj => by simpa using hunused j hj) rfl, ⟨rfl, rfl, rfl, rfl⟩, rfl, ⟨rfl, rfl⟩,
      fun _ _ hc hne => (List.mem_erase_of_ne hne).mpr hc⟩
    · change s.availDeks + n - (update s.bulk b _ b).availDeks = _
      rw [update_self, hnone]
      change s.availDeks + n - n = s.availDeks - 0
      omega
    · change s.inUseDeks - (update s.bulk b _ b).inUseDeks = _
      rw [update_self]

/-- What the loops leave as it was. -/
structure Rest (s s' : St) : Prop where
  frame : Frame s s'
  wait : s'.waitForFree = s.waitForFree
  work : s'.syncing = s.syncing ∧ s'.syncPending = s.syncPending

/-- RUN: a loop over one of the lists. -/
theorem loop_spec (hturn : ∀ s b, Fresh n s us → b ∈ s.list k →
    Fresh n (turn s b) us ∧ Turn s (turn s b) b) : ∀ (l : List ℕ) (s : St), Fresh n s us → l.Nodup →
    (∀ b ∈ l, b ∈ s.list k) → Fresh n (l.foldl turn s) us ∧ Rest s (l.foldl turn s) := by
  intro l
  induction l with
  | nil => exact fun s h _ _ => ⟨h, ⟨rfl, rfl, rfl, rfl⟩, rfl, rfl, rfl⟩
  | cons b l ih =>
    intro s h hn hmem
    obtain ⟨hout, hl⟩ := nodup_cons.mp hn
    obtain ⟨h₁, hb⟩ := hturn s b h (hmem b mem_cons_self)
    obtain ⟨h₂, hrest⟩ := ih (turn s b) h₁ hl fun c hc =>
      hb.others k c (hmem c (mem_cons_of_mem b hc)) fun he => hout (he ▸ hc)
    exact ⟨h₂, hb.frame.trans hrest.frame, hrest.wait.trans hb.wait,
      hrest.work.1.trans hb.work.1, hrest.work.2.trans hb.work.2⟩

theorem Shape.list_nodup (h : Shape n s) (k : Kind) : (s.list k).Nodup :=
  nodup_iff_count_le_one.mpr fun x => count_list_le h.nodup x

/-- RUN: the three loops of `mlx5_crypto_dek_pool_reset_synced`. -/
theorem resetLists_spec (h : Fresh n s us) :
    Fresh n (resetLists n s) us ∧ Rest s (resetLists n s) := by
  obtain ⟨h₁, hr₁⟩ := loop_spec (k := .part) (fun _ _ h hb => resetPart_spec h hb) _ _ h
    (h.shape.list_nodup .part) fun _ hb => hb
  obtain ⟨h₂, hr₂⟩ := loop_spec (k := .full) (fun _ _ h hb => resetFull_spec h hb) _ _ h₁
    (h₁.shape.list_nodup .full) fun _ hb => hb
  obtain ⟨h₃, hr₃⟩ := loop_spec (k := .sync) (fun _ _ h hb => resetSync_spec h hb) _ _ h₂
    (h₂.shape.list_nodup .sync) fun _ hb => hb
  exact ⟨h₃, hr₁.frame.trans (hr₂.frame.trans hr₃.frame), hr₃.wait.trans (hr₂.wait.trans hr₁.wait),
    hr₃.work.1.trans (hr₂.work.1.trans hr₁.work.1), hr₃.work.2.trans (hr₂.work.2.trans hr₁.work.2)⟩

/-- STEP: `mlx5_crypto_dek_pool_reset_synced`. The keys in use are those that a user has. -/
theorem poolResetSynced_spec (h : Fresh n s (s.held ++ s.waitForFree)) (hs : s.syncing = true) :
    (Shape n (poolResetSynced n s) ∧ Keys n (poolResetSynced n s) s.held) ∧
      Frame s (poolResetSynced n s) ∧ (poolResetSynced n s).waitForFree = [] ∧
      (poolResetSynced n s).syncPending = s.syncPending ∧
      ∀ d ∈ s.held ++ s.waitForFree, d.1 ∈ allOf (poolResetSynced n s).list := by
  obtain ⟨h₁, hrest⟩ := resetLists_spec h
  obtain ⟨⟨h₂, hk₂⟩, hframe, hwait, -, -, hperm, hpend⟩ := poolFreeWaitKeys_spec
    (resetLists n s).waitForFree (resetLists n s) h₁.shape
    (by rw [hrest.frame.held, hrest.wait]; exact h₁.keys) rfl
    fun _ => hrest.work.1.trans hs
  rw [hrest.frame.held] at hk₂
  rw [hrest.work.1, hrest.work.2, hs] at hpend
  have hpend' : (poolFreeWaitKeys (resetLists n s).waitForFree (resetLists n s)).syncPending =
      s.syncPending := by
    rw [Bool.eq_iff_iff, hpend]
    simp
  have hall := hrest.frame.trans hframe
  have hmem : ∀ d ∈ s.held ++ s.waitForFree, d.1 ∈
      allOf (poolFreeWaitKeys (resetLists n s).waitForFree (resetLists n s)).list := fun d hd =>
    hperm.mem_iff.mpr (h₁.keys.mem d hd).1
  unfold poolResetSynced
  simp only
  split_ifs
  · exact ⟨⟨h₂.same ⟨rfl, rfl, rfl, rfl, rfl, rfl, rfl, rfl⟩,
      hk₂.same rfl rfl (fun _ h => h) (List.Perm.refl _)⟩, hall.trans ⟨rfl, rfl, rfl, rfl⟩, hwait,
      hpend', hmem⟩
  · exact ⟨⟨h₂, hk₂⟩, hall, hwait, hpend', hmem⟩

end Loops

section Runs
variable {n : ℕ} {s : St} {d : Dek}

/-- INVARIANT: the bulks and the keys are in order; the keys that wait for the sync command under
    way had no user since it was started; the pool is marked exactly while the sync work is queued
    or runs; and a key with a user is not as new. -/
structure Inv (n : ℕ) (s : St) : Prop where
  shape : Shape n s
  keys : Keys n s (s.held ++ s.waitForFree)
  covered : s.syncRunning = true → Covered n s
  work : s.syncing = true ↔ s.syncPending = true ∨ s.syncRunning = true
  once : s.syncPending = true → s.syncRunning = false
  held : ∀ d ∈ s.held, s.clean d = false ∧ s.covered d = false

theorem Inv.start : Inv n start := by
  refine ⟨⟨List.nodup_nil, ?_, ?_, ?_, ?_, ?_, rfl, rfl⟩, ⟨?_, List.nodup_nil, ?_, ?_⟩, ?_, ?_,
    ?_, ?_⟩ <;> simp [DekPool.start, allOf]

/-- STEP: a key is taken. -/
theorem Inv.pop (hn : 0 < n) (h : Inv n s) (bulkOk : Bool) : Inv n (step n s (.pop bulkOk)) := by
  change Inv n (((mlx5CryptoDekPoolPop n s bulkOk).map Prod.snd).getD s)
  cases hp : mlx5CryptoDekPoolPop n s bulkOk with
  | none => exact h
  | some r =>
    obtain ⟨d, s'⟩ := r
    obtain ⟨⟨hshape, hkeys, hcov⟩, hout, -, ⟨hheld, hwait⟩, ⟨hsync, hpend, hrun⟩,
      hnew, hkeep⟩ := pop_spec hn h.shape h.keys hp
    change Inv n s'
    refine ⟨hshape, ?_, fun hr => hcov (h.covered (hrun ▸ hr)), ?_, ?_, fun e he => ?_⟩
    · rw [hheld, hwait]
      exact hkeys
    · rw [hsync, hpend, hrun]
      exact h.work
    · rw [hpend, hrun]
      exact h.once
    · rw [hheld] at he
      rcases mem_cons.mp he with rfl | he
      · exact hnew
      · have hlt := h.shape.lt e.1 (h.keys.mem e (List.mem_append_left _ he)).1
        obtain ⟨hclean, hcovered⟩ := hkeep e (Nat.ne_of_lt hlt)
        exact ⟨hclean (h.held e he).1, hcovered (h.held e he).2⟩

/-- STEP: a key is given back. -/
theorem Inv.push (h : Inv n s) (hd : d ∈ s.held) : Inv n (mlx5CryptoDekPoolPush s d) := by
  have hperm : (s.held ++ s.waitForFree).Perm (d :: (s.held.erase d ++ s.waitForFree)) :=
    (List.perm_cons_erase hd).append_right _
  have hheld : ∀ e ∈ s.held.erase d, s.clean e = false ∧ s.covered e = false := fun e he =>
    h.held e (List.mem_of_mem_erase he)
  unfold mlx5CryptoDekPoolPush
  by_cases hs : s.syncing = true
  · rw [if_pos hs]
    exact ⟨h.shape.same ⟨rfl, rfl, rfl, rfl, rfl, rfl, rfl, rfl⟩, h.keys.same rfl rfl
      (fun _ h => h) (List.perm_middle.trans hperm.symm), h.covered, h.work, h.once, hheld⟩
  · rw [if_neg hs]
    have hidle := not_or.mp fun hw => hs (h.work.mpr hw)
    obtain ⟨⟨hshape, hkeys⟩, hframe, hwait, -, -, -, -, hsched⟩ :=
      @freeLocked_spec n { s with held := s.held.erase d } d _ (s.held.erase d ++ s.waitForFree)
        (h.shape.same ⟨rfl, rfl, rfl, rfl, rfl, rfl, rfl, rfl⟩)
        (h.keys.same rfl rfl (fun _ h => h) (List.Perm.refl _)) hperm
    obtain ⟨hsync, hpend⟩ := hsched fun hp => absurd hp hidle.1
    refine ⟨hshape, ?_, fun hr => ?_, ?_, fun _ => ?_, ?_⟩
    · rw [hframe.held, hwait]
      exact hkeys
    · rw [hframe.running] at hr
      exact absurd hr hidle.2
    · rw [hsync, hpend, hframe.running]
      have hs' : s.syncing = false := by simpa using hs
      simp [hs', hidle.1, hidle.2]
    · rw [hframe.running]
      simpa using hidle.2
    · rw [hframe.held, hframe.clean, hframe.covered]
      exact hheld

/-- STEP: the sync work starts its command. The keys that are freed have no user. -/
theorem Inv.syncStart (h : Inv n s) (hp : s.syncPending = true) : Inv n (syncStart s) := by
  refine ⟨h.shape.same ⟨rfl, rfl, rfl, rfl, rfl, rfl, rfl, rfl⟩,
    h.keys.same rfl rfl (fun _ h => h) (List.Perm.refl _), fun _ b hb j hj _ hu => ?_, ?_, ?_,
    fun d hd => ⟨(h.held d hd).1, ?_⟩⟩
  · change (!s.held.contains (b, j)) = true
    rw [Bool.not_eq_true', ← Bool.not_eq_true, List.contains_iff_mem]
    intro hmem
    have hu' := (h.keys.use b hb j hj).mpr (List.mem_append_left _ hmem)
    have hu'' : (s.bulk b).inUse j = false := hu
    rw [hu''] at hu'
    cases hu'
  · exact iff_of_true (h.work.mpr (.inl hp)) (.inr rfl)
  · exact fun hp' => Bool.noConfusion hp'
  · change (!s.held.contains d) = false
    rw [Bool.not_eq_false', List.contains_iff_mem]
    exact hd

/-- What no user has, is as new when a sync command has worked. -/
theorem Inv.fresh (h : Inv n s) (hr : s.syncRunning = true) :
    Fresh n { s with clean := fun d => s.clean d || s.covered d } (s.held ++ s.waitForFree) := by
  refine ⟨h.shape.same ⟨rfl, rfl, rfl, rfl, rfl, rfl, rfl, rfl⟩, h.keys.same rfl rfl
    (fun d hd => by simp [hd]) (List.Perm.refl _), fun b hb j hj hu => ?_⟩
  rw [Bool.or_eq_true]
  cases hneed : (s.bulk b).needSync j with
  | false => exact .inl (h.keys.clean b hb j hj hneed)
  | true => exact .inr (h.covered hr b hb j hj hneed hu)

/-- STEP: the sync command ends. Where it has worked, no key is parked any more. -/
theorem Inv.syncEnd (h : Inv n s) (hr : s.syncRunning = true) (ok : Bool) :
    Inv n (syncEnd n s ok) ∧ (ok = true → (DekPool.syncEnd n s ok).waitForFree = [] ∧
      (DekPool.syncEnd n s ok).held = s.held ∧
      ∀ d ∈ s.held ++ s.waitForFree, d.1 ∈ allOf (DekPool.syncEnd n s ok).list) := by
  have hsync : s.syncing = true := h.work.mpr (.inr hr)
  have hpend : ¬s.syncPending = true := fun hp => by
    have hfalse := h.once hp
    rw [hr] at hfalse
    cases hfalse
  cases ok with
  | false =>
    refine ⟨⟨h.shape.same ⟨rfl, rfl, rfl, rfl, rfl, rfl, rfl, rfl⟩,
      h.keys.same rfl rfl (fun _ h => h) (List.Perm.refl _), fun hr' => Bool.noConfusion hr', ?_,
      fun _ => rfl, h.held⟩, fun h => Bool.noConfusion h⟩
    exact iff_of_false Bool.false_ne_true fun hw => hw.elim hpend Bool.false_ne_true
  | true =>
    obtain ⟨⟨hshape, hkeys⟩, hframe, hwait, hpend', hmem⟩ :=
      poolResetSynced_spec (h.fresh hr) hsync
    refine ⟨⟨hshape.same ⟨rfl, rfl, rfl, rfl, rfl, rfl, rfl, rfl⟩, ?_,
      fun hr' => Bool.noConfusion hr', ?_, fun _ => rfl, fun d hd => ?_⟩,
      fun _ => ⟨hwait, hframe.held, hmem⟩⟩
    · refine hkeys.same rfl rfl (fun _ h => h) ?_
      change ((poolResetSynced n _).held ++ (poolResetSynced n _).waitForFree).Perm _
      rw [hframe.held, hwait, append_nil]
    · refine iff_of_false Bool.false_ne_true fun hw => hw.elim (fun hp => ?_) Bool.false_ne_true
      exact hpend (hpend'.symm.trans hp)
    · obtain ⟨hclean, hcov⟩ := h.held d (hframe.held ▸ hd)
      change (poolResetSynced n _).clean d = false ∧ (poolResetSynced n _).covered d = false
      rw [hframe.clean, hframe.covered]
      exact ⟨by simp [hclean, hcov], hcov⟩

theorem Inv.destroyWork (h : Inv n s) : Inv n (destroyWork s) := by
  refine { h with
      shape := { h.shape with gone := fun b hb => ?_ },
      keys := h.keys.same rfl rfl (fun _ h => h) (List.Perm.refl _) }
  exact h.shape.gone b (by simpa [DekPool.destroyWork] using hb)

/-- RUN: the invariant holds in every state reached. -/
theorem Inv.reach (hn : 0 < n) (h : Reach (step n) Allowed DekPool.start s) : Inv n s := by
  refine h.invariant Inv.start fun s a ha h => ?_
  cases a with
  | pop bulkOk => exact h.pop hn bulkOk
  | push d => exact h.push ha
  | syncStart => exact h.syncStart ha.1
  | syncEnd ok => exact (h.syncEnd ha ok).1
  | destroyWork => exact h.destroyWork

end Runs

section Main
variable {n : ℕ} {s : St}

/-- A pool that no command is under way for ends and queues no work: a sync is marked, no key is
    parked, or the parked keys and those that were freed are no more than the threshold. -/
def EndsQuiet (s : St) : Prop :=
  s.syncing = true ∨ s.waitForFree = [] ∨
    poolCalcFreed s + s.waitForFree.length ≤ MLX5_CRYPTO_DEK_POOL_SYNC_THRESH

instance : Decidable (EndsQuiet s) := inferInstanceAs (Decidable (_ ∨ _ ∨ _))

/-- A work of the pool is queued or runs. -/
def HasWork (s : St) : Prop :=
  s.syncPending = true ∨ s.destroyPending = true ∨ s.syncRunning = true

instance : Decidable (HasWork s) := inferInstanceAs (Decidable (_ ∨ _ ∨ _))

theorem Inv.waitSync (h : Inv n s) (ok : Bool) : Inv n (waitSync n s ok) ∧
    (DekPool.waitSync n s ok).syncRunning = false ∧ (DekPool.waitSync n s ok).held = s.held := by
  unfold DekPool.waitSync
  split_ifs with hr
  · obtain ⟨hend, hworks⟩ := h.syncEnd hr ok
    refine ⟨hend, rfl, ?_⟩
    cases ok with
    | false => rfl
    | true => exact (hworks rfl).2.1
  · exact ⟨h, by simpa using hr, rfl⟩

/-- STEP: `mlx5_crypto_dek_pool_destroy`. -/
theorem Inv.destroy (h : Inv n s) (ok : Bool) :
    (HasWork (mlx5CryptoDekPoolDestroy n s ok) ↔ ¬EndsQuiet (DekPool.waitSync n s ok)) ∧
    (s.held = [] → ∀ b ∈ allOf (DekPool.waitSync n s ok).list, ∀ j < n,
      ((mlx5CryptoDekPoolDestroy n s ok).bulk b).inUse j = false) := by
  obtain ⟨hinv, hr, hsame⟩ := h.waitSync ok
  unfold mlx5CryptoDekPoolDestroy
  rw [← hsame]
  generalize DekPool.waitSync n s ok = s₁ at hinv hr ⊢
  obtain ⟨⟨-, hkeys⟩, hframe, -, -, hdp, hperm, hpend⟩ := poolFreeWaitKeys_spec s₁.waitForFree
    { s₁ with syncPending := false, destroyPending := false }
    (hinv.shape.same ⟨rfl, rfl, rfl, rfl, rfl, rfl, rfl, rfl⟩)
    (hinv.keys.same rfl rfl (fun _ h => h) (List.Perm.refl _)) rfl fun hp => Bool.noConfusion hp
  constructor
  · have hcalc : poolCalcFreed { s₁ with syncPending := false, destroyPending := false } =
      poolCalcFreed s₁ := rfl
    unfold HasWork EndsQuiet
    dsimp only
    rw [hframe.running, hdp, hpend, hcalc]
    simp [hr]
  · intro hheld b hb j hj
    refine Bool.eq_false_iff.mpr fun hu => ?_
    have hmem := (hkeys.use b (hperm.mem_iff.mpr hb) j hj).mp hu
    rw [hheld] at hmem
    cases hmem

/-- CORRECT: in every state that is reached, a key is handed out only where no user has it, where it
    is not parked, and where it is of a new bulk or had no user since a sync that worked was
    started. The bits, the lists and the counts agree, no bulk is given back with a key that has a
    user, and the end of a sync that works unmarks the parked keys. The end of the pool leaves no
    work exactly where it `EndsQuiet` when no command is under way any more. -/
theorem encryption_key_pool {r : ℕ} (h : Reach (step (2 ^ r)) Allowed start s) :
    (∀ bulkOk d s', mlx5CryptoDekPoolPop (2 ^ r) s bulkOk = some (d, s') →
      d ∉ s.held ∧ d ∉ s.waitForFree ∧ (d.1 = s.next ∨ s.clean d = true)) ∧
    ((allOf s.list).Nodup ∧ ∀ k, ∀ b ∈ s.list k, BulkOk (2 ^ r) (s.bulk b) ∧
      InKind (2 ^ r) (s.bulk b) k ∧ 0 ≤ (s.bulk b).availDeks ∧ 0 ≤ (s.bulk b).inUseDeks) ∧
    (s.numDeks = (2 ^ r : ℕ) * ((allOf s.list).length : ℤ) ∧
      s.availDeks = ((allOf s.list).map fun b => (s.bulk b).availDeks).sum ∧ 0 ≤ s.availDeks ∧
      s.inUseDeks = ((allOf s.list).map fun b => (s.bulk b).inUseDeks).sum ∧ 0 ≤ s.inUseDeks) ∧
    (∀ d ∈ s.held, (s.bulk d.1).inUse d.2 = true ∧ d.1 ∉ s.destroyList ++ s.freed) ∧
    (s.syncRunning = true → (syncEnd (2 ^ r) s true).waitForFree = [] ∧ ∀ d ∈ s.waitForFree,
      d.1 ∈ allOf (syncEnd (2 ^ r) s true).list ∧
        ((syncEnd (2 ^ r) s true).bulk d.1).inUse d.2 = false) ∧
    ∀ ok, (HasWork (mlx5CryptoDekPoolDestroy (2 ^ r) s ok) ↔
        ¬EndsQuiet (waitSync (2 ^ r) s ok)) ∧
      (s.held = [] → ∀ b ∈ allOf (waitSync (2 ^ r) s ok).list, ∀ j < 2 ^ r,
        ((mlx5CryptoDekPoolDestroy (2 ^ r) s ok).bulk b).inUse j = false) := by
  have hn : 0 < 2 ^ r := Nat.two_pow_pos r
  have hinv := Inv.reach hn h
  have hok : ∀ b ∈ allOf s.list, 0 ≤ (s.bulk b).availDeks ∧ 0 ≤ (s.bulk b).inUseDeks := fun b hb =>
    (hinv.shape.ok b hb).nonneg
  have hsum : ∀ f : Bulk → ℤ, (∀ b ∈ allOf s.list, 0 ≤ f (s.bulk b)) →
      0 ≤ ((allOf s.list).map fun b => f (s.bulk b)).sum := fun f hf =>
    List.sum_nonneg fun x hx => by
      obtain ⟨b, hb, rfl⟩ := List.mem_map.mp hx
      exact hf b hb
  refine ⟨fun bulkOk d s' hp => ?_, ⟨hinv.shape.nodup, fun k b hb => ?_⟩, ⟨hinv.shape.num,
    hinv.shape.avail, ?_, hinv.shape.inUse, ?_⟩, fun d hd => ?_, fun hr => ?_, hinv.destroy⟩
  · obtain ⟨-, hout, hclean, -⟩ := pop_spec hn hinv.shape hinv.keys hp
    rw [mem_append, not_or] at hout
    exact ⟨hout.1, hout.2, hclean⟩
  · have hall := mem_allOf.mpr ⟨k, hb⟩
    exact ⟨hinv.shape.ok b hall, hinv.shape.kind k b hb, hok b hall⟩
  · rw [hinv.shape.avail]
    exact hsum Bulk.availDeks fun b hb => (hok b hb).1
  · rw [hinv.shape.inUse]
    exact hsum Bulk.inUseDeks fun b hb => (hok b hb).2
  · have hd' := List.mem_append_left s.waitForFree hd
    obtain ⟨hall, hlt⟩ := hinv.keys.mem d hd'
    exact ⟨(hinv.keys.use d.1 hall d.2 hlt).mpr hd', fun hgone => (hinv.shape.gone _ hgone).2 hall⟩
  · obtain ⟨hend, hrest⟩ := hinv.syncEnd hr true
    obtain ⟨hwait, hheld, hmem⟩ := hrest rfl
    refine ⟨hwait, fun d hd => ?_⟩
    have hall := hmem d (List.mem_append_right _ hd)
    have hlt := (hinv.keys.mem d (List.mem_append_right _ hd)).2
    refine ⟨hall, ?_⟩
    by_contra hu
    have hin := (hend.keys.use d.1 hall d.2 hlt).mp (by simpa using hu)
    rw [hwait, append_nil, hheld] at hin
    exact (List.nodup_append'.mp hinv.keys.nodup).2.2 hin hd

instance Allowed.decidable : ∀ s a, Decidable (Allowed s a)
  | _, .pop _ => instDecidableTrue
  | s, .push d => decidable_of_iff (s.held.contains d = true) List.contains_iff_mem
  | s, .syncStart => inferInstanceAs (Decidable (s.syncPending = true ∧ s.syncRunning = false))
  | s, .syncEnd _ => inferInstanceAs (Decidable (s.syncRunning = true))
  | s, .destroyWork => inferInstanceAs (Decidable (s.destroyPending = true))

/-- A hundred and thirty keys are taken and given back, the last one while the sync is queued; its
    command starts. -/
def lateSync : List Op :=
  List.replicate 130 (.pop true) ++ (List.range 130).map (fun j => .push (0, j)) ++ [.syncStart]

theorem lateSync_reach : Reach (step (2 ^ 8)) Allowed start (lateSync.foldl (step (2 ^ 8)) start) :=
  Reach.start.runs (by decide +kernel)

/-- When the command fails, the freed keys and the parked one are too many. -/
theorem lateSync_end : ¬EndsQuiet (waitSync (2 ^ 8) (lateSync.foldl (step (2 ^ 8)) start) false) ∧
    (lateSync.foldl (step (2 ^ 8)) start).held = [] := by
  decide +kernel

theorem encryption_key_pool_demo : HasWork
    (mlx5CryptoDekPoolDestroy (2 ^ 8) (lateSync.foldl (step (2 ^ 8)) start) false) := by
  obtain ⟨-, -, -, -, -, hend⟩ := encryption_key_pool lateSync_reach
  exact (hend false).1.mpr lateSync_end.1

/-- BROKEN: a work is queued after the end of the pool, when the last sync fails and a key was parked
    meanwhile. -/
theorem encryption_key_pool_broken : ¬∀ (r : ℕ) (s : St) (ok : Bool),
    Reach (step (2 ^ r)) Allowed start s → s.held = [] →
      ¬HasWork (mlx5CryptoDekPoolDestroy (2 ^ r) s ok) := by
  intro h
  obtain ⟨hloud, hheld⟩ := lateSync_end
  exact h 8 _ false lateSync_reach hheld
    (((Inv.reach (Nat.two_pow_pos 8) lateSync_reach).destroy false).1.mpr hloud)

end Main

end RdmaDriver.DekPool
