import Mathlib.Data.List.Count
import Mathlib.Data.List.Nodup
import Mathlib.Data.List.Flatten
import RdmaDriver.Basic
import RdmaDriver.Schemes.Run

/-! @src drivers/infiniband/hw/mlx5/mr.c | name:Mkey cache | scheme:run | family:accounting

    The cache keeps free mkeys of equal shape in entries. An entry stores its mkeys in a stack of
    pages, counts the asynchronous creations it waits for in `pending` and the MRs that hold one of
    its mkeys in `in_use`. A firmware mkey is created by an asynchronous fill, by an allocation that
    misses, or outside the cache; it moves between a queue and an MR, and ends by being destroyed.
    Everything that can fail (page and memory allocation, firmware commands, UMR) is decided by the
    label of a step. An operation that drops the queue lock while it destroys a popped mkey is one
    step: nobody else can reach that mkey.

        firmware --callback--> queue --alloc--> MR --revoke--> queue
            |                    |                  +--------> destroyed
            +---- miss -> MR     +- resize, clean ----------> destroyed -/

namespace RdmaDriver.Mlx5Mkey
open Schemes Function
open List (append_assoc length_cons map_append map_cons map_nil mem_cons mem_cons_of_mem
  mem_cons_self mem_range nodup_cons not_mem_nil perm_cons_erase perm_middle range_succ)

/-- `struct mlx5r_cache_rb_key`. -/
structure RbKey where
  ats : ℕ
  accessMode : ℕ
  accessFlags : ℕ
  ndescs : ℕ
  deriving DecidableEq

/-- `struct mlx5_mkeys_queue`; `pages p i` is slot `i` of the `p`-th page of `pages_list`. -/
structure Queue where
  numPages : ℕ
  ci : ℕ
  pages : ℕ → ℕ → ℕ

/-- `struct mlx5_cache_ent`. -/
structure Ent where
  queue : Queue
  pending : ℕ
  inUse : ℕ
  limit : ℕ
  miss : ℕ
  rbKey : RbKey
  isTmp : Bool
  disabled : Bool
  fillToHighWater : Bool
  tmpCleanupScheduled : Bool

/-- The cache part of `struct mlx5_ib_mr`. `taken` records that the mkey was taken from the entry
    that `cache_ent` named; the code has no such field. -/
structure Mr where
  key : ℕ
  cacheEnt : Option ℕ
  cacheable : Bool
  rbKey : RbKey
  isPeer : Bool
  taken : Bool
  deriving DecidableEq

/-- The cache, the MRs that are registered, the mkeys that exist in firmware, and one item per
    asynchronous creation whose callback has not run, named by its entry. -/
structure State where
  ents : ℕ → Ent
  tree : List ℕ
  live : List Mr
  alive : List ℕ
  outstanding : List ℕ
  fillDelay : Bool

/-- `MAX_PENDING_REG_MR`. -/
def MAX_PENDING_REG_MR : ℕ := 8

def State.setEnt (s : State) (e : ℕ) (ent : Ent) : State :=
  { s with ents := update s.ents e ent }

/-! ### Queue -/

/-- All pages are full: the next push needs a new one. -/
def Queue.needsPage (N : ℕ) (q : Queue) : Bool := decide (q.numPages * N ≤ q.ci)

/-- `push_mkey_locked`, with `NUM_MKEYS_PER_PAGE = N`; `none` is `-ENOMEM`. -/
def pushMkey (N : ℕ) (q : Queue) (mkey : ℕ) (pageOk : Bool) : Option Queue :=
  let tmp := q.ci % N
  if q.needsPage N then
    if !pageOk then none
    else
      let page := update (fun _ => 0) tmp mkey
      some { numPages := q.numPages + 1, ci := q.ci + 1
             pages := update q.pages q.numPages page }
  else
    let last := q.numPages - 1
    some { q with
      ci := q.ci + 1
      pages := update q.pages last (update (q.pages last) tmp mkey) }

/-- `pop_mkey_locked`, for a queue that is not empty. -/
def popMkey (N : ℕ) (q : Queue) : ℕ × Queue :=
  let tmp := (q.ci - 1) % N
  let last := q.numPages - 1
  (q.pages last tmp,
    { numPages := if q.numPages > 1 ∧ tmp = 0 then q.numPages - 1 else q.numPages
      ci := q.ci - 1
      pages := update q.pages last (update (q.pages last) tmp 0) })

/-- `mlx5r_mkeys_init`. -/
def emptyQueue : Queue := { numPages := 1, ci := 0, pages := fun _ _ => 0 }

/-! ### Entries -/

/-- `queue_adjust_cache_locked`; the work it schedules is a step of its own. -/
def queueAdjust (fillDelay : Bool) (ent : Ent) : Ent :=
  if ent.disabled || fillDelay || ent.isTmp then ent
  else if ent.queue.ci < ent.limit then { ent with fillToHighWater := true }
  else if ent.fillToHighWater ∧ ent.queue.ci + ent.pending < toU 32 (2 * ent.limit) then ent
  else if ent.queue.ci = toU 32 (2 * ent.limit) then { ent with fillToHighWater := false }
  else if ent.queue.ci > toU 32 (2 * ent.limit) then { ent with fillToHighWater := false }
  else ent

/-- `cache_ent_key_cmp`: the fields are unsigned, their differences are taken as `int`. -/
def cacheEntKeyCmp (key1 key2 : RbKey) : ℤ :=
  let res := (key1.ats : ℤ) - key2.ats
  if res ≠ 0 then res
  else
    let res := toInt ((key1.accessMode : ℤ) - key2.accessMode)
    if res ≠ 0 then res
    else
      let res := toInt ((key1.accessFlags : ℤ) - key2.accessFlags)
      if res ≠ 0 then res
      else toInt ((key1.ndescs : ℤ) - key2.ndescs)

/-- The search of `mkey_cache_ent_from_rb_key`: an entry of this key, else the next larger one. The
    tree is given by its entries, in any order. -/
def searchTree (ents : ℕ → Ent) (key : RbKey) : List ℕ → Option ℕ → Option ℕ
  | [], smallest => smallest
  | e :: tree, smallest =>
    if cacheEntKeyCmp (ents e).rbKey key = 0 then some e
    else if cacheEntKeyCmp (ents e).rbKey key > 0 ∧
        (∀ m ∈ smallest, cacheEntKeyCmp (ents e).rbKey (ents m).rbKey < 0) then
      searchTree ents key tree (some e)
    else searchTree ents key tree smallest

/-- `mkey_cache_ent_from_rb_key`. -/
def mkeyCacheEntFromRbKey (s : State) (key : RbKey) : Option ℕ :=
  match searchTree s.ents key s.tree none with
  | none => none
  | some e =>
    let k := (s.ents e).rbKey
    if k = key then some e
    else if k.accessMode = key.accessMode ∧ k.accessFlags = key.accessFlags ∧ k.ats = key.ats ∧
        k.ndescs ≤ Nat.max (toU 32 (key.ndescs * 2)) 4 then some e
    else none

/-- The entry that `mlx5r_cache_create_ent_locked` makes for `rb_key`, with its `limit`. -/
def newEnt (rbKey : RbKey) (limit : ℕ) (persistentEntry : Bool) : Ent :=
  { queue := emptyQueue, pending := 0, inUse := 0, limit := limit, miss := 0, rbKey := rbKey
    isTmp := !persistentEntry, disabled := false, fillToHighWater := false
    tmpCleanupScheduled := false }

/-- `mlx5r_cache_create_ent_locked` for a temporary entry, which gets the handle `e`. -/
def createEntLocked (s : State) (rbKey : RbKey) (alloc : Except Errno ℕ) :
    Except Errno (State × ℕ) :=
  match alloc with
  | .error err => .error err
  | .ok e =>
    if s.tree.any fun m => cacheEntKeyCmp (s.ents m).rbKey rbKey = 0 then .error .eexist
    else .ok ({ s.setEnt e (newEnt rbKey 0 false) with tree := e :: s.tree }, e)

/-- How one turn of `add_keys` goes: no memory, a command that cannot be sent, or one in flight. -/
inductive AddOut where | noMem | cbErr (err : Errno) | sent
  deriving DecidableEq

/-- One turn of `add_keys`. -/
def addKey (s : State) (e : ℕ) (out : AddOut) : State × Option Errno :=
  let ent := s.ents e
  if out = .noMem then (s, some .enomem)
  else if ent.pending ≥ MAX_PENDING_REG_MR then (s, some .eagain)
  else
    let ent := { ent with pending := toU 32 (ent.pending + 1 : ℕ) }
    match out with
    | .cbErr err =>
      (s.setEnt e { ent with pending := toU 32 ((ent.pending : ℤ) - 1) }, some err)
    | _ => ({ s.setEnt e ent with outstanding := e :: s.outstanding }, none)

/-- `add_keys`; `outs` gives the outcome of each turn. -/
def addKeys (e : ℕ) (outs : ℕ → AddOut) : ℕ → State → State × Option Errno
  | 0, s => (s, none)
  | num + 1, s =>
    match addKey s e (outs num) with
    | (s, some err) => (s, some err)
    | (s, none) => addKeys e outs num s

/-- What the firmware command of an asynchronous creation reports to its callback, and whether the
    callback gets a page if it needs one. -/
inductive CbStatus where | fail | ok (key : ℕ) (pageOk : Bool)
  deriving DecidableEq

/-- `create_mkey_callback`. -/
def createMkeyCallback (N : ℕ) (s : State) (e : ℕ) : CbStatus → State
  | .fail =>
    let ent := s.ents e
    { s.setEnt e { ent with pending := toU 32 ((ent.pending : ℤ) - 1) } with
      fillDelay := true, outstanding := s.outstanding.erase e }
  | .ok key pageOk =>
    let ent := s.ents e
    -- the result of the push is not looked at
    let queue := (pushMkey N ent.queue key pageOk).getD ent.queue
    let ent := { ent with queue := queue, pending := toU 32 ((ent.pending : ℤ) - 1) }
    { s.setEnt e (queueAdjust s.fillDelay ent) with
      alive := key :: s.alive, outstanding := s.outstanding.erase e }

/-- `remove_cache_mr_locked`; a failing `mlx5_core_destroy_mkey` goes unnoticed. -/
def removeCacheMr (N : ℕ) (s : State) (e : ℕ) (destroyOk : Bool) : State :=
  let ent := s.ents e
  if ent.queue.ci = 0 then s
  else
    let (mkey, queue) := popMkey N ent.queue
    { s.setEnt e { ent with queue := queue } with
      alive := if destroyOk then s.alive.erase mkey else s.alive }

/-- The loop of `clean_keys`, for a queue of `n` mkeys. -/
def cleanLoop (N : ℕ) (e : ℕ) (destroyOk : ℕ → Bool) : ℕ → State → State
  | 0, s => s
  | n + 1, s => cleanLoop N e destroyOk n (removeCacheMr N s e (destroyOk n))

/-- `clean_keys`. -/
def cleanKeys (N : ℕ) (s : State) (e : ℕ) (destroyOk : ℕ → Bool) : State :=
  let s := cleanLoop N e destroyOk (s.ents e).queue.ci s
  s.setEnt e { s.ents e with tmpCleanupScheduled := false }

/-- One turn of the loop of `resize_available_mrs`; the loop is repeated until it returns, with
    other steps in between. -/
def resizeTurn (N : ℕ) (s : State) (e target : ℕ) (limitFill : Bool) (outs : ℕ → AddOut)
    (destroyOk : Bool) : State :=
  let ent := s.ents e
  let target := if limitFill then toU 32 (ent.limit * 2 : ℕ) else target
  if target = ent.pending + ent.queue.ci then s
  else if target > ent.pending + ent.queue.ci then
    (addKeys e outs (toU 32 ((target : ℤ) - (ent.pending + ent.queue.ci))) s).1
  else removeCacheMr N s e destroyOk

/-- `__cache_work_func`; `collect` is its decision that excess mkeys may be freed now. -/
def cacheWorkFunc (N : ℕ) (s : State) (e : ℕ) (outs : ℕ → AddOut) (collect destroyOk : Bool) :
    State :=
  let ent := s.ents e
  if ent.disabled then s
  else if ent.fillToHighWater ∧ ent.queue.ci + ent.pending < toU 32 (2 * ent.limit) ∧
      !s.fillDelay then
    (addKeys e outs 1 s).1
  else if ent.queue.ci > toU 32 (2 * ent.limit) then
    if !collect then s
    else
      let s := removeCacheMr N s e destroyOk
      s.setEnt e (queueAdjust s.fillDelay (s.ents e))
  else s

/-! ### Memory regions -/

/-- `_mlx5_mr_cache_alloc`; `create` is the outcome of `create_cache_mkey` on a miss. -/
def mrCacheAlloc (N : ℕ) (s : State) (e : ℕ) (mrAlloc : Bool) (create : Except Errno ℕ)
    (isPeer : Bool) : State × Option Errno :=
  if !mrAlloc then (s, some .enomem)
  else
    let ent := s.ents e
    let ent := { ent with inUse := toU 32 (ent.inUse + 1 : ℕ) }
    let mr key : Mr :=
      { key := key, cacheEnt := some e, cacheable := true, rbKey := ent.rbKey
        isPeer := isPeer, taken := true }
    if ent.queue.ci = 0 then
      let ent := { queueAdjust s.fillDelay ent with miss := toU 32 (ent.miss + 1 : ℕ) }
      match create with
      | .error err =>
        (s.setEnt e { ent with inUse := toU 32 ((ent.inUse : ℤ) - 1) }, some err)
      | .ok key => ({ s.setEnt e ent with alive := key :: s.alive, live := mr key :: s.live }, none)
    else
      let (key, queue) := popMkey N ent.queue
      ({ s.setEnt e (queueAdjust s.fillDelay { ent with queue := queue }) with
         live := mr key :: s.live }, none)

/-- An MR whose mkey was created for it alone, outside the cache. -/
def regCreate (s : State) (create : Except Errno ℕ) (rbKey : RbKey) (cacheable isPeer : Bool) :
    State × Option Errno :=
  match create with
  | .error err => (s, some err)
  | .ok key =>
    let mr : Mr :=
      { key := key, cacheEnt := none, cacheable := cacheable, rbKey := rbKey
        isPeer := isPeer, taken := false }
    ({ s with alive := key :: s.alive, live := mr :: s.live }, none)

/-- `alloc_cacheable_mr`, from the key it computed on. -/
def allocCacheableMr (N : ℕ) (s : State) (rbKey : RbKey) (mrAlloc : Bool)
    (create : Except Errno ℕ) (isPeer : Bool) : State × Option Errno :=
  match mkeyCacheEntFromRbKey s rbKey with
  | none => regCreate s create rbKey true isPeer
  | some e => mrCacheAlloc N s e mrAlloc create isPeer

/-- What `mlx5_revoke_mr` meets: the two `mlx5r_umr_revoke_mr` calls, the page for the push, the new
    entry, and `destroy_mkey`. -/
structure RevokeEnv where
  umr : Option Errno
  pageOk : Bool
  newEnt : Except Errno ℕ
  umrPeer : Option Errno
  destroy : Option Errno

/-- `in_use--` on the entry of an MR, if it has one. -/
def release (s : State) : Option ℕ → State
  | none => s
  | some e => s.setEnt e { s.ents e with inUse := toU 32 (((s.ents e).inUse : ℤ) - 1) }

/-- Label `end` of `cache_ent_find_and_store`. -/
def storeMkey (N : ℕ) (s : State) (e : ℕ) (mr : Mr) (pageOk : Bool) :
    State × Mr × Option Errno :=
  match pushMkey N (s.ents e).queue mr.key pageOk with
  | none => (s, mr, some .enomem)
  | some queue => (s.setEnt e { s.ents e with queue := queue }, mr, none)

/-- The entry of exactly this shape, as `cache_ent_find_and_store` looks for it. -/
def findExact (s : State) (key : RbKey) : Option ℕ :=
  match mkeyCacheEntFromRbKey s key with
  | none => none
  | some e => if (s.ents e).rbKey.ndescs = key.ndescs then some e else none

/-- `cache_ent_find_and_store`: the state, the MR as it is left, and the return value. -/
def cacheEntFindAndStore (N : ℕ) (s : State) (mr : Mr) (env : RevokeEnv) :
    State × Mr × Option Errno :=
  match mr.cacheEnt with
  | some e => storeMkey N (release s (some e)) e mr env.pageOk
  | none =>
    match findExact s mr.rbKey with
    | some e =>
      if (s.ents e).disabled then (s, mr, some .eopnotsupp)
      else storeMkey N s e { mr with cacheEnt := some e, taken := false } env.pageOk
    | none =>
      match createEntLocked s mr.rbKey env.newEnt with
      | .error err => (s, mr, some err)
      | .ok (s, e) => storeMkey N s e { mr with cacheEnt := some e, taken := false } env.pageOk

/-- `mlx5_revoke_mr` behind its cache attempt. `ent` is the entry read on entry to the function;
    `old` is the MR as it is registered, `mr` as the cache attempt left it. -/
def revokeUncached (s : State) (ent : Option ℕ) (old mr : Mr) (env : RevokeEnv) :
    State × Option Errno :=
  let s := release s ent
  let mr := if ent.isSome then { mr with cacheEnt := none } else mr
  match (if mr.isPeer then env.umrPeer else none) with
  | some rc => ({ s with live := mr :: s.live.erase old }, some rc)
  | none =>
    match env.destroy with
    | some rc => ({ s with live := mr :: s.live.erase old }, some rc)
    | none => ({ s with live := s.live.erase old, alive := s.alive.erase mr.key }, none)

/-- Upon storing to a clean temporary entry, schedule its cleanup. -/
def scheduleCleanup (s : State) : Option ℕ → State
  | none => s
  | some e =>
    if (s.ents e).isTmp ∧ !(s.ents e).tmpCleanupScheduled then
      s.setEnt e { s.ents e with tmpCleanupScheduled := true }
    else s

/-- `mlx5_revoke_mr` as `__mlx5_ib_dereg_mr` calls it: an MR that was revoked is freed, one that was
    not stays registered. -/
def revokeMr (N : ℕ) (s : State) (mr : Mr) (env : RevokeEnv) : State × Option Errno :=
  if mr.cacheable ∧ env.umr = none then
    match cacheEntFindAndStore N s mr env with
    | (s, mr', none) =>
      (scheduleCleanup { s with live := s.live.erase mr } mr'.cacheEnt, none)
    | (s, mr', some _) => revokeUncached s mr.cacheEnt mr mr' env
  else revokeUncached s mr.cacheEnt mr mr env

/-! ### Steps -/

/-- Everything that can happen to the cache. -/
inductive Act where
  | addKeys (e num : ℕ) (outs : ℕ → AddOut)
  | callback (e : ℕ) (status : CbStatus)
  | resizeTurn (e target : ℕ) (limitFill : Bool) (outs : ℕ → AddOut) (destroyOk : Bool)
  | cacheWork (e : ℕ) (outs : ℕ → AddOut) (collect destroyOk : Bool)
  | cleanKeys (e : ℕ) (destroyOk : ℕ → Bool)
  | cacheAlloc (e : ℕ) (mrAlloc : Bool) (create : Except Errno ℕ) (isPeer : Bool)
  | allocCacheable (rbKey : RbKey) (mrAlloc : Bool) (create : Except Errno ℕ) (isPeer : Bool)
  | regCreate (create : Except Errno ℕ) (rbKey : RbKey) (isPeer : Bool)
  | revoke (mr : Mr) (env : RevokeEnv)
  | setLimit (e limit : ℕ)
  | disable (e : ℕ)

def step (N : ℕ) (s : State) : Act → State
  | .addKeys e num outs => (addKeys e outs num s).1
  | .callback e status => createMkeyCallback N s e status
  | .resizeTurn e target limitFill outs destroyOk =>
    resizeTurn N s e target limitFill outs destroyOk
  | .cacheWork e outs collect destroyOk => cacheWorkFunc N s e outs collect destroyOk
  | .cleanKeys e destroyOk => cleanKeys N s e destroyOk
  | .cacheAlloc e mrAlloc create isPeer => (mrCacheAlloc N s e mrAlloc create isPeer).1
  | .allocCacheable rbKey mrAlloc create isPeer =>
    (allocCacheableMr N s rbKey mrAlloc create isPeer).1
  | .regCreate create rbKey isPeer => (regCreate s create rbKey false isPeer).1
  | .revoke mr env => (revokeMr N s mr env).1
  | .setLimit e limit => s.setEnt e { s.ents e with limit := limit }
  | .disable e => s.setEnt e { s.ents e with disabled := true }

/-- Firmware hands out an mkey that does not exist; its index has 24 bits. -/
def Fresh (s : State) (key : ℕ) : Prop := key ∉ s.alive ∧ s.alive.length < 2 ^ 24

/-- When an action can happen: the entry exists, the callback belongs to a creation in flight, the
    MR is registered, and what is created is new. -/
def Enabled (s : State) : Act → Prop
  | .addKeys e _ _ | .resizeTurn e _ _ _ _ | .cacheWork e _ _ _ | .cleanKeys e _ | .setLimit e _
  | .disable e => e ∈ s.tree
  | .callback e status => e ∈ s.outstanding ∧ ∀ key pageOk, status = .ok key pageOk → Fresh s key
  | .cacheAlloc e _ create _ => e ∈ s.tree ∧ ∀ key, create = .ok key → Fresh s key
  | .allocCacheable _ _ create _ | .regCreate create _ _ => ∀ key, create = .ok key → Fresh s key
  | .revoke mr env => mr ∈ s.live ∧ ∀ e, env.newEnt = .ok e → e ∉ s.tree

/-- The existing entry into which `mlx5_revoke_mr` pushes the mkey of an MR. -/
def storeTarget (s : State) (mr : Mr) : Option ℕ :=
  match mr.cacheEnt with
  | some e => some e
  | none =>
    match findExact s mr.rbKey with
    | none => none
    | some e => if (s.ents e).disabled then none else some e

/-- What must not happen: a page that a push needs is not there while the mkey has no other place to
    go, and firmware refuses to destroy an mkey that was popped. A push that fails on the first
    return of an uncached MR is fine if the mkey is then destroyed. -/
def Sound (N : ℕ) (s : State) : Act → Prop
  | .callback e (.ok _ pageOk) => (s.ents e).queue.needsPage N = true → pageOk = true
  | .resizeTurn _ _ _ _ destroyOk | .cacheWork _ _ _ destroyOk => destroyOk = true
  | .cleanKeys _ destroyOk => ∀ n, destroyOk n = true
  | .revoke mr env => mr.cacheable = true → env.umr = none → ∀ e, storeTarget s mr = some e →
    (s.ents e).queue.needsPage N = true → env.pageOk = false →
      mr.cacheEnt = none ∧ (mr.isPeer = true → env.umrPeer = none) ∧ env.destroy = none
  | _ => True

/-! ### The queue as a stack -/

/-- The mkeys of a queue, oldest first. -/
def keys (N : ℕ) (q : Queue) : List ℕ := (List.range q.ci).map fun i => q.pages (i / N) (i % N)

/-- The pages are full up to the last one, which is not empty unless it is the first. -/
structure QueueInv (N : ℕ) (q : Queue) : Prop where
  pages : 1 ≤ q.numPages
  upper : q.ci ≤ q.numPages * N
  lower : q.numPages = 1 ∨ (q.numPages - 1) * N < q.ci

section Queue

variable {N : ℕ} {q q' : Queue} {k : ℕ}

theorem QueueInv.last_page (h : QueueInv N q) {i : ℕ} (hlo : (q.numPages - 1) * N ≤ i)
    (hi : i < q.numPages * N) : i / N = q.numPages - 1 := by
  have hp := h.pages
  refine Nat.div_eq_of_lt_le hlo ?_
  rwa [show q.numPages - 1 + 1 = q.numPages by omega]

/-- Writing slot `ci` of its page leaves the mkeys below it alone. -/
theorem keys_update {pages : ℕ → ℕ → ℕ} {n c v i : ℕ} (hi : i ≠ n) (hc : n / N = c) :
    update pages c (update (pages c) (n % N) v) (i / N) (i % N) = pages (i / N) (i % N) := by
  by_cases hpage : i / N = c
  · rw [hpage, update_self, update_of_ne]
    intro hmod
    have h₁ := Nat.div_add_mod i N
    have h₂ := Nat.div_add_mod n N
    rw [hpage, hmod] at h₁
    rw [hc] at h₂
    exact hi (h₁.symm.trans h₂)
  · rw [update_of_ne hpage]

/-- A push puts the mkey on top of the stack. -/
theorem pushMkey_some (hN : 0 < N) (h : QueueInv N q) {pageOk : Bool}
    (hp : pushMkey N q k pageOk = some q') : QueueInv N q' ∧ keys N q' = keys N q ++ [k] := by
  have hpages := h.pages
  have hupper := h.upper
  rw [pushMkey] at hp
  by_cases hneed : q.needsPage N = true
  · have hci : q.ci = q.numPages * N := by
      have := of_decide_eq_true hneed
      omega
    rw [if_pos hneed] at hp
    cases pageOk with
    | false => cases hp
    | true =>
      cases hp
      refine ⟨⟨by simp, ?_, .inr ?_⟩, ?_⟩
      · simp only [Nat.add_mul]
        omega
      · simp only [Nat.add_sub_cancel]
        omega
      · have hdiv : q.ci / N = q.numPages := by rw [hci, Nat.mul_div_cancel _ hN]
        simp only [keys, range_succ, map_append, map_cons, map_nil]
        congr 1
        · refine List.map_congr_left fun i hi => ?_
          have hlt : i / N < q.numPages := by
            rw [Nat.div_lt_iff_lt_mul hN, ← hci]
            exact mem_range.mp hi
          rw [update_of_ne (by omega)]
        · rw [hdiv, update_self, update_self]
  · have hci : q.ci < q.numPages * N := by
      simp only [Queue.needsPage, decide_eq_true_eq] at hneed
      omega
    rw [if_neg hneed] at hp
    cases hp
    have hlast : q.ci / N = q.numPages - 1 := by
      refine h.last_page ?_ hci
      rcases h.lower with h1 | h1
      · rw [h1]
        simp
      · exact h1.le
    refine ⟨⟨hpages, hci, h.lower.imp_right fun hlt => by simp only; omega⟩, ?_⟩
    simp only [keys, range_succ, map_append, map_cons, map_nil]
    congr 1
    · refine List.map_congr_left fun i hi => ?_
      have := mem_range.mp hi
      exact keys_update (by omega) hlast
    · rw [hlast, update_self, update_self]

/-- A push fails only for want of a page. -/
theorem pushMkey_none {pageOk : Bool} (hp : pushMkey N q k pageOk = none) :
    q.needsPage N = true ∧ pageOk = false := by
  rw [pushMkey] at hp
  by_cases hneed : q.needsPage N = true
  · rw [if_pos hneed] at hp
    cases pageOk with
    | false => exact ⟨hneed, rfl⟩
    | true => cases hp
  · rw [if_neg hneed] at hp
    cases hp

/-- A pop takes the mkey on top of the stack. -/
theorem popMkey_spec (hN : 0 < N) (h : QueueInv N q) (hci : q.ci ≠ 0) :
    QueueInv N (popMkey N q).2 ∧ keys N q = keys N (popMkey N q).2 ++ [(popMkey N q).1] := by
  have hpages := h.pages
  have hupper := h.upper
  have hlow : (q.numPages - 1) * N ≤ q.ci - 1 := by
    rcases h.lower with h1 | h1
    · rw [h1]
      simp
    · omega
  have hlast : (q.ci - 1) / N = q.numPages - 1 := h.last_page hlow (by omega)
  have hdm := Nat.div_add_mod (q.ci - 1) N
  rw [hlast, mul_comm] at hdm
  refine ⟨?_, ?_⟩
  · by_cases hfree : q.numPages > 1 ∧ (q.ci - 1) % N = 0
    · have hci' : q.ci - 1 = (q.numPages - 1) * N := by omega
      have hmul : (q.numPages - 1) * N = (q.numPages - 1 - 1) * N + N := by
        rw [← Nat.succ_mul]
        congr 1
        omega
      simp only [popMkey, if_pos hfree]
      refine ⟨by simp only; omega, by simp only; omega, .inr ?_⟩
      simp only
      omega
    · simp only [popMkey, if_neg hfree]
      refine ⟨hpages, by simp only; omega, ?_⟩
      rcases Nat.eq_or_lt_of_le hpages with h1 | h1
      · exact .inl h1.symm
      · refine .inr ?_
        simp only
        omega
  · have hsucc : q.ci = (q.ci - 1) + 1 := by omega
    simp only [keys]
    conv_lhs => rw [hsucc]
    rw [range_succ, map_append, map_cons, map_nil, hlast]
    congr 1
    refine List.map_congr_left fun i hi => ?_
    have := mem_range.mp hi
    exact (keys_update (by omega) hlast).symm

end Queue

/-! ### Accounting -/

/-- The mkeys in the queues of the entries. -/
def queued (N : ℕ) (tree : List ℕ) (ents : ℕ → Ent) : List ℕ :=
  tree.flatMap fun e => keys N (ents e).queue

/-- The number of registered MRs whose mkey was taken from entry `e`. -/
def inUse (live : List Mr) (e : ℕ) : ℕ :=
  live.countP fun m => decide (m.cacheEnt = some e) && m.taken

/-- The mkeys that exist in firmware are, each exactly once, in a queue or held by an MR; `in_use`
    counts the MRs taken from an entry and `pending` its creations in flight. -/
structure Accounted (N : ℕ) (s : State) : Prop where
  keys : (queued N s.tree s.ents ++ s.live.map Mr.key).Perm s.alive
  nodup : s.alive.Nodup
  inUse : ∀ e ∈ s.tree, (s.ents e).inUse = inUse s.live e
  pending : ∀ e ∈ s.tree, (s.ents e).pending = s.outstanding.count e

/-- The accounting, with what keeps it: well-formed queues, bounds that keep the 32-bit counters
    from wrapping, and that `cache_ent` of an MR always names the entry it was taken from. -/
structure Inv (N : ℕ) (s : State) : Prop extends Accounted N s where
  tree : s.tree.Nodup
  queue : ∀ e ∈ s.tree, QueueInv N (s.ents e).queue
  few : s.alive.length ≤ 2 ^ 24
  bounded : ∀ e ∈ s.tree, (s.ents e).pending ≤ MAX_PENDING_REG_MR
  cached : ∀ m ∈ s.live, ∀ e, m.cacheEnt = some e → e ∈ s.tree ∧ m.taken = true
  waiting : ∀ e ∈ s.outstanding, e ∈ s.tree

section Entries

variable {N : ℕ} {s : State} {e : ℕ}

/-- The mkeys in the queues of all other entries. -/
def others (N : ℕ) (s : State) (e : ℕ) : List ℕ := queued N (s.tree.erase e) s.ents

theorem queued_perm (he : e ∈ s.tree) :
    (queued N s.tree s.ents).Perm (keys N (s.ents e).queue ++ others N s e) :=
  (perm_cons_erase he).flatMap_right _

theorem queued_update_perm (htree : s.tree.Nodup) (he : e ∈ s.tree) (ent : Ent) :
    (queued N s.tree (update s.ents e ent)).Perm (keys N ent.queue ++ others N s e) := by
  have hperm := (perm_cons_erase he).flatMap_right
    fun d => keys N (update s.ents e ent d).queue
  refine hperm.trans (List.Perm.of_eq ?_)
  rw [List.flatMap_cons, update_self]
  congr 1
  refine List.flatMap_congr fun d hd => ?_
  rw [update_of_ne]
  rintro rfl
  exact htree.not_mem_erase hd

section
variable (h : Inv N s) (he : e ∈ s.tree)
include h he

/-- The accounting of mkeys, seen from entry `e`. -/
theorem Inv.keys_at :
    (keys N (s.ents e).queue ++ (others N s e ++ s.live.map Mr.key)).Perm s.alive := by
  rw [← append_assoc]
  exact ((queued_perm he).symm.append_right _).trans h.keys

/-- Replacing one entry keeps the invariant if the entry accounts for what changed. -/
theorem Inv.update {ent : Ent} {live : List Mr}
    {alive outstanding : List ℕ} {fillDelay : Bool} (hq : QueueInv N ent.queue)
    (hkeys : (keys N ent.queue ++ (others N s e ++ live.map Mr.key)).Perm alive)
    (hnodup : alive.Nodup) (hfew : alive.length ≤ 2 ^ 24) (huse : ent.inUse = inUse live e)
    (huse' : ∀ d ≠ e, inUse live d = inUse s.live d) (hpend : ent.pending = outstanding.count e)
    (hpend' : ∀ d ≠ e, outstanding.count d = s.outstanding.count d)
    (hbound : ent.pending ≤ MAX_PENDING_REG_MR)
    (hcached : ∀ m ∈ live, ∀ d, m.cacheEnt = some d → d ∈ s.tree ∧ m.taken = true)
    (hwait : ∀ d ∈ outstanding, d ∈ s.tree) :
    Inv N ⟨Function.update s.ents e ent, s.tree, live, alive, outstanding, fillDelay⟩ := by
  have hfield : ∀ {P : ℕ → Ent → Prop}, P e ent → (∀ d ∈ s.tree, d ≠ e → P d (s.ents d)) →
      ∀ d ∈ s.tree, P d (Function.update s.ents e ent d) := by
    intro P hP hother d hd
    by_cases hde : d = e
    · subst hde
      rwa [update_self]
    · rw [update_of_ne hde]
      exact hother d hd hde
  refine ⟨⟨?_, hnodup, ?_, ?_⟩, h.tree, ?_, hfew, ?_, hcached, hwait⟩
  · refine ((queued_update_perm h.tree he ent).append_right _).trans ?_
    rw [append_assoc]
    exact hkeys
  · exact hfield (P := fun d x => x.inUse = inUse live d) huse fun d hd hde => by
      rw [huse' d hde]
      exact h.inUse d hd
  · exact hfield (P := fun d x => x.pending = outstanding.count d) hpend fun d hd hde => by
      rw [hpend' d hde]
      exact h.pending d hd
  · exact hfield (P := fun _ x => QueueInv N x.queue) hq fun d hd _ => h.queue d hd
  · exact hfield (P := fun _ x => x.pending ≤ MAX_PENDING_REG_MR) hbound fun d hd _ =>
      h.bounded d hd

/-- Fields of an entry other than its queue and its counters do not matter. -/
theorem Inv.touch {ent : Ent} (hq : ent.queue = (s.ents e).queue)
    (hp : ent.pending = (s.ents e).pending) (hu : ent.inUse = (s.ents e).inUse) :
    Inv N (s.setEnt e ent) :=
  h.update he (by rw [hq]; exact h.queue e he) (by rw [hq]; exact h.keys_at he) h.nodup h.few
    (hu.trans (h.inUse e he)) (fun _ _ => rfl) (hp.trans (h.pending e he)) (fun _ _ => rfl)
    (by rw [hp]; exact h.bounded e he) h.cached h.waiting

end

@[simp] theorem queueAdjust_queue (fd : Bool) (ent : Ent) :
    (queueAdjust fd ent).queue = ent.queue := by
  unfold queueAdjust
  repeat' split
  all_goals rfl

@[simp] theorem queueAdjust_pending (fd : Bool) (ent : Ent) :
    (queueAdjust fd ent).pending = ent.pending := by
  unfold queueAdjust
  repeat' split
  all_goals rfl

@[simp] theorem queueAdjust_in_use (fd : Bool) (ent : Ent) :
    (queueAdjust fd ent).inUse = ent.inUse := by
  unfold queueAdjust
  repeat' split
  all_goals rfl

theorem toU32_pred {n : ℕ} (h : n < 2 ^ 32) (h0 : 0 < n) : toU 32 ((n : ℤ) - 1) = n - 1 :=
  toU_sub h h0

theorem Inv.in_use_lt (h : Inv N s) (he : e ∈ s.tree) : (s.ents e).inUse ≤ 2 ^ 24 := by
  rw [h.inUse e he]
  calc inUse s.live e ≤ s.live.length := List.countP_le_length
    _ ≤ (queued N s.tree s.ents ++ s.live.map Mr.key).length := by
      rw [List.length_append, List.length_map]
      omega
    _ = s.alive.length := h.keys.length_eq
    _ ≤ 2 ^ 24 := h.few

/-! ### Creation of mkeys -/

theorem inv_addKey (h : Inv N s) (he : e ∈ s.tree) (out : AddOut) : Inv N (addKey s e out).1 := by
  have hb := h.bounded e he
  unfold addKey
  simp only
  split
  · exact h
  split
  · exact h
  · rename_i hfull
    simp only [MAX_PENDING_REG_MR] at hb hfull
    have hinc : toU 32 ((s.ents e).pending + 1 : ℕ) = (s.ents e).pending + 1 :=
      toU_of_lt (by omega)
    split
    · refine h.touch he rfl ?_ rfl
      simp only [hinc]
      exact toU32_pred (by omega) (by omega)
    · refine h.update he (h.queue e he) (h.keys_at he) h.nodup h.few (h.inUse e he)
        (fun _ _ => rfl) ?_ (fun d hd => ?_) ?_ h.cached fun d hd => ?_
      · simp only [hinc, List.count_cons_self]
        rw [h.pending e he]
      · rw [List.count_cons_of_ne hd.symm]
      · simp only [MAX_PENDING_REG_MR]
        omega
      · rcases mem_cons.mp hd with rfl | hd
        · exact he
        · exact h.waiting d hd

theorem addKey_tree (s : State) (e : ℕ) (out : AddOut) : (addKey s e out).1.tree = s.tree := by
  unfold addKey
  simp only
  split
  · rfl
  split
  · rfl
  · split <;> rfl

theorem inv_addKeys (outs : ℕ → AddOut) : ∀ {num : ℕ} {s : State}, Inv N s → e ∈ s.tree →
    Inv N (addKeys e outs num s).1
  | 0, _, h, _ => h
  | num + 1, s, h, he => by
      have hstep := inv_addKey h he (outs num)
      have htree := addKey_tree s e (outs num)
      rw [addKeys]
      split
      · rename_i s' err hs
        rw [hs] at hstep
        exact hstep
      · rename_i s' hs
        rw [hs] at hstep htree
        exact inv_addKeys outs hstep (htree ▸ he)

/-- One creation in flight less. -/
theorem count_erase_pred {l : List ℕ} (hmem : e ∈ l) :
    (∀ d ≠ e, (l.erase e).count d = l.count d) ∧ (l.erase e).count e = l.count e - 1 ∧
      0 < l.count e :=
  ⟨fun _ hd => List.count_erase_of_ne hd, List.count_erase_self, List.count_pos_iff.mpr hmem⟩

theorem inv_callback (hN : 0 < N) (h : Inv N s) {status : CbStatus}
    (hen : Enabled s (.callback e status)) (hsound : Sound N s (.callback e status)) :
    Inv N (createMkeyCallback N s e status) := by
  obtain ⟨hmem, hfresh⟩ := hen
  have he := h.waiting e hmem
  have hb := h.bounded e he
  have hp := h.pending e he
  simp only [MAX_PENDING_REG_MR] at hb
  obtain ⟨hcount, hself, hpos⟩ := count_erase_pred hmem
  have hpred : toU 32 (((s.ents e).pending : ℤ) - 1) = (s.ents e).pending - 1 :=
    toU32_pred (by omega) (by omega)
  have hwait : ∀ d ∈ s.outstanding.erase e, d ∈ s.tree := fun d hd =>
    h.waiting d (List.mem_of_mem_erase hd)
  cases status with
  | fail =>
    refine h.update he (h.queue e he) (h.keys_at he) h.nodup h.few (h.inUse e he)
      (fun _ _ => rfl) ?_ hcount ?_ h.cached hwait
    · simp only
      omega
    · simp only [MAX_PENDING_REG_MR]
      omega
  | ok key pageOk =>
    obtain ⟨hnew, hroom⟩ := hfresh key pageOk rfl
    cases hpush : pushMkey N (s.ents e).queue key pageOk with
    | none =>
      obtain ⟨hneed, hno⟩ := pushMkey_none hpush
      have := hsound hneed
      rw [hno] at this
      cases this
    | some q =>
      obtain ⟨hq, hkeys⟩ := pushMkey_some hN (h.queue e he) hpush
      simp only [createMkeyCallback, hpush, Option.getD_some]
      refine h.update he ?_ ?_ (nodup_cons.mpr ⟨hnew, h.nodup⟩) ?_ ?_ (fun _ _ => rfl) ?_
        hcount ?_ h.cached hwait
      · rwa [queueAdjust_queue]
      · rw [queueAdjust_queue, hkeys, append_assoc]
        exact perm_middle.trans ((h.keys_at he).cons key)
      · rw [length_cons]
        omega
      · rw [queueAdjust_in_use]
        exact h.inUse e he
      · rw [queueAdjust_pending]
        simp only
        omega
      · rw [queueAdjust_pending]
        simp only [MAX_PENDING_REG_MR]
        omega

/-! ### Removal of mkeys -/

theorem inv_removeCacheMr (hN : 0 < N) (h : Inv N s) (he : e ∈ s.tree) :
    Inv N (removeCacheMr N s e true) := by
  unfold removeCacheMr
  simp only
  split
  · exact h
  · rename_i hci
    obtain ⟨hq, hkeys⟩ := popMkey_spec hN (h.queue e he) hci
    have hat := h.keys_at he
    rw [hkeys, append_assoc, List.singleton_append] at hat
    have hcons := perm_middle.symm.trans hat
    refine h.update he hq ?_ (h.nodup.erase _) ?_ (h.inUse e he) (fun _ _ => rfl) (h.pending e he)
      (fun _ _ => rfl) (h.bounded e he) h.cached h.waiting
    · simp only
      have herase := hcons.erase (popMkey N (s.ents e).queue).1
      rwa [List.erase_cons_head] at herase
    · exact (List.length_erase_le).trans h.few

theorem removeCacheMr_tree (s : State) (e : ℕ) (destroyOk : Bool) :
    (removeCacheMr N s e destroyOk).tree = s.tree := by
  unfold removeCacheMr
  simp only
  split <;> rfl

theorem inv_cleanLoop (hN : 0 < N) {destroyOk : ℕ → Bool} (hok : ∀ n, destroyOk n = true) :
    ∀ {n : ℕ} {s : State}, Inv N s → e ∈ s.tree →
      Inv N (cleanLoop N e destroyOk n s) ∧ e ∈ (cleanLoop N e destroyOk n s).tree
  | 0, _, h, he => ⟨h, he⟩
  | n + 1, s, h, he => by
      rw [cleanLoop, hok n]
      refine inv_cleanLoop hN hok (inv_removeCacheMr hN h he) ?_
      rwa [removeCacheMr_tree]

theorem inv_cleanKeys (hN : 0 < N) (h : Inv N s) (he : e ∈ s.tree) {destroyOk : ℕ → Bool}
    (hok : ∀ n, destroyOk n = true) : Inv N (cleanKeys N s e destroyOk) := by
  obtain ⟨hinv, he'⟩ := inv_cleanLoop hN hok (n := (s.ents e).queue.ci) h he
  exact hinv.touch he' rfl rfl rfl

theorem inv_resizeTurn (hN : 0 < N) (h : Inv N s) (he : e ∈ s.tree) (target : ℕ) (limitFill : Bool)
    (outs : ℕ → AddOut) : Inv N (resizeTurn N s e target limitFill outs true) := by
  unfold resizeTurn
  simp only
  generalize (if limitFill = true then toU 32 ((s.ents e).limit * 2 : ℕ) else target) = target'
  split
  · exact h
  split
  · exact inv_addKeys outs h he
  · exact inv_removeCacheMr hN h he

theorem inv_cacheWorkFunc (hN : 0 < N) (h : Inv N s) (he : e ∈ s.tree) (outs : ℕ → AddOut)
    (collect : Bool) : Inv N (cacheWorkFunc N s e outs collect true) := by
  unfold cacheWorkFunc
  simp only
  split
  · exact h
  split
  · exact inv_addKeys outs h he
  split
  · split
    · exact h
    · refine (inv_removeCacheMr hN h he).touch ?_ (queueAdjust_queue ..) (queueAdjust_pending ..)
        (queueAdjust_in_use ..)
      rwa [removeCacheMr_tree]
  · exact h

/-! ### Memory regions -/

theorem inUse_cons (m : Mr) (live : List Mr) (d : ℕ) :
    inUse (m :: live) d =
      inUse live d + if m.cacheEnt = some d ∧ m.taken = true then 1 else 0 := by
  simp only [inUse, List.countP_cons, Bool.and_eq_true, decide_eq_true_eq]

/-- An mkey enters the accounting together with an MR that holds it. -/
theorem Inv.hold (h : Inv N s) {m : Mr} (hm : m.cacheEnt = none) (hfresh : Fresh s m.key) :
    Inv N { s with live := m :: s.live, alive := m.key :: s.alive } := by
  obtain ⟨hnew, hroom⟩ := hfresh
  refine ⟨⟨?_, nodup_cons.mpr ⟨hnew, h.nodup⟩, fun d hd => ?_, h.pending⟩, h.tree, h.queue,
    ?_, h.bounded, ?_, h.waiting⟩
  · simp only
    exact perm_middle.trans (h.keys.cons m.key)
  · simp only [inUse_cons, hm]
    exact h.inUse d hd
  · simp only [length_cons]
    omega
  · intro m' hm' d hd
    rcases mem_cons.mp hm' with rfl | hm'
    · rw [hm] at hd
      cases hd
    · exact h.cached m' hm' d hd

theorem inv_regCreate (h : Inv N s) {create : Except Errno ℕ}
    (hfresh : ∀ key, create = .ok key → Fresh s key) (rbKey : RbKey) (cacheable isPeer : Bool) :
    Inv N (regCreate s create rbKey cacheable isPeer).1 := by
  unfold regCreate
  cases create with
  | error err => exact h
  | ok key => exact h.hold rfl (hfresh key rfl)

theorem inv_mrCacheAlloc (hN : 0 < N) (h : Inv N s) (he : e ∈ s.tree) {create : Except Errno ℕ}
    (hfresh : ∀ key, create = .ok key → Fresh s key) (mrAlloc isPeer : Bool) :
    Inv N (mrCacheAlloc N s e mrAlloc create isPeer).1 := by
  have hlt := h.in_use_lt he
  have hinc : toU 32 ((s.ents e).inUse + 1 : ℕ) = (s.ents e).inUse + 1 := toU_of_lt (by omega)
  have hother : ∀ key d, d ≠ e → inUse (⟨key, some e, true, (s.ents e).rbKey, isPeer, true⟩ ::
      s.live) d = inUse s.live d := by
    intro key d hd
    rw [inUse_cons, if_neg fun hc => hd (Option.some.inj hc.1).symm, Nat.add_zero]
  have hself : ∀ key, inUse (⟨key, some e, true, (s.ents e).rbKey, isPeer, true⟩ :: s.live) e =
      (s.ents e).inUse + 1 := by
    intro key
    rw [inUse_cons, if_pos ⟨rfl, rfl⟩, h.inUse e he]
  have hcached : ∀ key,
      ∀ m ∈ (⟨key, some e, true, (s.ents e).rbKey, isPeer, true⟩ : Mr) :: s.live,
        ∀ d, m.cacheEnt = some d → d ∈ s.tree ∧ m.taken = true := by
    intro key m hm d hd
    rcases mem_cons.mp hm with rfl | hm
    · cases hd
      exact ⟨he, rfl⟩
    · exact h.cached m hm d hd
  unfold mrCacheAlloc
  simp only
  split
  · exact h
  split
  · -- a miss: the mkey is created for the MR
    cases create with
    | error err =>
      refine h.touch he (queueAdjust_queue ..) (queueAdjust_pending ..) ?_
      simp only [queueAdjust_in_use, hinc]
      exact toU32_pred (by omega) (by omega)
    | ok key =>
      obtain ⟨hnew, hroom⟩ := hfresh key rfl
      refine h.update he ?_ ?_ (nodup_cons.mpr ⟨hnew, h.nodup⟩) ?_ ?_ (hother key) ?_
        (fun _ _ => rfl) ?_ (hcached key) h.waiting
      · rw [queueAdjust_queue]
        exact h.queue e he
      · simp only [queueAdjust_queue]
        rw [← append_assoc]
        refine perm_middle.trans (List.Perm.cons key ?_)
        rw [append_assoc]
        exact h.keys_at he
      · rw [length_cons]
        omega
      · simp only [queueAdjust_in_use, hinc, hself]
      · simp only [queueAdjust_pending]
        exact h.pending e he
      · simp only [queueAdjust_pending]
        exact h.bounded e he
  · -- a hit: the mkey moves from the queue to the MR
    rename_i hci
    obtain ⟨hq, hkeys⟩ := popMkey_spec hN (h.queue e he) hci
    refine h.update he ?_ ?_ h.nodup h.few ?_ (hother _) ?_ (fun _ _ => rfl) ?_ (hcached _)
      h.waiting
    · rw [queueAdjust_queue]
      exact hq
    · have hat := h.keys_at he
      rw [hkeys, append_assoc, List.singleton_append] at hat
      simp only [queueAdjust_queue]
      rw [← append_assoc]
      refine perm_middle.trans (List.Perm.trans ?_ hat)
      rw [append_assoc]
      exact perm_middle.symm
    · simp only [queueAdjust_in_use, hinc, hself]
    · simp only [queueAdjust_pending]
      exact h.pending e he
    · simp only [queueAdjust_pending]
      exact h.bounded e he

/-- The search only returns entries of the tree. -/
theorem searchTree_mem {ents : ℕ → Ent} {key : RbKey} : ∀ {tree : List ℕ} {smallest : Option ℕ},
    searchTree ents key tree smallest = some e → e ∈ tree ∨ smallest = some e
  | [], _, h => .inr h
  | d :: tree, smallest, h => by
      rw [searchTree] at h
      split at h
      · cases h
        exact .inl (mem_cons_self ..)
      split at h
      · rcases searchTree_mem h with hm | hm
        · exact .inl (mem_cons_of_mem _ hm)
        · cases hm
          exact .inl (mem_cons_self ..)
      · exact (searchTree_mem h).imp_left (mem_cons_of_mem _)

theorem mkeyCacheEntFromRbKey_mem {key : RbKey} (h : mkeyCacheEntFromRbKey s key = some e) :
    e ∈ s.tree := by
  rw [mkeyCacheEntFromRbKey] at h
  split at h
  · cases h
  · rename_i d hd
    have hmem := (searchTree_mem hd).resolve_right (Option.some_ne_none _).symm
    simp only at h
    split at h
    · cases h
      exact hmem
    split at h
    · cases h
      exact hmem
    · cases h

theorem findExact_mem {key : RbKey} (h : findExact s key = some e) : e ∈ s.tree := by
  rw [findExact] at h
  split at h
  · cases h
  · rename_i d hd
    split at h
    · cases h
      exact mkeyCacheEntFromRbKey_mem hd
    · cases h

/-! ### Revocation -/

/-- Only the set of existing mkeys matters, not their order. -/
theorem Inv.alive_perm (h : Inv N s) {alive : List ℕ} (hp : s.alive.Perm alive) :
    Inv N { s with alive := alive } :=
  ⟨⟨h.keys.trans hp, hp.nodup_iff.mp h.nodup, h.inUse, h.pending⟩, h.tree, h.queue,
    hp.length_eq ▸ h.few, h.bounded, h.cached, h.waiting⟩

/-- An mkey enters the accounting through the queue of an entry. -/
theorem Inv.store (hN : 0 < N) (h : Inv N s) (he : e ∈ s.tree) {key : ℕ} (hfresh : Fresh s key)
    {pageOk : Bool} {q : Queue} (hpush : pushMkey N (s.ents e).queue key pageOk = some q) :
    Inv N { s.setEnt e { s.ents e with queue := q } with alive := key :: s.alive } := by
  obtain ⟨hnew, hroom⟩ := hfresh
  obtain ⟨hq, hkeys⟩ := pushMkey_some hN (h.queue e he) hpush
  refine h.update he hq ?_ (nodup_cons.mpr ⟨hnew, h.nodup⟩) ?_ (h.inUse e he)
    (fun _ _ => rfl) (h.pending e he) (fun _ _ => rfl) (h.bounded e he) h.cached h.waiting
  · rw [hkeys, append_assoc]
    exact perm_middle.trans ((h.keys_at he).cons key)
  · rw [length_cons]
    omega

/-- The state without MR `mr` and its mkey. -/
def detach (s : State) (mr : Mr) : State :=
  { release s mr.cacheEnt with live := s.live.erase mr, alive := s.alive.erase mr.key }

theorem Inv.key_mem (h : Inv N s) {mr : Mr} (hmr : mr ∈ s.live) : mr.key ∈ s.alive :=
  h.keys.subset (List.mem_append_right _ (List.mem_map_of_mem hmr))

/-- An MR leaves the accounting together with its mkey, which may then enter it again. -/
theorem inv_detach (h : Inv N s) {mr : Mr} (hmr : mr ∈ s.live) :
    Inv N (detach s mr) ∧ Fresh (detach s mr) mr.key := by
  have hkey := h.key_mem hmr
  have hlive := perm_cons_erase hmr
  have hcount : ∀ d, inUse s.live d = inUse (s.live.erase mr) d +
      if mr.cacheEnt = some d ∧ mr.taken = true then 1 else 0 := fun d => by
    rw [← inUse_cons]
    exact hlive.countP_eq _
  have hfew : (s.alive.erase mr.key).length < 2 ^ 24 := by
    have := List.length_erase_add_one hkey
    have := h.few
    omega
  have hcached : ∀ m ∈ s.live.erase mr, ∀ d, m.cacheEnt = some d → d ∈ s.tree ∧ m.taken = true :=
    fun m hm => h.cached m (List.mem_of_mem_erase hm)
  -- both sides of the accounting lose the mkey
  have hkeys : ∀ l : List ℕ, (l ++ s.live.map Mr.key).Perm s.alive →
      (l ++ (s.live.erase mr).map Mr.key).Perm (s.alive.erase mr.key) := by
    intro l hl
    have hmap := ((hlive.map Mr.key).append_left l).symm.trans hl
    have herase := (perm_middle.symm.trans hmap).erase mr.key
    rwa [List.erase_cons_head] at herase
  refine ⟨?_, ?_⟩
  · rw [detach]
    cases hce : mr.cacheEnt with
    | none =>
      refine ⟨⟨hkeys _ h.keys, h.nodup.erase _, fun d hd => ?_, h.pending⟩, h.tree, h.queue,
        hfew.le, h.bounded, hcached, h.waiting⟩
      have hd' := hcount d
      rw [hce, if_neg fun hc => Option.noConfusion rfl (heq_of_eq hc.1), Nat.add_zero] at hd'
      exact (h.inUse d hd).trans hd'
    | some e =>
      obtain ⟨he, htaken⟩ := h.cached mr hmr e hce
      have hself := hcount e
      rw [if_pos ⟨hce, htaken⟩] at hself
      have hat := h.keys_at he
      rw [← append_assoc] at hat
      refine h.update he (h.queue e he) ?_ (h.nodup.erase _) hfew.le ?_ (fun d hd => ?_)
        (h.pending e he) (fun _ _ => rfl) (h.bounded e he) hcached h.waiting
      · rw [← append_assoc]
        exact hkeys _ hat
      · have hlt := h.in_use_lt he
        have hu := h.inUse e he
        rw [toU32_pred (by omega) (by omega), hu, hself, Nat.add_sub_cancel]
      · have hd' := hcount d
        rw [hce, if_neg fun hc => hd (Option.some.inj hc.1).symm, Nat.add_zero] at hd'
        exact hd'.symm
  · exact ⟨fun hmem => h.nodup.not_mem_erase hmem, hfew⟩

/-- A new entry, under a handle that no entry has. -/
theorem inv_newEnt (h : Inv N s) (he : e ∉ s.tree) (rbKey : RbKey) :
    Inv N { s.setEnt e (newEnt rbKey 0 false) with tree := e :: s.tree } := by
  have hsame : ∀ d ∈ s.tree, update s.ents e (newEnt rbKey 0 false) d = s.ents d := by
    intro d hd
    rw [update_of_ne]
    rintro rfl
    exact he hd
  have hfield : ∀ {P : ℕ → Ent → Prop}, P e (newEnt rbKey 0 false) →
      (∀ d ∈ s.tree, P d (s.ents d)) →
      ∀ d ∈ e :: s.tree, P d (update s.ents e (newEnt rbKey 0 false) d) := by
    intro P hP hother d hd
    rcases mem_cons.mp hd with rfl | hd
    · rwa [update_self]
    · rw [hsame d hd]
      exact hother d hd
  have hnone : inUse s.live e = 0 := by
    rw [inUse, List.countP_eq_zero]
    intro m hm hc
    simp only [Bool.and_eq_true, decide_eq_true_eq] at hc
    exact he (h.cached m hm e hc.1).1
  have hcount : s.outstanding.count e = 0 :=
    List.count_eq_zero_of_not_mem fun hmem => he (h.waiting e hmem)
  refine ⟨⟨?_, h.nodup, ?_, ?_⟩, nodup_cons.mpr ⟨he, h.tree⟩, ?_, h.few, ?_, ?_, ?_⟩
  · simp only [queued, State.setEnt, List.flatMap_cons, update_self]
    rw [List.flatMap_congr fun d hd => by rw [hsame d hd]]
    exact h.keys
  · exact hfield (P := fun d x => x.inUse = inUse s.live d) hnone.symm h.inUse
  · exact hfield (P := fun d x => x.pending = s.outstanding.count d) hcount.symm h.pending
  · refine hfield (P := fun _ x => QueueInv N x.queue) ⟨le_rfl, ?_, .inl rfl⟩ h.queue
    exact Nat.zero_le _
  · exact hfield (P := fun _ x => x.pending ≤ MAX_PENDING_REG_MR) (Nat.zero_le _) h.bounded
  · intro m hm d hd
    exact (h.cached m hm d hd).imp_left (mem_cons_of_mem _)
  · exact fun d hd => mem_cons_of_mem _ (h.waiting d hd)

/-- Scheduling a cleanup does not touch the accounting. -/
theorem inv_scheduleCleanup (h : Inv N s) (he : e ∈ s.tree) :
    Inv N (scheduleCleanup s (some e)) := by
  unfold scheduleCleanup
  simp only
  split
  · exact h.touch he rfl rfl rfl
  · exact h

/-- The fallback of `mlx5_revoke_mr`: the mkey is destroyed, or its MR stays registered without an
    entry. -/
theorem inv_revokeUncached (h : Inv N s) {old mr : Mr} {env : RevokeEnv} (hmr : old ∈ s.live)
    (hkey : mr.key = old.key)
    (hgone : (old.cacheEnt = none → mr.cacheEnt = none) ∨
      ((mr.isPeer = true → env.umrPeer = none) ∧ env.destroy = none)) :
    Inv N (revokeUncached s old.cacheEnt old mr env).1 := by
  obtain ⟨hdet, hfresh⟩ := inv_detach h hmr
  have hback := (perm_cons_erase (h.key_mem hmr)).symm
  have hsame : (release s old.cacheEnt).live = s.live ∧
      (release s old.cacheEnt).alive = s.alive := by
    cases old.cacheEnt with
    | none => exact ⟨rfl, rfl⟩
    | some e => exact ⟨rfl, rfl⟩
  -- the MR that stays registered names no entry
  have hkept : ∀ m : Mr, m.key = old.key → m.cacheEnt = none →
      Inv N { release s old.cacheEnt with live := m :: s.live.erase old, alive := s.alive } :=
    fun m hm hnone =>
      (hdet.hold (m := m) hnone (hm ▸ hfresh)).alive_perm (hm ▸ hback)
  have hdestroyed : Inv N { release s old.cacheEnt with
      live := s.live.erase old, alive := s.alive.erase old.key } := hdet
  unfold revokeUncached
  simp only [hsame.1, hsame.2]
  generalize hm : (if old.cacheEnt.isSome = true then { mr with cacheEnt := none } else mr) = m
  have hmKey : m.key = old.key := by
    rw [← hm]
    split <;> exact hkey
  have hmPeer : m.isPeer = mr.isPeer := by
    rw [← hm]
    split <;> rfl
  have hmNone : (old.cacheEnt = none → mr.cacheEnt = none) → m.cacheEnt = none := by
    intro hmr'
    rw [← hm]
    cases hce : old.cacheEnt with
    | none => exact hmr' hce
    | some e => rfl
  split
  · rename_i rc hrc
    rcases hgone with hnone | ⟨hpeer, -⟩
    · exact hkept m hmKey (hmNone hnone)
    · rw [hmPeer] at hrc
      split at hrc
      · rename_i hp
        rw [hpeer hp] at hrc
        cases hrc
      · cases hrc
  · split
    · rename_i rc hrc
      rcases hgone with hnone | ⟨-, hdestroy⟩
      · exact hkept m hmKey (hmNone hnone)
      · rw [hdestroy] at hrc
        cases hrc
    · rw [hmKey]
      exact hdestroyed

/-- The mkey of a revoked MR goes into the queue of entry `e`. -/
theorem inv_storeMkey (hN : 0 < N) (h : Inv N s) {mr : Mr} (hmr : mr ∈ s.live) {pageOk : Bool}
    {q : Queue} (he : e ∈ s.tree)
    (hpush : pushMkey N ((release s mr.cacheEnt).ents e).queue mr.key pageOk = some q) :
    Inv N { (release s mr.cacheEnt).setEnt e
        { (release s mr.cacheEnt).ents e with queue := q } with live := s.live.erase mr } := by
  obtain ⟨hdet, hfresh⟩ := inv_detach h hmr
  have hback := (perm_cons_erase (h.key_mem hmr)).symm
  have hstay : (detach s mr).tree = s.tree ∧ (release s mr.cacheEnt).alive = s.alive := by
    unfold detach
    cases mr.cacheEnt with
    | none => exact ⟨rfl, rfl⟩
    | some d => exact ⟨rfl, rfl⟩
  have hstored := (hdet.store hN (hstay.1 ▸ he) hfresh hpush).alive_perm hback
  rw [← hstay.2] at hstored
  exact hstored

/-- A new entry has room for its first mkey. -/
theorem pushMkey_newEnt (hN : 0 < N) (rbKey : RbKey) (key : ℕ) (pageOk : Bool) :
    ∃ q, pushMkey N (newEnt rbKey 0 false).queue key pageOk = some q := by
  have hroom : (newEnt rbKey 0 false).queue.needsPage N = false := by
    refine decide_eq_false ?_
    simp only [newEnt, emptyQueue]
    omega
  rw [pushMkey, hroom]
  exact ⟨_, rfl⟩

theorem inv_revokeMr (hN : 0 < N) (h : Inv N s) {mr : Mr} {env : RevokeEnv}
    (hen : Enabled s (.revoke mr env)) (hsound : Sound N s (.revoke mr env)) :
    Inv N (revokeMr N s mr env).1 := by
  obtain ⟨hmr, hnew⟩ := hen
  have hfallback : Inv N (revokeUncached s mr.cacheEnt mr mr env).1 :=
    inv_revokeUncached h hmr rfl (.inl id)
  unfold revokeMr
  split
  · rename_i hcache
    have hs := hsound hcache.1 hcache.2
    unfold cacheEntFindAndStore
    cases hce : mr.cacheEnt with
    | some e =>
      -- an MR taken from an entry goes back into it
      obtain ⟨he, -⟩ := h.cached mr hmr e hce
      simp only [storeMkey]
      cases hpush : pushMkey N ((release s (some e)).ents e).queue mr.key env.pageOk with
      | none =>
        obtain ⟨hneed, hno⟩ := pushMkey_none hpush
        have hbad := hs e (by simp only [storeTarget, hce])
          (by simpa [release, State.setEnt] using hneed) hno
        rw [hce] at hbad
        cases hbad.1
      | some q =>
        have hinv := inv_storeMkey hN h hmr he (by rw [hce]; exact hpush)
        rw [hce] at hinv
        simp only [hce]
        exact inv_scheduleCleanup hinv he
    | none =>
      cases hfind : findExact s mr.rbKey with
      | some e =>
        have he := findExact_mem hfind
        simp only
        split_ifs with hdis
        · rw [hce] at hfallback
          exact hfallback
        · simp only [storeMkey]
          cases hpush : pushMkey N (s.ents e).queue mr.key env.pageOk with
          | none =>
            -- the stale `cache_ent` is harmless: the mkey is destroyed
            obtain ⟨hneed, hno⟩ := pushMkey_none hpush
            have hgone := hs e (by simp only [storeTarget, hce, hfind, if_neg hdis]) hneed hno
            have hinv := @inv_revokeUncached _ _ h mr
              { mr with cacheEnt := some e, taken := false } env hmr rfl (.inr hgone.2)
            rw [hce] at hinv
            exact hinv
          | some q =>
            have hinv := inv_storeMkey hN h hmr he (by rw [hce]; exact hpush)
            rw [hce] at hinv
            exact inv_scheduleCleanup hinv he
      | none =>
        cases hcreate : createEntLocked s mr.rbKey env.newEnt with
        | error err =>
          rw [hce] at hfallback
          exact hfallback
        | ok p =>
          obtain ⟨s', e⟩ := p
          unfold createEntLocked at hcreate
          split at hcreate
          · cases hcreate
          · rename_i e' hne
            split at hcreate
            · cases hcreate
            · cases hcreate
              have hinv := inv_newEnt h (hnew e hne) mr.rbKey
              obtain ⟨q, hq⟩ := pushMkey_newEnt hN mr.rbKey mr.key env.pageOk
              have hpush : pushMkey N ((s.setEnt e (newEnt mr.rbKey 0 false)).ents e).queue mr.key
                  env.pageOk = some q := by
                simp only [State.setEnt, update_self]
                exact hq
              have hstored := inv_storeMkey (e := e) (q := q) hN hinv hmr (mem_cons_self ..)
                (by rw [hce]; exact hpush)
              rw [hce] at hstored
              simp only [storeMkey, hpush]
              exact inv_scheduleCleanup hstored (mem_cons_self ..)
  · exact hfallback

/-- STEP: every action keeps the accounting, unless a page or a firmware destroy fails where nothing
    takes care of it. -/
theorem inv_step (hN : 0 < N) (s : State) (a : Act) (hok : Enabled s a ∧ Sound N s a)
    (h : Inv N s) : Inv N (step N s a) := by
  obtain ⟨hen, hsound⟩ := hok
  cases a with
  | addKeys e num outs => exact inv_addKeys outs h hen
  | callback e status => exact inv_callback hN h hen hsound
  | resizeTurn e target limitFill outs destroyOk =>
    obtain rfl : destroyOk = true := hsound
    exact inv_resizeTurn hN h hen target limitFill outs
  | cacheWork e outs collect destroyOk =>
    obtain rfl : destroyOk = true := hsound
    exact inv_cacheWorkFunc hN h hen outs collect
  | cleanKeys e destroyOk => exact inv_cleanKeys hN h hen hsound
  | cacheAlloc e mrAlloc create isPeer => exact inv_mrCacheAlloc hN h hen.1 hen.2 mrAlloc isPeer
  | allocCacheable rbKey mrAlloc create isPeer =>
    simp only [step, allocCacheableMr]
    split
    · exact inv_regCreate h hen rbKey true isPeer
    · rename_i e he
      exact inv_mrCacheAlloc hN h (mkeyCacheEntFromRbKey_mem he) hen mrAlloc isPeer
  | regCreate create rbKey isPeer => exact inv_regCreate h hen rbKey false isPeer
  | revoke mr env => exact inv_revokeMr hN h hen hsound
  | setLimit e limit => exact h.touch hen rfl rfl rfl
  | disable e => exact h.touch hen rfl rfl rfl

end Entries

/-- The cache after `mlx5_mkey_cache_init`: `n` persistent entries, all empty. -/
def init (n : ℕ) (key : ℕ → RbKey) (limit : ℕ → ℕ) : State :=
  { ents := fun e => newEnt (key e) (limit e) true, tree := List.range n, live := [], alive := []
    outstanding := [], fillDelay := false }

theorem inv_init (N n : ℕ) (key : ℕ → RbKey) (limit : ℕ → ℕ) : Inv N (init n key limit) := by
  refine ⟨⟨?_, List.nodup_nil, fun _ _ => rfl, fun _ _ => rfl⟩, List.nodup_range, fun _ _ => ?_,
    Nat.zero_le _, fun _ _ => Nat.zero_le _, fun _ hm => absurd hm not_mem_nil,
    fun _ hm => absurd hm not_mem_nil⟩
  · have hnil : queued N (List.range n) (fun e => newEnt (key e) (limit e) true) = [] :=
      List.flatMap_eq_nil_iff.mpr fun _ _ => rfl
    simp only [init, hnil]
    exact List.Perm.refl _
  · exact ⟨le_rfl, Nat.zero_le _, .inl rfl⟩

/-- CORRECT: in every run in which no push that matters lacks its page and firmware destroys the
    mkeys it is told to destroy after a pop, every mkey that exists in firmware is in exactly one
    queue or held by exactly one MR, `in_use` counts the registered MRs taken from an entry and
    `pending` the creations in flight. -/
theorem mkey_cache_accounted {N n : ℕ} {key : ℕ → RbKey} {limit : ℕ → ℕ} {s : State} (hN : 0 < N)
    (h : Reach (step N) (fun s a => Enabled s a ∧ Sound N s a) (init n key limit) s) :
    Accounted N s :=
  (h.invariant (inv_init N n key limit) (inv_step hN)).toAccounted

/-! ### Runs -/

/-- `NUM_MKEYS_PER_PAGE`, for pages of 4096 bytes. -/
def NUM_MKEYS_PER_PAGE : ℕ := (4096 - 16) / 4

/-- A cache of one entry. -/
def oneEnt : State := init 1 (fun _ => ⟨0, 1, 0, 4⟩) fun _ => 0

/-- One mkey is created in the background and taken by an MR. -/
def takeOne : List Act :=
  [.addKeys 0 1 fun _ => .sent, .callback 0 (.ok 7 true), .cacheAlloc 0 true (.error .enomem) false]

theorem mkey_cache_accounted_run :
    ((takeOne.foldl (step NUM_MKEYS_PER_PAGE) oneEnt).ents 0).inUse = 1 ∧
      Accounted NUM_MKEYS_PER_PAGE (takeOne.foldl (step NUM_MKEYS_PER_PAGE) oneEnt) := by
  refine ⟨rfl, mkey_cache_accounted (by decide) (Reach.start.runs (l := takeOne) ?_)⟩
  refine ⟨⟨?_, trivial⟩, ⟨⟨?_, ?_⟩, fun _ => rfl⟩,
    ⟨⟨?_, fun key hkey => by cases hkey⟩, trivial⟩, trivial⟩
  · exact (by decide : 0 ∈ List.range 1)
  · decide
  · intro key pageOk hkey
    exact ⟨not_mem_nil, by decide⟩
  · decide

/-- The one entry holds `m` mkeys in one page, `c` mkeys were created, none is being created. -/
structure Filled (s : State) (m c : ℕ) (live : List Mr) (inUse : ℕ) : Prop where
  tree : s.tree = [0]
  ci : (s.ents 0).queue.ci = m
  numPages : (s.ents 0).queue.numPages = 1
  pending : (s.ents 0).pending = 0
  inUse : (s.ents 0).inUse = inUse
  outstanding : s.outstanding = []
  live : s.live = live
  length : s.alive.length = c
  alive : ∀ k ∈ s.alive, k < c

theorem addKeys_one {s : State} {e : ℕ} (h : (s.ents e).pending = 0) :
    (addKeys e (fun _ => .sent) 1 s).1 =
      { s.setEnt e { s.ents e with pending := 1 } with outstanding := e :: s.outstanding } := by
  simp only [addKeys, addKey, h]
  rfl

theorem pushMkey_room {N : ℕ} {q : Queue} {k : ℕ} {pageOk : Bool} (h : q.ci < q.numPages * N) :
    ∃ pages, pushMkey N q k pageOk = some ⟨q.numPages, q.ci + 1, pages⟩ := by
  refine ⟨_, if_neg ?_⟩
  simp only [Queue.needsPage, decide_eq_true_eq]
  omega

/-- One more mkey, created in the background. -/
def fillOne (c : ℕ) : List Act := [.addKeys 0 1 fun _ => .sent, .callback 0 (.ok c true)]

theorem Filled.fill {N m c u : ℕ} {s : State} {live : List Mr} (h : Filled s m c live u)
    (hm : m < N) : Filled ((fillOne c).foldl (step N) s) (m + 1) (c + 1) live u := by
  obtain ⟨pages, hpush⟩ := @pushMkey_room N (s.ents 0).queue c true
    (by rw [h.numPages, h.ci]; omega)
  have hzero : toU 32 (((1 : ℕ) : ℤ) - 1) = 0 := rfl
  simp only [fillOne, List.foldl_cons, Mlx5Mkey.step, addKeys_one h.pending,
    createMkeyCallback, State.setEnt, update_self, hpush, hzero]
  refine ⟨h.tree, ?_, ?_, ?_, ?_, ?_, h.live, ?_, ?_⟩
  · simp [h.ci]
  · simp [h.numPages]
  · simp
  · simp [h.inUse]
  · simp [h.outstanding]
  · simp [h.length]
  · intro k hk
    rcases mem_cons.mp hk with rfl | hk
    · exact Nat.lt_succ_self _
    · exact (h.alive k hk).trans (Nat.lt_succ_self _)

theorem Filled.fill_enabled {N m c u : ℕ} {s : State} {live : List Mr} (h : Filled s m c live u)
    (hc : c < 2 ^ 24) : Runs (step N) Enabled s (fillOne c) := by
  refine ⟨?_, ⟨?_, ?_⟩, trivial⟩
  · change 0 ∈ s.tree
    simp [h.tree]
  · simp only [Mlx5Mkey.step, addKeys_one h.pending, mem_cons, true_or]
  · intro key pageOk hkey
    cases hkey
    simp only [Mlx5Mkey.step, addKeys_one h.pending]
    exact ⟨fun hk => (h.alive c hk).false, h.length ▸ hc⟩

/-- The first page can be filled. -/
theorem exists_filled {N : ℕ} (hN : N < 2 ^ 24) (m : ℕ) (hm : m ≤ N) :
    ∃ s, Reach (step N) Enabled oneEnt s ∧ Filled s m m [] 0 := by
  induction m with
  | zero => exact ⟨oneEnt, .start, rfl, rfl, rfl, rfl, rfl, rfl, rfl, rfl, fun _ hk => by cases hk⟩
  | succ m ih =>
    obtain ⟨s, hreach, h⟩ := ih (by omega)
    exact ⟨_, hreach.runs (h.fill_enabled (by omega)), h.fill (by omega)⟩

/-- An allocation that hits. -/
def takeTop : Act := .cacheAlloc 0 true (.error .enomem) false

/-- An MR comes back, and no page is to be had. -/
def giveBack (mr : Mr) : Act := .revoke mr ⟨none, false, .error .enomem, none, none⟩

theorem Filled.take {N m c : ℕ} {s : State} (h : Filled s (m + 1) c [] 0) :
    ∃ key, Filled (step N s takeTop) m c
      [⟨key, some 0, true, (s.ents 0).rbKey, false, true⟩] 1 := by
  have hci : (s.ents 0).queue.ci ≠ 0 := by
    rw [h.ci]
    omega
  have hone : toU 32 ((0 + 1 : ℕ) : ℤ) = 1 := rfl
  refine ⟨(popMkey N (s.ents 0).queue).1, ?_⟩
  simp only [takeTop, Mlx5Mkey.step, mrCacheAlloc, if_neg hci, State.setEnt, h.inUse, hone]
  refine ⟨h.tree, ?_, ?_, ?_, ?_, h.outstanding, ?_, h.length, h.alive⟩
  · simp [popMkey, h.ci]
  · simp [popMkey, h.numPages]
  · simp [h.pending]
  · simp
  · simp [h.live]

/-- The page is full again when the MR comes back and there is no second page: the entry is released
    once before the push and once more after it. -/
theorem Filled.revoke {N c : ℕ} {s : State} {mr : Mr} (h : Filled s N c [mr] 1)
    (hcache : mr.cacheable = true) (hent : mr.cacheEnt = some 0) (hpeer : mr.isPeer = false) :
    (step N s (giveBack mr)).live = [] ∧ (step N s (giveBack mr)).tree = [0] ∧
      ((step N s (giveBack mr)).ents 0).inUse = 2 ^ 32 - 1 := by
  have hneed : (s.ents 0).queue.needsPage N = true := by
    refine decide_eq_true ?_
    rw [h.numPages, h.ci, one_mul]
  have hpush : pushMkey N (s.ents 0).queue mr.key false = none := by
    simp only [pushMkey, hneed]
    rfl
  have hzero : toU 32 (((1 : ℕ) : ℤ) - 1) = 0 := rfl
  have hwrap : toU 32 (((0 : ℕ) : ℤ) - 1) = 2 ^ 32 - 1 := rfl
  simp only [giveBack, Mlx5Mkey.step, revokeMr, hcache, and_self, if_true, cacheEntFindAndStore,
    hent, storeMkey, release, State.setEnt, update_self, hpush, revokeUncached,
    Option.isSome_some, hpeer, Bool.false_eq_true, if_false, h.live, h.inUse, h.tree, hzero, hwrap,
    List.erase_cons_head]

/-- An MR is taken from the full page, the page is filled again, and the MR comes back. -/
theorem mkey_cache_in_use_wraps :
    ∃ s, Reach (step NUM_MKEYS_PER_PAGE) Enabled oneEnt s ∧ s.live = [] ∧
      (s.ents 0).inUse = 2 ^ 32 - 1 ∧ ¬ Accounted NUM_MKEYS_PER_PAGE s := by
  obtain ⟨s, hreach, h⟩ := exists_filled (N := NUM_MKEYS_PER_PAGE) (by decide) _ le_rfl
  obtain ⟨key, h₁⟩ := Filled.take (N := NUM_MKEYS_PER_PAGE) (m := 1019) h
  have htake : Enabled s takeTop := ⟨h.tree ▸ mem_cons_self .., fun key hkey => by cases hkey⟩
  have hreach₂ := (hreach.next htake).runs (h₁.fill_enabled (by decide))
  have h₂ := h₁.fill (N := NUM_MKEYS_PER_PAGE) (by decide)
  have hgive : Enabled _ (giveBack ⟨key, some 0, true, (s.ents 0).rbKey, false, true⟩) :=
    ⟨h₂.live ▸ mem_cons_self .., fun e he => by cases he⟩
  obtain ⟨hlive, htree, huse⟩ := Filled.revoke (N := NUM_MKEYS_PER_PAGE) h₂ rfl rfl rfl
  refine ⟨_, hreach₂.next hgive, hlive, huse, fun hacc => ?_⟩
  have hcount := hacc.inUse 0 (htree ▸ mem_cons_self ..)
  rw [huse, hlive] at hcount
  cases hcount

end RdmaDriver.Mlx5Mkey
