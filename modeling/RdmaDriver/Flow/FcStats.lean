import RdmaDriver.Flow.FcPool
import RdmaDriver.Schemes.Meter
import RdmaDriver.Schemes.Run
import RdmaDriver.Schemes.SortedInsert

/-! @src drivers/net/ethernet/mellanox/mlx5/core/fs_counters.c | name:flow counter statistics |
    scheme:pool | family:deferred work

    A counter that ages is read by the work of the device. It goes to the work and away from it over
    lists that need no lock:

        create:  acquire -> idr -> addlist -> (work) counters
        destroy:                   dellist -> (work) counters -> release

    The work keeps the counters sorted, so that it can read many with one query. A user gets what
    was counted since the user was told last, from the cached reading. -/

namespace RdmaDriver.FcStats
open Schemes Function
open FcPool (Pool Fcs BulkEnv)
open List (count_pos_iff getElem_idxOf mem_cons mem_cons_of_mem mem_cons_self mem_erase_of_ne
  mem_of_mem_erase nodup_cons nodup_iff_count_le_one pairwise_cons)

/-- The counters are 64 bits wide. -/
def U64 : ℕ := 2 ^ 64

def MLX5_INIT_COUNTERS_BULK : ℕ := 8
def MLX5_SW_MAX_COUNTERS_BULK : ℕ := 2 ^ 15

/-- A `struct mlx5_fc`: one of its own, or one of a bulk. -/
inductive Ref where
  | single (n : ℕ)
  | pool (fc : Fcs)
  deriving DecidableEq

/-- What a counter counts. -/
structure Traffic where
  packets : ℕ
  bytes : ℕ
  deriving DecidableEq

/-- `struct mlx5_fc`, less its id and its lists. -/
structure Fc where
  aging : Bool
  lastpackets : ℕ
  lastbytes : ℕ
  cachePackets : ℕ
  cacheBytes : ℕ
  lastuse : ℕ
  deriving DecidableEq

/-- A zeroed `struct mlx5_fc`. -/
def Fc.zero : Fc := ⟨false, 0, 0, 0, 0, 0⟩

/-- Where the work is: it has taken the dellist; it inserts; it removes; it is about to query from
    the first of `rest`; it has the answer to a query, and updates the caches. -/
inductive Phase where
  | idle
  | took (del : List Ref)
  | add (add del : List Ref)
  | del (del : List Ref)
  | query (rest : List Ref) (lastId : ℕ)
  | update (rest : List Ref) (lastId bulkBaseId : ℕ) (bulkLen : ℤ) (data : ℕ → Traffic)

/-- `struct mlx5_fc_stats` and the counters. `id` has the ids of the counters, `creating` and
    `indexed` those whose creation is under way, `plain` those that do not age; `hw` is what the
    hardware has counted. Of the ghosts, `seen` says that the work knows a counter, `base` is what
    was counted when a user came and `given` what the user was told. -/
structure St where
  pool : Pool
  logMaxFlowCounterBulk : ℕ
  id : Ref → ℕ
  fc : Ref → Fc
  singles : List ℕ
  freshSingle : ℕ
  creating : List Ref
  indexed : List Ref
  plain : List Ref
  addlist : List Ref
  dellist : List Ref
  countersIdr : List Ref
  counters : List Ref
  phase : Phase
  bulkQueryLen : ℤ
  numCounters : ℤ
  hw : ℕ → Traffic
  seen : Ref → Bool
  base : Ref → Traffic
  given : Ref → Traffic

/-- What the allocators and the firmware do when a counter is acquired; `fcAlloc` is what
    `ALLOC_FLOW_COUNTER` gives. -/
structure AcqEnv where
  bulk : BulkEnv
  kzalloc : Bool
  fcAlloc : Option ℕ

/-- What a step of the work meets: the time, whether the next query is due, whether the query works,
    and whether there is memory for a longer one. -/
structure WorkEnv where
  now : ℕ
  due : Bool
  queryOk : Bool
  kzalloc : Bool

/-- `get_init_bulk_query_len`. -/
def getInitBulkQueryLen (s : St) : ℤ :=
  min MLX5_INIT_COUNTERS_BULK (2 ^ s.logMaxFlowCounterBulk : ℕ)

/-- `get_max_bulk_query_len`. -/
def getMaxBulkQueryLen (s : St) : ℤ :=
  min MLX5_SW_MAX_COUNTERS_BULK (2 ^ s.logMaxFlowCounterBulk : ℕ)

/-- `mlx5_fc_single_alloc`: the firmware gives a counter that has counted nothing. -/
def fcSingleAlloc (s : St) (e : AcqEnv) : St × Option Ref :=
  if e.kzalloc = false then (s, none)
  else
    match e.fcAlloc with
    | none => (s, none)
    | some i =>
      let r := Ref.single s.freshSingle
      ({ s with
          singles := s.freshSingle :: s.singles, freshSingle := s.freshSingle + 1,
          id := update s.id r i, fc := update s.fc r Fc.zero,
          hw := update s.hw i ⟨0, 0⟩ }, some r)

/-- A new bulk of the pool: its counters are zeroed and have the ids from `base` on. -/
def initBulk (s : St) (b base len : ℕ) : St :=
  { s with
    id := fun r => match r with
      | .pool fc => if fc.b = b then base + fc.i else s.id r
      | .single _ => s.id r
    fc := fun r => match r with
      | .pool fc => if fc.b = b then Fc.zero else s.fc r
      | .single _ => s.fc r
    hw := fun i => if base ≤ i ∧ i < base + len then ⟨0, 0⟩ else s.hw i }

/-- `mlx5_fc_pool_acquire_counter`, with the counters of a bulk that it makes. -/
def acquireFromPool (s : St) (e : BulkEnv) : St × Option Ref :=
  let (p, fc) := FcPool.poolAcquireCounter s.pool e
  let s' := { s with pool := p }
  let s' := if s.pool.fresh < p.fresh then
    initBulk s' s.pool.fresh (p.bulk s.pool.fresh).baseId (p.bulk s.pool.fresh).bulkLen else s'
  (s', fc.map .pool)

/-- `mlx5_fc_acquire`. -/
def fcAcquire (s : St) (aging : Bool) (e : AcqEnv) : St × Option Ref :=
  if aging = true ∧ s.pool.allocBitmask ≠ 0 then
    match acquireFromPool s e.bulk with
    | (s, some r) => (s, some r)
    | (s, none) => fcSingleAlloc s e
  else fcSingleAlloc s e

/-- `mlx5_fc_release`. -/
def fcRelease (s : St) (r : Ref) : St :=
  match r with
  | .pool fc => { s with pool := FcPool.poolReleaseCounter s.pool fc }
  | .single n => { s with singles := s.singles.erase n }

/-- A counter gets a user. -/
def handOut (s : St) (r : Ref) (fc : Fc) : St :=
  { s with
    fc := update s.fc r fc, seen := update s.seen r false,
    base := update s.base r (s.hw (s.id r)),
    given := update s.given r ⟨0, 0⟩ }

/-- `mlx5_fc_create_ex`, up to the idr: a counter that ages takes the cached reading as its
    baseline. -/
def fcCreate (s : St) (aging : Bool) (now : ℕ) (e : AcqEnv) : St :=
  match fcAcquire s aging e with
  | (s, none) => s
  | (s, some r) =>
    let c := s.fc r
    if aging then
      let s := handOut s r
        { c with
          aging := true, lastuse := now, lastbytes := c.cacheBytes,
          lastpackets := c.cachePackets }
      { s with creating := r :: s.creating }
    else
      let s := handOut s r { c with aging := false }
      { s with plain := r :: s.plain }

/-- `idr_alloc_u32` of a counter at its id, or the error path. -/
def idrAllocU32 (s : St) (r : Ref) (mem : Bool) : St :=
  let s := { s with creating := s.creating.erase r }
  if mem = false ∨ ∃ x ∈ s.countersIdr, s.id x = s.id r then fcRelease s r
  else { s with countersIdr := insertByKey s.id r s.countersIdr, indexed := r :: s.indexed }

/-- `llist_add` to the addlist: the creation returns. -/
def llistAdd (s : St) (r : Ref) : St :=
  { s with indexed := s.indexed.erase r, addlist := r :: s.addlist }

/-- `mlx5_fc_destroy`. -/
def fcDestroy (s : St) (r : Ref) : St :=
  if (s.fc r).aging then { s with dellist := r :: s.dellist }
  else fcRelease { s with plain := s.plain.erase r } r

/-- `mlx5_fc_query_cached`: the answer, and the counter. -/
def fcQueryCached (c : Fc) : Traffic × ℕ × Fc :=
  (⟨(c.cachePackets + U64 - c.lastpackets) % U64, (c.cacheBytes + U64 - c.lastbytes) % U64⟩,
    c.lastuse, { c with lastbytes := c.cacheBytes, lastpackets := c.cachePackets })

/-- A user is told what was counted. -/
def queryCached (s : St) (r : Ref) : St :=
  let (t, _, c) := fcQueryCached (s.fc r)
  let g := s.given r
  { s with
    fc := update s.fc r c
    given := update s.given r ⟨g.packets + t.packets, g.bytes + t.bytes⟩ }

/-- `mlx5_fc_counters_lookup_next`: counters in the idr but not yet in the list are skipped. -/
def fcCountersLookupNext (s : St) (i : ℕ) : Option Ref :=
  s.countersIdr.find? fun r => i < s.id r ∧ r ∈ s.counters

/-- `list_add_tail` in front of an element, or of the head. -/
def listAddBefore (l : List Ref) (next : Option Ref) (r : Ref) : List Ref :=
  match next with
  | none => l ++ [r]
  | some x => (l.takeWhile fun y => y ≠ x) ++ r :: l.dropWhile fun y => y ≠ x

/-- `mlx5_fc_stats_insert`. -/
def fcStatsInsert (s : St) (r : Ref) : St :=
  { s with counters := listAddBefore s.counters (fcCountersLookupNext s (s.id r)) r }

/-- `mlx5_fc_stats_remove`. -/
def fcStatsRemove (s : St) (r : Ref) : St :=
  { s with counters := s.counters.erase r, countersIdr := s.countersIdr.erase r }

/-- `mlx5_fc_stats_bulk_query_size_increase`, where the work calls it. -/
def bulkQuerySizeIncrease (s : St) (e : WorkEnv) : St :=
  if s.bulkQueryLen < getMaxBulkQueryLen s ∧ s.numCounters > getInitBulkQueryLen s ∧ e.kzalloc then
    { s with bulkQueryLen := getMaxBulkQueryLen s }
  else s

/-- `update_counter_cache`. -/
def updateCounterCache (c : Fc) (t : Traffic) (now : ℕ) : Fc :=
  if c.cachePackets = t.packets % U64 then c
  else { c with
    cachePackets := t.packets % U64, cacheBytes := t.bytes % U64, lastuse := now }

/-- A `u32` read as an `int`. -/
def toInt32 (n : ℕ) : ℤ :=
  if n % 2 ^ 32 < 2 ^ 31 then (n % 2 ^ 32 : ℕ) else (n % 2 ^ 32 : ℕ) - 2 ^ 32

/-- The length of a query from `bulkBaseId` on: up to `lastId`, in fours. -/
def bulkLenFor (s : St) (lastId bulkBaseId : ℕ) : ℤ :=
  min s.bulkQueryLen (toInt32 ((lastId - bulkBaseId + 1 + 3) / 4 * 4))

/-- One step of `mlx5_fc_stats_work`. -/
def fcStatsWork (s : St) (e : WorkEnv) : St :=
  match s.phase with
  | .idle => { s with phase := .took s.dellist, dellist := [] }
  | .took del => { s with phase := .add s.addlist del, addlist := [] }
  | .add (r :: add) del =>
    let s := fcStatsInsert s r
    { s with
      phase := .add add del, numCounters := s.numCounters + 1,
      seen := update s.seen r true }
  | .add [] del => { s with phase := .del del }
  | .del (r :: del) =>
    let s := fcRelease (fcStatsRemove s r) r
    { s with phase := .del del, numCounters := s.numCounters - 1 }
  | .del [] =>
    let s := bulkQuerySizeIncrease s e
    match s.counters with
    | [] => { s with phase := .idle }
    | first :: rest =>
      let lastId := s.id ((first :: rest).getLast (by simp))
      if e.due = true ∧ s.id first ≤ lastId then { s with phase := .query (first :: rest) lastId }
      else { s with phase := .idle }
  | .query [] _ => { s with phase := .idle }
  | .query (r :: rest) lastId =>
    let bulkBaseId := s.id r / 4 * 4
    let bulkLen := bulkLenFor s lastId bulkBaseId
    if e.queryOk = true ∧ 0 < bulkLen then
      { s with
        phase := .update (r :: rest) lastId bulkBaseId bulkLen fun j => s.hw (bulkBaseId + j) }
    else { s with phase := .idle }
  | .update [] _ _ _ _ => { s with phase := .idle }
  | .update (r :: rest) lastId bulkBaseId bulkLen data =>
    if (s.id r : ℤ) ≥ (bulkBaseId + bulkLen) % 2 ^ 32 then
      { s with phase := .query (r :: rest) lastId }
    else
      { s with
        phase := .update rest lastId bulkBaseId bulkLen data
        fc := update s.fc r
          (updateCounterCache (s.fc r) (data (s.id r - bulkBaseId)) e.now) }

/-- The hardware counts. -/
def traffic (s : St) (i : ℕ) (t : Traffic) : St :=
  let h := s.hw i
  { s with hw := update s.hw i ⟨h.packets + t.packets, h.bytes + t.bytes⟩ }

/-- What happens: a counter is asked for, its creation goes on, its user destroys it or asks what
    was counted, the work does a step, the hardware counts. -/
inductive Op where
  | create (aging : Bool) (now : ℕ) (e : AcqEnv)
  | idr (r : Ref) (mem : Bool)
  | add (r : Ref)
  | destroy (r : Ref)
  | query (r : Ref)
  | work (e : WorkEnv)
  | traffic (i : ℕ) (t : Traffic)

def step (s : St) : Op → St
  | .create aging now e => fcCreate s aging now e
  | .idr r mem => idrAllocU32 s r mem
  | .add r => llistAdd s r
  | .destroy r => fcDestroy s r
  | .query r => queryCached s r
  | .work e => fcStatsWork s e
  | .traffic i t => traffic s i t

/-- The counters that the work is about to insert. -/
def Phase.adding : Phase → List Ref
  | .add l _ => l
  | _ => []

/-- The counters that the work is about to remove. -/
def Phase.deleting : Phase → List Ref
  | .took l => l
  | .add _ l => l
  | .del l => l
  | _ => []

/-- The counters that have been acquired and not released. -/
def St.held (s : St) : List Ref :=
  s.creating ++ s.indexed ++ s.plain ++ s.addlist ++ s.phase.adding ++ s.counters

/-- The counters that users may use. -/
def St.users (s : St) : List Ref :=
  (s.plain ++ s.addlist ++ s.phase.adding ++ s.counters).filter fun r =>
    r ∉ s.dellist ++ s.phase.deleting

/-- The counters that the driver has from the firmware. -/
def St.allocated (s : St) : List Ref :=
  (s.singles.map Ref.single) ++
    s.pool.bulks.flatMap fun b => (List.range (s.pool.bulk b).bulkLen).map fun i => .pool ⟨b, i⟩

/-- The counter is in use for its allocator. -/
def St.inUse (s : St) : Ref → Prop
  | .single n => n ∈ s.singles
  | .pool fc => s.pool.inUse fc

/-- The firmware gives counters that the driver does not have; users use a counter until they
    destroy it. -/
def ok (s : St) : Op → Prop
  | .create _ _ e =>
    (∀ base ∈ e.bulk.base, ∀ r ∈ s.allocated,
      s.id r < base ∨ base + FcPool.bulkLenOf s.pool.allocBitmask ≤ s.id r) ∧
    ∀ i ∈ e.fcAlloc, ∀ r ∈ s.allocated, s.id r ≠ i
  | .idr r _ => r ∈ s.creating
  | .add r => r ∈ s.indexed
  | .destroy r => r ∈ s.users
  | .query r => r ∈ s.users
  | .work _ => True
  | .traffic _ _ => True

/-- Where a counter of a bulk gets another user, its cached reading is what the hardware has
    counted. -/
def clean (s : St) : Op → Prop
  | .create aging _ _ => aging = true → s.pool.allocBitmask ≠ 0 → ∀ fc ∈ FcPool.nextFc s.pool,
      (s.fc (.pool fc)).cachePackets = (s.hw (s.id (.pool fc))).packets % U64 ∧
        (s.fc (.pool fc)).cacheBytes = (s.hw (s.id (.pool fc))).bytes % U64
  | _ => True

/-- `mlx5_init_fc_stats`. -/
structure Start (s : St) : Prop where
  singles : s.singles = []
  creating : s.creating = []
  indexed : s.indexed = []
  plain : s.plain = []
  addlist : s.addlist = []
  dellist : s.dellist = []
  countersIdr : s.countersIdr = []
  counters : s.counters = []
  phase : s.phase = .idle
  lists : ∀ k, s.pool.list k = []
  freed : s.pool.freed = []
  availableFcs : s.pool.availableFcs = 0
  usedFcs : s.pool.usedFcs = 0
  threshold : s.pool.threshold = 0

/-- The counters that the work does not know yet. -/
def St.unseen (s : St) : List Ref :=
  s.creating ++ s.indexed ++ s.plain ++ s.addlist ++ s.phase.adding

/-- The counters of the idr. -/
def St.known (s : St) : List Ref := s.indexed ++ s.addlist ++ s.phase.adding ++ s.counters

/-- A counter's readings are what the hardware counted, up to `top`. -/
def Metered (s : St) (r : Ref) (top : Traffic) : Prop :=
  Meter U64 (s.base r).packets top.packets (s.given r).packets (s.fc r).cachePackets
    (s.fc r).lastpackets ∧
  Meter U64 (s.base r).bytes top.bytes (s.given r).bytes (s.fc r).cacheBytes (s.fc r).lastbytes

/-- The work walks over a part of the list, and its answer is not older than the caches. -/
def Walks (s : St) : Phase → Prop
  | .query rest _ => rest <:+ s.counters
  | .update rest _ bulkBaseId _ data => rest <:+ s.counters ∧ ∀ r ∈ rest, bulkBaseId ≤ s.id r ∧
      Metered s r (data (s.id r - bulkBaseId)) ∧
      (data (s.id r - bulkBaseId)).packets ≤ (s.hw (s.id r)).packets ∧
      (data (s.id r - bulkBaseId)).bytes ≤ (s.hw (s.id r)).bytes
  | _ => True

/-- Where the counters to remove are: nothing is removed before it is inserted. -/
def Dies (s : St) : Phase → Prop
  | .took del => ∀ r ∈ del, r ∈ s.addlist ∨ r ∈ s.counters
  | .add add del => ∀ r ∈ del, r ∈ add ∨ r ∈ s.counters
  | .del del => ∀ r ∈ del, r ∈ s.counters
  | _ => True

/-- What the driver has from the firmware has different ids. -/
structure Alloc (s : St) : Prop where
  pool : FcPool.Inv s.pool
  single : s.singles.Nodup ∧ ∀ n ∈ s.singles, n < s.freshSingle
  inj : ∀ r ∈ s.allocated, ∀ x ∈ s.allocated, s.id r = s.id x → r = x

/-- The lists of the counters: each is in one place, and the work's list is sorted. -/
structure Lists (s : St) : Prop where
  nodup : s.held.Nodup
  idr : ∀ r, r ∈ s.countersIdr ↔ r ∈ s.known
  idrSorted : s.countersIdr.Pairwise fun x y => s.id x < s.id y
  sorted : s.counters.Pairwise fun x y => s.id x < s.id y
  unseen : ∀ r ∈ s.unseen, s.seen r = false
  seen : ∀ r ∈ s.counters, s.seen r = true
  aging : ∀ r ∈ s.held, ((s.fc r).aging = false ↔ r ∈ s.plain)
  dying : (s.dellist ++ s.phase.deleting).Nodup
  listed : ∀ r ∈ s.dellist, r ∈ s.addlist ∨ r ∈ s.phase.adding ∨ r ∈ s.counters
  dies : Dies s s.phase

structure Inv (s : St) : Prop where
  alloc : Alloc s
  lists : Lists s
  held : ∀ r, r ∈ s.held ↔ s.inUse r

section Basic
variable {s s' : St} {r x : Ref}

theorem mem_held : r ∈ s.held ↔ r ∈ s.creating ∨ r ∈ s.indexed ∨ r ∈ s.plain ∨ r ∈ s.addlist ∨
    r ∈ s.phase.adding ∨ r ∈ s.counters := by
  simp [St.held]

theorem mem_unseen : r ∈ s.unseen ↔ r ∈ s.creating ∨ r ∈ s.indexed ∨ r ∈ s.plain ∨
    r ∈ s.addlist ∨ r ∈ s.phase.adding := by
  simp [St.unseen]

theorem mem_known : r ∈ s.known ↔ r ∈ s.indexed ∨ r ∈ s.addlist ∨ r ∈ s.phase.adding ∨
    r ∈ s.counters := by
  simp [St.known]

theorem mem_users : r ∈ s.users ↔ (r ∈ s.plain ∨ r ∈ s.addlist ∨ r ∈ s.phase.adding ∨
    r ∈ s.counters) ∧ r ∉ s.dellist ∧ r ∉ s.phase.deleting := by
  unfold St.users
  rw [List.mem_filter]
  simp

theorem mem_allocated : r ∈ s.allocated ↔ match r with
    | .single n => n ∈ s.singles
    | .pool fc => fc.b ∈ s.pool.bulks ∧ fc.i < (s.pool.bulk fc.b).bulkLen := by
  unfold St.allocated
  cases r with
  | single n => simp
  | pool fc =>
    obtain ⟨b, i⟩ := fc
    simp

theorem allocated_of_inUse (h : s.inUse r) : r ∈ s.allocated := by
  rw [mem_allocated]
  cases r with
  | single n => exact h
  | pool fc => exact ⟨h.1, h.2.1⟩

/-- How often a counter is in its lists. -/
theorem count_held : s.held.count x = s.creating.count x + s.indexed.count x + s.plain.count x +
    s.addlist.count x + s.phase.adding.count x + s.counters.count x := by
  simp only [St.held, List.count_append]

theorem count_cons_add {l : List Ref} : (r :: l).count x = l.count x + [r].count x := by
  rw [List.count_cons, List.count_singleton]

theorem count_erase_add {l : List Ref} (h : r ∈ l) :
    (l.erase r).count x + [r].count x = l.count x := by
  have hp := (List.perm_cons_erase h).count_eq x
  have hc := count_cons_add (r := r) (x := x) (l := l.erase r)
  omega

theorem held_of_user (h : r ∈ s.users) : r ∈ s.held := by
  rw [mem_held]
  have := (mem_users.mp h).1
  tauto

end Basic

section Acquire
variable {s s' : St} {r x : Ref}

/-- A counter is acquired: it was free, and the ones in use do not notice. It is zeroed and has
    counted nothing, or it is the next one of a bulk, as its last user left it. -/
structure Acquired (s s' : St) (r : Ref) : Prop where
  same : s' = { s with
    pool := s'.pool, id := s'.id, fc := s'.fc, singles := s'.singles,
    freshSingle := s'.freshSingle, hw := s'.hw }
  out : ¬s.inUse r
  inUse : ∀ x, s'.inUse x ↔ x = r ∨ s.inUse x
  id : ∀ x ∈ s.allocated, s'.id x = s.id x
  fc : ∀ x, x ≠ r → s.inUse x → s'.fc x = s.fc x
  hw : ∀ x ∈ s.allocated, s'.hw (s.id x) = s.hw (s.id x)
  alloc : Alloc s'
  unused : ∀ b ∈ s'.pool.list .unused, b ∈ s.pool.list .unused
  fresh : (s'.fc r = Fc.zero ∧ s'.hw (s'.id r) = ⟨0, 0⟩) ∨
    s.pool.allocBitmask ≠ 0 ∧ s'.fc = s.fc ∧ s'.id = s.id ∧ s'.hw = s.hw ∧
      ∃ fc ∈ FcPool.nextFc s.pool, r = .pool fc

/-- STEP: a counter of its own. -/
theorem fcSingleAlloc_spec (ha : Alloc s) {e : AcqEnv}
    (hfw : ∀ i ∈ e.fcAlloc, ∀ x ∈ s.allocated, s.id x ≠ i) :
    (fcSingleAlloc s e = (s, none)) ∨
      ∃ s' r, fcSingleAlloc s e = (s', some r) ∧ Acquired s s' r := by
  unfold fcSingleAlloc
  split_ifs with hk
  · exact .inl rfl
  · cases hi : e.fcAlloc with
    | none => exact .inl rfl
    | some i =>
      refine .inr ⟨_, _, rfl, ?_⟩
      have hfw := hfw i hi
      have hout : s.freshSingle ∉ s.singles := fun h => (ha.single.2 _ h).ne rfl
      have hne : ∀ x ∈ s.allocated, x ≠ .single s.freshSingle := by
        rintro x hx rfl
        exact hout (mem_allocated.mp hx)
      have hold : ∀ x ∈ s.allocated, update s.id (.single s.freshSingle) i x = s.id x := fun x hx =>
        update_of_ne (hne x hx) ..
      refine ⟨rfl, hout, fun x => ?_, hold, fun x hx _ => update_of_ne hx ..,
        fun x hx => update_of_ne (hfw x hx) .., ⟨ha.pool, ⟨?_, ?_⟩, ?_⟩, fun _ h => h,
        .inl ⟨update_self .., ?_⟩⟩
      · cases x with
        | single n => simp [St.inUse]
        | pool fc => simp [St.inUse]
      · exact nodup_cons.mpr ⟨hout, ha.single.1⟩
      · intro n hn
        rcases mem_cons.mp hn with rfl | hn
        · exact Nat.lt_succ_self _
        · exact Nat.lt_succ_of_lt (ha.single.2 n hn)
      · have hnew : ∀ x, x ∈ St.allocated { s with
            singles := s.freshSingle :: s.singles, freshSingle := s.freshSingle + 1,
            id := update s.id (.single s.freshSingle) i,
            fc := update s.fc (.single s.freshSingle) Fc.zero,
            hw := update s.hw i ⟨0, 0⟩ } → x = .single s.freshSingle ∨ x ∈ s.allocated := by
          intro x hx
          rw [mem_allocated] at hx
          rw [mem_allocated]
          cases x with
          | single n =>
            rcases mem_cons.mp hx with rfl | hx
            · exact .inl rfl
            · exact .inr hx
          | pool fc => exact .inr hx
        intro y hy x hx he
        simp only at he
        rcases hnew y hy with rfl | hy
        · rcases hnew x hx with rfl | hx
          · rfl
          · rw [update_self, hold x hx] at he
            exact absurd he.symm (hfw x hx)
        · rcases hnew x hx with rfl | hx
          · rw [update_self, hold y hy] at he
            exact absurd he (hfw y hy)
          · rw [hold y hy, hold x hx] at he
            exact ha.inj y hy x hx he
      · simp only [update_self]

/-- STEP: a counter of the pool; a failed attempt changes the threshold only. -/
theorem acquireFromPool_spec (ha : Alloc s) (hm : s.pool.allocBitmask ≠ 0) {e : BulkEnv}
    (hfw : ∀ base ∈ e.base, ∀ x ∈ s.allocated,
      s.id x < base ∨ base + FcPool.bulkLenOf s.pool.allocBitmask ≤ s.id x) :
    acquireFromPool s e = ({ s with pool := FcPool.poolUpdateThreshold s.pool }, none) ∨
      ∃ s' r, acquireFromPool s e = (s', some r) ∧ Acquired s s' r := by
  rcases FcPool.poolAcquireCounter_spec ha.pool (Nat.pos_of_ne_zero hm) e with
    ⟨fc, p, hnext, hacq, hb, hi, hfree, m, hinv⟩ | ⟨base, i, p, -, hbase, hacq, hi, m, hinv⟩ |
    ⟨-, hacq⟩
  · -- a counter of a bulk that there was
    have hout : ¬s.pool.inUse fc := fun h => by
      have hu := h.2.2
      rw [hfree] at hu
      cases hu
    have hall : ∀ x, x ∈ St.allocated { s with pool := p } ↔ x ∈ s.allocated := by
      intro x
      rw [mem_allocated, mem_allocated]
      cases x with
      | single n => exact Iff.rfl
      | pool fc' =>
        simp only [m.mem_bulks hb, m.bulk, FcPool.setBit_bulkLen]
    refine .inr ⟨{ s with pool := p }, .pool fc, ?_, rfl, hout, fun x => ?_, fun _ _ => rfl,
      fun _ _ _ => rfl, fun _ _ => rfl, ⟨hinv, ha.single, fun y hy x hx he => ?_⟩,
      fun b hb' => ?_, .inr ⟨hm, rfl, rfl, rfl, fc, hnext, rfl⟩⟩
    · unfold acquireFromPool
      rw [hacq]
      simp only [m.fresh, lt_irrefl, if_false, Option.map_some]
    · cases x with
      | single n => simp [St.inUse]
      | pool fc' =>
        refine (m.inUse hb hi).trans ?_
        rcases eq_or_ne fc' fc with rfl | hne
        · simp
        · simp [hne, St.inUse]
    · exact ha.inj y ((hall y).mp hy) x ((hall x).mp hx) he
    · rcases eq_or_ne b fc.b with rfl | hne
      · have hfull := (hinv.mem_list ((m.mem_bulks hb).mpr hb)).mp hb'
        have hnone := FcPool.freeFcsAmount_eq_len.mp (FcPool.listFor_unused.mp hfull.symm).2 fc.i
          (by rw [m.bulk, FcPool.setBit_bulkLen]; exact hi)
        rw [m.bulk, FcPool.setBit_free, if_pos ⟨rfl, rfl⟩] at hnone
        cases hnone
      · have hmem := (m.mem .unused b).mp hb'
        rwa [if_neg hne] at hmem
  · -- a counter of a new bulk
    have hfw := hfw base hbase
    have hmem : s.pool.fresh ∈ (s.pool.grow base).bulks := FcPool.mem_grow_bulks.mpr (.inl rfl)
    have hout : ∀ j, ¬s.pool.inUse ⟨s.pool.fresh, j⟩ := fun j h =>
      (ha.pool.fresh _ h.1).ne rfl
    have hb : (p.bulk s.pool.fresh).baseId = base := by
      rw [m.bulk, FcPool.setBit_baseId, FcPool.grow_bulk_self]
    have hl : (p.bulk s.pool.fresh).bulkLen = FcPool.bulkLenOf s.pool.allocBitmask := by
      rw [m.bulk, FcPool.setBit_bulkLen, FcPool.grow_bulk_self]
    have hi' : i < FcPool.bulkLenOf s.pool.allocBitmask := by
      rwa [FcPool.grow_bulk_self] at hi
    set s' := initBulk { s with pool := p } s.pool.fresh base
      (FcPool.bulkLenOf s.pool.allocBitmask) with hs'
    have hnew : ∀ x, x ∈ s'.allocated ↔ x ∈ s.allocated ∨
        ∃ j < FcPool.bulkLenOf s.pool.allocBitmask, x = .pool ⟨s.pool.fresh, j⟩ := by
      intro x
      rw [mem_allocated, mem_allocated]
      cases x with
      | single n => simp [hs', initBulk]
      | pool fc =>
        obtain ⟨b, j⟩ := fc
        change b ∈ p.bulks ∧ j < (p.bulk b).bulkLen ↔ _
        rw [m.mem_bulks hmem, FcPool.mem_grow_bulks]
        rcases eq_or_ne b s.pool.fresh with rfl | hne
        · rw [hl]
          have hnot : s.pool.fresh ∉ s.pool.bulks := fun h => (ha.pool.fresh _ h).ne rfl
          simp [hnot]
        · rw [m.bulk, FcPool.setBit_bulkLen, FcPool.grow_bulk_of_ne hne]
          simp [hne]
    have hne : ∀ x ∈ s.allocated, ∀ j, x ≠ .pool ⟨s.pool.fresh, j⟩ := by
      rintro x hx j rfl
      exact (ha.pool.fresh _ (mem_allocated.mp hx).1).ne rfl
    have hold : ∀ x ∈ s.allocated, s'.id x = s.id x ∧ s'.fc x = s.fc x := by
      intro x hx
      cases x with
      | single n => exact ⟨rfl, rfl⟩
      | pool fc =>
        have hb : fc.b ≠ s.pool.fresh := fun h => hne _ hx fc.i (by rw [← h])
        exact ⟨if_neg hb, if_neg hb⟩
    have hself : ∀ j, s'.id (.pool ⟨s.pool.fresh, j⟩) = base + j := fun j => if_pos rfl
    refine .inr ⟨s', .pool ⟨s.pool.fresh, i⟩, ?_, rfl, hout i, fun x => ?_,
      fun x hx => (hold x hx).1, fun x _ hx => (hold x (allocated_of_inUse hx)).2,
      fun x hx => if_neg fun h => ?_, ⟨hinv, ha.single, fun y hy x hx he => ?_⟩,
      fun b hb' => ?_, .inl ⟨if_pos rfl, ?_⟩⟩
    · have hlt : s.pool.fresh < p.fresh := by
        rw [m.fresh]
        exact Nat.lt_succ_self _
      unfold acquireFromPool
      rw [hacq]
      simp only [if_pos hlt, hb, hl]
      rfl
    · cases x with
      | single n => simp [St.inUse, hs', initBulk]
      | pool fc =>
        change p.inUse fc ↔ _
        rw [m.inUse hmem hi]
        rcases eq_or_ne fc ⟨s.pool.fresh, i⟩ with rfl | hfc
        · simp
        · rw [if_neg hfc, FcPool.grow_inUse ha.pool]
          simp [hfc, St.inUse]
    · have hx := hfw x hx
      omega
    · rcases (hnew y).mp hy with hy | ⟨j, hj, rfl⟩
      · rcases (hnew x).mp hx with hx | ⟨k, hk, rfl⟩
        · rw [(hold y hy).1, (hold x hx).1] at he
          exact ha.inj y hy x hx he
        · rw [(hold y hy).1, hself] at he
          have hy := hfw y hy
          omega
      · rcases (hnew x).mp hx with hx | ⟨k, hk, rfl⟩
        · rw [(hold x hx).1, hself] at he
          have hx := hfw x hx
          omega
        · rw [hself, hself] at he
          obtain rfl : j = k := by omega
          rfl
    · rcases eq_or_ne b s.pool.fresh with rfl | hbne
      · have hfull := (hinv.mem_list ((m.mem_bulks hmem).mpr hmem)).mp hb'
        have hnone := FcPool.freeFcsAmount_eq_len.mp (FcPool.listFor_unused.mp hfull.symm).2 i
          (by rw [hl]; exact hi')
        rw [m.bulk, FcPool.setBit_free, if_pos ⟨rfl, rfl⟩] at hnone
        cases hnone
      · have hin := (m.mem .unused b).mp hb'
        rw [if_neg hbne, FcPool.grow_list_unused] at hin
        exact (mem_cons.mp hin).resolve_left hbne
    · rw [hself]
      exact if_pos ⟨by omega, by omega⟩
  · refine .inl ?_
    unfold acquireFromPool
    rw [hacq]
    simp [FcPool.poolUpdateThreshold]

end Acquire

section Release
variable {s s' : St} {r x : Ref}

theorem Alloc.threshold (ha : Alloc s) :
    Alloc { s with pool := FcPool.poolUpdateThreshold s.pool } :=
  ⟨⟨ha.pool.nodup, ha.pool.fresh, ha.pool.len, ha.pool.onList, ha.pool.available, ha.pool.used,
    ha.pool.freed⟩, ha.single, ha.inj⟩

/-- What `mlx5_fc_acquire` does: a counter is acquired, or only the threshold changes. -/
theorem fcAcquire_spec (ha : Alloc s) (aging : Bool) {e : AcqEnv}
    (hbulk : ∀ base ∈ e.bulk.base, ∀ x ∈ s.allocated,
      s.id x < base ∨ base + FcPool.bulkLenOf s.pool.allocBitmask ≤ s.id x)
    (hfw : ∀ i ∈ e.fcAlloc, ∀ x ∈ s.allocated, s.id x ≠ i) :
    (∃ s', fcAcquire s aging e = (s', none) ∧
      (s' = s ∨ s' = { s with pool := FcPool.poolUpdateThreshold s.pool })) ∨
      ∃ s' r, fcAcquire s aging e = (s', some r) ∧ Acquired s s' r ∧
        (aging = false → s'.fc r = Fc.zero ∧ s'.hw (s'.id r) = ⟨0, 0⟩) := by
  have hzero : ∀ {s' r}, fcSingleAlloc s e = (s', some r) →
      s'.fc r = Fc.zero ∧ s'.hw (s'.id r) = ⟨0, 0⟩ := by
    intro s' r h
    unfold fcSingleAlloc at h
    by_cases hk : e.kzalloc = false
    · rw [if_pos hk] at h
      cases h
    · rw [if_neg hk] at h
      cases hi : e.fcAlloc with
      | none =>
        rw [hi] at h
        cases h
      | some i =>
        rw [hi] at h
        cases h
        simp
  unfold fcAcquire
  split_ifs with hc
  · rcases acquireFromPool_spec ha hc.2 hbulk with h | ⟨s', r, h, hacq⟩
    · rw [h]
      rcases fcSingleAlloc_spec ha.threshold hfw with h' | ⟨s', r, h', hacq⟩
      · exact .inl ⟨_, h', .inr rfl⟩
      · exact .inr ⟨s', r, h', { hacq with }, fun hf => absurd hc.1 (by rw [hf]; decide)⟩
    · rw [h]
      exact .inr ⟨s', r, rfl, hacq, fun hf => absurd hc.1 (by rw [hf]; decide)⟩
  · rcases fcSingleAlloc_spec ha hfw with h | ⟨s', r, h, hacq⟩
    · exact .inl ⟨s, h, .inl rfl⟩
    · exact .inr ⟨s', r, h, hacq, fun _ => hzero h⟩

/-- A counter is released. -/
structure Released (s s' : St) (r : Ref) : Prop where
  same : s' = { s with pool := s'.pool, singles := s'.singles }
  inUse : ∀ x, s'.inUse x ↔ x ≠ r ∧ s.inUse x
  alloc : Alloc s'
  unused : ∀ b ∈ s'.pool.list .unused, b ∉ s.pool.list .unused →
    s'.pool.availableFcs ≤ s'.pool.threshold

/-- STEP: what `mlx5_fc_release` does. -/
theorem fcRelease_spec (ha : Alloc s) (hr : s.inUse r) : Released s (fcRelease s r) r := by
  cases r with
  | single n =>
    have hmem : ∀ m, m ∈ s.singles.erase n ↔ m ≠ n ∧ m ∈ s.singles := fun m =>
      ha.single.1.mem_erase_iff
    refine ⟨rfl, fun x => ?_, ⟨ha.pool, ⟨ha.single.1.erase n, fun m hm => ?_⟩,
      fun y hy x hx he => ?_⟩, fun b hb hb' => absurd hb hb'⟩
    · cases x with
      | single m => simpa [St.inUse, fcRelease] using hmem m
      | pool fc => simp [St.inUse, fcRelease]
    · exact ha.single.2 m ((hmem m).mp hm).2
    · have hsub : ∀ x, x ∈ (fcRelease s (.single n)).allocated → x ∈ s.allocated := by
        intro x hx
        rw [mem_allocated] at hx
        rw [mem_allocated]
        cases x with
        | single m => exact ((hmem m).mp hx).2
        | pool fc => exact hx
      exact ha.inj y (hsub y hy) x (hsub x hx) he
  | pool fc =>
    obtain ⟨hb, hi, hused⟩ := hr
    rcases FcPool.poolReleaseCounter_spec ha.pool ⟨hb, hi, hused⟩ with
      ⟨p, hp, m, hinv, hkept⟩ | ⟨q, p, hp, m, -, d, hall, -, hinv⟩
    · have hst : fcRelease s (.pool fc) = { s with pool := p } := by
        rw [← hp]
        rfl
      rw [hst]
      refine ⟨rfl, fun x => ?_, ⟨hinv, ha.single, fun y hy x hx he => ?_⟩, fun b hb₁ hb₂ => ?_⟩
      · cases x with
        | single n => simp [St.inUse]
        | pool fc' =>
          refine (m.inUse hb hi).trans ?_
          rcases eq_or_ne fc' fc with rfl | hne
          · simp
          · simp [St.inUse]
      · have hsub : ∀ x, x ∈ St.allocated { s with pool := p } → x ∈ s.allocated := by
          intro x hx
          rw [mem_allocated] at hx
          rw [mem_allocated]
          cases x with
          | single n => exact hx
          | pool fc' => simpa only [m.mem_bulks hb, m.bulk, FcPool.setBit_bulkLen] using hx
        exact ha.inj y (hsub y hy) x (hsub x hx) he
      · have hin := (m.mem .unused b).mp hb₁
        rcases eq_or_ne b fc.b with rfl | hne
        · exact hkept hb₁
        · rw [if_neg hne] at hin
          exact absurd hin hb₂
    · have hst : fcRelease s (.pool fc) = { s with pool := p } := by
        rw [← hp]
        rfl
      rw [hst]
      refine ⟨rfl, fun x => ?_, ⟨hinv, ha.single, fun y hy x hx he => ?_⟩, fun b hb₁ hb₂ => ?_⟩
      · cases x with
        | single n => simp [St.inUse]
        | pool fc' =>
          refine ((d.inUse hall).trans (m.inUse hb hi)).trans ?_
          rcases eq_or_ne fc' fc with rfl | hne
          · simp
          · simp [St.inUse]
      · have hsub : ∀ x, x ∈ St.allocated { s with pool := p } → x ∈ s.allocated := by
          intro x hx
          rw [mem_allocated] at hx
          rw [mem_allocated]
          cases x with
          | single n => exact hx
          | pool fc' =>
            simp only [d.mem_bulks, d.bulk, m.mem_bulks hb, m.bulk, FcPool.setBit_bulkLen] at hx
            exact ⟨hx.1.2, hx.2⟩
        exact ha.inj y (hsub y hy) x (hsub x hx) he
      · obtain ⟨hne, hin⟩ := (d.mem .unused b).mp hb₁
        have hin := (m.mem .unused b).mp hin
        rw [if_neg hne] at hin
        exact absurd hin hb₂

end Release

section Sorted
variable {key : Ref → ℕ} {r x : Ref} {l : List Ref}

/-- The first element that is looked for has the smallest key. -/
theorem find?_min {p : Ref → Bool} (h : l.Pairwise fun y z => key y < key z)
    (hx : l.find? p = some x) : ∀ y ∈ l, p y = true → key x ≤ key y := by
  induction l with
  | nil => cases hx
  | cons z l ih =>
    obtain ⟨hz, hl⟩ := pairwise_cons.mp h
    intro y hy hp
    cases hpz : p z with
    | true =>
      rw [List.find?_cons_of_pos hpz] at hx
      obtain rfl := Option.some.inj hx
      rcases mem_cons.mp hy with rfl | hy
      · exact le_rfl
      · exact (hz y hy).le
    | false =>
      rw [List.find?_cons_of_neg (by rw [hpz]; decide)] at hx
      rcases mem_cons.mp hy with rfl | hy
      · rw [hp] at hpz
        cases hpz
      · exact ih hl hx y hy hp

/-- `list_add_tail` in front of the next one is insertion into the sorted list. -/
theorem listAddBefore_some (h : l.Pairwise fun y z => key y < key z) (hx : x ∈ l)
    (hlt : key r < key x) (hmin : ∀ y ∈ l, key r < key y → key x ≤ key y) :
    listAddBefore l (some x) r = insertByKey key r l := by
  induction l with
  | nil => cases hx
  | cons y l ih =>
    obtain ⟨hy, hl⟩ := pairwise_cons.mp h
    rcases eq_or_ne y x with rfl | hne
    · rw [insertByKey_cons_lt hlt]
      simp [listAddBefore]
    · have hxl : x ∈ l := (mem_cons.mp hx).resolve_left (Ne.symm hne)
      have hle : key y ≤ key r := by
        by_contra hgt
        have h₁ := hmin y mem_cons_self (by omega)
        have h₂ := hy x hxl
        omega
      rw [insertByKey_cons_le hle, ← ih hl hxl fun z hz => hmin z (mem_cons_of_mem _ hz)]
      simp [listAddBefore, hne]

theorem listAddBefore_none (h : ∀ y ∈ l, key y ≤ key r) :
    listAddBefore l none r = insertByKey key r l := by
  induction l with
  | nil => rfl
  | cons y l ih =>
    obtain ⟨hy, hl⟩ := List.forall_mem_cons.mp h
    rw [insertByKey_cons_le hy, ← ih hl]
    rfl

end Sorted

section Lists
variable {s s' : St} {r x : Ref}

/-- The lists are the same. -/
structure SameLists (s s' : St) : Prop where
  creating : s'.creating = s.creating
  indexed : s'.indexed = s.indexed
  plain : s'.plain = s.plain
  addlist : s'.addlist = s.addlist
  dellist : s'.dellist = s.dellist
  countersIdr : s'.countersIdr = s.countersIdr
  counters : s'.counters = s.counters
  phase : s'.phase = s.phase

theorem Acquired.lists (h : Acquired s s' r) : SameLists s s' := by
  constructor <;> rw [h.same]

theorem Released.lists (h : Released s s' r) : SameLists s s' := by
  constructor <;> rw [h.same]

theorem SameLists.held (e : SameLists s s') : s'.held = s.held := by
  simp only [St.held, e.creating, e.indexed, e.plain, e.addlist, e.phase, e.counters]

theorem Lists.held_of_idr (h : Lists s) (hx : x ∈ s.countersIdr) : x ∈ s.held := by
  have hk := mem_known.mp ((h.idr x).mp hx)
  rw [mem_held]
  tauto

theorem held_of_counters (hx : x ∈ s.counters) : x ∈ s.held := by
  rw [mem_held]
  tauto

/-- STEP: the same lists, and counters that are the same as far as these look. -/
theorem Lists.congr (h : Lists s) (e : SameLists s s') (hid : ∀ x ∈ s.held, s'.id x = s.id x)
    (haging : ∀ x ∈ s.held, (s'.fc x).aging = (s.fc x).aging)
    (hseen : ∀ x ∈ s.held, s'.seen x = s.seen x) : Lists s' := by
  have hunseen : s'.unseen = s.unseen := by
    simp only [St.unseen, e.creating, e.indexed, e.plain, e.addlist, e.phase]
  have hknown : s'.known = s.known := by
    simp only [St.known, e.indexed, e.addlist, e.phase, e.counters]
  have hdies : Dies s' s'.phase = Dies s s.phase := by
    rw [e.phase]
    unfold Dies
    rw [e.addlist, e.counters]
  refine ⟨?_, ?_, ?_, ?_, ?_, ?_, ?_, ?_, ?_, ?_⟩
  · rw [e.held]
    exact h.nodup
  · rw [e.countersIdr, hknown]
    exact h.idr
  · rw [e.countersIdr]
    refine h.idrSorted.imp_of_mem fun hx hy hlt => ?_
    rwa [hid _ (h.held_of_idr hx), hid _ (h.held_of_idr hy)]
  · rw [e.counters]
    refine h.sorted.imp_of_mem fun hx hy hlt => ?_
    rwa [hid _ (held_of_counters hx), hid _ (held_of_counters hy)]
  · rw [hunseen]
    intro x hx
    rw [hseen x (mem_held.mpr (by have := mem_unseen.mp hx; tauto))]
    exact h.unseen x hx
  · rw [e.counters]
    intro x hx
    rw [hseen x (held_of_counters hx)]
    exact h.seen x hx
  · rw [e.held, e.plain]
    intro x hx
    rw [haging x hx]
    exact h.aging x hx
  · rw [e.dellist, e.phase]
    exact h.dying
  · rw [e.dellist, e.addlist, e.phase, e.counters]
    exact h.listed
  · rw [hdies]
    exact h.dies

theorem Lists.count_le (h : Lists s) (x : Ref) : s.creating.count x + s.indexed.count x +
    s.plain.count x + s.addlist.count x + s.phase.adding.count x + s.counters.count x ≤ 1 := by
  rw [← count_held]
  exact nodup_iff_count_le_one.mp h.nodup x

/-- Counters of the idr have different ids. -/
theorem Lists.id_ne (h : Lists s) (hx : x ∈ s.countersIdr) (hr : r ∈ s.countersIdr)
    (hne : x ≠ r) : s.id x ≠ s.id r := by
  rcases lt_trichotomy (s.countersIdr.idxOf x) (s.countersIdr.idxOf r) with hlt | he | hgt
  · have hr' := List.idxOf_lt_length_iff.mpr hr
    have hs := List.pairwise_iff_getElem.mp h.idrSorted _ _ (hlt.trans hr') hr' hlt
    rw [getElem_idxOf, getElem_idxOf] at hs
    exact hs.ne
  · exact absurd (List.idxOf_inj hx |>.mp he) hne
  · have hx' := List.idxOf_lt_length_iff.mpr hx
    have hs := List.pairwise_iff_getElem.mp h.idrSorted _ _ (hgt.trans hx') hx' hgt
    rw [getElem_idxOf, getElem_idxOf] at hs
    exact hs.ne'

/-- What `mlx5_fc_stats_insert` does: it inserts into the sorted list. -/
theorem Lists.insert_eq (h : Lists s) :
    listAddBefore s.counters (fcCountersLookupNext s (s.id r)) r =
      insertByKey s.id r s.counters := by
  have hmem : ∀ y ∈ s.counters, y ∈ s.countersIdr := fun y hy =>
    (h.idr y).mpr (mem_known.mpr (by tauto))
  unfold fcCountersLookupNext
  cases hf : s.countersIdr.find? fun y => decide (s.id r < s.id y ∧ y ∈ s.counters) with
  | none =>
    refine listAddBefore_none fun y hy => ?_
    have hall := List.find?_eq_none.mp hf y (hmem y hy)
    by_contra hgt
    exact hall (by simp [hy]; omega)
  | some x =>
    have hx : s.id r < s.id x ∧ x ∈ s.counters := by simpa using List.find?_some hf
    refine listAddBefore_some h.sorted hx.2 hx.1 fun y hy hlt => ?_
    exact find?_min h.idrSorted hf y (hmem y hy) (by simp [hy, hlt])

end Lists

section Moves
variable {s s' : St} {r x : Ref}

theorem Lists.nodup_of (h : ∀ x, s.creating.count x + s.indexed.count x + s.plain.count x +
    s.addlist.count x + s.phase.adding.count x + s.counters.count x ≤ 1) : s.held.Nodup := by
  refine nodup_iff_count_le_one.mpr fun x => ?_
  rw [count_held]
  exact h x

theorem count_eq_zero_of_held (hr : r ∉ s.held) : s.creating.count r + s.indexed.count r +
    s.plain.count r + s.addlist.count r + s.phase.adding.count r + s.counters.count r = 0 := by
  rw [← count_held]
  exact List.count_eq_zero.mpr hr

theorem count_single (x r : Ref) : [r].count x = if x = r then 1 else 0 := by
  rcases eq_or_ne x r with rfl | hne
  · simp
  · rw [if_neg hne]
    exact List.count_eq_zero.mpr (by simpa using hne)

section
variable (h : Lists s) (hr : r ∉ s.held)
include h hr

/-- A new counter: the counts stay at most one. -/
theorem Lists.count_new (x : Ref) :
    s.creating.count x + s.indexed.count x + s.plain.count x + s.addlist.count x +
      s.phase.adding.count x + s.counters.count x + [r].count x ≤ 1 := by
  have hle := h.count_le x
  rw [count_single]
  split_ifs with hx
  · subst hx
    have hz := count_eq_zero_of_held hr
    omega
  · omega

/-- STEP: an ageing counter that was acquired. -/
theorem Lists.pushCreating (hs : s.seen r = false)
    (ha : (s.fc r).aging = true) : Lists { s with creating := r :: s.creating } := by
  refine { h with
      nodup := Lists.nodup_of fun x => ?_, unseen := fun x hx => ?_, aging := fun x hx => ?_ }
  · have hc := count_cons_add (r := r) (x := x) (l := s.creating)
    have hn := h.count_new hr x
    simp only
    omega
  · rw [mem_unseen, mem_cons] at hx
    rcases hx with (rfl | hx) | hx
    · exact hs
    · exact h.unseen x (mem_unseen.mpr (.inl hx))
    · exact h.unseen x (mem_unseen.mpr (.inr hx))
  · rw [mem_held, mem_cons] at hx
    rcases hx with (rfl | hx) | hx
    · rw [ha]
      exact iff_of_false (by decide) fun hp => hr (mem_held.mpr (by tauto))
    · exact h.aging x (mem_held.mpr (.inl hx))
    · exact h.aging x (mem_held.mpr (.inr hx))

/-- STEP: a counter that does not age. -/
theorem Lists.pushPlain (hs : s.seen r = false)
    (ha : (s.fc r).aging = false) : Lists { s with plain := r :: s.plain } := by
  refine { h with
      nodup := Lists.nodup_of fun x => ?_, unseen := fun x hx => ?_, aging := fun x hx => ?_ }
  · have hc := count_cons_add (r := r) (x := x) (l := s.plain)
    have hn := h.count_new hr x
    simp only
    omega
  · rw [mem_unseen] at hx
    simp only [mem_cons] at hx
    rcases eq_or_ne x r with rfl | hne
    · exact hs
    · exact h.unseen x (mem_unseen.mpr (by tauto))
  · rw [mem_held] at hx
    simp only [mem_cons] at hx
    rcases eq_or_ne x r with rfl | hne
    · simp [ha]
    · rw [h.aging x (mem_held.mpr (by tauto))]
      simp [hne]

end

/-- STEP: the counter goes into the idr. -/
theorem Lists.intoIdr (h : Lists s) (hr : r ∈ s.creating)
    (hfree : ¬∃ x ∈ s.countersIdr, s.id x = s.id r) :
    Lists { s with
      creating := s.creating.erase r, countersIdr := insertByKey s.id r s.countersIdr,
      indexed := r :: s.indexed } := by
  refine ⟨Lists.nodup_of fun x => ?_, fun x => ?_,
    insertByKey_strict h.idrSorted fun y hy he => hfree ⟨y, hy, he⟩, h.sorted, fun x hx => ?_,
    h.seen, fun x hx => ?_, h.dying, h.listed, h.dies⟩
  · have hc := count_cons_add (r := r) (x := x) (l := s.indexed)
    have he := count_erase_add (x := x) hr
    have hn := h.count_le x
    simp only
    omega
  · have hx := h.idr x
    rw [mem_known] at hx
    rw [mem_insertByKey, mem_known, mem_cons, hx]
    tauto
  · rw [mem_unseen] at hx
    simp only [mem_cons] at hx
    refine h.unseen x (mem_unseen.mpr ?_)
    rcases hx with hx | (rfl | hx) | hx
    · exact .inl (mem_of_mem_erase hx)
    · exact .inl hr
    · exact .inr (.inl hx)
    · exact .inr (.inr hx)
  · rw [mem_held] at hx
    simp only [mem_cons] at hx
    refine h.aging x (mem_held.mpr ?_)
    rcases hx with hx | (rfl | hx) | hx
    · exact .inl (mem_of_mem_erase hx)
    · exact .inl hr
    · exact .inr (.inl hx)
    · exact .inr (.inr hx)

theorem Lists.held_idr (hr : r ∈ s.creating) :
    x ∈ St.held { s with
      creating := s.creating.erase r, countersIdr := insertByKey s.id r s.countersIdr,
      indexed := r :: s.indexed } ↔ x ∈ s.held := by
  rw [← count_pos_iff, ← count_pos_iff, count_held, count_held]
  have hc := count_cons_add (r := r) (x := x) (l := s.indexed)
  have he := count_erase_add (x := x) hr
  simp only
  omega

end Moves

section Drops
variable {s s' : St} {r x : Ref}

/-- A counter leaves its only list. -/
theorem Lists.mem_drop (h : Lists s) (hr : r ∈ s.held)
    (hc : ∀ x, s'.held.count x + [r].count x = s.held.count x) :
    x ∈ s'.held ↔ x ≠ r ∧ x ∈ s.held := by
  have hle := nodup_iff_count_le_one.mp h.nodup x
  have hx := hc x
  rw [count_single] at hx
  rw [← count_pos_iff, ← count_pos_iff]
  rcases eq_or_ne x r with rfl | hne
  · have hpos := count_pos_iff.mpr hr
    simp only [if_true] at hx
    exact iff_of_false (by omega) fun hn => hn.1 rfl
  · simp only [if_neg hne, Nat.add_zero] at hx
    rw [hx]
    exact ⟨fun hp => ⟨hne, hp⟩, fun hp => hp.2⟩

/-- STEP: the creation fails at the idr. -/
theorem Lists.dropCreating (h : Lists s) (hr : r ∈ s.creating) :
    Lists { s with creating := s.creating.erase r } ∧
      ∀ x, x ∈ St.held { s with creating := s.creating.erase r } ↔ x ≠ r ∧ x ∈ s.held := by
  have hsub : ∀ x, x ∈ s.creating.erase r → x ∈ s.creating := fun x => mem_of_mem_erase
  refine ⟨{ h with
      nodup := Lists.nodup_of fun x => ?_, unseen := fun x hx => ?_, aging := fun x hx => ?_ },
    fun x => ?_⟩
  · have he := count_erase_add (x := x) hr
    have hn := h.count_le x
    simp only
    omega
  · refine h.unseen x (mem_unseen.mpr ?_)
    exact (mem_unseen.mp hx).imp_left (hsub x)
  · refine h.aging x (mem_held.mpr ?_)
    exact (mem_held.mp hx).imp_left (hsub x)
  · refine h.mem_drop (mem_held.mpr (.inl hr)) fun x => ?_
    have he := count_erase_add (x := x) hr
    rw [count_held, count_held]
    simp only
    omega

/-- STEP: a counter that does not age is destroyed. -/
theorem Lists.dropPlain (h : Lists s) (hr : r ∈ s.plain) :
    Lists { s with plain := s.plain.erase r } ∧
      ∀ x, x ∈ St.held { s with plain := s.plain.erase r } ↔ x ≠ r ∧ x ∈ s.held := by
  have hsub : ∀ x, x ∈ s.plain.erase r → x ∈ s.plain := fun x => mem_of_mem_erase
  have hmem : ∀ x, x ∈ St.held { s with plain := s.plain.erase r } ↔ x ≠ r ∧ x ∈ s.held := by
    intro x
    refine h.mem_drop (mem_held.mpr (by tauto)) fun x => ?_
    have he := count_erase_add (x := x) hr
    rw [count_held, count_held]
    simp only
    omega
  refine ⟨{ h with
      nodup := Lists.nodup_of fun x => ?_, unseen := fun x hx => ?_, aging := fun x hx => ?_ }, hmem⟩
  · have he := count_erase_add (x := x) hr
    have hn := h.count_le x
    simp only
    omega
  · refine h.unseen x (mem_unseen.mpr ?_)
    have hx := mem_unseen.mp hx
    tauto
  · obtain ⟨hne, hx⟩ := (hmem x).mp hx
    exact (h.aging x hx).trans (mem_erase_of_ne hne).symm

/-- STEP: counters go from one list to another, and none is held or let go. -/
theorem Lists.regroup (h : Lists s) {ix al dl : List Ref} {p : Phase} {n : ℤ}
    (hc : ∀ x, ix.count x + al.count x + p.adding.count x =
      s.indexed.count x + s.addlist.count x + s.phase.adding.count x)
    (hdying : (dl ++ p.deleting).Nodup)
    (hlisted : ∀ x ∈ dl, x ∈ al ∨ x ∈ p.adding ∨ x ∈ s.counters)
    (hdies : Dies { s with addlist := al } p) :
    Lists { s with indexed := ix, addlist := al, dellist := dl, phase := p, bulkQueryLen := n } ∧
      ∀ x, x ∈ St.held { s with
        indexed := ix, addlist := al, dellist := dl, phase := p, bulkQueryLen := n } ↔
          x ∈ s.held := by
  set t : St := { s with
    indexed := ix, addlist := al, dellist := dl, phase := p, bulkQueryLen := n } with ht
  have hcount : ∀ x, t.held.count x = s.held.count x := fun x => by
    have hx := hc x
    rw [count_held, count_held]
    simp only [ht]
    omega
  have hmem : ∀ x, x ∈ t.held ↔ x ∈ s.held := fun x => by
    rw [← count_pos_iff, ← count_pos_iff, hcount]
  have hmid : ∀ x, x ∈ ix ∨ x ∈ al ∨ x ∈ p.adding ↔
      x ∈ s.indexed ∨ x ∈ s.addlist ∨ x ∈ s.phase.adding := fun x => by
    have hx := hc x
    simp only [← count_pos_iff]
    omega
  refine ⟨⟨nodup_iff_count_le_one.mpr fun x => ?_, fun x => ?_, h.idrSorted, h.sorted,
    fun x hx => ?_, h.seen, fun x hx => h.aging x ((hmem x).mp hx), hdying, hlisted, ?_⟩, hmem⟩
  · rw [hcount]
    exact nodup_iff_count_le_one.mp h.nodup x
  · have hx := h.idr x
    have hm := hmid x
    rw [mem_known] at hx ⊢
    simp only [ht]
    tauto
  · have hm := hmid x
    rw [mem_unseen] at hx
    simp only [ht] at hx
    exact h.unseen x (mem_unseen.mpr (by tauto))
  · change Dies t p
    revert hdies
    cases p <;> exact id

/-- STEP: `llist_add` to the addlist. -/
theorem Lists.intoAddlist (h : Lists s) (hr : r ∈ s.indexed) :
    Lists (llistAdd s r) ∧ ∀ x, x ∈ (llistAdd s r).held ↔ x ∈ s.held := by
  refine h.regroup (fun x => ?_) h.dying (fun x hx => (h.listed x hx).imp_left (mem_cons_of_mem r)) ?_
  · have hc := count_cons_add (r := r) (x := x) (l := s.addlist)
    have he := count_erase_add (x := x) hr
    omega
  · have hd := h.dies
    revert hd
    cases s.phase with
    | took del => exact fun hd x hx => (hd x hx).imp_left (mem_cons_of_mem r)
    | idle | add | del | query | update => exact id

/-- STEP: an ageing counter is destroyed by its user. -/
theorem Lists.intoDellist (h : Lists s) (hr : r ∈ s.users) (ha : (s.fc r).aging ≠ false) :
    Lists { s with dellist := r :: s.dellist } := by
  obtain ⟨hin, hout, hout'⟩ := mem_users.mp hr
  refine { h with dying := ?_, listed := fun x hx => ?_ }
  · refine nodup_cons.mpr ⟨fun hm => ?_, h.dying⟩
    exact (List.mem_append.mp hm).elim hout hout'
  · rcases mem_cons.mp hx with rfl | hx
    · have hp : x ∉ s.plain := fun hp => ha ((h.aging x (held_of_user hr)).mpr hp)
      tauto
    · exact h.listed x hx

end Drops

section Work
variable {s s' : St} {r x : Ref} {add del : List Ref}

/-- STEP: the work takes the dellist. -/
theorem Lists.took (h : Lists s) (hp : s.phase = .idle) :
    Lists { s with phase := .took s.dellist, dellist := [] } ∧
      ∀ x, x ∈ St.held { s with phase := .took s.dellist, dellist := [] } ↔ x ∈ s.held := by
  have hd := h.dying
  have hl := h.listed
  rw [hp] at hd hl
  refine h.regroup (fun x => by rw [hp]; rfl) (by simpa [Phase.deleting] using hd)
    (fun x hx => by cases hx) fun x hx => ?_
  simpa [Phase.adding] using hl x hx

/-- STEP: and then the addlist. -/
theorem Lists.taken (h : Lists s) (hp : s.phase = .took del) :
    Lists { s with phase := .add s.addlist del, addlist := [] } ∧
      ∀ x, x ∈ St.held { s with phase := .add s.addlist del, addlist := [] } ↔ x ∈ s.held := by
  have hd := h.dying
  have hl := h.listed
  have hdies := h.dies
  rw [hp] at hd hl hdies
  refine h.regroup (fun x => ?_) hd (fun x hx => ?_) hdies
  · rw [hp]
    simp [Phase.adding]
  · simpa [Phase.adding] using hl x hx

/-- STEP: all have been inserted. -/
theorem Lists.added (h : Lists s) (hp : s.phase = .add [] del) :
    Lists { s with phase := .del del } ∧
      ∀ x, x ∈ St.held { s with phase := .del del } ↔ x ∈ s.held := by
  have hd := h.dying
  have hl := h.listed
  have hdies := h.dies
  rw [hp] at hd hl hdies
  exact h.regroup (fun x => by rw [hp]; rfl) hd hl fun x hx => (hdies x hx).resolve_left (by simp)

/-- STEP: nothing is left to insert or to remove, before and after. -/
theorem Lists.quiet (h : Lists s) {p : Phase} (ha : s.phase.adding = [])
    (hd : s.phase.deleting = []) (ha' : p.adding = []) (hd' : p.deleting = []) (n : ℤ)
    (hdies : Dies s p) : Lists { s with phase := p, bulkQueryLen := n } ∧
      ∀ x, x ∈ St.held { s with phase := p, bulkQueryLen := n } ↔ x ∈ s.held := by
  refine h.regroup (fun x => by rw [ha, ha']) ?_ ?_ hdies
  · rw [hd', ← hd]
    exact h.dying
  · rw [ha', ← ha]
    exact h.listed

end Work

section Insert
variable {s : St} {r x : Ref} {add del : List Ref}

/-- The state after the insertion of the first counter of `add`. -/
def inserted (s : St) (r : Ref) (add del : List Ref) : St :=
  { fcStatsInsert s r with
    phase := .add add del, numCounters := s.numCounters + 1,
    seen := update s.seen r true }

/-- STEP: the work inserts a counter. -/
theorem Lists.inserted (h : Lists s) (hp : s.phase = .add (r :: add) del) :
    Lists (inserted s r add del) ∧ ∀ x, x ∈ (FcStats.inserted s r add del).held ↔ x ∈ s.held := by
  have hd := h.dying
  have hl := h.listed
  have hdies := h.dies
  have hcounters : (FcStats.inserted s r add del).counters = insertByKey s.id r s.counters :=
    h.insert_eq
  have hadding : r ∈ s.phase.adding := by
    rw [hp]
    exact mem_cons_self
  have hidr : r ∈ s.countersIdr := (h.idr r).mpr (mem_known.mpr (by tauto))
  have hone := h.count_le r
  have hpos := count_pos_iff.mpr hadding
  have hnot : r ∉ s.counters := fun hc => by
    have hc := count_pos_iff.mpr hc
    omega
  have hcount : ∀ x, (FcStats.inserted s r add del).held.count x = s.held.count x := by
    intro x
    have hc := count_cons_add (r := r) (x := x) (l := add)
    have hi := (insertByKey_perm s.id r s.counters).count_eq x
    rw [count_cons_add] at hi
    rw [count_held, count_held, hcounters, hi, hp]
    simp only [FcStats.inserted, fcStatsInsert, Phase.adding]
    omega
  have hmem : ∀ x, x ∈ (FcStats.inserted s r add del).held ↔ x ∈ s.held := fun x => by
    rw [← count_pos_iff, ← count_pos_iff, hcount]
  rw [hp] at hd hl hdies
  refine ⟨⟨nodup_iff_count_le_one.mpr fun x => ?_, fun x => ?_, h.idrSorted, ?_,
    fun x hx => ?_, fun x hx => ?_, fun x hx => h.aging x ((hmem x).mp hx), hd, fun x hx => ?_,
    fun x hx => ?_⟩, hmem⟩
  · rw [hcount]
    exact nodup_iff_count_le_one.mp h.nodup x
  · have hx := h.idr x
    rw [mem_known, hp] at hx
    rw [mem_known, hcounters, mem_insertByKey]
    refine hx.trans ?_
    simp only [Phase.adding, mem_cons]
    tauto
  · rw [hcounters]
    refine insertByKey_strict h.sorted fun y hy => ?_
    exact h.id_ne ((h.idr y).mpr (mem_known.mpr (by tauto))) hidr fun he => hnot (he ▸ hy)
  · have hxr : x ≠ r := by
      rintro rfl
      have hone := nodup_iff_count_le_one.mp h.nodup x
      have hn := hcount x
      have hx := mem_unseen.mp hx
      simp only [FcStats.inserted, Phase.adding] at hx
      rw [← hn, count_held, hcounters, (insertByKey_perm s.id x s.counters).count_eq x,
        count_cons_add] at hone
      simp only [FcStats.inserted, Phase.adding, count_single, if_true] at hone
      simp only [← count_pos_iff] at hx
      omega
    have hold : s.seen x = false := by
      refine h.unseen x (mem_unseen.mpr ?_)
      have hx := mem_unseen.mp hx
      simp only [hp]
      tauto
    exact (update_of_ne hxr ..).trans hold
  · rw [hcounters, mem_insertByKey] at hx
    rcases eq_or_ne x r with rfl | hne
    · exact update_self ..
    · exact (update_of_ne hne ..).trans (h.seen x (hx.resolve_left hne))
  · rw [hcounters, mem_insertByKey]
    have hx := hl x hx
    simp only [Phase.adding, mem_cons] at hx
    tauto
  · rw [hcounters, mem_insertByKey]
    have hx := hdies x hx
    simp only [mem_cons] at hx
    tauto

/-- STEP: the work removes a counter. -/
theorem Lists.removed (h : Lists s) (hp : s.phase = .del (r :: del)) :
    Lists { fcStatsRemove s r with phase := .del del } ∧ r ∈ s.held ∧
      ∀ x, x ∈ St.held { fcStatsRemove s r with phase := .del del } ↔ x ≠ r ∧ x ∈ s.held := by
  have hd := h.dying
  have hl := h.listed
  have hdies := h.dies
  have hi := h.idr
  have hu := h.unseen
  have hcount := h.count_le
  rw [hp] at hd hl hdies hcount
  have hr : r ∈ s.counters := hdies r mem_cons_self
  have hheld : r ∈ s.held := held_of_counters hr
  have hdel : ∀ x ∈ s.dellist ++ del, x ≠ r := by
    rintro x hx rfl
    have hperm : (s.dellist ++ x :: del).Perm (x :: (s.dellist ++ del)) := List.perm_middle
    exact (nodup_cons.mp (hperm.nodup_iff.mp hd)).1 hx
  have hmem : ∀ x, x ∈ St.held { fcStatsRemove s r with phase := .del del } ↔
      x ≠ r ∧ x ∈ s.held := by
    intro x
    refine h.mem_drop hheld fun x => ?_
    have he := count_erase_add (x := x) hr
    rw [count_held, count_held, hp]
    simp only [fcStatsRemove, Phase.adding]
    omega
  have hcnd : s.counters.Nodup := h.sorted.imp fun hlt he => by rw [he] at hlt; omega
  have hind : s.countersIdr.Nodup := h.idrSorted.imp fun hlt he => by rw [he] at hlt; omega
  refine ⟨⟨Lists.nodup_of fun x => ?_, fun x => ?_, h.idrSorted.sublist List.erase_sublist,
    h.sorted.sublist List.erase_sublist, fun x hx => ?_, fun x hx => ?_, fun x hx => ?_, ?_,
    fun x hx => ?_, fun x hx => ?_⟩, hheld, hmem⟩
  · have he := count_erase_add (x := x) hr
    have hn := hcount x
    simp only [fcStatsRemove, Phase.adding] at hn ⊢
    omega
  · have hx := hi x
    have hone := hcount x
    rw [mem_known, hp] at hx
    rw [mem_known]
    simp only [fcStatsRemove, Phase.adding] at hx ⊢
    rw [hind.mem_erase_iff, hcnd.mem_erase_iff, hx]
    rcases eq_or_ne x r with rfl | hne
    · have hpos := count_pos_iff.mpr hr
      have h₁ : x ∉ s.indexed := fun hm => by
        have hm := count_pos_iff.mpr hm
        omega
      have h₂ : x ∉ s.addlist := fun hm => by
        have hm := count_pos_iff.mpr hm
        omega
      simp [h₁, h₂]
    · simp [hne]
  · refine hu x (mem_unseen.mpr ?_)
    rw [hp]
    exact mem_unseen.mp hx
  · exact h.seen x (mem_of_mem_erase hx)
  · exact h.aging x ((hmem x).mp hx).2
  · exact hd.sublist ((List.Sublist.refl _).append (List.sublist_cons_self r del))
  · have hne := hdel x (List.mem_append_left _ hx)
    exact (hl x hx).imp_right fun hx => hx.imp_right fun hx => (mem_erase_of_ne hne).mpr hx
  · have hne := hdel x (List.mem_append_right _ hx)
    exact (mem_erase_of_ne hne).mpr (hdies x (mem_cons_of_mem _ hx))

end Insert

section Steps
variable {s s' : St} {r x : Ref}

theorem Inv.allocated (hi : Inv s) (hx : x ∈ s.held) : x ∈ s.allocated :=
  allocated_of_inUse ((hi.held x).mp hx)

/-- The fields that the allocators do not look at. -/
theorem Alloc.congr (ha : Alloc s) (hpool : s'.pool = s.pool) (hsingles : s'.singles = s.singles)
    (hfresh : s'.freshSingle = s.freshSingle) (hid : s'.id = s.id) : Alloc s' := by
  have hall : s'.allocated = s.allocated := by
    unfold St.allocated
    rw [hpool, hsingles]
  refine ⟨?_, ?_, ?_⟩
  · rw [hpool]
    exact ha.pool
  · rw [hsingles, hfresh]
    exact ha.single
  · rw [hall, hid]
    exact ha.inj

/-- A counter was acquired and got its user. -/
theorem Inv.acquired (hi : Inv s) (ha : Acquired s s' r) (c : Fc) :
    Lists (handOut s' r c) ∧ r ∉ s.held ∧ (handOut s' r c).held = s.held := by
  have hout : r ∉ s.held := fun h => ha.out ((hi.held r).mp h)
  have e := ha.lists
  have hne : ∀ x ∈ s.held, x ≠ r := fun x hx he => hout (he ▸ hx)
  have hseen : s'.seen = s.seen := by rw [ha.same]
  have e' : SameLists s (handOut s' r c) :=
    { e with }
  refine ⟨hi.lists.congr e' (fun x hx => ha.id x (hi.allocated hx)) (fun x hx => ?_)
    fun x hx => ?_, hout, e'.held⟩
  · have hupd : (handOut s' r c).fc x = s'.fc x := update_of_ne (hne x hx) ..
    rw [hupd, ha.fc x (hne x hx) ((hi.held x).mp hx)]
  · have hupd : (handOut s' r c).seen x = s'.seen x := update_of_ne (hne x hx) ..
    rw [hupd, hseen]

/-- STEP: a creation. -/
theorem Inv.create (hi : Inv s) {aging : Bool} {now : ℕ} {e : AcqEnv}
    (hok : ok s (.create aging now e)) : Inv (fcCreate s aging now e) := by
  unfold fcCreate
  rcases fcAcquire_spec hi.alloc aging hok.1 hok.2 with
    ⟨s', h, hs' | hs'⟩ | ⟨s', r, h, ha, -⟩
  · rw [h, hs']
    exact hi
  · rw [h, hs']
    exact ⟨hi.alloc.threshold, hi.lists.congr ⟨rfl, rfl, rfl, rfl, rfl, rfl, rfl, rfl⟩
      (fun _ _ => rfl) (fun _ _ => rfl) fun _ _ => rfl, hi.held⟩
  · rw [h]
    simp only
    have hseen : ∀ c, (handOut s' r c).seen r = false := fun c => update_self ..
    have hfc : ∀ c, (handOut s' r c).fc r = c := fun c => update_self ..
    cases aging with
    | true =>
      obtain ⟨hl, hout, hheld⟩ := hi.acquired ha
        { s'.fc r with
          aging := true, lastuse := now, lastbytes := (s'.fc r).cacheBytes,
          lastpackets := (s'.fc r).cachePackets }
      refine ⟨ha.alloc.congr rfl rfl rfl rfl,
        hl.pushCreating (by rwa [hheld]) (hseen _) (by rw [hfc]), fun x => ?_⟩
      refine Iff.trans ?_ (ha.inUse x).symm
      rw [← hi.held, ← hheld, mem_held, mem_held]
      simp [or_assoc]
    | false =>
      obtain ⟨hl, hout, hheld⟩ := hi.acquired ha { s'.fc r with aging := false }
      rw [if_neg (by decide)]
      refine ⟨ha.alloc.congr rfl rfl rfl rfl,
        hl.pushPlain (by rwa [hheld]) (hseen _) (by rw [hfc]), fun x => ?_⟩
      refine Iff.trans ?_ (ha.inUse x).symm
      rw [← hi.held, ← hheld, mem_held, mem_held]
      simp only [mem_cons]
      tauto

/-- STEP: a release of a counter that has left its list. -/
theorem Inv.release (ha : Alloc s) (hl : Lists s) (hr : s.inUse r)
    (hheld : ∀ x, x ∈ s.held ↔ x ≠ r ∧ s.inUse x) : Inv (fcRelease s r) := by
  have hrel := fcRelease_spec ha hr
  have e := hrel.lists
  have hid : (fcRelease s r).id = s.id := by rw [hrel.same]
  have hfc : (fcRelease s r).fc = s.fc := by rw [hrel.same]
  have hseen : (fcRelease s r).seen = s.seen := by rw [hrel.same]
  refine ⟨hrel.alloc, hl.congr e (fun x _ => by rw [hid]) (fun x _ => by rw [hfc])
    fun x _ => by rw [hseen], fun x => ?_⟩
  rw [e.held, hrel.inUse]
  exact hheld x

section
variable (hi : Inv s)
include hi

/-- STEP: the fields that the lists do not look at. -/
theorem Inv.congr (e : SameLists s s') (hpool : s'.pool = s.pool)
    (hsingles : s'.singles = s.singles) (hfresh : s'.freshSingle = s.freshSingle)
    (hid : s'.id = s.id) (haging : ∀ x, (s'.fc x).aging = (s.fc x).aging)
    (hseen : s'.seen = s.seen) : Inv s' := by
  refine ⟨hi.alloc.congr hpool hsingles hfresh hid, hi.lists.congr e (fun x _ => by rw [hid])
    (fun x _ => haging x) fun x _ => by rw [hseen], fun x => ?_⟩
  rw [e.held, hi.held]
  unfold St.inUse
  rw [hpool, hsingles]

theorem Inv.query : Inv (queryCached s r) := by
  refine hi.congr ⟨rfl, rfl, rfl, rfl, rfl, rfl, rfl, rfl⟩ rfl rfl rfl rfl (fun x => ?_) rfl
  unfold queryCached fcQueryCached
  rcases eq_or_ne x r with rfl | hne
  · simp
  · simp [update_of_ne hne]

end

end Steps

section Meters
variable {s s' : St} {r x : Ref} {p : Phase}

theorem U64_pos : 0 < U64 := by decide

/-- What a user knows of a counter is the same, and the hardware may have counted more. -/
structure Keeps (s s' : St) (x : Ref) : Prop where
  id : s'.id x = s.id x
  fc : s'.fc x = s.fc x
  base : s'.base x = s.base x
  given : s'.given x = s.given x
  packets : (s.hw (s.id x)).packets ≤ (s'.hw (s.id x)).packets
  bytes : (s.hw (s.id x)).bytes ≤ (s'.hw (s.id x)).bytes

theorem Keeps.of_eq (hid : s'.id = s.id) (hfc : s'.fc = s.fc) (hbase : s'.base = s.base)
    (hgiven : s'.given = s.given) (hhw : s'.hw = s.hw) : Keeps s s' x :=
  ⟨by rw [hid], by rw [hfc], by rw [hbase], by rw [hgiven], by rw [hhw], by rw [hhw]⟩

theorem Metered.keeps {t : Traffic} (m : Metered s x t) (k : Keeps s s' x) : Metered s' x t := by
  unfold Metered
  rw [k.fc, k.base, k.given]
  exact m

theorem Metered.mono {t t' : Traffic} (m : Metered s x t) (hp : t.packets ≤ t'.packets)
    (hb : t.bytes ≤ t'.bytes) : Metered s x t' :=
  ⟨m.1.mono hp, m.2.mono hb⟩

/-- The readings of all counters are in order. -/
structure Meters (s : St) : Prop where
  fine : ∀ r ∈ s.held, Metered s r (s.hw (s.id r))
  walks : Walks s s.phase

theorem Meters.fine_keeps (m : Meters s) (hx : x ∈ s.held) (k : Keeps s s' x) :
    Metered s' x (s'.hw (s'.id x)) := by
  rw [k.id]
  exact ((m.fine x hx).mono k.packets k.bytes).keeps k

theorem Walks.keeps (w : Walks s p) (hc : s'.counters = s.counters)
    (k : ∀ x ∈ s.counters, Keeps s s' x) : Walks s' p := by
  cases p with
  | query rest lastId =>
    change rest <:+ s'.counters
    rw [hc]
    exact w
  | update rest lastId base len data =>
    obtain ⟨hsuf, hw⟩ := w
    refine ⟨by rwa [hc], fun x hx => ?_⟩
    obtain ⟨hle, hm, hp, hb⟩ := hw x hx
    have k := k x (hsuf.subset hx)
    rw [k.id]
    exact ⟨hle, hm.keeps k, hp.trans k.packets, hb.trans k.bytes⟩
  | idle => trivial
  | took del => trivial
  | add l del => trivial
  | del l => trivial

/-- STEP: no counter changes. -/
theorem Meters.keeps (m : Meters s) (hheld : ∀ x ∈ s'.held, x ∈ s.held)
    (hphase : s'.phase = s.phase) (hc : s'.counters = s.counters)
    (k : ∀ x ∈ s.held, Keeps s s' x) : Meters s' := by
  refine ⟨fun x hx => m.fine_keeps (hheld x hx) (k x (hheld x hx)), ?_⟩
  rw [hphase]
  exact m.walks.keeps hc fun x hx => k x (held_of_counters hx)

/-- A new user's readings are in order, when the cached one is what the hardware counted. -/
theorem metered_start {c : Fc} (hp : c.cachePackets = (s.hw (s.id r)).packets % U64)
    (hb : c.cacheBytes = (s.hw (s.id r)).bytes % U64) (hlp : c.lastpackets = c.cachePackets)
    (hlb : c.lastbytes = c.cacheBytes) : Metered (handOut s r c) r (s.hw (s.id r)) := by
  unfold Metered handOut
  simp only [update_self]
  rw [hlp, hlb]
  exact ⟨Meter.start hp, Meter.start hb⟩

theorem Acquired.keeps (ha : Acquired s s' r) {c : Fc} (hx : s.inUse x) :
    Keeps s (handOut s' r c) x := by
  have hne : x ≠ r := fun he => ha.out (he ▸ hx)
  have hbase : s'.base = s.base := by rw [ha.same]
  have hgiven : s'.given = s.given := by rw [ha.same]
  have hhw := ha.hw x (allocated_of_inUse hx)
  refine ⟨ha.id x (allocated_of_inUse hx), ?_, ?_, ?_, ?_, ?_⟩
  · exact (update_of_ne hne ..).trans (ha.fc x hne hx)
  · exact (update_of_ne hne ..).trans (congrFun hbase x)
  · exact (update_of_ne hne ..).trans (congrFun hgiven x)
  · exact (congrArg Traffic.packets hhw).ge
  · exact (congrArg Traffic.bytes hhw).ge

/-- What a clean creation reads. -/
theorem Acquired.reading (ha : Acquired s s' r) {aging : Bool} {now : ℕ} {e : AcqEnv}
    (hclean : clean s (.create aging now e))
    (hzero : aging = false → s'.fc r = Fc.zero ∧ s'.hw (s'.id r) = ⟨0, 0⟩) :
    (s'.fc r).cachePackets = (s'.hw (s'.id r)).packets % U64 ∧
      (s'.fc r).cacheBytes = (s'.hw (s'.id r)).bytes % U64 := by
  have hnew : s'.fc r = Fc.zero ∧ s'.hw (s'.id r) = ⟨0, 0⟩ →
      (s'.fc r).cachePackets = (s'.hw (s'.id r)).packets % U64 ∧
        (s'.fc r).cacheBytes = (s'.hw (s'.id r)).bytes % U64 := by
    rintro ⟨hf, hh⟩
    rw [hf, hh]
    exact ⟨rfl, rfl⟩
  cases aging with
  | false => exact hnew (hzero rfl)
  | true =>
    rcases ha.fresh with h | ⟨hm, hfc, hid, hhw, fc, hnext, rfl⟩
    · exact hnew h
    · rw [hfc, hid, hhw]
      exact hclean rfl hm fc hnext

/-- STEP: a creation. -/
theorem Meters.create (m : Meters s) (hi : Inv s) {aging : Bool} {now : ℕ} {e : AcqEnv}
    (hok : ok s (.create aging now e)) (hclean : clean s (.create aging now e)) :
    Meters (fcCreate s aging now e) := by
  unfold fcCreate
  rcases fcAcquire_spec hi.alloc aging hok.1 hok.2 with
    ⟨s', h, hs' | hs'⟩ | ⟨s', r, h, ha, hzero⟩
  · rw [h, hs']
    exact m
  · rw [h, hs']
    exact m.keeps (fun _ hx => hx) rfl rfl fun _ _ => Keeps.of_eq rfl rfl rfl rfl rfl
  · rw [h]
    simp only
    obtain ⟨hp, hb⟩ := ha.reading hclean hzero
    have hheld : s'.held = s.held := ha.lists.held
    have hphase := ha.lists.phase
    have hcounters := ha.lists.counters
    have hk : ∀ {c : Fc} {x : Ref}, x ∈ s.held → Keeps s (handOut s' r c) x := fun hx =>
      ha.keeps ((hi.held _).mp hx)
    have hwalk : ∀ c, Walks (handOut s' r c) (handOut s' r c).phase := fun c => by
      change Walks _ s'.phase
      rw [hphase]
      exact m.walks.keeps hcounters fun x hx => hk (held_of_counters hx)
    have hfine : ∀ {c : Fc}, Metered (handOut s' r c) r (s'.hw (s'.id r)) → ∀ x,
        x = r ∨ x ∈ s.held → Metered (handOut s' r c) x ((handOut s' r c).hw
          ((handOut s' r c).id x)) := by
      rintro c hr x (rfl | hx)
      · exact hr
      · exact m.fine_keeps hx (hk hx)
    cases aging with
    | true =>
      rw [if_pos rfl]
      set c : Fc := { s'.fc r with
        aging := true, lastuse := now, lastbytes := (s'.fc r).cacheBytes,
        lastpackets := (s'.fc r).cachePackets } with hc
      have hr : Metered (handOut s' r c) r (s'.hw (s'.id r)) := metered_start hp hb rfl rfl
      refine ⟨fun x hx => ?_, hwalk c⟩
      refine hfine hr x ?_
      rw [← hheld, mem_held]
      rw [mem_held, mem_cons] at hx
      exact or_assoc.mp hx
    | false =>
      rw [if_neg (by decide)]
      obtain ⟨hf, -⟩ := hzero rfl
      set c : Fc := { s'.fc r with aging := false } with hc
      have hr : Metered (handOut s' r c) r (s'.hw (s'.id r)) := by
        refine metered_start hp hb ?_ ?_
        · rw [hc, hf]
          rfl
        · rw [hc, hf]
          rfl
      refine ⟨fun x hx => ?_, hwalk c⟩
      refine hfine hr x ?_
      rw [← hheld, mem_held]
      rw [mem_held] at hx
      simp only [mem_cons] at hx
      tauto

theorem Metered.told {t : Traffic} (m : Metered s r t) : Metered (queryCached s r) r t := by
  unfold Metered queryCached fcQueryCached
  simp only [update_self]
  exact ⟨m.1.tell U64_pos, m.2.tell U64_pos⟩

/-- STEP: a user is told what was counted. -/
theorem Meters.query (m : Meters s) : Meters (queryCached s r) := by
  have hk : ∀ x, x ≠ r → Keeps s (queryCached s r) x := fun x hne =>
    ⟨rfl, update_of_ne hne .., rfl, update_of_ne hne .., le_rfl, le_rfl⟩
  have hm : ∀ {x : Ref} {t : Traffic}, Metered s x t → Metered (queryCached s r) x t := by
    intro x t h
    rcases eq_or_ne x r with rfl | hne
    · exact h.told
    · exact h.keeps (hk x hne)
  refine ⟨fun x hx => hm (m.fine x hx), ?_⟩
  have hw := m.walks
  change Walks _ s.phase
  revert hw
  cases s.phase with
  | query rest lastId => exact id
  | update rest lastId base len data =>
    rintro ⟨hsuf, hw⟩
    refine ⟨hsuf, fun x hx => ?_⟩
    obtain ⟨hle, hmx, hpb⟩ := hw x hx
    exact ⟨hle, hm hmx, hpb⟩
  | idle => exact id
  | took del => exact id
  | add l del => exact id
  | del l => exact id

end Meters

section Works
variable {s s' : St} {r x : Ref}

/-- The lists stay in order, and no counter changes. -/
structure Orderly (s t : St) : Prop where
  lists : Lists t
  pool : t.pool = s.pool
  singles : t.singles = s.singles
  freshSingle : t.freshSingle = s.freshSingle
  id : t.id = s.id
  fc : t.fc = s.fc
  base : t.base = s.base
  given : t.given = s.given
  hw : t.hw = s.hw
  walks : Meters s → Walks t t.phase

theorem Orderly.alloc (h : Orderly s s') (ha : Alloc s) : Alloc s' :=
  ha.congr h.pool h.singles h.freshSingle h.id

theorem Orderly.inUse (h : Orderly s s') : s'.inUse x ↔ s.inUse x := by
  unfold St.inUse
  rw [h.pool, h.singles]

theorem Orderly.keeps (h : Orderly s s') : Keeps s s' x :=
  Keeps.of_eq h.id h.fc h.base h.given h.hw

/-- What happens to the lists: counters go from one to another, one leaves them and is released, or
    a cache is updated from the answer to a query. -/
inductive Went (s : St) : St → Prop
  | moved {t : St} (h : Orderly s t) (hheld : ∀ x, x ∈ t.held ↔ x ∈ s.held) : Went s t
  | released {t : St} {r : Ref} (h : Orderly s t) (hr : r ∈ s.held)
      (hheld : ∀ x, x ∈ t.held ↔ x ≠ r ∧ x ∈ s.held) (n : ℤ) :
      Went s { fcRelease t r with numCounters := n }
  | read {r : Ref} {rest : List Ref} {lastId base : ℕ} {len : ℤ} {data : ℕ → Traffic} {now : ℕ}
      (hp : s.phase = .update (r :: rest) lastId base len data) :
      Went s { s with
        phase := .update rest lastId base len data,
        fc := update s.fc r (updateCounterCache (s.fc r) (data (s.id r - base)) now) }

section
variable (hi : Inv s)
include hi

/-- STEP: the creation goes on. -/
theorem Inv.idr {mem : Bool} (hr : r ∈ s.creating) : Went s (idrAllocU32 s r mem) := by
  unfold idrAllocU32
  by_cases hfail : mem = false ∨ ∃ x ∈ s.countersIdr, s.id x = s.id r
  · obtain ⟨hl, hheld⟩ := hi.lists.dropCreating hr
    rw [if_pos hfail]
    exact .released (s := s) (r := r) ⟨hl, rfl, rfl, rfl, rfl, rfl, rfl, rfl, rfl, fun m =>
      m.walks.keeps rfl fun _ _ => Keeps.of_eq rfl rfl rfl rfl rfl⟩ (mem_held.mpr (.inl hr)) hheld _
  · rw [if_neg hfail]
    exact .moved ⟨hi.lists.intoIdr hr (not_or.mp hfail).2, rfl, rfl, rfl, rfl, rfl, rfl, rfl, rfl,
      fun m => m.walks.keeps rfl fun _ _ => Keeps.of_eq rfl rfl rfl rfl rfl⟩
      fun x => Lists.held_idr hr

theorem Inv.add (hr : r ∈ s.indexed) : Went s (llistAdd s r) := by
  obtain ⟨hl, hheld⟩ := hi.lists.intoAddlist hr
  exact .moved ⟨hl, rfl, rfl, rfl, rfl, rfl, rfl, rfl, rfl, fun m =>
    m.walks.keeps rfl fun _ _ => Keeps.of_eq rfl rfl rfl rfl rfl⟩ hheld

/-- STEP: a user destroys a counter. -/
theorem Inv.destroy (hr : r ∈ s.users) : Went s (fcDestroy s r) := by
  unfold fcDestroy
  by_cases ha : (s.fc r).aging = true
  · rw [if_pos ha]
    exact .moved ⟨hi.lists.intoDellist hr (by rw [ha]; decide), rfl, rfl, rfl, rfl, rfl, rfl, rfl,
      rfl, fun m => m.walks.keeps rfl fun _ _ => Keeps.of_eq rfl rfl rfl rfl rfl⟩ fun _ => Iff.rfl
  · have hp := (hi.lists.aging r (held_of_user hr)).mp (by simpa using ha)
    obtain ⟨hl, hheld⟩ := hi.lists.dropPlain hp
    rw [if_neg ha]
    exact .released (s := s) (r := r) ⟨hl, rfl, rfl, rfl, rfl, rfl, rfl, rfl, rfl, fun m =>
      m.walks.keeps rfl fun _ _ => Keeps.of_eq rfl rfl rfl rfl rfl⟩ (held_of_user hr) hheld _

/-- STEP: the work goes to a phase in which it inserts and removes nothing. -/
theorem Inv.quiet {p : Phase} {n : ℤ} (ha : s.phase.adding = []) (hd : s.phase.deleting = [])
    (ha' : p.adding = []) (hd' : p.deleting = []) (hdies : Dies s p)
    (hw : Meters s → Walks s p) : Went s { s with phase := p, bulkQueryLen := n } := by
  obtain ⟨hl, hheld⟩ := hi.lists.quiet ha hd ha' hd' n hdies
  exact .moved ⟨hl, rfl, rfl, rfl, rfl, rfl, rfl, rfl, rfl, fun m =>
    (hw m).keeps rfl fun _ _ => Keeps.of_eq rfl rfl rfl rfl rfl⟩ hheld

/-- The answer to a query is not older than the caches of the counters it is about. -/
theorem Inv.queried (m : Meters s) {rest : List Ref} {lastId : ℕ} {len : ℤ}
    (hp : s.phase = .query (r :: rest) lastId) :
    Walks s (.update (r :: rest) lastId (s.id r / 4 * 4) len
      fun j => s.hw (s.id r / 4 * 4 + j)) := by
  have hw := m.walks
  rw [hp] at hw
  refine ⟨hw, fun x hx => ?_⟩
  have hs := hi.lists.sorted.sublist hw.sublist
  have hle : s.id r / 4 * 4 ≤ s.id x := by
    have hr := Nat.div_mul_le_self (s.id r) 4
    rcases mem_cons.mp hx with rfl | hx
    · exact hr
    · exact hr.trans ((pairwise_cons.mp hs).1 x hx).le
  have hidx : s.id r / 4 * 4 + (s.id x - s.id r / 4 * 4) = s.id x := by omega
  simp only [hidx]
  exact ⟨hle, m.fine x (held_of_counters (hw.subset hx)), le_rfl, le_rfl⟩

/-- STEP: a step of the work. -/
theorem Inv.work (e : WorkEnv) : Went s (fcStatsWork s e) := by
  cases hp : s.phase with
  | idle =>
    obtain ⟨hl, hheld⟩ := hi.lists.took hp
    simp only [fcStatsWork, hp]
    exact .moved ⟨hl, rfl, rfl, rfl, rfl, rfl, rfl, rfl, rfl, fun _ => trivial⟩ hheld
  | took del =>
    obtain ⟨hl, hheld⟩ := hi.lists.taken hp
    simp only [fcStatsWork, hp]
    exact .moved ⟨hl, rfl, rfl, rfl, rfl, rfl, rfl, rfl, rfl, fun _ => trivial⟩ hheld
  | add l del =>
    cases l with
    | cons r l =>
      obtain ⟨hl, hheld⟩ := hi.lists.inserted hp
      simp only [fcStatsWork, hp]
      exact .moved ⟨hl, rfl, rfl, rfl, rfl, rfl, rfl, rfl, rfl, fun _ => trivial⟩ hheld
    | nil =>
      obtain ⟨hl, hheld⟩ := hi.lists.added hp
      simp only [fcStatsWork, hp]
      exact .moved ⟨hl, rfl, rfl, rfl, rfl, rfl, rfl, rfl, rfl, fun _ => trivial⟩ hheld
  | del l =>
    cases l with
    | cons r l =>
      obtain ⟨hl, hr, hheld⟩ := hi.lists.removed hp
      have hst : fcStatsWork s e = { fcRelease { fcStatsRemove s r with phase := .del l } r with
            numCounters := s.numCounters - 1 } := by
        simp only [fcStatsWork, hp]
        cases r <;> rfl
      rw [hst]
      exact .released (s := s) (r := r)
        ⟨hl, rfl, rfl, rfl, rfl, rfl, rfl, rfl, rfl, fun _ => trivial⟩ hr hheld _
    | nil =>
      have hq : ∀ {p : Phase} {n : ℤ}, p.adding = [] → p.deleting = [] → Dies s p →
          (Meters s → Walks s p) → Went s { s with phase := p, bulkQueryLen := n } :=
        hi.quiet (by rw [hp]; rfl) (by rw [hp]; rfl)
      have hsize : bulkQuerySizeIncrease s e =
          { s with bulkQueryLen := (bulkQuerySizeIncrease s e).bulkQueryLen } := by
        unfold bulkQuerySizeIncrease
        split_ifs <;> rfl
      simp only [fcStatsWork, hp]
      rw [hsize]
      split
      · exact hq rfl rfl trivial fun _ => trivial
      · rename_i first rest hcs
        split_ifs
        · exact hq rfl rfl trivial fun _ => ⟨[], hcs.symm⟩
        · exact hq rfl rfl trivial fun _ => trivial
  | query rest lastId =>
    have hq : ∀ {p : Phase} {n : ℤ}, p.adding = [] → p.deleting = [] → Dies s p →
        (Meters s → Walks s p) → Went s { s with phase := p, bulkQueryLen := n } :=
      hi.quiet (by rw [hp]; rfl) (by rw [hp]; rfl)
    cases rest with
    | nil =>
      simp only [fcStatsWork, hp]
      exact hq rfl rfl trivial fun _ => trivial
    | cons r rest =>
      simp only [fcStatsWork, hp]
      split_ifs
      · exact hq rfl rfl trivial fun m => hi.queried m hp
      · exact hq rfl rfl trivial fun _ => trivial
  | update rest lastId base len data =>
    have hq : ∀ {p : Phase} {n : ℤ}, p.adding = [] → p.deleting = [] → Dies s p →
        (Meters s → Walks s p) → Went s { s with phase := p, bulkQueryLen := n } :=
      hi.quiet (by rw [hp]; rfl) (by rw [hp]; rfl)
    cases rest with
    | nil =>
      simp only [fcStatsWork, hp]
      exact hq rfl rfl trivial fun _ => trivial
    | cons r rest =>
      simp only [fcStatsWork, hp]
      split_ifs
      · refine hq rfl rfl trivial fun m => ?_
        have hw := m.walks
        rw [hp] at hw
        exact hw.1
      · exact .read hp

/-- STEP: where counters go from list to list, the lists stay in order. -/
theorem Went.inv (w : Went s s') : Inv s' := by
  cases w with
  | moved h hheld =>
    exact ⟨h.alloc hi.alloc, h.lists, fun x => (hheld x).trans ((hi.held x).trans h.inUse.symm)⟩
  | released h hr hheld n =>
    have hrel := Inv.release (h.alloc hi.alloc) h.lists (h.inUse.mpr ((hi.held _).mp hr)) fun x => by
      rw [hheld, hi.held, h.inUse]
    exact hrel.congr ⟨rfl, rfl, rfl, rfl, rfl, rfl, rfl, rfl⟩ rfl rfl rfl rfl (fun _ => rfl) rfl
  | @read r rest lastId base len data now hp =>
    obtain ⟨hl, hheld⟩ := hi.lists.quiet (p := .update rest lastId base len data)
      (by rw [hp]; rfl) (by rw [hp]; rfl) rfl rfl s.bulkQueryLen trivial
    have hi' : Inv { s with phase := .update rest lastId base len data } :=
      ⟨hi.alloc.congr rfl rfl rfl rfl, hl, fun x => (hheld x).trans (hi.held x)⟩
    refine hi'.congr ⟨rfl, rfl, rfl, rfl, rfl, rfl, rfl, rfl⟩ rfl rfl rfl rfl (fun x => ?_) rfl
    rcases eq_or_ne x r with rfl | hne
    · refine (congrArg Fc.aging (update_self ..)).trans ?_
      unfold updateCounterCache
      split_ifs <;> rfl
    · exact congrArg Fc.aging (update_of_ne hne ..)

/-- STEP: and a bulk is kept without users only within the threshold. -/
theorem Went.kept (w : Went s s') : ∀ b ∈ s'.pool.list .unused, b ∉ s.pool.list .unused →
    s'.pool.availableFcs ≤ s'.pool.threshold := by
  cases w with
  | moved h hheld =>
    intro b hb hb'
    rw [h.pool] at hb
    exact absurd hb hb'
  | released h hr hheld n =>
    rw [← h.pool]
    exact (fcRelease_spec (h.alloc hi.alloc) (h.inUse.mpr ((hi.held _).mp hr))).unused
  | read hp => exact fun b hb hb' => absurd hb hb'

/-- STEP: the invariant of the lists. -/
theorem Inv.step (o : Op) (hok : ok s o) : Inv (step s o) := by
  cases o with
  | create aging now e => exact hi.create hok
  | idr r mem => exact (hi.idr hok).inv hi
  | add r => exact (hi.add hok).inv hi
  | destroy r => exact (hi.destroy hok).inv hi
  | query r => exact hi.query
  | work e => exact (hi.work e).inv hi
  | traffic i t =>
    exact hi.congr ⟨rfl, rfl, rfl, rfl, rfl, rfl, rfl, rfl⟩ rfl rfl rfl rfl (fun _ => rfl) rfl

end

end Works

section Reads
variable {s s' : St} {r x : Ref}

theorem updateCounterCache_metered {t : Traffic} {now : ℕ} {c : Fc}
    (hc : c = updateCounterCache (s.fc r) t now) (m : Metered s r t)
    {s' : St} (hfc : s'.fc r = c) (hbase : s'.base r = s.base r) (hgiven : s'.given r = s.given r) :
    Metered s' r t := by
  unfold Metered
  rw [hfc, hbase, hgiven, hc]
  unfold updateCounterCache
  split_ifs with h
  · exact m
  · exact ⟨m.1.update, m.2.update⟩

/-- STEP: a cache is updated from the answer to a query. -/
theorem Meters.update (m : Meters s) (hi : Inv s) {rest : List Ref} {lastId base : ℕ} {len : ℤ}
    {data : ℕ → Traffic} {now : ℕ} (hp : s.phase = .update (r :: rest) lastId base len data) :
    Meters { s with
      phase := .update rest lastId base len data,
      fc := Function.update s.fc r
        (updateCounterCache (s.fc r) (data (s.id r - base)) now) } := by
  have hw := m.walks
  rw [hp] at hw
  obtain ⟨hsuf, hw⟩ := hw
  obtain ⟨hle, hm, hpk, hby⟩ := hw r mem_cons_self
  set s' : St := { s with
    phase := .update rest lastId base len data,
    fc := Function.update s.fc r
      (updateCounterCache (s.fc r) (data (s.id r - base)) now) } with hs'
  have hk : ∀ x, x ≠ r → Keeps s s' x := fun x hne =>
    ⟨rfl, update_of_ne hne .., rfl, rfl, le_rfl, le_rfl⟩
  have hheld : s'.held = s.held := by
    simp only [St.held, hs', hp, Phase.adding]
  have hr : Metered s' r (data (s.id r - base)) :=
    updateCounterCache_metered rfl hm (update_self ..) rfl rfl
  refine ⟨fun x hx => ?_, (List.suffix_cons r rest).trans hsuf, fun x hx => ?_⟩
  · rw [hheld] at hx
    rcases eq_or_ne x r with rfl | hne
    · exact hr.mono hpk hby
    · exact m.fine_keeps hx (hk x hne)
  · obtain ⟨hle, hm, hpb⟩ := hw x (mem_cons_of_mem _ hx)
    have hne : x ≠ r := by
      rintro rfl
      have hs := hi.lists.sorted.sublist hsuf.sublist
      exact ((pairwise_cons.mp hs).1 x hx).ne rfl
    exact ⟨hle, hm.keeps (hk x hne), hpb⟩

/-- STEP: where counters go from list to list, the readings stay in order. -/
theorem Went.meters (w : Went s s') (m : Meters s) (hi : Inv s) : Meters s' := by
  cases w with
  | moved h hheld => exact ⟨fun x hx => m.fine_keeps ((hheld x).mp hx) h.keeps, h.walks m⟩
  | @released t r h hr hheld n =>
    have e := (fcRelease_spec (h.alloc hi.alloc) (h.inUse.mpr ((hi.held _).mp hr))).lists
    have hk : ∀ {u : St} {x : Ref}, Keeps u t x →
        Keeps u { fcRelease t r with numCounters := n } x := fun k => by
      cases r <;> exact { k with }
    refine ⟨fun x hx => ?_, ?_⟩
    · have hx : x ∈ (fcRelease t r).held := hx
      rw [e.held] at hx
      exact m.fine_keeps ((hheld x).mp hx).2 (hk h.keeps)
    · change Walks _ (fcRelease t r).phase
      rw [e.phase]
      exact (h.walks m).keeps e.counters fun _ _ => hk (Keeps.of_eq rfl rfl rfl rfl rfl)
  | read hp => exact m.update hi hp

/-- STEP: the hardware counts. -/
theorem Meters.traffic (m : Meters s) {i : ℕ} {t : Traffic} : Meters (traffic s i t) := by
  refine m.keeps (fun _ hx => hx) rfl rfl fun x _ => ⟨rfl, rfl, rfl, rfl, ?_, ?_⟩
  · rcases eq_or_ne (s.id x) i with rfl | hne
    · simp [FcStats.traffic]
    · simp [FcStats.traffic, update_of_ne hne]
  · rcases eq_or_ne (s.id x) i with rfl | hne
    · simp [FcStats.traffic]
    · simp [FcStats.traffic, update_of_ne hne]

/-- STEP: the readings, where no counter comes with unread traffic. -/
theorem Meters.step (m : Meters s) (hi : Inv s) (o : Op) (hok : ok s o) (hclean : clean s o) :
    Meters (step s o) := by
  cases o with
  | create aging now e => exact m.create hi hok hclean
  | idr r mem => exact (hi.idr hok).meters m hi
  | add r => exact (hi.add hok).meters m hi
  | destroy r => exact (hi.destroy hok).meters m hi
  | query r => exact m.query
  | work e => exact (hi.work e).meters m hi
  | traffic i t => exact m.traffic

end Reads

section Main
variable {s s₀ : St} {r x : Ref}

/-- The counters and the pool are in order: no id has two users, each bulk is on the list for what
    it has, the sums are right, only unused bulks are given back, and the work's list is sorted and
    has what the work has seen. -/
structure Ordered (s : St) : Prop where
  ids : (s.held.map s.id).Nodup
  nodup : s.pool.bulks.Nodup
  onList : ∀ b ∈ s.pool.bulks, ∀ k, b ∈ s.pool.list k ↔
    k = FcPool.listFor (FcPool.bulkGetFreeFcsAmount (s.pool.bulk b)) (s.pool.bulk b).bulkLen
  available : s.pool.availableFcs =
    ((s.pool.bulks.map fun b => FcPool.bulkGetFreeFcsAmount (s.pool.bulk b)).sum : ℕ)
  used : s.pool.usedFcs = ((s.pool.bulks.map fun b =>
    (s.pool.bulk b).bulkLen - FcPool.bulkGetFreeFcsAmount (s.pool.bulk b)).sum : ℕ)
  freed : ∀ b ∈ s.pool.freed, b ∉ s.pool.bulks ∧
    ∀ i < (s.pool.bulk b).bulkLen, (s.pool.bulk b).free i = true
  sorted : (s.counters.map s.id).Pairwise (· < ·)
  counters : ∀ r, r ∈ s.counters ↔ s.inUse r ∧ (s.fc r).aging = true ∧ s.seen r = true

/-- No user is told of more than was counted since the user came. -/
def Honest (s : St) : Prop :=
  ∀ r ∈ s.held, (s.given r).packets ≤ (s.hw (s.id r)).packets - (s.base r).packets ∧
    (s.given r).bytes ≤ (s.hw (s.id r)).bytes - (s.base r).bytes ∧
    (s.base r).packets ≤ (s.hw (s.id r)).packets ∧ (s.base r).bytes ≤ (s.hw (s.id r)).bytes

theorem Inv.ordered (hi : Inv s) : Ordered s := by
  have hp := hi.alloc.pool
  refine ⟨?_, hp.nodup, fun b hb k => hp.mem_list hb, hp.available, hp.used, fun b hb => ?_, ?_,
    fun r => ⟨fun hr => ?_, fun ⟨hu, ha, hs⟩ => ?_⟩⟩
  · refine List.Nodup.map_on (fun y hy x hx he => ?_) hi.lists.nodup
    exact hi.alloc.inj y (hi.allocated hy) x (hi.allocated hx) he
  · obtain ⟨hout, -, hall⟩ := hp.freed b hb
    exact ⟨hout, FcPool.freeFcsAmount_eq_len.mp hall⟩
  · exact List.pairwise_map.mpr hi.lists.sorted
  · have hheld := held_of_counters hr
    refine ⟨(hi.held r).mp hheld, ?_, hi.lists.seen r hr⟩
    by_contra ha
    have hpl := (hi.lists.aging r hheld).mp (by simpa using ha)
    have hle := hi.lists.count_le r
    have h₁ := count_pos_iff.mpr hr
    have h₂ := count_pos_iff.mpr hpl
    omega
  · have hheld := (hi.held r).mpr hu
    by_contra hr
    have hun : r ∈ s.unseen := by
      rw [mem_unseen]
      have hm := mem_held.mp hheld
      tauto
    have hf := hi.lists.unseen r hun
    rw [hs] at hf
    cases hf

theorem Meters.honest (m : Meters s) : Honest s := by
  intro r hr
  obtain ⟨hp, hb⟩ := m.fine r hr
  have hp := hp.le
  have hb := hb.le
  exact ⟨by omega, by omega, by omega, by omega⟩

theorem Start.inv (h : Start s) : Inv s := by
  have hbulks : s.pool.bulks = [] := by simp [Pool.bulks, h.lists]
  have hall : s.allocated = [] := by simp [St.allocated, h.singles, hbulks]
  have hheld : s.held = [] := by
    simp [St.held, h.creating, h.indexed, h.plain, h.addlist, h.phase, h.counters, Phase.adding]
  have hknown : s.known = [] := by
    simp [St.known, h.indexed, h.addlist, h.phase, h.counters, Phase.adding]
  have hunseen : s.unseen = [] := by
    simp [St.unseen, h.creating, h.indexed, h.plain, h.addlist, h.phase, Phase.adding]
  refine ⟨⟨⟨by simp [hbulks], by simp [hbulks], by simp [hbulks], by simp [h.lists],
    by simp [hbulks, h.availableFcs], by simp [hbulks, h.usedFcs], by simp [h.freed]⟩,
    by simp [h.singles], by simp [hall]⟩, ⟨by simp [hheld], by simp [h.countersIdr, hknown],
    by simp [h.countersIdr], by simp [h.counters], by simp [hunseen], by simp [h.counters],
    by simp [hheld], by simp [h.dellist, h.phase, Phase.deleting], by simp [h.dellist], ?_⟩,
    fun r => ?_⟩
  · rw [h.phase]
    trivial
  · rw [hheld]
    cases r with
    | single n => simp [St.inUse, h.singles]
    | pool fc => simp [St.inUse, Pool.inUse, hbulks]

theorem Start.meters (h : Start s) : Meters s := by
  have hheld : s.held = [] := by
    simp [St.held, h.creating, h.indexed, h.plain, h.addlist, h.phase, h.counters, Phase.adding]
  refine ⟨by simp [hheld], ?_⟩
  rw [h.phase]
  trivial

/-- STEP: a bulk is kept without users only within the threshold. -/
theorem kept_within (hi : Inv s) (o : Op) (hok : ok s o) :
    ∀ b ∈ (step s o).pool.list .unused, b ∉ s.pool.list .unused →
      (step s o).pool.availableFcs ≤ (step s o).pool.threshold := by
  cases o with
  | create aging now e =>
    intro b hb hb'
    change b ∈ (fcCreate s aging now e).pool.list .unused at hb
    unfold fcCreate at hb
    rcases fcAcquire_spec hi.alloc aging hok.1 hok.2 with
      ⟨s', h, hs' | hs'⟩ | ⟨s', r, h, ha, -⟩
    · rw [h, hs'] at hb
      exact absurd hb hb'
    · rw [h, hs'] at hb
      exact absurd hb hb'
    · rw [h] at hb
      cases aging with
      | true => exact absurd (ha.unused b hb) hb'
      | false => exact absurd (ha.unused b hb) hb'
  | idr r mem => exact (hi.idr hok).kept hi
  | add r => exact (hi.add hok).kept hi
  | destroy r => exact (hi.destroy hok).kept hi
  | query r => exact fun b hb hb' => absurd hb hb'
  | work e => exact (hi.work e).kept hi
  | traffic i t => exact fun b hb hb' => absurd hb hb'

/-- RUN: the invariant. -/
theorem reach_inv (h₀ : Start s₀) (hr : Reach step ok s₀ s) : Inv s := by
  induction hr with
  | start => exact h₀.inv
  | next _ ho ih => exact ih.step _ ho

/-- CORRECT: in every run the pool and the lists are in order, and a bulk without users is kept only
    within the threshold; where each counter of a bulk that is handed out again has been read up to
    date, no user is told of more than was counted since the user came. -/
theorem flow_counters (h₀ : Start s₀) :
    (∀ s, Reach step ok s₀ s → Ordered s ∧ ∀ o, ok s o →
      ∀ b ∈ (step s o).pool.list .unused, b ∉ s.pool.list .unused →
        (step s o).pool.availableFcs ≤ (step s o).pool.threshold) ∧
    ∀ s, Reach step (fun s o => ok s o ∧ clean s o) s₀ s → Ordered s ∧ Honest s := by
  refine ⟨fun s hr => ⟨(reach_inv h₀ hr).ordered, fun o ho => kept_within (reach_inv h₀ hr) o ho⟩,
    fun s hr => ?_⟩
  have hboth : Inv s ∧ Meters s := by
    induction hr with
    | start => exact ⟨h₀.inv, h₀.meters⟩
    | next _ ho ih => exact ⟨ih.1.step _ ho.1, ih.2.step ih.1 _ ho.1 ho.2⟩
  exact ⟨hboth.1.ordered, hboth.2.honest⟩

end Main

instance (s : St) : (o : Op) → Decidable (ok s o)
  | .create _ _ e => inferInstanceAs (Decidable
      ((∀ base ∈ e.bulk.base, ∀ r ∈ s.allocated,
        s.id r < base ∨ base + FcPool.bulkLenOf s.pool.allocBitmask ≤ s.id r) ∧
      ∀ i ∈ e.fcAlloc, ∀ r ∈ s.allocated, s.id r ≠ i))
  | .idr r _ => inferInstanceAs (Decidable (r ∈ s.creating))
  | .add r => inferInstanceAs (Decidable (r ∈ s.indexed))
  | .destroy r => inferInstanceAs (Decidable (r ∈ s.users))
  | .query r => inferInstanceAs (Decidable (r ∈ s.users))
  | .work _ => instDecidableTrue
  | .traffic _ _ => instDecidableTrue

instance (s : St) : (o : Op) → Decidable (clean s o)
  | .create aging _ _ => inferInstanceAs (Decidable (aging = true → s.pool.allocBitmask ≠ 0 →
      ∀ fc ∈ FcPool.nextFc s.pool,
        (s.fc (.pool fc)).cachePackets = (s.hw (s.id (.pool fc))).packets % U64 ∧
          (s.fc (.pool fc)).cacheBytes = (s.hw (s.id (.pool fc))).bytes % U64))
  | .idr .. => instDecidableTrue
  | .add _ => instDecidableTrue
  | .destroy _ => instDecidableTrue
  | .query _ => instDecidableTrue
  | .work _ => instDecidableTrue
  | .traffic .. => instDecidableTrue

/-- A device that gives bulks of 128 counters. -/
def fresh : St where
  pool := ⟨1, fun _ => ⟨0, 0, fun _ => false⟩, 0, fun _ => [], [], 0, 0, 0⟩
  logMaxFlowCounterBulk := 15
  id := fun _ => 0
  fc := fun _ => Fc.zero
  singles := []
  freshSingle := 0
  creating := []
  indexed := []
  plain := []
  addlist := []
  dellist := []
  countersIdr := []
  counters := []
  phase := .idle
  bulkQueryLen := 8
  numCounters := 0
  hw := fun _ => ⟨0, 0⟩
  seen := fun _ => false
  base := fun _ => ⟨0, 0⟩
  given := fun _ => ⟨0, 0⟩

theorem fresh_start : Start fresh :=
  ⟨rfl, rfl, rfl, rfl, rfl, rfl, rfl, rfl, rfl, fun _ => rfl, rfl, rfl, rfl, rfl⟩

/-- A whole creation of the counter `i` of the first bulk. -/
def created (i : ℕ) (base : Option ℕ) : List Op :=
  [.create true 0 ⟨⟨true, true, base⟩, true, none⟩, .idr (.pool ⟨0, i⟩) true, .add (.pool ⟨0, i⟩)]

/-- So many steps of the work. -/
def works (n : ℕ) (due : Bool) : List Op := List.replicate n (.work ⟨1, due, true, true⟩)

/-- Two counters; the first counts, is read, is destroyed and handed out again. -/
def readFirst : List Op :=
  created 0 (some 4096) ++ created 1 none ++ [.traffic 4096 ⟨4, 400⟩] ++ works 10 true ++
    [.query (.pool ⟨0, 0⟩), .destroy (.pool ⟨0, 0⟩)] ++ works 5 false ++
    [.create true 0 ⟨⟨false, false, none⟩, false, none⟩]

theorem flow_counters_demo : ∃ s, readFirst.foldl step fresh = s ∧ Ordered s ∧ Honest s ∧
    s.creating = [.pool ⟨0, 0⟩] ∧ s.counters = [.pool ⟨0, 1⟩] := by
  have hrun : Runs step (fun s o => ok s o ∧ clean s o) fresh readFirst := by decide +kernel
  have hs := (flow_counters fresh_start).2 _ (Reach.start.runs hrun)
  exact ⟨_, rfl, hs.1, hs.2, by decide +kernel, by decide +kernel⟩

/-- The first counter is destroyed before it is read. -/
def unread : List Op :=
  created 0 (some 4096) ++ created 1 none ++ works 6 false ++
    [.traffic 4096 ⟨4, 400⟩, .destroy (.pool ⟨0, 0⟩)] ++ works 5 false ++ created 0 none ++
    works 9 true ++ [.query (.pool ⟨0, 0⟩)]

/-- BROKEN: the new user of the counter is told of the traffic of the old one. -/
theorem flow_counters_broken : Start fresh ∧ ∃ s, Reach step ok fresh s ∧ ¬Honest s := by
  have hrun : Runs step ok fresh unread := by decide +kernel
  refine ⟨fresh_start, _, Reach.start.runs hrun, fun h => ?_⟩
  have hr := (h (.pool ⟨0, 0⟩) (by decide +kernel)).1
  revert hr
  decide +kernel

end RdmaDriver.FcStats
