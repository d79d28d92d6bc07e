import RdmaDriver.Basic
import RdmaDriver.Schemes.Run
import RdmaDriver.Schemes.Dyadic
import Mathlib.Data.List.Sort
import Mathlib.Algebra.BigOperators.Group.Finset.Basic
import Mathlib.Algebra.BigOperators.Ring.Finset

/-! @src mlx5/core/pagealloc.c | name:firmware pages | scheme:run | family:accounting

    Firmware gets memory in pages of 4K. A system page is cut into as many as it has; a bitmap says
    which of them are still here, and system pages with some left are on a free list. The last 4K page
    that comes back frees the system page. What firmware has is a set of pairs of a function and the
    number of a 4K page: giving inserts one, taking back erases one, and all counters are sizes of
    parts of this set.

        system page   + 1 + 0 + 0 + 1 +    0: firmware has it
        free_count    2                    on free_list -/

namespace RdmaDriver.PageAlloc
open Schemes Function
open List (map_cons mem_cons mem_cons_self mem_filter mem_map mem_singleton mem_toFinset
  nodup_cons nodup_nil)
open Finset (card_range filter_true_of_mem mem_erase mem_insert range)

/-- `MLX5_NUM_4K_IN_PAGE`, for a system page of `2 ^ k` times 4K. -/
def num4kInPage (k : ℕ) : ℕ := 2 ^ k

/-- `PAGE_SIZE`. -/
def pageSize (k : ℕ) : ℕ := 4096 * num4kInPage k

/-- `addr & MLX5_U64_4K_PAGE_MASK`. -/
def pageBase (k addr : ℕ) : ℕ := addr / pageSize k * pageSize k

/-- `struct fw_page`. -/
structure FwPage where
  addr : ℕ
  function : ℕ
  bitmask : ℕ → Bool
  freeCount : ℕ

/-- `enum mlx5_func_type`. -/
inductive FuncType where
  | pf | vf | sf | hostPf | ecVf
  deriving DecidableEq

instance : Fintype FuncType := ⟨{.pf, .vf, .sf, .hostPf, .ecVf}, fun t => by cases t <;> decide⟩

/-- `struct mlx5_vport`, the part of the pages. -/
structure Vport where
  fwPages : ℤ
  pageLimit : ℤ

/-- What does not change about a device: the tests of `update_pg_counters`, and what
    `func_id_to_type` reads. -/
structure Caps where
  nvmeOnBehalf : Bool
  eth : Bool
  ecpf : Bool
  maxVfs : ℕ
  maxEcVfs : ℕ

/-- The pages of `struct mlx5_core_dev`: `mem` is what is at a place, `next` the first place never used,
    `tree` the tracked pages in the order of `rb_next`, `roots` the functions with a tree. The `u32`
    counters are integers, so that an underflow would be negative. `listOk` says that nothing was
    taken off `free_list` that was not on it. -/
structure Dev where
  mem : ℕ → FwPage
  next : ℕ
  tree : List ℕ
  roots : List ℕ
  freeList : List ℕ
  fwPages : ℤ
  pageCounters : FuncType → ℤ
  vports : ℕ → Option Vport
  listOk : Bool

/-- `get_function`. -/
def getFunction (funcId : ℕ) (ecFunction : Bool) : ℕ := funcId + ecFunction.toNat * 2 ^ 16

/-- `func_id_to_type`. -/
def funcIdToType (c : Caps) (funcId : ℕ) (ecFunction : Bool) : FuncType :=
  if funcId = 0 then if c.ecpf && !ecFunction then .hostPf else .pf
  else if funcId ≤ max c.maxVfs c.maxEcVfs then if ecFunction then .ecVf else .vf
  else .sf

/-- The memory of a page is written. -/
def Dev.put (dev : Dev) (p : ℕ) (fp : FwPage) : Dev :=
  { dev with mem := update dev.mem p fp }

/-- `list_del` from the free list. -/
def Dev.listDel (dev : Dev) (p : ℕ) : Dev :=
  { dev with
    freeList := dev.freeList.erase p
    listOk := dev.listOk && decide (p ∈ dev.freeList) }

/-- `find_fw_page`. -/
def findFwPage (dev : Dev) (addr function : ℕ) : Option ℕ :=
  dev.tree.find? fun p => (dev.mem p).function = function ∧ (dev.mem p).addr = addr

/-- The new tree of `insert_page`: greater addresses are to the left. -/
def treeInsert (mem : ℕ → FwPage) (p : ℕ) (tree : List ℕ) : List ℕ :=
  tree.orderedInsert (fun p q => (mem q).addr ≤ (mem p).addr) p

/-- `insert_page`, `page_root_per_function` inlined; the flags say whether their allocations succeed. -/
def insertPage (k : ℕ) (dev : Dev) (addr function : ℕ) (rootOk nodeOk : Bool) : Dev × Bool :=
  if function ∉ dev.roots ∧ rootOk = false then (dev, false)
  else if (findFwPage dev addr function).isSome ∨ nodeOk = false then
    ({ dev with roots := dev.roots.insert function }, false)
  else
    let mem := update dev.mem dev.next
      ⟨addr, function, fun n => decide (n < num4kInPage k), num4kInPage k⟩
    ({ dev with
        mem := mem
        next := dev.next + 1
        tree := treeInsert mem dev.next dev.tree
        roots := dev.roots.insert function
        freeList := dev.next :: dev.freeList }, true)

/-- What the allocations of a system page return: the address of the mapping, and that of the second
    one when the first is 0. -/
structure PageEnv where
  map : Option ℕ
  remap : Option ℕ
  rootOk : Bool
  nodeOk : Bool
  deriving DecidableEq

/-- The address that `alloc_system_page` goes on with. -/
def PageEnv.addr (e : PageEnv) : Option ℕ := if e.map = some 0 then e.remap else e.map

/-- `alloc_system_page`. -/
def allocSystemPage (k : ℕ) (dev : Dev) (function : ℕ) (e : PageEnv) : Dev × Bool :=
  match e.addr with
  | none => (dev, false)
  | some addr => insertPage k dev addr function e.rootOk e.nodeOk

/-- What `alloc_4k` returns. -/
inductive Alloc4k where
  | done (dev : Dev) (addr : ℕ)
  | enomem
  | enoent

/-- A bit is cleared in `alloc_4k`. -/
def take4k (dev : Dev) (p n : ℕ) : Dev :=
  let fp := dev.mem p
  let dev := dev.put p { fp with
    bitmask := update fp.bitmask n false, freeCount := fp.freeCount - 1 }
  if fp.freeCount - 1 = 0 then dev.listDel p else dev

/-- `alloc_4k`: the last page of the function on the free list. -/
def alloc4k (k : ℕ) (dev : Dev) (function : ℕ) : Alloc4k :=
  match (dev.freeList.filter fun p => (dev.mem p).function = function).getLast? with
  | none => .enomem
  | some p =>
    let n := findFirstBit (dev.mem p).bitmask 64
    if num4kInPage k ≤ n then .enoent
    else .done (take4k dev p n) ((dev.mem p).addr + n * 4096)

/-- `free_fwp`. -/
def freeFwp (dev : Dev) (p : ℕ) (inFreeList : Bool) : Dev :=
  if (dev.mem p).function ∉ dev.roots then dev
  else
    let dev := { dev with tree := dev.tree.erase p }
    if inFreeList then dev.listDel p else dev

/-- A bit is set in `free_4k`. -/
def give4k (k : ℕ) (dev : Dev) (p n : ℕ) : Dev :=
  let fp := dev.mem p
  let count := fp.freeCount + 1
  let dev := dev.put p { fp with bitmask := update fp.bitmask n true, freeCount := count }
  if count = num4kInPage k then freeFwp dev p (decide (count ≠ 1))
  else if count = 1 then { dev with freeList := p :: dev.freeList }
  else dev

/-- `free_4k`; true where it returns 0. -/
def free4k (k : ℕ) (dev : Dev) (addr function : ℕ) : Dev × Bool :=
  match findFwPage dev (pageBase k addr) function with
  | none => (dev, false)
  | some p =>
    if (dev.mem p).bitmask (addr % pageSize k / 4096) then (dev, false)
    else (give4k k dev p (addr % pageSize k / 4096), true)

/-- The pages are counted for a vport: the tests of `update_pg_counters`. -/
def counted (c : Caps) : Bool := !c.nvmeOnBehalf && c.eth

/-- `vf_obtainable_pages`; none for an error. -/
def vfObtainablePages (c : Caps) (dev : Dev) (funcId npages : ℕ) : Option ℕ :=
  if c.nvmeOnBehalf then some npages
  else if !c.eth then some npages
  else
    match dev.vports funcId with
    | none => none
    | some v =>
      if v.pageLimit ≠ 0 then
        if v.pageLimit ≤ v.fwPages then none
        else if v.pageLimit < v.fwPages + npages then some (v.pageLimit - v.fwPages).toNat
        else some npages
      else some npages

/-- `update_pg_counters`. -/
def updatePgCounters (c : Caps) (dev : Dev) (funcId : ℕ) (npages : ℤ) : Dev :=
  if c.nvmeOnBehalf then dev
  else if !c.eth then dev
  else
    match dev.vports funcId with
    | none => dev
    | some v =>
      { dev with
        vports := update dev.vports funcId
          (some { v with fwPages := v.fwPages + npages }) }

/-- The counters at the end of the three operations. -/
def countPages (c : Caps) (dev : Dev) (funcId : ℕ) (ecFunction : Bool) (npages : ℤ) : Dev :=
  let t := funcIdToType c funcId ecFunction
  let dev := { dev with
    pageCounters := update dev.pageCounters t (dev.pageCounters t + npages)
    fwPages := dev.fwPages + npages }
  if funcId ≠ 0 then updatePgCounters c dev funcId npages else dev

/-- One page in the loop of `give_pages`, from `retry` on. Each system page that is asked for takes an
    entry of the list. -/
def getOne (k function : ℕ) : List PageEnv → Dev → Dev × List PageEnv × Option ℕ
  | env, dev =>
    match alloc4k k dev function with
    | .done dev addr => (dev, env, some addr)
    | .enoent => (dev, env, none)
    | .enomem =>
      match env with
      | [] => (dev, [], none)
      | e :: env =>
        match allocSystemPage k dev function e with
        | (dev, false) => (dev, env, none)
        | (dev, true) => getOne k function env dev

/-- The loop of `give_pages`, with the iterations before its time is over: the addresses so far, and
    whether there are all. -/
def fillPages (k function : ℕ) : ℕ → ℕ → List PageEnv → List ℕ → Dev → Dev × List ℕ × Bool
  | 0, _, _, pas, dev => (dev, pas, true)
  | _ + 1, 0, _, pas, dev => (dev, pas, false)
  | n + 1, time + 1, env, pas, dev =>
    match getOne k function env dev with
    | (dev, _, none) => (dev, pas, false)
    | (dev, env, some addr) => fillPages k function n time env (pas ++ [addr]) dev

/-- The loop at `out_4k`. -/
def dropPages (k function : ℕ) (pas : List ℕ) (dev : Dev) : Dev :=
  pas.reverse.foldl (fun dev addr => (free4k k dev addr function).1) dev

/-- What the environment of `give_pages` does: the answer of `mlx5_vhca_icm_ctrl_supported`, the
    allocation of the command, the iterations in time, the system pages, and the command. -/
structure GiveEnv where
  icmCtrl : Bool
  inOk : Bool
  time : ℕ
  pages : List PageEnv
  cmdOk : Bool

/-- `give_pages`: with the addresses that firmware has got, none where it has failed or the command
    was dropped. -/
def givePages (k : ℕ) (c : Caps) (dev : Dev) (funcId npages : ℕ) (ecFunction : Bool)
    (e : GiveEnv) : Dev × Option (List ℕ) :=
  match (if funcId ≠ 0 ∧ e.icmCtrl = false then
      (vfObtainablePages c dev funcId npages).filter (fun n => decide (0 < n)) else some npages) with
  | none => (dev, none)
  | some npages =>
    if e.inOk = false then (dev, none)
    else
      match fillPages k (getFunction funcId ecFunction) npages e.time e.pages [] dev with
      | (dev, pas, false) => (dropPages k (getFunction funcId ecFunction) pas dev, none)
      | (dev, pas, true) =>
        if e.cmdOk then (countPages c dev funcId ecFunction npages, some pas)
        else (dropPages k (getFunction funcId ecFunction) pas dev, none)

/-- The tracked pages of a function. -/
def functionPages (dev : Dev) (function : ℕ) : List ℕ :=
  dev.tree.filter fun p => (dev.mem p).function = function

/-- The loop of `release_all_pages`. -/
def releaseLoop (k : ℕ) : List ℕ → Dev → ℤ → Dev × ℤ
  | [], dev, npages => (dev, npages)
  | p :: l, dev, npages =>
    releaseLoop k l (freeFwp dev p (decide ((dev.mem p).freeCount ≠ 0)))
      (npages + (num4kInPage k - (dev.mem p).freeCount : ℤ))

/-- `release_all_pages`. -/
def releaseAllPages (k : ℕ) (c : Caps) (dev : Dev) (funcId : ℕ) (ecFunction : Bool) : Dev :=
  let function := getFunction funcId ecFunction
  if function ∉ dev.roots then dev
  else
    let p := releaseLoop k (functionPages dev function) dev 0
    countPages c p.1 funcId ecFunction (-p.2)

/-- `fwp_fill_manage_pages_out`. -/
def fwpFillManagePagesOut (k : ℕ) (fp : FwPage) (npages : ℕ) : List ℕ :=
  (((List.range (num4kInPage k)).filter fun n => !fp.bitmask n).map
    fun n => fp.addr + n * 4096).take npages

/-- The loop of `reclaim_pages_cmd` for a device that is down. -/
def fillOut (k : ℕ) (mem : ℕ → FwPage) : List ℕ → ℕ → List ℕ
  | [], _ => []
  | p :: l, npages =>
    if npages = 0 then []
    else
      let out := fwpFillManagePagesOut k (mem p) npages
      out ++ fillOut k mem l (npages - out.length)

/-- What the environment of `reclaim_pages` does: the allocation of the answer, whether commands are
    down, and the answer of firmware, none for an error. -/
structure ReclaimEnv where
  outOk : Bool
  down : Bool
  out : Option (List ℕ)

/-- `reclaim_pages_cmd`: the addresses in the answer. -/
def reclaimPagesCmd (k : ℕ) (dev : Dev) (function npages : ℕ) (e : ReclaimEnv) :
    Option (List ℕ) :=
  if e.down = false then e.out
  else if function ∉ dev.roots then none
  else some (fillOut k dev.mem (functionPages dev function) npages)

/-- The loop of `reclaim_pages`: how many addresses were taken. -/
def claimLoop (k function : ℕ) : List ℕ → Dev → ℤ → Dev × ℤ
  | [], dev, claimed => (dev, claimed)
  | addr :: l, dev, claimed =>
    match free4k k dev addr function with
    | (dev, true) => claimLoop k function l dev (claimed + 1)
    | (dev, false) => claimLoop k function l dev claimed

/-- `reclaim_pages`. -/
def reclaimPages (k : ℕ) (c : Caps) (dev : Dev) (funcId npages : ℕ) (ecFunction : Bool)
    (e : ReclaimEnv) : Dev :=
  if e.outOk = false then dev
  else
    match reclaimPagesCmd k dev (getFunction funcId ecFunction) npages e with
    | none => dev
    | some out =>
      if npages < out.length then dev
      else
        let p := claimLoop k (getFunction funcId ecFunction) out dev 0
        countPages c p.1 funcId ecFunction (-p.2)

/-! ### The pages that firmware has -/

/-- A 4K page of a function, by the function and the number of the page. -/
abbrev Cell := ℕ × ℕ

/-- The device tracks the cleared bits `H`. -/
structure Rel (k : ℕ) (dev : Dev) (H : Finset Cell) : Prop where
  nodup : dev.tree.Nodup
  fresh : ∀ p ∈ dev.tree, p < dev.next
  rooted : ∀ p ∈ dev.tree, (dev.mem p).function ∈ dev.roots
  aligned : ∀ p ∈ dev.tree, (dev.mem p).addr % pageSize k = 0
  unique : ∀ p ∈ dev.tree, ∀ q ∈ dev.tree, (dev.mem p).addr = (dev.mem q).addr → p = q
  count : ∀ p ∈ dev.tree, (dev.mem p).freeCount = setBits (dev.mem p).bitmask (num4kInPage k)
  range : ∀ p ∈ dev.tree, ∀ n, (dev.mem p).bitmask n = true → n < num4kInPage k
  freeNodup : dev.freeList.Nodup
  free : ∀ p, p ∈ dev.freeList ↔ p ∈ dev.tree ∧ (dev.mem p).freeCount ≠ 0
  listOk : dev.listOk = true
  held : ∀ f u, (f, u) ∈ H ↔ ∃ p ∈ dev.tree, (dev.mem p).function = f ∧
    (dev.mem p).addr = u / num4kInPage k * pageSize k ∧
      (dev.mem p).bitmask (u % num4kInPage k) = false

/-- Every tracked page has a cleared bit. -/
def Tight (k : ℕ) (dev : Dev) : Prop := ∀ p ∈ dev.tree, (dev.mem p).freeCount < num4kInPage k

/-- The counters and the vports are the same. -/
def SameCounters (dev dev' : Dev) : Prop :=
  dev'.fwPages = dev.fwPages ∧ dev'.pageCounters = dev.pageCounters ∧ dev'.vports = dev.vports

section Pages

variable {k p n addr function u f : ℕ} {dev dev' : Dev} {H : Finset Cell}

theorem num_pos (k : ℕ) : 0 < num4kInPage k := Nat.two_pow_pos k

theorem SameCounters.refl (dev : Dev) : SameCounters dev dev := ⟨rfl, rfl, rfl⟩

theorem SameCounters.trans {dev'' : Dev} (h : SameCounters dev dev') (h' : SameCounters dev' dev'') :
    SameCounters dev dev'' :=
  ⟨h'.1.trans h.1, h'.2.1.trans h.2.1, h'.2.2.trans h.2.2⟩

/-- The number of a 4K page has the system page and the bit. -/
theorem cell_of_addr (ha : addr % pageSize k = 0) (hn : n < num4kInPage k) :
    (addr / 4096 + n) / num4kInPage k * pageSize k = addr ∧ (addr / 4096 + n) % num4kInPage k = n := by
  obtain ⟨q, rfl⟩ := Nat.dvd_of_mod_eq_zero ha
  have hdiv : pageSize k * q / 4096 = num4kInPage k * q := by
    unfold pageSize
    rw [Nat.mul_assoc, Nat.mul_div_cancel_left _ (by norm_num)]
  rw [hdiv]
  constructor
  · rw [Nat.mul_add_div (num_pos k), Nat.div_eq_of_lt hn, Nat.add_zero, Nat.mul_comm]
  · rw [Nat.mul_add_mod, Nat.mod_eq_of_lt hn]

theorem addr_of_cell (u k : ℕ) :
    u / num4kInPage k * pageSize k / 4096 + u % num4kInPage k = u ∧
      u / num4kInPage k * pageSize k + u % num4kInPage k * 4096 = u * 4096 := by
  have hu := Nat.div_add_mod u (num4kInPage k)
  have hmul : u / num4kInPage k * pageSize k = 4096 * (num4kInPage k * (u / num4kInPage k)) := by
    unfold pageSize
    rw [Nat.mul_comm, Nat.mul_assoc]
  omega

/-- An address has the base of its system page and the bit of its 4K page. -/
theorem base_of_addr (k addr : ℕ) :
    addr / 4096 / num4kInPage k * pageSize k = pageBase k addr ∧
      addr / 4096 % num4kInPage k = addr % pageSize k / 4096 := by
  unfold pageBase pageSize
  rw [Nat.div_div_eq_div_mul, Nat.mod_mul_right_div_self]
  exact ⟨rfl, rfl⟩

theorem findFwPage_some (h : findFwPage dev addr function = some p) :
    p ∈ dev.tree ∧ (dev.mem p).function = function ∧ (dev.mem p).addr = addr := by
  have hp := List.find?_some h
  exact ⟨List.mem_of_find?_eq_some h, by simpa using hp⟩

theorem findFwPage_none (h : findFwPage dev addr function = none) :
    ∀ p ∈ dev.tree, ¬ ((dev.mem p).function = function ∧ (dev.mem p).addr = addr) := by
  intro p hp hc
  have hno := List.find?_eq_none.mp h p hp
  simp [hc] at hno

/-- A bit of a tracked page is written: the tree and the other pages are as before. -/
structure Written (dev dev' : Dev) (p n : ℕ) (bit : Bool) : Prop where
  bits : (dev'.mem p).bitmask = update (dev.mem p).bitmask n bit
  same : ∀ q, (dev'.mem q).addr = (dev.mem q).addr ∧ (dev'.mem q).function = (dev.mem q).function
  other : ∀ q, q ≠ p → dev'.mem q = dev.mem q
  tree : dev'.tree = dev.tree
  roots : dev'.roots = dev.roots
  next : dev'.next = dev.next
  listOk : dev'.listOk = true

theorem Written.of_put {bit : Bool} {count : ℕ} (hmem : dev'.mem = update dev.mem p
      { dev.mem p with bitmask := update (dev.mem p).bitmask n bit, freeCount := count })
    (htree : dev'.tree = dev.tree) (hroots : dev'.roots = dev.roots) (hnext : dev'.next = dev.next)
    (hok : dev'.listOk = true) : Written dev dev' p n bit := by
  refine ⟨by rw [hmem, update_self], fun q => ?_, fun q hq => by rw [hmem, update_of_ne hq], htree,
    hroots, hnext, hok⟩
  rw [hmem]
  by_cases hq : q = p
  · rw [hq, update_self]
    exact ⟨rfl, rfl⟩
  · rw [update_of_ne hq]
    exact ⟨rfl, rfl⟩

section
variable (rel : Rel k dev H) (hp : p ∈ dev.tree)
include rel hp

/-- A 4K page of a tracked page is in the set exactly when its bit is cleared. -/
theorem Rel.held_iff (hn : n < num4kInPage k) :
    ((dev.mem p).function, (dev.mem p).addr / 4096 + n) ∈ H ↔ (dev.mem p).bitmask n = false := by
  obtain ⟨hbase, hbit⟩ := cell_of_addr (rel.aligned p hp) hn
  rw [rel.held, hbase, hbit]
  constructor
  · rintro ⟨q, hq, -, haddr, hq'⟩
    rwa [← rel.unique q hq p hp haddr]
  · exact fun h => ⟨p, hp, rfl, rfl, h⟩

/-- The 4K pages that are held, after a bit is written. -/
theorem Rel.written_held {bit : Bool} (wr : Written dev dev' p n bit) (hn : n < num4kInPage k)
    (g v : ℕ) :
    (if (g, v) = ((dev.mem p).function, (dev.mem p).addr / 4096 + n) then bit = false
      else (g, v) ∈ H) ↔
    ∃ q ∈ dev.tree, (dev.mem q).function = g ∧ (dev.mem q).addr = v / num4kInPage k * pageSize k ∧
      (dev'.mem q).bitmask (v % num4kInPage k) = false := by
  obtain ⟨hbase, hmod⟩ := cell_of_addr (rel.aligned p hp) hn
  split_ifs with heq
  · -- the 4K page itself: its page is the only one with this address
    obtain ⟨rfl, rfl⟩ := Prod.mk.inj heq
    rw [hbase, hmod]
    refine ⟨fun h => ⟨p, hp, rfl, rfl, by rw [wr.bits, update_self, h]⟩, ?_⟩
    rintro ⟨q, hq, -, haddr, hb⟩
    rw [rel.unique q hq p hp haddr, wr.bits, update_self] at hb
    exact hb
  · rw [rel.held]
    refine exists_congr fun q => and_congr_right fun hq => and_congr_right fun hf =>
      and_congr_right fun haddr => ?_
    by_cases hqp : q = p
    · subst hqp
      rw [wr.bits, update_of_ne]
      intro hv
      refine heq (Prod.ext hf.symm ?_)
      rw [haddr, ← hv, (addr_of_cell v k).1]
    · rw [wr.other q hqp]

/-- A bit is written: what is left to show is the count, the free list and the set. -/
theorem Rel.written {bit : Bool} {H' : Finset Cell} (wr : Written dev dev' p n bit)
    (hn : n < num4kInPage k)
    (hcount : (dev'.mem p).freeCount = setBits (dev'.mem p).bitmask (num4kInPage k))
    (hnodup : dev'.freeList.Nodup)
    (hfree : ∀ q, q ∈ dev'.freeList ↔ q ∈ dev.tree ∧ (dev'.mem q).freeCount ≠ 0)
    (hheld : ∀ x, x ∈ H' ↔ if x = ((dev.mem p).function, (dev.mem p).addr / 4096 + n)
      then bit = false else x ∈ H) :
    Rel k dev' H' := by
  refine ⟨wr.tree ▸ rel.nodup, ?_, ?_, ?_, ?_, ?_, ?_, hnodup, ?_, wr.listOk, ?_⟩
  all_goals rw [wr.tree]
  · rw [wr.next]
    exact rel.fresh
  · intro q hq
    rw [(wr.same q).2, wr.roots]
    exact rel.rooted q hq
  · intro q hq
    rw [(wr.same q).1]
    exact rel.aligned q hq
  · intro q hq q' hq' haddr
    rw [(wr.same q).1, (wr.same q').1] at haddr
    exact rel.unique q hq q' hq' haddr
  · intro q hq
    by_cases hqp : q = p
    · rw [hqp]
      exact hcount
    · rw [wr.other q hqp]
      exact rel.count q hq
  · intro q hq i hi
    by_cases hqp : q = p
    · subst hqp
      by_cases hin : i = n
      · rw [hin]
        exact hn
      · rw [wr.bits, update_of_ne hin] at hi
        exact rel.range q hp i hi
    · rw [wr.other q hqp] at hi
      exact rel.range q hq i hi
  · exact hfree
  · intro g v
    rw [hheld, rel.written_held hp wr hn]
    refine exists_congr fun q => ?_
    rw [(wr.same q).1, (wr.same q).2]

/-- The fields after a bit is cleared. -/
theorem Rel.take_fields (hfree : (dev.mem p).freeCount ≠ 0) :
    Written dev (take4k dev p n) p n false ∧ SameCounters dev (take4k dev p n) ∧
      ((take4k dev p n).mem p).freeCount = (dev.mem p).freeCount - 1 ∧
      (take4k dev p n).freeList =
        if (dev.mem p).freeCount - 1 = 0 then dev.freeList.erase p else dev.freeList := by
  have hok : (dev.listOk && decide (p ∈ dev.freeList)) = true := by
    rw [decide_eq_true ((rel.free p).mpr ⟨hp, hfree⟩), rel.listOk]
    rfl
  unfold take4k
  dsimp only
  split_ifs
  · exact ⟨.of_put rfl rfl rfl rfl hok, ⟨rfl, rfl, rfl⟩, by simp [Dev.listDel, Dev.put], rfl⟩
  · exact ⟨.of_put rfl rfl rfl rfl rel.listOk, ⟨rfl, rfl, rfl⟩, by simp [Dev.put], rfl⟩

/-- STEP: a bit is cleared. -/
theorem Rel.take (hbit : (dev.mem p).bitmask n = true) :
    Rel k (take4k dev p n) (insert ((dev.mem p).function, (dev.mem p).addr / 4096 + n) H) ∧
      ((dev.mem p).function, (dev.mem p).addr / 4096 + n) ∉ H ∧
      Written dev (take4k dev p n) p n false ∧ SameCounters dev (take4k dev p n) ∧
      ((take4k dev p n).mem p).freeCount < num4kInPage k := by
  have hn := rel.range p hp n hbit
  have hcount := rel.count p hp
  have hclear := setBits_clear hn hbit
  have hle := setBits_le (dev.mem p).bitmask (num4kInPage k)
  have hfree : (dev.mem p).freeCount ≠ 0 := by omega
  obtain ⟨wr, hsame, hself, hlist⟩ := rel.take_fields hp hfree (n := n)
  refine ⟨rel.written hp wr hn ?_ ?_ (fun q => ?_) (fun x => ?_), ?_, wr, hsame, by omega⟩
  · rw [hself, wr.bits]
    omega
  · rw [hlist]
    split_ifs
    · exact rel.freeNodup.erase p
    · exact rel.freeNodup
  · rw [hlist]
    by_cases hqp : q = p
    · subst hqp
      rw [hself]
      split_ifs with hzero
      · exact ⟨fun h => absurd h rel.freeNodup.not_mem_erase, fun h => absurd hzero h.2⟩
      · exact ⟨fun _ => ⟨hp, hzero⟩, fun _ => (rel.free q).mpr ⟨hp, hfree⟩⟩
    · rw [wr.other q hqp, ← rel.free q]
      split_ifs
      · exact List.mem_erase_of_ne hqp
      · exact Iff.rfl
  · rw [mem_insert]
    split_ifs with heq
    · exact ⟨fun _ => rfl, fun _ => .inl heq⟩
    · exact or_iff_right heq
  · rw [rel.held_iff hp hn, hbit]
    exact Bool.noConfusion

/-- A page is no longer tracked. -/
theorem Rel.untrack : Rel k (freeFwp dev p (decide ((dev.mem p).freeCount ≠ 0)))
      (H.filter fun x => ¬ (x.1 = (dev.mem p).function ∧
        x.2 / num4kInPage k * pageSize k = (dev.mem p).addr)) ∧
      (freeFwp dev p (decide ((dev.mem p).freeCount ≠ 0))).tree = dev.tree.erase p ∧
      (freeFwp dev p (decide ((dev.mem p).freeCount ≠ 0))).mem = dev.mem ∧
      SameCounters dev (freeFwp dev p (decide ((dev.mem p).freeCount ≠ 0))) := by
  generalize hres : freeFwp dev p (decide ((dev.mem p).freeCount ≠ 0)) = dev'
  have hroot : ¬ (dev.mem p).function ∉ dev.roots := not_not.mpr (rel.rooted p hp)
  unfold freeFwp at hres
  rw [if_neg hroot] at hres
  have hfields : dev'.tree = dev.tree.erase p ∧ dev'.mem = dev.mem ∧ dev'.next = dev.next ∧
      dev'.roots = dev.roots ∧ SameCounters dev dev' ∧
      dev'.freeList = (if (dev.mem p).freeCount ≠ 0 then dev.freeList.erase p
        else dev.freeList) ∧ dev'.listOk = true := by
    by_cases hzero : (dev.mem p).freeCount ≠ 0
    · rw [if_pos (decide_eq_true hzero)] at hres
      have hok : (dev.listOk && decide (p ∈ dev.freeList)) = true := by
        rw [decide_eq_true ((rel.free p).mpr ⟨hp, hzero⟩), rel.listOk]
        rfl
      rw [← hres, if_pos hzero]
      exact ⟨rfl, rfl, rfl, rfl, ⟨rfl, rfl, rfl⟩, rfl, hok⟩
    · rw [if_neg (by simpa using hzero)] at hres
      rw [← hres, if_neg hzero]
      exact ⟨rfl, rfl, rfl, rfl, ⟨rfl, rfl, rfl⟩, rfl, rel.listOk⟩
  obtain ⟨htree, hmem, hnext, hroots, hsame, hlist, hok⟩ := hfields
  have hsub : ∀ q, q ∈ dev'.tree ↔ q ≠ p ∧ q ∈ dev.tree := by
    intro q
    rw [htree]
    exact rel.nodup.mem_erase_iff
  have hold : ∀ q ∈ dev'.tree, q ∈ dev.tree := fun q hq => ((hsub q).mp hq).2
  refine ⟨⟨?_, ?_, ?_, ?_, ?_, ?_, ?_, ?_, ?_, hok, ?_⟩, htree, hmem, hsame⟩
  · rw [htree]
    exact rel.nodup.erase p
  · intro q hq
    rw [hnext]
    exact rel.fresh q (hold q hq)
  · intro q hq
    rw [hmem, hroots]
    exact rel.rooted q (hold q hq)
  · intro q hq
    rw [hmem]
    exact rel.aligned q (hold q hq)
  · intro q hq q' hq' haddr
    rw [hmem] at haddr
    exact rel.unique q (hold q hq) q' (hold q' hq') haddr
  · intro q hq
    rw [hmem]
    exact rel.count q (hold q hq)
  · intro q hq
    rw [hmem]
    exact rel.range q (hold q hq)
  · rw [hlist]
    split_ifs
    · exact rel.freeNodup.erase p
    · exact rel.freeNodup
  · intro q
    rw [hlist, hsub, hmem]
    by_cases hqp : q = p
    · subst hqp
      split_ifs with hzero
      · exact ⟨fun h => absurd h rel.freeNodup.not_mem_erase, fun h => absurd rfl h.1.1⟩
      · exact ⟨fun h => absurd ((rel.free q).mp h).2 hzero, fun h => absurd rfl h.1.1⟩
    · have hiff := rel.free q
      split_ifs
      · rw [List.mem_erase_of_ne hqp, hiff]
        exact ⟨fun h => ⟨⟨hqp, h.1⟩, h.2⟩, fun h => ⟨h.1.2, h.2⟩⟩
      · rw [hiff]
        exact ⟨fun h => ⟨⟨hqp, h.1⟩, h.2⟩, fun h => ⟨h.1.2, h.2⟩⟩
  · intro g v
    rw [Finset.mem_filter, rel.held, hmem]
    constructor
    · rintro ⟨⟨q, hq, hf, haddr, hb⟩, hnot⟩
      refine ⟨q, (hsub q).mpr ⟨?_, hq⟩, hf, haddr, hb⟩
      rintro rfl
      exact hnot ⟨hf.symm, haddr.symm⟩
    · rintro ⟨q, hq, hf, haddr, hb⟩
      obtain ⟨hqp, hq'⟩ := (hsub q).mp hq
      refine ⟨⟨q, hq', hf, haddr, hb⟩, fun hc => hqp (rel.unique q hq' p hp ?_)⟩
      exact haddr.trans hc.2

/-- STEP: a bit is set, the page stays. -/
theorem Rel.giveBit (hn : n < num4kInPage k) (hbit : (dev.mem p).bitmask n = false)
    (hdev : dev' = { dev.put p { dev.mem p with
      bitmask := update (dev.mem p).bitmask n true
      freeCount := (dev.mem p).freeCount + 1 } with
      freeList := if (dev.mem p).freeCount = 0 then p :: dev.freeList else dev.freeList }) :
    Rel k dev' (H.erase ((dev.mem p).function, (dev.mem p).addr / 4096 + n)) ∧
      Written dev dev' p n true ∧ (dev'.mem p).freeCount = (dev.mem p).freeCount + 1 := by
  have hcount := rel.count p hp
  have hset := setBits_set hn hbit
  have wr : Written dev dev' p n true := by
    rw [hdev]
    exact .of_put rfl rfl rfl rfl rel.listOk
  have hself : (dev'.mem p).freeCount = (dev.mem p).freeCount + 1 := by
    rw [hdev]
    exact congrArg FwPage.freeCount (update_self p _ dev.mem)
  have hlist : dev'.freeList =
      if (dev.mem p).freeCount = 0 then p :: dev.freeList else dev.freeList := by rw [hdev]
  refine ⟨rel.written hp wr hn ?_ ?_ (fun q => ?_) (fun x => ?_), wr, hself⟩
  · rw [hself, wr.bits]
    omega
  · rw [hlist]
    split_ifs with hzero
    · exact nodup_cons.mpr ⟨fun h => ((rel.free p).mp h).2 hzero, rel.freeNodup⟩
    · exact rel.freeNodup
  · rw [hlist]
    by_cases hqp : q = p
    · subst hqp
      rw [hself]
      refine ⟨fun _ => ⟨hp, Nat.succ_ne_zero _⟩, fun _ => ?_⟩
      split_ifs with hzero
      · exact mem_cons_self
      · exact (rel.free q).mpr ⟨hp, hzero⟩
    · rw [wr.other q hqp, ← rel.free q]
      split_ifs
      · rw [mem_cons]
        exact or_iff_right hqp
      · exact Iff.rfl
  · rw [mem_erase]
    split_ifs with heq
    · exact ⟨fun h => absurd heq h.1, False.elim⟩
    · exact and_iff_right heq

end

theorem all_set {g : ℕ → Bool} {N i : ℕ} (h : setBits g N = N) (hi : i < N) : g i = true := by
  by_contra hbit
  have hset := setBits_set hi (by simpa using hbit)
  have hle := setBits_le (update g i true) N
  omega

/-- STEP: a 4K page comes back. The last one frees the system page. -/
theorem Rel.give (rel : Rel k dev H) (tight : Tight k dev) (hp : p ∈ dev.tree)
    (hn : n < num4kInPage k) (hbit : (dev.mem p).bitmask n = false) :
    Rel k (give4k k dev p n) (H.erase ((dev.mem p).function, (dev.mem p).addr / 4096 + n)) ∧
      Tight k (give4k k dev p n) ∧ SameCounters dev (give4k k dev p n) := by
  have hlt := tight p hp
  generalize hdev : ({ dev.put p { dev.mem p with
      bitmask := update (dev.mem p).bitmask n true
      freeCount := (dev.mem p).freeCount + 1 } with
      freeList := if (dev.mem p).freeCount = 0 then p :: dev.freeList else dev.freeList } :
    Dev) = dev₁
  obtain ⟨rel₁, ⟨-, -, hother, htree, -, -, -⟩, hself⟩ := rel.giveBit hp hn hbit hdev.symm
  by_cases hall : (dev.mem p).freeCount + 1 = num4kInPage k
  · -- the system page goes
    have hp₁ : p ∈ dev₁.tree := htree ▸ hp
    have hcount : (dev₁.mem p).freeCount ≠ 0 := by
      rw [hself]
      exact Nat.succ_ne_zero _
    have heq : give4k k dev p n = freeFwp dev₁ p (decide ((dev₁.mem p).freeCount ≠ 0)) := by
      rw [decide_eq_true hcount]
      unfold give4k
      rw [if_pos hall]
      by_cases hzero : (dev.mem p).freeCount = 0
      · have hflag : decide ((dev.mem p).freeCount + 1 ≠ 1) = false :=
          decide_eq_false (by omega)
        rw [hflag, ← hdev, if_pos hzero]
        simp [freeFwp, Dev.put, Dev.listDel, rel.rooted p hp]
      · have hflag : decide ((dev.mem p).freeCount + 1 ≠ 1) = true :=
          decide_eq_true (by omega)
        rw [hflag, ← hdev, if_neg hzero]
        rfl
    obtain ⟨hrel, htree', hmem', hsame⟩ := rel₁.untrack hp₁
    have hfilter : (H.erase ((dev.mem p).function, (dev.mem p).addr / 4096 + n)).filter
        (fun x => ¬ (x.1 = (dev₁.mem p).function ∧
          x.2 / num4kInPage k * pageSize k = (dev₁.mem p).addr)) =
        H.erase ((dev.mem p).function, (dev.mem p).addr / 4096 + n) := by
      refine filter_true_of_mem fun x hx hc => ?_
      obtain ⟨q, hq, -, haddr, hb⟩ := (rel₁.held x.1 x.2).mp hx
      obtain rfl := rel₁.unique q hq p hp₁ (haddr.trans hc.2)
      have hfull : setBits (dev₁.mem q).bitmask (num4kInPage k) = num4kInPage k := by
        rw [← rel₁.count q hq, hself]
        exact hall
      rw [all_set hfull (Nat.mod_lt _ (num_pos k))] at hb
      cases hb
    rw [hfilter, ← heq] at hrel
    rw [← heq] at htree' hmem' hsame
    refine ⟨hrel, fun q hq => ?_, ⟨?_, ?_, ?_⟩⟩
    · rw [htree'] at hq
      obtain ⟨hqp, hq⟩ := rel₁.nodup.mem_erase_iff.mp hq
      rw [hmem', hother q hqp]
      exact tight q (htree ▸ hq)
    · exact hsame.1.trans (by rw [← hdev]; rfl)
    · exact hsame.2.1.trans (by rw [← hdev]; rfl)
    · exact hsame.2.2.trans (by rw [← hdev]; rfl)
  · have heq : give4k k dev p n = dev₁ := by
      unfold give4k
      rw [if_neg hall, ← hdev]
      by_cases hzero : (dev.mem p).freeCount = 0
      · rw [if_pos (by omega), if_pos hzero]
        rfl
      · rw [if_neg (by omega), if_neg hzero]
        rfl
    rw [heq]
    refine ⟨rel₁, fun q hq => ?_, by rw [← hdev]; exact ⟨rfl, rfl, rfl⟩⟩
    by_cases hqp : q = p
    · rw [hqp, hself]
      omega
    · rw [hother q hqp]
      exact tight q (htree ▸ hq)

/-- `free_4k` erases the 4K page of the address, and returns 0 exactly when firmware had it. -/
theorem Rel.free4k (rel : Rel k dev H) (tight : Tight k dev) (addr function : ℕ) :
    Rel k (free4k k dev addr function).1 (H.erase (function, addr / 4096)) ∧
      Tight k (PageAlloc.free4k k dev addr function).1 ∧
      SameCounters dev (PageAlloc.free4k k dev addr function).1 ∧
      ((PageAlloc.free4k k dev addr function).2 = true ↔ (function, addr / 4096) ∈ H) := by
  obtain ⟨hbase, hmod⟩ := base_of_addr k addr
  unfold PageAlloc.free4k
  rcases hfind : findFwPage dev (pageBase k addr) function with _ | p
  · have hnone := findFwPage_none hfind
    have hnot : (function, addr / 4096) ∉ H := by
      rw [rel.held, hbase]
      rintro ⟨p, hp, hf, haddr, -⟩
      exact hnone p hp ⟨hf, haddr⟩
    rw [Finset.erase_eq_of_notMem hnot]
    exact ⟨rel, tight, SameCounters.refl dev, fun h => (by cases h), fun h => absurd h hnot⟩
  · obtain ⟨hp, hf, haddr⟩ := findFwPage_some hfind
    have hn : addr % pageSize k / 4096 < num4kInPage k := by
      rw [← hmod]
      exact Nat.mod_lt _ (num_pos k)
    have hcell : ((dev.mem p).function, (dev.mem p).addr / 4096 + addr % pageSize k / 4096) =
        (function, addr / 4096) := by
      rw [hf, haddr, ← hbase, ← hmod, (addr_of_cell (addr / 4096) k).1]
    have hiff := rel.held_iff hp hn
    rw [hcell] at hiff
    dsimp only
    by_cases hbit : (dev.mem p).bitmask (addr % pageSize k / 4096) = true
    · have hnot : (function, addr / 4096) ∉ H := by
        rw [hiff, hbit]
        exact Bool.noConfusion
      rw [if_pos hbit, Finset.erase_eq_of_notMem hnot]
      exact ⟨rel, tight, SameCounters.refl dev, fun h => (by cases h), fun h => absurd h hnot⟩
    · have hbit' : (dev.mem p).bitmask (addr % pageSize k / 4096) = false := by simpa using hbit
      obtain ⟨hrel, htight, hsame⟩ := rel.give tight hp hn hbit'
      rw [hcell] at hrel
      rw [if_neg hbit]
      exact ⟨hrel, htight, hsame, fun _ => hiff.mpr hbit', fun _ => rfl⟩

theorem setBits_all (N : ℕ) : setBits (fun n => decide (n < N)) N = N := by
  unfold setBits
  rw [filter_true_of_mem fun i hi => decide_eq_true (Finset.mem_range.mp hi),
    card_range]

/-- A root more. -/
theorem Rel.addRoot (rel : Rel k dev H) (function : ℕ) :
    Rel k { dev with roots := dev.roots.insert function } H :=
  { rel with rooted := fun p hp => List.mem_insert_of_mem (rel.rooted p hp) }

/-- STEP: a system page is tracked, none of it is cleared. -/
theorem Rel.insert (rel : Rel k dev H) (hal : addr % pageSize k = 0)
    (hnew : ∀ p ∈ dev.tree, (dev.mem p).addr ≠ addr) {rootOk nodeOk : Bool} :
    match insertPage k dev addr function rootOk nodeOk with
    | (dev', false) => Rel k dev' H ∧ dev'.tree = dev.tree ∧ dev'.mem = dev.mem ∧
      SameCounters dev dev'
    | (dev', true) => Rel k dev' H ∧ SameCounters dev dev' ∧
      (∀ q, q ∈ dev'.tree ↔ q = dev.next ∨ q ∈ dev.tree) ∧
      dev'.freeList = dev.next :: dev.freeList ∧ (dev'.mem dev.next).function = function ∧
      (dev'.mem dev.next).addr = addr ∧
      (dev'.mem dev.next).bitmask = (fun n => decide (n < num4kInPage k)) ∧
      ∀ q ∈ dev.tree, dev'.mem q = dev.mem q := by
  unfold insertPage
  by_cases hroot : function ∉ dev.roots ∧ rootOk = false
  · rw [if_pos hroot]
    exact ⟨rel, rfl, rfl, SameCounters.refl dev⟩
  · rw [if_neg hroot]
    split_ifs with hfail
    · exact ⟨rel.addRoot function, rfl, rfl, rfl, rfl, rfl⟩
    · dsimp only
      generalize hmem : update dev.mem dev.next ⟨addr, function,
        fun n => decide (n < num4kInPage k), num4kInPage k⟩ = mem
      have hself : mem dev.next = ⟨addr, function, fun n => decide (n < num4kInPage k),
          num4kInPage k⟩ := by
        rw [← hmem, update_self]
      have hnext : dev.next ∉ dev.tree := fun h => (rel.fresh _ h).false
      have hother : ∀ q ∈ dev.tree, mem q = dev.mem q := by
        intro q hq
        rw [← hmem, update_of_ne]
        rintro rfl
        exact hnext hq
      have htree : ∀ q, q ∈ treeInsert mem dev.next dev.tree ↔ q = dev.next ∨ q ∈ dev.tree :=
        fun q => List.mem_orderedInsert _
      have hperm := List.perm_orderedInsert (fun p q => (mem q).addr ≤ (mem p).addr) dev.next
        dev.tree
      refine ⟨⟨hperm.nodup_iff.mpr (nodup_cons.mpr ⟨hnext, rel.nodup⟩), ?_, ?_, ?_, ?_, ?_,
        ?_, ?_, ?_, rel.listOk, ?_⟩, ⟨rfl, rfl, rfl⟩, htree, rfl, by rw [hself], by rw [hself],
        by rw [hself], hother⟩
      all_goals dsimp only
      · intro q hq
        rcases (htree q).mp hq with rfl | hq
        · exact Nat.lt_succ_self _
        · exact Nat.lt_succ_of_lt (rel.fresh q hq)
      · intro q hq
        rcases (htree q).mp hq with rfl | hq
        · rw [hself]
          exact List.mem_insert_self
        · rw [hother q hq]
          exact List.mem_insert_of_mem (rel.rooted q hq)
      · intro q hq
        rcases (htree q).mp hq with rfl | hq
        · rw [hself]
          exact hal
        · rw [hother q hq]
          exact rel.aligned q hq
      · intro q hq q' hq' heq
        rcases (htree q).mp hq with rfl | hq
        · rcases (htree q').mp hq' with rfl | hq'
          · rfl
          · rw [hself, hother q' hq'] at heq
            exact absurd heq.symm (hnew q' hq')
        · rcases (htree q').mp hq' with rfl | hq'
          · rw [hself, hother q hq] at heq
            exact absurd heq (hnew q hq)
          · rw [hother q hq, hother q' hq'] at heq
            exact rel.unique q hq q' hq' heq
      · intro q hq
        rcases (htree q).mp hq with rfl | hq
        · rw [hself]
          exact (setBits_all _).symm
        · rw [hother q hq]
          exact rel.count q hq
      · intro q hq n hn
        rcases (htree q).mp hq with rfl | hq
        · rw [hself] at hn
          exact of_decide_eq_true hn
        · rw [hother q hq] at hn
          exact rel.range q hq n hn
      · exact nodup_cons.mpr ⟨fun h => hnext ((rel.free _).mp h).1, rel.freeNodup⟩
      · intro q
        rw [mem_cons, htree]
        by_cases hq : q = dev.next
        · subst hq
          rw [hself]
          exact ⟨fun _ => ⟨.inl rfl, (num_pos k).ne'⟩, fun _ => .inl rfl⟩
        · rw [or_iff_right hq, or_iff_right hq, rel.free]
          constructor
          · rintro ⟨hq', hne⟩
            exact ⟨hq', by rwa [hother q hq']⟩
          · rintro ⟨hq', hne⟩
            exact ⟨hq', by rwa [hother q hq'] at hne⟩
      · intro g v
        rw [rel.held]
        constructor
        · rintro ⟨q, hq, hf, haddr, hb⟩
          refine ⟨q, (htree q).mpr (.inr hq), ?_⟩
          rw [hother q hq]
          exact ⟨hf, haddr, hb⟩
        · rintro ⟨q, hq, hf, haddr, hb⟩
          rcases (htree q).mp hq with rfl | hq
          · rw [hself] at hb
            exact absurd (Nat.mod_lt v (num_pos k)) (of_decide_eq_false hb)
          · rw [hother q hq] at hf haddr hb
            exact ⟨q, hq, hf, haddr, hb⟩

/-- What `alloc_4k` does: it clears a bit of a page of the function on the free list. -/
theorem alloc4k_cases (rel : Rel k dev H) (hk : k ≤ 6) (function : ℕ) :
    (alloc4k k dev function = .enomem ∧ ∀ p ∈ dev.freeList, (dev.mem p).function ≠ function) ∨
    ∃ p n, p ∈ dev.freeList ∧ (dev.mem p).function = function ∧ (dev.mem p).bitmask n = true ∧
      alloc4k k dev function = .done (take4k dev p n) ((dev.mem p).addr + n * 4096) := by
  unfold alloc4k
  rcases hlast : (dev.freeList.filter fun p => (dev.mem p).function = function).getLast? with _ | p
  · left
    refine ⟨rfl, fun p hp hf => ?_⟩
    have hnil := List.getLast?_eq_none_iff.mp hlast
    have hmem : p ∈ dev.freeList.filter fun p => (dev.mem p).function = function :=
      mem_filter.mpr ⟨hp, decide_eq_true hf⟩
    rw [hnil] at hmem
    cases hmem
  · right
    have hmem := mem_filter.mp (List.mem_of_getLast? hlast)
    obtain ⟨hp, hne⟩ := (rel.free p).mp hmem.1
    have hset : ∃ i < 64, (dev.mem p).bitmask i = true := by
      by_contra hnone
      rw [rel.count p hp] at hne
      refine hne (setBits_eq_zero.mpr fun i hi => ?_)
      by_contra hbit
      have hpow : num4kInPage k ≤ 2 ^ 6 := Nat.pow_le_pow_right (by norm_num) hk
      exact hnone ⟨i, by omega, by simpa using hbit⟩
    have hbit := (findFirstBit_spec hset).2
    have hn := rel.range p hp _ hbit
    refine ⟨p, findFirstBit (dev.mem p).bitmask 64, hmem.1, of_decide_eq_true hmem.2, hbit, ?_⟩
    dsimp only
    rw [if_neg (by omega)]

/-- What a DMA mapping promises: aligned addresses that are not those of mapped pages, and no two the
    same. -/
def Fresh (k : ℕ) (dev : Dev) (env : List PageEnv) : Prop :=
  (env.filterMap PageEnv.addr).Nodup ∧ ∀ a ∈ env.filterMap PageEnv.addr,
    a % pageSize k = 0 ∧ ∀ p ∈ dev.tree, (dev.mem p).addr ≠ a

theorem Fresh.tail {e : PageEnv} {env : List PageEnv} (h : Fresh k dev (e :: env)) :
    Fresh k dev env := by
  have hsub : (env.filterMap PageEnv.addr).Sublist ((e :: env).filterMap PageEnv.addr) :=
    (List.sublist_cons_self e env).filterMap _
  exact ⟨h.1.sublist hsub, fun a ha => h.2 a (hsub.subset ha)⟩

/-- The 4K page that `alloc_4k` hands out. -/
theorem take_addr (rel : Rel k dev H) (hp : p ∈ dev.tree) (hn : n < num4kInPage k) :
    (dev.mem p).addr + n * 4096 = ((dev.mem p).addr / 4096 + n) * 4096 := by
  obtain ⟨hbase, hmod⟩ := cell_of_addr (rel.aligned p hp) hn
  have h := (addr_of_cell ((dev.mem p).addr / 4096 + n) k).2
  rwa [hbase, hmod] at h

/-- A 4K page more is cleared, or all is as before. -/
def Got (k function : ℕ) (dev dev' : Dev) (H : Finset Cell) (env : List PageEnv) :
    Option ℕ → Prop
  | none => Rel k dev' H ∧ Tight k dev' ∧ SameCounters dev dev'
  | some a => ∃ u, a = u * 4096 ∧ (function, u) ∉ H ∧ Rel k dev' (insert (function, u) H) ∧
    Tight k dev' ∧ SameCounters dev dev' ∧ Fresh k dev' env

theorem Rel.got_take (rel : Rel k dev H) {env : List PageEnv} (fresh : Fresh k dev env)
    (hp : p ∈ dev.tree) (hbit : (dev.mem p).bitmask n = true)
    (htight : ∀ q ∈ dev.tree, q ≠ p → (dev.mem q).freeCount < num4kInPage k) :
    Got k (dev.mem p).function dev (take4k dev p n) H env (some ((dev.mem p).addr + n * 4096)) := by
  obtain ⟨hrel, hnot, ⟨-, haddr, hother, htree, -, -, -⟩, hsame, hlt⟩ := rel.take hp hbit
  refine ⟨_, take_addr rel hp (rel.range p hp n hbit), hnot, hrel, fun q hq => ?_, hsame, fresh.1,
    fun a ha => ⟨(fresh.2 a ha).1, fun q hq => ?_⟩⟩
  · rw [htree] at hq
    by_cases hqp : q = p
    · rw [hqp]
      exact hlt
    · rw [hother q hqp]
      exact htight q hq hqp
  · rw [(haddr q).1]
    exact (fresh.2 a ha).2 q (htree ▸ hq)

/-- STEP: one page of `give_pages`. -/
theorem getOne_run (rel : Rel k dev H) (tight : Tight k dev) (hk : k ≤ 6) {env : List PageEnv}
    (fresh : Fresh k dev env) :
    Got k function dev (getOne k function env dev).1 H (getOne k function env dev).2.1
      (getOne k function env dev).2.2 := by
  rcases alloc4k_cases rel hk function with ⟨hnomem, hnone⟩ | ⟨p, n, hp, hf, hbit, hdone⟩
  · -- a system page is needed
    rcases env with _ | ⟨e, env⟩
    · unfold getOne
      rw [hnomem]
      exact ⟨rel, tight, SameCounters.refl dev⟩
    · unfold getOne allocSystemPage
      rw [hnomem]
      dsimp only
      rcases haddr : e.addr with _ | addr
      · exact ⟨rel, tight, SameCounters.refl dev⟩
      · have hmem : addr ∈ (e :: env).filterMap PageEnv.addr := by simp [haddr]
        obtain ⟨hal, hnew⟩ := fresh.2 addr hmem
        have hins := @Rel.insert _ _ function _ _ rel hal hnew e.rootOk e.nodeOk
        dsimp only
        rcases hres : insertPage k dev addr function e.rootOk e.nodeOk with ⟨dev₁, _ | _⟩
        · rw [hres] at hins
          obtain ⟨rel₁, htree, hmem₁, hsame⟩ := hins
          refine ⟨rel₁, fun q hq => ?_, hsame⟩
          rw [hmem₁]
          exact tight q (htree ▸ hq)
        · rw [hres] at hins
          obtain ⟨rel₁, hsame, htree, hlist, hfun, haddr₁, hbits, hother⟩ := hins
          have fresh₁ : Fresh k dev₁ env := by
            refine ⟨fresh.tail.1, fun a ha => ⟨(fresh.tail.2 a ha).1, fun q hq => ?_⟩⟩
            rcases (htree q).mp hq with rfl | hq
            · rw [haddr₁]
              rintro rfl
              have hnd := fresh.1
              rw [List.filterMap_cons_some haddr] at hnd
              exact (nodup_cons.mp hnd).1 ha
            · rw [hother q hq]
              exact (fresh.tail.2 a ha).2 q hq
          have hin : dev.next ∈ dev₁.tree := (htree _).mpr (.inl rfl)
          dsimp only
          rcases alloc4k_cases rel₁ hk function with ⟨-, hnone₁⟩ | ⟨p, n, hp, hf, hbit, hdone⟩
          · exact absurd hfun (hnone₁ _ (hlist ▸ mem_cons_self))
          · -- nothing else of the function is on the free list
            obtain rfl : p = dev.next := by
              rw [hlist] at hp
              rcases mem_cons.mp hp with rfl | hp
              · rfl
              · have hold := ((rel.free p).mp hp).1
                rw [hother p hold] at hf
                exact absurd hf (hnone p hp)
            have hgot := rel₁.got_take fresh₁ hin hbit fun q hq hqp => by
              have hold := ((htree q).mp hq).resolve_left hqp
              rw [hother q hold]
              exact tight q hold
            unfold getOne
            rw [hdone]
            obtain ⟨u, hu, hnot, hrel, htight, hsame', hfresh⟩ := hgot
            rw [hfun] at hnot hrel
            exact ⟨u, hu, hnot, hrel, htight, hsame.trans hsame', hfresh⟩
  · have hin := ((rel.free p).mp hp).1
    have hgot := rel.got_take fresh hin hbit fun q hq _ => tight q hq
    unfold getOne
    rw [hdone]
    rwa [hf] at hgot

end Pages

/-! ### The three loops -/

/-- The 4K pages of addresses. -/
def cells (function : ℕ) (pas : List ℕ) : List Cell := pas.map fun a => (function, a / 4096)

/-- After some iterations of `give_pages` the pages of `pas` are cleared, which were not before. -/
structure Filled (k function : ℕ) (dev₀ dev : Dev) (H : Finset Cell) (pas : List ℕ) : Prop where
  rel : Rel k dev (H ∪ (cells function pas).toFinset)
  tight : Tight k dev
  same : SameCounters dev₀ dev
  nodup : (cells function pas).Nodup
  disjoint : ∀ x ∈ cells function pas, x ∉ H

section Loops

variable {k function : ℕ} {dev dev₀ : Dev} {H : Finset Cell}

/-- RUN: the loop of `give_pages`. -/
theorem fillPages_run (hk : k ≤ 6) : ∀ (n time : ℕ) {env : List PageEnv} {pas : List ℕ} {dev : Dev},
    Filled k function dev₀ dev H pas → Fresh k dev env →
      Filled k function dev₀ (fillPages k function n time env pas dev).1 H
        (fillPages k function n time env pas dev).2.1 ∧
      ((fillPages k function n time env pas dev).2.2 = true →
        (fillPages k function n time env pas dev).2.1.length = pas.length + n)
  | 0, _, _, _, _, filled, _ => ⟨filled, fun _ => rfl⟩
  | _ + 1, 0, _, _, _, filled, _ => ⟨filled, fun h => (by cases h)⟩
  | n + 1, time + 1, env, pas, dev, filled, fresh => by
    have hgot := @getOne_run _ function _ _ filled.rel filled.tight hk _ fresh
    unfold fillPages
    rcases hres : getOne k function env dev with ⟨dev₁, env₁, _ | addr⟩
    · rw [hres] at hgot
      obtain ⟨hrel, htight, hsame⟩ := hgot
      exact ⟨⟨hrel, htight, filled.same.trans hsame, filled.nodup, filled.disjoint⟩,
        fun h => (by cases h)⟩
    · rw [hres] at hgot
      obtain ⟨u, rfl, hnot, hrel, htight, hsame, hfresh⟩ := hgot
      obtain ⟨hnotH, hnotS⟩ := not_or.mp fun h => hnot (Finset.mem_union.mpr h)
      have hcells : cells function (pas ++ [u * 4096]) = cells function pas ++ [(function, u)] := by
        simp [cells]
      have hset : H ∪ (cells function (pas ++ [u * 4096])).toFinset =
          insert (function, u) (H ∪ (cells function pas).toFinset) := by
        ext x
        simp only [hcells, Finset.mem_union, mem_toFinset, List.mem_append,
          mem_singleton, mem_insert]
        tauto
      have hfilled : Filled k function dev₀ dev₁ H (pas ++ [u * 4096]) := by
        refine ⟨hset ▸ hrel, htight, filled.same.trans hsame, ?_, fun x hx => ?_⟩
        · rw [hcells]
          exact filled.nodup.append (List.nodup_singleton _) fun x hx hx' =>
            hnotS (mem_toFinset.mpr (mem_singleton.mp hx' ▸ hx))
        · rw [hcells] at hx
          rcases List.mem_append.mp hx with hx | hx
          · exact filled.disjoint x hx
          · rw [mem_singleton.mp hx]
            exact hnotH
      obtain ⟨hfin, hlen⟩ := fillPages_run hk n time hfilled hfresh
      refine ⟨hfin, fun h => (hlen h).trans ?_⟩
      rw [List.length_append, List.length_singleton]
      omega

/-- RUN: what was handed out comes back. -/
theorem dropLoop_run : ∀ {pas : List ℕ} {dev : Dev}, Filled k function dev₀ dev H pas →
    Rel k (pas.foldl (fun dev addr => (free4k k dev addr function).1) dev) H ∧
      Tight k (pas.foldl (fun dev addr => (free4k k dev addr function).1) dev) ∧
      SameCounters dev₀ (pas.foldl (fun dev addr => (free4k k dev addr function).1) dev)
  | [], dev, filled => by
    have hset : H ∪ (cells function []).toFinset = H := Finset.union_empty H
    have hrel := filled.rel
    rw [hset] at hrel
    exact ⟨hrel, filled.tight, filled.same⟩
  | addr :: pas, dev, filled => by
    obtain ⟨hrel, htight, hsame, -⟩ := filled.rel.free4k filled.tight addr function
    have hnd := nodup_cons.mp filled.nodup
    have hnotH := filled.disjoint _ mem_cons_self
    have hset : (H ∪ (cells function (addr :: pas)).toFinset).erase (function, addr / 4096) =
        H ∪ (cells function pas).toFinset := by
      ext x
      simp only [cells, map_cons, List.toFinset_cons, mem_erase, Finset.mem_union,
        mem_insert, mem_toFinset]
      constructor
      · rintro ⟨hne, hx | hx | hx⟩
        · exact .inl hx
        · exact absurd hx hne
        · exact .inr hx
      · rintro (hx | hx)
        · refine ⟨?_, .inl hx⟩
          rintro rfl
          exact hnotH hx
        · refine ⟨?_, .inr (.inr hx)⟩
          rintro rfl
          exact hnd.1 hx
    rw [hset] at hrel
    have hrest : Filled k function dev₀ (free4k k dev addr function).1 H pas :=
      ⟨hrel, htight, filled.same.trans hsame, hnd.2,
        fun x hx => filled.disjoint x (List.mem_cons_of_mem _ hx)⟩
    have hrun := dropLoop_run hrest
    exact hrun

theorem dropPages_run {pas : List ℕ} (filled : Filled k function dev₀ dev H pas) :
    Rel k (dropPages k function pas dev) H ∧ Tight k (dropPages k function pas dev) ∧
      SameCounters dev₀ (dropPages k function pas dev) := by
  have hcells : cells function pas.reverse = (cells function pas).reverse := List.map_reverse
  refine dropLoop_run ⟨?_, filled.tight, filled.same, ?_, fun x hx => ?_⟩
  · rw [hcells, List.toFinset_reverse]
    exact filled.rel
  · rw [hcells]
    exact List.nodup_reverse.mpr filled.nodup
  · rw [hcells] at hx
    exact filled.disjoint x (List.mem_reverse.mp hx)

/-- RUN: the loop of `reclaim_pages` counts what it takes. -/
theorem claimLoop_run : ∀ (l : List ℕ) {dev : Dev} {H : Finset Cell} (claimed : ℤ), Rel k dev H →
    Tight k dev → Rel k (claimLoop k function l dev claimed).1 (H \ (cells function l).toFinset) ∧
      Tight k (claimLoop k function l dev claimed).1 ∧
      SameCounters dev (claimLoop k function l dev claimed).1 ∧
      (claimLoop k function l dev claimed).2 =
        claimed + H.card - (H \ (cells function l).toFinset).card
  | [], dev, H, claimed, rel, tight => by
    have hset : H \ (cells function []).toFinset = H := Finset.sdiff_empty
    rw [hset]
    refine ⟨rel, tight, SameCounters.refl dev, ?_⟩
    change claimed = _
    omega
  | addr :: l, dev, H, claimed, rel, tight => by
    obtain ⟨hrel, htight, hsame, hiff⟩ := rel.free4k tight addr function
    have hset : H \ (cells function (addr :: l)).toFinset =
        H.erase (function, addr / 4096) \ (cells function l).toFinset := by
      ext x
      simp only [cells, map_cons, List.toFinset_cons, Finset.mem_sdiff, mem_insert,
        mem_erase]
      tauto
    rw [hset]
    unfold claimLoop
    rcases hres : free4k k dev addr function with ⟨dev₁, _ | _⟩
    all_goals
      rw [hres] at hrel htight hsame hiff
    · have hnot : (function, addr / 4096) ∉ H := fun h => Bool.false_ne_true (hiff.mpr h)
      obtain ⟨hrun, htrun, hsrun, hcount⟩ := claimLoop_run l claimed hrel htight
      refine ⟨hrun, htrun, hsame.trans hsrun, hcount.trans ?_⟩
      rw [Finset.erase_eq_of_notMem hnot]
    · have hin : (function, addr / 4096) ∈ H := hiff.mp rfl
      obtain ⟨hrun, htrun, hsrun, hcount⟩ := claimLoop_run l (claimed + 1) hrel htight
      have hcard := Finset.card_erase_add_one hin
      refine ⟨hrun, htrun, hsame.trans hsrun, hcount.trans ?_⟩
      omega

/-- The cleared bits of a page. -/
theorem page_card (rel : Rel k dev H) {p : ℕ} (hp : p ∈ dev.tree) :
    (H.filter fun x => x.1 = (dev.mem p).function ∧
      x.2 / num4kInPage k * pageSize k = (dev.mem p).addr).card + (dev.mem p).freeCount =
        num4kInPage k := by
  have himage : (H.filter fun x => x.1 = (dev.mem p).function ∧
      x.2 / num4kInPage k * pageSize k = (dev.mem p).addr) =
      ((range (num4kInPage k)).filter fun n => ¬ (dev.mem p).bitmask n = true).image
        fun n => ((dev.mem p).function, (dev.mem p).addr / 4096 + n) := by
    ext ⟨f, u⟩
    simp only [Finset.mem_filter, Finset.mem_image, Finset.mem_range, Bool.not_eq_true,
      Prod.mk.injEq]
    constructor
    · rintro ⟨hx, rfl, haddr⟩
      obtain ⟨q, hq, -, haddr', hb⟩ := (rel.held _ u).mp hx
      obtain rfl := rel.unique q hq p hp (haddr'.trans haddr)
      refine ⟨u % num4kInPage k, ⟨Nat.mod_lt _ (num_pos k), hb⟩, rfl, ?_⟩
      rw [← haddr]
      exact (addr_of_cell u k).1
    · rintro ⟨n, ⟨hn, hb⟩, rfl, rfl⟩
      exact ⟨(rel.held_iff hp hn).mpr hb, rfl, (cell_of_addr (rel.aligned p hp) hn).1⟩
  have hinj : Set.InjOn (fun n => ((dev.mem p).function, (dev.mem p).addr / 4096 + n))
      ((range (num4kInPage k)).filter fun n => ¬ (dev.mem p).bitmask n = true) := by
    intro n _ n' _ heq
    have := (Prod.mk.inj heq).2
    omega
  have hsplit := Finset.card_filter_add_card_filter_not (s := range (num4kInPage k))
    fun n => (dev.mem p).bitmask n = true
  rw [card_range] at hsplit
  rw [himage, Finset.card_image_of_injOn hinj, rel.count p hp]
  unfold setBits
  omega

/-- RUN: all pages of a list are released and counted. -/
theorem releaseLoop_run : ∀ (l : List ℕ) {dev : Dev} {H : Finset Cell} (npages : ℤ), Rel k dev H →
    Tight k dev → l.Nodup → (∀ p ∈ l, p ∈ dev.tree) → ∃ H' ⊆ H,
      Rel k (releaseLoop k l dev npages).1 H' ∧ Tight k (releaseLoop k l dev npages).1 ∧
      SameCounters dev (releaseLoop k l dev npages).1 ∧
      (releaseLoop k l dev npages).2 = npages + H.card - H'.card ∧
      ∀ x ∈ H, x ∈ H' ↔ ∀ p ∈ l, ¬ (x.1 = (dev.mem p).function ∧
        x.2 / num4kInPage k * pageSize k = (dev.mem p).addr)
  | [], dev, H, npages, rel, tight, _, _ => by
    refine ⟨H, Finset.Subset.refl H, rel, tight, SameCounters.refl dev, ?_, fun x hx => ?_⟩
    · change npages = _
      omega
    · exact ⟨fun _ p hp => (by cases hp), fun _ => hx⟩
  | p :: l, dev, H, npages, rel, tight, hnd, hl => by
    have hp := hl p mem_cons_self
    obtain ⟨hrel, htree, hmem, hsame⟩ := rel.untrack hp
    obtain ⟨hpl, hnd'⟩ := nodup_cons.mp hnd
    unfold releaseLoop
    generalize freeFwp dev p (decide ((dev.mem p).freeCount ≠ 0)) = dev₁ at *
    have htight : Tight k dev₁ := by
      intro q hq
      rw [hmem]
      exact tight q (List.mem_of_mem_erase (htree ▸ hq))
    have hl' : ∀ q ∈ l, q ∈ dev₁.tree := by
      intro q hq
      rw [htree, rel.nodup.mem_erase_iff]
      exact ⟨fun h => hpl (h ▸ hq), hl q (List.mem_cons_of_mem p hq)⟩
    obtain ⟨H', hsub, hrun, htrun, hsrun, hcount, hiff⟩ := releaseLoop_run l
      (npages + (num4kInPage k - (dev.mem p).freeCount : ℤ)) hrel htight hnd' hl'
    refine ⟨H', hsub.trans (Finset.filter_subset ..), hrun, htrun, hsame.trans hsrun,
      hcount.trans ?_, fun x hx => ?_⟩
    · have hcard := page_card rel hp
      have hsplit := Finset.card_filter_add_card_filter_not (s := H) fun x =>
        x.1 = (dev.mem p).function ∧ x.2 / num4kInPage k * pageSize k = (dev.mem p).addr
      omega
    · rw [List.forall_mem_cons]
      constructor
      · intro hx'
        have hx₁ := hsub hx'
        refine ⟨(Finset.mem_filter.mp hx₁).2, ?_⟩
        rw [← hmem]
        exact (hiff x hx₁).mp hx'
      · rintro ⟨hxp, hxl⟩
        rw [← hmem] at hxl
        exact (hiff x (Finset.mem_filter.mpr ⟨hx, hxp⟩)).mpr hxl

end Loops

/-! ### The counters -/

/-- The type of a function, by its number in the tree. -/
def typeOf (c : Caps) (function : ℕ) : FuncType :=
  funcIdToType c (function % 2 ^ 16) (decide (function / 2 ^ 16 ≠ 0))

/-- The 4K pages of the functions for which `P` is true. -/
def cardOf (P : ℕ → Bool) (H : Finset Cell) : ℕ := (H.filter fun x => P x.1 = true).card

/-- The counters are sizes of parts of the set. -/
structure Counts (c : Caps) (dev : Dev) (H : Finset Cell) : Prop where
  fwPages : dev.fwPages = H.card
  pageCounters : ∀ t, dev.pageCounters t = cardOf (fun f => typeOf c f == t) H
  vport : ∀ v w, dev.vports v = some w → w.fwPages =
    if v ≠ 0 ∧ counted c = true then (cardOf (fun f => f % 2 ^ 16 == v) H : ℤ) else 0

/-- Only 4K pages of one function come or go. -/
def Moved (function : ℕ) (H H' : Finset Cell) : Prop :=
  ∀ P, (cardOf P H' : ℤ) = cardOf P H + if P function = true then (H'.card : ℤ) - H.card else 0

section Counters

variable {k function funcId : ℕ} {ecFunction : Bool} {c : Caps} {dev dev' : Dev}
  {H H' : Finset Cell}

theorem Moved.symm (h : Moved function H H') : Moved function H' H := by
  intro P
  have hP := h P
  split_ifs at hP ⊢
  all_goals omega

theorem moved_of_subset {K : Finset Cell} (hsub : H ⊆ K) (hall : ∀ x ∈ K, x ∉ H → x.1 = function) :
    Moved function H K := by
  intro P
  unfold cardOf
  have hsplit : K.filter (fun x => P x.1 = true) =
      H.filter (fun x => P x.1 = true) ∪ (K \ H).filter fun x => P x.1 = true := by
    rw [← Finset.filter_union, Finset.union_sdiff_of_subset hsub]
  have hdisj : Disjoint (H.filter fun x => P x.1 = true)
      ((K \ H).filter fun x => P x.1 = true) :=
    Finset.disjoint_filter_filter Finset.disjoint_sdiff
  have hcard := Finset.card_sdiff_add_card_eq_card hsub
  rw [hsplit, Finset.card_union_of_disjoint hdisj, Nat.cast_add]
  split_ifs with hP
  · rw [filter_true_of_mem (s := K \ H)]
    · omega
    · intro x hx
      obtain ⟨hx₁, hx⟩ := Finset.mem_sdiff.mp hx
      rwa [hall x hx₁ hx]
  · rw [Finset.filter_false_of_mem (s := K \ H)]
    · rfl
    · intro x hx
      obtain ⟨hx₁, hx⟩ := Finset.mem_sdiff.mp hx
      rwa [hall x hx₁ hx]

theorem Counts.same (counts : Counts c dev H) (h : SameCounters dev dev') : Counts c dev' H := by
  obtain ⟨hpages, hcounters, hvports⟩ := h
  refine ⟨hpages.trans counts.fwPages, fun t => ?_, fun v w hv => ?_⟩
  · rw [hcounters]
    exact counts.pageCounters t
  · rw [hvports] at hv
    exact counts.vport v w hv

theorem Rel.of_fields (rel : Rel k dev H) (hmem : dev'.mem = dev.mem) (hnext : dev'.next = dev.next)
    (htree : dev'.tree = dev.tree) (hroots : dev'.roots = dev.roots)
    (hlist : dev'.freeList = dev.freeList) (hok : dev'.listOk = dev.listOk) : Rel k dev' H := by
  obtain ⟨mem, next, tree, roots, freeList, _, _, _, listOk⟩ := dev'
  subst hmem hnext htree hroots hlist hok
  exact { rel with }

/-- The counting of vports moves no page. -/
theorem updatePgCounters_frame (c : Caps) (dev : Dev) (funcId : ℕ) (n : ℤ) :
    (updatePgCounters c dev funcId n).mem = dev.mem ∧
      (updatePgCounters c dev funcId n).next = dev.next ∧
      (updatePgCounters c dev funcId n).tree = dev.tree ∧
      (updatePgCounters c dev funcId n).roots = dev.roots ∧
      (updatePgCounters c dev funcId n).freeList = dev.freeList ∧
      (updatePgCounters c dev funcId n).listOk = dev.listOk ∧
      (updatePgCounters c dev funcId n).fwPages = dev.fwPages ∧
      (updatePgCounters c dev funcId n).pageCounters = dev.pageCounters := by
  unfold updatePgCounters
  split_ifs
  · exact ⟨rfl, rfl, rfl, rfl, rfl, rfl, rfl, rfl⟩
  · exact ⟨rfl, rfl, rfl, rfl, rfl, rfl, rfl, rfl⟩
  · rcases dev.vports funcId with _ | w
    all_goals exact ⟨rfl, rfl, rfl, rfl, rfl, rfl, rfl, rfl⟩

/-- A vport after the counting: its own pages, where it is counted. -/
theorem updatePgCounters_vport {n : ℤ} {v : ℕ} {w : Vport}
    (h : (updatePgCounters c dev funcId n).vports v = some w) :
    ∃ w₀, dev.vports v = some w₀ ∧ w.pageLimit = w₀.pageLimit ∧
      w.fwPages = w₀.fwPages + if v = funcId ∧ counted c = true then n else 0 := by
  unfold updatePgCounters at h
  by_cases hnvme : c.nvmeOnBehalf = true
  · rw [if_pos hnvme] at h
    exact ⟨w, h, rfl, by simp [counted, hnvme]⟩
  · rw [if_neg hnvme] at h
    by_cases heth : c.eth = true
    · rw [if_neg (by simp [heth])] at h
      have hcounted : counted c = true := by simp [counted, hnvme, heth]
      rcases hvport : dev.vports funcId with _ | w₀
      · rw [hvport] at h
        have hne : v ≠ funcId := by
          rintro rfl
          rw [hvport] at h
          cases h
        exact ⟨w, h, rfl, by simp [hne]⟩
      · rw [hvport] at h
        dsimp only at h
        by_cases hv : v = funcId
        · subst hv
          rw [update_self] at h
          cases h
          exact ⟨w₀, hvport, rfl, by simp [hcounted]⟩
        · rw [update_of_ne hv] at h
          exact ⟨w, h, rfl, by simp [hv]⟩
    · rw [if_pos (by simpa using heth)] at h
      exact ⟨w, h, rfl, by simp [counted, heth]⟩

/-- What `countPages` leaves, and what it adds to a vport. -/
theorem countPages_vport {n : ℤ} {v : ℕ} {w : Vport}
    (h : (countPages c dev funcId ecFunction n).vports v = some w) :
    ∃ w₀, dev.vports v = some w₀ ∧ w.pageLimit = w₀.pageLimit ∧ w.fwPages = w₀.fwPages +
        if v ≠ 0 ∧ v = funcId ∧ counted c = true then n else 0 := by
  unfold countPages at h
  by_cases hid : funcId ≠ 0
  · rw [if_pos hid] at h
    obtain ⟨w₀, hw, hlimit, hpages⟩ := updatePgCounters_vport h
    refine ⟨w₀, hw, hlimit, hpages.trans ?_⟩
    by_cases hv : v = funcId
    · simp [hv, hid]
    · simp [hv]
  · rw [if_neg hid] at h
    refine ⟨w, h, rfl, ?_⟩
    rw [if_neg, Int.add_zero]
    rintro ⟨hv, rfl, -⟩
    exact hid hv

theorem function_parts (hid : funcId < 2 ^ 16) (ecFunction : Bool) :
    getFunction funcId ecFunction % 2 ^ 16 = funcId ∧
      typeOf c (getFunction funcId ecFunction) = funcIdToType c funcId ecFunction := by
  unfold getFunction typeOf
  cases ecFunction
  · rw [Bool.toNat_false, Nat.zero_mul, Nat.add_zero, Nat.mod_eq_of_lt hid, Nat.div_eq_of_lt hid]
    exact ⟨rfl, rfl⟩
  · have hmod : (funcId + true.toNat * 2 ^ 16) % 2 ^ 16 = funcId := by
      omega
    have hdiv : (funcId + true.toNat * 2 ^ 16) / 2 ^ 16 = 1 := by
      simp only [Bool.toNat_true]
      omega
    rw [hmod, hdiv]
    exact ⟨rfl, rfl⟩

/-- STEP: the counters follow the set, and no page moves. -/
theorem Counts.count (counts : Counts c dev H) (hid : funcId < 2 ^ 16)
    (hmoved : Moved (getFunction funcId ecFunction) H H') {n : ℤ}
    (hn : n = (H'.card : ℤ) - H.card) :
    Counts c (countPages c dev funcId ecFunction n) H' := by
  obtain ⟨hmod, htype⟩ := function_parts (c := c) hid ecFunction
  subst hn
  refine ⟨?_, fun t => ?_, fun v w hv => ?_⟩
  · have hfw : (countPages c dev funcId ecFunction ((H'.card : ℤ) - H.card)).fwPages =
        dev.fwPages + ((H'.card : ℤ) - H.card) := by
      unfold countPages
      split_ifs
      · exact (updatePgCounters_frame ..).2.2.2.2.2.2.1
      · rfl
    rw [hfw, counts.fwPages]
    omega
  · have hpc : (countPages c dev funcId ecFunction ((H'.card : ℤ) - H.card)).pageCounters =
        update dev.pageCounters (funcIdToType c funcId ecFunction)
          (dev.pageCounters (funcIdToType c funcId ecFunction) + ((H'.card : ℤ) - H.card)) := by
      unfold countPages
      split_ifs
      · exact (updatePgCounters_frame ..).2.2.2.2.2.2.2
      · rfl
    have hP := hmoved fun f => typeOf c f == t
    rw [hpc]
    by_cases ht : t = funcIdToType c funcId ecFunction
    · subst ht
      rw [if_pos (by simp [htype])] at hP
      rw [update_self, hP, counts.pageCounters]
    · rw [if_neg (by simpa [htype] using Ne.symm ht)] at hP
      rw [update_of_ne ht, hP, Int.add_zero, counts.pageCounters]
  · obtain ⟨w₀, hw, -, hpages⟩ := countPages_vport hv
    have hP := hmoved fun f => f % 2 ^ 16 == v
    rw [hpages, counts.vport v w₀ hw]
    by_cases hc : v ≠ 0 ∧ counted c = true
    · rw [if_pos hc, if_pos hc, hP]
      have heq : (getFunction funcId ecFunction % 2 ^ 16 == v) = true ↔ funcId = v := by
        rw [hmod]
        exact beq_iff_eq
      by_cases hv : v = funcId
      · rw [if_pos ⟨hc.1, hv, hc.2⟩, if_pos (heq.mpr hv.symm)]
      · rw [if_neg (fun h => hv h.2.1), if_neg (fun h => hv (heq.mp h).symm)]
    · rw [if_neg hc, if_neg hc, if_neg (fun h => hc ⟨h.1, h.2.2⟩), Int.add_zero]

theorem countPages_frame (rel : Rel k dev H) (tight : Tight k dev) (n : ℤ) :
    Rel k (countPages c dev funcId ecFunction n) H ∧
      Tight k (countPages c dev funcId ecFunction n) := by
  have hfields : (countPages c dev funcId ecFunction n).mem = dev.mem ∧
      (countPages c dev funcId ecFunction n).next = dev.next ∧
      (countPages c dev funcId ecFunction n).tree = dev.tree ∧
      (countPages c dev funcId ecFunction n).roots = dev.roots ∧
      (countPages c dev funcId ecFunction n).freeList = dev.freeList ∧
      (countPages c dev funcId ecFunction n).listOk = dev.listOk := by
    unfold countPages
    split_ifs
    · obtain ⟨hmem, hnext, htree, hroots, hlist, hok, -⟩ := updatePgCounters_frame c { dev with
        pageCounters := update dev.pageCounters (funcIdToType c funcId ecFunction)
          (dev.pageCounters (funcIdToType c funcId ecFunction) + n)
        fwPages := dev.fwPages + n } funcId n
      exact ⟨hmem, hnext, htree, hroots, hlist, hok⟩
    · exact ⟨rfl, rfl, rfl, rfl, rfl, rfl⟩
  obtain ⟨hmem, hnext, htree, hroots, hlist, hok⟩ := hfields
  refine ⟨rel.of_fields hmem hnext htree hroots hlist hok, fun p hp => ?_⟩
  rw [hmem]
  exact tight p (htree ▸ hp)

end Counters

/-! ### Runs -/

/-- The driver, and the 4K pages that firmware has. -/
structure World where
  dev : Dev
  held : Finset Cell

/-- A function is served, or the limit of a vport is written. -/
inductive Act where
  | give (funcId npages : ℕ) (ecFunction : Bool) (e : GiveEnv)
  | reclaim (funcId npages : ℕ) (ecFunction : Bool) (e : ReclaimEnv)
  | release (funcId : ℕ) (ecFunction : Bool)
  | setLimit (funcId limit : ℕ)

/-- `page_limit_store`. -/
def pageLimitStore (dev : Dev) (funcId limit : ℕ) : Dev :=
  match dev.vports funcId with
  | none => dev
  | some v =>
    { dev with vports := update dev.vports funcId (some { v with pageLimit := limit }) }

/-- What firmware has after an action: it takes what a command gives that does not fail, and has no
    more what it returns. -/
def heldAfter (k : ℕ) (c : Caps) (w : World) : Act → Finset Cell
  | .give funcId npages ecFunction e =>
    match (givePages k c w.dev funcId npages ecFunction e).2 with
    | none => w.held
    | some pas => w.held ∪ (cells (getFunction funcId ecFunction) pas).toFinset
  | .reclaim funcId npages ecFunction e =>
    match reclaimPagesCmd k w.dev (getFunction funcId ecFunction) npages e with
    | none => w.held
    | some out => if e.outOk then
        w.held \ (cells (getFunction funcId ecFunction) out).toFinset else w.held
  | .release funcId ecFunction => w.held.filter fun x => x.1 ≠ getFunction funcId ecFunction
  | .setLimit _ _ => w.held

/-- The driver after an action. -/
def devAfter (k : ℕ) (c : Caps) (dev : Dev) : Act → Dev
  | .give funcId npages ecFunction e => (givePages k c dev funcId npages ecFunction e).1
  | .reclaim funcId npages ecFunction e => reclaimPages k c dev funcId npages ecFunction e
  | .release funcId ecFunction => releaseAllPages k c dev funcId ecFunction
  | .setLimit funcId limit => pageLimitStore dev funcId limit

def step (k : ℕ) (c : Caps) (w : World) (a : Act) : World :=
  ⟨devAfter k c w.dev a, heldAfter k c w a⟩

/-- A function has 16 bits, and the mappings are new. -/
def ok (k : ℕ) (w : World) : Act → Prop
  | .give funcId _ _ e => funcId < 2 ^ 16 ∧ Fresh k w.dev e.pages
  | .reclaim funcId _ _ _ => funcId < 2 ^ 16
  | .release funcId _ => funcId < 2 ^ 16
  | .setLimit _ _ => True

instance (k : ℕ) (dev : Dev) (env : List PageEnv) : Decidable (Fresh k dev env) :=
  inferInstanceAs (Decidable (_ ∧ _))

instance (k : ℕ) (w : World) : ∀ a, Decidable (ok k w a)
  | .give funcId _ _ e => inferInstanceAs (Decidable (funcId < 2 ^ 16 ∧ Fresh k w.dev e.pages))
  | .reclaim funcId _ _ _ => inferInstanceAs (Decidable (funcId < 2 ^ 16))
  | .release funcId _ => inferInstanceAs (Decidable (funcId < 2 ^ 16))
  | .setLimit _ _ => instDecidableTrue

/-- Firmware has no limit of its own, and none is set below what a vport has. -/
def limited (k : ℕ) (w : World) (a : Act) : Prop :=
  ok k w a ∧ match a with
    | .give _ _ _ e => e.icmCtrl = false
    | .setLimit funcId limit => ∀ v, w.dev.vports funcId = some v → limit ≠ 0 →
      v.fwPages ≤ limit
    | _ => True

/-- A device with vports that have no pages. -/
def start (vports : ℕ → Option ℕ) : World where
  dev := {
    mem := fun _ => ⟨0, 0, fun _ => false, 0⟩
    next := 0
    tree := []
    roots := []
    freeList := []
    fwPages := 0
    pageCounters := fun _ => 0
    vports := fun v => (vports v).map fun limit : ℕ => ⟨0, limit⟩
    listOk := true }
  held := ∅

/-- The invariant: the set of cleared bits has all that firmware has. -/
structure Inv (k : ℕ) (c : Caps) (w : World) (H : Finset Cell) : Prop where
  rel : Rel k w.dev H
  tight : Tight k w.dev
  counts : Counts c w.dev H
  held : w.held ⊆ H

section Runs

variable {k funcId npages : ℕ} {ecFunction : Bool} {c : Caps} {w : World} {dev : Dev}
  {H : Finset Cell}

theorem start_inv (k : ℕ) (c : Caps) (vports : ℕ → Option ℕ) : Inv k c (start vports) ∅ := by
  refine ⟨⟨nodup_nil, ?_, ?_, ?_, ?_, ?_, ?_, nodup_nil, fun p => ⟨?_, ?_⟩, rfl,
    fun f u => ⟨?_, ?_⟩⟩, ?_, ⟨rfl, fun t => rfl, fun v w hv => ?_⟩, Finset.Subset.refl _⟩
  · exact fun p hp => (by cases hp)
  · exact fun p hp => (by cases hp)
  · exact fun p hp => (by cases hp)
  · exact fun p hp => (by cases hp)
  · exact fun p hp => (by cases hp)
  · exact fun p hp => (by cases hp)
  · exact fun hp => (by cases hp)
  · exact fun hp => (by cases hp.1)
  · exact fun hx => absurd hx (Finset.notMem_empty _)
  · rintro ⟨p, hp, -⟩
    cases hp
  · exact fun p hp => (by cases hp)
  · obtain ⟨limit, -, rfl⟩ := Option.map_eq_some_iff.mp hv
    simp [cardOf]

/-- What `give_pages` does: firmware has the pages, or all is as before. -/
theorem givePages_run (rel : Rel k dev H) (tight : Tight k dev) (hk : k ≤ 6) {e : GiveEnv}
    (fresh : Fresh k dev e.pages) :
    ((givePages k c dev funcId npages ecFunction e).2 = none ∧
      Rel k (givePages k c dev funcId npages ecFunction e).1 H ∧
      Tight k (givePages k c dev funcId npages ecFunction e).1 ∧
      SameCounters dev (givePages k c dev funcId npages ecFunction e).1) ∨
    ∃ pas dev₁, (givePages k c dev funcId npages ecFunction e).2 = some pas ∧
      Filled k (getFunction funcId ecFunction) dev dev₁ H pas ∧
      (givePages k c dev funcId npages ecFunction e).1 =
        countPages c dev₁ funcId ecFunction pas.length ∧ (funcId ≠ 0 → e.icmCtrl = false →
        ∃ n, vfObtainablePages c dev funcId npages = some n ∧ pas.length = n) := by
  unfold givePages
  rcases hn : (if funcId ≠ 0 ∧ e.icmCtrl = false then
      (vfObtainablePages c dev funcId npages).filter (fun n => decide (0 < n)) else some npages)
    with _ | n
  · exact .inl ⟨rfl, rel, tight, SameCounters.refl dev⟩
  · dsimp only
    by_cases hin : e.inOk = false
    · rw [if_pos hin]
      exact .inl ⟨rfl, rel, tight, SameCounters.refl dev⟩
    · rw [if_neg hin]
      have hempty : Filled k (getFunction funcId ecFunction) dev dev H [] := by
        refine ⟨?_, tight, SameCounters.refl dev, nodup_nil, fun x hx => (by cases hx)⟩
        have hset : H ∪ (cells (getFunction funcId ecFunction) []).toFinset = H :=
          Finset.union_empty H
        rwa [hset]
      obtain ⟨hfilled, hlen⟩ := fillPages_run hk n e.time hempty fresh
      rcases hres : fillPages k (getFunction funcId ecFunction) n e.time e.pages [] dev
        with ⟨dev₁, pas, _ | _⟩
      all_goals
        rw [hres] at hfilled hlen
        dsimp only at hfilled hlen ⊢
      · exact .inl ⟨rfl, dropPages_run hfilled⟩
      · have hpas : pas.length = n := by
          rw [hlen rfl, List.length_nil, Nat.zero_add]
        split_ifs with hcmd
        · refine .inr ⟨pas, dev₁, rfl, hfilled, by rw [hpas], fun hid hctrl => ⟨n, ?_, hpas⟩⟩
          rw [if_pos ⟨hid, hctrl⟩] at hn
          exact (Option.filter_eq_some_iff.mp hn).1
        · exact .inl ⟨rfl, dropPages_run hfilled⟩

theorem filled_card {function : ℕ} {dev₀ : Dev} {pas : List ℕ}
    (filled : Filled k function dev₀ dev H pas) :
    (pas.length : ℤ) = ((H ∪ (cells function pas).toFinset).card : ℤ) - H.card ∧
      Moved function H (H ∪ (cells function pas).toFinset) := by
  constructor
  · have hdisj : Disjoint H (cells function pas).toFinset := by
      rw [Finset.disjoint_right]
      exact fun x hx => filled.disjoint x (mem_toFinset.mp hx)
    rw [Finset.card_union_of_disjoint hdisj, List.toFinset_card_of_nodup filled.nodup, cells,
      List.length_map]
    omega
  · refine moved_of_subset Finset.subset_union_left fun x hx hnot => ?_
    have hx' := mem_toFinset.mp ((Finset.mem_union.mp hx).resolve_left hnot)
    obtain ⟨a, -, rfl⟩ := mem_map.mp hx'
    rfl

theorem Inv.give (inv : Inv k c w H) (hk : k ≤ 6) (hid : funcId < 2 ^ 16) {e : GiveEnv}
    (fresh : Fresh k w.dev e.pages) :
    ∃ H', Inv k c (step k c w (.give funcId npages ecFunction e)) H' := by
  rcases @givePages_run _ funcId npages ecFunction c _ _ inv.rel inv.tight hk _ fresh with
    ⟨hnone, hrel, htight, hsame⟩ | ⟨pas, dev₁, hsome, hfilled, hdev, -⟩
  · refine ⟨H, hrel, htight, inv.counts.same hsame, ?_⟩
    unfold step heldAfter
    dsimp only
    rw [hnone]
    exact inv.held
  · obtain ⟨hcard, hmoved⟩ := filled_card hfilled
    have hcounts := (inv.counts.same hfilled.same).count hid hmoved hcard
    obtain ⟨hrel, htight⟩ :=
      @countPages_frame _ funcId ecFunction c _ _ hfilled.rel hfilled.tight pas.length
    rw [← hdev] at hcounts hrel htight
    refine ⟨_, hrel, htight, hcounts, ?_⟩
    unfold step heldAfter
    dsimp only
    rw [hsome]
    exact Finset.union_subset_union_left inv.held

/-- The vports keep their limits. -/
def SameLimits (dev dev' : Dev) : Prop :=
  ∀ v u, dev'.vports v = some u → ∃ u₀, dev.vports v = some u₀ ∧ u.pageLimit = u₀.pageLimit

theorem SameLimits.refl (dev : Dev) : SameLimits dev dev := fun _ u hu => ⟨u, hu, rfl⟩

theorem SameCounters.limits {dev dev' : Dev} {n : ℤ} (h : SameCounters dev dev') :
    SameLimits dev (countPages c dev' funcId ecFunction n) := by
  intro v u hu
  obtain ⟨u₀, hu₀, hlimit, -⟩ := countPages_vport hu
  exact ⟨u₀, h.2.2 ▸ hu₀, hlimit⟩

theorem sdiff_moved (function : ℕ) (H : Finset Cell) (out : List ℕ) :
    Moved function H (H \ (cells function out).toFinset) := by
  refine Moved.symm (moved_of_subset Finset.sdiff_subset fun x hx hnot => ?_)
  have hx' : x ∈ cells function out := by
    by_contra hout
    exact hnot (Finset.mem_sdiff.mpr ⟨hx, fun h => hout (mem_toFinset.mp h)⟩)
  obtain ⟨a, -, rfl⟩ := mem_map.mp hx'
  rfl

/-- STEP: `reclaim_pages`. -/
theorem Inv.reclaim (inv : Inv k c w H) (hid : funcId < 2 ^ 16) {e : ReclaimEnv} :
    ∃ H' ⊆ H, Inv k c (step k c w (.reclaim funcId npages ecFunction e)) H' ∧
      SameLimits w.dev (step k c w (.reclaim funcId npages ecFunction e)).dev := by
  unfold step devAfter heldAfter reclaimPages
  dsimp only
  by_cases hout : e.outOk = true
  · rw [if_neg (Bool.not_eq_false _ ▸ hout)]
    rcases reclaimPagesCmd k w.dev (getFunction funcId ecFunction) npages e with _ | out
    · exact ⟨H, Finset.Subset.refl H, { inv with }, SameLimits.refl _⟩
    · dsimp only
      rw [if_pos hout]
      split_ifs with hlen
      · exact ⟨H, Finset.Subset.refl H, { inv with held := Finset.sdiff_subset.trans inv.held },
          SameLimits.refl _⟩
      · obtain ⟨hrel, htight, hsame, hclaimed⟩ := @claimLoop_run _
          (getFunction funcId ecFunction) out _ _ 0 inv.rel inv.tight
        generalize claimLoop k (getFunction funcId ecFunction) out w.dev 0 = res at *
        have hcounts := (inv.counts.same hsame).count hid
          (sdiff_moved (getFunction funcId ecFunction) H out) (n := -res.2) (by omega)
        obtain ⟨hrel', htight'⟩ := @countPages_frame _ funcId ecFunction c _ _ hrel htight (-res.2)
        exact ⟨_, Finset.sdiff_subset, ⟨hrel', htight', hcounts,
          Finset.sdiff_subset_sdiff inv.held (Finset.Subset.refl _)⟩, hsame.limits⟩
  · rw [if_pos (by simpa using hout)]
    refine ⟨H, Finset.Subset.refl H, { inv with held := ?_ }, SameLimits.refl _⟩
    rcases reclaimPagesCmd k w.dev (getFunction funcId ecFunction) npages e with _ | out
    · exact inv.held
    · simpa [hout] using inv.held

/-- All pages of a function are in the list of its tracked pages. -/
theorem release_iff (rel : Rel k dev H) (function : ℕ) (x : Cell) (hx : x ∈ H) :
    (∀ p ∈ functionPages dev function, ¬ (x.1 = (dev.mem p).function ∧
      x.2 / num4kInPage k * pageSize k = (dev.mem p).addr)) ↔ x.1 ≠ function := by
  constructor
  · rintro hall rfl
    obtain ⟨p, hp, hf, haddr, -⟩ := (rel.held x.1 x.2).mp hx
    exact hall p (mem_filter.mpr ⟨hp, decide_eq_true hf⟩) ⟨hf.symm, haddr.symm⟩
  · rintro hne p hp ⟨hf, -⟩
    exact hne (hf.trans (of_decide_eq_true (mem_filter.mp hp).2))

/-- STEP: `release_all_pages`. -/
theorem Inv.release (inv : Inv k c w H) (hid : funcId < 2 ^ 16) :
    ∃ H' ⊆ H, Inv k c (step k c w (.release funcId ecFunction)) H' ∧
      SameLimits w.dev (step k c w (.release funcId ecFunction)).dev := by
  unfold step devAfter heldAfter releaseAllPages
  dsimp only
  by_cases hroot : getFunction funcId ecFunction ∉ w.dev.roots
  · rw [if_pos hroot]
    exact ⟨H, Finset.Subset.refl H, { inv with held := (Finset.filter_subset ..).trans inv.held },
      SameLimits.refl _⟩
  · rw [if_neg hroot]
    obtain ⟨H', hsub, hrel, htight, hsame, hcount, hiff⟩ := releaseLoop_run
      (functionPages w.dev (getFunction funcId ecFunction)) 0 inv.rel inv.tight
      (inv.rel.nodup.filter _) (fun p hp => (mem_filter.mp hp).1)
    have hleft : ∀ x ∈ H, x ∈ H' ↔ x.1 ≠ getFunction funcId ecFunction := fun x hx =>
      (hiff x hx).trans (release_iff inv.rel _ x hx)
    have hmoved : Moved (getFunction funcId ecFunction) H H' := by
      refine Moved.symm (moved_of_subset hsub fun x hx hnot => ?_)
      by_contra hne
      exact hnot ((hleft x hx).mpr hne)
    generalize releaseLoop k (functionPages w.dev (getFunction funcId ecFunction)) w.dev 0 = res
      at *
    have hcounts := (inv.counts.same hsame).count hid hmoved (n := -res.2) (by omega)
    obtain ⟨hrel', htight'⟩ := @countPages_frame _ funcId ecFunction c _ _ hrel htight (-res.2)
    refine ⟨H', hsub, ⟨hrel', htight', hcounts, fun x hx => ?_⟩, hsame.limits⟩
    obtain ⟨hx, hne⟩ := Finset.mem_filter.mp hx
    exact (hleft x (inv.held hx)).mpr hne

/-- A limit is written, no page moves. -/
theorem pageLimitStore_vport {limit v : ℕ} {u : Vport}
    (h : (pageLimitStore dev funcId limit).vports v = some u) :
    ∃ u₀, dev.vports v = some u₀ ∧ u.fwPages = u₀.fwPages ∧
      u.pageLimit = if v = funcId then (limit : ℤ) else u₀.pageLimit := by
  unfold pageLimitStore at h
  rcases hvport : dev.vports funcId with _ | u₀
  · rw [hvport] at h
    refine ⟨u, h, rfl, ?_⟩
    rw [if_neg]
    rintro rfl
    rw [hvport] at h
    cases h
  · rw [hvport] at h
    dsimp only at h
    by_cases hv : v = funcId
    · subst hv
      rw [update_self] at h
      cases h
      exact ⟨u₀, hvport, rfl, by simp⟩
    · rw [update_of_ne hv] at h
      exact ⟨u, h, rfl, by simp [hv]⟩

theorem Inv.setLimit (inv : Inv k c w H) (limit : ℕ) :
    Inv k c (step k c w (.setLimit funcId limit)) H := by
  have hfields : (pageLimitStore w.dev funcId limit).mem = w.dev.mem ∧
      (pageLimitStore w.dev funcId limit).next = w.dev.next ∧
      (pageLimitStore w.dev funcId limit).tree = w.dev.tree ∧
      (pageLimitStore w.dev funcId limit).roots = w.dev.roots ∧
      (pageLimitStore w.dev funcId limit).freeList = w.dev.freeList ∧
      (pageLimitStore w.dev funcId limit).listOk = w.dev.listOk ∧
      (pageLimitStore w.dev funcId limit).fwPages = w.dev.fwPages ∧
      (pageLimitStore w.dev funcId limit).pageCounters = w.dev.pageCounters := by
    unfold pageLimitStore
    rcases w.dev.vports funcId with _ | v
    all_goals exact ⟨rfl, rfl, rfl, rfl, rfl, rfl, rfl, rfl⟩
  obtain ⟨hmem, hnext, htree, hroots, hlist, hok, hfw, hpc⟩ := hfields
  refine ⟨inv.rel.of_fields hmem hnext htree hroots hlist hok, fun p hp => ?_,
    ⟨hfw.trans inv.counts.fwPages, fun t => ?_, fun v u hu => ?_⟩, inv.held⟩
  · change ((pageLimitStore w.dev funcId limit).mem p).freeCount < num4kInPage k
    rw [hmem]
    exact inv.tight p (htree ▸ hp)
  · change (pageLimitStore w.dev funcId limit).pageCounters t = _
    rw [hpc]
    exact inv.counts.pageCounters t
  · obtain ⟨u₀, hu₀, hpages, -⟩ := pageLimitStore_vport hu
    rw [hpages]
    exact inv.counts.vport v u₀ hu₀

/-- STEP: the invariant is kept. -/
theorem Inv.step (inv : Inv k c w H) (hk : k ≤ 6) (a : Act) (h : ok k w a) :
    ∃ H', Inv k c (step k c w a) H' := by
  cases a with
  | give funcId npages ecFunction e => exact inv.give hk h.1 h.2
  | reclaim funcId npages ecFunction e =>
    obtain ⟨H', -, inv', -⟩ := inv.reclaim h
    exact ⟨H', inv'⟩
  | release funcId ecFunction =>
    obtain ⟨H', -, inv', -⟩ := inv.release h
    exact ⟨H', inv'⟩
  | setLimit funcId limit => exact ⟨H, inv.setLimit limit⟩

/-- RUN: in every state reached. -/
theorem reach_inv (hk : k ≤ 6) {vports : ℕ → Option ℕ}
    (h : Reach (PageAlloc.step k c) (ok k) (start vports) w) : ∃ H, Inv k c w H :=
  @Reach.invariant _ _ _ _ _ _ (fun w => ∃ H, Inv k c w H) h ⟨∅, start_inv k c vports⟩
    fun _ a hok ⟨_, inv⟩ => inv.step hk a hok

/-- The limits are kept. -/
def Limits (dev : Dev) : Prop :=
  ∀ v u, dev.vports v = some u → 0 ≤ u.pageLimit ∧ (u.pageLimit ≠ 0 → u.fwPages ≤ u.pageLimit)

theorem vfObtainablePages_limit {u : Vport} {n : ℕ} (hu : dev.vports funcId = some u)
    (hlimit : u.pageLimit ≠ 0) (hc : counted c = true)
    (h : vfObtainablePages c dev funcId npages = some n) :
    u.fwPages + n ≤ u.pageLimit := by
  obtain ⟨hnvme, heth⟩ := Bool.and_eq_true_iff.mp hc
  unfold vfObtainablePages at h
  rw [if_neg (by simpa using hnvme), if_neg (by simpa using heth), hu] at h
  dsimp only at h
  split_ifs at h
  · obtain rfl := Option.some.inj h
    omega
  · obtain rfl := Option.some.inj h
    omega

/-- Where no pages are added the limits are kept. -/
theorem Limits.of_subset {w' : World} {H' : Finset Cell} (inv : Inv k c w H) (inv' : Inv k c w' H')
    (hsub : H' ⊆ H) (hsame : SameLimits w.dev w'.dev) (limits : Limits w.dev) :
    Limits w'.dev := by
  intro v u hu
  obtain ⟨u₀, hu₀, hlimit⟩ := hsame v u hu
  obtain ⟨hpos, hle⟩ := limits v u₀ hu₀
  have hpages := inv.counts.vport v u₀ hu₀
  have hpages' := inv'.counts.vport v u hu
  have hcard : cardOf (fun f => f % 2 ^ 16 == v) H' ≤ cardOf (fun f => f % 2 ^ 16 == v) H :=
    Finset.card_le_card (Finset.filter_subset_filter _ hsub)
  rw [hlimit]
  refine ⟨hpos, fun hne => le_trans ?_ (hle hne)⟩
  rw [hpages, hpages']
  split_ifs
  · exact_mod_cast hcard
  · exact le_rfl

/-- STEP: pages are given up to the limit. -/
theorem step_limits (inv : Inv k c w H) (hk : k ≤ 6) (a : Act) (h : limited k w a)
    (limits : Limits w.dev) : Limits (PageAlloc.step k c w a).dev := by
  intro v u hu
  cases a with
  | give funcId npages ecFunction e =>
    obtain ⟨⟨hid, fresh⟩, hctrl⟩ := h
    rcases @givePages_run _ funcId npages ecFunction c _ _ inv.rel inv.tight hk _ fresh with
      ⟨-, -, -, hsame⟩ | ⟨pas, dev₁, -, hfilled, hdev, hob⟩
    · change (givePages k c w.dev funcId npages ecFunction e).1.vports v = some u at hu
      rw [hsame.2.2] at hu
      exact limits v u hu
    · change (givePages k c w.dev funcId npages ecFunction e).1.vports v = some u at hu
      rw [hdev] at hu
      obtain ⟨u₀, hu₀, hlimit, hpages⟩ := countPages_vport hu
      rw [hfilled.same.2.2] at hu₀
      obtain ⟨hpos, hle⟩ := limits v u₀ hu₀
      rw [hlimit, hpages]
      refine ⟨hpos, fun hne => ?_⟩
      split_ifs with hv
      · obtain ⟨hv0, rfl, hc⟩ := hv
        obtain ⟨n, hn, hlen⟩ := hob hv0 hctrl
        rw [hlen]
        exact vfObtainablePages_limit hu₀ hne hc hn
      · rw [Int.add_zero]
        exact hle hne
  | reclaim funcId npages ecFunction e =>
    obtain ⟨H', hsub, inv', hsame⟩ := @Inv.reclaim _ _ npages _ _ _ _ inv h.1 e
    exact limits.of_subset inv inv' hsub hsame v u hu
  | release funcId ecFunction =>
    obtain ⟨H', hsub, inv', hsame⟩ := @Inv.release _ _ ecFunction _ _ _ inv h.1
    exact limits.of_subset inv inv' hsub hsame v u hu
  | setLimit funcId limit =>
    obtain ⟨u₀, hu₀, hpages, hlimit⟩ := pageLimitStore_vport hu
    obtain ⟨hpos, hle⟩ := limits v u₀ hu₀
    rw [hlimit, hpages]
    by_cases hv : v = funcId
    · subst hv
      rw [if_pos rfl]
      exact ⟨Int.natCast_nonneg _, fun hne => h.2 u₀ hu₀ (by exact_mod_cast hne)⟩
    · rw [if_neg hv]
      exact ⟨hpos, hle⟩

end Runs

/-- The cleared bits of the tracked pages. -/
def clearedBits (k : ℕ) (dev : Dev) : ℕ :=
  (dev.tree.map fun p => setBits (fun n => !(dev.mem p).bitmask n) (num4kInPage k)).sum

/-- Each 4K page that firmware has is a cleared bit of the one tracked page that is there, the lists
    and the counts are those of the bitmaps, and no counter is negative. -/
structure Accounted (k : ℕ) (w : World) : Prop where
  held : ∀ f u, (f, u) ∈ w.held → ∃ p ∈ w.dev.tree, (w.dev.mem p).function = f ∧
    (w.dev.mem p).addr = pageBase k (u * 4096) ∧
    (w.dev.mem p).bitmask (u * 4096 % pageSize k / 4096) = false ∧
    ∀ q ∈ w.dev.tree, (w.dev.mem q).addr = pageBase k (u * 4096) → q = p
  freeCount : ∀ p ∈ w.dev.tree,
    (w.dev.mem p).freeCount = setBits (w.dev.mem p).bitmask (num4kInPage k)
  freeNodup : w.dev.freeList.Nodup
  freeList : ∀ p, p ∈ w.dev.freeList ↔ p ∈ w.dev.tree ∧ 0 < (w.dev.mem p).freeCount
  listOk : w.dev.listOk = true
  fwPages : w.dev.fwPages = clearedBits k w.dev
  pageCounters : ∑ t, w.dev.pageCounters t = clearedBits k w.dev
  nonneg : 0 ≤ w.dev.fwPages ∧ ∀ t, 0 ≤ w.dev.pageCounters t

/-- The tracked pages, those on the free list and the counters are as before. -/
structure SamePages (dev dev' : Dev) : Prop where
  tracked : ∀ fp, (∃ p ∈ dev'.tree, dev'.mem p = fp) ↔ ∃ p ∈ dev.tree, dev.mem p = fp
  free : ∀ fp, (∃ p ∈ dev'.freeList, dev'.mem p = fp) ↔ ∃ p ∈ dev.freeList, dev.mem p = fp
  counters : SameCounters dev dev'

section Results

variable {k : ℕ} {c : Caps} {w : World} {dev dev' : Dev} {H : Finset Cell}

theorem setBits_not (g : ℕ → Bool) (N : ℕ) : setBits (fun n => !g n) N + setBits g N = N := by
  have hsplit := Finset.card_filter_add_card_filter_not (s := range N)
    fun n => g n = true
  rw [card_range] at hsplit
  unfold setBits
  simp only [Bool.not_eq_true'] at hsplit ⊢
  simp only [Bool.not_eq_true] at hsplit
  omega

/-- The 4K pages of some system pages. -/
theorem pages_card (rel : Rel k dev H) : ∀ {l : List ℕ}, l.Nodup → (∀ p ∈ l, p ∈ dev.tree) →
    (H.filter fun x => ∃ p ∈ l, x.1 = (dev.mem p).function ∧
      x.2 / num4kInPage k * pageSize k = (dev.mem p).addr).card =
        (l.map fun p => setBits (fun n => !(dev.mem p).bitmask n) (num4kInPage k)).sum
  | [], _, _ => by simp
  | p :: l, hnd, hl => by
    obtain ⟨hpl, hnd'⟩ := nodup_cons.mp hnd
    have hp := hl p mem_cons_self
    have hl' : ∀ q ∈ l, q ∈ dev.tree := fun q hq => hl q (List.mem_cons_of_mem p hq)
    have ih := pages_card rel hnd' hl'
    have hpage := page_card rel hp
    have hnot := setBits_not (dev.mem p).bitmask (num4kInPage k)
    rw [← rel.count p hp] at hnot
    have hdisj : Disjoint
        (H.filter fun x => x.1 = (dev.mem p).function ∧
          x.2 / num4kInPage k * pageSize k = (dev.mem p).addr)
        (H.filter fun x => ∃ q ∈ l, x.1 = (dev.mem q).function ∧
          x.2 / num4kInPage k * pageSize k = (dev.mem q).addr) := by
      rw [Finset.disjoint_filter]
      rintro x - ⟨-, haddr⟩ ⟨q, hq, -, haddr'⟩
      have heq := rel.unique p hp q (hl' q hq) (haddr.symm.trans haddr')
      exact hpl (heq ▸ hq)
    simp only [List.exists_mem_cons_iff, map_cons, List.sum_cons]
    rw [Finset.filter_or, Finset.card_union_of_disjoint hdisj, ih]
    omega

/-- The set has as many elements as there are cleared bits. -/
theorem card_eq_clearedBits (rel : Rel k dev H) : H.card = clearedBits k dev := by
  have hcard := pages_card rel rel.nodup fun p hp => hp
  rw [filter_true_of_mem] at hcard
  · exact hcard
  · intro x hx
    obtain ⟨p, hp, hf, haddr, -⟩ := (rel.held x.1 x.2).mp hx
    exact ⟨p, hp, hf.symm, haddr.symm⟩

theorem Inv.accounted (inv : Inv k c w H) : Accounted k w where
  held f u hx := by
    obtain ⟨p, hp, hf, haddr, hb⟩ := (inv.rel.held f u).mp (inv.held hx)
    obtain ⟨hbase, hbit⟩ := base_of_addr k (u * 4096)
    rw [Nat.mul_div_cancel _ (by norm_num)] at hbase hbit
    refine ⟨p, hp, hf, haddr.trans hbase, hbit ▸ hb, fun q hq hq' => ?_⟩
    exact inv.rel.unique q hq p hp (hq'.trans (haddr.trans hbase).symm)
  freeCount := inv.rel.count
  freeNodup := inv.rel.freeNodup
  freeList p := (inv.rel.free p).trans (and_congr_right fun _ => Nat.pos_iff_ne_zero.symm)
  listOk := inv.rel.listOk
  fwPages := by rw [inv.counts.fwPages, card_eq_clearedBits inv.rel]
  pageCounters := by
    rw [← card_eq_clearedBits inv.rel,
      Finset.card_eq_sum_card_fiberwise (f := fun x => typeOf c x.1) (t := Finset.univ)
        (fun x _ => Finset.mem_univ _), Nat.cast_sum]
    refine Finset.sum_congr rfl fun t _ => (inv.counts.pageCounters t).trans ?_
    simp [cardOf]
  nonneg := by
    refine ⟨?_, fun t => ?_⟩
    · rw [inv.counts.fwPages]
      exact Int.natCast_nonneg _
    · rw [inv.counts.pageCounters]
      exact Int.natCast_nonneg _

/-- The set determines what is tracked. -/
theorem tracked_of_set (rel : Rel k dev H) (tight : Tight k dev) (rel' : Rel k dev' H) {p : ℕ}
    (hp : p ∈ dev.tree) : ∃ p' ∈ dev'.tree, dev'.mem p' = dev.mem p := by
  have hclear : ∃ n < num4kInPage k, (dev.mem p).bitmask n = false := by
    by_contra hnone
    have hall := setBits_all (num4kInPage k)
    have hlt := tight p hp
    rw [rel.count p hp] at hlt
    have hle : setBits (fun n => decide (n < num4kInPage k)) (num4kInPage k) ≤
        setBits (dev.mem p).bitmask (num4kInPage k) := by
      refine Finset.card_le_card fun n hn => ?_
      have hn' := Finset.mem_range.mp (Finset.mem_filter.mp hn).1
      refine Finset.mem_filter.mpr ⟨Finset.mem_range.mpr hn', ?_⟩
      by_contra hbit
      exact hnone ⟨n, hn', by simpa using hbit⟩
    omega
  obtain ⟨n, hn, hbit⟩ := hclear
  obtain ⟨hbase, -⟩ := cell_of_addr (rel.aligned p hp) hn
  obtain ⟨p', hp', hf, haddr, -⟩ := (rel'.held _ _).mp ((rel.held_iff hp hn).mpr hbit)
  rw [hbase] at haddr
  have hbits : (dev'.mem p').bitmask = (dev.mem p).bitmask := by
    funext i
    by_cases hi : i < num4kInPage k
    · have hiff := rel.held_iff hp hi
      have hiff' := rel'.held_iff hp' hi
      cases hb : (dev.mem p).bitmask i <;> cases hb' : (dev'.mem p').bitmask i <;> simp_all
    · have hno : ∀ {d : Dev} {q : ℕ}, Rel k d H → q ∈ d.tree → (d.mem q).bitmask i = false := by
        intro d q hrel hq
        by_contra hb
        exact hi (hrel.range q hq i (by simpa using hb))
      rw [hno rel' hp', hno rel hp]
  refine ⟨p', hp', ?_⟩
  have hcount := (rel'.count p' hp').trans ((congrArg (setBits · _) hbits).trans
    (rel.count p hp).symm)
  calc dev'.mem p' = ⟨(dev'.mem p').addr, (dev'.mem p').function, (dev'.mem p').bitmask,
        (dev'.mem p').freeCount⟩ := rfl
    _ = dev.mem p := by rw [hf, haddr, hbits, hcount]

theorem samePages_of_set (rel : Rel k dev H) (tight : Tight k dev) (rel' : Rel k dev' H)
    (tight' : Tight k dev') (hsame : SameCounters dev dev') : SamePages dev dev' := by
  have htracked : ∀ fp, (∃ p ∈ dev'.tree, dev'.mem p = fp) ↔ ∃ p ∈ dev.tree, dev.mem p = fp := by
    refine fun fp => ⟨?_, ?_⟩
    · rintro ⟨p, hp, rfl⟩
      exact tracked_of_set rel' tight' rel hp
    · rintro ⟨p, hp, rfl⟩
      exact tracked_of_set rel tight rel' hp
  have hfree : ∀ {d : Dev}, Rel k d H → ∀ fp, (∃ p ∈ d.freeList, d.mem p = fp) ↔
      (∃ p ∈ d.tree, d.mem p = fp) ∧ fp.freeCount ≠ 0 := by
    intro d hrel fp
    constructor
    · rintro ⟨p, hp, rfl⟩
      obtain ⟨hp, hne⟩ := (hrel.free p).mp hp
      exact ⟨⟨p, hp, rfl⟩, hne⟩
    · rintro ⟨⟨p, hp, rfl⟩, hne⟩
      exact ⟨p, (hrel.free p).mpr ⟨hp, hne⟩, rfl⟩
  refine ⟨htracked, fun fp => ?_, hsame⟩
  rw [hfree rel', hfree rel, htracked]

/-- RUN: the limits are kept where firmware has none of its own. -/
theorem limited_inv (hk : k ≤ 6) {vports : ℕ → Option ℕ}
    (h : Reach (step k c) (limited k) (start vports) w) :
    (∃ H, Inv k c w H) ∧ Limits w.dev := by
  induction h with
  | start =>
    refine ⟨⟨∅, start_inv k c vports⟩, fun v u hu => ?_⟩
    obtain ⟨limit, -, rfl⟩ := Option.map_eq_some_iff.mp hu
    have hpos : (0 : ℤ) ≤ limit := Int.natCast_nonneg limit
    exact ⟨hpos, fun _ => hpos⟩
  | @next w a _ hok ih =>
    obtain ⟨⟨H, inv⟩, limits⟩ := ih
    exact ⟨inv.step hk a hok.1, step_limits inv hk a hok limits⟩

/-- CORRECT: for system pages of at most 64 times 4K, what firmware has is accounted for in every state
    reached, and a `give_pages` that fails leaves all as before. Where firmware has no limit of its own
    and none is set below what a vport has, no vport has more than its limit. -/
theorem firmware_pages (hk : k ≤ 6) {vports : ℕ → Option ℕ}
    (h : Reach (step k c) (ok k) (start vports) w) :
    Accounted k w ∧
      (∀ funcId npages ecFunction e, Fresh k w.dev e.pages →
        (givePages k c w.dev funcId npages ecFunction e).2 = none →
          SamePages w.dev (givePages k c w.dev funcId npages ecFunction e).1) ∧
      ∀ w', Reach (step k c) (limited k) (start vports) w' → Limits w'.dev := by
  obtain ⟨H, inv⟩ := reach_inv hk h
  refine ⟨inv.accounted, fun funcId npages ecFunction e fresh hfail => ?_,
    fun w' h' => (limited_inv hk h').2⟩
  rcases @givePages_run _ funcId npages ecFunction c _ _ inv.rel inv.tight hk _ fresh with
    ⟨-, hrel, htight, hsame⟩ | ⟨pas, dev₁, hsome, -⟩
  · exact samePages_of_set inv.rel inv.tight hrel htight hsame
  · rw [hsome] at hfail
    cases hfail

end Results

/-- Three 4K pages of two system pages are given, one comes back. -/
theorem firmware_pages_two : Accounted 1 ([Act.give 0 3 false ⟨false, true, 3,
    [⟨some 8192, none, true, true⟩, ⟨some 0, some 16384, true, true⟩], true⟩,
    .reclaim 0 1 false ⟨true, false, some [12288]⟩].foldl (step 1 ⟨false, true, false, 1, 0⟩)
      (start fun _ => none)) :=
  (@firmware_pages 1 ⟨false, true, false, 1, 0⟩ _ (by norm_num) (fun _ => none)
    (Reach.start.runs (by decide +kernel))).1

/-- A vport with a limit of 1 gets two pages where firmware has limits of its own, and with system pages
    of 128 times 4K the 66th page is the 65th one again. -/
theorem firmware_pages_limit :
    (∃ w, Reach (step 0 ⟨false, true, false, 1, 0⟩) (ok 0) (start fun v => if v = 1 then some 1 else none)
      w ∧ ∃ u, w.dev.vports 1 = some u ∧ u.pageLimit = 1 ∧ u.fwPages = 2) ∧
    ∃ w, Reach (step 7 ⟨false, true, false, 1, 0⟩) (ok 7) (start fun _ => none) w ∧
      w.dev.fwPages ≠ clearedBits 7 w.dev :=
  ⟨⟨_, Reach.start.runs (l := [.give 1 2 false ⟨true, true, 2, [⟨some 4096, none, true, true⟩,
      ⟨some 8192, none, true, true⟩], true⟩]) (by decide +kernel), _, rfl, rfl, by decide +kernel⟩,
    ⟨_, Reach.start.runs (l := [.give 0 66 false ⟨true, true, 66,
      [⟨some 524288, none, true, true⟩], true⟩]) (by decide +kernel), by decide +kernel⟩⟩

end RdmaDriver.PageAlloc
