import Mathlib.Data.List.Count
import Mathlib.Data.List.Nodup
import RdmaDriver.Basic
import RdmaDriver.Schemes.Run

/-! @src drivers/infiniband/core/cache.c | name:RoCE GID table | scheme:run | family:slots

    A port's GIDs live in a table of slots, each a pointer to a counted entry. A GID is added into a
    free slot and deleted by marking its entry; the slot is released with the last reference, and an
    add that fails leaves an entry that was never in the table to be freed later. The first slots,
    those of `default_gid_indices`, are kept for default GIDs.

        free --add--> valid --del--> pending del --last put--> work queued --free--> free
                        +--del, nobody refers to it----------------------------------^

    `table->lock` is held over each call and over each round of `ib_cache_gid_set_default_gid`, so a
    round is one step; gets and puts are steps of their own. The port is a RoCE port. -/

namespace RdmaDriver.GidTable
open Schemes Function
open List (find?_some range)

/-- `union ib_gid`. -/
abbrev Gid := BitVec 128

/-- `enum gid_table_entry_state`. -/
inductive EntryState where
  | invalid | valid | pendingDel
  deriving DecidableEq

/-- The fields of `struct ib_gid_attr` by which callers name a GID; a net device is a number. -/
structure Attr where
  gidType : ℕ
  ndev : Option ℕ
  deriving DecidableEq

/-- `struct ib_gid_table_entry` with its `attr`. `default_gid` is what the add was asked for, which the
    code does not keep. -/
structure Entry where
  gid : Gid
  attr : Attr
  index : ℕ
  kref : ℕ
  state : EntryState
  defaultGid : Bool
  deriving DecidableEq

/-- A call of the driver for an entry: `ops.add_gid` that succeeded, or `ops.del_gid`. -/
inductive Hw where
  | addGid (e : ℕ)
  | delGid (e : ℕ)
  deriving DecidableEq

/-- What is fixed for a port: the table's size and default slots, and whether the hardware has a table
    of its own (`rdma_cap_roce_gid_table`). -/
structure Port where
  sz : ℕ
  defaultGidIndices : BitVec 32
  capRoceGidTable : Bool

/-- `struct ib_gid_table` and the entries it was ever given, by number; `entries` is `none` for freed
    ones. `work` are the entries whose `del_work` is queued, `users` the references handed out, one
    item for each, and `hw` the driver calls made, last first. -/
structure Table where
  dataVec : ℕ → Option ℕ
  entries : ℕ → Option Entry
  next : ℕ
  work : List ℕ
  users : List ℕ
  hw : List Hw

/-- `alloc_gid_table`. -/
def allocGidTable : Table := ⟨fun _ => none, fun _ => none, 0, [], [], []⟩

/-- What a memory allocation and the driver's `add_gid` answer. -/
structure Env where
  allocOk : Bool
  hwErr : Option Errno
  deriving DecidableEq

/-- `enum gid_attr_find_mask`. -/
structure FindMask where
  gid : Bool
  netdev : Bool
  default : Bool
  gidType : Bool

/-- `is_gid_index_default`. -/
def isGidIndexDefault (p : Port) (i : ℕ) : Bool := i < 32 && p.defaultGidIndices.getLsbD i

/-- The entry that a slot points to. -/
def Table.slot (t : Table) (i : ℕ) : Option Entry := (t.dataVec i).bind t.entries

/-- `is_gid_entry_free`. -/
def Table.isFree (t : Table) (i : ℕ) : Bool := (t.dataVec i).isNone

/-- `is_gid_entry_valid`. -/
def Table.isValid (t : Table) (i : ℕ) : Bool :=
  (t.slot i).any fun x => x.state = .valid

def Table.setEntry (t : Table) (e : ℕ) (x : Option Entry) : Table :=
  { t with entries := update t.entries e x }

/-- `free_gid_entry_locked`: the slot is cleared only while it is still this entry's. -/
def freeGidEntryLocked (t : Table) (e : ℕ) : Table :=
  match t.entries e with
  | none => t
  | some x =>
    { t.setEntry e none with
      dataVec :=
        if t.dataVec x.index = some e then update t.dataVec x.index none
        else t.dataVec }

/-- `schedule_free_gid`. -/
def scheduleFreeGid (t : Table) (e : ℕ) : Table := { t with work := e :: t.work }

/-- `kref_put` of an entry. -/
def krefPut (t : Table) (e : ℕ) (release : Table → ℕ → Table) : Table :=
  match t.entries e with
  | none => t
  | some x =>
    let t := t.setEntry e (some { x with kref := x.kref - 1 })
    if x.kref - 1 = 0 then release t e else t

/-- `put_gid_entry`. -/
def putGidEntry (t : Table) (e : ℕ) : Table := krefPut t e scheduleFreeGid

/-- `put_gid_entry_locked`. -/
def putGidEntryLocked (t : Table) (e : ℕ) : Table := krefPut t e freeGidEntryLocked

/-- `get_gid_entry` for a user, who then has one more reference. -/
def getGidEntry (t : Table) (e : ℕ) : Table :=
  match t.entries e with
  | none => t
  | some x => { t.setEntry e (some { x with kref := x.kref + 1 }) with users := e :: t.users }

/-- `free_gid_work`. -/
def freeGidWork (t : Table) (e : ℕ) : Table :=
  freeGidEntryLocked { t with work := t.work.erase e } e

/-- `store_gid_entry`. -/
def storeGidEntry (t : Table) (e : ℕ) : Table :=
  match t.entries e with
  | none => t
  | some x =>
    { t.setEntry e (some { x with state := .valid }) with
      dataVec := update t.dataVec x.index (some e) }

/-- `add_roce_gid`. -/
def addRoceGid (p : Port) (t : Table) (e : ℕ) (attr : Attr) (env : Env) : Option Errno × Table :=
  if attr.ndev.isNone then (some .einval, t)
  else if p.capRoceGidTable then
    match env.hwErr with
    | some err => (some err, t)
    | none => (none, { t with hw := .addGid e :: t.hw })
  else (none, t)

/-- `del_gid` of a RoCE port, where the slot stays taken. -/
def delGid (p : Port) (t : Table) (ix : ℕ) : Table :=
  match t.dataVec ix with
  | none => t
  | some e =>
    match t.entries e with
    | none => t
    | some x =>
      let t := { t with hw := if p.capRoceGidTable then .delGid e :: t.hw else t.hw }
      let attr := { x.attr with ndev := none }
      putGidEntryLocked (t.setEntry e (some { x with state := .pendingDel, attr })) e

/-- `add_modify_gid` of a RoCE port, for the slot `index`. -/
def addModifyGid (p : Port) (t : Table) (gid : Gid) (attr : Attr) (index : ℕ) (defaultGid : Bool)
    (env : Env) : Option Errno × Table :=
  let t := if t.isValid index then delGid p t index else t
  if gid = 0 then (none, t)
  else if !env.allocOk then (some .enomem, t)
  else
    let e := t.next
    let t := { t.setEntry e (some ⟨gid, attr, index, 1, .invalid, defaultGid⟩) with next := e + 1 }
    match addRoceGid p t e attr env with
    | (none, t) => (none, storeGidEntry t e)
    | (some err, t) => (some err, putGidEntry t e)

/-- The checks of `find_gid` on the entry of a slot, for a mask. -/
def findMatch (p : Port) (t : Table) (gid : Gid) (val : Attr) (defaultGid : Bool)
    (mask : FindMask) (i : ℕ) : Bool :=
  (t.slot i).any fun x =>
    x.state = .valid &&
    (!mask.gidType || x.attr.gidType = val.gidType) &&
    (!mask.gid || x.gid = gid) &&
    (!mask.netdev || x.attr.ndev = val.ndev) &&
    (!mask.default || isGidIndexDefault p i = defaultGid)

/-- A slot that `find_gid` returns as empty. -/
def findEmpty (p : Port) (t : Table) (defaultGid : Bool) (i : ℕ) : Bool :=
  t.isFree i && (defaultGid = isGidIndexDefault p i)

/-- The loop of `find_gid` over `n` slots from `i` on; `found` and `empty` are negative in the source
    where they are `none` here. -/
def findLoop (hit free : ℕ → Bool) (pempty : Bool) :
    ℕ → ℕ → Option ℕ → Option ℕ → Option ℕ × Option ℕ
  | 0, _, found, empty => (found, empty)
  | n + 1, i, found, empty =>
    if found.isNone || empty.isNone then
      findLoop hit free pempty n (i + 1)
        (if found.isNone && hit i then some i else found)
        (if pempty && empty.isNone && free i then some i else empty)
    else (found, empty)

/-- `find_gid`: the slot found and, for `pempty`, the empty slot. -/
def findGid (p : Port) (t : Table) (gid : Gid) (val : Attr) (defaultGid : Bool)
    (mask : FindMask) (pempty : Bool) : Option ℕ × Option ℕ :=
  findLoop (findMatch p t gid val defaultGid mask) (findEmpty p t defaultGid) pempty p.sz 0 none
    (if pempty then none else some 0)

/-- `__ib_cache_gid_add`. -/
def gidAdd (p : Port) (t : Table) (gid : Gid) (attr : Attr) (mask : FindMask) (defaultGid : Bool)
    (env : Env) : Option Errno × Table :=
  if gid = 0 then (some .einval, t)
  else
    match findGid p t gid attr defaultGid mask true with
    | (some _, _) => (none, t)
    | (none, none) => (some .enospc, t)
    | (none, some empty) => addModifyGid p t gid attr empty defaultGid env

/-- `_ib_cache_gid_del`. -/
def gidDel (p : Port) (t : Table) (gid : Gid) (attr : Attr) (mask : FindMask) (defaultGid : Bool) :
    Option Errno × Table :=
  match (findGid p t gid attr defaultGid mask false).1 with
  | none => (some .einval, t)
  | some ix => (none, delGid p t ix)

/-- `ib_cache_gid_add`. -/
def ibCacheGidAdd (p : Port) (t : Table) (gid : Gid) (attr : Attr) (env : Env) :
    Option Errno × Table :=
  gidAdd p t gid attr ⟨true, true, false, true⟩ false env

/-- `ib_cache_gid_del`. -/
def ibCacheGidDel (p : Port) (t : Table) (gid : Gid) (attr : Attr) : Option Errno × Table :=
  gidDel p t gid attr ⟨true, true, true, true⟩ false

/-- The loop that deletes the valid entries that `which` selects. -/
def delGids (p : Port) (which : Entry → Bool) (t : Table) : Table :=
  (range p.sz).foldl
    (fun t ix => if (t.slot ix).any fun x => x.state = .valid && which x then delGid p t ix else t) t

/-- `ib_cache_gid_del_all_netdev_gids`. -/
def ibCacheGidDelAllNetdevGids (p : Port) (t : Table) (ndev : Option ℕ) : Table :=
  delGids p (fun x => x.attr.ndev = ndev) t

/-- `cleanup_gid_table_port`. -/
def cleanupGidTablePort (p : Port) (t : Table) : Table := delGids p (fun _ => true) t

/-- `enum ib_cache_gid_default_mode`. -/
inductive DefaultMode where
  | set | delete
  deriving DecidableEq

/-- The mask of `ib_cache_gid_set_default_gid`. -/
def defaultMask : FindMask := ⟨false, true, true, true⟩

/-- One round of the loop of `ib_cache_gid_set_default_gid`; `gid` is what `make_default_gid` makes of
    the address that the net device has. -/
def setDefaultGid (p : Port) (t : Table) (gid : Gid) (attr : Attr) (mode : DefaultMode) (env : Env) :
    Option Errno × Table :=
  match mode with
  | .set => gidAdd p t gid attr defaultMask true env
  | .delete => gidDel p t gid attr defaultMask true

/-- A lookup takes a reference of the entry in the slot it found. -/
def getSlot (t : Table) (found : Option ℕ) : Table :=
  match found.bind t.dataVec with
  | none => t
  | some e => getGidEntry t e

/-- `rdma_find_gid_by_port`; `ndev` is `none` for any net device. -/
def rdmaFindGidByPort (p : Port) (t : Table) (gid : Gid) (gidType : ℕ) (ndev : Option ℕ) :
    Option ℕ :=
  (findGid p t gid ⟨gidType, ndev⟩ false ⟨true, ndev.isSome, false, true⟩ false).1

/-- `rdma_find_gid_by_filter`. -/
def rdmaFindGidByFilter (p : Port) (t : Table) (gid : Gid) (filter : Entry → Bool) : Option ℕ :=
  (range p.sz).find? fun i =>
    (t.slot i).any fun x => x.state = .valid && x.gid = gid && filter x

/-- `rdma_get_gid_attr`. -/
def rdmaGetGidAttr (p : Port) (t : Table) (index : ℕ) : Option ℕ :=
  if index < p.sz && t.isValid index then some index else none

/-- What can happen to a table. `hold` and `put` are `rdma_hold_gid_attr` and `rdma_put_gid_attr` of a
    reference that somebody has; `work` is the queued work of an entry that runs. -/
inductive Op where
  | add (gid : Gid) (attr : Attr) (env : Env)
  | del (gid : Gid) (attr : Attr)
  | delAllNetdevGids (ndev : Option ℕ)
  | setDefaultGid (gid : Gid) (attr : Attr) (mode : DefaultMode) (env : Env)
  | cleanup
  | findByPort (gid : Gid) (gidType : ℕ) (ndev : Option ℕ)
  | findByFilter (gid : Gid) (filter : Entry → Bool)
  | get (index : ℕ)
  | hold (e : ℕ)
  | put (e : ℕ)
  | work (e : ℕ)

def step (p : Port) (t : Table) : Op → Table
  | .add gid attr env => (ibCacheGidAdd p t gid attr env).2
  | .del gid attr => (ibCacheGidDel p t gid attr).2
  | .delAllNetdevGids ndev => ibCacheGidDelAllNetdevGids p t ndev
  | .setDefaultGid gid attr mode env => (setDefaultGid p t gid attr mode env).2
  | .cleanup => cleanupGidTablePort p t
  | .findByPort gid gidType ndev => getSlot t (rdmaFindGidByPort p t gid gidType ndev)
  | .findByFilter gid filter => getSlot t (rdmaFindGidByFilter p t gid filter)
  | .get index => getSlot t (rdmaGetGidAttr p t index)
  | .hold e => getGidEntry t e
  | .put e => { putGidEntry t e with users := t.users.erase e }
  | .work e => freeGidWork t e

/-- A reference is put, or held once more, by somebody who has it; a work runs when it is queued. -/
def ok (t : Table) : Op → Prop
  | .hold e => e ∈ t.users
  | .put e => e ∈ t.users
  | .work e => e ∈ t.work
  | _ => True

/-! What every table of a run satisfies. -/

/-- An entry in memory: its slot is its own unless it was never stored, it is counted by its users and
    by the table while it is valid, and at zero its work is queued. -/
structure OfEntry (p : Port) (t : Table) (e : ℕ) (x : Entry) : Prop where
  index : x.index < p.sz
  default : x.defaultGid = isGidIndexDefault p x.index
  slot : x.state ≠ .invalid → t.dataVec x.index = some e
  kref : x.kref = t.users.count e + if x.state = .valid then 1 else 0
  zero : x.kref = 0 → e ∈ t.work
  ndev : x.state = .valid → x.attr.ndev.isSome ∧ x.gid ≠ 0
  hw : x.state = .valid →
    t.hw.count (.addGid e) = p.capRoceGidTable.toNat ∧ t.hw.count (.delGid e) = 0

/-- What holds of the entry number `e`: the slots, the references, the queued work and the driver calls
    that name it fit to what is in memory under that number. -/
structure At (p : Port) (t : Table) (e : ℕ) : Prop where
  entry : ∀ x, t.entries e = some x → OfEntry p t e x
  slot : ∀ i, t.dataVec i = some e → ∃ x, t.entries e = some x ∧ x.index = i ∧ x.state ≠ .invalid
  user : e ∈ t.users → ∃ x, t.entries e = some x
  work : e ∈ t.work → ∃ x, t.entries e = some x ∧ x.kref = 0
  fresh : t.next ≤ e → t.entries e = none ∧ t.hw.count (.addGid e) = 0
  once : t.hw.count (.addGid e) ≤ 1
  paired : (∀ x, t.entries e = some x → x.state ≠ .valid) →
    t.hw.count (.delGid e) = t.hw.count (.addGid e)

structure Inv (p : Port) (t : Table) : Prop where
  at_ : ∀ e, At p t e
  nodup : t.work.Nodup

/-- From one table to the next an entry keeps its place and its GID, is not made valid again, and is
    deleted for good. -/
structure Moves (t t' : Table) : Prop where
  next : t.next ≤ t'.next
  old : ∀ e x', e < t.next → t'.entries e = some x' → ∃ x, t.entries e = some x ∧
    x'.gid = x.gid ∧ x'.index = x.index ∧ x'.defaultGid = x.defaultGid ∧
    (x'.state = .valid → x.state = .valid ∧ x'.attr = x.attr) ∧
    (x.state = .pendingDel → x'.state = .pendingDel)

theorem Moves.refl (t : Table) : Moves t t :=
  ⟨le_rfl, fun _ x' _ h => ⟨x', h, rfl, rfl, rfl, fun hs => ⟨hs, rfl⟩, id⟩⟩

theorem Moves.trans {t₁ t₂ t₃ : Table} (h : Moves t₁ t₂) (h' : Moves t₂ t₃) : Moves t₁ t₃ := by
  refine ⟨h.next.trans h'.next, fun e x₃ he hx₃ => ?_⟩
  obtain ⟨x₂, hx₂, g₂, i₂, d₂, v₂, p₂⟩ := h'.old e x₃ (he.trans_le h.next) hx₃
  obtain ⟨x₁, hx₁, g₁, i₁, d₁, v₁, p₁⟩ := h.old e x₂ he hx₂
  exact ⟨x₁, hx₁, g₂.trans g₁, i₂.trans i₁, d₂.trans d₁,
    fun hs => ⟨(v₁ (v₂ hs).1).1, (v₂ hs).2.trans (v₁ (v₂ hs).1).2⟩, fun hs => p₂ (p₁ hs)⟩

/-- Everything but the entry `e` is as it was. -/
structure Frame (t t' : Table) (e : ℕ) : Prop where
  entries : ∀ f, f ≠ e → t'.entries f = t.entries f
  dataVec : ∀ i f, f ≠ e → (t'.dataVec i = some f ↔ t.dataVec i = some f)
  users : ∀ f, f ≠ e → t'.users.count f = t.users.count f
  work : ∀ f, f ≠ e → (f ∈ t'.work ↔ f ∈ t.work)
  hw : ∀ f, f ≠ e → t'.hw.count (.addGid f) = t.hw.count (.addGid f) ∧
    t'.hw.count (.delGid f) = t.hw.count (.delGid f)
  next : t.next ≤ t'.next

section Primitives
variable {p : Port} {t t' : Table} {e f : ℕ} {x : Entry}

/-- FRAME: what holds of an entry holds after a change of another one. -/
theorem At.frame (h : At p t f) (hF : Frame t t' e) (hf : f ≠ e) : At p t' f := by
  have hmem : f ∈ t'.users ↔ f ∈ t.users := by
    rw [← List.count_pos_iff, hF.users f hf, List.count_pos_iff]
  obtain ⟨hadd, hdel⟩ := hF.hw f hf
  refine ⟨?_, ?_, ?_, ?_, ?_, ?_, ?_⟩
  · intro y hy
    rw [hF.entries f hf] at hy
    obtain ⟨h1, h2, h3, h4, h5, h6, h7⟩ := h.entry y hy
    refine ⟨h1, h2, fun hs => (hF.dataVec _ f hf).mpr (h3 hs), ?_, ?_, h6, ?_⟩
    · rw [hF.users f hf]
      exact h4
    · exact fun hk => (hF.work f hf).mpr (h5 hk)
    · rw [hadd, hdel]
      exact h7
  · intro i hi
    rw [hF.entries f hf]
    exact h.slot i ((hF.dataVec i f hf).mp hi)
  · intro hu
    rw [hF.entries f hf]
    exact h.user (hmem.mp hu)
  · intro hw
    rw [hF.entries f hf]
    exact h.work ((hF.work f hf).mp hw)
  · intro hn
    rw [hF.entries f hf, hadd]
    exact h.fresh (hF.next.trans hn)
  · rw [hadd]
    exact h.once
  · rw [hF.entries f hf, hadd, hdel]
    exact h.paired

/-- A change of one entry is checked at that entry only. -/
theorem Inv.change (h : Inv p t) (hF : Frame t t' e) (hat : At p t' e) (hn : t'.work.Nodup) :
    Inv p t' := by
  refine ⟨fun f => ?_, hn⟩
  rcases eq_or_ne f e with rfl | hf
  · exact hat
  · exact (h.at_ f).frame hF hf

/-- The part of `Moves` that is about the changed entry. -/
theorem Frame.moves (hF : Frame t t' e)
    (he : ∀ x', e < t.next → t'.entries e = some x' → ∃ x, t.entries e = some x ∧
      x'.gid = x.gid ∧ x'.index = x.index ∧ x'.defaultGid = x.defaultGid ∧
      (x'.state = .valid → x.state = .valid ∧ x'.attr = x.attr) ∧
      (x.state = .pendingDel → x'.state = .pendingDel)) : Moves t t' := by
  refine ⟨hF.next, fun f y hlt hy => ?_⟩
  rcases eq_or_ne f e with rfl | hf
  · exact he y hlt hy
  · rw [hF.entries f hf] at hy
    exact ⟨y, hy, rfl, rfl, rfl, fun hs => ⟨hs, rfl⟩, id⟩

theorem Inv.live (h : Inv p t) (hx : t.entries e = some x) : e < t.next := by
  by_contra hlt
  rw [((h.at_ e).fresh (by omega)).1] at hx
  cases hx

/-- STEP: a reference is taken of an entry that somebody, or the table, still counts. -/
theorem Inv.get (h : Inv p t) (hx : t.entries e = some x) (h0 : x.kref ≠ 0) :
    Inv p (getGidEntry t e) ∧ Moves t (getGidEntry t e) := by
  have heq : getGidEntry t e =
      { t.setEntry e (some { x with kref := x.kref + 1 }) with users := e :: t.users } := by
    simp only [getGidEntry, hx]
  have hself : (t.setEntry e (some { x with kref := x.kref + 1 })).entries e =
      some { x with kref := x.kref + 1 } := update_self ..
  have hX := (h.at_ e).entry x hx
  rw [heq]
  have hF : Frame t { t.setEntry e (some { x with kref := x.kref + 1 }) with
      users := e :: t.users } e :=
    ⟨fun f hf => update_of_ne hf .., fun _ _ _ => Iff.rfl,
      fun f hf => List.count_cons_of_ne (Ne.symm hf), fun _ _ => Iff.rfl, fun _ _ => ⟨rfl, rfl⟩,
      le_rfl⟩
  refine ⟨h.change hF ⟨?_, ?_, fun _ => ⟨_, hself⟩, ?_, ?_, (h.at_ e).once, ?_⟩ h.nodup,
    hF.moves fun y _ hy => ?_⟩
  · intro y hy
    cases hself.symm.trans hy
    refine { hX with kref := ?_, zero := fun hk => by simp at hk }
    have hk := hX.kref
    simp only [List.count_cons_self]
    omega
  · intro i hi
    obtain ⟨y, hy, hyi, hs⟩ := (h.at_ e).slot i hi
    cases hx.symm.trans hy
    exact ⟨_, hself, hyi, hs⟩
  · intro hw
    obtain ⟨y, hy, hk⟩ := (h.at_ e).work hw
    cases hx.symm.trans hy
    exact absurd hk h0
  · exact fun hn => absurd (h.live hx) (Nat.not_lt.mpr hn)
  · intro hv
    refine (h.at_ e).paired fun y hy => ?_
    cases hx.symm.trans hy
    exact hv { x with kref := x.kref + 1 } hself
  · cases hself.symm.trans hy
    exact ⟨x, hx, rfl, rfl, rfl, fun hs => ⟨hs, rfl⟩, id⟩

/-- STEP: a user puts the reference. -/
theorem Inv.put (h : Inv p t) (he : e ∈ t.users) :
    Inv p { putGidEntry t e with users := t.users.erase e } ∧
      Moves t { putGidEntry t e with users := t.users.erase e } := by
  obtain ⟨x, hx⟩ := (h.at_ e).user he
  have hX := (h.at_ e).entry x hx
  have hpos : 0 < t.users.count e := List.count_pos_iff.mpr he
  have hk := hX.kref
  have hnw : e ∉ t.work := by
    intro hw
    obtain ⟨y, hy, hy0⟩ := (h.at_ e).work hw
    cases hx.symm.trans hy
    omega
  have hself : (t.setEntry e (some { x with kref := x.kref - 1 })).entries e =
      some { x with kref := x.kref - 1 } := update_self ..
  have heq : putGidEntry t e = { t.setEntry e (some { x with kref := x.kref - 1 }) with
        work := if x.kref - 1 = 0 then e :: t.work else t.work } := by
    simp only [putGidEntry, krefPut, hx]
    split <;> rfl
  rw [heq]
  have hF : Frame t { t.setEntry e (some { x with kref := x.kref - 1 }) with
      work := if x.kref - 1 = 0 then e :: t.work else t.work
      users := t.users.erase e } e := by
    refine ⟨fun f hf => update_of_ne hf .., fun _ _ _ => Iff.rfl,
      fun f hf => List.count_erase_of_ne hf, fun f hf => ?_, fun _ _ => ⟨rfl, rfl⟩, le_rfl⟩
    split
    · simp only [List.mem_cons, hf, false_or]
    · rfl
  refine ⟨h.change hF ⟨?_, ?_, fun _ => ⟨_, hself⟩, ?_, ?_, (h.at_ e).once, ?_⟩ ?_,
    hF.moves fun y _ hy => ?_⟩
  · intro y hy
    cases hself.symm.trans hy
    refine { hX with kref := ?_, zero := fun h0 => ?_ }
    · simp only [List.count_erase_self]
      omega
    · dsimp only at h0 ⊢
      rw [if_pos h0]
      exact List.mem_cons_self ..
  · intro i hi
    obtain ⟨y, hy, hyi, hs⟩ := (h.at_ e).slot i hi
    cases hx.symm.trans hy
    exact ⟨_, hself, hyi, hs⟩
  · intro hw
    refine ⟨_, hself, ?_⟩
    by_contra h0
    exact hnw (by simpa only [if_neg h0] using hw)
  · exact fun hn => absurd (h.live hx) (Nat.not_lt.mpr hn)
  · intro hv
    refine (h.at_ e).paired fun y hy => ?_
    cases hx.symm.trans hy
    exact hv { x with kref := x.kref - 1 } hself
  · dsimp only
    split
    · exact List.nodup_cons.mpr ⟨hnw, h.nodup⟩
    · exact h.nodup
  · cases hself.symm.trans hy
    exact ⟨x, hx, rfl, rfl, rfl, fun hs => ⟨hs, rfl⟩, id⟩

/-- An entry that nobody counts is not valid and has no users. -/
theorem OfEntry.dead (hX : OfEntry p t e x) (h0 : x.kref = 0) : x.state ≠ .valid ∧ e ∉ t.users := by
  have hk := hX.kref
  constructor
  · intro hv
    rw [if_pos hv] at hk
    omega
  · intro hu
    have := List.count_pos_iff.mpr hu
    omega

section
variable (hx : t.entries e = some x)
include hx

/-- `free_gid_entry_locked` clears the slot of the entry, and no other. -/
theorem free_data_vec (hslot : ∀ i, t.dataVec i = some e → x.index = i)
    (i : ℕ) : (freeGidEntryLocked t e).dataVec i =
      if t.dataVec i = some e then none else t.dataVec i := by
  simp only [freeGidEntryLocked, hx]
  split
  · rename_i hix
    rw [update_apply]
    rcases eq_or_ne i x.index with rfl | hne
    · rw [if_pos rfl, if_pos hix]
    · rw [if_neg hne, if_neg fun hie => hne (hslot i hie).symm]
  · rename_i hix
    rw [if_neg]
    intro hie
    exact hix (hslot i hie ▸ hie)

theorem free_entries : (freeGidEntryLocked t e).entries = update t.entries e none := by
  simp only [freeGidEntryLocked, hx, Table.setEntry]

theorem free_rest : (freeGidEntryLocked t e).next = t.next ∧
    (freeGidEntryLocked t e).work = t.work ∧ (freeGidEntryLocked t e).users = t.users ∧
    (freeGidEntryLocked t e).hw = t.hw := by
  simp only [freeGidEntryLocked, hx]
  exact ⟨rfl, rfl, rfl, rfl⟩

/-- Freeing an entry touches no other one. -/
theorem free_frame (hslot : ∀ i, t.dataVec i = some e → x.index = i) :
    Frame t (freeGidEntryLocked t e) e := by
  obtain ⟨hnext, hwork, husers, hhw⟩ := free_rest hx
  refine ⟨fun f hf => ?_, fun i f hf => ?_, fun f _ => by rw [husers], fun f _ => by rw [hwork],
    fun f _ => by rw [hhw]; exact ⟨rfl, rfl⟩, hnext.ge⟩
  · rw [free_entries hx]
    exact update_of_ne hf ..
  · rw [free_data_vec hx hslot]
    split
    · rename_i hie
      rw [hie]
      simp [Ne.symm hf]
    · rfl

end

theorem Frame.trans {t₁ t₂ t₃ : Table} (h : Frame t₁ t₂ e) (h' : Frame t₂ t₃ e) :
    Frame t₁ t₃ e :=
  ⟨fun f hf => (h'.entries f hf).trans (h.entries f hf),
    fun i f hf => (h'.dataVec i f hf).trans (h.dataVec i f hf),
    fun f hf => (h'.users f hf).trans (h.users f hf),
    fun f hf => (h'.work f hf).trans (h.work f hf),
    fun f hf => ⟨(h'.hw f hf).1.trans (h.hw f hf).1, (h'.hw f hf).2.trans (h.hw f hf).2⟩,
    h.next.trans h'.next⟩

/-- An entry number that is free again. -/
theorem At.gone (hnone : t.entries e = none) (hslot : ∀ i, t.dataVec i ≠ some e)
    (hu : e ∉ t.users) (hw : e ∉ t.work) (hadd : t.next ≤ e → t.hw.count (.addGid e) = 0)
    (hone : t.hw.count (.addGid e) ≤ 1)
    (hpair : t.hw.count (.delGid e) = t.hw.count (.addGid e)) : At p t e := by
  refine ⟨fun y hy => ?_, fun i hi => absurd hi (hslot i), fun h => absurd h hu,
    fun h => absurd h hw, fun hn => ⟨hnone, hadd hn⟩, hone, fun _ => hpair⟩
  rw [hnone] at hy
  cases hy

/-- STEP: the work of an entry runs and the entry is freed. -/
theorem Inv.work (h : Inv p t) (he : e ∈ t.work) :
    Inv p (freeGidWork t e) ∧ Moves t (freeGidWork t e) := by
  obtain ⟨x, hx, h0⟩ := (h.at_ e).work he
  obtain ⟨hv, hu⟩ := ((h.at_ e).entry x hx).dead h0
  have hslot : ∀ i, t.dataVec i = some e → x.index = i := by
    intro i hi
    obtain ⟨y, hy, hyi, -⟩ := (h.at_ e).slot i hi
    cases hx.symm.trans hy
    exact hyi
  have hx' : ({ t with work := t.work.erase e } : Table).entries e = some x := hx
  obtain ⟨hnext, hwork, husers, hhw⟩ := free_rest hx'
  have hnone : (freeGidWork t e).entries e = none := by
    rw [freeGidWork, free_entries hx', update_self]
  have hF₀ : Frame t { t with work := t.work.erase e } e :=
    ⟨fun _ _ => rfl, fun _ _ _ => Iff.rfl, fun _ _ => rfl, fun _ hf => List.mem_erase_of_ne hf,
      fun _ _ => ⟨rfl, rfl⟩, le_rfl⟩
  have hF : Frame t (freeGidWork t e) e := hF₀.trans (free_frame hx' hslot)
  have hpair := (h.at_ e).paired fun y hy => by
    cases hx.symm.trans hy
    exact hv
  refine ⟨h.change hF (At.gone hnone (fun i hi => ?_) ?_ ?_ ?_ ?_ ?_) ?_, hF.moves fun y _ hy => ?_⟩
  · rw [freeGidWork, free_data_vec hx' hslot] at hi
    split at hi
    · cases hi
    · exact absurd hi ‹_›
  · exact fun hmem => hu (husers ▸ hmem)
  · exact fun hmem => h.nodup.not_mem_erase (hwork ▸ hmem)
  · exact fun hn => absurd (h.live hx) (Nat.not_lt.mpr (hnext ▸ hn))
  · exact hhw ▸ (h.at_ e).once
  · exact hhw ▸ hpair
  · exact hwork ▸ h.nodup.erase e
  · rw [hnone] at hy
    cases hy

/-- `del_gid` before the table's reference is put: the entry is marked and its net device dropped. -/
def markDel (p : Port) (t : Table) (e : ℕ) (x : Entry) : Table :=
  { t.setEntry e (some
      { x with state := .pendingDel, kref := x.kref - 1, attr := { x.attr with ndev := none } }) with
    hw := if p.capRoceGidTable then .delGid e :: t.hw else t.hw }

/-- What `del_gid` does to a valid entry: it is marked, and freed at once when nobody refers to it. -/
theorem delGid_eq {ix : ℕ} (hix : t.dataVec ix = some e) (hx : t.entries e = some x) :
    delGid p t ix =
      if x.kref - 1 = 0 then freeGidEntryLocked (markDel p t e x) e else markDel p t e x := by
  simp only [delGid, hix, hx, putGidEntryLocked, krefPut, Table.setEntry, update_self,
    update_idem, markDel]

theorem markDel_frame : Frame t (markDel p t e x) e := by
  refine ⟨fun f hf => update_of_ne hf .., fun _ _ _ => Iff.rfl, fun _ _ => rfl,
    fun _ _ => Iff.rfl, fun f hf => ?_, le_rfl⟩
  dsimp only [markDel]
  split
  · simp [Ne.symm hf]
  · exact ⟨rfl, rfl⟩

/-- The driver call of `del_gid` pairs the one that added the entry. -/
theorem markDel_hw (hX : OfEntry p t e x) (hv : x.state = .valid) :
    (markDel p t e x).hw.count (.addGid e) = t.hw.count (.addGid e) ∧
      (markDel p t e x).hw.count (.delGid e) = (markDel p t e x).hw.count (.addGid e) := by
  obtain ⟨hadd, hdel⟩ := hX.hw hv
  cases hcap : p.capRoceGidTable with
  | true => simp [markDel, hcap, hadd, hdel]
  | false => simp [markDel, hcap, hadd, hdel]

/-- STEP: a valid entry is deleted, and nothing valid is left of it. -/
theorem Inv.del (h : Inv p t) {ix : ℕ} (hix : t.dataVec ix = some e) (hx : t.entries e = some x)
    (hv : x.state = .valid) :
    Inv p (delGid p t ix) ∧ Moves t (delGid p t ix) ∧ Frame t (delGid p t ix) e ∧
      ∀ y, (delGid p t ix).entries e = some y → y.state = .pendingDel := by
  have hX := (h.at_ e).entry x hx
  have hk := hX.kref
  rw [if_pos hv] at hk
  have hslot : ∀ i, t.dataVec i = some e → x.index = i := by
    intro i hi
    obtain ⟨y, hy, hyi, -⟩ := (h.at_ e).slot i hi
    cases hx.symm.trans hy
    exact hyi
  have hnw : e ∉ t.work := by
    intro hw
    obtain ⟨y, hy, hy0⟩ := (h.at_ e).work hw
    cases hx.symm.trans hy
    omega
  obtain ⟨hadd, hpair⟩ := markDel_hw hX hv
  have hself : (markDel p t e x).entries e = some
      { x with state := .pendingDel, kref := x.kref - 1, attr := { x.attr with ndev := none } } :=
    update_self ..
  rw [delGid_eq hix hx]
  split
  · -- nobody else refers to the entry: it is freed here
    have hF : Frame t (freeGidEntryLocked (markDel p t e x) e) e :=
      markDel_frame.trans (free_frame hself hslot)
    obtain ⟨hnext, hwork, husers, hhw⟩ := free_rest hself
    have hnone : (freeGidEntryLocked (markDel p t e x) e).entries e = none := by
      rw [free_entries hself, update_self]
    refine ⟨h.change hF (At.gone hnone (fun i hi => ?_) ?_ ?_ ?_ ?_ ?_) ?_,
      hF.moves fun y _ hy => ?_, hF, fun y hy => ?_⟩
    · rw [free_data_vec hself hslot] at hi
      split at hi
      · cases hi
      · exact absurd hi ‹_›
    · rw [husers]
      intro hu
      have := List.count_pos_iff.mpr hu
      have husers' : (markDel p t e x).users = t.users := rfl
      rw [husers'] at this
      omega
    · exact fun hmem => hnw (hwork ▸ hmem)
    · exact fun hn => absurd (h.live hx) (Nat.not_lt.mpr (hnext ▸ hn))
    · rw [hhw, hadd]
      exact (h.at_ e).once
    · rw [hhw]
      exact hpair
    · exact hwork ▸ h.nodup
    · rw [hnone] at hy
      cases hy
    · rw [hnone] at hy
      cases hy
  · -- the users keep the entry, and the entry keeps the slot
    rename_i h0
    have hF : Frame t (markDel p t e x) e := markDel_frame
    refine ⟨h.change hF ⟨?_, ?_, fun _ => ⟨_, hself⟩, fun hw => absurd hw hnw, ?_, ?_, fun _ => hpair⟩
      h.nodup, hF.moves fun y _ hy => ?_, hF, fun y hy => ?_⟩
    · intro y hy
      cases hself.symm.trans hy
      refine ⟨hX.index, hX.default, fun _ => hX.slot (by rw [hv]; decide), ?_,
        fun hk0 => absurd hk0 h0, nofun, nofun⟩
      change x.kref - 1 = t.users.count e + 0
      omega
    · intro i hi
      exact ⟨_, hself, hslot i hi, nofun⟩
    · exact fun hn => absurd (h.live hx) (Nat.not_lt.mpr hn)
    · rw [hadd]
      exact (h.at_ e).once
    · cases hself.symm.trans hy
      exact ⟨x, hx, rfl, rfl, rfl, nofun, fun _ => rfl⟩
    · cases hself.symm.trans hy
      rfl

/-- The new entry of `add_modify_gid` that the hardware, or `add_roce_gid` itself, refused: it was put
    and its work is queued. -/
def failedEntry (t : Table) (x : Entry) : Table :=
  { t.setEntry t.next (some { x with kref := 0, state := .invalid }) with
    next := t.next + 1
    work := t.next :: t.work }

/-- The new entry of `add_modify_gid` in its slot. -/
def storedEntry (p : Port) (t : Table) (x : Entry) : Table :=
  { t.setEntry t.next (some { x with kref := 1, state := .valid }) with
    next := t.next + 1
    dataVec := update t.dataVec x.index (some t.next)
    hw := if p.capRoceGidTable then .addGid t.next :: t.hw else t.hw }

/-- The calls that `add_modify_gid` of a GID makes can all succeed. -/
def AddOk (p : Port) (attr : Attr) (env : Env) : Prop :=
  env.allocOk = true ∧ attr.ndev.isSome ∧ (p.capRoceGidTable = true → env.hwErr = none)

/-- `add_modify_gid` of a GID into a free slot: it is stored, or nothing was allocated, or the entry is
    left to be freed. -/
theorem addModifyGid_cases (gid : Gid) (attr : Attr) (i : ℕ) (d : Bool) (env : Env)
    (hi : t.dataVec i = none) (hg : gid ≠ 0) :
    (AddOk p attr env ∧ addModifyGid p t gid attr i d env =
      (none, storedEntry p t ⟨gid, attr, i, 1, .valid, d⟩)) ∨
    ¬ AddOk p attr env ∧ ∃ err, addModifyGid p t gid attr i d env = (some err, t) ∨
      addModifyGid p t gid attr i d env =
        (some err, failedEntry t ⟨gid, attr, i, 1, .invalid, d⟩) := by
  have hvalid : t.isValid i = false := by
    simp only [Table.isValid, Table.slot, hi, Option.bind_none, Option.any_none]
  unfold addModifyGid AddOk
  rw [hvalid]
  simp only [hg]
  cases halloc : env.allocOk with
  | false => exact .inr ⟨by simp, .enomem, .inl rfl⟩
  | true =>
    cases hnd : attr.ndev with
    | none =>
      refine .inr ⟨by simp, .einval, .inr ?_⟩
      simp [addRoceGid, hnd, putGidEntry, krefPut, Table.setEntry, scheduleFreeGid, failedEntry]
    | some nd =>
      cases hcap : p.capRoceGidTable with
      | false =>
        refine .inl ⟨by simp, ?_⟩
        simp [addRoceGid, hnd, hcap, storeGidEntry, Table.setEntry, storedEntry]
      | true =>
        cases herr : env.hwErr with
        | none =>
          refine .inl ⟨by simp, ?_⟩
          simp [addRoceGid, hnd, hcap, herr, storeGidEntry, Table.setEntry, storedEntry]
        | some err =>
          refine .inr ⟨by simp, err, .inr ?_⟩
          simp [addRoceGid, hnd, hcap, herr, putGidEntry, krefPut, Table.setEntry,
            scheduleFreeGid, failedEntry]

section
variable (h : Inv p t) (hidx : x.index < p.sz) (hd : x.defaultGid = isGidIndexDefault p x.index)
include h hidx hd

/-- STEP: an add that fails after the allocation. The slots are as they were. -/
theorem Inv.fail : Inv p (failedEntry t x) ∧ Moves t (failedEntry t x) := by
  obtain ⟨hnone, hadd⟩ := (h.at_ t.next).fresh le_rfl
  have hself : (failedEntry t x).entries t.next = some { x with kref := 0, state := .invalid } :=
    update_self ..
  have hnw : t.next ∉ t.work := by
    intro hw
    obtain ⟨y, hy, -⟩ := (h.at_ t.next).work hw
    rw [hnone] at hy
    cases hy
  have hF : Frame t (failedEntry t x) t.next := by
    refine ⟨fun f hf => update_of_ne hf .., fun _ _ _ => Iff.rfl, fun _ _ => rfl,
      fun f hf => ?_, fun _ _ => ⟨rfl, rfl⟩, Nat.le_succ _⟩
    exact List.mem_cons.trans (or_iff_right hf)
  refine ⟨h.change hF ⟨?_, ?_, fun _ => ⟨_, hself⟩, fun _ => ⟨_, hself, rfl⟩, ?_,
    (h.at_ t.next).once, fun _ => ?_⟩ (List.nodup_cons.mpr ⟨hnw, h.nodup⟩),
    hF.moves fun y hlt _ => absurd hlt (lt_irrefl _)⟩
  · intro y hy
    cases hself.symm.trans hy
    refine ⟨hidx, hd, fun hs => absurd rfl hs, ?_, fun _ => List.mem_cons_self .., nofun, nofun⟩
    change 0 = t.users.count t.next + 0
    rw [Nat.add_zero, eq_comm, List.count_eq_zero]
    intro hu
    obtain ⟨y, hy⟩ := (h.at_ t.next).user hu
    rw [hnone] at hy
    cases hy
  · intro i hi
    obtain ⟨y, hy, -⟩ := (h.at_ t.next).slot i hi
    rw [hnone] at hy
    cases hy
  · exact fun hn => absurd hn (Nat.not_succ_le_self _)
  · refine (h.at_ t.next).paired fun y hy => ?_
    rw [hnone] at hy
    cases hy

/-- STEP: a new entry is stored in a free slot. -/
theorem Inv.store (hfree : t.dataVec x.index = none) (hnd : x.attr.ndev.isSome) (hg : x.gid ≠ 0) :
    Inv p (storedEntry p t x) ∧ Moves t (storedEntry p t x) := by
  obtain ⟨hnone, hadd⟩ := (h.at_ t.next).fresh le_rfl
  have hdel : t.hw.count (.delGid t.next) = 0 := by
    rw [(h.at_ t.next).paired fun y hy => ?_, hadd]
    rw [hnone] at hy
    cases hy
  have hself : (storedEntry p t x).entries t.next = some { x with kref := 1, state := .valid } :=
    update_self ..
  have hnu : t.next ∉ t.users := by
    intro hu
    obtain ⟨y, hy⟩ := (h.at_ t.next).user hu
    rw [hnone] at hy
    cases hy
  have hnw : t.next ∉ t.work := by
    intro hw
    obtain ⟨y, hy, -⟩ := (h.at_ t.next).work hw
    rw [hnone] at hy
    cases hy
  have hhw : (storedEntry p t x).hw.count (.addGid t.next) = p.capRoceGidTable.toNat ∧
      (storedEntry p t x).hw.count (.delGid t.next) = 0 := by
    cases hcap : p.capRoceGidTable with
    | true => simp [storedEntry, hcap, hadd, hdel]
    | false => simp [storedEntry, hcap, hadd, hdel]
  have hF : Frame t (storedEntry p t x) t.next := by
    refine ⟨fun f hf => update_of_ne hf .., fun i f hf => ?_, fun _ _ => rfl,
      fun _ _ => Iff.rfl, fun f hf => ?_, Nat.le_succ _⟩
    · change update t.dataVec x.index (some t.next) i = some f ↔ _
      rcases eq_or_ne i x.index with rfl | hi
      · rw [update_self, hfree]
        simp [Ne.symm hf]
      · rw [update_of_ne hi]
    · dsimp only [storedEntry]
      split
      · simp [Ne.symm hf]
      · exact ⟨rfl, rfl⟩
  refine ⟨h.change hF ⟨?_, ?_, fun _ => ⟨_, hself⟩, fun hw => absurd hw hnw, ?_, ?_, ?_⟩ h.nodup,
    hF.moves fun y hlt _ => absurd hlt (lt_irrefl _)⟩
  · intro y hy
    cases hself.symm.trans hy
    refine ⟨hidx, hd, fun _ => update_self .., ?_, nofun, fun _ => ⟨hnd, hg⟩, fun _ => hhw⟩
    change 1 = t.users.count t.next + 1
    rw [List.count_eq_zero_of_not_mem hnu]
  · intro i hi
    have hi : update t.dataVec x.index (some t.next) i = some t.next := hi
    rcases eq_or_ne i x.index with rfl | hne
    · exact ⟨_, hself, rfl, nofun⟩
    · rw [update_of_ne hne] at hi
      obtain ⟨y, hy, -⟩ := (h.at_ t.next).slot i hi
      rw [hnone] at hy
      cases hy
  · exact fun hn => absurd hn (Nat.not_succ_le_self _)
  · rw [hhw.1]
    exact Bool.toNat_le _
  · exact fun hv => absurd rfl (hv _ hself)

end

end Primitives

/-! What `find_gid` finds. -/

/-- `find_gid`'s loop finds the first slot that hits and the first that is free. -/
theorem findLoop_eq (hit free : ℕ → Bool) (pempty : Bool) :
    ∀ (n i : ℕ) (found empty : Option ℕ), findLoop hit free pempty n i found empty =
      (found.or ((List.range' i n).find? hit),
        empty.or (if pempty then (List.range' i n).find? free else none))
  | 0, i, found, empty => by cases found <;> cases empty <;> cases pempty <;> rfl
  | n + 1, i, found, empty => by
    rw [findLoop, List.range'_succ, List.find?_cons, List.find?_cons, findLoop_eq]
    cases found <;> cases empty <;> cases pempty <;> cases hit i <;> cases free i <;> simp

section Find
variable {p : Port} {t : Table} {gid : Gid} {val : Attr} {d : Bool} {mask : FindMask} {e i : ℕ}
  {x : Entry}

theorem findGid_found (pempty : Bool) : (findGid p t gid val d mask pempty).1 =
    (range p.sz).find? (findMatch p t gid val d mask) := by
  rw [findGid, findLoop_eq, List.range_eq_range']
  rfl

theorem findGid_empty :
    (findGid p t gid val d mask true).2 = (range p.sz).find? (findEmpty p t d) := by
  rw [findGid, findLoop_eq, List.range_eq_range']
  rfl

/-- A valid slot is the slot of a valid entry. -/
theorem Inv.of_slot (h : Inv p t) (hs : t.slot i = some x) :
    ∃ e, t.dataVec i = some e ∧ t.entries e = some x ∧ x.index = i := by
  obtain ⟨e, he, hx⟩ := Option.bind_eq_some_iff.mp hs
  obtain ⟨y, hy, hyi, -⟩ := (h.at_ e).slot i he
  cases hx.symm.trans hy
  exact ⟨e, he, hx, hyi⟩

theorem Inv.slot_of (h : Inv p t) (hx : t.entries e = some x) (hs : x.state ≠ .invalid) :
    t.slot x.index = some x := by
  rw [Table.slot, ((h.at_ e).entry x hx).slot hs]
  exact hx

/-- What a mask compares of a valid entry. -/
theorem findMatch_eq (hs : t.slot i = some x) : findMatch p t gid val d mask i = true ↔
    x.state = .valid ∧ (mask.gidType = true → x.attr.gidType = val.gidType) ∧
      (mask.gid = true → x.gid = gid) ∧ (mask.netdev = true → x.attr.ndev = val.ndev) ∧
      (mask.default = true → isGidIndexDefault p i = d) := by
  simp only [findMatch, hs, Option.any_some, Bool.and_eq_true, and_assoc]
  cases mask.gidType <;> cases mask.gid <;> cases mask.netdev <;> cases mask.default <;> simp

/-- A slot that is found holds a valid entry that matches. -/
theorem Inv.find_some (h : Inv p t) {pe : Bool} (hf : (findGid p t gid val d mask pe).1 = some i) :
    ∃ e x, t.dataVec i = some e ∧ t.entries e = some x ∧ x.index = i ∧
      findMatch p t gid val d mask i = true ∧ x.state = .valid := by
  rw [findGid_found] at hf
  have hm := find?_some hf
  cases hs : t.slot i with
  | none => simp [findMatch, hs] at hm
  | some x =>
    obtain ⟨e, he, hx, hxi⟩ := h.of_slot hs
    exact ⟨e, x, he, hx, hxi, hm, ((findMatch_eq hs).mp hm).1⟩

/-- When nothing is found, no entry matches. -/
theorem Inv.find_none (h : Inv p t) {pe : Bool} (hf : (findGid p t gid val d mask pe).1 = none)
    (hx : t.entries e = some x) (hv : x.state = .valid) :
    ¬ ((mask.gidType = true → x.attr.gidType = val.gidType) ∧ (mask.gid = true → x.gid = gid) ∧
      (mask.netdev = true → x.attr.ndev = val.ndev) ∧ (mask.default = true → x.defaultGid = d)) := by
  intro hm
  have hX := (h.at_ e).entry x hx
  rw [findGid_found, List.find?_eq_none] at hf
  have hs := h.slot_of hx (by rw [hv]; nofun)
  refine hf x.index (List.mem_range.mpr hX.index) ((findMatch_eq hs).mpr ⟨hv, ?_⟩)
  rw [← hX.default]
  exact hm

/-- An empty slot that is returned is free, in the table and of the asked kind. -/
theorem findGid_empty_some (hf : (findGid p t gid val d mask true).2 = some i) :
    i < p.sz ∧ t.dataVec i = none ∧ d = isGidIndexDefault p i := by
  rw [findGid_empty] at hf
  have hm := find?_some hf
  simp only [findEmpty, Table.isFree, Bool.and_eq_true, Option.isNone_iff_eq_none,
    decide_eq_true_eq] at hm
  exact ⟨List.mem_range.mp (List.mem_of_find?_eq_some hf), hm⟩

end Find

/-! The calls. -/

/-- The table shrinks: no entry becomes valid. -/
structure Shrinks (t t' : Table) : Prop extends Moves t t' where
  new : ∀ e x', t.next ≤ e → t'.entries e = some x' → x'.state ≠ .valid

theorem Shrinks.refl {p : Port} {t : Table} (h : Inv p t) : Shrinks t t := by
  refine ⟨.refl t, fun e x he hx => ?_⟩
  exact absurd (h.live hx) (Nat.not_lt.mpr he)

theorem Moves.shrinks {p : Port} {t t' : Table} (hm : Moves t t') (h' : Inv p t')
    (hn : t'.next = t.next) : Shrinks t t' := by
  refine ⟨hm, fun e x he hx => ?_⟩
  exact absurd (h'.live hx) (by omega)

theorem Shrinks.trans {t₁ t₂ t₃ : Table} (h : Shrinks t₁ t₂) (h' : Shrinks t₂ t₃) :
    Shrinks t₁ t₃ := by
  refine ⟨h.toMoves.trans h'.toMoves, fun e x₃ he hx₃ hv => ?_⟩
  rcases lt_or_ge e t₂.next with hlt | hge
  · obtain ⟨x₂, hx₂, -, -, -, hv₂, -⟩ := h'.old e x₃ hlt hx₃
    exact h.new e x₂ he hx₂ (hv₂ hv).1
  · exact h'.new e x₃ hge hx₃ hv

/-- A valid entry was valid, with the same GID and attributes. -/
theorem Shrinks.valid {t t' : Table} (h : Shrinks t t') {e : ℕ} {x' : Entry}
    (hx : t'.entries e = some x') (hv : x'.state = .valid) : ∃ x, t.entries e = some x ∧
      x.state = .valid ∧ x'.gid = x.gid ∧ x'.attr = x.attr ∧ x'.defaultGid = x.defaultGid := by
  rcases lt_or_ge e t.next with hlt | hge
  · obtain ⟨x, hx, hg, -, hd, hv', -⟩ := h.old e x' hlt hx
    exact ⟨x, hx, (hv' hv).1, hg, (hv' hv).2, hd⟩
  · exact absurd hv (h.new e x' hge hx)

section Calls
variable {p : Port} {t : Table}

/-- The call stores a new default or non-default entry: nothing was found, a slot is free, and the
    memory and the hardware are there. -/
structure Adds (p : Port) (t : Table) (gid : Gid) (attr : Attr) (mask : FindMask) (d : Bool)
    (env : Env) : Prop where
  noneFound : (findGid p t gid attr d mask true).1 = none
  free : (findGid p t gid attr d mask true).2.isSome
  envOk : AddOk p attr env

/-- `__ib_cache_gid_add`: the GID is stored; or it was there; or the call fails, and then at most an
    entry is left to be freed. -/
theorem gidAdd_cases (gid : Gid) (attr : Attr) (mask : FindMask) (d : Bool) (env : Env) :
    (gid ≠ 0 ∧ Adds p t gid attr mask d env ∧ ∃ i,
      (i < p.sz ∧ t.dataVec i = none ∧ d = isGidIndexDefault p i) ∧
      gidAdd p t gid attr mask d env = (none, storedEntry p t ⟨gid, attr, i, 1, .valid, d⟩)) ∨
    (¬ (gid ≠ 0 ∧ Adds p t gid attr mask d env) ∧ ((gidAdd p t gid attr mask d env).2 = t ∨ ∃ err i,
        (i < p.sz ∧ t.dataVec i = none ∧ d = isGidIndexDefault p i) ∧
        gidAdd p t gid attr mask d env =
          (some err, failedEntry t ⟨gid, attr, i, 1, .invalid, d⟩))) := by
  unfold gidAdd
  split_ifs with hg
  · exact .inr ⟨fun h => h.1 hg, .inl rfl⟩
  rcases hfind : findGid p t gid attr d mask true with ⟨_ | ix, _ | i⟩
  · refine .inr ⟨fun h => ?_, .inl rfl⟩
    have := h.2.free
    rw [hfind] at this
    cases this
  · have hi := findGid_empty_some (by rw [hfind] : (findGid p t gid attr d mask true).2 = some i)
    dsimp only
    rcases addModifyGid_cases gid attr i d env hi.2.1 hg with ⟨hok, heq⟩ | ⟨hok, err, heq | heq⟩
    · exact .inl ⟨hg, ⟨by rw [hfind], by rw [hfind]; rfl, hok⟩, i, hi, heq⟩
    · exact .inr ⟨fun h => hok h.2.envOk, .inl (by rw [heq])⟩
    · exact .inr ⟨fun h => hok h.2.envOk, .inr ⟨err, i, hi, heq⟩⟩
  all_goals
    refine .inr ⟨fun h => ?_, .inl rfl⟩
    have := h.2.noneFound
    rw [hfind] at this
    cases this

/-- STEP: `__ib_cache_gid_add` keeps the invariant. -/
theorem Inv.add (h : Inv p t) (gid : Gid) (attr : Attr) (mask : FindMask) (d : Bool) (env : Env) :
    Inv p (gidAdd p t gid attr mask d env).2 ∧ Moves t (gidAdd p t gid attr mask d env).2 ∧
      (¬ (gid ≠ 0 ∧ Adds p t gid attr mask d env) →
        Shrinks t (gidAdd p t gid attr mask d env).2) := by
  rcases gidAdd_cases gid attr mask d env with
    ⟨hg, hadds, i, ⟨hi, hfree, hd⟩, heq⟩ | ⟨hno, heq | ⟨err, i, ⟨hi, hfree, hd⟩, heq⟩⟩
  · have hs := h.store (x := ⟨gid, attr, i, 1, .valid, d⟩) hi hd hfree hadds.envOk.2.1 hg
    rw [heq]
    exact ⟨hs.1, hs.2, fun hno => absurd ⟨hg, hadds⟩ hno⟩
  · rw [heq]
    exact ⟨h, .refl t, fun _ => .refl h⟩
  · have hs := h.fail (x := ⟨gid, attr, i, 1, .invalid, d⟩) hi hd
    rw [heq]
    refine ⟨hs.1, hs.2, fun _ => ⟨hs.2, fun e x he hx => ?_⟩⟩
    rcases eq_or_ne e t.next with rfl | hne
    · cases (update_self ..).symm.trans hx
      nofun
    · have hx : t.entries e = some x := (update_of_ne hne ..).symm.trans hx
      exact absurd (h.live hx) (Nat.not_lt.mpr he)

theorem Inv.del_slot (h : Inv p t) {ix : ℕ} {x : Entry} (hs : t.slot ix = some x)
    (hv : x.state = .valid) : Inv p (delGid p t ix) ∧ Shrinks t (delGid p t ix) := by
  obtain ⟨e, he, hx, rfl⟩ := h.of_slot hs
  obtain ⟨hinv, hmoves, hF, hpend⟩ := h.del he hx hv
  refine ⟨hinv, hmoves, fun f y hf hy => ?_⟩
  rcases eq_or_ne f e with rfl | hfe
  · rw [hpend y hy]
    nofun
  · rw [hF.entries f hfe] at hy
    exact absurd (h.live hy) (Nat.not_lt.mpr hf)

/-- STEP: `_ib_cache_gid_del` keeps the invariant. -/
theorem Inv.gidDel (h : Inv p t) (gid : Gid) (attr : Attr) (mask : FindMask) (d : Bool) :
    Inv p (gidDel p t gid attr mask d).2 ∧ Shrinks t (gidDel p t gid attr mask d).2 := by
  unfold GidTable.gidDel
  cases hf : (findGid p t gid attr d mask false).1 with
  | none => exact ⟨h, .refl h⟩
  | some ix =>
    obtain ⟨e, x, he, hx, rfl, -, hv⟩ := h.find_some hf
    exact h.del_slot (h.slot_of hx (by rw [hv]; nofun)) hv

/-- RUN: the loops over the table that delete entries. -/
theorem Inv.delGids (h : Inv p t) (which : Entry → Bool) :
    Inv p (delGids p which t) ∧ Shrinks t (delGids p which t) := by
  unfold GidTable.delGids
  induction range p.sz generalizing t with
  | nil => exact ⟨h, .refl h⟩
  | cons ix l ih =>
    rw [List.foldl_cons]
    split
    · rename_i hany
      cases hs : t.slot ix with
      | none => simp [hs] at hany
      | some x =>
        simp only [hs, Option.any_some, Bool.and_eq_true, decide_eq_true_eq] at hany
        obtain ⟨h₁, hs₁⟩ := h.del_slot hs hany.1
        obtain ⟨h₂, hs₂⟩ := ih h₁
        exact ⟨h₂, hs₁.trans hs₂⟩
    · exact ih h

theorem getGidEntry_next (e : ℕ) : (getGidEntry t e).next = t.next := by
  unfold getGidEntry
  split <;> rfl

/-- STEP: a lookup takes a reference of the valid entry it found. -/
theorem Inv.lookup (h : Inv p t) {found : Option ℕ}
    (hf : ∀ i, found = some i → t.isValid i = true) :
    Inv p (getSlot t found) ∧ Shrinks t (getSlot t found) := by
  unfold getSlot
  cases found with
  | none => exact ⟨h, .refl h⟩
  | some i =>
    cases hs : t.slot i with
    | none =>
      have hval := hf i rfl
      simp [Table.isValid, hs] at hval
    | some x =>
      obtain ⟨e, he, hx, -⟩ := h.of_slot hs
      have hval := hf i rfl
      simp only [Table.isValid, hs, Option.any_some, decide_eq_true_eq] at hval
      have hk := ((h.at_ e).entry x hx).kref
      rw [if_pos hval] at hk
      obtain ⟨hinv, hmoves⟩ := h.get hx (by omega)
      simp only [Option.bind_some, he]
      exact ⟨hinv, hmoves.shrinks hinv (getGidEntry_next e)⟩

theorem isValid_of_any {i : ℕ} {q : Entry → Bool} (h : (t.slot i).any q = true)
    (hq : ∀ x, q x = true → x.state = .valid) : t.isValid i = true := by
  cases hs : t.slot i with
  | none => simp [hs] at h
  | some x =>
    rw [hs, Option.any_some] at h
    simpa [Table.isValid, hs] using hq x h

/-- The GID that `op` stores as a new entry, if it does. -/
def Stores (p : Port) (t : Table) : Op → Prop
  | .add gid attr env => gid ≠ 0 ∧ Adds p t gid attr ⟨true, true, false, true⟩ false env
  | .setDefaultGid gid attr .set env => gid ≠ 0 ∧ Adds p t gid attr defaultMask true env
  | _ => False

/-- STEP: every call keeps the invariant, and only one that stores makes an entry valid. -/
theorem Inv.step (h : Inv p t) {op : Op} (hok : ok t op) :
    Inv p (step p t op) ∧ Moves t (step p t op) ∧ (¬ Stores p t op → Shrinks t (step p t op)) := by
  have ofShrinks : ∀ {t'}, Inv p t' ∧ Shrinks t t' →
      Inv p t' ∧ Moves t t' ∧ (¬ Stores p t op → Shrinks t t') :=
    fun h => ⟨h.1, h.2.toMoves, fun _ => h.2⟩
  cases op with
  | add gid attr env => exact h.add gid attr _ false env
  | del gid attr => exact ofShrinks (h.gidDel gid attr _ false)
  | delAllNetdevGids ndev => exact ofShrinks (h.delGids _)
  | setDefaultGid gid attr mode env =>
    cases mode with
    | set => exact h.add gid attr defaultMask true env
    | delete => exact ofShrinks (h.gidDel gid attr defaultMask true)
  | cleanup => exact ofShrinks (h.delGids _)
  | findByPort gid gidType ndev =>
    refine ofShrinks (h.lookup fun i hi => ?_)
    obtain ⟨e, x, -, hx, rfl, -, hv⟩ := h.find_some hi
    simp [Table.isValid, h.slot_of hx (by rw [hv]; nofun), hv]
  | findByFilter gid filter =>
    refine ofShrinks (h.lookup fun i hi => ?_)
    have hm := find?_some hi
    refine isValid_of_any hm fun x hx => ?_
    simp only [Bool.and_eq_true, decide_eq_true_eq] at hx
    exact hx.1.1
  | get index =>
    refine ofShrinks (h.lookup fun i hi => ?_)
    unfold rdmaGetGidAttr at hi
    split at hi
    · rename_i hc
      cases hi
      simp only [Bool.and_eq_true] at hc
      exact hc.2
    · cases hi
  | hold e =>
    obtain ⟨x, hx⟩ := (h.at_ e).user hok
    have hpos := List.count_pos_iff.mpr hok
    have hk := ((h.at_ e).entry x hx).kref
    obtain ⟨hinv, hmoves⟩ := h.get hx (by omega)
    exact ofShrinks ⟨hinv, hmoves.shrinks hinv (getGidEntry_next e)⟩
  | put e =>
    obtain ⟨hinv, hmoves⟩ := h.put hok
    refine ofShrinks ⟨hinv, hmoves.shrinks hinv ?_⟩
    obtain ⟨x, hx⟩ := (h.at_ e).user hok
    simp only [putGidEntry, krefPut, hx]
    split <;> rfl
  | work e =>
    obtain ⟨hinv, hmoves⟩ := h.work hok
    refine ofShrinks ⟨hinv, hmoves.shrinks hinv ?_⟩
    obtain ⟨x, hx, -⟩ := (h.at_ e).work hok
    exact (free_rest (t := { t with work := t.work.erase e }) hx).1

end Calls

/-! Equal GIDs. -/

/-- What two valid entries are told apart by: GID, attributes, and whether the GID is a default one. -/
def Entry.key (x : Entry) : Gid × Attr × Bool := (x.gid, x.attr, x.defaultGid)

/-- No two valid entries are related. -/
def Only (R : Gid × Attr × Bool → Gid × Attr × Bool → Prop) (t : Table) : Prop :=
  ∀ e f x y, t.entries e = some x → t.entries f = some y → x.state = .valid → y.state = .valid →
    R x.key y.key → e = f

/-- Equal GID and attributes. -/
def Same : Gid × Attr × Bool → Gid × Attr × Bool → Prop
  | (gid, attr, _), (gid', attr', _) => gid = gid' ∧ attr = attr'

/-- Two default GIDs of equal attributes, or two equal GIDs of which none is a default one. -/
def SameKind : Gid × Attr × Bool → Gid × Attr × Bool → Prop
  | (gid, attr, d), (gid', attr', d') => attr = attr' ∧ d = d' ∧ (d = true ∨ gid = gid')

/-- A default GID is not stored while the same GID is valid as a non-default one: what
    `ib_cache_gid_del` looks for with this GID and these attributes is not there. -/
def Meets (p : Port) (t : Table) : Op → Prop
  | .setDefaultGid gid attr .set env =>
    Adds p t gid attr defaultMask true env →
      (findGid p t gid attr false ⟨true, true, true, true⟩ false).1 = none
  | _ => True

section Equal
variable {p : Port} {t t' : Table} {e : ℕ} {x : Entry}
  {R : Gid × Attr × Bool → Gid × Attr × Bool → Prop}

theorem Only.shrinks (h : Only R t) (hs : Shrinks t t') : Only R t' := by
  intro e f x' y' hx' hy' hxv hyv hR
  obtain ⟨x, hx, hxv, hxg, hxa, hxd⟩ := hs.valid hx' hxv
  obtain ⟨y, hy, hyv, hyg, hya, hyd⟩ := hs.valid hy' hyv
  rw [Entry.key, Entry.key, hxg, hxa, hxd, hyg, hya, hyd] at hR
  exact h e f x y hx hy hxv hyv hR

/-- After a store, an entry is the new one or an old one. -/
theorem storedEntry_entry {f : ℕ} {y : Entry} (hy : (storedEntry p t x).entries f = some y) :
    (f = t.next ∧ y = { x with kref := 1, state := .valid }) ∨ t.entries f = some y := by
  rcases eq_or_ne f t.next with rfl | hne
  · cases (update_self ..).symm.trans hy
    exact .inl ⟨rfl, rfl⟩
  · exact .inr ((update_of_ne hne ..).symm.trans hy)

/-- A store keeps valid entries apart when no old one is related to the new one. -/
theorem Only.store (h : Only R t) (hsymm : ∀ a b, R a b → R b a)
    (hnew : ∀ f y, t.entries f = some y → y.state = .valid → ¬ R x.key y.key) :
    Only R (storedEntry p t x) := by
  intro e f z y hz hy hzv hyv hR
  rcases storedEntry_entry hz with ⟨rfl, rfl⟩ | hz
  · rcases storedEntry_entry hy with ⟨rfl, rfl⟩ | hy
    · rfl
    · exact absurd hR (hnew f y hy hyv)
  · rcases storedEntry_entry hy with ⟨rfl, rfl⟩ | hy
    · exact absurd (hsymm _ _ hR) (hnew e z hz hzv)
    · exact h e f z y hz hy hzv hyv hR

theorem Same.symm (a b : Gid × Attr × Bool) (h : Same a b) : Same b a :=
  ⟨h.1.symm, h.2.symm⟩

theorem SameKind.symm (a b : Gid × Attr × Bool) (h : SameKind a b) : SameKind b a :=
  ⟨h.1.symm, h.2.1.symm, h.2.2.imp (fun hd => h.2.1 ▸ hd) Eq.symm⟩

variable {gid : Gid} {attr : Attr} {env : Env}

/-- What the search of `ib_cache_gid_add` rules out. -/
theorem Adds.no_entry (h : Inv p t) (ha : Adds p t gid attr ⟨true, true, false, true⟩ false env)
    (hx : t.entries e = some x) (hv : x.state = .valid) : ¬ (gid = x.gid ∧ attr = x.attr) := by
  rintro ⟨rfl, rfl⟩
  exact h.find_none ha.noneFound hx hv ⟨fun _ => rfl, fun _ => rfl, fun _ => rfl, nofun⟩

/-- What the search of `ib_cache_gid_set_default_gid` rules out. -/
theorem Adds.no_default (h : Inv p t) (ha : Adds p t gid attr defaultMask true env)
    (hx : t.entries e = some x) (hv : x.state = .valid) :
    ¬ (attr = x.attr ∧ x.defaultGid = true) := by
  rintro ⟨rfl, hd⟩
  exact h.find_none ha.noneFound hx hv ⟨fun _ => rfl, nofun, fun _ => rfl, fun _ => hd⟩

/-- A call that stores stores the GID it is given. -/
theorem gidAdd_stores {mask : FindMask} {d : Bool} (hg : gid ≠ 0)
    (ha : Adds p t gid attr mask d env) : ∃ i, i < p.sz ∧ t.dataVec i = none ∧
      d = isGidIndexDefault p i ∧
      gidAdd p t gid attr mask d env = (none, storedEntry p t ⟨gid, attr, i, 1, .valid, d⟩) := by
  rcases gidAdd_cases gid attr mask d env with ⟨-, -, i, ⟨h1, h2, h3⟩, heq⟩ | ⟨hno, -⟩
  · exact ⟨i, h1, h2, h3, heq⟩
  · exact absurd ⟨hg, ha⟩ hno

/-- STEP: entries of one kind stay apart. -/
theorem Only.sameKind_step (h : Inv p t) (hu : Only SameKind t) {op : Op} (hok : ok t op) :
    Only SameKind (step p t op) := by
  by_cases hst : Stores p t op
  swap
  · exact hu.shrinks ((h.step hok).2.2 hst)
  cases op with
  | add gid attr env =>
    obtain ⟨i, -, -, -, heq⟩ := gidAdd_stores hst.1 hst.2
    simp only [step, ibCacheGidAdd, heq]
    refine hu.store SameKind.symm fun f y hy hyv ⟨ha, _, hg⟩ => ?_
    exact hst.2.no_entry h hy hyv ⟨hg.resolve_left nofun, ha⟩
  | setDefaultGid gid attr mode env =>
    cases mode with
    | delete => exact absurd hst id
    | set =>
      obtain ⟨i, -, -, -, heq⟩ := gidAdd_stores hst.1 hst.2
      simp only [step, setDefaultGid, heq]
      refine hu.store SameKind.symm fun f y hy hyv ⟨ha, hd, _⟩ => ?_
      exact hst.2.no_default h hy hyv ⟨ha, hd.symm⟩
  | _ => exact absurd hst id

/-- STEP: a step that meets the condition leaves no GID valid twice. -/
theorem Only.same_step (h : Inv p t) (hn : Only Same t) {op : Op} (hok : ok t op)
    (hm : Meets p t op) : Only Same (step p t op) := by
  by_cases hst : Stores p t op
  swap
  · exact hn.shrinks ((h.step hok).2.2 hst)
  cases op with
  | add gid attr env =>
    obtain ⟨i, -, -, -, heq⟩ := gidAdd_stores hst.1 hst.2
    simp only [step, ibCacheGidAdd, heq]
    exact hn.store Same.symm fun f y hy hyv hs => hst.2.no_entry h hy hyv hs
  | setDefaultGid gid attr mode env =>
    cases mode with
    | delete => exact absurd hst id
    | set =>
      obtain ⟨i, -, -, -, heq⟩ := gidAdd_stores hst.1 hst.2
      simp only [step, setDefaultGid, heq]
      refine hn.store Same.symm fun f y hy hyv ⟨hg, ha⟩ => ?_
      cases hd : y.defaultGid with
      | true => exact hst.2.no_default h hy hyv ⟨ha, hd⟩
      | false =>
        exact h.find_none (hm hst.2) hy hyv
          ⟨fun _ => ha ▸ rfl, fun _ => hg.symm, fun _ => ha ▸ rfl, fun _ => hd⟩
  | _ => exact absurd hst id

end Equal

/-! What callers see. -/

/-- Every slot holds what it held. -/
structure SameSlots (t t' : Table) : Prop where
  slot : ∀ i, t'.slot i = t.slot i
  free : ∀ i, t'.isFree i = t.isFree i

/-- What the calls keep in every run. -/
structure Sound (p : Port) (t : Table) : Prop where
  /-- a default slot holds entries added as default ones, the other slots the other entries -/
  default : ∀ i x, t.slot i = some x → x.defaultGid = isGidIndexDefault p i
  /-- the slot of a deleted entry that is referenced is not found, not empty, not looked up -/
  hidden : ∀ e x, t.entries e = some x → x.state = .pendingDel → e ∈ t.users →
    (∀ gid val d mask pempty, (findGid p t gid val d mask pempty).1 ≠ some x.index ∧
      (findGid p t gid val d mask true).2 ≠ some x.index) ∧
    (∀ gid filter, rdmaFindGidByFilter p t gid filter ≠ some x.index) ∧
    rdmaGetGidAttr p t x.index = none
  /-- and it is this entry's in the next table too while the entry is referenced there -/
  kept : ∀ e x, t.entries e = some x → x.state = .pendingDel → e ∈ t.users →
    t.dataVec x.index = some e ∧
      ∀ op, ok t op → e ∈ (step p t op).users → (step p t op).dataVec x.index = some e
  /-- an entry is added to the hardware once, and deleted from it once when it is no longer valid -/
  paired : ∀ e, t.hw.count (.addGid e) ≤ 1 ∧ t.hw.count (.delGid e) ≤ t.hw.count (.addGid e) ∧
    ((∀ i, t.dataVec i = some e → t.isValid i = false) →
      t.hw.count (.delGid e) = t.hw.count (.addGid e))
  /-- an add that fails leaves the slots as they were -/
  failed : ∀ gid attr env,
    ((ibCacheGidAdd p t gid attr env).1 ≠ none → SameSlots t (ibCacheGidAdd p t gid attr env).2) ∧
    ((setDefaultGid p t gid attr .set env).1 ≠ none →
      SameSlots t (setDefaultGid p t gid attr .set env).2)
  /-- a valid GID is deleted by the call that names it -/
  deletable : ∀ i x, t.slot i = some x → x.state = .valid →
    (x.defaultGid = false → (ibCacheGidDel p t x.gid x.attr).1 = none ∧
      (ibCacheGidDel p t x.gid x.attr).2.isValid i = false) ∧
    (x.defaultGid = true → ∀ gid env, (setDefaultGid p t gid x.attr .delete env).1 = none ∧
      (setDefaultGid p t gid x.attr .delete env).2.isValid i = false)

/-- No two valid slots have equal GID, type and net device. -/
def Unique (t : Table) : Prop :=
  ∀ i j x y, t.slot i = some x → t.slot j = some y → x.state = .valid → y.state = .valid →
    x.gid = y.gid → x.attr.gidType = y.attr.gidType → x.attr.ndev = y.attr.ndev → i = j

section Sound
variable {p : Port} {t : Table}

theorem Inv.alloc : Inv p allocGidTable :=
  ⟨fun _ => ⟨nofun, nofun, nofun, nofun, fun _ => ⟨rfl, rfl⟩, Nat.zero_le _, fun _ => rfl⟩,
    List.nodup_nil⟩

theorem Only.alloc {R : Gid × Attr × Bool → Gid × Attr × Bool → Prop} : Only R allocGidTable :=
  nofun

/-- RUN: the invariant and the entries of one kind, in every run. -/
theorem reach_inv (h : Reach (step p) ok allocGidTable t) : Inv p t ∧ Only SameKind t := by
  refine @Reach.invariant _ _ _ _ _ _ (fun t => Inv p t ∧ Only SameKind t) h
    ⟨Inv.alloc, Only.alloc⟩ fun t op hok ⟨hi, hu⟩ => ?_
  exact ⟨(hi.step hok).1, hu.sameKind_step hi hok⟩

/-- RUN: the entries of runs that meet the condition. -/
theorem reach_same (h : Reach (step p) (fun t op => ok t op ∧ Meets p t op) allocGidTable t) :
    Inv p t ∧ Only Same t := by
  refine @Reach.invariant _ _ _ _ _ _ (fun t => Inv p t ∧ Only Same t) h
    ⟨Inv.alloc, Only.alloc⟩ fun t op hok ⟨hi, hn⟩ => ?_
  exact ⟨(hi.step hok.1).1, hn.same_step hi hok.1 hok.2⟩

section
variable (h : Inv p t)
include h

theorem Inv.unique (hn : Only Same t) : Unique t := by
  intro i j x y hx hy hxv hyv hg htype hnd
  obtain ⟨e, -, he, rfl⟩ := h.of_slot hx
  obtain ⟨f, -, hf, rfl⟩ := h.of_slot hy
  obtain rfl := hn e f x y he hf hxv hyv ⟨hg, congrArg₂ Attr.mk htype hnd⟩
  cases he.symm.trans hf
  rfl

/-- A deleted entry that is referenced has its slot, and the slot is not valid. -/
theorem Inv.pending_slot {e : ℕ} {x : Entry} (hx : t.entries e = some x)
    (hs : x.state = .pendingDel) : t.dataVec x.index = some e ∧ t.slot x.index = some x :=
  ⟨((h.at_ e).entry x hx).slot (by rw [hs]; nofun), h.slot_of hx (by rw [hs]; nofun)⟩

theorem Inv.hidden {e : ℕ} {x : Entry} (hx : t.entries e = some x) (hs : x.state = .pendingDel) :
    (∀ gid val d mask pempty, (findGid p t gid val d mask pempty).1 ≠ some x.index ∧
      (findGid p t gid val d mask true).2 ≠ some x.index) ∧
    (∀ gid filter, rdmaFindGidByFilter p t gid filter ≠ some x.index) ∧
    rdmaGetGidAttr p t x.index = none := by
  obtain ⟨hdv, hslot⟩ := h.pending_slot hx hs
  refine ⟨fun gid val d mask pe => ⟨fun hf => ?_, fun hf => ?_⟩, fun gid filter hf => ?_, ?_⟩
  · obtain ⟨f, y, hdv', hy, -, -, hv⟩ := h.find_some hf
    cases hdv.symm.trans hdv'
    cases hx.symm.trans hy
    rw [hs] at hv
    cases hv
  · have hfree := (findGid_empty_some hf).2.1
    rw [hdv] at hfree
    cases hfree
  · unfold rdmaFindGidByFilter at hf
    have hm := find?_some hf
    simp [hslot, hs] at hm
  · simp [rdmaGetGidAttr, Table.isValid, hslot, hs]

/-- STEP: a deleted entry keeps its slot as long as it is referenced. -/
theorem Inv.kept {e : ℕ} {x : Entry} (hx : t.entries e = some x)
    (hs : x.state = .pendingDel) {op : Op} (hok : ok t op)
    (hu : e ∈ (GidTable.step p t op).users) : (GidTable.step p t op).dataVec x.index = some e := by
  obtain ⟨hinv, hmoves, -⟩ := h.step hok
  obtain ⟨x', hx'⟩ := (hinv.at_ e).user hu
  obtain ⟨y, hy, -, hidx, -, -, hp⟩ := hmoves.old e x' (h.live hx) hx'
  cases hx.symm.trans hy
  rw [← hidx]
  exact (hinv.pending_slot hx' (hp hs)).1

theorem Inv.calls_paired (e : ℕ) : t.hw.count (.addGid e) ≤ 1 ∧
    t.hw.count (.delGid e) ≤ t.hw.count (.addGid e) ∧
    ((∀ i, t.dataVec i = some e → t.isValid i = false) →
      t.hw.count (.delGid e) = t.hw.count (.addGid e)) := by
  refine ⟨(h.at_ e).once, ?_, fun hi => (h.at_ e).paired fun x hx hv => ?_⟩
  · by_cases hv : ∃ x, t.entries e = some x ∧ x.state = .valid
    · obtain ⟨x, hx, hv⟩ := hv
      rw [(((h.at_ e).entry x hx).hw hv).2]
      exact Nat.zero_le _
    · exact ((h.at_ e).paired fun x hx hxv => hv ⟨x, hx, hxv⟩).le
  · have hs : x.state ≠ .invalid := by rw [hv]; nofun
    have := hi x.index (((h.at_ e).entry x hx).slot hs)
    simp [Table.isValid, h.slot_of hx hs, hv] at this

/-- An add that fails leaves every slot as it was. -/
theorem Inv.add_failed {gid : Gid} {attr : Attr} {mask : FindMask} {d : Bool}
    {env : Env} (he : (gidAdd p t gid attr mask d env).1 ≠ none) :
    SameSlots t (gidAdd p t gid attr mask d env).2 := by
  rcases gidAdd_cases gid attr mask d env with ⟨-, -, i, -, heq⟩ | ⟨-, heq | ⟨err, i, -, heq⟩⟩
  · rw [heq] at he
    exact absurd rfl he
  · rw [heq]
    exact ⟨fun _ => rfl, fun _ => rfl⟩
  · rw [heq]
    refine ⟨fun j => ?_, fun _ => rfl⟩
    change (t.dataVec j).bind _ = (t.dataVec j).bind _
    cases hj : t.dataVec j with
    | none => rfl
    | some f =>
      obtain ⟨y, hy, -⟩ := (h.at_ f).slot j hj
      exact update_of_ne (h.live hy).ne ..

/-- `_ib_cache_gid_del` of what matches one valid entry only deletes that entry. -/
theorem Inv.del_one {i : ℕ} {x : Entry} (hs : t.slot i = some x)
    {gid : Gid} {attr : Attr} {mask : FindMask} {d : Bool}
    (hm : findMatch p t gid attr d mask i = true)
    (hone : ∀ j, findMatch p t gid attr d mask j = true → j = i) :
    (GidTable.gidDel p t gid attr mask d).1 = none ∧
      (GidTable.gidDel p t gid attr mask d).2.isValid i = false := by
  obtain ⟨e, he, hx, rfl⟩ := h.of_slot hs
  have hv := ((findMatch_eq hs).mp hm).1
  obtain ⟨hinv, -, -, hpend⟩ := h.del he hx hv
  have hfind : (findGid p t gid attr d mask false).1 = some x.index := by
    cases hf : (findGid p t gid attr d mask false).1 with
    | none =>
      rw [findGid_found, List.find?_eq_none] at hf
      exact absurd hm (hf x.index (List.mem_range.mpr ((h.at_ e).entry x hx).index))
    | some j =>
      rw [findGid_found] at hf
      rw [hone j (find?_some hf)]
  unfold GidTable.gidDel
  rw [hfind]
  refine ⟨rfl, ?_⟩
  cases hs' : (delGid p t x.index).slot x.index with
  | none => simp [Table.isValid, hs']
  | some y =>
    obtain ⟨f, hf, hy, -⟩ := hinv.of_slot hs'
    obtain ⟨-, -, hF, -⟩ := h.del he hx hv
    rcases eq_or_ne f e with rfl | hfe
    · simp [Table.isValid, hs', hpend y hy]
    · have := (hF.dataVec x.index f hfe).mp hf
      cases he.symm.trans this
      exact absurd rfl hfe

end

/-- What every call finds and leaves, in every state of every run. -/
theorem sound (h : Reach (step p) ok allocGidTable t) : Sound p t := by
  obtain ⟨hi, hu⟩ := reach_inv h
  have huniq : ∀ i j x y, t.slot i = some x → t.slot j = some y → x.state = .valid →
      y.state = .valid → SameKind x.key y.key → i = j := by
    intro i j x y hx hy hxv hyv hk
    obtain ⟨e, -, he, rfl⟩ := hi.of_slot hx
    obtain ⟨f, -, hf, rfl⟩ := hi.of_slot hy
    obtain rfl := hu e f x y he hf hxv hyv hk
    cases he.symm.trans hf
    rfl
  have hdflt : ∀ i x, t.slot i = some x → x.defaultGid = isGidIndexDefault p i := by
    intro i x hx
    obtain ⟨e, -, he, rfl⟩ := hi.of_slot hx
    exact ((hi.at_ e).entry x he).default
  have hsome : ∀ {gid val d mask j}, findMatch p t gid val d mask j = true →
      ∃ y, t.slot j = some y := by
    intro gid val d mask j hm
    cases hs : t.slot j with
    | none => simp [findMatch, hs] at hm
    | some y => exact ⟨y, rfl⟩
  refine ⟨hdflt, fun e x hx hs _ => hi.hidden hx hs,
    fun e x hx hs _ => ⟨(hi.pending_slot hx hs).1, fun op hok hue => hi.kept hx hs hok hue⟩,
    hi.calls_paired, fun gid attr env => ⟨hi.add_failed, hi.add_failed⟩,
    fun i x hx hv => ⟨fun hd => ?_, fun hd gid env => ?_⟩⟩
  · refine hi.del_one hx ((findMatch_eq hx).mpr
      ⟨hv, fun _ => rfl, fun _ => rfl, fun _ => rfl, fun _ => (hdflt i x hx) ▸ hd⟩) fun j hj => ?_
    obtain ⟨y, hy⟩ := hsome hj
    obtain ⟨hyv, htype, hg, hnd, hyd⟩ := (findMatch_eq hy).mp hj
    refine huniq j i y x hy hx hyv hv ⟨congrArg₂ Attr.mk (htype rfl) (hnd rfl), ?_, .inr (hg rfl)⟩
    rw [hdflt j y hy, hyd rfl, hd]
  · refine hi.del_one hx ((findMatch_eq hx).mpr
      ⟨hv, fun _ => rfl, nofun, fun _ => rfl, fun _ => (hdflt i x hx) ▸ hd⟩) fun j hj => ?_
    obtain ⟨y, hy⟩ := hsome hj
    obtain ⟨hyv, htype, -, hnd, hyd⟩ := (findMatch_eq hy).mp hj
    have hyd : y.defaultGid = true := (hdflt j y hy).trans (hyd rfl)
    exact huniq j i y x hy hx hyv hv
      ⟨congrArg₂ Attr.mk (htype rfl) (hnd rfl), hyd.trans hd.symm, .inl hyd⟩

/-- CORRECT: in every run in which no round of `ib_cache_gid_set_default_gid` stores a default GID
    that is valid as a non-default one, with equal type and net device, no GID is valid twice; and
    everything else that `Sound` says holds. -/
theorem gid_table (h : Reach (step p) (fun t op => ok t op ∧ Meets p t op) allocGidTable t) :
    Unique t ∧ Sound p t := by
  obtain ⟨hi, hn⟩ := reach_same h
  exact ⟨hi.unique hn, sound (h.mono fun _ _ hok => hok.1)⟩

end Sound

instance (t : Table) : (op : Op) → Decidable (ok t op)
  | .hold e => inferInstanceAs (Decidable (e ∈ t.users))
  | .put e => inferInstanceAs (Decidable (e ∈ t.users))
  | .work e => inferInstanceAs (Decidable (e ∈ t.work))
  | .add .. | .del .. | .delAllNetdevGids _ | .setDefaultGid .. | .cleanup | .findByPort ..
  | .findByFilter .. | .get _ => instDecidableTrue

theorem adds_iff {p : Port} {t : Table} {gid : Gid} {attr : Attr} {mask : FindMask} {d : Bool}
    {env : Env} : ((findGid p t gid attr d mask true).1 = none ∧
      (findGid p t gid attr d mask true).2.isSome ∧ env.allocOk = true ∧ attr.ndev.isSome ∧
      (p.capRoceGidTable = true → env.hwErr = none)) ↔ Adds p t gid attr mask d env :=
  ⟨fun ⟨h₁, h₂, h₃⟩ => ⟨h₁, h₂, h₃⟩, fun ⟨h₁, h₂, h₃⟩ => ⟨h₁, h₂, h₃⟩⟩

instance (p : Port) (t : Table) (gid : Gid) (attr : Attr) (mask : FindMask) (d : Bool) (env : Env) :
    Decidable (Adds p t gid attr mask d env) :=
  decidable_of_iff _ adds_iff

instance (p : Port) (t : Table) : (op : Op) → Decidable (Meets p t op)
  | .setDefaultGid gid attr .set env =>
    inferInstanceAs (Decidable (Adds p t gid attr defaultMask true env →
      (findGid p t gid attr false ⟨true, true, true, true⟩ false).1 = none))
  | .setDefaultGid _ _ .delete _ => instDecidableTrue
  | .add .. | .del .. | .delAllNetdevGids _ | .cleanup | .findByPort ..
  | .findByFilter .. | .get _ | .hold _ | .put _ | .work _ => instDecidableTrue

/-- A port with three slots, the first of them for default GIDs. -/
def demoPort : Port := ⟨3, 1#32, true⟩

/-- A default GID and another one; the other is looked up, deleted while it is used, put and freed;
    then the hardware refuses it. -/
def demoOps : List Op :=
  [.setDefaultGid 9 ⟨1, some 7⟩ .set ⟨true, none⟩, .add 5 ⟨2, some 7⟩ ⟨true, none⟩,
    .findByPort 5 2 (some 7), .del 5 ⟨2, some 7⟩, .put 1, .work 1,
    .add 5 ⟨2, some 7⟩ ⟨true, some .enomem⟩]

theorem gid_table_demo : Unique (demoOps.foldl (step demoPort) allocGidTable) ∧
    Sound demoPort (demoOps.foldl (step demoPort) allocGidTable) :=
  gid_table (Reach.runs .start (by decide))

/-- A GID that was added before the default GID of its net device, which is the same. -/
def dupOps : List Op :=
  [.add 5 ⟨1, some 7⟩ ⟨true, none⟩, .setDefaultGid 5 ⟨1, some 7⟩ .set ⟨true, none⟩]

theorem gid_table_broken : ∃ t, Reach (step demoPort) ok allocGidTable t ∧ ¬ Unique t := by
  refine ⟨dupOps.foldl (step demoPort) allocGidTable, Reach.runs .start (by decide), fun h => ?_⟩
  have := h 0 1 ⟨5, ⟨1, some 7⟩, 0, 1, .valid, true⟩ ⟨5, ⟨1, some 7⟩, 1, 1, .valid, false⟩
    (by decide) (by decide) rfl rfl rfl rfl rfl
  exact absurd this (by decide)

end RdmaDriver.GidTable
