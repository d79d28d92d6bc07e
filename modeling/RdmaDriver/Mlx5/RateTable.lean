import RdmaDriver.Schemes.Run
import Mathlib.Algebra.Ring.Nat
import Mathlib.Tactic.Common
import Mathlib.Logic.Function.Basic

/-! @src drivers/net/ethernet/mellanox/mlx5/core/rl.c | name:Packet pacing | scheme:run |
    family:refcount

    Rates are kept in a table whose entries are also the indexes of the device's contexts; index 0
    is "unlimited". An add shares the entry of the same context and uid, or takes a free one, and a
    dedicated add always takes a free one. The array of entries is there while some rate is held:

        refcount 0, no array - first add -> array - adds, removes -> last remove -> no array

    A rate is removed by its index, or by its value through the search that adds use. The lock of
    the table is held throughout, so a step is one call. -/

namespace RdmaDriver.RateTable
open RdmaDriver.Schemes Function
open BitVec (ofNat toNat toNat_ofNat)

/-- `set_pp_rate_limit_context`, by its fields. -/
structure RlRaw where
  rateLimit : BitVec 32
  burstUpperBound : BitVec 32
  reserved40 : BitVec 16
  typicalPacketSize : BitVec 16
  reserved60 : BitVec 288
  deriving DecidableEq

/-- The context of zeroes. -/
def RlRaw.zero : RlRaw := ⟨0, 0, 0, 0, 0⟩

/-- `struct mlx5_rate_limit`. -/
structure RateLimit where
  rate : BitVec 32
  maxBurstSz : BitVec 32
  typicalPktSz : BitVec 16
  deriving DecidableEq

/-- `struct mlx5_rl_entry`. -/
structure RlEntry where
  rlRaw : RlRaw
  refcount : ℕ
  index : BitVec 16
  uid : BitVec 16
  dedicated : Bool
  deriving DecidableEq

/-- `struct mlx5_rl_table`; `rlEntry` is none for the null pointer. -/
structure RlTable where
  maxSize : BitVec 16
  maxRate : BitVec 32
  minRate : BitVec 32
  rlEntry : Option (List RlEntry)
  refcount : ℕ

/-- The device: its table, the capability `packet_pacing_uid`, and the context with the uid that the
    hardware has for each index. `fault`: an array was accessed that is not there, or beyond it. -/
structure Dev where
  packetPacingUid : Bool
  table : RlTable
  hw : BitVec 16 → RlRaw × BitVec 16
  fault : Bool

inductive Errno where
  | eopnotsupp | einval | enomem | enospc
  | cmd (err : ℕ)
  deriving DecidableEq

/-- What the firmware answers; a command that fails leaves any context behind. -/
inductive Answer where
  | ok
  | fail (err : ℕ) (left : RlRaw × BitVec 16)
  deriving DecidableEq

def MLX5_SHARED_RESOURCE_UID : BitVec 16 := 0xffff

/-- `mlx5_rl_are_equal_raw`. -/
def rlAreEqualRaw (e : RlEntry) (rlIn : RlRaw) (uid : BitVec 16) : Bool :=
  e.rlRaw = rlIn ∧ e.uid = uid

/-- The loop of `find_rl_entry` from entry `i` on; `ret` is the first empty entry so far. -/
def findLoop (rlIn : RlRaw) (uid : BitVec 16) (dedicated : Bool) :
    List RlEntry → ℕ → Option (ℕ × RlEntry) → Option (ℕ × RlEntry)
  | [], _, ret => ret
  | e :: l, i, ret =>
    if dedicated then
      if e.refcount = 0 then some (i, e) else findLoop rlIn uid dedicated l (i + 1) ret
    else if e.refcount ≠ 0 then
      if e.dedicated then findLoop rlIn uid dedicated l (i + 1) ret
      else if rlAreEqualRaw e rlIn uid then some (i, e)
      else findLoop rlIn uid dedicated l (i + 1) ret
    else findLoop rlIn uid dedicated l (i + 1) (ret.or (some (i, e)))

/-- What `find_rl_entry` comes to. -/
inductive Found where
  | fault
  | null
  | entry (i : ℕ) (e : RlEntry)
  deriving DecidableEq

/-- `find_rl_entry`; a table that is not empty is read at once, whether there is an array or not. -/
def findRlEntry (t : RlTable) (rlIn : RlRaw) (uid : BitVec 16) (dedicated : Bool) : Found :=
  match t.rlEntry with
  | none => if t.maxSize = 0 then .null else .fault
  | some es =>
    match findLoop rlIn uid dedicated es 0 none with
    | none => .null
    | some (i, e) => .entry i e

/-- `mlx5_set_pp_rate_limit_cmd`. -/
def setPpRateLimitCmd (d : Dev) (e : RlEntry) (set : Bool) (a : Answer) :
    Dev × Except Errno Unit :=
  match a with
  | .ok =>
    ({ d with hw := update d.hw e.index (if set then e.rlRaw else .zero, e.uid) }, .ok ())
  | .fail err left => ({ d with hw := update d.hw e.index left }, .error (.cmd err))

/-- `mlx5_rl_is_in_range`. -/
def rlIsInRange (t : RlTable) (rate : BitVec 32) : Bool :=
  rate.toNat ≤ t.maxRate.toNat ∧ t.minRate.toNat ≤ rate.toNat

/-- The entries of `kcalloc`, with their indexes set. -/
def newEntries (maxSize : BitVec 16) : List RlEntry :=
  (List.range maxSize.toNat).map fun i => ⟨.zero, 0, ofNat 16 (i + 1), 0, false⟩

/-- `mlx5_rl_table_get`; `mem`: `kcalloc` works. -/
def rlTableGet (t : RlTable) (mem : Bool) : RlTable × Except Errno Unit :=
  match t.rlEntry with
  | some _ => ({ t with refcount := t.refcount + 1 }, .ok ())
  | none =>
    if mem then
      ({ t with rlEntry := some (newEntries t.maxSize), refcount := t.refcount + 1 }, .ok ())
    else (t, .error .enomem)

/-- `mlx5_rl_table_put`. -/
def rlTablePut (t : RlTable) : RlTable :=
  let t := { t with refcount := t.refcount - 1 }
  if t.refcount ≠ 0 then t else { t with rlEntry := none }

/-- A write to `rl_entry[i]`. -/
def Dev.setEntry (d : Dev) (i : ℕ) (e : RlEntry) : Dev :=
  { d with table := { d.table with rlEntry := d.table.rlEntry.map (·.set i e) } }

/-- `mlx5_rl_table_put` on the table of the device. -/
def Dev.tablePut (d : Dev) : Dev := { d with table := rlTablePut d.table }

/-- `mlx5_rl_entry_put` of `e`, which is `rl_entry[i]`. -/
def rlEntryPut (d : Dev) (i : ℕ) (e : RlEntry) (a : Answer) : Dev :=
  let e := { e with refcount := e.refcount - 1 }
  let d := d.setEntry i e
  if e.refcount = 0 then (setPpRateLimitCmd d e false a).1 else d

/-- The part of `mlx5_rl_add_rate_raw` after `find_rl_entry` has given `e`, which is `rl_entry[i]`:
    a free entry is programmed first. -/
def addFound (d : Dev) (rlIn : RlRaw) (uid : BitVec 16) (dedicated : Bool) (i : ℕ) (e : RlEntry)
    (a : Answer) : Dev × Except Errno (BitVec 16) :=
  if e.refcount = 0 then
    let e := { e with rlRaw := rlIn, uid := uid }
    match setPpRateLimitCmd (d.setEntry i e) e true a with
    | (d, .error err) => (d.tablePut, .error err)
    | (d, .ok ()) =>
      (d.setEntry i { e with dedicated := dedicated, refcount := e.refcount + 1 }, .ok e.index)
  else (d.setEntry i { e with refcount := e.refcount + 1 }, .ok e.index)

/-- `mlx5_rl_add_rate_raw`. -/
def rlAddRateRaw (d : Dev) (rlIn : RlRaw) (uid : BitVec 16) (dedicated mem : Bool) (a : Answer) :
    Dev × Except Errno (BitVec 16) :=
  if d.table.maxSize = 0 then (d, .error .eopnotsupp)
  else if rlIn.rateLimit = 0 ∨ rlIsInRange d.table rlIn.rateLimit = false then (d, .error .einval)
  else
    match rlTableGet d.table mem with
    | (_, .error err) => (d, .error err)
    | (t, .ok ()) =>
      let d := { d with table := t }
      match findRlEntry t rlIn uid dedicated with
      | .fault => ({ d with fault := true }, .error .enospc)
      | .null => (d.tablePut, .error .enospc)
      | .entry i e => addFound d rlIn uid dedicated i e a

/-- `mlx5_rl_remove_rate_raw`. -/
def rlRemoveRateRaw (d : Dev) (index : BitVec 16) (a : Answer) : Dev :=
  if index = 0 then { d with fault := true }
  else
    match d.table.rlEntry with
    | none => { d with fault := true }
    | some es =>
      match es[index.toNat - 1]? with
      | none => { d with fault := true }
      | some e => (rlEntryPut d (index.toNat - 1) e a).tablePut

/-- The context of a rate. -/
def RateLimit.raw (rl : RateLimit) : RlRaw :=
  { RlRaw.zero with
    rateLimit := rl.rate, burstUpperBound := rl.maxBurstSz, typicalPacketSize := rl.typicalPktSz }

/-- The uid under which rates are registered. -/
def Dev.rateUid (d : Dev) : BitVec 16 :=
  if d.packetPacingUid then MLX5_SHARED_RESOURCE_UID else 0

/-- `mlx5_rl_add_rate`. -/
def rlAddRate (d : Dev) (rl : RateLimit) (mem : Bool) (a : Answer) :
    Dev × Except Errno (BitVec 16) :=
  rlAddRateRaw d rl.raw d.rateUid false mem a

/-- `mlx5_rl_remove_rate`. -/
def rlRemoveRate (d : Dev) (rl : RateLimit) (a : Answer) : Dev :=
  if rl.rate = 0 then d
  else
    match findRlEntry d.table rl.raw d.rateUid false with
    | .fault => { d with fault := true }
    | .null => d
    | .entry i e => if e.refcount = 0 then d else (rlEntryPut d i e a).tablePut

/-! The calls, and the adds that are not removed yet. -/

/-- An add that is not removed: the index it was given, and what it asked for. -/
structure Held where
  index : BitVec 16
  rlIn : RlRaw
  uid : BitVec 16
  dedicated : Bool
  deriving DecidableEq

structure Sys where
  dev : Dev
  held : List Held

/-- A call, with what `kcalloc` and the firmware do in it. -/
inductive Op where
  | addRaw (rlIn : RlRaw) (uid : BitVec 16) (dedicated mem : Bool) (a : Answer)
  | add (rl : RateLimit) (mem : Bool) (a : Answer)
  | removeRaw (index : BitVec 16) (a : Answer)
  | remove (rl : RateLimit) (a : Answer)

/-- An add that succeeds is held under the index it returns. -/
def hold (held : List Held) (rlIn : RlRaw) (uid : BitVec 16) (dedicated : Bool)
    (r : Dev × Except Errno (BitVec 16)) : Sys :=
  match r.2 with
  | .ok index => ⟨r.1, ⟨index, rlIn, uid, dedicated⟩ :: held⟩
  | .error _ => ⟨r.1, held⟩

/-- The held adds that a removal of `rl` by value may stand for. -/
def Held.isRate (d : Dev) (rl : RateLimit) (h : Held) : Bool :=
  h.rlIn = rl.raw ∧ h.uid = d.rateUid ∧ h.dedicated = false

/-- One call; a removal ends one of the adds it stands for. -/
def step (s : Sys) : Op → Sys
  | .addRaw rlIn uid dedicated mem a =>
    hold s.held rlIn uid dedicated (rlAddRateRaw s.dev rlIn uid dedicated mem a)
  | .add rl mem a => hold s.held rl.raw s.dev.rateUid false (rlAddRate s.dev rl mem a)
  | .removeRaw index a => ⟨rlRemoveRateRaw s.dev index a, s.held.eraseP (·.index = index)⟩
  | .remove rl a => ⟨rlRemoveRate s.dev rl a, s.held.eraseP (·.isRate s.dev rl)⟩

/-- A removal by index is for an index that is held; a rate may be removed whether held or not. -/
def ok (s : Sys) : Op → Prop
  | .removeRaw index _ => ∃ h ∈ s.held, h.index = index
  | _ => True

/-- No rate is removed by value from a table that holds none. -/
def clean (s : Sys) : Op → Prop
  | .remove rl _ => rl.rate = 0 ∨ s.dev.table.maxSize = 0 ∨ 0 < s.dev.table.refcount
  | _ => True

/-- The table after `mlx5_init_rl_table`. -/
def Sys.start (maxSize : BitVec 16) (maxRate minRate : BitVec 32) (packetPacingUid : Bool)
    (hw : BitVec 16 → RlRaw × BitVec 16) : Sys :=
  ⟨⟨packetPacingUid, ⟨maxSize, maxRate, minRate, none, 0⟩, hw, false⟩, []⟩

/-! What the search finds. -/

/-- The entry serves a shared add of this context already. -/
def RlEntry.Hit (rlIn : RlRaw) (uid : BitVec 16) (e : RlEntry) : Prop :=
  e.refcount ≠ 0 ∧ e.dedicated = false ∧ e.rlRaw = rlIn ∧ e.uid = uid

/-- The search of `l`, whose first entry is entry `n`, may give `r`: a shared add finds a hit; when
    there is none, the first empty entry is `ret`, or one of the list. -/
def Finds (rlIn : RlRaw) (uid : BitVec 16) (dedicated : Bool) (l : List RlEntry) (n : ℕ)
    (ret r : Option (ℕ × RlEntry)) : Prop :=
  (∃ i e, r = some (n + i, e) ∧ l[i]? = some e ∧ dedicated = false ∧ e.Hit rlIn uid) ∨
  ((dedicated = true ∨ ∀ e ∈ l, ¬ e.Hit rlIn uid) ∧
    (r = ret ∨ ∃ i e, r = some (n + i, e) ∧ l[i]? = some e ∧ e.refcount = 0))

section
variable {rlIn : RlRaw} {uid : BitVec 16} {dedicated : Bool} {es l : List RlEntry} {i j n : ℕ}
  {e e' x : RlEntry} {ret ret' r : Option (ℕ × RlEntry)}

/-- STEP: the search passes an entry that is no hit, and may take it for the first empty one. -/
theorem Finds.cons (h : Finds rlIn uid dedicated l (n + 1) ret' r)
    (hmiss : dedicated = true ∨ ¬ e.Hit rlIn uid)
    (hret : ret' = ret ∨ ret' = some (n, e) ∧ e.refcount = 0) :
    Finds rlIn uid dedicated (e :: l) n ret r := by
  rcases h with ⟨i, x, rfl, hx, hd, hhit⟩ | ⟨hno, hrest⟩
  · exact .inl ⟨i + 1, x, by rw [Nat.add_right_comm, Nat.add_assoc], by simpa using hx, hd, hhit⟩
  · refine .inr ⟨?_, ?_⟩
    · rcases hno with hd | hno
      · exact .inl hd
      · refine hmiss.imp id fun hm x hx => ?_
        rcases List.mem_cons.1 hx with rfl | hx
        · exact hm
        · exact hno x hx
    · rcases hrest with rfl | ⟨i, x, rfl, hx, hz⟩
      · rcases hret with rfl | ⟨rfl, hz⟩
        · exact .inl rfl
        · exact .inr ⟨0, e, rfl, rfl, hz⟩
      · exact .inr ⟨i + 1, x, by rw [Nat.add_right_comm, Nat.add_assoc], by simpa using hx, hz⟩

/-- RUN: the whole loop. -/
theorem findLoop_finds (rlIn : RlRaw) (uid : BitVec 16) (dedicated : Bool) :
    ∀ (l : List RlEntry) (n : ℕ) (ret : Option (ℕ × RlEntry)),
      Finds rlIn uid dedicated l n ret (findLoop rlIn uid dedicated l n ret)
  | [], n, ret => .inr ⟨.inr fun _ h => (List.not_mem_nil h).elim, .inl rfl⟩
  | e :: l, n, ret => by
    have ih := findLoop_finds rlIn uid dedicated l (n + 1)
    rw [findLoop]
    split_ifs with hd hz hz hded heq
    · exact .inr ⟨.inl hd, .inr ⟨0, e, rfl, rfl, hz⟩⟩
    · exact (ih ret).cons (.inl hd) (.inl rfl)
    · refine (ih ret).cons (.inr fun h => ?_) (.inl rfl)
      rw [h.2.1] at hded
      cases hded
    · exact .inl ⟨0, e, rfl, rfl, by simpa using hd, hz, by simpa using hded,
        by simpa [rlAreEqualRaw] using heq⟩
    · refine (ih ret).cons (.inr fun h => heq ?_) (.inl rfl)
      simpa [rlAreEqualRaw] using h.2.2
    · refine (ih _).cons (.inr fun h => hz h.1) ?_
      cases ret with
      | none => exact .inr ⟨rfl, not_not.1 hz⟩
      | some r => exact .inl rfl

/-- FIND: the search gives the shared entry of the context; if there is none, a free one. -/
theorem findRlEntry_spec {t : RlTable} (ht : t.rlEntry = some es) (rlIn : RlRaw)
    (uid : BitVec 16) (dedicated : Bool) :
    (∃ i e, findRlEntry t rlIn uid dedicated = .entry i e ∧ es[i]? = some e ∧
      dedicated = false ∧ e.Hit rlIn uid) ∨ ((dedicated = true ∨ ∀ e ∈ es, ¬ e.Hit rlIn uid) ∧
      (findRlEntry t rlIn uid dedicated = .null ∨
        ∃ i e, findRlEntry t rlIn uid dedicated = .entry i e ∧ es[i]? = some e ∧
          e.refcount = 0)) := by
  have h := findLoop_finds rlIn uid dedicated es 0 none
  rw [findRlEntry, ht]
  rcases h with ⟨i, e, hf, he⟩ | ⟨hno, hn | ⟨i, e, hf, he⟩⟩
  · exact .inl ⟨i, e, by simp [hf], he⟩
  · exact .inr ⟨hno, .inl (by simp [hn])⟩
  · exact .inr ⟨hno, .inr ⟨i, e, by simp [hf], he⟩⟩

/-- An entry of the array after one was written. -/
theorem getElem?_set_cases (h : (es.set i e')[j]? = some x) :
    j = i ∧ x = e' ∨ j ≠ i ∧ es[j]? = some x := by
  rw [List.getElem?_set] at h
  split_ifs at h with hij hl
  · exact .inl ⟨hij.symm, (Option.some.inj h).symm⟩
  · exact .inr ⟨Ne.symm hij, h⟩

theorem sum_set (e' : RlEntry) : ∀ (es : List RlEntry) (i : ℕ), es[i]? = some e →
    ((es.set i e').map (·.refcount)).sum + e.refcount = (es.map (·.refcount)).sum + e'.refcount
  | x :: es, 0, h => by
    obtain rfl := Option.some.inj h
    simp only [List.set_cons_zero, List.map_cons, List.sum_cons]
    omega
  | x :: es, i + 1, h => by
    have := sum_set e' es i (by simpa using h)
    simp only [List.set_cons_succ, List.map_cons, List.sum_cons]
    omega

end

/-! The array, the contexts of the hardware, and the adds that are held. -/

/-- The entries and what is held agree: an entry is referenced once for each add under its index; a
    referenced entry is programmed; a held add is for its entry's context; no two shared entries
    have the same one. -/
structure Entries (maxSize : BitVec 16) (hw : BitVec 16 → RlRaw × BitVec 16) (es : List RlEntry)
    (held : List Held) : Prop where
  len : es.length = maxSize.toNat
  index : ∀ (i : ℕ) (e : RlEntry), es[i]? = some e → e.index = ofNat 16 (i + 1)
  count : ∀ (i : ℕ) (e : RlEntry), es[i]? = some e → e.refcount = held.countP (·.index = e.index)
  programmed : ∀ (i : ℕ) (e : RlEntry), es[i]? = some e → 0 < e.refcount →
    hw e.index = (e.rlRaw, e.uid)
  names : ∀ h ∈ held, ∃ (i : ℕ) (e : RlEntry), es[i]? = some e ∧ e.index = h.index ∧
    e.rlRaw = h.rlIn ∧ e.uid = h.uid ∧ e.dedicated = h.dedicated
  dedicated : ∀ (i : ℕ) (e : RlEntry), es[i]? = some e → 0 < e.refcount → e.dedicated = true →
    e.refcount = 1
  distinct : ∀ (i j : ℕ) (e e' : RlEntry), es[i]? = some e → es[j]? = some e' →
    e.Hit e'.rlRaw e'.uid → e'.refcount ≠ 0 → e'.dedicated = false → i = j

section
variable {maxSize : BitVec 16} {hw : BitVec 16 → RlRaw × BitVec 16} {es : List RlEntry}
  {held : List Held} {i j : ℕ} {e e' x : RlEntry} {h : Held}

section
variable (hE : Entries maxSize hw es held)
include hE

/-- An index is that of one entry. -/
theorem Entries.index_inj (hi : es[i]? = some e)
    (hj : es[j]? = some x) (heq : e.index = x.index) : i = j := by
  have hlen := hE.len
  have hil := (List.getElem?_eq_some_iff.1 hi).1
  have hjl := (List.getElem?_eq_some_iff.1 hj).1
  rw [hE.index i e hi, hE.index j x hj] at heq
  have := congrArg toNat heq
  simp only [toNat_ofNat] at this
  omega

/-- The array is found by its indexes. -/
theorem Entries.index_toNat (hi : es[i]? = some e) : e.index ≠ 0 ∧ e.index.toNat - 1 = i := by
  have hlen := hE.len
  have hil := (List.getElem?_eq_some_iff.1 hi).1
  rw [hE.index i e hi]
  refine ⟨fun h => ?_, ?_⟩
  · have := congrArg toNat h
    rw [toNat_ofNat, show toNat (0 : BitVec 16) = 0 from rfl] at this
    omega
  · rw [toNat_ofNat]
    omega

/-- A held add keeps its entry referenced. -/
theorem Entries.live (hh : h ∈ held) (hi : es[i]? = some e)
    (heq : e.index = h.index) : 0 < e.refcount := by
  rw [hE.count i e hi]
  exact List.countP_pos_iff.2 ⟨h, hh, by simp [heq]⟩

end

/-- The array of `kcalloc`. -/
theorem Entries.fresh (maxSize : BitVec 16) (hw : BitVec 16 → RlRaw × BitVec 16) :
    Entries maxSize hw (newEntries maxSize) [] := by
  have hget : ∀ i e, (newEntries maxSize)[i]? = some e →
      e = RlEntry.mk .zero 0 (ofNat 16 (i + 1)) 0 false := by
    intro i e h
    rw [newEntries, List.getElem?_map] at h
    obtain ⟨k, hk, rfl⟩ := Option.map_eq_some_iff.1 h
    obtain ⟨hl, rfl⟩ := List.getElem?_eq_some_iff.1 hk
    simp
  refine ⟨by simp [newEntries], fun i e h => ?_, fun i e h => ?_, fun i e h hz => ?_,
    fun _ hh => (List.not_mem_nil hh).elim, fun i e h hz _ => ?_, fun i j e e' h _ hhit _ _ => ?_⟩
  · rw [hget i e h]
  · rw [hget i e h]
    rfl
  · rw [hget i e h] at hz
    exact absurd hz (Nat.lt_irrefl 0)
  · rw [hget i e h] at hz
    exact absurd hz (Nat.lt_irrefl 0)
  · rw [hget i e h] at hhit
    exact absurd rfl hhit.1

section
variable (hE : Entries maxSize hw es held)
include hE

/-- SET: one entry changes, for its own adds. -/
theorem Entries.set (hi : es[i]? = some e)
    {c : BitVec 16 → RlRaw × BitVec 16} {held' : List Held} (hix : e'.index = e.index)
    (hc : ∀ k ≠ e.index, c k = hw k)
    (hcount : ∀ k ≠ e.index, held'.countP (·.index = k) = held.countP (·.index = k))
    (hmem : ∀ g ∈ held', g.index ≠ e.index → g ∈ held)
    (hcount' : e'.refcount = held'.countP (·.index = e.index))
    (hhw : 0 < e'.refcount → c e.index = (e'.rlRaw, e'.uid))
    (hnames : ∀ g ∈ held', g.index = e.index → e'.rlRaw = g.rlIn ∧ e'.uid = g.uid ∧
      e'.dedicated = g.dedicated) (hded : 0 < e'.refcount → e'.dedicated = true → e'.refcount = 1)
    (hdis : e'.refcount ≠ 0 → e'.dedicated = false → ∀ j x, es[j]? = some x → j ≠ i →
      ¬ x.Hit e'.rlRaw e'.uid) : Entries maxSize c (es.set i e') held' := by
  have hil := (List.getElem?_eq_some_iff.1 hi).1
  have hother : ∀ {j x}, es[j]? = some x → j ≠ i → x.index ≠ e.index := fun hj hne heq =>
    hne (hE.index_inj hj hi heq)
  refine ⟨by rw [List.length_set]; exact hE.len, fun j x hx => ?_, fun j x hx => ?_,
    fun j x hx hpos => ?_, fun g hg => ?_, fun j x hx hpos hd => ?_,
    fun j k x y hj hk hhit hy hyd => ?_⟩
  · rcases getElem?_set_cases hx with ⟨rfl, rfl⟩ | ⟨-, hx⟩
    · exact hix.trans (hE.index _ e hi)
    · exact hE.index j x hx
  · rcases getElem?_set_cases hx with ⟨rfl, rfl⟩ | ⟨hne, hx⟩
    · rw [hcount', hix]
    · rw [hcount _ (hother hx hne)]
      exact hE.count j x hx
  · rcases getElem?_set_cases hx with ⟨rfl, rfl⟩ | ⟨hne, hx⟩
    · rw [hix]
      exact hhw hpos
    · rw [hc _ (hother hx hne)]
      exact hE.programmed j x hx hpos
  · by_cases hgi : g.index = e.index
    · exact ⟨i, e', List.getElem?_set_self hil, hix.trans hgi.symm, hnames g hg hgi⟩
    · obtain ⟨j, x, hj, heq, hrest⟩ := hE.names g (hmem g hg hgi)
      have hne : i ≠ j := by
        rintro rfl
        rw [hi] at hj
        cases hj
        exact hgi heq.symm
      exact ⟨j, x, by rwa [List.getElem?_set_ne hne], heq, hrest⟩
  · rcases getElem?_set_cases hx with ⟨rfl, rfl⟩ | ⟨-, hx⟩
    · exact hded hpos hd
    · exact hE.dedicated j x hx hpos hd
  · rcases getElem?_set_cases hj with ⟨rfl, rfl⟩ | ⟨hnj, hj'⟩ <;>
      rcases getElem?_set_cases hk with ⟨hki, rfl⟩ | ⟨hnk, hk'⟩
    · exact hki.symm
    · exact absurd ⟨hy, hyd, hhit.2.2.1.symm, hhit.2.2.2.symm⟩
        (hdis hhit.1 hhit.2.1 k y hk' hnk)
    · exact absurd hhit (hdis hy hyd j x hj' hnj)
    · exact hE.distinct j k x y hj' hk' hhit hy hyd

/-- SCRATCH: what is written to a free entry, and to its context, concerns no one. -/
theorem Entries.scratch (hi : es[i]? = some e)
    (hz : e.refcount = 0) (e' : RlEntry) (hz' : e'.refcount = 0) (hix : e'.index = e.index)
    (c : RlRaw × BitVec 16) : Entries maxSize (update hw e.index c) (es.set i e') held := by
  refine hE.set hi hix (fun k hk => update_of_ne hk ..) (fun _ _ => rfl)
    (fun _ hg _ => hg) ?_ (fun h => absurd h (by omega)) (fun g hg heq => ?_)
    (fun h => absurd h (by omega)) fun h => absurd hz' h
  · rw [hz', ← hE.count i e hi, hz]
  · exact absurd (hE.live hg hi heq.symm) (by omega)

/-- ADD: a free entry is programmed for a new add. -/
theorem Entries.add (hi : es[i]? = some e) (hz : e.refcount = 0)
    (h : Held) (hix : h.index = e.index)
    (hno : h.dedicated = true ∨ ∀ x ∈ es, ¬ x.Hit h.rlIn h.uid) :
    Entries maxSize (update hw e.index (h.rlIn, h.uid))
      (es.set i ⟨h.rlIn, 1, e.index, h.uid, h.dedicated⟩) (h :: held) := by
  refine hE.set hi rfl (fun k hk => update_of_ne hk ..) (fun k hk => ?_)
    (fun g hg hne => ?_) ?_ (fun _ => update_self ..) (fun g hg heq => ?_)
    (fun _ _ => rfl) fun _ hd j x hx _ => ?_
  · exact List.countP_cons_of_neg (by simpa [hix] using Ne.symm hk)
  · rcases List.mem_cons.1 hg with rfl | hg
    · exact absurd hix hne
    · exact hg
  · have := hE.count i e hi
    rw [List.countP_cons_of_pos (by simp [hix])]
    dsimp only
    omega
  · rcases List.mem_cons.1 hg with rfl | hg
    · exact ⟨rfl, rfl, rfl⟩
    · exact absurd (hE.live hg hi heq.symm) (by omega)
  · exact hno.resolve_left (by simpa using hd) x (List.mem_of_getElem? hx)

/-- What is held under an index asked for the context of its entry. -/
theorem Entries.held_eq (hh : h ∈ held) (hi : es[i]? = some e)
    (heq : h.index = e.index) : e.rlRaw = h.rlIn ∧ e.uid = h.uid ∧ e.dedicated = h.dedicated := by
  obtain ⟨j, x, hj, hx, hrest⟩ := hE.names h hh
  obtain rfl := hE.index_inj hj hi (hx.trans heq)
  rw [hi] at hj
  cases hj
  exact hrest

/-- SHARE: an add takes a reference to the shared entry of its context. -/
theorem Entries.share (hi : es[i]? = some e) (h : Held)
    (hhit : e.Hit h.rlIn h.uid) (hix : h.index = e.index) (hd : h.dedicated = false) :
    Entries maxSize hw (es.set i { e with refcount := e.refcount + 1 }) (h :: held) := by
  refine hE.set hi rfl (fun _ _ => rfl) (fun k hk => ?_) (fun g hg hne => ?_) ?_
    (fun _ => hE.programmed i e hi (Nat.pos_of_ne_zero hhit.1)) (fun g hg heq => ?_)
    (fun _ hd' => ?_) fun _ hd' j x hx hne hh => ?_
  · exact List.countP_cons_of_neg (by simpa [hix] using Ne.symm hk)
  · rcases List.mem_cons.1 hg with rfl | hg
    · exact absurd hix hne
    · exact hg
  · have := hE.count i e hi
    rw [List.countP_cons_of_pos (by simp [hix])]
    dsimp only
    omega
  · rcases List.mem_cons.1 hg with rfl | hg
    · exact ⟨hhit.2.2.1, hhit.2.2.2, hhit.2.1.trans hd.symm⟩
    · exact hE.held_eq (e := e) hg hi heq
  · exact absurd (hhit.2.1.symm.trans hd') (by simp)
  · exact hne (hE.distinct j i x e hx hi hh hhit.1 hd')

/-- PUT: one add of an entry is removed; its context may change only when none is left. -/
theorem Entries.put (hi : es[i]? = some e) {p : Held → Bool}
    (hp : ∀ h ∈ held, p h = true → h.index = e.index) (hex : ∃ h ∈ held, p h = true)
    {c : BitVec 16 → RlRaw × BitVec 16} (hc : ∀ k, k ≠ e.index ∨ e.refcount ≠ 1 → c k = hw k) :
    Entries maxSize c (es.set i { e with refcount := e.refcount - 1 }) (held.eraseP p) := by
  obtain ⟨h₀, hh₀, hp₀⟩ := hex
  obtain ⟨g, l₁, l₂, -, hpg, hsplit, herase⟩ := List.exists_of_eraseP hh₀ hp₀
  have hgi := hp g (by simp [hsplit]) hpg
  have hsub : ∀ h ∈ held.eraseP p, h ∈ held := fun h hh => List.eraseP_subset hh
  have hcount : ∀ k, held.countP (·.index = k) =
      (held.eraseP p).countP (·.index = k) + if e.index = k then 1 else 0 := by
    intro k
    rw [herase, hsplit, List.countP_append, List.countP_append, List.countP_cons, hgi]
    simp only [decide_eq_true_eq]
    omega
  refine hE.set hi rfl (fun k hk => hc k (.inl hk)) (fun k hk => ?_) (fun g hg _ => hsub g hg) ?_
    (fun hpos => ?_) (fun g hg heq => hE.held_eq (e := e) (hsub g hg) hi heq) (fun hpos hd => ?_)
    fun hz hd j x hx hne hh => ?_
  · rw [hcount k, if_neg (Ne.symm hk), Nat.add_zero]
  · have h₁ := hE.count i e hi
    have h₂ := hcount e.index
    rw [if_pos rfl] at h₂
    dsimp only
    omega
  · have h₁ : 0 < e.refcount - 1 := hpos
    exact (hc _ (.inr (by omega))).trans (hE.programmed i e hi (by omega))
  · have h₁ : 0 < e.refcount - 1 := hpos
    have := hE.dedicated i e hi (by omega) hd
    omega
  · have h₁ : e.refcount - 1 ≠ 0 := hz
    exact hne (hE.distinct j i x e hx hi hh (by omega) hd)

end

end

/-! The invariant of the table, and what may differ in it without notice. -/

/-- The array is there exactly while something is held, and the table is referenced once for each
    reference to an entry. -/
structure Inv (s : Sys) : Prop where
  fault : s.dev.fault = false
  rate : ∀ h ∈ s.held, h.rlIn.rateLimit ≠ 0
  null : s.dev.table.rlEntry = none → s.dev.table.refcount = 0 ∧ s.held = []
  array : ∀ es, s.dev.table.rlEntry = some es → 0 < s.dev.table.refcount ∧
    s.dev.table.refcount = (es.map (·.refcount)).sum ∧
    Entries s.dev.table.maxSize s.dev.hw es s.held

/-- Two states of an entry that differ at most in what a free entry contains. -/
structure RlEntry.Same (e e' : RlEntry) : Prop where
  refcount : e'.refcount = e.refcount
  index : e'.index = e.index
  live : 0 < e.refcount → e' = e

/-- Two states that differ at most in what free entries and the contexts of free indexes contain. -/
structure Dev.Same (d d' : Dev) : Prop where
  uid : d'.packetPacingUid = d.packetPacingUid
  size : d'.table.maxSize = d.table.maxSize
  range : d'.table.maxRate = d.table.maxRate ∧ d'.table.minRate = d.table.minRate
  refcount : d'.table.refcount = d.table.refcount
  array : Option.Rel (List.Forall₂ RlEntry.Same) d.table.rlEntry d'.table.rlEntry
  hw : ∀ es, d.table.rlEntry = some es → ∀ e ∈ es, 0 < e.refcount → d'.hw e.index = d.hw e.index
  fault : d'.fault = d.fault

theorem RlEntry.Same.refl (e : RlEntry) : e.Same e := ⟨rfl, rfl, fun _ => rfl⟩

theorem forall₂_refl : ∀ es : List RlEntry, List.Forall₂ RlEntry.Same es es
  | [] => .nil
  | e :: es => .cons (.refl e) (forall₂_refl es)

theorem Dev.Same.refl (d : Dev) : d.Same d := by
  refine ⟨rfl, rfl, ⟨rfl, rfl⟩, rfl, ?_, fun _ _ _ _ _ => rfl, rfl⟩
  cases d.table.rlEntry with
  | none => exact .none
  | some es => exact .some (forall₂_refl es)

section
variable {d : Dev} {t : RlTable} {held : List Held} {es : List RlEntry} {i : ℕ} {e e' : RlEntry}
  {hw : BitVec 16 → RlRaw × BitVec 16} {maxSize : BitVec 16}

theorem forall₂_set (h : e.Same e') : ∀ {es : List RlEntry} {i : ℕ}, es[i]? = some e →
    List.Forall₂ RlEntry.Same es (es.set i e')
  | x :: es, 0, hi => by
    obtain rfl := Option.some.inj hi
    exact .cons h (forall₂_refl es)
  | x :: es, i + 1, hi => .cons (.refl x) (forall₂_set h (by simpa using hi))

/-- When no entry is referenced, nothing is held. -/
theorem Entries.held_nil (hE : Entries maxSize hw es held) (hz : (es.map (·.refcount)).sum = 0) :
    held = [] := by
  refine List.eq_nil_iff_forall_not_mem.2 fun h hh => ?_
  obtain ⟨i, e, hi, heq, -⟩ := hE.names h hh
  have hpos := hE.live hh hi heq
  have hzero := List.sum_eq_zero_iff_forall_eq_nat.1 hz e.refcount
    (List.mem_map_of_mem (List.mem_of_getElem? hi))
  omega

/-- PUT: the table's own reference goes after the entry's. -/
theorem Inv.tablePut (hf : d.fault = false) (hr : ∀ h ∈ held, h.rlIn.rateLimit ≠ 0)
    (ht : d.table.rlEntry = some es) (hs : d.table.refcount = (es.map (·.refcount)).sum + 1)
    (hE : Entries d.table.maxSize d.hw es held) : Inv ⟨d.tablePut, held⟩ := by
  have hput : d.tablePut.table = rlTablePut d.table := rfl
  rw [rlTablePut] at hput
  split_ifs at hput with hz
  · have hz' : d.table.refcount - 1 ≠ 0 := hz
    refine ⟨hf, hr, fun hn => ?_, fun es' he => ?_⟩
    · rw [show d.tablePut.table.rlEntry = d.table.rlEntry by rw [hput], ht] at hn
      cases hn
    · rw [show d.tablePut.table.rlEntry = d.table.rlEntry by rw [hput], ht] at he
      cases he
      rw [hput]
      exact ⟨by omega, by dsimp only; omega, hE⟩
  · have hz' : d.table.refcount - 1 = 0 := not_not.1 hz
    refine ⟨hf, hr, fun _ => ⟨?_, hE.held_nil (by omega)⟩, fun es' he => ?_⟩
    · change d.tablePut.table.refcount = 0
      rw [hput]
      exact hz'
    · rw [show d.tablePut.table.rlEntry = none by rw [hput]] at he
      cases he

/-- The table `t` is the device's with one reference more, and its array is `es`. -/
structure Got (d : Dev) (held : List Held) (t : RlTable) (es : List RlEntry) : Prop where
  array : t.rlEntry = some es
  refcount : t.refcount = (es.map (·.refcount)).sum + 1
  entries : Entries t.maxSize d.hw es held
  was : t = { d.table with refcount := d.table.refcount + 1 } ∨
    d.table.rlEntry = none ∧ d.table.refcount = 0 ∧
      t = { d.table with rlEntry := some es, refcount := 1 }

/-- GET: `mlx5_rl_table_get` refuses, or makes the array if need be. -/
theorem Inv.tableGet (h : Inv ⟨d, held⟩) (mem : Bool) :
    (∃ err, rlTableGet d.table mem = (d.table, .error err)) ∨
    ∃ t es, rlTableGet d.table mem = (t, .ok ()) ∧ Got d held t es := by
  rw [rlTableGet]
  rcases ht : d.table.rlEntry with - | es
  · obtain ⟨hz, hnil⟩ := h.null ht
    dsimp only at hz hnil
    cases mem with
    | false => exact .inl ⟨_, rfl⟩
    | true =>
      refine .inr ⟨_, newEntries d.table.maxSize, rfl, rfl, ?_, ?_, .inr ⟨ht, hz, by rw [hz]⟩⟩
      · dsimp only
        rw [hz, List.sum_eq_zero_iff_forall_eq_nat.2]
        simp [newEntries]
      · rw [hnil]
        exact .fresh ..
  · obtain ⟨-, hs, hE⟩ := h.array es ht
    refine .inr ⟨_, es, rfl, rfl, by rw [← hs], hE, .inl ?_⟩
    rw [← ht]

/-- A table that is got and put is as it was, but for what was written to free entries. -/
theorem Got.same (hg : Got d held t es) {es' : List RlEntry} {c : BitVec 16 → RlRaw × BitVec 16}
    (hes : List.Forall₂ RlEntry.Same es es')
    (hc : ∀ e ∈ es, 0 < e.refcount → c e.index = d.hw e.index) (hI : Inv ⟨d, held⟩) :
    d.Same { d with table := rlTablePut { t with rlEntry := some es' }, hw := c } := by
  rcases hg.was with rfl | ⟨hn, hz, rfl⟩
  · have ht : d.table.rlEntry = some es := hg.array
    obtain ⟨hpos, -, -⟩ := hI.array es ht
    have hput : rlTablePut { d.table with rlEntry := some es', refcount := d.table.refcount + 1 } =
        { d.table with rlEntry := some es' } := by
      rw [rlTablePut, if_pos (by dsimp only at hpos ⊢; omega)]
      rfl
    rw [hput]
    refine ⟨rfl, rfl, ⟨rfl, rfl⟩, rfl, ?_, fun es₀ h₀ e he hl => ?_, rfl⟩
    · rw [ht]
      exact .some hes
    · rw [ht] at h₀
      cases h₀
      exact hc e he hl
  · have hput : rlTablePut { d.table with rlEntry := some es', refcount := 1 } = d.table := by
      rw [rlTablePut, if_neg (by simp)]
      rw [show 1 - 1 = d.table.refcount from hz.symm, ← hn]
    rw [hput]
    refine ⟨rfl, rfl, ⟨rfl, rfl⟩, rfl, ?_, fun es₀ h₀ => ?_, rfl⟩
    · rw [hn]
      exact .none
    · rw [hn] at h₀
      cases h₀

end

/-! The calls. -/

section
variable {d : Dev} {t : RlTable} {held : List Held} {es : List RlEntry} {i : ℕ} {e : RlEntry}
  {rlIn : RlRaw} {uid : BitVec 16} {dedicated mem : Bool} {a : Answer} {rl : RateLimit}

/-- STEP: the entry that the search gives is taken, or a command fails and nothing has changed. -/
theorem addFound_spec (hI : Inv ⟨d, held⟩) (hg : Got d held t es) (hi : es[i]? = some e)
    (hrate : rlIn.rateLimit ≠ 0)
    (hfound : dedicated = false ∧ e.Hit rlIn uid ∨
      (dedicated = true ∨ ∀ x ∈ es, ¬ x.Hit rlIn uid) ∧ e.refcount = 0) :
    Inv (hold held rlIn uid dedicated
      (addFound { d with table := t } rlIn uid dedicated i e a)) ∧
      ∀ err, (addFound { d with table := t } rlIn uid dedicated i e a).2 = .error err →
        d.Same (addFound { d with table := t } rlIn uid dedicated i e a).1 := by
  have hrates : ∀ g ∈ (⟨e.index, rlIn, uid, dedicated⟩ :: held : List Held),
      g.rlIn.rateLimit ≠ 0 := by
    rintro g hg
    rcases List.mem_cons.1 hg with rfl | hg
    · exact hrate
    · exact hI.rate g hg
  have hsum := fun e' => sum_set e' es i hi
  rw [addFound]
  rcases hfound with ⟨rfl, hhit⟩ | ⟨hno, hz⟩
  · rw [if_neg hhit.1]
    refine ⟨⟨hI.fault, hrates, fun hn => ?_, fun es' he => ?_⟩, fun err he => by cases he⟩
    · exact absurd hn (by simp [hold, Dev.setEntry, hg.array])
    · have hes : es.set i { e with refcount := e.refcount + 1 } = es' := by
        simpa [hold, Dev.setEntry, hg.array] using he
      subst hes
      have := hsum { e with refcount := e.refcount + 1 }
      have hr := hg.refcount
      refine ⟨?_, ?_, hg.entries.share hi ⟨e.index, rlIn, uid, false⟩ hhit rfl rfl⟩
      · change 0 < t.refcount
        omega
      · change t.refcount = _
        dsimp only at this ⊢
        omega
  · rw [if_pos hz]
    cases a with
    | ok =>
      dsimp only [setPpRateLimitCmd]
      refine ⟨⟨hI.fault, hrates, fun hn => ?_, fun es' he => ?_⟩, fun err he => by cases he⟩
      · exact absurd hn (by simp [hold, Dev.setEntry, hg.array])
      · have hes : es.set i ⟨rlIn, 1, e.index, uid, dedicated⟩ = es' := by
          simpa [hold, Dev.setEntry, hg.array, hz] using he
        subst hes
        have := hsum ⟨rlIn, 1, e.index, uid, dedicated⟩
        have hr := hg.refcount
        refine ⟨?_, ?_, hg.entries.add hi hz ⟨e.index, rlIn, uid, dedicated⟩ rfl hno⟩
        · change 0 < t.refcount
          omega
        · change t.refcount = _
          dsimp only at this ⊢
          omega
    | fail err left =>
      have hset : (Dev.setEntry { d with table := t } i
          { e with rlRaw := rlIn, uid := uid }).table =
          { t with rlEntry := some (es.set i { e with rlRaw := rlIn, uid := uid }) } := by
        simp [Dev.setEntry, hg.array]
      have hscr := hg.entries.scratch hi hz { e with rlRaw := rlIn, uid := uid } hz rfl left
      have := hsum { e with rlRaw := rlIn, uid := uid }
      dsimp only [setPpRateLimitCmd]
      refine ⟨?_, fun err' _ => ?_⟩
      · refine Inv.tablePut hI.fault hI.rate (congrArg RlTable.rlEntry hset) ?_ ?_
        · dsimp only
          rw [hset]
          have hr := hg.refcount
          dsimp only at this ⊢
          omega
        · dsimp only
          exact hscr
      · rw [Dev.tablePut]
        rw [hset]
        have hsame : e.Same { e with rlRaw := rlIn, uid := uid } :=
          ⟨rfl, rfl, fun h => absurd h (by omega)⟩
        refine hg.same (forall₂_set hsame hi) (fun x hx hpos => ?_) hI
        obtain ⟨j, hj, rfl⟩ := List.mem_iff_getElem.1 hx
        refine update_of_ne (fun heq => ?_) ..
        have := hg.entries.index_inj (List.getElem?_eq_getElem hj) hi heq
        subst this
        rw [List.getElem?_eq_getElem hj] at hi
        cases hi
        omega

/-- STEP: an add is held under the index it gives, or changes nothing. -/
theorem rlAddRateRaw_spec (hI : Inv ⟨d, held⟩) (rlIn : RlRaw) (uid : BitVec 16)
    (dedicated mem : Bool) (a : Answer) :
    Inv (hold held rlIn uid dedicated (rlAddRateRaw d rlIn uid dedicated mem a)) ∧
      ∀ err, (rlAddRateRaw d rlIn uid dedicated mem a).2 = .error err →
        d.Same (rlAddRateRaw d rlIn uid dedicated mem a).1 := by
  rw [rlAddRateRaw]
  split_ifs with hz hr
  · exact ⟨hI, fun _ _ => .refl d⟩
  · exact ⟨hI, fun _ _ => .refl d⟩
  · rcases hI.tableGet mem with ⟨err, he⟩ | ⟨t, es, he, hg⟩
    · rw [he]
      exact ⟨hI, fun _ _ => .refl d⟩
    · rw [he]
      dsimp only
      have hrate : rlIn.rateLimit ≠ 0 := fun h => hr (.inl h)
      rcases findRlEntry_spec hg.array rlIn uid dedicated with
        ⟨i, e, hf, hi, hd, hhit⟩ | ⟨hno, hn | ⟨i, e, hf, hi, hz⟩⟩
      · rw [hf]
        exact addFound_spec hI hg hi hrate (.inl ⟨hd, hhit⟩)
      · rw [hn]
        refine ⟨Inv.tablePut hI.fault hI.rate hg.array hg.refcount hg.entries, fun _ _ => ?_⟩
        have := hg.same (c := d.hw) (forall₂_refl es) (fun _ _ _ => rfl) hI
        rwa [← hg.array] at this
      · rw [hf]
        exact addFound_spec hI hg hi hrate (.inr ⟨hno, hz⟩)

/-- A command changes the context of its index. -/
theorem setPpRateLimitCmd_hw (d : Dev) (e : RlEntry) (set : Bool) (a : Answer) :
    ∃ c, (setPpRateLimitCmd d e set a).1 = { d with hw := update d.hw e.index c } := by
  cases a with
  | ok => exact ⟨_, rfl⟩
  | fail err left => exact ⟨_, rfl⟩

/-- STEP: the references of one held add are put. -/
theorem Inv.entryPut (hI : Inv ⟨d, held⟩) (ht : d.table.rlEntry = some es) (hi : es[i]? = some e)
    {p : Held → Bool} (hp : ∀ h ∈ held, p h = true → h.index = e.index)
    (hex : ∃ h ∈ held, p h = true) :
    Inv ⟨(rlEntryPut d i e a).tablePut, held.eraseP p⟩ := by
  obtain ⟨-, hs, hE⟩ := hI.array es ht
  have hpos : 0 < e.refcount := by
    obtain ⟨h, hh, hph⟩ := hex
    exact hE.live hh hi (hp h hh hph).symm
  have hrates : ∀ h ∈ held.eraseP p, h.rlIn.rateLimit ≠ 0 := fun h hh =>
    hI.rate h (List.eraseP_subset hh)
  have hsum := sum_set { e with refcount := e.refcount - 1 } es i hi
  have hset : (d.setEntry i { e with refcount := e.refcount - 1 }).table =
      { d.table with rlEntry := some (es.set i { e with refcount := e.refcount - 1 }) } := by
    simp [Dev.setEntry, ht]
  have main : ∀ c, (∀ k, k ≠ e.index ∨ e.refcount ≠ 1 → c k = d.hw k) →
      Inv ⟨Dev.tablePut { d.setEntry i { e with refcount := e.refcount - 1 } with hw := c },
        held.eraseP p⟩ := by
    intro c hc
    refine Inv.tablePut hI.fault hrates (congrArg RlTable.rlEntry hset) ?_ ?_
    · dsimp only at hs hsum ⊢
      rw [hset]
      dsimp only
      omega
    · dsimp only
      exact hE.put hi hp hex hc
  rw [rlEntryPut]
  dsimp only
  split_ifs with hz
  · obtain ⟨c, hc⟩ := setPpRateLimitCmd_hw (d.setEntry i { e with refcount := e.refcount - 1 })
      { e with refcount := e.refcount - 1 } false a
    rw [hc]
    refine main _ fun k hk => update_of_ne ?_ ..
    exact hk.resolve_right (by omega)
  · exact main d.hw fun _ _ => rfl

/-- STEP: a held index is removed. -/
theorem rlRemoveRateRaw_spec (hI : Inv ⟨d, held⟩) {index : BitVec 16}
    (hheld : ∃ h ∈ held, h.index = index) :
    Inv ⟨rlRemoveRateRaw d index a, held.eraseP (·.index = index)⟩ := by
  obtain ⟨h, hh, hix⟩ := hheld
  rcases ht : d.table.rlEntry with - | es
  · rw [show held = [] from (hI.null ht).2] at hh
    exact absurd hh List.not_mem_nil
  · obtain ⟨-, -, hE⟩ := hI.array es ht
    obtain ⟨i, e, hi, heq, -⟩ := hE.names h hh
    obtain rfl := heq.trans hix
    obtain ⟨hne, hsub⟩ := hE.index_toNat hi
    rw [rlRemoveRateRaw, if_neg hne, ht]
    dsimp only
    rw [hsub, hi]
    exact hI.entryPut ht hi (fun g _ hg => by simpa using hg) ⟨h, hh, by simp [heq]⟩

/-- STEP: a rate is removed by its value, when the array is there. -/
theorem rlRemoveRate_spec (hI : Inv ⟨d, held⟩)
    (hclean : rl.rate = 0 ∨ d.table.maxSize = 0 ∨ 0 < d.table.refcount) :
    Inv ⟨rlRemoveRate d rl a, held.eraseP (·.isRate d rl)⟩ ∧
      ((∀ h ∈ held, h.isRate d rl = false) → rlRemoveRate d rl a = d) := by
  have hself : (∀ h ∈ held, h.isRate d rl = false) → held.eraseP (·.isRate d rl) = held :=
    fun h => List.eraseP_of_forall_not fun g hg => by simp [h g hg]
  rw [rlRemoveRate]
  split_ifs with hz
  · have hno : ∀ h ∈ held, h.isRate d rl = false := by
      intro h hh
      refine Bool.eq_false_iff.2 fun hr => hI.rate h hh ?_
      have : h.rlIn = rl.raw ∧ h.uid = d.rateUid ∧ h.dedicated = false := by
        simpa [Held.isRate] using hr
      rw [this.1]
      exact hz
    rw [hself hno]
    exact ⟨hI, fun _ => rfl⟩
  · rcases ht : d.table.rlEntry with - | es
    · have hnil : held = [] := (hI.null ht).2
      have hzero : d.table.refcount = 0 := (hI.null ht).1
      have hsize := (hclean.resolve_left hz).resolve_right (by omega)
      rw [findRlEntry, ht]
      dsimp only
      rw [if_pos hsize, hnil]
      rw [hnil] at hI
      exact ⟨hI, fun _ => rfl⟩
    · obtain ⟨-, -, hE⟩ := hI.array es ht
      -- an add of this rate is held under the index of the entry that has its context
      have hentry : ∀ h ∈ held, h.isRate d rl = true → ∃ (i : ℕ) (e : RlEntry), es[i]? = some e ∧
          e.index = h.index ∧ e.Hit rl.raw d.rateUid := by
        intro h hh hr
        have hr : h.rlIn = rl.raw ∧ h.uid = d.rateUid ∧ h.dedicated = false := by
          simpa [Held.isRate] using hr
        obtain ⟨i, e, hi, heq, h₁, h₂, h₃⟩ := hE.names h hh
        exact ⟨i, e, hi, heq, Nat.pos_iff_ne_zero.1 (hE.live hh hi heq), h₃.trans hr.2.2,
          h₁.trans hr.1, h₂.trans hr.2.1⟩
      rcases findRlEntry_spec ht rl.raw d.rateUid false with
        ⟨i, e, hf, hi, -, hhit⟩ | ⟨hno, hrest⟩
      · rw [hf]
        dsimp only
        rw [if_neg hhit.1]
        have hcount := hE.count i e hi
        have hpos : 0 < held.countP (·.index = e.index) := by
          rw [← hcount]
          exact Nat.pos_of_ne_zero hhit.1
        obtain ⟨h, hh, hix⟩ := List.countP_pos_iff.1 hpos
        have hix : h.index = e.index := by simpa using hix
        obtain ⟨h₁, h₂, h₃⟩ := hE.held_eq hh hi hix
        have hr : h.isRate d rl = true := by
          simp [Held.isRate, ← h₁, ← h₂, ← h₃, hhit.2.1, hhit.2.2.1, hhit.2.2.2]
        refine ⟨hI.entryPut ht hi (fun g hg hgr => ?_) ⟨h, hh, hr⟩, fun hno => ?_⟩
        · obtain ⟨j, x, hj, heq, hx⟩ := hentry g hg hgr
          obtain rfl := hE.distinct j i x e hj hi (by rw [hhit.2.2.1, hhit.2.2.2]; exact hx)
            hhit.1 hhit.2.1
          rw [hj] at hi
          cases hi
          exact heq.symm
        · rw [hno h hh] at hr
          cases hr
      · have hno' : ∀ h ∈ held, h.isRate d rl = false := by
          intro h hh
          refine Bool.eq_false_iff.2 fun hr => ?_
          obtain ⟨i, e, hi, -, hhit⟩ := hentry h hh hr
          exact hno.resolve_left (by simp) e (List.mem_of_getElem? hi) hhit
        rw [hself hno']
        rcases hrest with hn | ⟨i, e, hf, hi, hz⟩
        · rw [hn]
          exact ⟨hI, fun _ => rfl⟩
        · rw [hf]
          dsimp only
          rw [if_pos hz]
          exact ⟨hI, fun _ => rfl⟩

end

/-! The table over whole runs. -/

/-- What holds of the table between calls. -/
structure Sound (s : Sys) : Prop where
  refcount : s.dev.table.refcount = ((s.dev.table.rlEntry.getD []).map (·.refcount)).sum
  array : s.dev.table.rlEntry.isSome = true ↔ 0 < s.dev.table.refcount
  distinct : ∀ es, s.dev.table.rlEntry = some es → ∀ (i j : ℕ) (e e' : RlEntry),
    es[i]? = some e → es[j]? = some e' → 0 < e.refcount → 0 < e'.refcount →
    e.dedicated = false → e'.dedicated = false → e.rlRaw = e'.rlRaw → e.uid = e'.uid → i = j
  dedicated : ∀ es, s.dev.table.rlEntry = some es → ∀ e ∈ es, 0 < e.refcount →
    e.dedicated = true → e.refcount = 1
  held : ∀ h ∈ s.held, s.dev.hw h.index = (h.rlIn, h.uid) ∧
    ∃ es, s.dev.table.rlEntry = some es ∧ ∃ e ∈ es, e.index = h.index ∧ 0 < e.refcount ∧
      e.rlRaw = h.rlIn ∧ e.uid = h.uid ∧ e.dedicated = h.dedicated
  fault : s.dev.fault = false

/-- The call is an add, and it fails. -/
def FailedAdd (s : Sys) : Op → Prop
  | .addRaw rlIn uid dedicated mem a =>
    ∃ err, (rlAddRateRaw s.dev rlIn uid dedicated mem a).2 = .error err
  | .add rl mem a => ∃ err, (rlAddRate s.dev rl mem a).2 = .error err
  | _ => False

/-- The call removes by value a rate that no held add asked for. -/
def Unconfigured (s : Sys) : Op → Prop
  | .remove rl _ => ∀ h ∈ s.held, h.isRate s.dev rl = false
  | _ => False

/-- A call that has nothing to do changes nothing. -/
structure Quiet (s : Sys) (op : Op) : Prop where
  add : FailedAdd s op → s.dev.Same (step s op).dev ∧ (step s op).held = s.held
  remove : Unconfigured s op → step s op = s

theorem Inv.sound {s : Sys} (h : Inv s) : Sound s := by
  rcases ht : s.dev.table.rlEntry with - | es
  · obtain ⟨hz, hnil⟩ := h.null ht
    refine ⟨by rw [ht, hz]; rfl, by simp [ht, hz], fun es he => ?_, fun es he => ?_,
      fun g hg => ?_, h.fault⟩
    · cases ht.symm.trans he
    · cases ht.symm.trans he
    · rw [hnil] at hg
      exact absurd hg List.not_mem_nil
  · obtain ⟨hpos, hs, hE⟩ := h.array es ht
    refine ⟨by rw [ht]; exact hs, by simp [ht, hpos],
      fun es' he i j e e' hi hj hl hl' hd hd' hr hu => ?_, fun es' he e hm hl hd => ?_,
      fun g hg => ?_, h.fault⟩
    · cases ht.symm.trans he
      exact hE.distinct i j e e' hi hj ⟨by omega, hd, hr, hu⟩ (by omega) hd'
    · cases ht.symm.trans he
      obtain ⟨i, hi⟩ := List.mem_iff_getElem?.1 hm
      exact hE.dedicated i e hi hl hd
    · obtain ⟨i, e, hi, heq, h₁, h₂, h₃⟩ := hE.names g hg
      have hl := hE.live hg hi heq
      refine ⟨?_, es, ht, e, List.mem_of_getElem? hi, heq, hl, h₁, h₂, h₃⟩
      rw [← heq, hE.programmed i e hi hl, h₁, h₂]

/-- STEP: a call keeps the invariant, and is quiet when it should be. -/
theorem Inv.step {s : Sys} (h : Inv s) {op : Op} (hok : ok s op) (hclean : clean s op) :
    Inv (RateTable.step s op) ∧ Quiet s op := by
  obtain ⟨d, held⟩ := s
  have hadd : ∀ {rlIn uid dedicated} {r : Dev × Except Errno (BitVec 16)},
      (∀ err, r.2 = .error err → d.Same r.1) → (∃ err, r.2 = .error err) →
      d.Same (hold held rlIn uid dedicated r).dev ∧
        (hold held rlIn uid dedicated r).held = held := by
    rintro rlIn uid dedicated ⟨r, o⟩ hr ⟨err, rfl⟩
    exact ⟨hr err rfl, rfl⟩
  cases op with
  | addRaw rlIn uid dedicated mem a =>
    obtain ⟨hI, hf⟩ := rlAddRateRaw_spec h rlIn uid dedicated mem a
    exact ⟨hI, hadd hf, fun hu => hu.elim⟩
  | add rl mem a =>
    obtain ⟨hI, hf⟩ := rlAddRateRaw_spec h rl.raw d.rateUid false mem a
    exact ⟨hI, hadd hf, fun hu => hu.elim⟩
  | removeRaw index a => exact ⟨rlRemoveRateRaw_spec h hok, fun hf => hf.elim, fun hu => hu.elim⟩
  | remove rl a =>
    obtain ⟨hI, hno⟩ := rlRemoveRate_spec (a := a) h hclean
    refine ⟨hI, fun hf => hf.elim, fun hu => ?_⟩
    rw [RateTable.step, hno hu, List.eraseP_of_forall_not fun g hg => by simp [hu g hg]]

theorem Inv.start (maxSize : BitVec 16) (maxRate minRate : BitVec 32) (packetPacingUid : Bool)
    (hw : BitVec 16 → RlRaw × BitVec 16) :
    Inv (.start maxSize maxRate minRate packetPacingUid hw) :=
  ⟨rfl, fun _ hh => absurd hh List.not_mem_nil, fun _ => ⟨rfl, rfl⟩, fun _ he => by cases he⟩

/-- RUN: the invariant holds of every state of every run. -/
theorem Inv.run {maxSize : BitVec 16} {maxRate minRate : BitVec 32} {packetPacingUid : Bool}
    {hw : BitVec 16 → RlRaw × BitVec 16} {s : Sys}
    (h : Reach RateTable.step (fun s op => ok s op ∧ clean s op)
      (.start maxSize maxRate minRate packetPacingUid hw) s) : Inv s :=
  h.invariant (.start ..) fun _ _ hop hI => (hI.step hop.1 hop.2).1

/-- CORRECT: as long as no rate is removed by value from a table that holds none, the references
    add up, no context is kept twice, and the context of an index that an add was given is the one
    it asked for until it is removed; an add that fails and a removal of an unknown rate change
    nothing. -/
theorem rate_table_sound (maxSize : BitVec 16) (maxRate minRate : BitVec 32)
    (packetPacingUid : Bool) (hw : BitVec 16 → RlRaw × BitVec 16) (s : Sys)
    (h : Reach step (fun s op => ok s op ∧ clean s op)
      (.start maxSize maxRate minRate packetPacingUid hw) s) :
    Sound s ∧ ∀ op, ok s op → clean s op → Quiet s op :=
  ⟨(Inv.run h).sound, fun _ hok hclean => ((Inv.run h).step hok hclean).2⟩

instance : ∀ s op, Decidable (ok s op)
  | s, .removeRaw index _ => inferInstanceAs (Decidable (∃ h ∈ s.held, h.index = index))
  | _, .addRaw .. => instDecidableTrue
  | _, .add .. => instDecidableTrue
  | _, .remove .. => instDecidableTrue

instance : ∀ s op, Decidable (clean s op)
  | s, .remove rl _ =>
    inferInstanceAs (Decidable (rl.rate = 0 ∨ s.dev.table.maxSize = 0 ∨ 0 < s.dev.table.refcount))
  | _, .addRaw .. => instDecidableTrue
  | _, .add .. => instDecidableTrue
  | _, .removeRaw .. => instDecidableTrue

/-- Two adds share an entry, a dedicated one of the same context does not, a third does not fit; a
    rate that is not there is removed, then each add. -/
theorem rate_table_sound_shared :
    Sound ([.add ⟨5, 1, 2⟩ true .ok, .add ⟨5, 1, 2⟩ true .ok,
      .addRaw (RateLimit.raw ⟨5, 1, 2⟩) 0 true true .ok, .add ⟨6, 0, 0⟩ true .ok,
      .remove ⟨7, 0, 0⟩ .ok, .remove ⟨5, 1, 2⟩ .ok, .removeRaw 2 (.fail 5 (.zero, 0)),
      .remove ⟨5, 1, 2⟩ .ok].foldl step (.start 2 100 1 false fun _ => (.zero, 0))) := by
  have hrun : Runs step (fun s op => ok s op ∧ clean s op)
      (.start 2 100 1 false fun _ => (.zero, 0))
      [.add ⟨5, 1, 2⟩ true .ok, .add ⟨5, 1, 2⟩ true .ok,
        .addRaw (RateLimit.raw ⟨5, 1, 2⟩) 0 true true .ok, .add ⟨6, 0, 0⟩ true .ok,
        .remove ⟨7, 0, 0⟩ .ok, .remove ⟨5, 1, 2⟩ .ok, .removeRaw 2 (.fail 5 (.zero, 0)),
        .remove ⟨5, 1, 2⟩ .ok] := by decide +kernel
  exact (rate_table_sound 2 100 1 false (fun _ => (.zero, 0)) _ (Reach.start.runs hrun)).1

/-- BROKEN: a removal by value searches the array before there is one. -/
theorem remove_before_add_faults :
    ¬ ∀ s, Reach step ok (.start 2 100 1 false fun _ => (.zero, 0)) s →
      Sound s ∧ ∀ op, ok s op → Quiet s op := by
  intro h
  have hnext : Reach step ok (.start 2 100 1 false fun _ => (.zero, 0))
      (step (.start 2 100 1 false fun _ => (.zero, 0)) (.remove ⟨5, 0, 0⟩ .ok)) :=
    .next .start trivial
  exact absurd (h _ hnext).1.fault (by decide)

end RdmaDriver.RateTable
