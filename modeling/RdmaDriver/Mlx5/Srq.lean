import Mathlib.Data.List.Nodup
import RdmaDriver.Basic
import RdmaDriver.Schemes.Run
import RdmaDriver.Schemes.Trail

/-! @src drivers/infiniband/hw/mlx5/srq.c | name:Shared receive queue | scheme:trail | family:free-list

    A kernel SRQ keeps its free WQEs on a list threaded through the WQE buffer itself: each WQE
    starts with the 16-bit index of the next free one, `head` is the next WQE to hand out and `tail`
    the last free one. A post takes from `head`, a completion appends at `tail`, and the list is
    full when the two meet. The invariant is that the walk from `head` to `tail` is a simple path
    through exactly the WQEs that hardware does not own.

        post:  head --> next(head) --> … --> tail        (refused when head = tail)
        free i:                          tail --> i      (tail is i) -/

namespace RdmaDriver.Mlx5Srq
open Schemes Function
open List (mem_append mem_singleton range')

/-- `struct ib_sge`. -/
structure Sge where
  addr : ℕ
  length : ℕ
  lkey : ℕ
  deriving DecidableEq

/-- `struct mlx5_wqe_data_seg`, as host values. -/
structure DataSeg where
  byteCount : ℕ
  lkey : ℕ
  addr : ℕ
  deriving DecidableEq

/-- `struct ib_recv_wr`; the `next` pointers of a posted chain become a list. -/
structure RecvWr where
  wrId : ℕ
  numSge : ℤ
  sgList : ℕ → Sge

/-- `enum ib_srq_type`. -/
inductive SrqType where | BASIC | XRC | TM | NVMF | other
  deriving DecidableEq

/-- The kernel side of `struct mlx5_ib_srq`. The WQE buffer is the pair of its `next_wqe_index`
    links and its scatter lists, both indexed by WQE. -/
structure Srq where
  max : ℕ
  maxGs : ℕ
  maxAvailGather : ℕ
  head : ℕ
  tail : ℕ
  wqeCtr : ℕ
  db : ℕ
  wrid : ℕ → ℕ
  nextWqeIndex : ℕ → ℕ
  scat : ℕ → ℕ → DataSeg

/-- What the SRQ code reads of the device: firmware capabilities, the internal-error state and the
    key that ends a scatter list. -/
structure Dev where
  logMaxSrqSz : ℕ
  maxWqeSzRq : ℕ
  terminateScatterListMkey : ℕ
  internalError : Bool

/-- `struct ib_srq_init_attr`, the part a kernel SRQ depends on. -/
structure InitAttr where
  srqType : SrqType
  maxWr : ℕ
  maxSge : ℕ

/-- The outcome of each fallible call made while an SRQ is created, and the contents of the memory
    that is returned uninitialised. -/
structure CreateEnv where
  devRes : Option Errno
  dbAlloc : Option Errno
  bufAlloc : Bool
  pasAlloc : Bool
  wridAlloc : Bool
  cmdCreateSrq : Option Errno
  wrid : ℕ → ℕ
  buf : ℕ → ℕ → DataSeg

/-- The free list as `create_srq_kernel` writes it: each WQE points to its successor, wrapping. -/
def initNext (max i : ℕ) : ℕ := toU 16 ((i + 1) &&& (max - 1) : ℕ)

def createSrqKernel (env : CreateEnv) (srq : Srq) : Except Errno Srq :=
  match env.dbAlloc with
  | some e => .error e
  | none =>
    if !env.bufAlloc then .error .enomem
    else if !env.pasAlloc then .error .enomem
    else if !env.wridAlloc then .error .enomem
    else .ok { srq with
      head := 0, tail := srq.max - 1, wqeCtr := 0
      nextWqeIndex := initNext srq.max, wrid := env.wrid, scat := env.buf }

/-- `mlx5_ib_create_srq` without user data. -/
def createSrq (dev : Dev) (attr : InitAttr) (env : CreateEnv) : Except Errno Srq :=
  if attr.srqType = .other then .error .eopnotsupp
  else if attr.maxWr ≥ 2 ^ dev.logMaxSrqSz ∨ attr.maxSge > dev.maxWqeSzRq / 16 then
    .error .einval
  else match env.devRes with
  | some e => .error e
  | none =>
    let descSize := Nat.max 32 (roundupPowOfTwo (16 + attr.maxSge * 16))
    let srq : Srq := {
      max := roundupPowOfTwo (attr.maxWr + 1), maxGs := attr.maxSge
      maxAvailGather := (descSize - 16) / 16
      head := 0, tail := 0, wqeCtr := 0, db := 0
      wrid := env.wrid, nextWqeIndex := fun _ => 0, scat := env.buf }
    match createSrqKernel env srq with
    | .error e => .error e
    | .ok srq =>
      match env.cmdCreateSrq with
      | some e => .error e
      | none => .ok srq

/-- `mlx5_ib_free_srq_wqe`. -/
def freeSrqWqe (srq : Srq) (wqeIndex : ℕ) : Srq :=
  { srq with
    nextWqeIndex := update srq.nextWqeIndex srq.tail (toU 16 wqeIndex)
    tail := wqeIndex }

/-- The scatter list written for one WR: its SGEs, then a terminator if a segment is left. -/
def fillScat (dev : Dev) (srq : Srq) (wr : RecvWr) (old : ℕ → DataSeg) (i : ℕ) : DataSeg :=
  if i < wr.numSge then
    ⟨(wr.sgList i).length, (wr.sgList i).lkey, (wr.sgList i).addr⟩
  else if i = wr.numSge ∧ i < srq.maxAvailGather then
    ⟨0, dev.terminateScatterListMkey, 0⟩
  else old i

/-- One turn of the posting loop. -/
def postOne (dev : Dev) (srq : Srq) (wr : RecvWr) : Except Errno Srq :=
  -- `num_sge` is an `int` compared with a `size_t`
  if toU 64 wr.numSge > srq.maxGs then .error .einval
  else if srq.head = srq.tail then .error .enomem
  else .ok { srq with
    wrid := update srq.wrid srq.head wr.wrId
    head := srq.nextWqeIndex srq.head
    scat := update srq.scat srq.head (fillScat dev srq wr (srq.scat srq.head)) }

/-- What a post returns: the new queue, the error, the position of `*bad_wr` in the chain, and (not
    returned by the code) the WQE index and `wr_id` of each WR that was handed to hardware. -/
structure PostResult where
  srq : Srq
  nreq : ℕ
  err : Option Errno
  handed : List (ℕ × ℕ)

def PostResult.badWr (r : PostResult) : Option ℕ := r.err.map fun _ => r.nreq

/-- The posting loop, from the WR with number `nreq` on. -/
def postLoop (dev : Dev) : Srq → ℕ → List (ℕ × ℕ) → List RecvWr → PostResult
  | srq, nreq, handed, [] => ⟨srq, nreq, none, handed⟩
  | srq, nreq, handed, wr :: wrs =>
    match postOne dev srq wr with
    | .error e => ⟨srq, nreq, some e, handed⟩
    | .ok srq' => postLoop dev srq' (nreq + 1) (handed ++ [(srq.head, wr.wrId)]) wrs

/-- The doorbell update at the end of a post that took at least one WR. -/
def ringDb (srq : Srq) (nreq : ℕ) : Srq :=
  if nreq = 0 then srq
  else { srq with wqeCtr := toU 16 (srq.wqeCtr + nreq), db := toU 16 (srq.wqeCtr + nreq) }

def postSrqRecv (dev : Dev) (srq : Srq) (wrs : List RecvWr) : PostResult :=
  if dev.internalError then ⟨srq, 0, some .eio, []⟩
  else
    let r := postLoop dev srq 0 [] wrs
    { r with srq := ringDb r.srq r.nreq }

/-! ### Runs -/

/-- The SRQ together with what hardware owns: the index and `wr_id` of every WQE that was posted
    and has not been freed since. -/
structure World where
  srq : Srq
  posted : List (ℕ × ℕ)

/-- The indices hardware owns. -/
def World.owned (w : World) : List ℕ := w.posted.map Prod.fst

inductive Call where
  | post (internalError : Bool) (wrs : List RecvWr)
  | free (wqeIndex : ℕ)

def step (dev : Dev) (w : World) : Call → World
  | .post ie wrs =>
    let r := postSrqRecv { dev with internalError := ie } w.srq wrs
    ⟨r.srq, w.posted ++ r.handed⟩
  | .free i => ⟨freeSrqWqe w.srq i, w.posted.filter fun p => p.1 ≠ i⟩

/-- Only a WQE that is currently posted is ever freed. -/
def ok (w : World) : Call → Prop
  | .post _ _ => True
  | .free i => i ∈ w.owned

/-- The free-list invariant: `l` are the free WQEs before the tail. -/
structure Valid (w : World) (l : List ℕ) : Prop where
  trail : Trail w.srq.nextWqeIndex w.srq.head l w.srq.tail
  nodup : (l ++ [w.srq.tail]).Nodup
  free : ∀ i, i ∈ l ++ [w.srq.tail] ↔ i < w.srq.max ∧ i ∉ w.owned
  ownedLt : ∀ i ∈ w.owned, i < w.srq.max
  ownedNodup : w.owned.Nodup
  wrid : ∀ p ∈ w.posted, w.srq.wrid p.1 = p.2
  maxLe : w.srq.max ≤ 2 ^ 16

/-- The links written at creation count up and wrap at a power of two. -/
theorem initNext_eq {k i : ℕ} (hk : k ≤ 16) : initNext (2 ^ k) i = (i + 1) % 2 ^ k := by
  unfold initNext
  rw [Nat.and_two_pow_sub_one_eq_mod]
  refine toU_of_lt (lt_of_lt_of_le (Nat.mod_lt _ (Nat.two_pow_pos k)) ?_)
  exact Nat.pow_le_pow_right (by norm_num) hk

/-- Counting up from `a` walks through the next `n` indices. -/
theorem trail_range {k : ℕ} (hk : k ≤ 16) : ∀ n a, a + n < 2 ^ k →
    Trail (initNext (2 ^ k)) a (range' a n) (a + n)
  | 0, a, _ => by simp
  | n + 1, a, h => by
      refine ⟨rfl, ?_⟩
      have hstep : initNext (2 ^ k) a = a + 1 := by
        rw [initNext_eq hk, Nat.mod_eq_of_lt (by omega)]
      rw [hstep]
      have hrec := trail_range hk n (a + 1) (by omega)
      rwa [show a + 1 + n = a + (n + 1) by omega] at hrec

/-- The queue a successful creation leaves behind. -/
theorem createSrq_ok {dev : Dev} {attr : InitAttr} {env : CreateEnv} {srq : Srq}
    (h : createSrq dev attr env = .ok srq) :
    attr.maxWr < 2 ^ dev.logMaxSrqSz ∧ srq.max = roundupPowOfTwo (attr.maxWr + 1) ∧
      srq.head = 0 ∧ srq.tail = srq.max - 1 ∧ srq.nextWqeIndex = initNext srq.max := by
  unfold createSrq createSrqKernel at h
  split at h
  · cases h
  split at h
  · cases h
  split at h
  · cases h
  cases hdb : env.dbAlloc <;> simp only [hdb] at h
  swap
  · cases h
  cases hb : env.bufAlloc <;> cases hp : env.pasAlloc <;> cases hw : env.wridAlloc <;>
    simp only [hb, hp, hw] at h
  any_goals cases h
  cases hc : env.cmdCreateSrq <;> simp only [hc] at h
  swap
  · cases h
  cases h
  exact ⟨by omega, rfl, rfl, rfl, rfl⟩

/-- Base: after creation every WQE is free. -/
theorem valid_create {dev : Dev} {attr : InitAttr} {env : CreateEnv} {srq : Srq}
    (hcap : dev.logMaxSrqSz ≤ 16) (h : createSrq dev attr env = .ok srq) :
    Valid ⟨srq, []⟩ (range' 0 (srq.max - 1)) := by
  obtain ⟨hwr, hmax, hhead, htail, hnext⟩ := createSrq_ok h
  obtain ⟨k, hk⟩ := exists_roundupPowOfTwo (attr.maxWr + 1)
  rw [hk] at hmax
  have hle : 2 ^ k ≤ 2 ^ dev.logMaxSrqSz := by
    rw [← hk]
    exact roundupPowOfTwo_le (by omega)
  have hk16 : k ≤ 16 := by
    have := (Nat.pow_le_pow_iff_right (by norm_num : 1 < 2)).mp hle
    omega
  have hpos : 0 < 2 ^ k := Nat.two_pow_pos k
  have hsplit : range' 0 (srq.max - 1) ++ [srq.tail] = range' 0 srq.max := by
    have hcat : range' 0 (2 ^ k - 1 + 1) = range' 0 (2 ^ k - 1) ++ [2 ^ k - 1] := by
      rw [List.range'_concat]
      simp
    rw [Nat.sub_add_cancel hpos] at hcat
    rw [htail, hmax, hcat]
  refine ⟨?_, ?_, ?_, by simp [World.owned], by simp [World.owned], by simp, ?_⟩
  · have ht := trail_range hk16 (2 ^ k - 1) 0 (by omega)
    simp only [hnext, hhead, htail, hmax]
    simpa using ht
  · rw [hsplit]
    exact List.nodup_range'
  · intro i
    rw [hsplit]
    simp [World.owned]
  · rw [hmax]
    exact Nat.pow_le_pow_right (by norm_num) hk16

/-- A successful turn of the posting loop. -/
theorem postOne_ok {dev : Dev} {srq srq' : Srq} {wr : RecvWr} (h : postOne dev srq wr = .ok srq') :
    srq.head ≠ srq.tail ∧ srq'.max = srq.max ∧ srq'.tail = srq.tail ∧
      srq'.head = srq.nextWqeIndex srq.head ∧ srq'.nextWqeIndex = srq.nextWqeIndex ∧
      srq'.wrid = update srq.wrid srq.head wr.wrId := by
  unfold postOne at h
  split at h
  · cases h
  split at h
  · cases h
  · rename_i hne
    cases h
    exact ⟨hne, rfl, rfl, rfl, rfl, rfl⟩

/-- Posting one WR takes the head of the free list. -/
theorem valid_postOne {dev : Dev} {w : World} {l : List ℕ} {wr : RecvWr} {srq' : Srq}
    (hv : Valid w l) (h : postOne dev w.srq wr = .ok srq') :
    ∃ l', Valid ⟨srq', w.posted ++ [(w.srq.head, wr.wrId)]⟩ l' := by
  obtain ⟨hne, hmax, htail, hhead, hnext, hwrid⟩ := postOne_ok h
  cases l with
  | nil => exact absurd hv.trail hne
  | cons x l' =>
    obtain ⟨hx, htrail⟩ := hv.trail
    have hnd := hv.nodup
    rw [List.cons_append, List.nodup_cons] at hnd
    have hmem : w.srq.head < w.srq.max ∧ w.srq.head ∉ w.owned :=
      (hv.free w.srq.head).mp (by rw [hx]; exact List.mem_cons_self ..)
    have howned : World.owned ⟨srq', w.posted ++ [(w.srq.head, wr.wrId)]⟩
        = w.owned ++ [w.srq.head] := by simp [World.owned]
    refine ⟨l', ⟨?_, ?_, ?_, ?_, ?_, ?_, ?_⟩⟩
    · simp only [hnext, hhead, htail, hx]
      exact htrail
    · simp only [htail]
      exact hnd.2
    · intro i
      rw [howned]
      simp only [htail, hmax, mem_append, mem_singleton, not_or]
      have hi := hv.free i
      rw [List.cons_append, List.mem_cons] at hi
      constructor
      · intro hil
        have hil' : i ∈ l' ++ [w.srq.tail] := by simpa using hil
        obtain ⟨hlt, hno⟩ := hi.mp (Or.inr hil')
        refine ⟨hlt, hno, ?_⟩
        rintro rfl
        exact hnd.1 (hx ▸ hil')
      · rintro ⟨hlt, hno, hnh⟩
        rcases hi.mpr ⟨hlt, hno⟩ with he | hil
        · exact absurd (he.trans hx.symm) hnh
        · simpa using hil
    · intro i hi
      rw [howned, mem_append, mem_singleton] at hi
      simp only [hmax]
      rcases hi with hi | rfl
      · exact hv.ownedLt i hi
      · exact hmem.1
    · rw [howned, List.nodup_append]
      refine ⟨hv.ownedNodup, List.nodup_singleton _, ?_⟩
      intro a ha b hb
      rw [mem_singleton] at hb
      subst hb
      rintro rfl
      exact hmem.2 ha
    · intro p hp
      rw [mem_append, mem_singleton] at hp
      simp only [hwrid]
      rcases hp with hp | rfl
      · rw [update_of_ne, hv.wrid p hp]
        intro he
        exact hmem.2 (he ▸ List.mem_map_of_mem hp)
      · rw [update_self]
    · simp only [hmax]
      exact hv.maxLe

/-- The posting loop keeps the invariant, adding what it handed out to the owned WQEs. -/
theorem valid_postLoop (dev : Dev) : ∀ (wrs : List RecvWr) (srq : Srq) (nreq : ℕ)
    (handed base : List (ℕ × ℕ)) (l : List ℕ), Valid ⟨srq, base ++ handed⟩ l →
    ∃ l', Valid ⟨(postLoop dev srq nreq handed wrs).srq,
      base ++ (postLoop dev srq nreq handed wrs).handed⟩ l'
  | [], _, _, _, _, l, hv => ⟨l, hv⟩
  | wr :: wrs, srq, nreq, handed, base, l, hv => by
      rw [postLoop]
      cases h : postOne dev srq wr with
      | error e => exact ⟨l, hv⟩
      | ok srq' =>
        obtain ⟨l', hv'⟩ := valid_postOne hv h
        rw [List.append_assoc] at hv'
        exact valid_postLoop dev wrs srq' (nreq + 1) _ base l' hv'

/-- The doorbell counters are not part of the free list. -/
theorem valid_ringDb {srq : Srq} {posted : List (ℕ × ℕ)} {l : List ℕ} (nreq : ℕ)
    (hv : Valid ⟨srq, posted⟩ l) : Valid ⟨ringDb srq nreq, posted⟩ l := by
  unfold ringDb
  split
  · exact hv
  · exact { hv with }

/-- Freeing a posted WQE appends it to the free list. -/
theorem valid_free {w : World} {l : List ℕ} {i : ℕ} (hv : Valid w l) (hi : i ∈ w.owned) :
    Valid ⟨freeSrqWqe w.srq i, w.posted.filter fun p => p.1 ≠ i⟩ (l ++ [w.srq.tail]) := by
  have hlt := hv.ownedLt i hi
  have hu : toU 16 i = i := toU_of_lt (lt_of_lt_of_le hlt hv.maxLe)
  have htl : w.srq.tail ∉ l := by
    have := hv.nodup
    rw [List.nodup_append] at this
    exact fun hm => this.2.2 _ hm _ (List.mem_singleton_self _) rfl
  have hnotfree : i ∉ l ++ [w.srq.tail] := fun hm => ((hv.free i).mp hm).2 hi
  have howned : ∀ j, j ∈ World.owned ⟨freeSrqWqe w.srq i, w.posted.filter fun p => p.1 ≠ i⟩ ↔
      j ∈ w.owned ∧ j ≠ i := by
    intro j
    simp only [World.owned, List.mem_map, List.mem_filter, decide_eq_true_eq]
    constructor
    · rintro ⟨p, ⟨hp, hne⟩, rfl⟩
      exact ⟨⟨p, hp, rfl⟩, hne⟩
    · rintro ⟨⟨p, hp, rfl⟩, hne⟩
      exact ⟨p, ⟨hp, hne⟩, rfl⟩
  refine ⟨?_, ?_, ?_, ?_, ?_, ?_, hv.maxLe⟩
  · simp only [freeSrqWqe, hu]
    exact hv.trail.link htl
  · rw [List.nodup_append]
    refine ⟨hv.nodup, List.nodup_singleton _, ?_⟩
    intro a ha b hb
    rw [mem_singleton] at hb
    rintro rfl
    have hai : a = i := hb
    exact hnotfree (hai ▸ ha)
  · intro j
    rw [howned]
    simp only [freeSrqWqe]
    rw [mem_append, mem_singleton, hv.free j]
    by_cases hj : j = i
    · subst hj
      simp [hlt]
    · simp [hj]
  · intro j hj
    exact hv.ownedLt j ((howned j).mp hj).1
  · have hsub : List.Sublist (w.posted.filter fun p => p.1 ≠ i) w.posted := List.filter_sublist
    exact hv.ownedNodup.sublist (hsub.map Prod.fst)
  · intro p hp
    exact hv.wrid p (List.mem_of_mem_filter hp)

theorem valid_step (dev : Dev) (w : World) (c : Call) (hok : ok w c) (hv : ∃ l, Valid w l) :
    ∃ l, Valid (step dev w c) l := by
  obtain ⟨l, hv⟩ := hv
  cases c with
  | post ie wrs =>
    simp only [step, postSrqRecv]
    cases ie with
    | true => exact ⟨l, by simpa using hv⟩
    | false =>
      have hv' : Valid ⟨w.srq, w.posted ++ []⟩ l := by simpa using hv
      obtain ⟨l', hl'⟩ :=
        valid_postLoop { dev with internalError := false } wrs w.srq 0 [] w.posted l hv'
      exact ⟨l', valid_ringDb _ hl'⟩
  | free i => exact ⟨_, valid_free hv hok⟩

/-! ### A successful post -/

/-- LOOP: without an error every WR is handed to hardware, in order. -/
theorem postLoop_handed (dev : Dev) : ∀ (wrs : List RecvWr) (srq : Srq) (nreq : ℕ)
    (handed : List (ℕ × ℕ)), (postLoop dev srq nreq handed wrs).err = none →
    (postLoop dev srq nreq handed wrs).nreq = nreq + wrs.length ∧
      (postLoop dev srq nreq handed wrs).srq.wqeCtr = srq.wqeCtr ∧
      (postLoop dev srq nreq handed wrs).handed.map Prod.snd =
        handed.map Prod.snd ++ wrs.map RecvWr.wrId
  | [], _, _, _, _ => ⟨rfl, rfl, (List.append_nil _).symm⟩
  | wr :: wrs, srq, nreq, handed, h => by
      rw [postLoop] at h ⊢
      cases hp : postOne dev srq wr with
      | error e =>
        rw [hp] at h
        cases h
      | ok srq' =>
        rw [hp] at h
        obtain ⟨hn, hctr, hmap⟩ := postLoop_handed dev wrs srq' (nreq + 1) _ h
        have hsame : srq'.wqeCtr = srq.wqeCtr := by
          unfold postOne at hp
          split_ifs at hp
          cases hp
          rfl
        refine ⟨?_, hctr.trans hsame, ?_⟩
        · rw [hn, List.length_cons]
          omega
        · rw [hmap, List.map_append, List.append_assoc]
          rfl

/-- A successful post hands over every WR in order, and the doorbell counts them. -/
theorem postSrqRecv_handed {dev : Dev} {srq : Srq} {wrs : List RecvWr} (hne : wrs ≠ [])
    (h : (postSrqRecv dev srq wrs).err = none) :
    (postSrqRecv dev srq wrs).handed.map Prod.snd = wrs.map RecvWr.wrId ∧
      (postSrqRecv dev srq wrs).srq.wqeCtr = toU 16 (srq.wqeCtr + wrs.length) ∧
      (postSrqRecv dev srq wrs).srq.db = toU 16 (srq.wqeCtr + wrs.length) := by
  unfold postSrqRecv at h ⊢
  split_ifs at h ⊢
  obtain ⟨hn, hctr, hmap⟩ := postLoop_handed dev wrs srq 0 [] h
  rw [Nat.zero_add] at hn
  have hpos : wrs.length ≠ 0 := mt List.length_eq_zero_iff.mp hne
  simp only [ringDb, hn, if_neg hpos, hctr, and_true]
  exact hmap

/-! ### A failing post -/

/-- A loop that stops at WR `k` did exactly what the loop over the WRs before it does. -/
theorem postLoop_prefix (dev : Dev) : ∀ (wrs : List RecvWr) (srq : Srq) (nreq : ℕ)
    (handed : List (ℕ × ℕ)) (e : Errno), (postLoop dev srq nreq handed wrs).err = some e →
    nreq ≤ (postLoop dev srq nreq handed wrs).nreq ∧
    postLoop dev srq nreq handed (wrs.take ((postLoop dev srq nreq handed wrs).nreq - nreq)) =
      { postLoop dev srq nreq handed wrs with err := none }
  | [], _, _, _, _, h => by simp [postLoop] at h
  | wr :: wrs, srq, nreq, handed, e, h => by
      rw [postLoop] at h ⊢
      cases hp : postOne dev srq wr with
      | error e' => simp [postLoop]
      | ok srq' =>
        rw [hp] at h
        simp only at h ⊢
        obtain ⟨hle, heq⟩ := postLoop_prefix dev wrs srq' (nreq + 1) _ e h
        refine ⟨by omega, ?_⟩
        generalize hr : postLoop dev srq' (nreq + 1) (handed ++ [(srq.head, wr.wrId)]) wrs = r
          at hle heq ⊢
        rw [show r.nreq - nreq = r.nreq - (nreq + 1) + 1 by omega, List.take_succ_cons, postLoop, hp]
        exact heq

/-- A failing post has the effect of posting the WRs before `*bad_wr`. -/
theorem postSrqRecv_prefix (dev : Dev) (srq : Srq) (wrs : List RecvWr) (k : ℕ)
    (h : (postSrqRecv dev srq wrs).badWr = some k) :
    postSrqRecv { dev with internalError := false } srq (wrs.take k) =
      { postSrqRecv dev srq wrs with err := none } := by
  unfold PostResult.badWr at h
  cases hie : dev.internalError with
  | true =>
    simp only [postSrqRecv, hie, if_true, Option.map_some, Option.some.injEq] at h ⊢
    subst h
    simp [postLoop, ringDb]
  | false =>
    have hdev : { dev with internalError := false } = dev := by rw [← hie]
    simp only [hdev, postSrqRecv, hie, Bool.false_eq_true, if_false] at h ⊢
    cases he : (postLoop dev srq 0 [] wrs).err with
    | none => simp [he] at h
    | some e =>
      rw [he, Option.map_some, Option.some.injEq] at h
      obtain ⟨-, heq⟩ := postLoop_prefix dev wrs srq 0 [] e he
      rw [Nat.sub_zero, h] at heq
      rw [heq, h]

/-- CORRECT: in every run of a created SRQ the walk from `head` to `tail` is a simple path through
    exactly the WQEs hardware does not own, one WQE is always free, no WQE is owned twice, each
    owned WQE still carries the `wr_id` it was posted with, and a failing post has the effect of
    posting the WRs before `*bad_wr`. Hardware numbers WQEs with 16 bits. -/
theorem srq_free_list_exact (dev : Dev) (attr : InitAttr) (env : CreateEnv) (srq₀ : Srq) (w : World)
    (hcap : dev.logMaxSrqSz ≤ 16) (hc : createSrq dev attr env = .ok srq₀)
    (h : Reach (step dev) ok ⟨srq₀, []⟩ w) :
    (∃ l, Trail w.srq.nextWqeIndex w.srq.head l w.srq.tail ∧ (l ++ [w.srq.tail]).Nodup ∧
      ∀ i, i ∈ l ++ [w.srq.tail] ↔ i < w.srq.max ∧ i ∉ w.owned) ∧
    (∃ i < w.srq.max, i ∉ w.owned) ∧
    w.owned.Nodup ∧
    (∀ p ∈ w.posted, w.srq.wrid p.1 = p.2) ∧
    (∀ ie wrs k, (postSrqRecv { dev with internalError := ie } w.srq wrs).badWr = some k →
      postSrqRecv { dev with internalError := false } w.srq (wrs.take k) =
        { postSrqRecv { dev with internalError := ie } w.srq wrs with err := none }) := by
  obtain ⟨l, hv⟩ := h.invariant ⟨_, valid_create hcap hc⟩ (valid_step dev)
  have htail := (hv.free w.srq.tail).mp (by simp)
  refine ⟨⟨l, hv.trail, hv.nodup, hv.free⟩, ⟨w.srq.tail, htail⟩, hv.ownedNodup, hv.wrid, ?_⟩
  intro ie wrs k hk
  exact postSrqRecv_prefix { dev with internalError := ie } w.srq wrs k hk

/-- A creation in which every call succeeds. -/
def quietEnv : CreateEnv where
  devRes := none
  dbAlloc := none
  bufAlloc := true
  pasAlloc := true
  wridAlloc := true
  cmdCreateSrq := none
  wrid := fun _ => 0
  buf := fun _ _ => ⟨0, 0, 0⟩

def smallDev : Dev := ⟨15, 512, 0x100, false⟩

/-- The four-entry SRQ created for `max_wr = 3`. -/
def smallSrq : Srq :=
  ⟨4, 1, 1, 0, 3, 0, 0, fun _ => 0, initNext 4, fun _ _ => ⟨0, 0, 0⟩⟩

/-- `smallSrq` after two posts and the completion of the first. -/
def smallWorld : World :=
  step smallDev
    (step smallDev ⟨smallSrq, []⟩
      (.post false [⟨7, 0, fun _ => ⟨0, 0, 0⟩⟩, ⟨8, 0, fun _ => ⟨0, 0, 0⟩⟩]))
    (.free 0)

theorem smallWorld_reached : Reach (step smallDev) ok ⟨smallSrq, []⟩ smallWorld := by
  refine .next (.next .start trivial) ?_
  show 0 ∈ [0, 1]
  decide

theorem srq_free_list_exact_run :
    createSrq smallDev ⟨.BASIC, 3, 1⟩ quietEnv = .ok smallSrq ∧ smallWorld.owned = [1] ∧
      ∃ i < smallWorld.srq.max, i ∉ smallWorld.owned :=
  ⟨rfl, rfl, (srq_free_list_exact smallDev ⟨.BASIC, 3, 1⟩ quietEnv smallSrq smallWorld (by decide)
    rfl smallWorld_reached).2.1⟩

end RdmaDriver.Mlx5Srq
