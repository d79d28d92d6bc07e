import Mathlib.Data.List.Range
import Mathlib.Data.List.TakeWhile
import RdmaDriver.Basic
import RdmaDriver.Schemes.Run
import RdmaDriver.Schemes.Splice

/-! @src drivers/infiniband/core/mad_rmpp.c | name:RMPP receiver | scheme:run | family:window

    A reliable multi-packet message comes as DATA MADs numbered from 1. The receiver keeps them in a
    list, in the order of their numbers. `seg_num` is the end of the gapless beginning of that list,
    `cur_seg_buf` its element; segments up to `newwin` are accepted, and an ACK tells the sender both
    numbers each time the window is used up. The message is done when `cur_seg_buf` carries LAST.
    The model follows the segments of one transaction, one call at a time, as the completion queue
    of the port delivers them. A receive that waits 40 seconds is destroyed, and a complete one
    10 seconds after its end: what comes later begins a new one.

        list   1 - 2 - … - seg_num - ·  ·  x - ·  y - …   ≤ newwin
                           cur_seg_buf     (gaps) -/

namespace RdmaDriver.Rmpp
open Schemes
open List (mem_append mem_cons mem_cons_self mem_map mem_singleton pairwise_append pairwise_cons)

/-- A DATA MAD: the RMPP header and the payload. -/
structure Seg where
  rmppStatus : ℕ
  first : Bool
  last : Bool
  segNum : ℕ
  paylen : ℕ
  data : List ℕ
  deriving DecidableEq

/-- An ACK MAD: both numbers as they stand in the header. -/
structure Ack where
  rmppStatus : ℕ
  segNum : ℕ
  newwin : ℕ
  deriving DecidableEq

/-- What fixes the sizes of an agent's MADs: the management class, whether they are OPA MADs, and the
    depth of its receive queue, an `int`. -/
structure Cfg where
  mgmtClass : ℕ
  opa : Bool
  maxActive : ℕ
  maxActiveLt : maxActive < 2 ^ 31

/-- `ib_get_mad_data_offset`. -/
def ibGetMadDataOffset (mgmtClass : ℕ) : ℕ :=
  if mgmtClass = 0x03 then 56
  else if mgmtClass = 0x06 ∨ mgmtClass = 0x10 ∨ mgmtClass = 0x12 then 64
  else if 0x30 ≤ mgmtClass ∧ mgmtClass ≤ 0x4F then 40
  else 24

/-- `sizeof(struct ib_rmpp_mad)`, or of `struct opa_rmpp_mad`. -/
def Cfg.madSize (c : Cfg) : ℕ := if c.opa then 2048 else 256

/-- `IB_MGMT_RMPP_DATA`, or `OPA_MGMT_RMPP_DATA`. -/
def Cfg.rmppData (c : Cfg) : ℕ := if c.opa then 2012 else 220

def Cfg.hdrSize (c : Cfg) : ℕ := ibGetMadDataOffset c.mgmtClass

def Cfg.dataSize (c : Cfg) : ℕ := c.madSize - c.hdrSize

/-- `window_size`. -/
def Cfg.windowSize (c : Cfg) : ℕ := max (c.maxActive / 2 ^ 3) 1

/-- `enum rmpp_state`. -/
inductive RmppState where
  | active | timeout | complete
  deriving DecidableEq

/-- `struct mad_rmpp_recv`. A buffer is named by its MAD: the list never holds two of one number. -/
structure Recv where
  state : RmppState
  rmppList : List Seg
  curSegBuf : Seg
  lastAck : ℤ
  segNum : ℤ
  newwin : ℤ
  repwin : ℤ
  deriving DecidableEq

/-- A message given to the client. -/
structure Done where
  rmppList : List Seg
  segNum : ℤ
  madLen : ℤ
  deriving DecidableEq

/-- What the environment decides in one call: whether the ACK can be allocated and posted, and whether
    a `mad_rmpp_recv` can be created. -/
structure Env where
  msgOk : Bool
  postOk : Bool
  createOk : Bool
  deriving DecidableEq

/-- What a call produces: the message, an ACK, the status of an ABORT. -/
structure Out where
  done : Option Done
  ack : Option Ack
  nack : Option ℕ
  deriving DecidableEq

def Out.nothing : Out := ⟨none, none, none⟩

/-- `get_seg_num`. -/
def getSegNum (seg : Seg) : ℤ := toInt seg.segNum

/-- `create_rmpp_recv`. -/
def createRmppRecv (seg : Seg) : Recv where
  state := .active
  rmppList := [seg]
  curSegBuf := seg
  lastAck := 0
  segNum := 1
  newwin := 1
  repwin := 1

/-- `ack_recv` with `format_ack`. -/
def ackRecv (r : Recv) (env : Env) : Recv × Option Ack :=
  if !env.msgOk then (r, none)
  else ({ r with lastAck := r.segNum },
    if env.postOk then some ⟨0, toU 32 r.segNum, toU 32 r.newwin⟩ else none)

/-- `find_seg_location`. -/
def findSegLocation (rmppList : List Seg) (segNum : ℤ) : Option Seg :=
  lastBelow getSegNum segNum rmppList.reverse

/-- `update_seg_num`, along the list from `new_buf` on. -/
def updateSegNum (r : Recv) : List Seg → Recv
  | [] => r
  | newBuf :: l =>
    if getSegNum newBuf = toInt (r.segNum + 1) then
      updateSegNum { r with curSegBuf := newBuf, segNum := toInt (r.segNum + 1) } l
    else r

/-- The padding of the last segment, as `get_mad_len` computes it. -/
def rmppPad (c : Cfg) (seg : Seg) : ℤ :=
  let pad := toInt (c.rmppData - seg.paylen)
  if pad > c.rmppData ∨ pad < 0 then 0 else pad

/-- `get_mad_len`. -/
def getMadLen (c : Cfg) (r : Recv) : ℤ :=
  toInt (c.hdrSize + r.segNum * c.dataSize - rmppPad c r.curSegBuf)

/-- `complete_rmpp`. -/
def completeRmpp (c : Cfg) (r : Recv) (env : Env) : Recv × Out :=
  let a := ackRecv r env
  (a.1, ⟨some { a.1 with madLen := getMadLen c a.1 }, a.2, none⟩)

def Recv.setState (r : Recv) (state : RmppState) : Recv := { r with state := state }

def Recv.setNewwin (r : Recv) (newwin : ℤ) : Recv := { r with newwin := newwin }

/-- The window moves on. -/
def Recv.openWindow (c : Cfg) (r : Recv) : Recv := r.setNewwin (toInt (r.newwin + c.windowSize))

/-- The part of `continue_rmpp` after a segment was put behind `cur_seg_buf`. -/
def advance (c : Cfg) (r : Recv) (seg : Seg) (env : Env) : Recv × Out :=
  let r := updateSegNum r (fromElem seg r.rmppList)
  if r.curSegBuf.last then completeRmpp c (r.setState .complete) env
  else if r.segNum = r.newwin then
    let a := ackRecv (r.openWindow c) env
    (a.1, ⟨none, a.2, none⟩)
  else (r, .nothing)

/-- `continue_rmpp`. -/
def continueRmpp (c : Cfg) (r : Recv) (seg : Seg) (env : Env) : Recv × Out :=
  let segNum := getSegNum seg
  if r.state = .timeout ∨ segNum > r.newwin then (r, .nothing)
  else if segNum ≤ r.lastAck ∨ r.state = .complete then
    let a := ackRecv r env
    (a.1, ⟨none, a.2, none⟩)
  else match findSegLocation r.rmppList segNum with
    | none => (r, .nothing)
    | some prevBuf =>
      let r' := { r with rmppList := insertAfter prevBuf seg r.rmppList }
      if r.curSegBuf = prevBuf then advance c r' seg env else (r', .nothing)

/-- `start_rmpp`. -/
def startRmpp (c : Cfg) (recv : Option Recv) (seg : Seg) (env : Env) : Option Recv × Out :=
  if !env.createOk then (recv, .nothing)
  else match recv with
    -- duplicate first MAD
    | some r => (some (continueRmpp c r seg env).1, (continueRmpp c r seg env).2)
    | none =>
      let r := createRmppRecv seg
      if seg.last then
        let done := completeRmpp c (r.setState .complete) env
        (some done.1, done.2)
      else
        let a := ackRecv (r.openWindow c) env
        (some a.1, ⟨none, a.2, none⟩)

def IB_MGMT_RMPP_STATUS_BAD_SEG : ℕ := 120
def IB_MGMT_RMPP_STATUS_BAD_STATUS : ℕ := 124

/-- `process_rmpp_data`. -/
def processRmppData (c : Cfg) (recv : Option Recv) (seg : Seg) (env : Env) : Option Recv × Out :=
  if seg.rmppStatus ≠ 0 then (recv, ⟨none, none, some IB_MGMT_RMPP_STATUS_BAD_STATUS⟩)
  else if seg.segNum = 1 then
    if !seg.first then (recv, ⟨none, none, some IB_MGMT_RMPP_STATUS_BAD_SEG⟩)
    else startRmpp c recv seg env
  else
    if seg.first then (recv, ⟨none, none, some IB_MGMT_RMPP_STATUS_BAD_SEG⟩)
    else match recv with
      | none => (none, .nothing)
      | some r => (some (continueRmpp c r seg env).1, (continueRmpp c r seg env).2)

/-- `recv_timeout_handler`: the receive ends unless it is complete. -/
def recvTimeout (r : Recv) : Recv := if r.state = .active then r.setState .timeout else r

/-- The whole of `recv_timeout_handler`: what it ends is unlinked and destroyed. -/
def recvTimeoutHandler (recv : Option Recv) : Option Recv :=
  (recv.map recvTimeout).filter fun r => r.state ≠ .timeout

/-- `recv_cleanup_handler`: `complete_rmpp` queues it, so what it destroys is complete. -/
def recvCleanupHandler (recv : Option Recv) : Option Recv :=
  recv.filter fun r => r.state ≠ .complete

/-! ### The list and the counters -/

theorem toInt_lt (n : ℤ) : toInt n < 2 ^ 31 := by
  unfold toInt
  omega

theorem getSegNum_lt (seg : Seg) : getSegNum seg < 2 ^ 31 := toInt_lt _

theorem toInt_of_range {n : ℤ} (h₀ : -2 ^ 31 ≤ n) (h : n < 2 ^ 31) : toInt n = n := by
  unfold toInt
  omega

/-- What holds of a receive between two calls. -/
structure Inv (r : Recv) : Prop where
  incr : Increasing getSegNum r.rmppList
  curMem : r.curSegBuf ∈ r.rmppList
  curNum : getSegNum r.curSegBuf = r.segNum
  oneLe : ∀ x ∈ r.rmppList, 1 ≤ getSegNum x
  leNewwin : ∀ x ∈ r.rmppList, getSegNum x ≤ r.newwin
  filled : ∀ i, 1 ≤ i → i ≤ r.segNum → ∃ x ∈ r.rmppList, getSegNum x = i
  gap : ∀ x ∈ r.rmppList, getSegNum x ≠ r.segNum + 1
  ackNonneg : 0 ≤ r.lastAck
  ackLe : r.lastAck ≤ r.segNum
  newwinLt : r.newwin < 2 ^ 31

theorem Inv.one_le_seg_num {r : Recv} (inv : Inv r) : 1 ≤ r.segNum :=
  inv.curNum ▸ inv.oneLe _ inv.curMem

theorem Inv.seg_num_le {r : Recv} (inv : Inv r) : r.segNum ≤ r.newwin :=
  inv.curNum ▸ inv.leNewwin _ inv.curMem

/-- `update_seg_num` moves the two cursors only. -/
theorem updateSegNum_frame (r : Recv) (l : List Seg) :
    (updateSegNum r l).rmppList = r.rmppList ∧ (updateSegNum r l).newwin = r.newwin ∧
      (updateSegNum r l).lastAck = r.lastAck ∧ (updateSegNum r l).state = r.state := by
  induction l generalizing r with
  | nil => exact ⟨rfl, rfl, rfl, rfl⟩
  | cons x l ih =>
    unfold updateSegNum
    split_ifs
    · exact ih _
    · exact ⟨rfl, rfl, rfl, rfl⟩

/-- RUN: `update_seg_num` goes to the end of the gapless part of what follows `cur_seg_buf`. -/
theorem updateSegNum_spec {r : Recv} {l : List Seg} (hcur : getSegNum r.curSegBuf = r.segNum)
    (hpos : 0 ≤ r.segNum) (hincr : Increasing getSegNum (r.curSegBuf :: l)) :
    r.segNum ≤ (updateSegNum r l).segNum ∧
      ((updateSegNum r l).curSegBuf = r.curSegBuf ∨ (updateSegNum r l).curSegBuf ∈ l) ∧
      getSegNum (updateSegNum r l).curSegBuf = (updateSegNum r l).segNum ∧
      (∀ i, r.segNum < i → i ≤ (updateSegNum r l).segNum → ∃ x ∈ l, getSegNum x = i) ∧
      ∀ x ∈ l, getSegNum x ≠ (updateSegNum r l).segNum + 1 := by
  induction l generalizing r with
  | nil => exact ⟨le_rfl, .inl rfl, hcur, fun i h₁ h₂ => absurd h₂ (not_le.mpr h₁), by simp⟩
  | cons x l ih =>
    obtain ⟨hx, htail⟩ := pairwise_cons.mp hincr
    have hlt : r.segNum < getSegNum x := hcur ▸ hx x mem_cons_self
    have hx31 := getSegNum_lt x
    have hnext : toInt (r.segNum + 1) = r.segNum + 1 := toInt_of_range (by omega) (by omega)
    unfold updateSegNum
    rw [hnext]
    split_ifs with heq
    · obtain ⟨hle, hmem, hnum, hfill, hgap⟩ :=
        @ih { r with curSegBuf := x, segNum := r.segNum + 1 } heq (by simp only; omega) htail
      refine ⟨by simp only at hle; omega, .inr ?_, hnum, ?_, ?_⟩
      · rcases hmem with h | h
        · exact h ▸ mem_cons_self
        · exact List.mem_cons_of_mem _ h
      · intro i h₁ h₂
        rcases eq_or_lt_of_le (show r.segNum + 1 ≤ i by omega) with rfl | hi
        · exact ⟨x, mem_cons_self, heq⟩
        · obtain ⟨y, hy, hyi⟩ := hfill i hi h₂
          exact ⟨y, List.mem_cons_of_mem _ hy, hyi⟩
      · intro y hy
        rcases mem_cons.mp hy with rfl | hy
        · simp only at hle
          omega
        · exact hgap y hy
    · refine ⟨le_rfl, .inl rfl, hcur, fun i h₁ h₂ => absurd h₂ (not_le.mpr h₁), ?_⟩
      intro y hy
      rcases mem_cons.mp hy with rfl | hy
      · exact heq
      · have := (pairwise_cons.mp htail).1 y hy
        omega

section Step

variable {c : Cfg} {r : Recv} {seg : Seg} {env : Env}

/-- `continue_rmpp` has a place for the segment. -/
def Accepts (r : Recv) (seg : Seg) : Prop :=
  r.state = .active ∧ r.lastAck < getSegNum seg ∧ getSegNum seg ≤ r.newwin ∧
    ∀ x ∈ r.rmppList, getSegNum x ≠ getSegNum seg

/-- The segments that are there, and this one, fill the window. -/
def Fills (r : Recv) (seg : Seg) : Prop :=
  ∀ i, r.segNum < i → i ≤ r.newwin → i = getSegNum seg ∨ ∃ x ∈ r.rmppList, getSegNum x = i

/-- `r` with the segment put between `a ++ [p]` and `b`. -/
def Recv.put (r : Recv) (a : List Seg) (p seg : Seg) (b : List Seg) : Recv :=
  { r with rmppList := a ++ p :: seg :: b }

theorem ackRecv_cases (r : Recv) (env : Env) :
    (ackRecv r env).1 = r ∨ (ackRecv r env).1 = { r with lastAck := r.segNum } := by
  unfold ackRecv
  split_ifs
  · exact .inl rfl
  all_goals exact .inr rfl

theorem ackRecv_list (r : Recv) (env : Env) : (ackRecv r env).1.rmppList = r.rmppList := by
  rcases ackRecv_cases r env with h | h <;> rw [h]

theorem Inv.ack (inv : Inv r) : Inv (ackRecv r env).1 := by
  rcases ackRecv_cases r env with h | h
  · rwa [h]
  · rw [h]
    exact { inv with
      ackNonneg := by have := inv.one_le_seg_num; simp only; omega
      ackLe := le_rfl }

theorem Inv.setState (inv : Inv r) (state : RmppState) : Inv (r.setState state) := { inv with }

/-- A larger window. -/
theorem Inv.widen (inv : Inv r) {w : ℤ} (hle : r.newwin ≤ w) (hlt : w < 2 ^ 31) :
    Inv (r.setNewwin w) :=
  { inv with
    leNewwin := fun x hx => (inv.leNewwin x hx).trans hle
    newwinLt := hlt }

/-- Everything `continue_rmpp` can do: drop the segment, answer with an ACK, or put it into the
    list, behind `cur_seg_buf` or further on. -/
theorem continueRmpp_cases (c : Cfg) (inv : Inv r) (seg : Seg) (env : Env) :
    (((continueRmpp c r seg env).1 = r ∨
        (continueRmpp c r seg env).1 = { r with lastAck := r.segNum }) ∧
      (continueRmpp c r seg env).2.done = none) ∨
    Accepts r seg ∧ ∃ a p b, r.rmppList = a ++ p :: b ∧ getSegNum p < getSegNum seg ∧
      (∀ x ∈ b, getSegNum seg < getSegNum x) ∧
      (p ≠ r.curSegBuf ∧ continueRmpp c r seg env = (r.put a p seg b, .nothing) ∨
        p = r.curSegBuf ∧ continueRmpp c r seg env = advance c (r.put a p seg b) seg env) := by
  unfold continueRmpp
  by_cases hout : r.state = .timeout ∨ getSegNum seg > r.newwin
  · rw [if_pos hout]
    exact .inl ⟨.inl rfl, rfl⟩
  rw [if_neg hout]
  split_ifs with hold
  · exact .inl ⟨ackRecv_cases r env, rfl⟩
  push Not at hout hold
  have hactive : r.state = .active := by
    cases hs : r.state with
    | active => rfl
    | timeout => exact absurd hs hout.1
    | complete => exact absurd hs hold.2
  cases hfind : findSegLocation r.rmppList (getSegNum seg) with
  | none => exact .inl ⟨.inl rfl, rfl⟩
  | some p =>
    obtain ⟨a, b, hl, hp, hb⟩ := lastBelow_split hfind
    have hpa : p ∉ a := by
      have hnd := inv.incr.nodup
      rw [hl, List.nodup_append] at hnd
      exact fun h => hnd.2.2 p h p mem_cons_self rfl
    have hnew : ∀ x ∈ r.rmppList, getSegNum x ≠ getSegNum seg := by
      have hincr := inv.incr
      rw [hl] at hincr ⊢
      intro x hx
      rcases mem_append.mp hx with hx | hx
      · exact (((pairwise_append.mp hincr).2.2 x hx p mem_cons_self).trans hp).ne
      · rcases mem_cons.mp hx with rfl | hx
        · exact hp.ne
        · exact (hb x hx).ne'
    refine .inr ⟨⟨hactive, hold.1, hout.2, hnew⟩, a, p, b, hl, hp, hb, ?_⟩
    simp only
    rw [hl, insertAfter_split hpa]
    split_ifs with hcur
    · exact .inr ⟨hcur.symm, rfl⟩
    · exact .inl ⟨Ne.symm hcur, rfl⟩

/-- STEP: a segment that is put in, the cursors where they are. -/
theorem Inv.put (inv : Inv r) {a b : List Seg} {p : Seg} (hacc : Accepts r seg)
    (hl : r.rmppList = a ++ p :: b) (hp : getSegNum p < getSegNum seg)
    (hb : ∀ x ∈ b, getSegNum seg < getSegNum x) (hgap : getSegNum seg ≠ r.segNum + 1) :
    Inv (r.put a p seg b) := by
  have hmem : ∀ x, x ∈ (r.put a p seg b).rmppList ↔ x = seg ∨ x ∈ r.rmppList := by
    intro x
    rw [hl]
    exact mem_splice
  have hincr := inv.incr
  rw [hl] at hincr
  have hone : 1 ≤ getSegNum p := inv.oneLe p (by simp [hl])
  constructor
  · exact hincr.insert hp hb
  · exact (hmem _).mpr (.inr inv.curMem)
  · exact inv.curNum
  · intro x hx
    rcases (hmem x).mp hx with rfl | hx
    · omega
    · exact inv.oneLe x hx
  · intro x hx
    rcases (hmem x).mp hx with rfl | hx
    · exact hacc.2.2.1
    · exact inv.leNewwin x hx
  · intro i h₁ h₂
    obtain ⟨x, hx, hxi⟩ := inv.filled i h₁ h₂
    exact ⟨x, (hmem x).mpr (.inr hx), hxi⟩
  · intro x hx
    rcases (hmem x).mp hx with rfl | hx
    · exact hgap
    · exact inv.gap x hx
  · exact inv.ackNonneg
  · exact inv.ackLe
  · exact inv.newwinLt

/-- A segment that is not put behind `cur_seg_buf` is not the next one. -/
theorem Inv.ne_next (inv : Inv r) {a b : List Seg} {p : Seg} (hl : r.rmppList = a ++ p :: b)
    (hp : getSegNum p < getSegNum seg) (hb : ∀ x ∈ b, getSegNum seg < getSegNum x)
    (hne : p ≠ r.curSegBuf) : getSegNum seg ≠ r.segNum + 1 := by
  intro hnext
  have hcur := inv.curNum
  have hmem := inv.curMem
  rw [hl, mem_append, mem_cons] at hmem
  rcases hmem with ha | rfl | hb'
  · have hincr := inv.incr
    rw [hl] at hincr
    have := (pairwise_append.mp hincr).2.2 _ ha p mem_cons_self
    omega
  · exact hne rfl
  · have := hb _ hb'
    omega

/-- STEP: a segment put behind `cur_seg_buf`, and `update_seg_num`. -/
theorem Inv.update (inv : Inv r) {a b : List Seg} (hacc : Accepts r seg)
    (hl : r.rmppList = a ++ r.curSegBuf :: b) (hp : r.segNum < getSegNum seg)
    (hb : ∀ x ∈ b, getSegNum seg < getSegNum x) :
    Inv (updateSegNum (r.put a r.curSegBuf seg b) (seg :: b)) ∧
      r.segNum ≤ (updateSegNum (r.put a r.curSegBuf seg b) (seg :: b)).segNum ∧
      ∀ i, r.segNum < i → i ≤ (updateSegNum (r.put a r.curSegBuf seg b) (seg :: b)).segNum →
        i = getSegNum seg ∨ ∃ x ∈ r.rmppList, getSegNum x = i := by
  have hcur := inv.curNum
  have hincr := inv.incr
  rw [hl] at hincr
  have hins : Increasing getSegNum (a ++ r.curSegBuf :: seg :: b) :=
    hincr.insert (by omega) hb
  have hone := inv.one_le_seg_num
  obtain ⟨hle, hmem, hnum, hfill, hgap⟩ :=
    @updateSegNum_spec (r.put a r.curSegBuf seg b) (seg :: b) hcur (by
      change 0 ≤ r.segNum
      omega) (pairwise_append.mp hins).2.1
  obtain ⟨hlist, hwin, hack, -⟩ := updateSegNum_frame (r.put a r.curSegBuf seg b) (seg :: b)
  generalize updateSegNum (r.put a r.curSegBuf seg b) (seg :: b) = u at *
  replace hlist : u.rmppList = a ++ r.curSegBuf :: seg :: b := hlist
  replace hle : r.segNum ≤ u.segNum := hle
  have hold : ∀ x ∈ u.rmppList, x = seg ∨ x ∈ r.rmppList := by
    intro x hx
    rw [hlist] at hx
    rw [hl]
    exact mem_splice.mp hx
  have hrest : ∀ x ∈ seg :: b, x ∈ u.rmppList := by
    intro x hx
    rw [hlist]
    exact List.mem_append_right _ (List.mem_cons_of_mem _ hx)
  refine ⟨?_, hle, ?_⟩
  · constructor
    · exact hlist ▸ hins
    · rcases hmem with h | h
      · rw [h, hlist]
        exact List.mem_append_right _ mem_cons_self
      · exact hrest _ h
    · exact hnum
    · intro x hx
      rcases hold x hx with rfl | hx
      · omega
      · exact inv.oneLe x hx
    · intro x hx
      rw [hwin]
      rcases hold x hx with rfl | hx
      · exact hacc.2.2.1
      · exact inv.leNewwin x hx
    · intro i h₁ h₂
      rcases le_or_gt i r.segNum with hi | hi
      · obtain ⟨x, hx, hxi⟩ := inv.filled i h₁ hi
        rw [hl] at hx
        exact ⟨x, hlist ▸ mem_splice.mpr (.inr hx), hxi⟩
      · obtain ⟨x, hx, hxi⟩ := hfill i hi h₂
        exact ⟨x, hrest x hx, hxi⟩
    · intro x hx
      rw [hlist] at hx
      rcases mem_append.mp hx with ha | htail
      · have := (pairwise_append.mp hincr).2.2 x ha _ mem_cons_self
        omega
      · rcases mem_cons.mp htail with rfl | htail
        · omega
        · exact hgap x htail
    · exact hack ▸ inv.ackNonneg
    · rw [hack]
      exact inv.ackLe.trans hle
    · exact hwin ▸ inv.newwinLt
  · intro i h₁ h₂
    obtain ⟨x, hx, hxi⟩ := hfill i h₁ h₂
    rcases mem_cons.mp hx with rfl | hx
    · exact .inl hxi.symm
    · exact .inr ⟨x, by simp [hl, hx], hxi⟩

/-- `advance` on a segment put behind `cur_seg_buf`: the segments from it on are those after it. -/
theorem fromElem_put (inv : Inv r) {a b : List Seg} (hl : r.rmppList = a ++ r.curSegBuf :: b)
    (hp : r.segNum < getSegNum seg) (hb : ∀ x ∈ b, getSegNum seg < getSegNum x) :
    fromElem seg (r.put a r.curSegBuf seg b).rmppList = seg :: b := by
  have hincr := inv.incr
  have hcur := inv.curNum
  rw [hl] at hincr
  have hnd := (hincr.insert (by omega) hb).nodup
  have hsplit : a ++ r.curSegBuf :: seg :: b = (a ++ [r.curSegBuf]) ++ seg :: b := by simp
  change fromElem seg (a ++ r.curSegBuf :: seg :: b) = _
  rw [hsplit] at hnd ⊢
  rw [List.nodup_append] at hnd
  exact fromElem_split fun h => hnd.2.2 seg h seg mem_cons_self rfl

/-- The three ends of `advance`. -/
theorem advance_cases (c : Cfg) (seg : Seg) (env : Env) {u : Recv}
    (hu : updateSegNum r (fromElem seg r.rmppList) = u) :
    u.curSegBuf.last = true ∧ advance c r seg env = completeRmpp c (u.setState .complete) env ∨
      u.curSegBuf.last = false ∧ u.segNum = u.newwin ∧ advance c r seg env =
          ((ackRecv (u.openWindow c) env).1, ⟨none, (ackRecv (u.openWindow c) env).2, none⟩) ∨
      u.curSegBuf.last = false ∧ advance c r seg env = (u, .nothing) := by
  unfold advance
  simp only [hu]
  cases hlast : u.curSegBuf.last with
  | true => exact .inl ⟨rfl, rfl⟩
  | false =>
    by_cases hfull : u.segNum = u.newwin
    · exact .inr (.inl ⟨rfl, hfull, by rw [if_neg (by simp), if_pos hfull]⟩)
    · exact .inr (.inr ⟨rfl, by rw [if_neg (by simp), if_neg hfull]⟩)

/-- STEP: `continue_rmpp` keeps the invariant unless the window passes `INT_MAX`. -/
theorem Inv.continueRmpp (inv : Inv r)
    (hwin : Accepts r seg → Fills r seg → r.newwin + c.windowSize < 2 ^ 31) :
    Inv (continueRmpp c r seg env).1 := by
  rcases continueRmpp_cases c inv seg env with ⟨h, -⟩ | ⟨hacc, a, p, b, hl, hp, hb, h⟩
  · rcases h with h | h
    · rwa [h]
    · rw [h]
      exact { inv with
        ackNonneg := by have := inv.one_le_seg_num; simp only; omega
        ackLe := le_rfl }
  · rcases h with ⟨hne, h⟩ | ⟨rfl, h⟩
    · rw [h]
      exact inv.put hacc hl hp hb (inv.ne_next hl hp hb hne)
    · rw [inv.curNum] at hp
      obtain ⟨hinv, hle, hfill⟩ := inv.update hacc hl hp hb
      have hnw := (updateSegNum_frame (r.put a r.curSegBuf seg b) (seg :: b)).2.1
      have hadv := advance_cases (r := r.put a r.curSegBuf seg b) c seg env
        (congrArg _ (fromElem_put inv hl hp hb))
      generalize updateSegNum (r.put a r.curSegBuf seg b) (seg :: b) = u at *
      rw [h]
      rcases hadv with ⟨-, h⟩ | ⟨-, hfull, h⟩ | ⟨-, h⟩
      · rw [h]
        exact (hinv.setState .complete).ack
      · replace hnw : u.newwin = r.newwin := hnw
        have hlt := hwin hacc fun i h₁ h₂ => hfill i h₁ (by omega)
        have hpos := inv.one_le_seg_num.trans inv.seg_num_le
        rw [h]
        refine (hinv.widen ?_ (toInt_lt _)).ack
        rw [toInt_of_range (by omega) (by omega)]
        omega
      · rw [h]
        exact hinv

/-! ### The last segment -/

/-- A segment that may be accepted: none is there beyond a LAST one, neither number leaves `int`. -/
structure Fair (c : Cfg) (r : Recv) (seg : Seg) : Prop where
  lastTop : seg.last = true → ∀ x ∈ r.rmppList, getSegNum x < getSegNum seg
  belowLast : ∀ x ∈ r.rmppList, x.last = true → getSegNum seg < getSegNum x
  fits : seg.last = true → c.hdrSize + getSegNum seg * c.dataSize < 2 ^ 31
  window : Fills r seg → r.newwin + c.windowSize < 2 ^ 31

/-- Nothing lies beyond a LAST segment, and its number fits. -/
structure Topped (c : Cfg) (l : List Seg) : Prop where
  top : ∀ x ∈ l, x.last = true → ∀ y ∈ l, getSegNum y ≤ getSegNum x
  fits : ∀ x ∈ l, x.last = true → c.hdrSize + getSegNum x * c.dataSize < 2 ^ 31

/-- A LAST segment ends the list, and an active receive has not come to one. -/
structure LastInv (c : Cfg) (r : Recv) : Prop where
  topped : Topped c r.rmppList
  before : r.state = .active → r.curSegBuf.last = false

/-- The numbers `1, …, k`. -/
def numbered (k : ℤ) : List ℤ := (List.range k.toNat).map fun (i : ℕ) => (i : ℤ) + 1

theorem mem_numbered {k i : ℤ} : i ∈ numbered k ↔ 1 ≤ i ∧ i ≤ k := by
  simp only [numbered, mem_map, List.mem_range]
  constructor
  · rintro ⟨j, hj, rfl⟩
    omega
  · rintro ⟨h₁, h₂⟩
    exact ⟨(i - 1).toNat, by omega, by omega⟩

theorem numbered_increasing (k : ℤ) : (numbered k).Pairwise (· < ·) := by
  unfold numbered
  rw [List.pairwise_map]
  exact List.pairwise_lt_range.imp fun h => by omega

/-- Increasing numbers that are those from 1 to `k`. -/
theorem eq_numbered {l : List Seg} {k : ℤ} (hincr : Increasing getSegNum l)
    (hmem : ∀ i, (∃ x ∈ l, getSegNum x = i) ↔ 1 ≤ i ∧ i ≤ k) :
    l.map getSegNum = numbered k := by
  refine (List.pairwise_map.mpr hincr).eq_of_mem_iff (numbered_increasing k) fun i => ?_
  rw [mem_map, mem_numbered]
  exact hmem i

/-- What the client may rely on. -/
structure DoneOk (c : Cfg) (d : Done) : Prop where
  list : d.rmppList.map getSegNum = numbered d.segNum
  last : ∀ x ∈ d.rmppList, x.last = true ↔ getSegNum x = d.segNum
  lenGe : c.hdrSize ≤ d.madLen
  lenLe : d.madLen ≤ c.hdrSize + d.segNum * c.dataSize

theorem rmppPad_bounds (c : Cfg) (seg : Seg) : 0 ≤ rmppPad c seg ∧ rmppPad c seg ≤ c.rmppData := by
  unfold rmppPad
  simp only
  split_ifs <;> omega

theorem hdrSize_le (c : Cfg) : c.hdrSize ≤ 64 := by
  unfold Cfg.hdrSize ibGetMadDataOffset
  split_ifs <;> omega

/-- Two segments have room for any padding. -/
theorem rmppData_le (c : Cfg) : c.rmppData ≤ 2 * c.dataSize := by
  have := hdrSize_le c
  unfold Cfg.rmppData Cfg.dataSize Cfg.madSize
  split_ifs <;> omega

theorem getMadLen_bounds (hpad : rmppPad c r.curSegBuf ≤ r.segNum * c.dataSize)
    (hfits : c.hdrSize + r.segNum * c.dataSize < 2 ^ 31) :
    c.hdrSize ≤ getMadLen c r ∧ getMadLen c r ≤ c.hdrSize + r.segNum * c.dataSize := by
  have hp := rmppPad_bounds c r.curSegBuf
  have hlen : getMadLen c r = c.hdrSize + r.segNum * c.dataSize - rmppPad c r.curSegBuf :=
    toInt_of_range (by omega) (by omega)
  constructor <;> omega

theorem getMadLen_ackRecv : getMadLen c (ackRecv r env).1 = getMadLen c r := by
  rcases ackRecv_cases r env with h | h
  · rw [h]
  · rw [h]
    rfl

/-- STEP: a LAST segment at the end of the gapless part completes the message. -/
theorem Topped.done (ht : Topped c r.rmppList) (inv : Inv r) (hlast : r.curSegBuf.last = true)
    (hpad : rmppPad c r.curSegBuf ≤ r.segNum * c.dataSize) :
    DoneOk c ⟨r.rmppList, r.segNum, getMadLen c r⟩ := by
  have htop : ∀ y ∈ r.rmppList, getSegNum y ≤ r.segNum := by
    intro y hy
    rw [← inv.curNum]
    exact ht.top _ inv.curMem hlast y hy
  have hfits := ht.fits _ inv.curMem hlast
  rw [inv.curNum] at hfits
  obtain ⟨hge, hle⟩ := getMadLen_bounds hpad hfits
  refine ⟨eq_numbered inv.incr fun i => ?_, fun x hx => ⟨fun hx' => ?_, fun hx' => ?_⟩, hge, hle⟩
  · constructor
    · rintro ⟨x, hx, rfl⟩
      exact ⟨inv.oneLe x hx, htop x hx⟩
    · rintro ⟨h₁, h₂⟩
      exact inv.filled i h₁ h₂
  · have h₁ := ht.top x hx hx' _ inv.curMem
    rw [inv.curNum] at h₁
    exact le_antisymm (htop x hx) h₁
  · rw [inv.incr.inj hx inv.curMem (hx'.trans inv.curNum.symm)]
    exact hlast

theorem ackRecv_fields (r : Recv) (env : Env) :
    (ackRecv r env).1.rmppList = r.rmppList ∧ (ackRecv r env).1.segNum = r.segNum ∧
      (ackRecv r env).1.state = r.state ∧ (ackRecv r env).1.curSegBuf = r.curSegBuf := by
  rcases ackRecv_cases r env with h | h
  · rw [h]
    exact ⟨rfl, rfl, rfl, rfl⟩
  · rw [h]
    exact ⟨rfl, rfl, rfl, rfl⟩

theorem LastInv.ack (li : LastInv c r) : LastInv c (ackRecv r env).1 := by
  obtain ⟨hl, -, hs, hb⟩ := ackRecv_fields r env
  exact ⟨hl.symm ▸ li.topped, fun h => by rw [hb]; exact li.before (hs ▸ h)⟩

theorem setNewwin_state (w : ℤ) : (r.setNewwin w).state = r.state := rfl

theorem LastInv.setNewwin (li : LastInv c r) (w : ℤ) : LastInv c (r.setNewwin w) :=
  ⟨li.topped, li.before⟩

/-- STEP: a receive that has come to a LAST segment is completed. -/
theorem Topped.complete (ht : Topped c r.rmppList) (inv : Inv r)
    (hlast : r.curSegBuf.last = true) (hpad : rmppPad c r.curSegBuf ≤ r.segNum * c.dataSize) :
    LastInv c (completeRmpp c (r.setState .complete) env).1 ∧
      ∀ d, (completeRmpp c (r.setState .complete) env).2.done = some d → DoneOk c d ∧
        (completeRmpp c (r.setState .complete) env).1.state = .complete := by
  have hli : LastInv c (r.setState .complete) := ⟨ht, fun h => by cases h⟩
  obtain ⟨hl, hn, hs, -⟩ := ackRecv_fields (r.setState .complete) env
  refine ⟨hli.ack, fun d hd => ?_⟩
  unfold completeRmpp at hd ⊢
  simp only [hl, hn, getMadLen_ackRecv, Option.some.injEq] at hd
  rw [← hd]
  exact ⟨Topped.done ht (inv.setState .complete) hlast hpad, hs⟩

/-- A list with a fair segment put in. -/
theorem Topped.put (ht : Topped c r.rmppList) (fair : Fair c r seg) {l : List Seg}
    (hmem : ∀ x ∈ l, x = seg ∨ x ∈ r.rmppList) : Topped c l := by
  refine ⟨fun x hx hxl y hy => ?_, fun x hx hxl => ?_⟩
  · rcases hmem x hx with rfl | hx
    · rcases hmem y hy with rfl | hy
      · exact le_rfl
      · exact (fair.lastTop hxl y hy).le
    · rcases hmem y hy with rfl | hy
      · exact (fair.belowLast x hx hxl).le
      · exact ht.top x hx hxl y hy
  · rcases hmem x hx with rfl | hx
    · exact fair.fits hxl
    · exact ht.fits x hx hxl

/-- STEP: `continue_rmpp` on a fair segment keeps the order of LAST segments, and what it returns is a
    whole message; it returns one at most, when the receive goes from active to complete. -/
theorem LastInv.continueRmpp (inv : Inv r) (li : LastInv c r)
    (hfair : Accepts r seg → Fair c r seg) :
    LastInv c (continueRmpp c r seg env).1 ∧
      ∀ d, (continueRmpp c r seg env).2.done = some d → DoneOk c d ∧ r.state = .active ∧
        (continueRmpp c r seg env).1.state = .complete := by
  rcases continueRmpp_cases c inv seg env with ⟨h, hd⟩ | ⟨hacc, a, p, b, hl, hp, hb, h⟩
  · refine ⟨?_, fun d h => by rw [hd] at h; cases h⟩
    rcases h with h | h
    · rwa [h]
    · rw [h]
      exact ⟨li.topped, li.before⟩
  have fair := hfair hacc
  have hmem : ∀ x ∈ a ++ p :: seg :: b, x = seg ∨ x ∈ r.rmppList := by
    intro x hx
    rw [hl]
    exact mem_splice.mp hx
  have ht := li.topped.put fair hmem
  rcases h with ⟨hne, h⟩ | ⟨rfl, h⟩
  · rw [h]
    exact ⟨⟨ht, li.before⟩, fun d h => by cases h⟩
  · rw [inv.curNum] at hp
    obtain ⟨hinv, hle, -⟩ := inv.update hacc hl hp hb
    obtain ⟨hlist, -, -, -⟩ := updateSegNum_frame (r.put a r.curSegBuf seg b) (seg :: b)
    have hadv := advance_cases (r := r.put a r.curSegBuf seg b) c seg env
      (congrArg _ (fromElem_put inv hl hp hb))
    generalize updateSegNum (r.put a r.curSegBuf seg b) (seg :: b) = u at *
    replace hlist : u.rmppList = a ++ r.curSegBuf :: seg :: b := hlist
    rw [← hlist] at ht
    rw [h]
    rcases hadv with ⟨hlast, h⟩ | ⟨hlast, -, h⟩ | ⟨hlast, h⟩
    · -- the cursor has moved: before, it was not at a LAST segment
      have hmoved : r.segNum < u.segNum := by
        refine lt_of_le_of_ne hle fun heq => ?_
        have hin : r.curSegBuf ∈ u.rmppList := by
          rw [hlist]
          exact List.mem_append_right _ mem_cons_self
        have hsame := hinv.incr.inj hinv.curMem hin
          (hinv.curNum.trans (heq.symm.trans inv.curNum.symm))
        rw [hsame, li.before hacc.1] at hlast
        cases hlast
      have hpad : rmppPad c u.curSegBuf ≤ u.segNum * c.dataSize := by
        have h₁ := (rmppPad_bounds c u.curSegBuf).2
        have h₂ : (c.rmppData : ℤ) ≤ 2 * c.dataSize := by exact_mod_cast rmppData_le c
        have h₃ : (2 : ℤ) * c.dataSize ≤ u.segNum * c.dataSize :=
          mul_le_mul_of_nonneg_right (by have := inv.one_le_seg_num; omega) (by omega)
        omega
      obtain ⟨hli, hdone⟩ := @Topped.complete c u env ht hinv hlast hpad
      rw [h]
      exact ⟨hli, fun d hd => ⟨(hdone d hd).1, hacc.1, (hdone d hd).2⟩⟩
    · have hli : LastInv c u := ⟨ht, fun _ => hlast⟩
      rw [h]
      exact ⟨(hli.setNewwin _).ack, fun d hd => by cases hd⟩
    · rw [h]
      exact ⟨⟨ht, fun _ => hlast⟩, fun d hd => by cases hd⟩

/-- A receive that returns nothing stays in its state. -/
theorem continueRmpp_state (inv : Inv r) (h : (continueRmpp c r seg env).2.done = none) :
    (continueRmpp c r seg env).1.state = r.state := by
  rcases continueRmpp_cases c inv seg env with ⟨hr, -⟩ | ⟨-, a, p, b, hl, hp, hb, hr⟩
  · rcases hr with hr | hr
    · rw [hr]
    · rw [hr]
  · rcases hr with ⟨-, hr⟩ | ⟨rfl, hr⟩
    · rw [hr]
      rfl
    · rw [inv.curNum] at hp
      obtain ⟨-, -, -, hstate⟩ := updateSegNum_frame (r.put a r.curSegBuf seg b) (seg :: b)
      have hadv := advance_cases (r := r.put a r.curSegBuf seg b) c seg env
        (congrArg _ (fromElem_put inv hl hp hb))
      rw [hr] at h ⊢
      rcases hadv with ⟨-, hadv⟩ | ⟨-, -, hadv⟩ | ⟨-, hadv⟩
      · rw [hadv] at h
        cases h
      · rw [hadv]
        exact ((ackRecv_fields _ env).2.2.1.trans (setNewwin_state _)).trans hstate
      · rw [hadv]
        exact hstate

/-- The beginning of the list up to `seg_num`. -/
theorem Inv.exists_prefix (inv : Inv r) :
    ∃ pre suf, r.rmppList = pre ++ suf ∧ pre.map getSegNum = numbered r.segNum := by
  refine ⟨r.rmppList.takeWhile fun x => getSegNum x ≤ r.segNum,
    r.rmppList.dropWhile fun x => getSegNum x ≤ r.segNum,
    List.takeWhile_append_dropWhile.symm, ?_⟩
  have hsplit := List.takeWhile_append_dropWhile (l := r.rmppList)
    (p := fun x => decide (getSegNum x ≤ r.segNum))
  have hincr := inv.incr
  rw [← hsplit] at hincr
  refine eq_numbered (pairwise_append.mp hincr).1 fun i => ⟨?_, ?_⟩
  · rintro ⟨x, hx, rfl⟩
    exact ⟨inv.oneLe x (List.takeWhile_subset _ hx), by simpa using List.mem_takeWhile_imp hx⟩
  · rintro ⟨h₁, h₂⟩
    obtain ⟨x, hx, rfl⟩ := inv.filled i h₁ h₂
    refine ⟨x, ?_, rfl⟩
    rw [← hsplit] at hx
    rcases mem_append.mp hx with hx | hx
    · exact hx
    · -- what follows is beyond `seg_num`
      cases hd : r.rmppList.dropWhile fun x => decide (getSegNum x ≤ r.segNum) with
      | nil =>
        rw [hd] at hx
        cases hx
      | cons y l =>
        have hy : ¬ getSegNum y ≤ r.segNum := by
          have := List.head_dropWhile_not (fun x => decide (getSegNum x ≤ r.segNum))
            (l := r.rmppList) (by rw [hd]; simp)
          simpa [hd] using this
        rw [hd] at hx hincr
        rcases mem_cons.mp hx with rfl | hx
        · exact absurd h₂ hy
        · have := (pairwise_cons.mp (pairwise_append.mp hincr).2.1).1 x hx
          omega

/-- A new receive. -/
theorem Inv.create (hseg : getSegNum seg = 1) : Inv (createRmppRecv seg) := by
  constructor
  · exact List.pairwise_singleton _ _
  · exact List.mem_singleton_self _
  · exact hseg
  · intro x hx
    rw [mem_singleton.mp hx, hseg]
  · intro x hx
    rw [mem_singleton.mp hx, hseg]
    rfl
  · intro i h₁ h₂
    exact ⟨seg, List.mem_singleton_self _, hseg.trans (le_antisymm h₁ h₂)⟩
  · intro x hx
    rw [mem_singleton.mp hx, hseg]
    simp [createRmppRecv]
  · exact le_rfl
  · exact Int.one_nonneg
  · norm_num [createRmppRecv]

theorem windowSize_bounds (c : Cfg) : 1 ≤ c.windowSize ∧ c.windowSize ≤ 2 ^ 28 := by
  have := c.maxActiveLt
  unfold Cfg.windowSize
  omega

theorem Topped.create (hseg : getSegNum seg = 1) : Topped c [seg] := by
  refine ⟨fun x hx _ y hy => ?_, fun x hx _ => ?_⟩
  · rw [mem_singleton.mp hx, mem_singleton.mp hy]
  · have hd : c.dataSize ≤ 2048 := by
      unfold Cfg.dataSize Cfg.madSize
      split_ifs <;> omega
    have hh := hdrSize_le c
    rw [mem_singleton.mp hx, hseg]
    omega

end Step

/-! ### Runs -/

/-- The receive of one transaction and the messages the client has been given. -/
structure World where
  recv : Option Recv
  done : List Done

/-- A DATA MAD comes in, the receive times out, or a complete one is cleaned up. -/
inductive Act where
  | data (seg : Seg) (env : Env)
  | timeout
  | cleanup

def step (c : Cfg) (w : World) : Act → World
  | .data seg env =>
    let p := processRmppData c w.recv seg env
    { recv := p.1, done := w.done ++ p.2.done.toList }
  | .timeout => { w with recv := recvTimeoutHandler w.recv }
  | .cleanup => { w with recv := recvCleanupHandler w.recv }

/-- `process_rmpp_data` takes the segment. -/
def Seg.Taken (seg : Seg) : Prop := seg.rmppStatus = 0 ∧ (seg.segNum = 1 ↔ seg.first = true)

/-- The steps in which the receiver keeps its promise: no segment begins a receive once the message
    has been returned, a single one is not more padding than data, and a later one is fair. -/
def ok (c : Cfg) (w : World) : Act → Prop
  | .data seg _ => seg.Taken → match w.recv with
    | none => seg.segNum = 1 → w.done = [] ∧ (seg.last = true → rmppPad c seg ≤ c.dataSize)
    | some r => Accepts r seg → Fair c r seg
  | .timeout => True
  | .cleanup => True

/-- What holds between two calls. -/
structure WorldInv (c : Cfg) (w : World) : Prop where
  recv : ∀ r, w.recv = some r → Inv r ∧ LastInv c r
  done : ∀ d ∈ w.done, DoneOk c d
  once : w.done = [] ∨ w.done.length = 1 ∧ ∀ r, w.recv = some r → r.state = .complete

/-- What `process_rmpp_data` does with a segment: nothing that is kept, `continue_rmpp`, or the
    beginning of a receive, which may be its end. -/
theorem processRmppData_cases (c : Cfg) (recv : Option Recv) (seg : Seg) (env : Env) :
    ((processRmppData c recv seg env).1 = recv ∧ (processRmppData c recv seg env).2.done = none ∧
      (processRmppData c recv seg env).2.ack = none) ∨ seg.Taken ∧
      ((∃ r, recv = some r ∧ processRmppData c recv seg env =
          (some (continueRmpp c r seg env).1, (continueRmpp c r seg env).2)) ∨
        recv = none ∧ seg.segNum = 1 ∧ seg.last = true ∧ processRmppData c recv seg env =
          (some (completeRmpp c ((createRmppRecv seg).setState .complete) env).1,
            (completeRmpp c ((createRmppRecv seg).setState .complete) env).2) ∨
        recv = none ∧ seg.segNum = 1 ∧ seg.last = false ∧ processRmppData c recv seg env =
          (some (ackRecv ((createRmppRecv seg).openWindow c) env).1,
            ⟨none, (ackRecv ((createRmppRecv seg).openWindow c) env).2, none⟩)) := by
  unfold processRmppData
  by_cases hst : seg.rmppStatus ≠ 0
  · rw [if_pos hst]
    exact .inl ⟨rfl, rfl, rfl⟩
  rw [if_neg hst]
  push Not at hst
  by_cases hone : seg.segNum = 1
  · rw [if_pos hone]
    cases hf : seg.first with
    | false => exact .inl ⟨rfl, rfl, rfl⟩
    | true =>
      rw [if_neg (by simp)]
      unfold startRmpp
      by_cases hmem : env.createOk
      · rw [if_neg (by simp [hmem])]
        refine .inr ⟨⟨hst, by simp [hone, hf]⟩, ?_⟩
        cases recv with
        | some r => exact .inl ⟨r, rfl, rfl⟩
        | none =>
          cases hl : seg.last with
          | true => exact .inr (.inl ⟨rfl, hone, rfl, by simp⟩)
          | false => exact .inr (.inr ⟨rfl, hone, rfl, by simp⟩)
      · rw [if_pos (by simp [hmem])]
        exact .inl ⟨rfl, rfl, rfl⟩
  · rw [if_neg hone]
    cases hf : seg.first with
    | true => exact .inl ⟨rfl, rfl, rfl⟩
    | false =>
      cases recv with
      | none => exact .inl ⟨rfl, rfl, rfl⟩
      | some r => exact .inr ⟨⟨hst, by simp [hone, hf]⟩, .inl ⟨r, rfl, rfl⟩⟩

theorem WorldInv.data {c : Cfg} {w : World} (inv : WorldInv c w) {seg : Seg} {env : Env}
    (hok : ok c w (.data seg env)) : WorldInv c (step c w (.data seg env)) := by
  unfold step
  simp only
  rcases processRmppData_cases c w.recv seg env with ⟨h₁, h₂, -⟩ | ⟨htaken, h⟩
  · rw [h₁, h₂, Option.toList_none, List.append_nil]
    exact { inv with }
  replace hok := hok htaken
  rcases h with ⟨r, hr, h⟩ | ⟨hr, hone, hl, h⟩ | ⟨hr, hone, hl, h⟩
  · obtain ⟨hinv, hli⟩ := inv.recv r hr
    rw [hr] at hok
    have hinv' : Inv (continueRmpp c r seg env).1 :=
      hinv.continueRmpp fun hacc hf => (hok hacc).window hf
    obtain ⟨hli', hdone⟩ := @LastInv.continueRmpp c r seg env hinv hli hok
    rw [h]
    cases hd : (continueRmpp c r seg env).2.done with
    | none =>
      have hstate := continueRmpp_state hinv hd
      simp only [Option.toList_none, List.append_nil]
      refine ⟨fun r' hr' => ?_, inv.done, inv.once.imp_right fun ⟨h₁, h₂⟩ => ⟨h₁, ?_⟩⟩
      · cases hr'
        exact ⟨hinv', hli'⟩
      · intro r' hr'
        cases hr'
        exact hstate.trans (h₂ r hr)
    | some d =>
      obtain ⟨hok', hactive, hcomplete⟩ := hdone d hd
      have hnil : w.done = [] := by
        refine inv.once.resolve_right fun ⟨_, h₂⟩ => ?_
        rw [h₂ r hr] at hactive
        cases hactive
      simp only [hnil]
      refine ⟨fun r' hr' => ?_, fun d' hd' => ?_, .inr ⟨rfl, fun r' hr' => ?_⟩⟩
      · cases hr'
        exact ⟨hinv', hli'⟩
      · rw [mem_singleton.mp hd']
        exact hok'
      · cases hr'
        exact hcomplete
  · have hseg : getSegNum seg = 1 := by
      unfold getSegNum
      rw [hone]
      rfl
    have hinv := Inv.create hseg
    rw [hr] at hok
    have hpad : rmppPad c (createRmppRecv seg).curSegBuf ≤
        (createRmppRecv seg).segNum * c.dataSize := by
      have := (hok hone).2 hl
      simpa [createRmppRecv] using this
    obtain ⟨hli, hdone⟩ := @Topped.complete c (createRmppRecv seg) env (Topped.create hseg) hinv
      hl hpad
    rw [h, (hok hone).1]
    refine ⟨fun r' hr' => ?_, fun d hd => ?_, .inr ⟨rfl, fun r' hr' => ?_⟩⟩
    · cases hr'
      exact ⟨(hinv.setState .complete).ack, hli⟩
    · exact (hdone d (by simpa [eq_comm] using hd)).1
    · cases hr'
      exact (hdone _ rfl).2
  · have hseg : getSegNum seg = 1 := by
      unfold getSegNum
      rw [hone]
      rfl
    have hw := windowSize_bounds c
    have hinv : Inv ((createRmppRecv seg).openWindow c) := by
      refine (Inv.create hseg).widen ?_ (toInt_lt _)
      change (1 : ℤ) ≤ toInt (1 + c.windowSize)
      rw [toInt_of_range (by omega) (by omega)]
      omega
    have hli : LastInv c (createRmppRecv seg) := ⟨Topped.create hseg, fun _ => hl⟩
    rw [hr] at hok
    rw [h, (hok hone).1]
    refine ⟨fun r' hr' => ?_, (by simp), .inl rfl⟩
    cases hr'
    exact ⟨hinv.ack, (hli.setNewwin _).ack⟩

/-- A handler destroys the receive or leaves it as it is. -/
theorem recvTimeoutHandler_cases (recv : Option Recv) :
    recvTimeoutHandler recv = none ∨ recvTimeoutHandler recv = recv := by
  cases recv with
  | none => exact .inl rfl
  | some r =>
    simp only [recvTimeoutHandler, recvTimeout, Option.map_some]
    split_ifs
    · exact .inl rfl
    · by_cases h : r.state = .timeout
      · exact .inl (by simp [Option.filter, h])
      · exact .inr (by simp [Option.filter, h])

theorem recvCleanupHandler_cases (recv : Option Recv) :
    recvCleanupHandler recv = none ∨ recvCleanupHandler recv = recv := by
  cases recv with
  | none => exact .inl rfl
  | some r =>
    by_cases h : r.state = .complete
    · exact .inl (by simp [recvCleanupHandler, Option.filter, h])
    · exact .inr (by simp [recvCleanupHandler, Option.filter, h])

theorem WorldInv.destroy {c : Cfg} {w : World} (inv : WorldInv c w) {recv : Option Recv}
    (h : recv = none ∨ recv = w.recv) : WorldInv c { w with recv := recv } := by
  rcases h with h | h
  · subst h
    exact ⟨(by simp), inv.done, inv.once.imp_right fun h => ⟨h.1, (by simp)⟩⟩
  · subst h
    exact inv

/-- Nothing received yet. -/
def init : World := ⟨none, []⟩

/-- RUN: the invariant holds in every state of every run. -/
theorem reach_inv {c : Cfg} {w : World} (h : Reach (step c) (ok c) init w) : WorldInv c w := by
  refine @Reach.invariant _ _ _ _ _ _ (WorldInv c) h ?_ fun w a hok inv => ?_
  · exact ⟨(by simp [init]), (by simp [init]), .inl rfl⟩
  · cases a with
    | data seg env => exact inv.data hok
    | timeout => exact inv.destroy (recvTimeoutHandler_cases _)
    | cleanup => exact inv.destroy (recvCleanupHandler_cases _)

/-- CORRECT: in every run of fair segments the list increases strictly and begins with
    `1, …, seg_num`, `cur_seg_buf` is the element numbered `seg_num`, nothing lies beyond the window,
    `last_ack ≤ seg_num ≤ newwin`, one message at most is returned, and it is whole. -/
theorem rmpp_recv_whole {c : Cfg} {w : World} (h : Reach (step c) (ok c) init w) :
    (∀ r, w.recv = some r →
      Increasing getSegNum r.rmppList ∧
      (∃ pre suf, r.rmppList = pre ++ suf ∧ pre.map getSegNum = numbered r.segNum) ∧
      r.curSegBuf ∈ r.rmppList ∧ getSegNum r.curSegBuf = r.segNum ∧
      (∀ x ∈ r.rmppList, getSegNum x ≤ r.newwin) ∧
      r.lastAck ≤ r.segNum ∧ r.segNum ≤ r.newwin) ∧
    w.done.length ≤ 1 ∧
    ∀ d ∈ w.done, d.rmppList.map getSegNum = numbered d.segNum ∧
      (∀ x ∈ d.rmppList, x.last = true ↔ getSegNum x = d.segNum) ∧
      c.hdrSize ≤ d.madLen ∧ d.madLen ≤ c.hdrSize + d.segNum * c.dataSize := by
  have inv := reach_inv h
  refine ⟨fun r hr => ?_, ?_, fun d hd => ?_⟩
  · obtain ⟨hinv, -⟩ := inv.recv r hr
    exact ⟨hinv.incr, hinv.exists_prefix, hinv.curMem, hinv.curNum, hinv.leNewwin, hinv.ackLe,
      hinv.seg_num_le⟩
  · rcases inv.once with h | ⟨h, -⟩
    · rw [h]
      exact Nat.zero_le 1
    · exact h.le
  · obtain ⟨h₁, h₂, h₃, h₄⟩ := inv.done d hd
    exact ⟨h₁, h₂, h₃, h₄⟩

/-- An agent of the subnet administrator's class with a receive queue of 512. -/
def saCfg : Cfg := ⟨0x03, false, 512, by norm_num⟩

/-- A DATA MAD with a full payload. -/
def dataSeg (segNum : ℕ) (last : Bool) : Seg := ⟨0, segNum = 1, last, segNum, 220, []⟩

/-- Nothing fails. -/
def allOk : Env := ⟨true, true, true⟩

/-- Two segments come, and the receive times out. They are sent again, the second one twice; the
    receive of the message is cleaned up, and the second segment comes once more. -/
def pairActs : List Act :=
  [.data (dataSeg 1 false) allOk, .data (dataSeg 3 false) allOk, .timeout,
    .data (dataSeg 1 false) allOk, .data (dataSeg 2 true) allOk, .data (dataSeg 2 true) allOk,
    .cleanup, .data (dataSeg 2 true) allOk]

theorem rmpp_recv_whole_pair : ∃ w, Reach (step saCfg) (ok saCfg) init w ∧ w.done.length = 1 ∧
    ∀ d ∈ w.done, d.rmppList.map getSegNum = numbered d.segNum := by
  have hreach : Reach (step saCfg) (ok saCfg) init (pairActs.foldl (step saCfg) init) := by
    refine Reach.runs .start ⟨?_, ?_, trivial, ?_, ?_, ?_, trivial, ?_, trivial⟩
    · exact fun _ _ => ⟨rfl, fun h => by cases h⟩
    · exact fun _ _ => ⟨(by simp [dataSeg]), (by decide), (by simp [dataSeg]), fun _ => by decide⟩
    · exact fun _ _ => ⟨rfl, fun h => by cases h⟩
    · exact fun _ _ => ⟨fun _ => by decide, by decide, fun _ => by decide, fun _ => by decide⟩
    · exact fun _ h => by cases h.1
    · exact fun _ h => by cases h
  exact ⟨_, hreach, rfl, fun d hd => ((rmpp_recv_whole hreach).2.2 d hd).1⟩

/-- LAST on segment 2 when segment 4 has come: 1, 2, 4 are returned. LAST on segment 2 when segment 3
    has come: it is passed by, and 1, 2, 3, 4 are returned with LAST on 2 and 4. A single segment with
    4 bytes of payload: 40 bytes are returned, fewer than the header has. A single segment that comes
    again after the cleanup is returned again. -/
theorem rmpp_recv_passes_last :
    (∃ w, Reach (step saCfg) (fun _ _ => True) init w ∧
      w.done.map (fun d => d.rmppList.map getSegNum) = [[1, 2, 4]]) ∧
    (∃ w, Reach (step saCfg) (fun _ _ => True) init w ∧
      w.done.map (fun d => d.rmppList.map fun x => (getSegNum x, x.last)) =
        [[(1, false), (2, true), (3, false), (4, true)]]) ∧
    (∃ w, Reach (step saCfg) (fun _ _ => True) init w ∧ w.done.map Done.madLen = [40]) ∧
    ∃ w, Reach (step saCfg) (fun _ _ => True) init w ∧ w.done.map Done.madLen = [256, 256] := by
  refine ⟨⟨_, Reach.runs (l := [.data (dataSeg 1 false) allOk,
      .data (dataSeg 4 false) allOk, .data (dataSeg 2 true) allOk]) .start ?_, ?_⟩,
    ⟨_, Reach.runs (l := [.data (dataSeg 1 false) allOk,
      .data (dataSeg 3 false) allOk, .data (dataSeg 2 true) allOk,
      .data (dataSeg 4 true) allOk]) .start ?_, ?_⟩,
    ⟨_, Reach.runs (l := [.data ⟨0, true, true, 1, 4, []⟩ allOk]) .start ?_, ?_⟩,
    ⟨_, Reach.runs (l := [.data (dataSeg 1 true) allOk, .cleanup,
      .data (dataSeg 1 true) allOk]) .start ?_, ?_⟩⟩
  · exact ⟨trivial, trivial, trivial, trivial⟩
  · decide
  · exact ⟨trivial, trivial, trivial, trivial, trivial⟩
  · decide
  · exact ⟨trivial, trivial⟩
  · decide
  · exact ⟨trivial, trivial, trivial, trivial⟩
  · decide

end RdmaDriver.Rmpp
