import Mathlib.Data.List.Range
import RdmaDriver.Basic
import RdmaDriver.Schemes.Run
import RdmaDriver.Core.RmppRecv
import RdmaDriver.Core.RmppSend

/-! @src drivers/infiniband/core/mad.c, mad_rmpp.c | name:RMPP end to end | scheme:run | family:protocol

    One sender and one receiver joined by a network. A MAD that was sent once may come out any number
    of times, at any later time and in any order, or never. Either end may time out, and a receiver
    may forget its receive and begin again. A segment is taken as kept when it has been on the list
    of the receive; every ACK speaks of kept segments only.

        sender -- DATA 1 … seg_count --> receiver --> message
               <-- ACK (seg_num, newwin) --
               <-- response of the client -/

namespace RdmaDriver.Rmpp
open Schemes
open List (append_nil range)

/-! ### The send buffer -/

/-- `ib_is_mad_class_rmpp`. -/
def ibIsMadClassRmpp (mgmtClass : ℕ) : Bool :=
  mgmtClass = 0x03 ∨ mgmtClass = 0x06 ∨ mgmtClass = 0x10 ∨ mgmtClass = 0x12 ∨
    0x30 ≤ mgmtClass ∧ mgmtClass ≤ 0x4F

/-- `get_pad_size`, for the header length of the class. -/
def getPadSize (c : Cfg) (dataLen : ℕ) : ℕ :=
  if dataLen ≠ 0 ∧ c.dataSize ≠ 0 then
    let pad := c.dataSize - dataLen % c.dataSize
    if pad = c.dataSize then 0 else pad
  else c.dataSize

/-- The loop of `alloc_send_rmpp_list`: how many segments it allocates. -/
def allocLoop (segSize : ℤ) : ℕ → ℤ → ℕ
  | 0, _ => 0
  | fuel + 1, left => if 0 < left then allocLoop segSize fuel (left - segSize) + 1 else 0

/-- What the client puts into a send buffer: the segments, and how it is to be sent. -/
structure ClientBuf (c : Cfg) where
  content : ℕ → List ℕ
  contentLen : ∀ i, (content i).length = c.dataSize
  timeoutMs : ℕ
  retries : ℕ
  rmppStatus : ℕ
  addr : ℕ → ℕ
  headData : List ℕ

/-- `ib_create_send_mad` with `alloc_send_rmpp_list`, for an active RMPP send. Without a segment the
    padding has nowhere to go, and the counter of the segments is an `int`. -/
def ibCreateSendMad (c : Cfg) (dataLen : ℕ) (u : ClientBuf c) (allocOk : Bool) : Option SendBuf :=
  let pad := getPadSize c dataLen
  let left := toInt (dataLen + pad)
  let n := allocLoop c.dataSize left.toNat left
  if h : allocOk = true ∧ 1 ≤ n ∧ n < 2 ^ 31 then
    some {
      rmppList := (range n).map u.content
      segRmppSize := c.rmppData
      pad := pad
      sgeLen := if c.opa ∧ dataLen < c.dataSize then dataLen else c.dataSize
      timeoutMs := u.timeoutMs
      retries := u.retries
      rmppStatus := u.rmppStatus
      addr := u.addr
      headData := u.headData
      segCountPos := by simpa using h.2.1
      segCountLt := by simpa using h.2.2 }
  else none

theorem dataSize_bounds (c : Cfg) : 192 ≤ c.dataSize ∧ c.dataSize ≤ 2048 := by
  have := hdrSize_le c
  unfold Cfg.dataSize Cfg.madSize
  split_ifs <;> omega

/-- The padding fills up the last segment; a message without data is one segment of padding. -/
theorem getPadSize_spec (c : Cfg) (dataLen : ℕ) :
    getPadSize c dataLen ≤ c.dataSize ∧
      ∃ n, 1 ≤ n ∧ dataLen + getPadSize c dataLen = n * c.dataSize := by
  have hd := (dataSize_bounds c).1
  have hmod := Nat.mod_lt dataLen (show 0 < c.dataSize by omega)
  have hdiv := Nat.div_add_mod' dataLen c.dataSize
  unfold getPadSize
  by_cases h₀ : dataLen = 0
  · rw [if_neg (by simp [h₀])]
    exact ⟨le_rfl, 1, le_rfl, by omega⟩
  rw [if_pos ⟨h₀, by omega⟩]
  dsimp only
  split_ifs with hfull
  · -- whole segments
    have hzero : dataLen % c.dataSize = 0 := by omega
    refine ⟨Nat.zero_le _, dataLen / c.dataSize, ?_, by omega⟩
    exact Nat.div_pos (Nat.le_of_dvd (by omega) (Nat.dvd_of_mod_eq_zero hzero)) (by omega)
  · refine ⟨Nat.sub_le _ _, dataLen / c.dataSize + 1, Nat.le_add_left 1 _, ?_⟩
    rw [Nat.add_one_mul]
    omega

theorem allocLoop_eq {size : ℕ} (hs : 1 ≤ size) : ∀ (n fuel : ℕ), n * size ≤ fuel →
    allocLoop size fuel (n * size : ℕ) = n := by
  intro n
  induction n with
  | zero =>
    intro fuel _
    cases fuel with
    | zero => rfl
    | succ fuel =>
      unfold allocLoop
      rw [if_neg (by simp)]
  | succ n ih =>
    intro fuel hf
    rw [Nat.add_one_mul] at hf ⊢
    obtain ⟨fuel, rfl⟩ : ∃ f, fuel = f + 1 := ⟨fuel - 1, by omega⟩
    unfold allocLoop
    have hleft : ((n * size + size : ℕ) : ℤ) - size = (n * size : ℕ) := by
      omega
    rw [if_pos (by exact_mod_cast (by omega : 0 < n * size + size)), hleft, ih fuel (by omega)]

theorem allocLoop_nonpos {size left : ℤ} (h : left ≤ 0) (fuel : ℕ) :
    allocLoop size fuel left = 0 := by
  cases fuel with
  | zero => rfl
  | succ fuel =>
    unfold allocLoop
    rw [if_neg (not_lt.mpr h)]

/-- A send buffer for `data_len` bytes. -/
structure Created (c : Cfg) (dataLen : ℕ) (u : ClientBuf c) (b : SendBuf) : Prop where
  list : b.rmppList = (range b.segCount).map u.content
  size : b.segRmppSize = c.rmppData
  padLe : b.pad ≤ c.dataSize
  length : dataLen + b.pad = b.segCount * c.dataSize
  fits : dataLen + b.pad < 2 ^ 31
  sge : b.sgeLen = if c.opa ∧ dataLen < c.dataSize then dataLen else c.dataSize

/-- Every buffer that is created holds the data and the padding in whole segments. -/
theorem created {c : Cfg} {dataLen : ℕ} {u : ClientBuf c} {allocOk : Bool} {b : SendBuf}
    (hlen : dataLen < 2 ^ 31) (h : ibCreateSendMad c dataLen u allocOk = some b) :
    Created c dataLen u b := by
  obtain ⟨hpad, n, hn, hlength⟩ := getPadSize_spec c dataLen
  have hd := dataSize_bounds c
  have hfits : dataLen + getPadSize c dataLen < 2 ^ 31 := by
    by_contra hover
    have hneg : toInt ((dataLen : ℤ) + getPadSize c dataLen) ≤ 0 := by
      unfold toInt
      omega
    unfold ibCreateSendMad at h
    simp only [allocLoop_nonpos hneg] at h
    rw [dif_neg (by simp)] at h
    cases h
  have hleft : toInt ((dataLen : ℤ) + getPadSize c dataLen) = (n * c.dataSize : ℕ) := by
    rw [← hlength, ← Nat.cast_add]
    exact toInt_of_lt hfits
  have hcount : allocLoop c.dataSize (n * c.dataSize : ℕ) (n * c.dataSize : ℕ) = n :=
    allocLoop_eq (by omega) n _ le_rfl
  unfold ibCreateSendMad at h
  simp only [hleft, Int.toNat_natCast, hcount] at h
  by_cases hok : allocOk = true ∧ 1 ≤ n ∧ n < 2 ^ 31
  case neg =>
    rw [dif_neg hok] at h
    cases h
  rw [dif_pos hok] at h
  cases h
  constructor
  · simp [SendBuf.segCount]
  · rfl
  · exact hpad
  · simpa [SendBuf.segCount] using hlength
  · exact hfits
  · rfl

/-! ### The segments of the message -/

/-- The DATA MAD of a segment of the message. -/
def Auth (b : SendBuf) (x : Seg) : Prop := ∃ n : ℕ, 1 ≤ n ∧ n ≤ b.segCount ∧ x = dataMad b n n

section Segments

variable {b : SendBuf} {x : Seg}

theorem TxOk.auth {t : Tx} (h : TxOk b t) : Auth b t.seg := by
  obtain ⟨n, h₁, h₂, -, hseg⟩ := h
  exact ⟨n, h₁, h₂, hseg⟩

theorem getSegNum_dataMad {n : ℕ} (h : n ≤ b.segCount) : getSegNum (dataMad b n n) = n := by
  have hlt : n < 2 ^ 31 := lt_of_le_of_lt h b.segCountLt
  have hnum : (dataMad b n n).segNum = n := toU_of_lt (by omega)
  unfold getSegNum
  rw [hnum]
  exact toInt_of_lt hlt

theorem Auth.num (h : Auth b x) : 1 ≤ getSegNum x ∧ getSegNum x ≤ b.segCount ∧
    (x.last = true ↔ getSegNum x = b.segCount) := by
  obtain ⟨n, h₁, h₂, rfl⟩ := h
  rw [getSegNum_dataMad h₂]
  refine ⟨by exact_mod_cast h₁, by exact_mod_cast h₂, ?_⟩
  exact decide_eq_true_iff

/-- One DATA MAD for each number. -/
theorem Auth.eq (h : Auth b x) {n : ℕ} (hn : getSegNum x = n) : x = dataMad b n n := by
  obtain ⟨m, -, h₂, rfl⟩ := h
  rw [getSegNum_dataMad h₂] at hn
  rw [show m = n by exact_mod_cast hn]

theorem rmppClass_hdr {c : Cfg} (hclass : ibIsMadClassRmpp c.mgmtClass = true) :
    36 ≤ c.hdrSize := by
  unfold ibIsMadClassRmpp at hclass
  simp only [decide_eq_true_eq] at hclass
  unfold Cfg.hdrSize ibGetMadDataOffset
  split_ifs <;> omega

/-- The receiver finds the padding of the sender in the LAST segment. -/
theorem Auth.pad {c : Cfg} (h : Auth b x) (hlast : x.last = true)
    (hclass : ibIsMadClassRmpp c.mgmtClass = true) (hsize : b.segRmppSize = c.rmppData)
    (hpad : b.pad ≤ c.dataSize) : rmppPad c x = b.pad := by
  obtain ⟨n, h₁, h₂, rfl⟩ := h
  have hn : (n : ℤ) = b.segCount := of_decide_eq_true hlast
  have hhdr := rmppClass_hdr hclass
  have hle : b.pad ≤ c.rmppData ∧ c.rmppData ≤ 2012 := by
    unfold Cfg.dataSize Cfg.madSize at hpad
    unfold Cfg.rmppData
    split_ifs at hpad ⊢ <;> omega
  have hpaylen : (dataMad b n n).paylen = c.rmppData - b.pad := by
    unfold dataMad
    rw [if_pos hn, hsize]
    exact toU_sub (by omega) hle.1
  unfold rmppPad
  rw [hpaylen]
  have hback : toInt ((c.rmppData : ℤ) - (c.rmppData - b.pad : ℕ)) = b.pad := by
    rw [Nat.cast_sub hle.1, sub_sub_cancel]
    exact toInt_of_lt (by omega)
  rw [hback, if_neg (by omega)]

end Segments

/-! ### The receiver -/

section Receiver

variable {c : Cfg} {b : SendBuf} {r : Recv} {seg : Seg} {env : Env}

/-- What a call of the receiver produces speaks of its state `r` afterwards. -/
structure OutOk (c : Cfg) (r : Recv) (o : Out) : Prop where
  done : ∀ d, o.done = some d →
    d = ⟨r.rmppList, r.segNum, getMadLen c r⟩ ∧ r.curSegBuf.last = true
  ack : ∀ a, o.ack = some a → a.segNum = toU 32 r.segNum

theorem OutOk.nothing : OutOk c r .nothing :=
  ⟨fun _ h => (by cases h), fun _ h => (by cases h)⟩

theorem ackRecv_ack {a : Ack} (h : (ackRecv r env).2 = some a) :
    a.segNum = toU 32 (ackRecv r env).1.segNum := by
  rw [(ackRecv_fields r env).2.1]
  unfold ackRecv at h
  by_cases hmsg : !env.msgOk
  · rw [if_pos hmsg] at h
    cases h
  · rw [if_neg hmsg] at h
    dsimp only at h
    split_ifs at h
    cases h
    rfl

theorem OutOk.acked : OutOk c (ackRecv r env).1 ⟨none, (ackRecv r env).2, none⟩ :=
  ⟨fun _ h => (by cases h), fun _ => ackRecv_ack⟩

theorem OutOk.complete (hlast : r.curSegBuf.last = true) :
    OutOk c (completeRmpp c r env).1 (completeRmpp c r env).2 := by
  unfold completeRmpp
  refine ⟨fun d h => ?_, fun _ => ackRecv_ack⟩
  cases h
  exact ⟨rfl, (ackRecv_fields r env).2.2.2 ▸ hlast⟩

theorem OutOk.advance (c : Cfg) (r : Recv) (seg : Seg) (env : Env) :
    OutOk c (advance c r seg env).1 (advance c r seg env).2 := by
  rcases @advance_cases r c seg env _ rfl with ⟨hlast, h⟩ | ⟨-, -, h⟩ | ⟨-, h⟩
  · rw [h]
    exact OutOk.complete hlast
  · rw [h]
    exact OutOk.acked
  · rw [h]
    exact OutOk.nothing

theorem OutOk.continue (c : Cfg) (r : Recv) (seg : Seg) (env : Env) :
    OutOk c (continueRmpp c r seg env).1 (continueRmpp c r seg env).2 := by
  unfold continueRmpp
  by_cases h₁ : r.state = .timeout ∨ getSegNum seg > r.newwin
  · rw [if_pos h₁]
    exact OutOk.nothing
  rw [if_neg h₁]
  split_ifs with h₂
  · exact OutOk.acked
  cases findSegLocation r.rmppList (getSegNum seg) with
  | none => exact OutOk.nothing
  | some p =>
    dsimp only
    split_ifs with h₃
    · exact OutOk.advance c _ seg env
    · exact OutOk.nothing

theorem ackRecv_newwin (r : Recv) (env : Env) : (ackRecv r env).1.newwin = r.newwin := by
  rcases ackRecv_cases r env with h | h <;> rw [h]

theorem setState_fields (r : Recv) (state : RmppState) :
    (r.setState state).rmppList = r.rmppList ∧ (r.setState state).newwin = r.newwin :=
  ⟨rfl, rfl⟩

theorem setNewwin_fields (r : Recv) (w : ℤ) :
    (r.setNewwin w).rmppList = r.rmppList ∧ (r.setNewwin w).newwin = w ∧
      (r.setNewwin w).segNum = r.segNum :=
  ⟨rfl, rfl, rfl⟩

/-- What `advance` does to the list and the window. -/
theorem advance_frame (c : Cfg) (r : Recv) (seg : Seg) (env : Env) :
    (advance c r seg env).1.rmppList = r.rmppList ∧ ((advance c r seg env).1.newwin = r.newwin ∨
        r.newwin = (advance c r seg env).1.segNum ∧
          (advance c r seg env).1.newwin = toInt (r.newwin + c.windowSize)) := by
  obtain ⟨hl, hn, -, -⟩ := updateSegNum_frame r (fromElem seg r.rmppList)
  have hadv := @advance_cases r c seg env _ rfl
  generalize updateSegNum r (fromElem seg r.rmppList) = u at *
  rcases hadv with ⟨-, h⟩ | ⟨-, hfull, h⟩ | ⟨-, h⟩
  · rw [h]
    unfold completeRmpp
    rw [ackRecv_list, ackRecv_newwin, (setState_fields u _).1, (setState_fields u _).2]
    exact ⟨hl, .inl hn⟩
  · rw [h]
    obtain ⟨h₁, h₂, h₃⟩ := setNewwin_fields u (toInt (u.newwin + c.windowSize))
    unfold Recv.openWindow
    generalize u.setNewwin (toInt (u.newwin + c.windowSize)) = v at *
    rw [ackRecv_list, ackRecv_newwin, (ackRecv_fields v env).2.1, h₁, h₂, h₃, ← hn]
    exact ⟨hl, .inr ⟨hfull.symm, rfl⟩⟩
  · rw [h]
    exact ⟨hl, .inl hn⟩

/-- What `continue_rmpp` does to the list and the window. -/
theorem continueRmpp_frame (c : Cfg) (inv : Inv r) (seg : Seg) (env : Env) :
    (∀ x ∈ (continueRmpp c r seg env).1.rmppList, x = seg ∨ x ∈ r.rmppList) ∧
      ((continueRmpp c r seg env).1.newwin = r.newwin ∨
        r.newwin = (continueRmpp c r seg env).1.segNum ∧
          (continueRmpp c r seg env).1.newwin = toInt (r.newwin + c.windowSize)) := by
  rcases continueRmpp_cases c inv seg env with ⟨h, -⟩ | ⟨-, a, p, d, hl, -, -, h⟩
  · rcases h with h | h
    · rw [h]
      exact ⟨fun x hx => .inr hx, .inl rfl⟩
    · rw [h]
      exact ⟨fun x hx => .inr hx, .inl rfl⟩
  · have hmem : ∀ x, x ∈ (r.put a p seg d).rmppList ↔ x = seg ∨ x ∈ r.rmppList := by
      intro x
      rw [hl]
      exact mem_splice
    rcases h with ⟨-, h⟩ | ⟨-, h⟩
    · rw [h]
      exact ⟨fun x hx => (hmem x).mp hx, .inl rfl⟩
    · obtain ⟨hlist, hw⟩ := advance_frame c (r.put a p seg d) seg env
      rw [h, hlist]
      exact ⟨fun x hx => (hmem x).mp hx, hw⟩

/-- What holds of a receive of authentic segments. -/
structure RecvInv (c : Cfg) (b : SendBuf) (r : Recv) : Prop where
  inv : Inv r
  auth : ∀ x ∈ r.rmppList, Auth b x
  newwinLe : r.newwin ≤ b.segCount + c.windowSize

theorem RecvInv.seg_num_le (ri : RecvInv c b r) : r.segNum ≤ b.segCount := by
  have h := (ri.auth _ ri.inv.curMem).num.2.1
  rwa [ri.inv.curNum] at h

/-- STEP: an authentic segment. -/
theorem RecvInv.continue (ri : RecvInv c b r) (hseg : Auth b seg) (hcount : b.segCount < 2 ^ 24) :
    RecvInv c b (continueRmpp c r seg env).1 := by
  have hw := windowSize_bounds c
  have hle := ri.seg_num_le
  have hinv : Inv (continueRmpp c r seg env).1 := by
    refine ri.inv.continueRmpp fun _ hfills => ?_
    -- a window that is used up by segments of the message does not go beyond them
    by_contra hover
    rcases hfills r.newwin (by omega) le_rfl with h | ⟨x, hx, hxn⟩
    · have := hseg.num.2.1
      omega
    · have := (ri.auth x hx).num.2.1
      omega
  obtain ⟨hmem, hwin⟩ := continueRmpp_frame c ri.inv seg env
  have hauth : ∀ x ∈ (continueRmpp c r seg env).1.rmppList, Auth b x := by
    intro x hx
    rcases hmem x hx with rfl | hx
    · exact hseg
    · exact ri.auth x hx
  refine ⟨hinv, hauth, ?_⟩
  rcases hwin with h | ⟨hfull, h⟩
  · rw [h]
    exact ri.newwinLe
  · have hnew := (hauth _ hinv.curMem).num.2.1
    rw [hinv.curNum] at hnew
    have hpos := ri.inv.one_le_seg_num.trans ri.inv.seg_num_le
    rw [h, toInt_of_range (by omega) (by omega)]
    omega

theorem RecvInv.ack (ri : RecvInv c b r) : RecvInv c b (ackRecv r env).1 :=
  ⟨ri.inv.ack, (ackRecv_list r env).symm ▸ ri.auth, (ackRecv_newwin r env).symm ▸ ri.newwinLe⟩

/-- A receive that begins with segment 1 of the message. -/
theorem RecvInv.create (hseg : Auth b seg) (hone : getSegNum seg = 1) :
    RecvInv c b (createRmppRecv seg) := by
  refine ⟨Inv.create hone, fun x hx => ?_, ?_⟩
  · rwa [List.mem_singleton.mp hx]
  · have h₁ := hseg.num.2.1
    change (1 : ℤ) ≤ b.segCount + c.windowSize
    omega

/-- STEP: a DATA MAD of the message changes nothing, or there is a receive afterwards of which the
    output speaks. -/
theorem processRmppData_auth {recv : Option Recv} (hrecv : ∀ r, recv = some r → RecvInv c b r)
    (hseg : Auth b seg) (hcount : b.segCount < 2 ^ 24) :
    ((processRmppData c recv seg env).1 = recv ∧ (processRmppData c recv seg env).2.done = none ∧
      (processRmppData c recv seg env).2.ack = none) ∨
    ∃ r, (processRmppData c recv seg env).1 = some r ∧ RecvInv c b r ∧
      OutOk c r (processRmppData c recv seg env).2 := by
  rcases processRmppData_cases c recv seg env with h | ⟨-, h⟩
  · exact .inl h
  refine .inr ?_
  have hfirst (h : seg.segNum = 1) : getSegNum seg = 1 := by
    unfold getSegNum
    rw [h]
    rfl
  rcases h with ⟨r, hr, h⟩ | ⟨-, hone, hlast, h⟩ | ⟨-, hone, -, h⟩
  · rw [h]
    exact ⟨_, rfl, (hrecv r hr).continue hseg hcount, OutOk.continue c r seg env⟩
  · rw [h]
    have hnew : RecvInv c b (createRmppRecv seg) := RecvInv.create hseg (hfirst hone)
    have hdone : RecvInv c b ((createRmppRecv seg).setState .complete) :=
      { hnew with inv := hnew.inv.setState .complete }
    exact ⟨_, rfl, hdone.ack, OutOk.complete hlast⟩
  · rw [h]
    have hnew : RecvInv c b (createRmppRecv seg) := RecvInv.create hseg (hfirst hone)
    have hw := windowSize_bounds c
    have hopen : toInt ((createRmppRecv seg).newwin + c.windowSize) = 1 + c.windowSize :=
      toInt_of_range (by change -2 ^ 31 ≤ (1 : ℤ) + _; omega) (by change (1 : ℤ) + _ < _; omega)
    have hwide : RecvInv c b ((createRmppRecv seg).openWindow c) := by
      unfold Recv.openWindow
      rw [hopen]
      have h₁ := hseg.num
      refine ⟨hnew.inv.widen (by change (1 : ℤ) ≤ _; omega) (by omega), hnew.auth, ?_⟩
      change (1 : ℤ) + c.windowSize ≤ _
      omega
    exact ⟨_, rfl, hwide.ack, OutOk.acked⟩

end Receiver

/-! ### The references of the send -/

section References

variable {b : SendBuf} {Q : Prop} {wr : SendWr} {status : WcStatus} {env : SendEnv}

/-- The reference for the response, or for the last ACK. -/
def SendWr.respRef (wr : SendWr) : ℤ := if wr.timeout = true ∧ wr.status = .success then 1 else 0

/-- The reference for the MAD that is on its way. -/
def SendWr.madRef (wr : SendWr) : ℤ := if wr.posted = true then 1 else 0

/-- A send that is not done yet: its references, and that it waits for nothing more only if `Q`. -/
structure RefCore (Q : Prop) (wr : SendWr) : Prop where
  refs : wr.refcount = wr.respRef + wr.madRef
  waiting : wr.list = .wait → wr.posted = false ∧ wr.timeout = true ∧ wr.status = .success
  done : wr.timeout = false → wr.status = .success → Q

/-- With the last ACK, a send that expects no response is done. -/
structure RefInv (b : SendBuf) (Q : Prop) (wr : SendWr) : Prop extends RefCore Q wr where
  last : wr.rc.lastAck = b.segCount → wr.timeout = true → b.timeoutMs ≠ 0

/-- What a call must leave: the invariant, or a send that is done, successfully only if `Q`. -/
structure RefOk (b : SendBuf) (Q : Prop) (p : SendWr × Option WcStatus) : Prop where
  inv : p.1.list ≠ .gone → RefInv b Q p.1
  report : p.2 = some .success → Q

theorem madRef_nonneg : 0 ≤ wr.madRef ∧ 0 ≤ wr.respRef ∧ wr.respRef ≤ 1 := by
  unfold SendWr.madRef SendWr.respRef
  split_ifs <;> omega

theorem respRef_of_true (h₁ : wr.timeout = true) (h₂ : wr.status = .success) : wr.respRef = 1 :=
  if_pos ⟨h₁, h₂⟩

theorem respRef_of_false (h : wr.timeout = false) : wr.respRef = 0 := if_neg (by simp [h])

theorem respRef_of_error (h : wr.status ≠ .success) : wr.respRef = 0 := if_neg (by simp [h])

theorem madRef_of_false (h : wr.posted = false) : wr.madRef = 0 := if_neg (by simp [h])

theorem posted_of_madRef (h : wr.madRef = 0) : wr.posted = false := by
  unfold SendWr.madRef at h
  by_contra hp
  rw [if_pos (by simpa using hp)] at h
  cases h

/-- One reference given back. -/
theorem putSendWr_ref (hrefs : wr.refcount = wr.respRef + 1 + wr.madRef)
    (hwait : wr.list = .wait → wr.respRef + wr.madRef = 0)
    (hlast : wr.rc.lastAck = b.segCount → wr.timeout = true → b.timeoutMs ≠ 0)
    (hdone : wr.timeout = false → wr.status = .success → status = .success → Q) :
    RefOk b Q (putSendWr wr status) := by
  obtain ⟨hmad, hresp, hresp'⟩ := @madRef_nonneg wr
  unfold putSendWr
  by_cases herr : status ≠ .success ∧ wr.status = .success
  · simp only [if_pos herr]
    have hresp : wr.respRef = if wr.timeout then 1 else 0 := by
      unfold SendWr.respRef
      simp [herr.2]
    have hcount : wr.refcount - (if wr.timeout then 1 else 0) - 1 = wr.madRef := by
      rw [hrefs, hresp]
      split_ifs <;> omega
    rw [hcount]
    by_cases hlive : 0 < wr.madRef
    · rw [if_pos hlive, if_neg (by simp [herr.1])]
      refine ⟨fun _ => ⟨⟨?_, fun h => ?_, fun _ h => absurd h herr.1⟩, hlast⟩, fun h => by cases h⟩
      · rw [respRef_of_error herr.1, zero_add]
        rfl
      · have := hwait h
        omega
    · rw [if_neg hlive]
      refine ⟨fun h => absurd rfl h, fun h => ?_⟩
      rw [if_pos herr.1] at h
      exact absurd (Option.some.inj h) herr.1
  · simp only [if_neg herr]
    have hok : wr.status = .success → status = .success := by
      intro h
      by_contra hne
      exact herr ⟨hne, h⟩
    have hcount : wr.refcount - 1 = wr.respRef + wr.madRef := by omega
    rw [hcount]
    by_cases hlive : 0 < wr.respRef + wr.madRef
    · rw [if_pos hlive]
      refine ⟨fun _ => ?_, fun h => by cases h⟩
      split_ifs with hw
      · have hr := respRef_of_true hw.2.1 hw.2.2
        have hp : wr.posted = false := posted_of_madRef (by omega)
        exact ⟨⟨rfl, fun _ => ⟨hp, hw.2⟩, fun h₁ h₂ => hdone h₁ h₂ (hok h₂)⟩, hlast⟩
      · refine ⟨⟨rfl, fun h => ?_, fun h₁ h₂ => hdone h₁ h₂ (hok h₂)⟩, hlast⟩
        have := hwait h
        omega
    · rw [if_neg hlive]
      refine ⟨fun h => absurd rfl h, fun h => ?_⟩
      have hs : wr.status = .success := by
        by_contra hne
        rw [if_pos hne] at h
        exact hne (Option.some.inj h)
      have ht : wr.timeout = false := by
        by_contra ht
        have := respRef_of_true (by simpa using ht) hs
        omega
      exact hdone ht hs (hok hs)

theorem sendNextSeg_last_ack (b : SendBuf) (rc : RmppControl) (env : SendEnv) :
    (sendNextSeg b rc env).1.lastAck = rc.lastAck := by
  unfold sendNextSeg
  dsimp only
  by_cases h : !env.headerOk
  · rw [if_pos h]
    rfl
  · rw [if_neg h]
    rfl

/-- The completion of a MAD, or of the whole send. -/
theorem complete_ref (hrefs : wr.refcount = wr.respRef + 1 + wr.madRef)
    (hwait : wr.list = .wait → wr.respRef + wr.madRef = 0)
    (hlast : wr.rc.lastAck = b.segCount → wr.timeout = true → b.timeoutMs ≠ 0)
    (hdone : wr.timeout = false → wr.status = .success → status = .success → Q)
    (hposted : wr.timeout = true → wr.posted = false) :
    RefOk b Q ((ibMadCompleteSendWr b wr status env).1,
      (ibMadCompleteSendWr b wr status env).2.report) := by
  have hput := @putSendWr_ref b Q wr status hrefs hwait hlast hdone
  unfold ibMadCompleteSendWr ibProcessRmppSendWc
  by_cases h₁ : status ≠ .success ∨ wr.status ≠ .success
  · rw [if_pos h₁]
    exact hput
  rw [if_neg h₁]
  push Not at h₁
  by_cases h₂ : (!wr.timeout) = true
  · rw [if_pos h₂]
    exact hput
  rw [if_neg h₂]
  have ht : wr.timeout = true := by simpa using h₂
  by_cases h₃ : wr.rc.lastAck = b.segCount
  · -- a response is expected, so that the send goes on waiting
    rw [if_pos h₃]
    have hms : decide (0 < b.timeoutMs) = wr.timeout := by
      rw [ht]
      simpa using Nat.pos_of_ne_zero (hlast h₃ ht)
    rw [hms]
    exact hput
  rw [if_neg h₃]
  split_ifs with h₄
  · exact hput
  have hp := hposted ht
  have hr := respRef_of_true ht h₁.2
  have hack := sendNextSeg_last_ack b wr.rc env
  unfold SendWr.sendNext
  generalize sendNextSeg b wr.rc env = q at *
  obtain ⟨rc, tx⟩ := q
  cases tx with
  | none =>
    refine @putSendWr_ref b Q _ .generalErr ?_ ?_ ?_ ?_
    · simpa [SendWr.respRef, SendWr.madRef, ht] using hrefs
    · intro h
      have := hwait h
      have := (@madRef_nonneg wr).1
      omega
    · intro h
      exact absurd (hack.symm.trans h) h₃
    · intro h
      simp [ht] at h
  | some t =>
    refine ⟨fun _ => ⟨⟨?_, fun h => ?_, fun h => ?_⟩, fun h => ?_⟩, fun h => by cases h⟩
    · simpa [SendWr.respRef, SendWr.madRef, ht, hp] using hrefs
    · have := hwait h
      have := (@madRef_nonneg wr).1
      omega
    · simp [ht] at h
    · exact absurd (hack.symm.trans h) h₃

theorem RefCore.found (h : RefCore Q wr) (hf : wr.found = true) :
    wr.timeout = true ∧ wr.status = .success := by
  unfold SendWr.found at hf
  cases hl : wr.list with
  | wait => exact (h.waiting hl).2
  | send =>
    rw [hl] at hf
    exact of_decide_eq_true hf
  | gone =>
    rw [hl] at hf
    cases hf

/-- STEP: the send is marked done and completed. -/
theorem RefCore.markDone (h : RefCore Q wr) (hf : wr.found = true)
    (hQ : status = .success → Q) :
    RefOk b Q ((ibMadCompleteSendWr b (ibMarkMadDone wr) status env).1,
      (ibMadCompleteSendWr b (ibMarkMadDone wr) status env).2.report) := by
  obtain ⟨ht, hs⟩ := h.found hf
  have hr := respRef_of_true ht hs
  have hrefs := h.refs
  have hmad : (ibMarkMadDone wr).madRef = wr.madRef := rfl
  have hresp : (ibMarkMadDone wr).respRef = 0 := respRef_of_false rfl
  refine complete_ref ?_ (fun hl => ?_) (fun _ h => by cases h) (fun _ _ => hQ) (fun h => by cases h)
  · rw [hmad, hresp]
    change wr.refcount = _
    omega
  · rw [hmad, hresp, madRef_of_false (h.waiting hl).1]
    rfl

theorem RefInv.refOk (h : RefInv b Q wr) : RefOk b Q (wr, none) := ⟨fun _ => h, fun h => by cases h⟩

theorem RefInv.abort (h : RefInv b Q wr) :
    RefOk b Q ((abortSend b wr env).1, (abortSend b wr env).2.report) := by
  unfold abortSend
  by_cases hf : wr.found = true
  · rw [if_neg (by simp [hf])]
    split_ifs
    · exact h.refOk
    · exact h.toRefCore.markDone hf fun h => by cases h
  · rw [if_pos (by simpa using hf)]
    exact h.refOk

theorem RefInv.lastAck (h : RefCore Q wr) (hf : wr.found = true) (hQ : Q) :
    RefOk b Q ((lastAck b wr env).1, (lastAck b wr env).2.report) := by
  obtain ⟨ht, hs⟩ := h.found hf
  have hr := respRef_of_true ht hs
  have hrefs := h.refs
  unfold Rmpp.lastAck
  by_cases h₁ : b.timeoutMs = 0
  · rw [if_pos h₁]
    exact h.markDone hf fun _ => hQ
  rw [if_neg h₁]
  split_ifs with h₂
  · have hp : wr.posted = false := posted_of_madRef (by omega)
    refine ⟨fun _ => ⟨⟨?_, fun _ => ⟨hp, rfl, hs⟩, fun _ _ => hQ⟩, fun _ _ => h₁⟩,
      fun h => by cases h⟩
    have hresp : SendWr.respRef { wr with timeout := true, list := .wait } = 1 :=
      @respRef_of_true { wr with timeout := true, list := .wait } rfl hs
    rw [hresp]
    change wr.refcount = 1 + wr.madRef
    omega
  · exact RefInv.refOk ⟨h, fun _ _ => h₁⟩

/-- STEP: the send goes on behind an ACK, or again after a timeout. -/
theorem sendNext_ref (hs : wr.status = .success) (hr : wr.refcount = 1)
    (hlast : wr.rc.lastAck ≠ b.segCount)
    (ht : (wr.timeout || decide (b.timeoutMs = 0) || decide (2000 < b.timeoutMs)) = true) {t : Tx}
    (htx : (wr.sendNext b env).2 = some t) :
    RefInv b Q { (wr.sendNext b env).1 with
      refcount := (wr.sendNext b env).1.refcount + 1, list := .send } := by
  have hack := sendNextSeg_last_ack b wr.rc env
  unfold SendWr.sendNext at htx ⊢
  generalize sendNextSeg b wr.rc env = q at *
  obtain ⟨rc, tx⟩ := q
  subst htx
  refine ⟨⟨?_, fun h => (by cases h), fun h => ?_⟩, fun h => absurd (hack.symm.trans h) hlast⟩
  · simp [SendWr.respRef, SendWr.madRef, ht, hs, hr]
  · rw [ht] at h
    cases h

section
variable (h : RefInv b Q wr)
include h

theorem RefInv.newAck (hf : wr.found = true) {segNum newwin : ℤ}
    (hQ : (ackRc b wr.rc segNum newwin).lastAck = b.segCount → Q) :
    RefOk b Q ((newAck b wr segNum newwin env).1, (newAck b wr segNum newwin env).2.report) := by
  have hu : RefCore Q (wr.acked b segNum newwin) ∧ (wr.acked b segNum newwin).found = true := by
    unfold SendWr.acked
    split_ifs
    · exact ⟨{ h with }, hf⟩
    · exact ⟨{ h with }, hf⟩
  have hrc : (wr.acked b segNum newwin).rc = ackRc b wr.rc segNum newwin := rfl
  rw [newAck_eq]
  dsimp only
  rw [← hrc] at hQ
  generalize wr.acked b segNum newwin = u at *
  obtain ⟨hcore, hfu⟩ := hu
  obtain ⟨ht, hs⟩ := hcore.found hfu
  by_cases h₁ : u.rc.lastAck = b.segCount
  · rw [if_pos h₁]
    exact RefInv.lastAck hcore hfu (hQ h₁)
  rw [if_neg h₁]
  by_cases h₂ : u.refcount = 1 ∧ u.rc.segNum < u.rc.newwin ∧ u.rc.segNum < b.segCount
  case neg =>
    rw [if_neg h₂]
    exact RefInv.refOk ⟨hcore, fun h => absurd h h₁⟩
  rw [if_pos h₂]
  have hp : u.posted = false := by
    have hrefs := hcore.refs
    rw [respRef_of_true ht hs] at hrefs
    exact posted_of_madRef (by omega)
  cases htx : (u.sendNext b env).2 with
  | some t =>
    exact ⟨fun _ => sendNext_ref hs h₂.1 h₁ (by simp [ht]) htx, fun h => by cases h⟩
  | none =>
    refine ⟨fun _ => ?_, fun h => by cases h⟩
    -- nothing was sent: only the cursors have changed
    have hack := sendNextSeg_last_ack b u.rc env
    unfold SendWr.sendNext at htx ⊢
    generalize sendNextSeg b u.rc env = q at *
    obtain ⟨rc, tx⟩ := q
    subst htx
    refine ⟨⟨?_, fun _ => ⟨by simp [hp], by simp [ht], hs⟩, fun h => by simp [ht] at h⟩,
      fun h => absurd (hack.symm.trans h) h₁⟩
    simp [SendWr.respRef, SendWr.madRef, ht, hs, hp, h₂.1]

theorem RefInv.processAck (m : Ack) (hQ : AckTaken b wr m →
      (ackRc b wr.rc (toInt m.segNum) (toInt m.newwin)).lastAck = b.segCount → Q) :
    RefOk b Q ((processRmppAck b wr m env).1, (processRmppAck b wr m env).2.report) := by
  have habort : RefOk b Q ((abortSend b wr env).1, (abortSend b wr env).2.report) := h.abort
  unfold processRmppAck abortNack
  by_cases h₁ : m.rmppStatus ≠ 0
  · rw [if_pos h₁]
    exact habort
  rw [if_neg h₁]
  by_cases h₂ : toInt m.newwin < toInt m.segNum
  · rw [if_pos h₂]
    exact habort
  rw [if_neg h₂]
  by_cases h₃ : wr.found = true
  case neg =>
    rw [if_pos (by simpa using h₃)]
    exact h.refOk
  rw [if_neg (by simp [h₃])]
  by_cases h₄ : wr.rc.lastAck = b.segCount ∧ wr.timeout = true
  · rw [if_pos h₄]
    exact h.refOk
  rw [if_neg h₄]
  by_cases h₅ : wr.alreadyDone b = true
  · rw [if_pos h₅]
    exact h.refOk
  rw [if_neg h₅]
  by_cases h₆ : (b.segCount : ℤ) < toInt m.segNum ∨ wr.rc.newwin < toInt m.segNum
  · rw [if_pos h₆]
    exact habort
  rw [if_neg h₆]
  split_ifs with h₇
  · exact h.refOk
  push Not at h₁ h₆ h₇
  obtain ⟨ht, -⟩ := h.toRefCore.found h₃
  have hne : wr.rc.lastAck ≠ b.segCount := fun heq => h₄ ⟨heq, ht⟩
  exact h.newAck h₃ (hQ ⟨h₁, h₃, ht, hne, h₆.1, h₆.2, h₇.1, h₇.2⟩)

theorem RefInv.timeoutSends :
    RefOk b Q ((timeoutSends b wr env).1, (timeoutSends b wr env).2.report) := by
  unfold Rmpp.timeoutSends
  by_cases h₁ : wr.list ≠ .wait
  · rw [if_pos h₁]
    exact h.refOk
  rw [if_neg h₁]
  push Not at h₁
  obtain ⟨hp, ht, hs⟩ := h.waiting h₁
  rw [if_pos hs]
  by_cases h₂ : (retrySend b wr env).2.isSome
  case neg =>
    rw [if_neg h₂]
    exact ⟨fun h => absurd rfl h, fun h => by cases h⟩
  rw [if_pos h₂]
  refine ⟨fun _ => ?_, fun h => by cases h⟩
  have hr : wr.refcount = 1 := by
    rw [h.refs, respRef_of_true ht hs, madRef_of_false hp]
    rfl
  unfold retrySend at h₂ ⊢
  by_cases h₃ : wr.retriesLeft = 0
  · rw [if_pos h₃] at h₂
    cases h₂
  rw [if_neg h₃] at h₂ ⊢
  dsimp only at h₂ ⊢
  by_cases h₄ : wr.rc.lastAck = b.segCount
  · rw [if_pos h₄] at h₂
    cases h₂
  rw [if_neg h₄] at h₂ ⊢
  obtain ⟨t, htx⟩ := Option.isSome_iff_exists.mp h₂
  rw [htx]
  refine sendNext_ref ?_ ?_ ?_ ?_ htx
  · exact hs
  · exact hr
  · exact h₄
  · -- with no timeout of its own it gets 2 seconds
    change (decide (0 < b.timeoutMs) || decide (b.timeoutMs = 0) ||
      decide (2000 < b.timeoutMs)) = true
    rcases Nat.eq_zero_or_pos b.timeoutMs with hz | hz
    · simp [hz]
    · simp [hz]

theorem RefInv.sendDone :
    RefOk b Q ((sendDone b wr status env).1, (sendDone b wr status env).2.report) := by
  unfold Rmpp.sendDone
  by_cases h₁ : wr.posted = true ∧ wr.list ≠ .gone
  case neg =>
    rw [if_neg h₁]
    exact h.refOk
  rw [if_pos h₁]
  refine complete_ref ?_ (fun hl => ?_) h.last (fun h₂ h₃ _ => h.done h₂ h₃) fun _ => rfl
  · have hmad : SendWr.madRef { wr with posted := false } = 0 := madRef_of_false rfl
    have hresp : SendWr.respRef { wr with posted := false } = wr.respRef := rfl
    have hone : wr.madRef = 1 := if_pos h₁.1
    rw [hmad, hresp]
    rw [h.refs, hone, add_zero]
  · have := (h.waiting hl).1
    rw [h₁.1] at this
    cases this

/-- STEP: any action on a send that is not done yet. -/
theorem RefInv.run (a : SendAct) (hack : ∀ m env, a = .ack m env → AckTaken b wr m →
      (ackRc b wr.rc (toInt m.segNum) (toInt m.newwin)).lastAck = b.segCount → Q)
    (hresp : ∀ env, a = .response env → Q) :
    RefOk b Q ((runAct b wr a).1, (runAct b wr a).2.report) := by
  cases a with
  | dsAck key ack => exact h.refOk
  | post hdr dlid env => exact h.refOk
  | sendDone status env => exact h.sendDone
  | ack m env => exact h.processAck m (hack m env rfl)
  | response env =>
    change RefOk b Q ((completeResponse b wr env).1, (completeResponse b wr env).2.report)
    unfold completeResponse
    split_ifs with hf
    · exact h.toRefCore.markDone hf fun _ => hresp env rfl
    · exact h.refOk
  | abort env => exact h.abort
  | timeout env => exact h.timeoutSends

end

end References

/-! ### Both ends -/

/-- The sender, the receiver, what the network holds besides the DATA MADs, the segments kept so far,
    the completions of the send, and whether the client of the receiver has answered. -/
structure Link where
  snd : SendWorld
  recv : Option Recv
  done : List Done
  acks : List Ack
  kept : List Seg
  reports : List WcStatus
  responded : Bool

/-- A DATA MAD comes out of the network, the receive times out or is forgotten, the client of the
    receiver answers, or something happens at the sender. -/
inductive LinkAct where
  | data (seg : Seg) (env : Env)
  | recvTimeout
  | recvForget
  | respond
  | sender (a : SendAct)

/-- The completion of the send that an action brings. -/
def sendReport (b : SendBuf) (w : SendWorld) (a : SendAct) : Option WcStatus :=
  match w.wr with
  | none => none
  | some wr => (runAct b wr a).2.report

/-- `ib_post_send_mad` refuses an RMPP send of a class without RMPP. -/
def postRefused (c : Cfg) : SendAct → Bool
  | .post _ _ _ => !ibIsMadClassRmpp c.mgmtClass
  | _ => false

def linkStep (c : Cfg) (b : SendBuf) (l : Link) : LinkAct → Link
  | .data seg env =>
    let p := processRmppData c l.recv seg env
    { l with
      recv := p.1
      done := l.done ++ p.2.done.toList
      acks := l.acks ++ p.2.ack.toList
      kept := l.kept ++ (p.1.map Recv.rmppList).getD [] }
  | .recvTimeout => { l with recv := l.recv.map recvTimeout }
  | .recvForget => { l with recv := none }
  | .respond => { l with responded := true }
  | .sender a =>
    if postRefused c a then l
    else { l with
      snd := sendStep b l.snd a
      reports := l.reports ++ (sendReport b l.snd a).toList }

/-- The network makes up nothing: a MAD that comes out was sent, and the client answers a message that
    it was given. -/
def linkOk (l : Link) : LinkAct → Prop
  | .data seg _ => ∃ t ∈ l.snd.sent, t.seg = seg
  | .respond => l.done ≠ []
  | .sender (.ack m _) => m ∈ l.acks
  | .sender (.response _) => l.responded = true
  | _ => True

def linkInit (rmppList : List (RecvKey × Recv)) : Link :=
  ⟨sendInit rmppList, none, [], [], [], [], false⟩

/-- The segments `1, …, k` have been kept. -/
def Kept (kept : List Seg) (k : ℤ) : Prop := ∀ i, 1 ≤ i → i ≤ k → ∃ x ∈ kept, getSegNum x = i

theorem Kept.mono {l l' : List Seg} {k : ℤ} (h : Kept l k) (hl : ∀ x ∈ l, x ∈ l') : Kept l' k := by
  intro i h₁ h₂
  obtain ⟨x, hx, hi⟩ := h i h₁ h₂
  exact ⟨x, hl x hx, hi⟩

/-- The whole message: segments `1, …, seg_count` in this order, and the length of header and data. -/
def Whole (c : Cfg) (dataLen : ℕ) (b : SendBuf) (d : Done) : Prop :=
  d.rmppList = (range b.segCount).map (fun i => dataMad b (i + 1 : ℕ) (i + 1)) ∧
    d.madLen = toInt (c.hdrSize + dataLen)

section Message

variable {c : Cfg} {b : SendBuf} {r : Recv} {dataLen : ℕ} {u : ClientBuf c}

/-- A receive whose cursor is at the LAST segment holds the whole message. -/
theorem RecvInv.whole (ri : RecvInv c b r) (hlast : r.curSegBuf.last = true)
    (hb : Created c dataLen u b) (hclass : ibIsMadClassRmpp c.mgmtClass = true) :
    r.segNum = b.segCount ∧ Whole c dataLen b ⟨r.rmppList, r.segNum, getMadLen c r⟩ := by
  have hcur := ri.auth _ ri.inv.curMem
  have hcount : r.segNum = b.segCount := ri.inv.curNum ▸ hcur.num.2.2.mp hlast
  refine ⟨hcount, ?_, ?_⟩
  · have hnums : r.rmppList.map getSegNum = numbered b.segCount := by
      refine eq_numbered ri.inv.incr fun i => ⟨?_, ?_⟩
      · rintro ⟨x, hx, rfl⟩
        exact ⟨(ri.auth x hx).num.1, (ri.auth x hx).num.2.1⟩
      · rintro ⟨h₁, h₂⟩
        exact ri.inv.filled i h₁ (hcount ▸ h₂)
    have hself : r.rmppList.map (fun x => dataMad b ((getSegNum x).toNat : ℕ) (getSegNum x).toNat) =
        r.rmppList := by
      refine (List.map_congr_left fun x hx => ?_).trans (List.map_id _)
      have h₁ := (ri.auth x hx).num.1
      exact ((ri.auth x hx).eq (Int.toNat_of_nonneg (by omega)).symm).symm
    have hsplit : r.rmppList.map
        (fun x => dataMad b ((getSegNum x).toNat : ℕ) (getSegNum x).toNat) =
        (r.rmppList.map getSegNum).map fun i => dataMad b (i.toNat : ℕ) i.toNat := by
      rw [List.map_map]
      rfl
    rw [← hself, hsplit, hnums]
    unfold numbered
    rw [List.map_map, Int.toNat_natCast]
    rfl
  · have hpad := hcur.pad hlast hclass hb.size hb.padLe
    have hlen : (b.segCount : ℤ) * c.dataSize = dataLen + b.pad := by
      exact_mod_cast hb.length.symm
    change toInt (c.hdrSize + r.segNum * c.dataSize - rmppPad c r.curSegBuf) = _
    rw [hpad, hcount, hlen, ← add_assoc, add_sub_cancel_right]

/-- An ACK of the receive speaks of kept segments. -/
theorem RecvInv.kept_ack (ri : RecvInv c b r) {a : Ack} (ha : a.segNum = toU 32 r.segNum)
    (hcount : b.segCount < 2 ^ 24) : toInt a.segNum = r.segNum ∧ Kept r.rmppList r.segNum := by
  have h₁ := ri.inv.one_le_seg_num
  have h₂ := ri.seg_num_le
  obtain ⟨n, hn⟩ : ∃ n : ℕ, r.segNum = n := ⟨r.segNum.toNat, by omega⟩
  refine ⟨?_, ri.inv.filled⟩
  rw [ha, hn, toU_of_lt (by omega), toInt_of_lt (by omega)]

theorem Created.count_lt (hb : Created c dataLen u b) : b.segCount < 2 ^ 24 := by
  have h₁ := hb.fits
  rw [hb.length] at h₁
  have h₂ : b.segCount * 192 ≤ b.segCount * c.dataSize :=
    Nat.mul_le_mul_left _ (dataSize_bounds c).1
  omega

end Message

/-- Only an ACK that is taken moves `last_ack`. -/
theorem runAct_last_ack (b : SendBuf) (wr : SendWr) (a : SendAct) :
    (runAct b wr a).1.rc.lastAck = wr.rc.lastAck ∨ ∃ m env, a = .ack m env ∧
        (runAct b wr a).1.rc.lastAck = max wr.rc.lastAck (toInt m.segNum) := by
  cases runAct_effect b wr a with
  | keep hrc _ => exact .inl (by rw [hrc])
  | next env _ _ _ hrc _ => exact .inl (by rw [hrc, sendNextSeg_last_ack])
  | ack m env ha _ hrc _ =>
    obtain ⟨-, -, -, hl⟩ := ackRc_fields b wr.rc (toInt m.segNum) (toInt m.newwin)
    exact .inr ⟨m, env, ha, by rw [hrc, hl]⟩
  | ackNext m env ha _ _ _ hrc _ =>
    obtain ⟨-, -, -, hl⟩ := ackRc_fields b wr.rc (toInt m.segNum) (toInt m.newwin)
    exact .inr ⟨m, env, ha, by rw [hrc, sendNextSeg_last_ack, hl]⟩
  | retry env _ _ hrc _ _ =>
    refine .inl ?_
    rw [hrc, sendNextSeg_last_ack]
    rfl

/-- What holds of both ends and the network. -/
structure LinkInv (c : Cfg) (dataLen : ℕ) (b : SendBuf) (l : Link) : Prop where
  snd : SendInv b l.snd
  classOk : ibIsMadClassRmpp c.mgmtClass = true ∨ l.snd.wr = none ∧ l.snd.sent = []
  recv : ∀ r, l.recv = some r → RecvInv c b r
  auth : ∀ x ∈ l.kept, Auth b x
  done : ∀ d ∈ l.done, Whole c dataLen b d
  full : l.done ≠ [] → Kept l.kept b.segCount
  acks : ∀ a ∈ l.acks, Kept l.kept (toInt a.segNum)
  responded : l.responded = true → l.done ≠ []
  lastAck : ∀ wr, l.snd.wr = some wr → Kept l.kept wr.rc.lastAck
  ref : ∀ wr, l.snd.wr = some wr → wr.list ≠ .gone → RefInv b (Kept l.kept b.segCount) wr
  reports : .success ∈ l.reports → Kept l.kept b.segCount

section Steps

variable {c : Cfg} {dataLen : ℕ} {b : SendBuf} {l : Link} {u : ClientBuf c}

section
variable (inv : LinkInv c dataLen b l)
include inv

/-- STEP: a DATA MAD of the message at the receiver. -/
theorem LinkInv.data (hb : Created c dataLen u b) {seg : Seg}
    {env : Env} (hok : linkOk l (.data seg env)) :
    LinkInv c dataLen b (linkStep c b l (.data seg env)) := by
  obtain ⟨t, ht, rfl⟩ := hok
  have hseg : Auth b t.seg := (inv.snd.tx t ht).auth
  have hclass : ibIsMadClassRmpp c.mgmtClass = true := by
    refine inv.classOk.resolve_right fun ⟨_, hnil⟩ => ?_
    rw [hnil] at ht
    cases ht
  have hcount := hb.count_lt
  have hspec := @processRmppData_auth c b t.seg env l.recv inv.recv hseg hcount
  unfold linkStep
  dsimp only
  generalize processRmppData c l.recv t.seg env = p at *
  obtain ⟨recv, out⟩ := p
  have hold : ∀ x ∈ l.kept, x ∈ l.kept ++ (recv.map Recv.rmppList).getD [] :=
    fun x hx => List.mem_append_left _ hx
  have hkept (k : ℤ) (h : Kept l.kept k) : Kept (l.kept ++ (recv.map Recv.rmppList).getD []) k :=
    h.mono hold
  have hsame : LinkInv c dataLen b { l with
      kept := l.kept ++ (recv.map Recv.rmppList).getD [] } → recv = l.recv → out.done = none →
      out.ack = none → LinkInv c dataLen b { l with
        recv := recv
        done := l.done ++ out.done.toList
        acks := l.acks ++ out.ack.toList
        kept := l.kept ++ (recv.map Recv.rmppList).getD [] } := by
    intro h hr hd ha
    rw [hd, ha, Option.toList_none, Option.toList_none, append_nil, append_nil]
    exact { h with recv := fun r h => inv.recv r (hr ▸ h) }
  have hauth : (∀ r, recv = some r → RecvInv c b r) →
      ∀ x ∈ l.kept ++ (recv.map Recv.rmppList).getD [], Auth b x := by
    intro hrecv x hx
    rcases List.mem_append.mp hx with hx | hx
    · exact inv.auth x hx
    · cases recv with
      | none => cases hx
      | some r => exact (hrecv r rfl).auth x hx
  rcases hspec with ⟨hr, hd, ha⟩ | ⟨r, rfl, hri, hout⟩
  · refine hsame ?_ hr hd ha
    exact { inv with
      auth := hauth fun r h => inv.recv r (hr ▸ h)
      full := fun h => hkept _ (inv.full h)
      acks := fun a h => hkept _ (inv.acks a h)
      lastAck := fun wr h => hkept _ (inv.lastAck wr h)
      ref := fun wr h₁ h₂ =>
        { inv.ref wr h₁ h₂ with done := fun h₃ h₄ => hkept _ ((inv.ref wr h₁ h₂).done h₃ h₄) }
      reports := fun h => hkept _ (inv.reports h) }
  · have hnew : ∀ x ∈ r.rmppList, x ∈ l.kept ++ ((some r).map Recv.rmppList).getD [] :=
      fun x hx => List.mem_append_right _ hx
    have hdone : ∀ d, out.done = some d → Whole c dataLen b d ∧ Kept r.rmppList b.segCount := by
      intro d hd
      obtain ⟨rfl, hlast⟩ := hout.done d hd
      obtain ⟨hn, hw⟩ := hri.whole hlast hb hclass
      exact ⟨hw, fun i h₁ h₂ => hri.inv.filled i h₁ (hn ▸ h₂)⟩
    refine {
      snd := inv.snd
      classOk := .inl hclass
      recv := fun r' h => by cases h; exact hri
      auth := hauth fun r' h => by cases h; exact hri
      done := fun d hd => ?_
      full := fun h => ?_
      acks := fun a ha => ?_
      responded := fun h hnil => inv.responded h (List.append_eq_nil_iff.mp hnil).1
      lastAck := fun wr h => hkept _ (inv.lastAck wr h)
      ref := fun wr h₁ h₂ =>
        { inv.ref wr h₁ h₂ with done := fun h₃ h₄ => hkept _ ((inv.ref wr h₁ h₂).done h₃ h₄) }
      reports := fun h => hkept _ (inv.reports h) }
    · rcases List.mem_append.mp hd with hd | hd
      · exact inv.done d hd
      · exact (hdone d (Option.mem_toList.mp hd)).1
    · by_cases hnil : l.done = []
      · cases hd : out.done with
        | none =>
          rw [hnil, hd] at h
          exact absurd rfl h
        | some d => exact (hdone d hd).2.mono hnew
      · exact hkept _ (inv.full hnil)
    · rcases List.mem_append.mp ha with ha | ha
      · exact hkept _ (inv.acks a ha)
      · obtain ⟨hn, hk⟩ := hri.kept_ack (hout.ack a (Option.mem_toList.mp ha)) hcount
        rw [hn]
        exact hk.mono hnew

/-- STEP: the send is posted. -/
theorem LinkInv.post {hdr : MadHdr} {dlid : Option ℕ}
    {env : SendEnv} : LinkInv c dataLen b (linkStep c b l (.sender (.post hdr dlid env))) := by
  unfold linkStep postRefused
  dsimp only
  cases hclass : ibIsMadClassRmpp c.mgmtClass with
  | false => exact inv
  | true =>
    rw [if_neg (by simp)]
    have hsnd := inv.snd.step (.post hdr dlid env)
    have hreport : sendReport b l.snd (.post hdr dlid env) = none := by
      unfold sendReport
      cases l.snd.wr <;> rfl
    rw [hreport, Option.toList_none, append_nil]
    unfold sendStep at hsnd ⊢
    cases hwr : l.snd.wr with
    | some wr => exact { inv with classOk := .inl hclass }
    | none =>
      rw [hwr] at hsnd
      dsimp only at hsnd ⊢
      generalize initNewwin hdr dlid l.snd.rmppList = newwin at *
      have hack : (ibSendRmppMad b newwin env).1.rc.lastAck = 0 := by
        rw [(ibSendRmppMad_rc b newwin env).1, sendNextSeg_last_ack]
        rfl
      refine { inv with snd := hsnd, classOk := .inl hclass, lastAck := ?_, ref := ?_ }
      · intro wr h i h₁ h₂
        cases h
        omega
      · intro wr h hlive
        cases h
        have hpos : 1 ≤ b.segCount := b.segCountPos
        have hne : (ibSendRmppMad b newwin env).1.rc.lastAck ≠ b.segCount := by
          omega
        unfold ibSendRmppMad at hlive hne ⊢
        dsimp only at hlive hne ⊢
        cases htx : ((newSendWr b newwin).sendNext b env).2 with
        | none =>
          rw [htx] at hlive
          exact absurd rfl hlive
        | some t =>
          rw [htx] at hne
          rw [if_neg (by simp)] at hne ⊢
          have ht : ((newSendWr b newwin).sendNext b env).1.timeout = true := by
            unfold SendWr.sendNext newSendWr
            rcases Nat.eq_zero_or_pos b.timeoutMs with hz | hz
            · simp [hz]
            · simp [hz]
          have hp : ((newSendWr b newwin).sendNext b env).1.posted = true := by
            unfold SendWr.sendNext at htx ⊢
            dsimp only at htx ⊢
            rw [htx]
            rfl
          refine ⟨⟨?_, fun h => (by cases h), fun h => ?_⟩, fun h => absurd h hne⟩
          · rw [respRef_of_true ht rfl]
            unfold SendWr.madRef
            rw [if_pos hp]
            rfl
          · rw [ht] at h
            cases h

/-- STEP: anything else at the sender. -/
theorem LinkInv.sender {a : SendAct}
    (hstep : sendStep b l.snd a = l.snd.onSend fun wr => runAct b wr a)
    (hrefused : postRefused c a = false) (hok : linkOk l (.sender a)) :
    LinkInv c dataLen b (linkStep c b l (.sender a)) := by
  have hsnd := inv.snd.step a
  unfold linkStep
  dsimp only
  rw [if_neg (by simp [hrefused])]
  rw [hstep] at hsnd ⊢
  unfold SendWorld.onSend sendReport at *
  cases hwr : l.snd.wr with
  | none =>
    rw [Option.toList_none, append_nil]
    exact inv
  | some wr =>
    rw [hwr] at hsnd
    dsimp only at hsnd ⊢
    have hclass : ibIsMadClassRmpp c.mgmtClass = true := by
      refine inv.classOk.resolve_right fun ⟨hnone, _⟩ => ?_
      rw [hwr] at hnone
      cases hnone
    have hkack : Kept l.kept (runAct b wr a).1.rc.lastAck := by
      rcases runAct_last_ack b wr a with h | ⟨m, env, rfl, h⟩
      · rw [h]
        exact inv.lastAck wr hwr
      · rw [h]
        intro i h₁ h₂
        rcases le_max_iff.mp h₂ with h₂ | h₂
        · exact inv.lastAck wr hwr i h₁ h₂
        · exact inv.acks m hok i h₁ h₂
    by_cases hgone : wr.list = .gone
    · obtain ⟨hrun, -, hrep⟩ := runAct_gone b hgone a
      rw [hrep, Option.toList_none, append_nil]
      refine { inv with snd := hsnd, classOk := .inl hclass, lastAck := ?_, ref := ?_ }
      · intro wr' h
        cases h
        exact hkack
      · intro wr' h hlive
        cases h
        rw [hrun] at hlive
        exact absurd hgone hlive
    · have hrun := (inv.ref wr hwr hgone).run a
        (fun m env ha _ hlast => by
          subst ha
          obtain ⟨-, -, -, hl⟩ := ackRc_fields b wr.rc (toInt m.segNum) (toInt m.newwin)
          rw [hl] at hlast
          intro i h₁ h₂
          rw [← hlast] at h₂
          rcases le_max_iff.mp h₂ with h₂ | h₂
          · exact inv.lastAck wr hwr i h₁ h₂
          · exact inv.acks m hok i h₁ h₂)
        (fun env ha => by
          subst ha
          exact inv.full (inv.responded hok))
      refine { inv with
        snd := hsnd, classOk := .inl hclass, lastAck := ?_, ref := ?_, reports := ?_ }
      · intro wr' h
        cases h
        exact hkack
      · intro wr' h hlive
        cases h
        exact hrun.inv hlive
      · intro h
        rcases List.mem_append.mp h with h | h
        · exact inv.reports h
        · exact hrun.report (Option.mem_toList.mp h)

theorem LinkInv.step (hb : Created c dataLen u b) {a : LinkAct}
    (hok : linkOk l a) : LinkInv c dataLen b (linkStep c b l a) := by
  cases a with
  | data seg env => exact inv.data hb hok
  | recvTimeout =>
    refine { inv with recv := fun r' hr' => ?_ }
    obtain ⟨r, hr, rfl⟩ := Option.map_eq_some_iff.mp hr'
    have hri := inv.recv r hr
    unfold Rmpp.recvTimeout
    split_ifs
    · exact { hri with inv := hri.inv.setState .timeout }
    · exact hri
  | recvForget => exact { inv with recv := fun r hr => by cases hr }
  | respond => exact { inv with responded := fun _ => hok }
  | sender a =>
    cases a with
    | dsAck key ack =>
      have hreport : sendReport b l.snd (.dsAck key ack) = none := by
        unfold sendReport
        cases l.snd.wr <;> rfl
      unfold linkStep postRefused
      dsimp only
      rw [if_neg (by simp), hreport, Option.toList_none, append_nil]
      exact { inv with snd := inv.snd.step (.dsAck key ack) }
    | post hdr dlid env => exact inv.post
    | sendDone status env => exact inv.sender rfl rfl hok
    | ack m env => exact inv.sender rfl rfl hok
    | response env => exact inv.sender rfl rfl hok
    | abort env => exact inv.sender rfl rfl hok
    | timeout env => exact inv.sender rfl rfl hok

end

end Steps

theorem LinkInv.init (c : Cfg) (dataLen : ℕ) (b : SendBuf) (l : List (RecvKey × Recv)) :
    LinkInv c dataLen b (linkInit l) where
  snd := ⟨fun _ h => (by cases h), fun _ h => (by cases h)⟩
  classOk := .inr ⟨rfl, rfl⟩
  recv _ h := by cases h
  auth _ h := by cases h
  done _ h := by cases h
  full h := absurd rfl h
  acks _ h := by cases h
  responded h := by cases h
  lastAck _ h := by cases h
  ref _ h := by cases h
  reports h := by cases h

/-- The payloads of the segments are those of the buffer, as far as the scatter entry goes. -/
theorem dataMad_payload (b : SendBuf) :
    ((range b.segCount).map fun i => dataMad b (i + 1 : ℕ) (i + 1)).map Seg.data =
      b.rmppList.map (·.take b.sgeLen) := by
  refine List.ext_getElem (by simp [SendBuf.segCount]) fun i h₁ h₂ => ?_
  have hi : i < b.rmppList.length := by simpa using h₂
  have hat := @SendBuf.dataAt_eq b (i + 1) (by omega) hi
  rw [Nat.add_sub_cancel, List.getElem?_eq_getElem hi, Option.some.injEq] at hat
  simp only [List.getElem_map, List.getElem_range]
  rw [hat]
  rfl

/-- No byte of the data is left out. -/
theorem Created.flatten {c : Cfg} {dataLen : ℕ} {u : ClientBuf c} {b : SendBuf}
    (hb : Created c dataLen u b) :
    (b.rmppList.map (·.take b.sgeLen)).flatten.take dataLen =
      b.rmppList.flatten.take dataLen := by
  have hlen : ∀ x ∈ b.rmppList, x.length = c.dataSize := by
    intro x hx
    rw [hb.list, List.mem_map] at hx
    obtain ⟨i, -, rfl⟩ := hx
    exact u.contentLen i
  rw [hb.sge]
  split_ifs with hshort
  · -- less than a segment of data: there is one segment
    have hone : b.rmppList.length = 1 := by
      have h₁ := hb.length
      have h₂ := hb.padLe
      have hpos := b.segCountPos
      have hlt : b.segCount * c.dataSize < 2 * c.dataSize := by omega
      have := lt_of_mul_lt_mul_right hlt (Nat.zero_le _)
      unfold SendBuf.segCount at this
      omega
    obtain ⟨x, hx⟩ := List.length_eq_one_iff.mp hone
    simp [hx, List.take_take]
  · have hself : b.rmppList.map (·.take c.dataSize) = b.rmppList := by
      refine (List.map_congr_left fun x hx => ?_).trans (List.map_id _)
      exact List.take_of_length_le (hlen x hx).le
    rw [hself]

/-- CORRECT: whatever the network does, a message that the receiver returns is the list of the DATA
    MADs of segments `1, …, seg_count`, it holds the data of the buffer, and its length is that of
    header and data; and the sender reports success only when every segment has been kept. -/
theorem rmpp_end_to_end {c : Cfg} {dataLen : ℕ} {u : ClientBuf c} {allocOk : Bool} {b : SendBuf}
    {rmppList : List (RecvKey × Recv)} {l : Link} (hlen : dataLen < 2 ^ 31)
    (hb : ibCreateSendMad c dataLen u allocOk = some b)
    (h : Reach (linkStep c b) linkOk (linkInit rmppList) l) :
    (∀ d ∈ l.done,
      d.rmppList = (range b.segCount).map (fun i => dataMad b (i + 1 : ℕ) (i + 1)) ∧
      d.rmppList.map Seg.data = b.rmppList.map (·.take b.sgeLen) ∧
      (d.rmppList.map Seg.data).flatten.take dataLen = b.rmppList.flatten.take dataLen ∧
      d.madLen = toInt (c.hdrSize + dataLen)) ∧
    (.success ∈ l.reports → ∀ i : ℕ, 1 ≤ i → i ≤ b.segCount → dataMad b i i ∈ l.kept) := by
  have hcreated := created hlen hb
  have inv : LinkInv c dataLen b l :=
    @Reach.invariant _ _ _ _ _ _ (LinkInv c dataLen b) h (.init c dataLen b rmppList)
      fun w a hok inv => inv.step hcreated hok
  refine ⟨fun d hd => ?_, fun hs i h₁ h₂ => ?_⟩
  · obtain ⟨hlist, hmad⟩ := inv.done d hd
    have hdata : d.rmppList.map Seg.data = b.rmppList.map (·.take b.sgeLen) := by
      rw [hlist]
      exact dataMad_payload b
    exact ⟨hlist, hdata, hdata ▸ hcreated.flatten, hmad⟩
  · obtain ⟨x, hx, hxi⟩ := inv.reports hs i (by exact_mod_cast h₁) (by exact_mod_cast h₂)
    rwa [← (inv.auth x hx).eq hxi]

/-- Segments full of one byte. -/
def fullBuf : ClientBuf saCfg := ⟨fun i => List.replicate 200 i, fun _ => rfl, 0, 3, 0, fun _ => 0, []⟩

/-- 201 bytes in two segments. -/
def twoSegs : SendBuf :=
  ⟨[List.replicate 200 0, List.replicate 200 1], 220, 199, 200, 0, 3, 0, fun _ => 0, [], by decide,
    by decide⟩

theorem twoSegs_created : ibCreateSendMad saCfg 201 fullBuf true = some twoSegs := by
  have hpad : getPadSize saCfg 201 = 199 := by decide
  have hleft : toInt ((201 : ℕ) + (199 : ℕ)) = 400 := by decide
  have hcount : allocLoop saCfg.dataSize (400 : ℤ).toNat 400 = 2 := by decide +kernel
  unfold ibCreateSendMad
  simp only [hpad]
  rfl

/-- Segment 1 comes twice, its ACK late, segment 2 is sent by a retry: the message is returned once, and
    the sender is told. -/
theorem rmpp_end_to_end_two : ∃ l, Reach (linkStep saCfg twoSegs) linkOk (linkInit []) l ∧
    l.done.map Done.madLen = [257] ∧ .success ∈ l.reports ∧ dataMad twoSegs 2 2 ∈ l.kept := by
  have hreach : Reach (linkStep saCfg twoSegs) linkOk (linkInit [])
      ([.sender (.post request none sendAll), .data (dataMad twoSegs 1 1) allOk,
        .data (dataMad twoSegs 1 1) allOk, .sender (.sendDone .success sendAll),
        .sender (.ack ⟨0, 1, 65⟩ sendAll), .sender (.sendDone .success sendAll),
        .sender (.timeout sendAll), .data (dataMad twoSegs 2 2) allOk,
        .sender (.sendDone .success sendAll), .sender (.ack ⟨0, 2, 65⟩ sendAll)].foldl
        (linkStep saCfg twoSegs) (linkInit [])) := by
    refine Reach.runs .start ⟨trivial, ?_, ?_, trivial, ?_, trivial, trivial, ?_, trivial, ?_,
      trivial⟩
    · exact ⟨⟨dataMad twoSegs 1 1, 1, 1⟩, by decide +kernel, rfl⟩
    · exact ⟨⟨dataMad twoSegs 1 1, 1, 1⟩, by decide +kernel, rfl⟩
    · change (⟨0, 1, 65⟩ : Ack) ∈ _
      decide +kernel
    · exact ⟨⟨dataMad twoSegs 2 2, 2, 65⟩, by decide +kernel, rfl⟩
    · change (⟨0, 2, 65⟩ : Ack) ∈ _
      decide +kernel
  have hs : .success ∈ ([.sender (.post request none sendAll), .data (dataMad twoSegs 1 1) allOk,
        .data (dataMad twoSegs 1 1) allOk, .sender (.sendDone .success sendAll),
        .sender (.ack ⟨0, 1, 65⟩ sendAll), .sender (.sendDone .success sendAll),
        .sender (.timeout sendAll), .data (dataMad twoSegs 2 2) allOk,
        .sender (.sendDone .success sendAll), .sender (.ack ⟨0, 2, 65⟩ sendAll)].foldl
        (linkStep saCfg twoSegs) (linkInit [])).reports := by decide +kernel
  exact ⟨_, hreach, by decide +kernel, hs,
    (@rmpp_end_to_end saCfg 201 fullBuf true twoSegs [] _ (by norm_num) twoSegs_created hreach).2 hs 2
      (by norm_num) le_rfl⟩

end RdmaDriver.Rmpp
