import Mathlib.Data.List.Nodup
import RdmaDriver.Schemes.Run
import RdmaDriver.Mlx5.PollCq

/-! @src drivers/infiniband/hw/mlx5/umr.c | name:UMR posting and recovery | scheme:run | family:protocol

    All callers of `mlx5r_umr_post_send_wait` share one QP and one CQ. A caller posts its WQE under
    `umrc->lock`, sleeps until the poller completes its context, retries when the WQE was flushed,
    and when its own WQE failed it takes the QP through RESET back to RTS. Moving the QP to RESET
    throws away every WQE of its send queue and, with `mlx5_ib_cq_clean`, every CQE it left behind.

        ready --post--> waiting --poll--> woken SUCCESS --> done 0
          ^                               woken FLUSH ----> ready
          +--------------------------------- woken error --> RESET > INIT > RTR > RTS --> done -/

namespace RdmaDriver.Mlx5Umr
open Schemes Mlx5Cq Mlx5Wq Function
open Mlx5Poll hiding State

/-- The states of the UMR QP. -/
inductive QpState where | RESET | INIT | RTR | RTS | ERR
  deriving DecidableEq

/-- The `ib_modify_qp` calls of `mlx5r_umr_recover`, by the state they move to. -/
inductive Phase where | reset | init | rtr | rts
  deriving DecidableEq

/-- Where a caller of `mlx5r_umr_post_send_wait` stands. -/
inductive Caller where
  | done (err : Option Errno)
  | ready
  | waiting
  | woken (status : WcStatus)
  | recovering (phase : Phase)
  deriving DecidableEq

/-- `struct umr_common` with its QP and CQ, and the callers. `sq` is the send queue, oldest WQE
    first; WQEs and CQEs are named by the caller whose context they carry. -/
structure State where
  caller : ℕ → Caller
  sem : ℕ
  lock : Option ℕ
  umrcState : UmrState
  qp : QpState
  sq : List ℕ
  cq : List (ℕ × WcStatus)

/-- Everything that can happen next. The failures of the called functions are part of the label. -/
inductive Act where
  | enter (c : ℕ) (maskErr : Option Errno)
  | attempt (c : ℕ) (postErr : Option Errno)
  | hwSuccess
  | hwError (status : WcStatus)
  | hwFlush
  | poll
  | wake (c : ℕ)
  | recover (c : ℕ) (ok : Bool)
  deriving DecidableEq

/-- After `mlx5r_umr_resource_init`. -/
def init : State :=
  { caller := fun _ => .done none, sem := 128, lock := none, umrcState := .ACTIVE, qp := .RTS
    sq := [], cq := [] }

def State.set (s : State) (c : ℕ) (v : Caller) : State :=
  { s with caller := update s.caller c v }

/-- The end of the function: `up(&umrc->sem)` and return. -/
def State.leave (s : State) (c : ℕ) (err : Option Errno) : State :=
  { s.set c (.done err) with sem := s.sem + 1 }

/-- The state that polling a completion of the UMR QP leaves in `umrc.state`. -/
def polledState (status : WcStatus) (st : UmrState) : UmrState :=
  if status = .SUCCESS ∨ status = .WR_FLUSH_ERR then st else .RECOVER

/-- `mlx5r_umr_recover` leaves through its `err` label. -/
def State.recoverErr (s : State) (c : ℕ) : State :=
  { s.leave c (some .efault) with umrcState := .ERR, lock := none }

/-- One call of `ib_modify_qp` inside `mlx5r_umr_recover`. -/
def recoverPhase (s : State) (c : ℕ) : Phase → State
  | .reset => { s.set c (.recovering .init) with qp := .RESET, sq := [], cq := [] }
  | .init => { s.set c (.recovering .rtr) with qp := .INIT }
  | .rtr => { s.set c (.recovering .rts) with qp := .RTR }
  | .rts => { s.leave c (some .efault) with qp := .RTS, umrcState := .ACTIVE, lock := none }

/-- What a caller does once its context was completed. -/
def wake (s : State) (c : ℕ) (status : WcStatus) : State :=
  if status = .SUCCESS then s.leave c none
  else if status = .WR_FLUSH_ERR then s.set c .ready
  else { s.set c (.recovering .reset) with lock := some c }

/-- The locked section at the top of the loop of `mlx5r_umr_post_send_wait`. -/
def attempt (s : State) (c : ℕ) (postErr : Option Errno) : State :=
  match s.umrcState with
  | .ERR => s.leave c (some .efault)
  | .RECOVER => s
  | _ =>
    match postErr with
    | some e => s.leave c (some e)
    | none => { s.set c .waiting with sq := s.sq ++ [c] }

def step (s : State) : Act → State
  | .enter c (some e) => s.set c (.done (some e))
  | .enter c none => { s.set c .ready with sem := s.sem - 1 }
  | .attempt c postErr => attempt s c postErr
  | .hwSuccess =>
    match s.sq with
    | [] => s
    | c :: sq => { s with sq := sq, cq := s.cq ++ [(c, .SUCCESS)] }
  | .hwError status =>
    match s.sq with
    | [] => s
    | c :: sq => { s with sq := sq, cq := s.cq ++ [(c, status)], qp := .ERR }
  | .hwFlush =>
    match s.sq with
    | [] => s
    | c :: sq => { s with sq := sq, cq := s.cq ++ [(c, .WR_FLUSH_ERR)] }
  | .poll =>
    match s.cq with
    | [] => s
    | (c, status) :: cq =>
      { s.set c (.woken status) with cq := cq, umrcState := polledState status s.umrcState }
  | .wake c =>
    match s.caller c with
    | .woken status => wake s c status
    | _ => s
  | .recover c ok =>
    match s.caller c with
    | .recovering phase => if ok then recoverPhase s c phase else s.recoverErr c
    | _ => s

/-- When an action can happen: hardware works on the send queue in RTS and flushes it in ERR, and
    the locked sections need `umrc->lock`. -/
def enabled (s : State) : Act → Bool
  | .enter c maskErr =>
    match s.caller c with
    | .done _ => maskErr.isSome || decide (0 < s.sem)
    | _ => false
  | .attempt c _ => decide (s.caller c = .ready) && s.lock.isNone
  | .hwSuccess => decide (s.qp = .RTS) && !s.sq.isEmpty
  | .hwError status =>
    decide (s.qp = .RTS) && !s.sq.isEmpty &&
      decide (status ≠ .SUCCESS) && decide (status ≠ .WR_FLUSH_ERR)
  | .hwFlush => decide (s.qp = .ERR) && !s.sq.isEmpty
  | .poll => !s.cq.isEmpty
  | .wake c =>
    match s.caller c with
    | .woken status =>
      decide (status = .SUCCESS) || decide (status = .WR_FLUSH_ERR) || s.lock.isNone
    | _ => false
  | .recover c _ => match s.caller c with | .recovering _ => true | _ => false

/-- No completion is lost: a caller that waits has its WQE in the send queue of a QP that is not in
    RESET, or its CQE in the CQ. -/
def NoLoss (s : State) : Prop :=
  ∀ c, s.caller c = .waiting → (c ∈ s.sq ∧ s.qp ≠ .RESET) ∨ c ∈ s.cq.map Prod.fst

/-- A recovery moves the QP to RESET only after the send queue was flushed and the CQ drained. -/
def Drained (s : State) : Act → Prop
  | .recover c true => s.caller c = .recovering .reset → s.sq = [] ∧ s.cq = []
  | _ => True

instance (s : State) : ∀ a, Decidable (Drained s a)
  | .recover c true => inferInstanceAs (Decidable (s.caller c = .recovering .reset → _))
  | .recover _ false | .enter _ _ | .attempt _ _ | .hwSuccess | .hwError _ | .hwFlush | .poll
  | .wake _ => instDecidableTrue

/-! ### The invariant -/

/-- The waiting callers are exactly those with a WQE or a CQE, each with one of them; the send queue
    is only used in RTS and ERR, and while the lock is free a state that lets callers post means such
    a QP. A recovering caller holds the lock, and past RESET the send queue is empty. -/
structure Inv (s : State) : Prop where
  waiting : ∀ c, s.caller c = .waiting ↔ c ∈ s.sq ∨ c ∈ s.cq.map Prod.fst
  nodup : (s.sq ++ s.cq.map Prod.fst).Nodup
  queue : s.sq ≠ [] → s.qp = .RTS ∨ s.qp = .ERR
  usable : s.umrcState ≠ .ERR → s.umrcState ≠ .RECOVER → s.lock = none → s.qp = .RTS ∨ s.qp = .ERR
  lock : ∀ c phase, s.caller c = .recovering phase → s.lock = some c ∧ (phase ≠ .reset → s.sq = [])

section Steps

variable {s s' : State} {c : ℕ} {v : Caller} {phase : Phase} {status : WcStatus}

section
variable (h : Inv s)
include h

/-- A caller that neither waits nor starts to wait moves; the queues stay as they are. -/
theorem Inv.move (hc : s.caller c ≠ .waiting) (hv : v ≠ .waiting)
    (hcaller : s'.caller = update s.caller c v) (hsq : s'.sq = s.sq) (hcq : s'.cq = s.cq)
    (hqueue : s'.sq ≠ [] → s'.qp = .RTS ∨ s'.qp = .ERR)
    (husable : s'.umrcState ≠ .ERR → s'.umrcState ≠ .RECOVER → s'.lock = none →
      s'.qp = .RTS ∨ s'.qp = .ERR) (hlock : ∀ d phase, s'.caller d = .recovering phase →
      s'.lock = some d ∧ (phase ≠ .reset → s'.sq = [])) : Inv s' := by
  refine ⟨fun d => ?_, by rw [hsq, hcq]; exact h.nodup, hqueue, husable, hlock⟩
  rw [hcaller, hsq, hcq, ← h.waiting d]
  by_cases hd : d = c
  · subst hd
    rw [update_self]
    exact ⟨fun hw => absurd hw hv, fun hw => absurd hw hc⟩
  · rw [update_of_ne hd]

/-- A caller moves and nobody takes or leaves the lock. -/
theorem Inv.moveFree (hc : s.caller c ≠ .waiting) (hv : v ≠ .waiting)
    (hrec : ∀ phase, v ≠ .recovering phase) (hcaller : s'.caller = update s.caller c v)
    (hsq : s'.sq = s.sq) (hcq : s'.cq = s.cq) (hqp : s'.qp = s.qp)
    (hst : s'.umrcState = s.umrcState) (hl : s'.lock = s.lock) : Inv s' := by
  refine h.move hc hv hcaller hsq hcq (by rw [hsq, hqp]; exact h.queue)
    (by rw [hst, hl, hqp]; exact h.usable) fun d phase hd => ?_
  rw [hl, hsq]
  rw [hcaller] at hd
  by_cases hdc : d = c
  · subst hdc
    rw [update_self] at hd
    exact absurd hd (hrec phase)
  · rw [update_of_ne hdc] at hd
    exact h.lock d phase hd

/-- The recovering caller moves on, or out of the recovery. -/
theorem Inv.moveLocked (hc : s.caller c = .recovering phase) (hv : v ≠ .waiting)
    (hrec : ∀ phase', v = .recovering phase' → s'.lock = some c ∧ (phase' ≠ .reset → s'.sq = []))
    (hcaller : s'.caller = update s.caller c v) (hsq : s'.sq = s.sq) (hcq : s'.cq = s.cq)
    (hqueue : s'.sq ≠ [] → s'.qp = .RTS ∨ s'.qp = .ERR)
    (husable : s'.umrcState ≠ .ERR → s'.umrcState ≠ .RECOVER → s'.lock = none →
      s'.qp = .RTS ∨ s'.qp = .ERR) : Inv s' := by
  refine h.move (by rw [hc]; exact Caller.noConfusion) hv hcaller hsq hcq hqueue husable
    fun d phase' hd => ?_
  rw [hcaller] at hd
  by_cases hdc : d = c
  · subst hdc
    rw [update_self] at hd
    exact hrec phase' hd
  · -- the lock has one holder
    rw [update_of_ne hdc] at hd
    exact absurd (Option.some.inj ((h.lock d phase' hd).1.symm.trans (h.lock c phase hc).1)) hdc

/-- Hardware moves the oldest WQE into the CQ. -/
theorem Inv.complete {sq : List ℕ} (hsq : s.sq = c :: sq)
    (hcaller : s'.caller = s.caller) (hsq' : s'.sq = sq) (hcq' : s'.cq = s.cq ++ [(c, status)])
    (hl : s'.lock = s.lock) (hqp : s'.qp = .RTS ∨ s'.qp = .ERR) : Inv s' := by
  refine ⟨fun d => ?_, ?_, fun _ => hqp, fun _ _ _ => hqp, fun d phase hd => ?_⟩
  · rw [hcaller, h.waiting d, hsq, hsq', hcq']
    simp only [List.mem_cons, List.map_append, List.map_cons, List.mem_append]
    tauto
  · have hnodup := h.nodup
    rw [hsq] at hnodup
    rw [hsq', hcq', List.map_append, ← List.append_assoc]
    exact (List.perm_append_singleton c (sq ++ s.cq.map Prod.fst)).nodup_iff.mpr hnodup
  · rw [hcaller] at hd
    obtain ⟨hlock, hempty⟩ := h.lock d phase hd
    refine ⟨hl.trans hlock, fun hne => ?_⟩
    have hnil := hempty hne
    rw [hsq] at hnil
    cases hnil

theorem inv_attempt (postErr : Option Errno) (hc : s.caller c = .ready)
    (hl : s.lock = none) : Inv (attempt s c postErr) := by
  have hleave : ∀ e, Inv (s.leave c e) := fun e =>
    h.moveFree (v := .done e) (by rw [hc]; exact Caller.noConfusion) Caller.noConfusion
      (fun _ => Caller.noConfusion) rfl rfl rfl rfl rfl rfl
  unfold attempt
  split
  · exact hleave _
  · exact h
  · rename_i herr hrec
    cases postErr with
    | some e => exact hleave _
    | none =>
      have hqp := h.usable herr hrec hl
      have hnew : c ∉ s.sq ++ s.cq.map Prod.fst := by
        rw [List.mem_append, ← h.waiting c, hc]
        exact Caller.noConfusion
      refine ⟨fun d => ?_, ?_, fun _ => hqp, fun _ _ _ => hqp, fun d phase hd => ?_⟩
      · by_cases hd : d = c
        · subst hd
          simp [State.set]
        · simp [State.set, h.waiting d, hd]
      · simp only
        rw [List.append_assoc, List.singleton_append]
        exact List.nodup_middle.mpr (List.nodup_cons.mpr ⟨hnew, h.nodup⟩)
      · -- nobody recovers while the lock is free
        by_cases hdc : d = c
        · subst hdc
          simp [State.set] at hd
        · simp only [State.set, update_of_ne hdc] at hd
          have hlock := (h.lock d phase hd).1
          rw [hl] at hlock
          cases hlock

theorem inv_poll {cq : List (ℕ × WcStatus)} (hcq : s.cq = (c, status) :: cq) :
    Inv { s.set c (.woken status) with
      cq := cq, umrcState := polledState status s.umrcState } := by
  have hnodup := h.nodup
  rw [hcq, List.map_cons] at hnodup
  have hmid := List.nodup_cons.mp (List.nodup_middle.mp hnodup)
  have hother : c ∉ s.sq ∧ c ∉ cq.map Prod.fst := by
    simpa using hmid.1
  refine ⟨fun d => ?_, hmid.2, h.queue, fun herr hrec hl => ?_, fun d phase hd => ?_⟩
  · by_cases hd : d = c
    · subst hd
      simp only [State.set, update_self]
      exact ⟨fun hw => Caller.noConfusion hw, fun hw => absurd hw (not_or.mpr hother)⟩
    · simp only [State.set, update_of_ne hd, h.waiting d, hcq, List.map_cons,
        List.mem_cons, hd, false_or]
  · -- polling an error leaves RECOVER, anything else the old state
    have hst : polledState status s.umrcState = s.umrcState := by
      unfold polledState at hrec ⊢
      split
      · rfl
      · rename_i hs
        simp only [if_neg hs, ne_eq, not_true_eq_false] at hrec
    simp only [hst] at herr hrec
    exact h.usable herr hrec hl
  · by_cases hdc : d = c
    · subst hdc
      simp [State.set] at hd
    · simp only [State.set, update_of_ne hdc] at hd
      exact h.lock d phase hd

theorem inv_wake (hc : s.caller c = .woken status)
    (hl : status = .SUCCESS ∨ status = .WR_FLUSH_ERR ∨ s.lock = none) : Inv (wake s c status) := by
  have hw : s.caller c ≠ .waiting := by
    rw [hc]
    exact Caller.noConfusion
  unfold wake
  split
  · exact h.moveFree (v := .done none) hw Caller.noConfusion (fun _ => Caller.noConfusion) rfl rfl rfl
      rfl rfl rfl
  split
  · exact h.moveFree (v := .ready) hw Caller.noConfusion (fun _ => Caller.noConfusion) rfl rfl rfl
      rfl rfl rfl
  · rename_i hsucc hflush
    have hfree : s.lock = none := (hl.resolve_left hsucc).resolve_left hflush
    refine h.move (v := .recovering .reset) hw Caller.noConfusion rfl rfl rfl h.queue
      (fun _ _ hl' => by cases hl') fun d phase hd => ?_
    by_cases hdc : d = c
    · subst hdc
      simp only [State.set, update_self, Caller.recovering.injEq] at hd
      exact ⟨rfl, fun hne => absurd hd.symm hne⟩
    · simp only [State.set, update_of_ne hdc] at hd
      have hlock := (h.lock d phase hd).1
      rw [hfree] at hlock
      cases hlock

theorem inv_recoverPhase (hc : s.caller c = .recovering phase)
    (hdrained : phase = .reset → s.sq = [] ∧ s.cq = []) : Inv (recoverPhase s c phase) := by
  obtain ⟨hlock, hempty⟩ := h.lock c phase hc
  have hbusy : ∀ {P : Prop}, s.lock = none → P := fun hl => by
    rw [hl] at hlock
    cases hlock
  cases phase with
  | reset =>
    obtain ⟨hsq, hcq⟩ := hdrained rfl
    exact h.moveLocked hc Caller.noConfusion (fun _ _ => ⟨hlock, fun _ => rfl⟩) rfl hsq.symm hcq.symm
      (fun hne => absurd rfl hne) fun _ _ hl => hbusy hl
  | init =>
    have hsq := hempty Phase.noConfusion
    exact h.moveLocked hc Caller.noConfusion (fun _ _ => ⟨hlock, fun _ => hsq⟩) rfl rfl rfl
      (fun hne => absurd hsq hne) fun _ _ hl => hbusy hl
  | rtr =>
    have hsq := hempty Phase.noConfusion
    exact h.moveLocked hc Caller.noConfusion (fun _ _ => ⟨hlock, fun _ => hsq⟩) rfl rfl rfl
      (fun hne => absurd hsq hne) fun _ _ hl => hbusy hl
  | rts =>
    exact h.moveLocked (v := .done (some .efault)) hc Caller.noConfusion
      (fun _ hv => Caller.noConfusion hv) rfl rfl rfl (fun _ => .inl rfl) fun _ _ _ => .inl rfl

theorem inv_recoverErr (hc : s.caller c = .recovering phase) : Inv (s.recoverErr c) :=
  h.moveLocked (v := .done (some .efault)) hc Caller.noConfusion
    (fun _ hv => Caller.noConfusion hv) rfl rfl rfl h.queue fun herr => absurd rfl herr

end

/-- STEP: every action keeps the invariant, a RESET provided that the queues were drained. -/
theorem inv_step (s : State) (a : Act) (hok : enabled s a = true ∧ Drained s a) (h : Inv s) :
    Inv (step s a) := by
  obtain ⟨hen, hdr⟩ := hok
  cases a with
  | enter c maskErr =>
    have hc : s.caller c ≠ .waiting := by
      intro hw
      simp [enabled, hw] at hen
    cases maskErr with
    | some e =>
      exact h.moveFree (v := .done (some e)) hc Caller.noConfusion (fun _ => Caller.noConfusion) rfl
        rfl rfl rfl rfl rfl
    | none =>
      exact h.moveFree (v := .ready) hc Caller.noConfusion (fun _ => Caller.noConfusion) rfl rfl rfl
        rfl rfl rfl
  | attempt c postErr =>
    simp only [enabled, Bool.and_eq_true, decide_eq_true_eq, Option.isNone_iff_eq_none] at hen
    exact inv_attempt h postErr hen.1 hen.2
  | hwSuccess =>
    simp only [enabled, Bool.and_eq_true, decide_eq_true_eq] at hen
    cases hsq : s.sq with
    | nil => simpa only [step, hsq] using h
    | cons c sq =>
      simp only [step, hsq]
      exact h.complete hsq rfl rfl rfl rfl (.inl hen.1)
  | hwError status =>
    cases hsq : s.sq with
    | nil => simpa only [step, hsq] using h
    | cons c sq =>
      simp only [step, hsq]
      exact h.complete hsq rfl rfl rfl rfl (.inr rfl)
  | hwFlush =>
    simp only [enabled, Bool.and_eq_true, decide_eq_true_eq] at hen
    cases hsq : s.sq with
    | nil => simpa only [step, hsq] using h
    | cons c sq =>
      simp only [step, hsq]
      exact h.complete hsq rfl rfl rfl rfl (.inr hen.1)
  | poll =>
    cases hcq : s.cq with
    | nil => simpa only [step, hcq] using h
    | cons e cq =>
      simp only [step, hcq]
      exact inv_poll h hcq
  | wake c =>
    simp only [step]
    split
    · rename_i status hc
      simp only [enabled, hc, Bool.or_eq_true, decide_eq_true_eq, Option.isNone_iff_eq_none,
        or_assoc] at hen
      exact inv_wake h hc hen
    · exact h
  | recover c ok =>
    simp only [step]
    split
    · rename_i phase hc
      cases ok with
      | false => exact inv_recoverErr h hc
      | true => exact inv_recoverPhase h hc fun hreset => hdr (hreset ▸ hc)
    · exact h

end Steps

theorem inv_init : Inv init := by
  refine ⟨fun c => ?_, List.nodup_nil, fun hne => absurd rfl hne, fun _ _ _ => .inl rfl, ?_⟩
  · simp [init]
  · intro c phase hc
    cases hc

/-- CORRECT: whatever the callers, hardware and the poller do, and in whatever order, no completion
    is lost as long as every recovery finds the send queue flushed and the CQ drained when it moves
    the QP to RESET. -/
theorem umr_no_loss_of_drained {s : State}
    (h : Reach step (fun s a => enabled s a = true ∧ Drained s a) init s) : NoLoss s := by
  have hinv : Inv s := h.invariant inv_init inv_step
  intro c hc
  rcases (hinv.waiting c).mp hc with hsq | hcq
  · refine .inl ⟨hsq, fun hreset => ?_⟩
    rcases hinv.queue (List.ne_nil_of_mem hsq) with hqp | hqp
    · rw [hqp] at hreset
      cases hreset
    · rw [hqp] at hreset
      cases hreset
  · exact .inr hcq

/-- Two callers post; hardware fails the WQE of the first and flushes that of the second. -/
def failFirst : List Act :=
  [.enter 0 none, .enter 1 none, .attempt 0 none, .attempt 1 none, .hwError .LOC_PROT_ERR]

/-- With the flush polled first, the second caller retries and completes after the recovery. -/
def drainedRun : List Act :=
  failFirst ++ [.hwFlush, .poll, .poll, .wake 0, .recover 0 true, .recover 0 true, .recover 0 true,
    .recover 0 true, .wake 1, .attempt 1 none]

theorem umr_no_loss_of_drained_run :
    (drainedRun.foldl step init).caller 1 = .waiting ∧ NoLoss (drainedRun.foldl step init) :=
  ⟨by decide, umr_no_loss_of_drained (Reach.start.runs (l := drainedRun) (by decide))⟩

/-- The first caller recovers before the second one's WQE was flushed. -/
def earlyRun : List Act := failFirst ++ [.poll, .wake 0, .recover 0 true]

/-- The recovery of the first caller discards the WQE of the second, which waits on. -/
theorem umr_recovery_loses_wqe :
    Reach step (fun s a => enabled s a = true) init (earlyRun.foldl step init) ∧
      (earlyRun.foldl step init).caller 1 = .waiting ∧
      (earlyRun.foldl step init).sq = [] ∧ (earlyRun.foldl step init).cq = [] ∧
      ¬ NoLoss (earlyRun.foldl step init) := by
  refine ⟨Reach.start.runs (l := earlyRun) (by decide), by decide, by decide, by decide, ?_⟩
  intro hno
  rcases hno 1 (by decide) with hl | hl
  · exact absurd hl.1 (by decide)
  · exact absurd hl (by decide)

end RdmaDriver.Mlx5Umr
