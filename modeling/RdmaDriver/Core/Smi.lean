import Mathlib.Logic.Function.Iterate
import Mathlib.Tactic.Ring
import RdmaDriver.Basic

/-! @src drivers/infiniband/core/smi.c, mad.c | name:Directed route SMPs | scheme:run | family:routing

    A directed-route SMP carries the ports by which it leaves the nodes of its route in
    `initial_path`; each node it enters records the entry port in `return_path`, and the response
    goes back by these. `hop_ptr` says where on the route the SMP is. A node that sends an SMP runs
    `handle_outgoing_dr_smp`, a node that receives one runs `handle_ib_smi`. Creating an address
    handle and a send buffer for a forwarded SMP is taken to succeed.

        node 0 --x₁--> e₁ node 1 --x₂--> e₂ node 2 -- … --> eₙ node n
        (SM)   hop_ptr 1          hop_ptr 2        hop_ptr n    (SMA: n + 1) -/

namespace RdmaDriver.Smi
open Function

/-- The fields of `struct ib_smp` that route it; `direction` is the D bit of `status` and `response`
    what `ib_response_mad` says of the method. -/
structure Smp where
  hopPtr : ℕ
  hopCnt : ℕ
  direction : Bool
  response : Bool
  drSlid : ℕ
  drDlid : ℕ
  initialPath : ℕ → ℕ
  returnPath : ℕ → ℕ

/-- `IB_SMP_MAX_PATH_HOPS`: the length of both path arrays. -/
def IB_SMP_MAX_PATH_HOPS : ℕ := 64

/-- `IB_LID_PERMISSIVE`. -/
def IB_LID_PERMISSIVE : ℕ := 0xFFFF

/-- `enum smi_action`. -/
inductive SmiAction where
  | discard | handle
  deriving DecidableEq

/-- `enum smi_forward_action`. -/
inductive SmiForwardAction where
  | local | send | forward
  deriving DecidableEq

/-- What `process_mad` returns: `IB_MAD_RESULT_FAILURE`, `_SUCCESS` alone, or with `_CONSUMED` or
    `_REPLY` and the reply it wrote. -/
inductive MadResult where
  | failure | success | consumed
  | reply (out : Smp)

/-- What the SMI code reads of `struct ib_device`, and whether the node's atomic allocations
    succeed. -/
structure Device where
  isSwitch : Bool
  physPortCnt : ℕ
  processMad : Option (Smp → MadResult)
  allocOk : Bool

/-! ### The path arrays -/

/-- Reading `path[i]`; `none` is an access outside the array. -/
def pathAt (path : ℕ → ℕ) (i : ℤ) : Option ℕ :=
  if 0 ≤ i ∧ i < IB_SMP_MAX_PATH_HOPS then some (path i.toNat) else none

/-- `return_path[hop_ptr] = port_num`, a store into a `u8`. -/
def Smp.recordPort (smp : Smp) (portNum : ℕ) : Option Smp :=
  if smp.hopPtr < IB_SMP_MAX_PATH_HOPS then
    some { smp with
      returnPath := update smp.returnPath smp.hopPtr (portNum % 2 ^ 8) }
  else none

/-- `(*hop_ptr)++` of a `u8`. -/
def Smp.incHop (smp : Smp) : Smp := { smp with hopPtr := (smp.hopPtr + 1) % 2 ^ 8 }

/-- `(*hop_ptr)--` of a `u8`. -/
def Smp.decHop (smp : Smp) : Smp := { smp with hopPtr := (smp.hopPtr + (2 ^ 8 - 1)) % 2 ^ 8 }

/-- The SMP's next port must be the one it is sent on. -/
def handleIf (p : Prop) [Decidable p] : SmiAction := if p then .handle else .discard

/-! ### smi.c and smi.h -/

/-- `smi_handle_dr_smp_send`. -/
def smiHandleDrSmpSend (smp : Smp) (isSwitch : Bool) (portNum : ℕ) : Option (SmiAction × Smp) :=
  if IB_SMP_MAX_PATH_HOPS ≤ smp.hopCnt then some (.discard, smp)
  else if !smp.direction then
    -- C14-9:1
    if smp.hopCnt ≠ 0 ∧ smp.hopPtr = 0 then
      (pathAt smp.initialPath smp.incHop.hopPtr).map
        fun p => (handleIf (p = portNum), smp.incHop)
    -- C14-9:2
    else if smp.hopPtr ≠ 0 ∧ smp.hopPtr < smp.hopCnt then
      if !isSwitch then some (.discard, smp)
      else (pathAt smp.initialPath smp.incHop.hopPtr).map
        fun p => (handleIf (p = portNum), smp.incHop)
    -- C14-9:3
    else if smp.hopPtr = smp.hopCnt then
      some (handleIf (isSwitch ∨ smp.drDlid = IB_LID_PERMISSIVE), smp.incHop)
    -- C14-9:4, C14-9:5
    else some (handleIf (smp.hopPtr = smp.hopCnt + 1), smp)
  else
    -- C14-13:1
    if smp.hopCnt ≠ 0 ∧ smp.hopPtr = smp.hopCnt + 1 then
      (pathAt smp.returnPath smp.decHop.hopPtr).map
        fun p => (handleIf (p = portNum), smp.decHop)
    -- C14-13:2
    else if 2 ≤ smp.hopPtr ∧ smp.hopPtr ≤ smp.hopCnt then
      if !isSwitch then some (.discard, smp)
      else (pathAt smp.returnPath smp.decHop.hopPtr).map
        fun p => (handleIf (p = portNum), smp.decHop)
    -- C14-13:3
    else if smp.hopPtr = 1 then
      some (handleIf (isSwitch ∨ smp.drSlid = IB_LID_PERMISSIVE), smp.decHop)
    -- C14-13:4, C14-13:5
    else some (handleIf (smp.hopPtr = 0), smp)

/-- `smi_handle_dr_smp_recv`. -/
def smiHandleDrSmpRecv (smp : Smp) (isSwitch : Bool) (portNum physPortCnt : ℕ) :
    Option (SmiAction × Smp) :=
  if IB_SMP_MAX_PATH_HOPS ≤ smp.hopCnt then some (.discard, smp)
  else if !smp.direction then
    -- C14-9:1
    if smp.hopCnt ≠ 0 ∧ smp.hopPtr = 0 then some (.discard, smp)
    -- C14-9:2
    else if smp.hopPtr ≠ 0 ∧ smp.hopPtr < smp.hopCnt then
      if !isSwitch then some (.discard, smp)
      else (smp.recordPort portNum).bind fun smp =>
        (pathAt smp.initialPath (smp.hopPtr + 1)).map
          fun p => (handleIf (p ≤ physPortCnt), smp)
    -- C14-9:3
    else if smp.hopPtr = smp.hopCnt then
      (if smp.hopCnt ≠ 0 then smp.recordPort portNum else some smp).map
        fun smp => (handleIf (isSwitch ∨ smp.drDlid = IB_LID_PERMISSIVE), smp)
    -- C14-9:4, C14-9:5
    else some (handleIf (smp.hopPtr = smp.hopCnt + 1), smp)
  else
    -- C14-13:1
    if smp.hopCnt ≠ 0 ∧ smp.hopPtr = smp.hopCnt + 1 then
      (pathAt smp.returnPath smp.decHop.hopPtr).map
        fun p => (handleIf (p = portNum), smp.decHop)
    -- C14-13:2
    else if 2 ≤ smp.hopPtr ∧ smp.hopPtr ≤ smp.hopCnt then
      if !isSwitch then some (.discard, smp)
      else (pathAt smp.returnPath ((smp.hopPtr : ℤ) - 1)).map
        fun p => (handleIf (p ≤ physPortCnt), smp)
    -- C14-13:3
    else if smp.hopPtr = 1 then
      if smp.drSlid = IB_LID_PERMISSIVE then some (.handle, smp.decHop)
      else some (handleIf isSwitch, smp)
    -- C14-13:4, C14-13:5
    else some (handleIf (smp.hopPtr = 0), smp)

/-- `smi_check_forward_dr_smp`. -/
def smiCheckForwardDrSmp (smp : Smp) : SmiForwardAction :=
  if !smp.direction then
    if smp.hopPtr ≠ 0 ∧ smp.hopPtr < smp.hopCnt then .forward
    else if smp.hopPtr = smp.hopCnt then
      if smp.drDlid = IB_LID_PERMISSIVE then .send else .local
    else if smp.hopPtr = smp.hopCnt + 1 then .send
    else .local
  else
    if 2 ≤ smp.hopPtr ∧ smp.hopPtr ≤ smp.hopCnt then .forward
    else if smp.hopPtr = 1 then
      if smp.drSlid ≠ IB_LID_PERMISSIVE then .send else .local
    else .local

/-- `smi_get_fwd_port`. -/
def smiGetFwdPort (smp : Smp) : Option ℕ :=
  if !smp.direction then pathAt smp.initialPath (smp.hopPtr + 1)
  else pathAt smp.returnPath ((smp.hopPtr : ℤ) - 1)

/-- `smi_check_local_smp`. -/
def smiCheckLocalSmp (smp : Smp) (device : Device) : SmiAction :=
  handleIf (device.processMad.isSome ∧ smp.direction = false ∧ smp.hopPtr = smp.hopCnt + 1)

/-- `smi_check_local_returning_smp`. -/
def smiCheckLocalReturningSmp (smp : Smp) (device : Device) : SmiAction :=
  handleIf (device.processMad.isSome ∧ smp.direction = true ∧ smp.hopPtr = 0)

/-! ### mad.c -/

/-- The receive that `handle_outgoing_dr_smp` queues on `local_list`: none, the reply for the agent
    that sent the SMP, or the SMP itself for the agent that `find_mad_agent` names. -/
inductive LocalRecv where
  | none
  | sender (mad : Smp)
  | agent (mad : Smp)

/-- How `handle_outgoing_dr_smp` ends: an error code, `0` (the SMP is posted to the QP), or `1` (it
    was processed by this node). -/
inductive Outgoing where
  | err (e : Errno)
  | post (smp : Smp)
  | processed (smp : Smp) (recv : LocalRecv)

/-- `handle_outgoing_dr_smp` of an InfiniBand port, for an agent with a `recv_handler`. -/
def handleOutgoingDrSmp (device : Device) (portNum : ℕ) (smp : Smp) : Option Outgoing :=
  let drLid := if smp.direction then smp.drDlid else smp.drSlid
  let sent := if drLid = IB_LID_PERMISSIVE then smiHandleDrSmpSend smp device.isSwitch portNum
    else some (.handle, smp)
  sent.map fun (action, smp) =>
    if action = .discard then .err .einval
    else if smiCheckLocalSmp smp device = .discard ∧
        smiCheckLocalReturningSmp smp device = .discard then .post smp
    else if !device.allocOk then .err .enomem
    else match device.processMad with
      | none => .err .einval
      | some processMad => match processMad smp with
        | .reply out => .processed smp (if out.response then .sender out else .none)
        | .consumed => .processed smp .none
        | .success => .processed smp (.agent smp)
        | .failure => .err .einval

/-- How `handle_ib_smi` ends. A switch that forwards gives the SMP to `agent_send_response` for the
    port named here and then discards what it received. -/
inductive Incoming where
  | discard
  | handle (smp : Smp)
  | forward (port : ℕ) (smp : Smp)

/-- `handle_ib_smi`. -/
def handleIbSmi (device : Device) (portNum : ℕ) (smp : Smp) : Option Incoming :=
  (smiHandleDrSmpRecv smp device.isSwitch portNum device.physPortCnt).bind fun (action, smp) =>
    if action = .discard then some .discard
    else match smiCheckForwardDrSmp smp with
      | .local => some (.handle smp)
      | .send => (smiHandleDrSmpSend smp device.isSwitch portNum).map fun (action, smp) =>
          if action = .discard then .discard
          else if smiCheckLocalSmp smp device = .discard then .discard
          else .handle smp
      | .forward =>
          if device.isSwitch then (smiGetFwdPort smp).map fun port => .forward port smp
          else some (.handle smp)

/-! ### Array bounds -/

theorem pathAt_natCast (path : ℕ → ℕ) {i : ℕ} (h : i < IB_SMP_MAX_PATH_HOPS) :
    pathAt path i = some (path i) := by
  unfold pathAt
  rw [if_pos ⟨by omega, by exact_mod_cast h⟩, Int.toNat_natCast]

theorem Smp.incHop_hop_ptr {smp : Smp} (h : smp.hopPtr ≤ IB_SMP_MAX_PATH_HOPS) :
    smp.incHop.hopPtr = smp.hopPtr + 1 := by
  unfold IB_SMP_MAX_PATH_HOPS at h
  exact Nat.mod_eq_of_lt (by omega)

theorem Smp.decHop_hop_ptr {smp : Smp} (h₀ : 0 < smp.hopPtr)
    (h : smp.hopPtr ≤ IB_SMP_MAX_PATH_HOPS) : smp.decHop.hopPtr = smp.hopPtr - 1 := by
  unfold IB_SMP_MAX_PATH_HOPS at h
  simp only [Smp.decHop]
  omega

theorem recordPort_eq {smp : Smp} (port : ℕ) (h : smp.hopPtr < IB_SMP_MAX_PATH_HOPS) :
    smp.recordPort port = some { smp with
      returnPath := update smp.returnPath smp.hopPtr (port % 2 ^ 8) } := by
  unfold Smp.recordPort
  rw [if_pos h]

/-- BOUNDS: sending never reads outside the path arrays. -/
theorem smiHandleDrSmpSend_isSome (smp : Smp) (isSwitch : Bool) (portNum : ℕ) :
    (smiHandleDrSmpSend smp isSwitch portNum).isSome := by
  unfold smiHandleDrSmpSend
  split_ifs with hcnt hdir h1 h2
  all_goals try simp only [Option.isSome_some]
  · rw [Smp.incHop_hop_ptr (by omega), pathAt_natCast _ (by unfold IB_SMP_MAX_PATH_HOPS; omega)]
    rfl
  · rw [Smp.incHop_hop_ptr (by omega), pathAt_natCast _ (by omega)]
    rfl
  · rw [Smp.decHop_hop_ptr (by omega) (by omega), pathAt_natCast _ (by omega)]
    rfl
  · rw [Smp.decHop_hop_ptr (by omega) (by omega), pathAt_natCast _ (by omega)]
    rfl

/-- BOUNDS: receiving never reads or writes outside the path arrays. -/
theorem smiHandleDrSmpRecv_isSome (smp : Smp) (isSwitch : Bool) (portNum physPortCnt : ℕ) :
    (smiHandleDrSmpRecv smp isSwitch portNum physPortCnt).isSome := by
  unfold smiHandleDrSmpRecv
  split_ifs with hcnt hdir h1 h2
  all_goals try simp only [Option.isSome_some, Option.map_some]
  · rw [recordPort_eq _ (by omega), Option.bind_some, Option.isSome_map, ← Nat.cast_succ]
    rw [pathAt_natCast _ (Nat.lt_of_le_of_lt h2.2 (by omega))]
    rfl
  · rw [recordPort_eq _ (by omega)]
    rfl
  · rw [Smp.decHop_hop_ptr (by omega) (by omega), pathAt_natCast _ (by omega)]
    rfl
  · rw [← Nat.cast_pred (by omega), pathAt_natCast _ (by omega)]
    rfl

/-- Receiving leaves the hop count and the direction alone, and handles no hop count above 63. -/
theorem smiHandleDrSmpRecv_handle {smp smp' : Smp} {isSwitch : Bool} {portNum cnt : ℕ}
    {action : SmiAction}
    (h : smiHandleDrSmpRecv smp isSwitch portNum cnt = some (action, smp'))
    (ha : action ≠ .discard) : smp'.hopCnt < IB_SMP_MAX_PATH_HOPS := by
  have hcnt : smp'.hopCnt = smp.hopCnt := by
    unfold smiHandleDrSmpRecv Smp.recordPort at h
    split_ifs at h <;> simp at h <;> grind [Smp.decHop]
  by_contra hge
  unfold smiHandleDrSmpRecv at h
  rw [if_pos (by omega)] at h
  cases h
  exact ha rfl

theorem smiGetFwdPort_isSome {smp : Smp} (hcnt : smp.hopCnt < IB_SMP_MAX_PATH_HOPS)
    (h : smiCheckForwardDrSmp smp = .forward) : (smiGetFwdPort smp).isSome := by
  unfold smiCheckForwardDrSmp at h
  unfold smiGetFwdPort
  split_ifs at h ⊢ with hdir hmid hmid
  · rw [← Nat.cast_succ, pathAt_natCast _ (by omega)]
    rfl
  · rw [← Nat.cast_pred (by omega), pathAt_natCast _ (by omega)]
    rfl

/-- BOUNDS: `handle_outgoing_dr_smp` stays inside the path arrays, whatever the SMP holds. -/
theorem handleOutgoingDrSmp_isSome (device : Device) (portNum : ℕ) (smp : Smp) :
    (handleOutgoingDrSmp device portNum smp).isSome := by
  unfold handleOutgoingDrSmp
  simp only [Option.isSome_map]
  split_ifs
  all_goals first | exact smiHandleDrSmpSend_isSome _ _ _ | rfl

/-- BOUNDS: `handle_ib_smi` stays inside the path arrays, whatever the SMP holds. -/
theorem handleIbSmi_isSome (device : Device) (portNum : ℕ) (smp : Smp) :
    (handleIbSmi device portNum smp).isSome := by
  unfold handleIbSmi
  obtain ⟨⟨action, smp'⟩, hr⟩ := Option.isSome_iff_exists.mp
    (smiHandleDrSmpRecv_isSome smp device.isSwitch portNum device.physPortCnt)
  simp only [hr, Option.bind_some]
  by_cases ha : action = .discard
  · rw [if_pos ha]
    rfl
  · rw [if_neg ha]
    cases hf : smiCheckForwardDrSmp smp' with
    | «local» => rfl
    | send =>
      simp only [Option.isSome_map]
      exact smiHandleDrSmpSend_isSome _ _ _
    | forward =>
      by_cases hs : device.isSwitch
      · simp only [hs, if_true, Option.isSome_map]
        exact smiGetFwdPort_isSome (smiHandleDrSmpRecv_handle hr ha) hf
      · simp only [hs]
        rfl

/-! ### The fabric -/

/-- Devices and the cables between their ports. -/
structure Fabric (V : Type*) where
  device : V → Device
  link : V → ℕ → Option (V × ℕ)
  linkSymm : ∀ {v w p q}, link v p = some (w, q) → link w q = some (v, p)

/-- Where an SMP is: on the send queue of a port, just received on a port, given to `process_mad` and
    the agents of the node that received it, processed by the node that sent it, or gone. -/
inductive Place (V : Type*) where
  | posted (v : V) (port : ℕ) (smp : Smp)
  | received (v : V) (port : ℕ) (smp : Smp)
  | handed (v : V) (port : ℕ) (smp : Smp)
  | processed (v : V) (smp : Smp) (recv : LocalRecv)
  | gone

variable {V : Type*}

/-- `ib_post_send_mad` of an SMP at node `v`, for port `port`. -/
def Fabric.send (f : Fabric V) (v : V) (port : ℕ) (smp : Smp) : Place V :=
  match handleOutgoingDrSmp (f.device v) port smp with
  | some (.post smp) => .posted v port smp
  | some (.processed smp recv) => .processed v smp recv
  | some (.err _) | none => .gone

/-- One step of an SMP: over the cable, or through the node that received it. -/
def Fabric.hop (f : Fabric V) : Place V → Place V
  | .posted v port smp => match f.link v port with
    | some (w, port) => .received w port smp
    | none => .gone
  | .received v port smp => match handleIbSmi (f.device v) port smp with
    | some (.handle smp) => .handed v port smp
    | some (.forward port smp) => f.send v port smp
    | some .discard | none => .gone
  | p => p

/-- A chain of nodes: node `0` with the SM, switches, and node `n` with an SMA. `exit i` is the port of
    node `i - 1` whose cable ends at port `entry i` of node `i`. -/
structure Route (f : Fabric V) (n : ℕ) where
  node : ℕ → V
  exit : ℕ → ℕ
  entry : ℕ → ℕ
  leMax : n < IB_SMP_MAX_PATH_HOPS
  linked : ∀ i < n, f.link (node i) (exit (i + 1)) = some (node (i + 1), entry (i + 1))
  switch : ∀ i, 0 < i → i < n → (f.device (node i)).isSwitch
  exitLe : ∀ i, 0 < i → i < n → exit (i + 1) ≤ (f.device (node i)).physPortCnt
  entryLe : ∀ i, 0 < i → i < n → entry i ≤ (f.device (node i)).physPortCnt
  entryU8 : ∀ i, 0 < i → i ≤ n → entry i < 2 ^ 8
  sma : (f.device (node n)).processMad.isSome

variable {f : Fabric V} {n : ℕ}

/-- A request that is to follow the route, as its sender builds it. -/
structure Route.Request (r : Route f n) (smp : Smp) : Prop where
  hopPtr : smp.hopPtr = 0
  hopCnt : smp.hopCnt = n
  direction : smp.direction = false
  drSlid : smp.drSlid = IB_LID_PERMISSIVE
  drDlid : smp.drDlid = IB_LID_PERMISSIVE
  initialPath : ∀ i, 0 < i → i ≤ n → smp.initialPath i = r.exit i

/-- A return path in which the first `k` entry ports are recorded. -/
def Route.recorded (r : Route f n) (path : ℕ → ℕ) (k : ℕ) : ℕ → ℕ :=
  fun i => if 0 < i ∧ i ≤ k then r.entry i else path i

/-- The request as node `k` holds it, its entry port recorded. -/
def Route.held (r : Route f n) (smp : Smp) (k : ℕ) : Smp :=
  { smp with hopPtr := k, returnPath := r.recorded smp.returnPath k }

/-- The request as it leaves node `k`, or as node `n` gives it to its SMA. -/
def Route.outgoing (r : Route f n) (smp : Smp) (k : ℕ) : Smp :=
  { smp with hopPtr := k + 1, returnPath := r.recorded smp.returnPath k }

/-- The SMA's answer: the direction bit set and the hop fields as they were. -/
def Smp.answer (smp : Smp) : Smp := { smp with direction := true, response := true }

/-- The response as it leaves node `k`, or as node `0` gives it to the SM. -/
def Route.returning (r : Route f n) (smp : Smp) (k : ℕ) : Smp :=
  { (r.outgoing smp n).answer with hopPtr := k }

/-! ### One hop of the SMI functions -/

section Hop

variable {smp : Smp} {device : Device} {port : ℕ}

theorem incHop_eq (h : smp.hopPtr ≤ IB_SMP_MAX_PATH_HOPS) :
    smp.incHop = { smp with hopPtr := smp.hopPtr + 1 } := by
  rw [← Smp.incHop_hop_ptr h]
  rfl

theorem decHop_eq (h₀ : 0 < smp.hopPtr) (h : smp.hopPtr ≤ IB_SMP_MAX_PATH_HOPS) :
    smp.decHop = { smp with hopPtr := smp.hopPtr - 1 } := by
  rw [← Smp.decHop_hop_ptr h₀ h]
  rfl

section
variable (hcnt : smp.hopCnt < IB_SMP_MAX_PATH_HOPS)
include hcnt

/-- A request inside its route is sent on the port that its path names next. -/
theorem smiHandleDrSmpSend_request (hdir : smp.direction = false) (hlt : smp.hopPtr < smp.hopCnt)
    (hsw : smp.hopPtr = 0 ∨ device.isSwitch) (hport : smp.initialPath (smp.hopPtr + 1) = port) :
    smiHandleDrSmpSend smp device.isSwitch port =
      some (.handle, { smp with hopPtr := smp.hopPtr + 1 }) := by
  have hread : pathAt smp.initialPath smp.incHop.hopPtr = some port := by
    rw [Smp.incHop_hop_ptr (by omega), pathAt_natCast _ (by omega), hport]
  unfold smiHandleDrSmpSend
  rw [hread, incHop_eq (by omega), if_neg (by omega), if_pos (by simp [hdir])]
  rcases Nat.eq_zero_or_pos smp.hopPtr with h0 | hpos
  · rw [if_pos ⟨by omega, h0⟩]
    simp [handleIf]
  · rw [if_neg (by omega), if_pos ⟨by omega, hlt⟩, if_neg (by simp [hsw.resolve_left (by omega)])]
    simp [handleIf]

/-- A request at the end of its route is given to this node. -/
theorem smiHandleDrSmpSend_end (hdir : smp.direction = false) (heq : smp.hopPtr = smp.hopCnt)
    (hlid : smp.drDlid = IB_LID_PERMISSIVE) : smiHandleDrSmpSend smp device.isSwitch port =
      some (.handle, { smp with hopPtr := smp.hopPtr + 1 }) := by
  unfold smiHandleDrSmpSend
  rw [if_neg (by omega), if_pos (by simp [hdir]), if_neg (by omega), if_neg (by omega), if_pos heq,
    incHop_eq (by omega)]
  simp [handleIf, hlid]

/-- A response inside its route is sent on the port that was recorded. -/
theorem smiHandleDrSmpSend_response
    (hdir : smp.direction = true) (h2 : 2 ≤ smp.hopPtr) (hle : smp.hopPtr ≤ smp.hopCnt + 1)
    (hsw : smp.hopPtr = smp.hopCnt + 1 ∨ device.isSwitch)
    (hport : smp.returnPath (smp.hopPtr - 1) = port) :
    smiHandleDrSmpSend smp device.isSwitch port =
      some (.handle, { smp with hopPtr := smp.hopPtr - 1 }) := by
  have hread : pathAt smp.returnPath smp.decHop.hopPtr = some port := by
    rw [Smp.decHop_hop_ptr (by omega) (by omega), pathAt_natCast _ (by omega), hport]
  unfold smiHandleDrSmpSend
  rw [hread, decHop_eq (by omega) (by omega), if_neg (by omega), if_neg (by simp [hdir])]
  rcases Nat.lt_or_ge smp.hopCnt smp.hopPtr with hend | hmid
  · rw [if_pos ⟨by omega, by omega⟩]
    simp [handleIf]
  · rw [if_neg (by omega), if_pos ⟨h2, hmid⟩, if_neg (by simp [hsw.resolve_left (by omega)])]
    simp [handleIf]

end

/-- What a node that is neither end of the route posts. -/
theorem handleOutgoingDrSmp_post {smp' : Smp}
    (hsend : smiHandleDrSmpSend smp device.isSwitch port = some (.handle, smp'))
    (hlid : smp.drSlid = IB_LID_PERMISSIVE ∧ smp.drDlid = IB_LID_PERMISSIVE)
    (hlocal : smp'.direction = false → smp'.hopPtr ≠ smp'.hopCnt + 1)
    (hret : smp'.direction = true → smp'.hopPtr ≠ 0) :
    handleOutgoingDrSmp device port smp = some (.post smp') := by
  have hdr : (if smp.direction then smp.drDlid else smp.drSlid) = IB_LID_PERMISSIVE := by
    rw [hlid.1, hlid.2, ite_self]
  have h1 : smiCheckLocalSmp smp' device = .discard := by
    exact if_neg fun h => hlocal h.2.1 h.2.2
  have h2 : smiCheckLocalReturningSmp smp' device = .discard := by
    exact if_neg fun h => hret h.2.1 h.2.2
  unfold handleOutgoingDrSmp
  simp [hdr, hsend, h1, h2]

section
variable (hcnt : smp.hopCnt < IB_SMP_MAX_PATH_HOPS)
include hcnt

/-- A switch inside the route records the entry port of a request and forwards it. -/
theorem handleIbSmi_request
    (hdir : smp.direction = false) (hpos : 0 < smp.hopPtr) (hlt : smp.hopPtr < smp.hopCnt)
    (hsw : device.isSwitch) (hle : smp.initialPath (smp.hopPtr + 1) ≤ device.physPortCnt) :
    handleIbSmi device port smp = some (.forward (smp.initialPath (smp.hopPtr + 1))
      { smp with returnPath := update smp.returnPath smp.hopPtr (port % 2 ^ 8) }) := by
  have hread : pathAt smp.initialPath (smp.hopPtr + 1) =
      some (smp.initialPath (smp.hopPtr + 1)) := by
    rw [← Nat.cast_succ, pathAt_natCast _ (by omega)]
  have hrecv : smiHandleDrSmpRecv smp device.isSwitch port device.physPortCnt = some (.handle,
      { smp with returnPath := update smp.returnPath smp.hopPtr (port % 2 ^ 8) }) := by
    unfold smiHandleDrSmpRecv
    rw [if_neg (by omega), if_pos (by simp [hdir]), if_neg (by omega), if_pos ⟨by omega, hlt⟩,
      if_neg (by simp [hsw]), recordPort_eq _ (by omega)]
    simp [hread, handleIf, hle]
  unfold handleIbSmi
  rw [hrecv]
  simp [smiCheckForwardDrSmp, smiGetFwdPort, hdir, hlt, hread, hsw, Nat.ne_of_gt hpos]

/-- The last node of the route records the entry port of a request and gives it to its SMA. -/
theorem handleIbSmi_end (hdir : smp.direction = false)
    (hpos : 0 < smp.hopPtr) (heq : smp.hopPtr = smp.hopCnt)
    (hlid : smp.drDlid = IB_LID_PERMISSIVE) (hsma : device.processMad.isSome) :
    handleIbSmi device port smp = some (.handle { smp with
      hopPtr := smp.hopPtr + 1
      returnPath := update smp.returnPath smp.hopPtr (port % 2 ^ 8) }) := by
  have hrecv : smiHandleDrSmpRecv smp device.isSwitch port device.physPortCnt = some (.handle,
      { smp with returnPath := update smp.returnPath smp.hopPtr (port % 2 ^ 8) }) := by
    unfold smiHandleDrSmpRecv
    rw [if_neg (by omega), if_pos (by simp [hdir]), if_neg (by omega), if_neg (by omega), if_pos heq,
      if_pos (by omega), recordPort_eq _ (by omega)]
    simp [handleIf, hlid]
  unfold handleIbSmi
  simp only [hrecv, Option.bind_some, smiCheckForwardDrSmp]
  rw [if_neg (by simp), if_pos (by simp [hdir]), if_neg (by omega), if_pos heq, if_pos hlid]
  have hsend := @smiHandleDrSmpSend_end { smp with
    returnPath := update smp.returnPath smp.hopPtr (port % 2 ^ 8) }
    device port hcnt hdir heq hlid
  rw [hsend]
  simp [smiCheckLocalSmp, handleIf, hsma, hdir, heq]

/-- A switch inside the route forwards a response on the recorded port. -/
theorem handleIbSmi_response
    (hdir : smp.direction = true) (h2 : 2 ≤ smp.hopPtr) (hle : smp.hopPtr ≤ smp.hopCnt)
    (hsw : device.isSwitch) (hport : smp.returnPath (smp.hopPtr - 1) ≤ device.physPortCnt) :
    handleIbSmi device port smp = some (.forward (smp.returnPath (smp.hopPtr - 1)) smp) := by
  have hread : pathAt smp.returnPath ((smp.hopPtr : ℤ) - 1) =
      some (smp.returnPath (smp.hopPtr - 1)) := by
    rw [← Nat.cast_pred (by omega), pathAt_natCast _ (by omega)]
  have hrecv : smiHandleDrSmpRecv smp device.isSwitch port device.physPortCnt =
      some (.handle, smp) := by
    unfold smiHandleDrSmpRecv
    rw [if_neg (by omega), if_neg (by simp [hdir]), if_neg (by omega), if_pos ⟨h2, hle⟩,
      if_neg (by simp [hsw]), hread]
    simp [handleIf, hport]
  unfold handleIbSmi
  rw [hrecv]
  simp [smiCheckForwardDrSmp, smiGetFwdPort, hdir, h2, hle, hread, hsw]

/-- The first node of the route gives the response to the SM. -/
theorem handleIbSmi_last (hpos : 0 < smp.hopCnt)
    (hdir : smp.direction = true) (h1 : smp.hopPtr = 1) (hlid : smp.drSlid = IB_LID_PERMISSIVE) :
    handleIbSmi device port smp = some (.handle { smp with hopPtr := 0 }) := by
  have hrecv : smiHandleDrSmpRecv smp device.isSwitch port device.physPortCnt =
      some (.handle, { smp with hopPtr := 0 }) := by
    unfold smiHandleDrSmpRecv
    rw [if_neg (by omega), if_neg (by simp [hdir]), if_neg (by omega), if_neg (by omega), if_pos h1,
      if_pos hlid, decHop_eq (by omega) (by omega), h1]
  unfold handleIbSmi
  rw [hrecv]
  simp [smiCheckForwardDrSmp, hdir]

end

end Hop

/-! ### The way out -/

section RoundTrip

variable (r : Route f n) {smp : Smp} (q : r.Request smp)

theorem Route.recorded_zero (path : ℕ → ℕ) : r.recorded path 0 = path := by
  funext i
  exact if_neg (by omega)

/-- Recording the next entry port. -/
theorem Route.update_recorded (path : ℕ → ℕ) {k : ℕ} (hk : k < n) :
    update (r.recorded path k) (k + 1) (r.entry (k + 1) % 2 ^ 8) = r.recorded path (k + 1) := by
  rw [Nat.mod_eq_of_lt (r.entryU8 (k + 1) (by omega) hk)]
  funext i
  rcases eq_or_ne i (k + 1) with rfl | hne
  · simp [Route.recorded]
  · rw [update_of_ne hne]
    unfold Route.recorded
    by_cases h : 0 < i ∧ i ≤ k
    · rw [if_pos h, if_pos (by omega)]
    · rw [if_neg h, if_neg (by omega)]

/-- What node `k + 1` makes of the request. -/
theorem Route.record_outgoing {k : ℕ} (hk : k < n) :
    { r.outgoing smp k with
      returnPath := update (r.recorded smp.returnPath k) (k + 1)
        (r.entry (k + 1) % 2 ^ 8) } = r.held smp (k + 1) := by
  rw [r.update_recorded smp.returnPath hk]
  rfl

/-- STEP: from the send queue of node `k` the request comes to node `k + 1`. -/
theorem Route.hop_posted {k : ℕ} (hk : k < n) :
    f.hop (.posted (r.node k) (r.exit (k + 1)) (r.outgoing smp k)) =
      .received (r.node (k + 1)) (r.entry (k + 1)) (r.outgoing smp k) := by
  simp only [Fabric.hop, r.linked k hk]

/-- The recorded entry port of node `k`. -/
theorem Route.returning_path {k j : ℕ} (hpos : 0 < k) (hk : k ≤ n) :
    (r.returning smp j).returnPath k = r.entry k :=
  if_pos ⟨hpos, hk⟩

/-- STEP: from the send queue of node `k + 1` the response comes to node `k`. -/
theorem Route.hop_returning {k : ℕ} (hk : k < n) :
    f.hop (.posted (r.node (k + 1)) (r.entry (k + 1)) (r.returning smp (k + 1))) =
      .received (r.node k) (r.exit (k + 1)) (r.returning smp (k + 1)) := by
  simp only [Fabric.hop, f.linkSymm (r.linked k hk)]

include q

theorem Route.held_zero : r.held smp 0 = smp := by
  unfold Route.held
  rw [r.recorded_zero, ← q.hopPtr]

theorem Route.hop_cnt_lt : smp.hopCnt < IB_SMP_MAX_PATH_HOPS := by
  rw [q.hopCnt]
  exact r.leMax

/-- A node of the route posts the request on its exit port. -/
theorem Route.send_held {k : ℕ} (hk : k < n) (hsw : k = 0 ∨ (f.device (r.node k)).isSwitch) :
    f.send (r.node k) (r.exit (k + 1)) (r.held smp k) =
      .posted (r.node k) (r.exit (k + 1)) (r.outgoing smp k) := by
  have hcnt : smp.hopCnt < IB_SMP_MAX_PATH_HOPS := r.hop_cnt_lt q
  have hlt : k < smp.hopCnt := q.hopCnt ▸ hk
  have hexit : smp.initialPath (k + 1) = r.exit (k + 1) := q.initialPath _ (by omega) hk
  have hsend : smiHandleDrSmpSend (r.held smp k) (f.device (r.node k)).isSwitch (r.exit (k + 1)) =
      some (.handle, r.outgoing smp k) :=
    smiHandleDrSmpSend_request hcnt q.direction hlt hsw hexit
  have hpost := handleOutgoingDrSmp_post hsend ⟨q.drSlid, q.drDlid⟩
    (fun _ => by simp only [Route.outgoing]; omega)
    (fun h => absurd (q.direction.symm.trans h) (by simp))
  simp only [Fabric.send, hpost]

/-- STEP: a switch of the route posts the request on its exit port. -/
theorem Route.hop_received {k : ℕ} (hk : k + 1 < n) :
    f.hop (.received (r.node (k + 1)) (r.entry (k + 1)) (r.outgoing smp k)) =
      .posted (r.node (k + 1)) (r.exit (k + 2)) (r.outgoing smp (k + 1)) := by
  have hcnt : smp.hopCnt < IB_SMP_MAX_PATH_HOPS := r.hop_cnt_lt q
  have hlt : k + 1 < smp.hopCnt := q.hopCnt ▸ hk
  have hexit : smp.initialPath (k + 2) = r.exit (k + 2) := q.initialPath _ (by omega) (by omega)
  have hsw : (f.device (r.node (k + 1))).isSwitch := r.switch _ (by omega) hk
  have hrecv : handleIbSmi (f.device (r.node (k + 1))) (r.entry (k + 1)) (r.outgoing smp k) =
      some (.forward (r.exit (k + 2)) (r.held smp (k + 1))) := by
    rw [← r.record_outgoing (show k < n by omega), ← hexit]
    exact handleIbSmi_request hcnt q.direction (Nat.succ_pos k) hlt hsw
      (hexit ▸ r.exitLe _ (by omega) hk)
  simp only [Fabric.hop, hrecv]
  exact r.send_held q hk (.inr hsw)

/-- STEP: the last node gives the request to its SMA. -/
theorem Route.hop_end {k : ℕ} (hk : k + 1 = n) :
    f.hop (.received (r.node n) (r.entry n) (r.outgoing smp k)) =
      .handed (r.node n) (r.entry n) (r.outgoing smp n) := by
  subst hk
  have hcnt : smp.hopCnt < IB_SMP_MAX_PATH_HOPS := r.hop_cnt_lt q
  have hrecv := @handleIbSmi_end (r.outgoing smp k) (f.device (r.node (k + 1))) (r.entry (k + 1))
    hcnt q.direction (Nat.succ_pos k) q.hopCnt.symm q.drDlid r.sma
  simp only [Fabric.hop, hrecv]
  simp only [Route.outgoing, ← r.update_recorded smp.returnPath (Nat.lt_succ_self k)]

/-- RUN: after `2 k` steps the request stands on the send queue of node `k`. -/
theorem Route.run_posted {k : ℕ} (hk : k < n) :
    f.hop^[2 * k] (f.send (r.node 0) (r.exit 1) smp) =
      .posted (r.node k) (r.exit (k + 1)) (r.outgoing smp k) := by
  induction k with
  | zero =>
    have hsend := r.send_held q hk (.inl rfl)
    rwa [r.held_zero q] at hsend
  | succ k ih =>
    rw [show 2 * (k + 1) = 2 + 2 * k by ring, iterate_add_apply, ih (by omega)]
    rw [iterate_succ_apply, iterate_one, r.hop_posted (by omega), r.hop_received q hk]

/-- RUN: after `2 k + 1` steps the request has been received by node `k + 1`. -/
theorem Route.run_received {k : ℕ} (hk : k < n) :
    f.hop^[2 * k + 1] (f.send (r.node 0) (r.exit 1) smp) =
      .received (r.node (k + 1)) (r.entry (k + 1)) (r.outgoing smp k) := by
  rw [iterate_succ_apply', r.run_posted q hk, r.hop_posted hk]

/-- RUN: after `2 n` steps the request is with the SMA of node `n`. -/
theorem Route.run_handed (hn : 0 < n) :
    f.hop^[2 * n] (f.send (r.node 0) (r.exit 1) smp) =
      .handed (r.node n) (r.entry n) (r.outgoing smp n) := by
  obtain ⟨k, rfl⟩ := Nat.exists_eq_succ_of_ne_zero (Nat.ne_of_gt hn)
  rw [show 2 * (k + 1) = 2 * k + 1 + 1 by ring, iterate_succ_apply',
    r.run_received q (Nat.lt_succ_self k), r.hop_end q rfl]

/-! ### The way back -/

/-- A node of the route posts the response on its entry port. -/
theorem Route.send_returning {k : ℕ} (hpos : 0 < k) (hk : k ≤ n)
    (hsw : k = n ∨ (f.device (r.node k)).isSwitch) :
    f.send (r.node k) (r.entry k) (r.returning smp (k + 1)) =
      .posted (r.node k) (r.entry k) (r.returning smp k) := by
  have hlt : smp.hopCnt < IB_SMP_MAX_PATH_HOPS := r.hop_cnt_lt q
  have hcnt : (r.returning smp (k + 1)).hopCnt = n := q.hopCnt
  have hsend : smiHandleDrSmpSend (r.returning smp (k + 1)) (f.device (r.node k)).isSwitch
      (r.entry k) = some (.handle, r.returning smp k) :=
    smiHandleDrSmpSend_response hlt rfl (Nat.succ_le_succ hpos)
      (hcnt.symm ▸ Nat.succ_le_succ hk) (hsw.imp_left fun h => hcnt.symm ▸ congrArg Nat.succ h)
      (r.returning_path hpos hk)
  have hpost := handleOutgoingDrSmp_post hsend ⟨q.drSlid, q.drDlid⟩
    (fun h => absurd h (by simp [Route.returning, Smp.answer])) (fun _ => Nat.ne_of_gt hpos)
  simp only [Fabric.send, hpost]

/-- STEP: a switch of the route posts the response on its entry port. -/
theorem Route.hop_received_returning {k : ℕ} (hpos : 0 < k) (hk : k < n) :
    f.hop (.received (r.node k) (r.exit (k + 1)) (r.returning smp (k + 1))) =
      .posted (r.node k) (r.entry k) (r.returning smp k) := by
  have hlt : smp.hopCnt < IB_SMP_MAX_PATH_HOPS := r.hop_cnt_lt q
  have hcnt : (r.returning smp (k + 1)).hopCnt = n := q.hopCnt
  have hsw : (f.device (r.node k)).isSwitch := r.switch _ hpos hk
  have hpath : (r.returning smp (k + 1)).returnPath k = r.entry k :=
    r.returning_path hpos (by omega)
  have hrecv : handleIbSmi (f.device (r.node k)) (r.exit (k + 1)) (r.returning smp (k + 1)) =
      some (.forward (r.entry k) (r.returning smp (k + 1))) := by
    rw [← hpath]
    exact handleIbSmi_response hlt rfl (Nat.succ_le_succ hpos) (hcnt.symm ▸ hk) hsw
      (hpath.trans_le (r.entryLe _ hpos hk))
  simp only [Fabric.hop, hrecv]
  exact r.send_returning q hpos (by omega) (.inr hsw)

/-- STEP: the first node gives the response to the SM. -/
theorem Route.hop_first (hn : 0 < n) :
    f.hop (.received (r.node 0) (r.exit 1) (r.returning smp 1)) =
      .handed (r.node 0) (r.exit 1) (r.returning smp 0) := by
  have hcnt : smp.hopCnt < IB_SMP_MAX_PATH_HOPS := r.hop_cnt_lt q
  have hrecv := @handleIbSmi_last (r.returning smp 1) (f.device (r.node 0)) (r.exit 1)
    hcnt (q.hopCnt.symm ▸ hn) rfl rfl q.drSlid
  simp only [Fabric.hop, hrecv]
  rfl

/-- RUN: after `2 j` steps the response stands on the send queue of node `n - j`. -/
theorem Route.run_returning {j : ℕ} (hj : j < n) :
    f.hop^[2 * j] (f.send (r.node n) (r.entry n) (r.outgoing smp n).answer) =
      .posted (r.node (n - j)) (r.entry (n - j)) (r.returning smp (n - j)) := by
  induction j with
  | zero => exact r.send_returning q (by omega) le_rfl (.inl rfl)
  | succ j ih =>
    obtain ⟨k, hk⟩ : ∃ k, n - j = k + 1 := ⟨n - j - 1, by omega⟩
    rw [show 2 * (j + 1) = 2 + 2 * j by ring, iterate_add_apply, ih (by omega), hk]
    rw [iterate_succ_apply, iterate_one, r.hop_returning (by omega),
      r.hop_received_returning q (by omega) (by omega), show n - (j + 1) = k by omega]

/-- RUN: after `2 j + 1` steps the response has been received by node `n - j - 1`. -/
theorem Route.run_received_returning {j : ℕ} (hj : j < n) :
    f.hop^[2 * j + 1] (f.send (r.node n) (r.entry n) (r.outgoing smp n).answer) =
      .received (r.node (n - j - 1)) (r.exit (n - j)) (r.returning smp (n - j)) := by
  obtain ⟨k, hk⟩ : ∃ k, n - j = k + 1 := ⟨n - j - 1, by omega⟩
  rw [iterate_succ_apply', r.run_returning q hj, hk, r.hop_returning (by omega)]
  rfl

/-- RUN: after `2 n` steps the response is with the SM. -/
theorem Route.run_answered (hn : 0 < n) :
    f.hop^[2 * n] (f.send (r.node n) (r.entry n) (r.outgoing smp n).answer) =
      .handed (r.node 0) (r.exit 1) (r.returning smp 0) := by
  obtain ⟨k, rfl⟩ := Nat.exists_eq_succ_of_ne_zero (Nat.ne_of_gt hn)
  have hrun := r.run_received_returning q (Nat.lt_succ_self k)
  rw [show k.succ - k = 1 by omega] at hrun
  rw [show 2 * (k + 1) = 2 * k + 1 + 1 by ring, iterate_succ_apply', hrun, r.hop_first q hn]

end RoundTrip

/-! ### No hop at all -/

/-- A request that stays on its node goes to `process_mad` with `hop_ptr = 1`. -/
theorem Route.send_loop (r : Route f 0) {smp : Smp} (q : r.Request smp) (port : ℕ)
    (hmem : (f.device (r.node 0)).allocOk) {processMad : Smp → MadResult}
    (hsma : (f.device (r.node 0)).processMad = some processMad) :
    f.send (r.node 0) port smp = match processMad (r.outgoing smp 0) with
      | .reply out => .processed (r.node 0) (r.outgoing smp 0)
          (if out.response then .sender out else .none)
      | .consumed => .processed (r.node 0) (r.outgoing smp 0) .none
      | .success => .processed (r.node 0) (r.outgoing smp 0) (.agent (r.outgoing smp 0))
      | .failure => .gone := by
  have hsend : smiHandleDrSmpSend smp (f.device (r.node 0)).isSwitch port =
      some (.handle, r.outgoing smp 0) := by
    rw [smiHandleDrSmpSend_end (r.hop_cnt_lt q) q.direction (q.hopPtr.trans q.hopCnt.symm)
      q.drDlid, Route.outgoing, r.recorded_zero, q.hopPtr]
  have hlocal : smiCheckLocalSmp (r.outgoing smp 0) (f.device (r.node 0)) = .handle := by
    simp [smiCheckLocalSmp, handleIf, Route.outgoing, hsma, q.direction, q.hopCnt]
  have hdlid : (if smp.direction then smp.drDlid else smp.drSlid) = IB_LID_PERMISSIVE := by
    rw [q.drSlid, q.drDlid, ite_self]
  have hout : handleOutgoingDrSmp (f.device (r.node 0)) port smp =
      some (match processMad (r.outgoing smp 0) with
        | .reply out => .processed (r.outgoing smp 0) (if out.response then .sender out else .none)
        | .consumed => .processed (r.outgoing smp 0) .none
        | .success => .processed (r.outgoing smp 0) (.agent (r.outgoing smp 0))
        | .failure => .err .einval) := by
    unfold handleOutgoingDrSmp
    simp [hdlid, hsend, hlocal, hmem, hsma]
  unfold Fabric.send
  rw [hout]
  cases processMad (r.outgoing smp 0) <;> rfl

/-- A response that an agent of the node sends to the node itself is taken to hop `0`. -/
theorem Route.send_loop_answer (r : Route f 0) {smp : Smp} (q : r.Request smp) (port : ℕ)
    (hmem : (f.device (r.node 0)).allocOk) {processMad : Smp → MadResult}
    (hsma : (f.device (r.node 0)).processMad = some processMad)
    (hpass : processMad (r.returning smp 0) = .success) :
    f.send (r.node 0) port (r.outgoing smp 0).answer =
      .processed (r.node 0) (r.returning smp 0) (.agent (r.returning smp 0)) := by
  have hsend : smiHandleDrSmpSend (r.outgoing smp 0).answer (f.device (r.node 0)).isSwitch port =
      some (.handle, r.returning smp 0) := by
    have hcnt : (r.outgoing smp 0).answer.hopCnt = 0 := q.hopCnt
    unfold smiHandleDrSmpSend
    rw [if_neg (by rw [hcnt]; decide), if_neg (by simp [Smp.answer]), if_neg (by simp [hcnt]),
      if_neg (by omega), if_pos (show (r.outgoing smp 0).answer.hopPtr = 1 from rfl)]
    simp [handleIf, q.drSlid, Smp.decHop, Route.returning, Route.outgoing, Smp.answer]
  have hret : smiCheckLocalReturningSmp (r.returning smp 0) (f.device (r.node 0)) = .handle := by
    simp [smiCheckLocalReturningSmp, handleIf, Route.returning, Smp.answer, hsma]
  have hdlid : (r.outgoing smp 0).answer.drDlid = IB_LID_PERMISSIVE := q.drDlid
  have hdir : (r.outgoing smp 0).answer.direction = true := rfl
  simp [Fabric.send, handleOutgoingDrSmp, hdir, hdlid, hsend, hret, hmem, hsma, hpass]

/-- CORRECT: on a route of `n ≥ 1` cables the request stands in turn on the exit ports of nodes
    `0, …, n - 1`, is received on the entry ports of nodes `1, …, n`, and node `n` gives it to its SMA
    with `hop_ptr = n + 1` and all entry ports recorded; the answer leaves nodes `n, …, 1` by these
    ports and node `0` gives it to the SM with `hop_ptr = 0`. On a route without a cable the SMA gets
    the request with `hop_ptr = 1`: a reply that `process_mad` writes goes back to the sender as it
    is, an answer that an agent sends comes back with `hop_ptr = 0`. No SMP makes a node leave the
    path arrays. -/
theorem dr_smp_round_trip (r : Route f n) {smp : Smp} (q : r.Request smp) :
    (0 < n →
      (∀ k < n, f.hop^[2 * k] (f.send (r.node 0) (r.exit 1) smp) =
          .posted (r.node k) (r.exit (k + 1)) (r.outgoing smp k) ∧
        f.hop^[2 * k + 1] (f.send (r.node 0) (r.exit 1) smp) =
          .received (r.node (k + 1)) (r.entry (k + 1)) (r.outgoing smp k)) ∧
      f.hop^[2 * n] (f.send (r.node 0) (r.exit 1) smp) =
        .handed (r.node n) (r.entry n) (r.outgoing smp n) ∧
      (r.outgoing smp n).hopPtr = n + 1 ∧
      (∀ i, 0 < i → i ≤ n → (r.outgoing smp n).returnPath i = r.entry i) ∧
      (∀ j < n, f.hop^[2 * j] (f.send (r.node n) (r.entry n) (r.outgoing smp n).answer) =
          .posted (r.node (n - j)) (r.entry (n - j)) (r.returning smp (n - j)) ∧
        f.hop^[2 * j + 1] (f.send (r.node n) (r.entry n) (r.outgoing smp n).answer) =
          .received (r.node (n - j - 1)) (r.exit (n - j)) (r.returning smp (n - j))) ∧
      f.hop^[2 * n] (f.send (r.node n) (r.entry n) (r.outgoing smp n).answer) =
        .handed (r.node 0) (r.exit 1) (r.returning smp 0) ∧
      (r.returning smp 0).hopPtr = 0) ∧
    (n = 0 → ∀ port processMad, (f.device (r.node 0)).allocOk →
      (f.device (r.node 0)).processMad = some processMad →
      (r.outgoing smp 0).hopPtr = 1 ∧
      (processMad (r.outgoing smp 0) = .reply (r.outgoing smp 0).answer →
        f.send (r.node 0) port smp =
          .processed (r.node 0) (r.outgoing smp 0) (.sender (r.outgoing smp 0).answer)) ∧
      (processMad (r.outgoing smp 0) = .success →
        f.send (r.node 0) port smp =
          .processed (r.node 0) (r.outgoing smp 0) (.agent (r.outgoing smp 0))) ∧
      (processMad (r.returning smp 0) = .success →
        f.send (r.node 0) port (r.outgoing smp 0).answer =
          .processed (r.node 0) (r.returning smp 0) (.agent (r.returning smp 0)))) ∧
    (∀ device port (any : Smp), (handleOutgoingDrSmp device port any).isSome ∧
      (handleIbSmi device port any).isSome) := by
  refine ⟨fun hn => ⟨fun k hk => ⟨r.run_posted q hk, r.run_received q hk⟩, r.run_handed q hn, rfl,
    fun i hpos hi => if_pos ⟨hpos, hi⟩, fun j hj => ⟨r.run_returning q hj,
    r.run_received_returning q hj⟩, r.run_answered q hn, rfl⟩, ?_, fun device port any =>
    ⟨handleOutgoingDrSmp_isSome device port any, handleIbSmi_isSome device port any⟩⟩
  rintro rfl port processMad hmem hsma
  refine ⟨rfl, fun hreply => ?_, fun hpass => ?_, r.send_loop_answer q port hmem hsma⟩
  · rw [r.send_loop q port hmem hsma, hreply]
    rfl
  · rw [r.send_loop q port hmem hsma, hpass]

/-- A device whose SMA answers every request at once. -/
def smaDevice (isSwitch : Bool) (physPortCnt : ℕ) : Device where
  isSwitch := isSwitch
  physPortCnt := physPortCnt
  processMad := some fun smp => if smp.direction then .success else .reply smp.answer
  allocOk := true

/-- A request for the route that leaves by `ports`. -/
def requestSmp (ports : List ℕ) : Smp where
  hopPtr := 0
  hopCnt := ports.length
  direction := false
  response := false
  drSlid := IB_LID_PERMISSIVE
  drDlid := IB_LID_PERMISSIVE
  initialPath := fun i => (0 :: ports).getD i 0
  returnPath := fun _ => 0

/-- Port 1 of node 0, a channel adapter, is cabled to port 3 of node 1, a switch of four ports, and
    its port 2 to port `last` of the channel adapter node 2. -/
def lineLink (last : ℕ) (v port : ℕ) : Option (ℕ × ℕ) :=
  if v = 0 ∧ port = 1 then some (1, 3)
  else if v = 1 ∧ port = 3 then some (0, 1)
  else if v = 1 ∧ port = 2 then some (2, last)
  else if v = 2 ∧ port = last then some (1, 2)
  else none

def lineFabric (last : ℕ) : Fabric ℕ where
  device v := smaDevice (v = 1) (if v = 1 then 4 else last)
  link := lineLink last
  linkSymm := by
    intro v w p q h
    unfold lineLink at h ⊢
    split_ifs at h with h1 h2 h3 h4 <;> cases h
    · simp [h1]
    · simp [h2]
    · simp [h3]
    · simp [h4]

/-- The route over both cables, when the last port fits a byte. -/
def lineRoute : Route (lineFabric 1) 2 where
  node i := i
  exit i := if i = 1 then 1 else 2
  entry i := if i = 1 then 3 else 1
  leMax := by decide
  linked := by decide
  switch i h₀ h := by
    obtain rfl : i = 1 := by omega
    decide
  exitLe i h₀ h := by
    obtain rfl : i = 1 := by omega
    decide
  entryLe i h₀ h := by
    obtain rfl : i = 1 := by omega
    decide
  entryU8 i h₀ h := by
    obtain rfl | rfl : i = 1 ∨ i = 2 := by omega
    · decide
    · decide
  sma := rfl

theorem lineRoute_request : lineRoute.Request (requestSmp [1, 2]) where
  hopPtr := rfl
  hopCnt := rfl
  direction := rfl
  drSlid := rfl
  drDlid := rfl
  initialPath i h₀ h := by
    obtain rfl | rfl : i = 1 ∨ i = 2 := by omega
    · rfl
    · rfl

theorem dr_smp_round_trip_line :
    (lineFabric 1).hop^[4] ((lineFabric 1).send 0 1 (requestSmp [1, 2])) =
        .handed 2 1 (lineRoute.outgoing (requestSmp [1, 2]) 2) ∧
      (lineFabric 1).hop^[4] ((lineFabric 1).send 2 1
        (lineRoute.outgoing (requestSmp [1, 2]) 2).answer) =
        .handed 0 1 (lineRoute.returning (requestSmp [1, 2]) 0) :=
  have h := (dr_smp_round_trip lineRoute lineRoute_request).1 (by decide)
  ⟨h.2.1, h.2.2.2.2.2.1⟩

/-- A request for node 0 itself: the reply of `process_mad` reaches its sender with `hop_ptr = 1`. And
    where the last port does not fit a byte, the recorded port is not the entry port and the answer
    is not sent. -/
theorem dr_smp_loop_keeps_hop_ptr :
    (∃ smp reply, (lineFabric 1).send 0 1 (requestSmp []) = .processed 0 smp (.sender reply) ∧
      reply.direction = true ∧ reply.hopPtr = 1) ∧
    (∃ smp, (lineFabric 300).hop^[4] ((lineFabric 300).send 0 1 (requestSmp [1, 2])) =
        .handed 2 300 smp ∧ smp.returnPath 2 = 44 ∧
      (lineFabric 300).send 2 300 smp.answer = .gone) :=
  ⟨⟨_, _, rfl, rfl, rfl⟩, _, rfl, rfl, rfl⟩

end RdmaDriver.Smi
