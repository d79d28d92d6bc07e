import RdmaDriver.Schemes.RefCount
import RdmaDriver.Schemes.Run
import Mathlib.Algebra.Order.BigOperators.Group.List
import Mathlib.Algebra.Order.Group.Nat
import Mathlib.Algebra.Ring.Nat
import Mathlib.Data.List.MinMax
import Mathlib.Tactic.Common
import Mathlib.Logic.Function.Basic

/-! @src drivers/infiniband/core/counters.c, drivers/infiniband/hw/mlx5/counters.c, qp.c |
    name:QP counters | scheme:run | family:refcount

    A counter belongs to a port and counts what its QPs do, in a counter set of the firmware. It is
    made with its first QP and released with its last; what it has counted then goes to the history:

        alloc_and_bind -> kref 1 - bind -> kref n - unbind -> 0: query, history, dealloc

    QPs are bound by a call, or by the rule of the port when they are given a port. The port counts
    its counters, and lets its rule be changed only when there are none. -/

namespace RdmaDriver.QpCounter
open RdmaDriver.Schemes Function
open List (map_cons mem_cons_of_mem mem_cons_self sum_cons)

/-- `enum rdma_nl_counter_mode`. -/
inductive CMode where
  | none | auto | manual
  deriving DecidableEq

def RDMA_COUNTER_MASK_QP_TYPE : BitVec 32 := 1
def RDMA_COUNTER_MASK_PID : BitVec 32 := 2
def ALL_AUTO_MODE_MASKS : BitVec 32 := RDMA_COUNTER_MASK_QP_TYPE ||| RDMA_COUNTER_MASK_PID

/-- `struct rdma_port_counter`; `hstats` has the history of each statistic. -/
structure PortCounter where
  mode : CMode
  mask : BitVec 32
  hstats : Option (ℕ → ℕ)
  numCounters : ℕ

/-- `struct rdma_counter`; `task` is the owner, none for the kernel; `resId` is its key among the
    tracked counters, if it is tracked. -/
structure Counter where
  port : ℕ
  id : ℕ
  kref : ℕ
  mode : CMode
  mask : BitVec 32
  qpType : ℕ
  task : Option ℕ
  stats : ℕ → ℕ
  resId : Option ℕ

/-- `enum ib_qp_state`. -/
inductive QpState where
  | reset | init | rtr | rts | sqd | sqe | err
  deriving DecidableEq

/-- `struct ib_qp`, with the state of the driver's QP; `listed`: it is found by its number. -/
structure Qp where
  port : ℕ
  qpType : ℕ
  task : Option ℕ
  noTrack : Bool
  listed : Bool
  counter : Option ℕ
  state : QpState

/-- The device. Counters and QPs have keys; `canSet` is `rts2rts_qp_counters_set_id`; `setVal` is
    how much a counter set has counted since it was given, of which `QUERY_Q_COUNTER` returns the low
    32 bits, `past` what the sets had counted that counters of a port gave back. `badDealloc`: a set
    was given back under a QP that stays. -/
structure Dev where
  numPorts : ℕ
  ports : ℕ → PortCounter
  counter : ℕ → Counter
  live : List ℕ
  fresh : ℕ
  qp : ℕ → Qp
  qpns : List ℕ
  canSet : Bool
  sets : List ℕ
  setVal : ℕ → ℕ → ℕ
  past : ℕ → ℕ → ℕ
  badDealloc : Bool

inductive Errno where
  | einval | ebusy | eopnotsupp | enomem | enoent
  | cmd
  deriving DecidableEq

/-- What the allocator, the firmware and the caller's rights do in a call: `fwAlloc` is the set that
    `ALLOC_Q_COUNTER` gives, `fwQuery` tells the counters whose query works. -/
structure Env where
  kzalloc : Bool
  stats : Bool
  xa : Bool
  fwAlloc : Option ℕ
  fwSet : Bool
  fwQuery : ℕ → Bool
  fwDealloc : Bool
  capable : Bool

def IB_QPT_RAW_PACKET : ℕ := 8

/-- A write to a counter. -/
def Dev.setCounter (d : Dev) (c : ℕ) (v : Counter) : Dev :=
  { d with counter := update d.counter c v }

/-- A write to `qp->counter`. -/
def Dev.setQpCounter (d : Dev) (q : ℕ) (c : Option ℕ) : Dev :=
  { d with qp := update d.qp q { d.qp q with counter := c } }

/-- A write to a QP's port and state. -/
def Dev.setQpAttr (d : Dev) (q port : ℕ) (state : QpState) : Dev :=
  { d with qp := update d.qp q { d.qp q with port := port, state := state } }

/-- A write to the counter of a port. -/
def Dev.setPort (d : Dev) (p : ℕ) (v : PortCounter) : Dev :=
  { d with ports := update d.ports p v }

/-- `rdma_is_port_valid`. -/
def Dev.portValid (d : Dev) (p : ℕ) : Bool := 1 ≤ p ∧ p ≤ d.numPorts

/-- `__counter_set_mode`. -/
def counterSetMode (pc : PortCounter) (mode : CMode) (mask : BitVec 32) :
    PortCounter × Except Errno Unit :=
  if mode = .auto ∧ mask &&& ~~~ALL_AUTO_MODE_MASKS ≠ 0 then (pc, .error .einval)
  else if mode = .auto ∧ pc.numCounters ≠ 0 then (pc, .error .ebusy)
  else ({ pc with mode := mode, mask := mask }, .ok ())

/-- `rdma_counter_set_auto_mode`. -/
def rdmaCounterSetAutoMode (d : Dev) (port : ℕ) (mask : BitVec 32) : Dev × Except Errno Unit :=
  let pc := d.ports port
  if pc.hstats.isNone then (d, .error .eopnotsupp)
  else
    let mode := if mask ≠ 0 then CMode.auto else if pc.numCounters ≠ 0 then .manual else .none
    if pc.mode = mode ∧ pc.mask = mask then (d, .ok ())
    else
      let (pc, ret) := counterSetMode pc mode mask
      (d.setPort port pc, ret)

/-- `mlx5_ib_qp_set_counter`. -/
def mlx5IbQpSetCounter (d : Dev) (q : ℕ) (c : Option ℕ) (e : Env) : Dev × Except Errno Unit :=
  if (d.qp q).state = .reset then (d.setQpCounter q c, .ok ())
  else if d.canSet = false then (d, .error .eopnotsupp)
  else if (d.qp q).state = .rts then
    if e.fwSet then (d.setQpCounter q c, .ok ()) else (d, .error .cmd)
  else (d.setQpCounter q c, .ok ())

/-- `mlx5_ib_counter_dealloc`; `self` is the QP that is being destroyed, if any. -/
def mlx5IbCounterDealloc (d : Dev) (c : ℕ) (self : Option ℕ) (e : Env) : Dev :=
  let v := d.counter c
  if v.id = 0 then d
  else { d with
    sets := if e.fwDealloc then d.sets.erase v.id else d.sets
    past := update d.past v.port fun i => d.past v.port i + d.setVal v.id i
    badDealloc := d.badDealloc ||
      d.qpns.any fun q => decide (some q ≠ self ∧ (d.qp q).counter = some c) }

/-- `mlx5_ib_counter_bind_qp`. -/
def mlx5IbCounterBindQp (d : Dev) (c q : ℕ) (e : Env) : Dev × Except Errno Unit :=
  let alloc : Dev × Bool :=
    if (d.counter c).id ≠ 0 then (d, true)
    else
      match e.fwAlloc with
      | none => (d, false)
      | some id => ({ d.setCounter c { d.counter c with id := id } with
          sets := id :: d.sets, setVal := update d.setVal id fun _ => 0 }, true)
  match alloc with
  | (d, false) => (d, .error .cmd)
  | (d, true) =>
    match mlx5IbQpSetCounter d q (some c) e with
    | (d, .ok ()) => (d, .ok ())
    | (d, .error err) =>
      let d := mlx5IbCounterDealloc d c none e
      (d.setCounter c { d.counter c with id := 0 }, .error err)

/-- `__rdma_counter_bind_qp`. -/
def rdmaCounterBindQp (d : Dev) (c q : ℕ) (e : Env) : Dev × Except Errno Unit :=
  if (d.qp q).counter.isSome then (d, .error .einval) else mlx5IbCounterBindQp d c q e

/-- `rdma_restrack_add` of a counter. -/
def restrackAdd (d : Dev) (c : ℕ) (e : Env) : Dev :=
  let v := d.counter c
  if e.xa ∧ ∀ k ∈ d.live, (d.counter k).resId ≠ some v.id then
    d.setCounter c { v with resId := some v.id }
  else d

/-- The counter of `alloc_and_bind` before it is bound. -/
def newCounter (d : Dev) (port q : ℕ) (mode : CMode) : Counter where
  port := port
  id := 0
  kref := 1
  mode := mode
  mask := if mode = .auto then (d.ports port).mask else 0
  qpType := if mode = .auto ∧ (d.ports port).mask &&& RDMA_COUNTER_MASK_QP_TYPE ≠ 0 then
    (d.qp q).qpType else 0
  task := none
  stats := fun _ => 0
  resId := none

/-- The port of `alloc_and_bind` when the counter is counted. -/
def countedPort (pc : PortCounter) (mode : CMode) : PortCounter :=
  let pc := if mode = .manual then (counterSetMode pc .manual 0).1 else pc
  { pc with numCounters := pc.numCounters + 1 }

/-- `alloc_and_bind`, in the modes that have counters. The counter is in `live` when it is made; it
    is taken out again, with its memory, when it is not bound. -/
def allocAndBind (d : Dev) (port q : ℕ) (mode : CMode) (e : Env) : Dev × Option ℕ :=
  if e.kzalloc = false ∨ e.stats = false then (d, none)
  else
    let c := d.fresh
    let d := { d.setPort port (countedPort (d.ports port) mode) with
      counter := update d.counter c (newCounter d port q mode)
      live := c :: d.live
      fresh := c + 1 }
    match rdmaCounterBindQp d c q e with
    | (d, .error _) => ({ d with live := d.live.erase c }, none)
    | (d, .ok ()) =>
      let d := d.setCounter c { d.counter c with task := (d.qp q).task }
      (restrackAdd d c e, some c)

/-- `rdma_counter_free`. -/
def rdmaCounterFree (d : Dev) (c : ℕ) : Dev :=
  let p := (d.counter c).port
  let pc : PortCounter := { d.ports p with numCounters := (d.ports p).numCounters - 1 }
  let pc := if pc.numCounters = 0 ∧ pc.mode = .manual then (counterSetMode pc .none 0).1 else pc
  { d.setPort p pc with live := d.live.erase c }

/-- `mlx5_ib_query_q_counters`: the fields of the set have 32 bits. -/
def Dev.queryQCounters (d : Dev) (id i : ℕ) : ℕ := d.setVal id i % 2 ^ 32

/-- `rdma_counter_query_stats`. -/
def rdmaCounterQueryStats (d : Dev) (c : ℕ) (e : Env) : Dev × Bool :=
  if e.fwQuery c then
    (d.setCounter c { d.counter c with stats := d.queryQCounters (d.counter c).id }, true)
  else (d, false)

/-- `counter_history_stat_update`. -/
def counterHistoryStatUpdate (d : Dev) (c : ℕ) (e : Env) : Dev :=
  let p := (d.counter c).port
  match (d.ports p).hstats with
  | none => d
  | some h =>
    let d := (rdmaCounterQueryStats d c e).1
    d.setPort p { d.ports p with hstats := some fun i => h i + (d.counter c).stats i }

/-- `counter_release`. -/
def counterRelease (d : Dev) (c : ℕ) (self : Option ℕ) (e : Env) : Dev :=
  let d := counterHistoryStatUpdate d c e
  let d := mlx5IbCounterDealloc d c self e
  rdmaCounterFree d c

/-- `kref_get`. -/
def krefGet (d : Dev) (c : ℕ) : Dev :=
  d.setCounter c { d.counter c with kref := (d.counter c).kref + 1 }

/-- `kref_put` with `counter_release`. -/
def krefPut (d : Dev) (c : ℕ) (self : Option ℕ) (e : Env) : Dev :=
  let d := d.setCounter c { d.counter c with kref := (d.counter c).kref - 1 }
  if (d.counter c).kref = 0 then counterRelease d c self e else d

/-- `auto_mode_match`. -/
def autoModeMatch (qp : Qp) (v : Counter) (mask : BitVec 32) : Bool :=
  (mask &&& RDMA_COUNTER_MASK_QP_TYPE = 0 ∨ v.qpType = qp.qpType) ∧
    (mask &&& RDMA_COUNTER_MASK_PID = 0 ∨ v.task = qp.task)

/-- The search of `rdma_get_counter_auto_mode`: the first tracked counter that matches. -/
def autoCounter (d : Dev) (q port : ℕ) : Option ℕ :=
  (d.live.filter fun c => (d.counter c).resId.isSome ∧ (d.counter c).port = port ∧
    autoModeMatch (d.qp q) (d.counter c) (d.ports port).mask).argmin
      fun c => ((d.counter c).resId.getD 0)

/-- The QPs that the rule of a port is for. -/
def autoFor (d : Dev) (q port : ℕ) : Bool :=
  (d.qp q).noTrack = false ∧ (d.qp q).task.isSome ∧ d.portValid port ∧ (d.ports port).mode = .auto

/-- `rdma_counter_bind_qp_auto`; the result is not read. -/
def rdmaCounterBindQpAuto (d : Dev) (q port : ℕ) (e : Env) : Dev :=
  if autoFor d q port then
    match autoCounter d q port with
    | some c =>
      match rdmaCounterBindQp (krefGet d c) c q e with
      | (d, .ok ()) => d
      | (d, .error _) => krefPut d c none e
    | none => (allocAndBind d port q .auto e).1
  else d

/-- `rdma_counter_unbind_qp`. -/
def rdmaCounterUnbindQp (d : Dev) (q : ℕ) (force : Bool) (self : Option ℕ) (e : Env) :
    Dev × Except Errno Unit :=
  match (d.qp q).counter with
  | none => (d, .error .einval)
  | some c =>
    match mlx5IbQpSetCounter d q none e with
    | (d, .ok ()) => (krefPut d c self e, .ok ())
    | (d, .error err) => if force then (krefPut d c self e, .ok ()) else (d, .error err)

/-- `get_running_counters_hwstat_sum`, over the tracked counters of the list. -/
def runningSum (port index : ℕ) (e : Env) : List ℕ → Dev → Dev × ℕ
  | [], d => (d, 0)
  | c :: l, d =>
    if (d.counter c).resId.isSome ∧ (d.counter c).port = port then
      match rdmaCounterQueryStats d c e with
      | (d, false) => runningSum port index e l d
      | (d, true) =>
        let (d', sum) := runningSum port index e l d
        (d', (d.counter c).stats index + sum)
    else runningSum port index e l d

/-- `rdma_counter_get_hwstat_value`. -/
def rdmaCounterGetHwstatValue (d : Dev) (port index : ℕ) (e : Env) : Dev × ℕ :=
  match (d.ports port).hstats with
  | none => (d, 0)
  | some h =>
    let (d, sum) := runningSum port index e d.live d
    (d, sum + h index)

/-- `rdma_counter_get_qp`. -/
def rdmaCounterGetQp (d : Dev) (q : ℕ) (e : Env) : Bool :=
  q ∈ d.qpns ∧ (d.qp q).listed ∧ ((d.qp q).qpType = IB_QPT_RAW_PACKET → e.capable)

/-- The search of `rdma_get_counter_by_id`. -/
def counterById (d : Dev) (id : ℕ) : Option ℕ :=
  d.live.find? fun c => (d.counter c).resId = some id

/-- What `rdma_counter_bind_qpn` checks of the QP and the counter it has found. -/
def bindQpnFits (d : Dev) (q c : ℕ) : Bool :=
  (d.counter c).task.isNone = (d.qp q).task.isNone ∧ (d.counter c).port = (d.qp q).port

/-- `rdma_counter_bind_qpn`. -/
def rdmaCounterBindQpn (d : Dev) (port q id : ℕ) (e : Env) : Dev × Except Errno Unit :=
  if (d.ports port).mode = .auto then (d, .error .einval)
  else if rdmaCounterGetQp d q e = false then (d, .error .enoent)
  else
    match counterById d id with
    | none => (d, .error .enoent)
    | some c =>
      let d := krefGet d c
      if bindQpnFits d q c then
        match rdmaCounterBindQp d c q e with
        | (d, .ok ()) => (d, .ok ())
        | (d, .error err) => (krefPut d c none e, .error err)
      else (krefPut d c none e, .error .einval)

/-- What `rdma_counter_bind_qpn_alloc` checks. -/
def bindQpnAllocCheck (d : Dev) (port q : ℕ) (e : Env) : Except Errno Unit :=
  if d.portValid port = false then .error .einval
  else if (d.ports port).hstats.isNone then .error .eopnotsupp
  else if (d.ports port).mode = .auto then .error .einval
  else if rdmaCounterGetQp d q e = false then .error .enoent
  else if d.portValid (d.qp q).port ∧ (d.qp q).port ≠ port then .error .einval
  else .ok ()

/-- `rdma_counter_bind_qpn_alloc`. -/
def rdmaCounterBindQpnAlloc (d : Dev) (port q : ℕ) (e : Env) : Dev × Except Errno ℕ :=
  match bindQpnAllocCheck d port q e with
  | .error err => (d, .error err)
  | .ok () =>
    match allocAndBind d port q .manual e with
    | (d, none) => (d, .error .enomem)
    | (d, some c) => (d, .ok (d.counter c).id)

/-- What `rdma_counter_unbind_qpn` checks. -/
def unbindQpnCheck (d : Dev) (port q id : ℕ) (e : Env) : Except Errno Unit :=
  if d.portValid port = false then .error .einval
  else if rdmaCounterGetQp d q e = false then .error .enoent
  else if d.portValid (d.qp q).port ∧ (d.qp q).port ≠ port then .error .einval
  else
    match (d.qp q).counter with
    | none => .error .einval
    | some c =>
      if (d.counter c).id ≠ id ∨ (d.ports port).mode ≠ .manual then .error .einval else .ok ()

/-- `rdma_counter_unbind_qpn`. -/
def rdmaCounterUnbindQpn (d : Dev) (port q id : ℕ) (e : Env) : Dev × Except Errno Unit :=
  match unbindQpnCheck d port q id e with
  | .error err => (d, .error err)
  | .ok () => rdmaCounterUnbindQp d q false none e

/-- The part of `_ib_modify_qp` that binds a QP by the rule and gives it its port; the driver takes
    the change if `works`. -/
def ibModifyQp (d : Dev) (q : ℕ) (port : Option ℕ) (state : Option QpState) (works : Bool)
    (e : Env) : Dev :=
  let d := match port with
    | some p =>
      if (d.qp q).counter = none ∧ state = some .init then rdmaCounterBindQpAuto d q p e else d
    | none => d
  if works then d.setQpAttr q (port.getD (d.qp q).port) (state.getD (d.qp q).state) else d

/-- `ib_destroy_qp_user`: the forced unbind, and then the driver's, after which the QP is gone if
    the driver's works. -/
def ibDestroyQp (d : Dev) (q : ℕ) (works : Bool) (e : Env) : Dev :=
  let d := (rdmaCounterUnbindQp d q true (if works then some q else none) e).1
  if works then { d with qpns := d.qpns.erase q } else d

/-- A call, or events of a counter set. -/
inductive Op where
  | setAutoMode (port : ℕ) (mask : BitVec 32)
  | createQp (q : ℕ) (v : Qp)
  | modifyQp (q : ℕ) (port : Option ℕ) (state : Option QpState) (works : Bool) (e : Env)
  | bindQpn (port q id : ℕ) (e : Env)
  | bindQpnAlloc (port q : ℕ) (e : Env)
  | unbindQpn (port q id : ℕ) (e : Env)
  | destroyQp (q : ℕ) (works : Bool) (e : Env)
  | read (port index : ℕ) (e : Env)
  | query (c : ℕ) (e : Env)
  | traffic (id i n : ℕ)

/-- A set counts `n` more of a statistic. -/
def Dev.traffic (d : Dev) (id i n : ℕ) : Dev :=
  { d with setVal := fun k j => d.setVal k j + if k = id ∧ j = i then n else 0 }

/-- A QP is made. -/
def Dev.createQp (d : Dev) (q : ℕ) (v : Qp) : Dev :=
  { d with qp := update d.qp q v, qpns := q :: d.qpns }

def step (d : Dev) : Op → Dev
  | .setAutoMode port mask => (rdmaCounterSetAutoMode d port mask).1
  | .createQp q v => d.createQp q v
  | .modifyQp q port state works e => ibModifyQp d q port state works e
  | .bindQpn port q id e => (rdmaCounterBindQpn d port q id e).1
  | .bindQpnAlloc port q e => (rdmaCounterBindQpnAlloc d port q e).1
  | .unbindQpn port q id e => (rdmaCounterUnbindQpn d port q id e).1
  | .destroyQp q works e => ibDestroyQp d q works e
  | .read port index e => (rdmaCounterGetHwstatValue d port index e).1
  | .query c e => (rdmaCounterQueryStats d c e).1
  | .traffic id i n => d.traffic id i n

/-- The firmware gives a set that is not in use, and not set zero. -/
def Env.ok (e : Env) (d : Dev) : Prop := ∀ id ∈ e.fwAlloc, id ≠ 0 ∧ id ∉ d.sets

/-- QPs are made once, unbound, and destroyed once. -/
def ok (d : Dev) : Op → Prop
  | .createQp q v => q ∉ d.qpns ∧ v.counter = none
  | .modifyQp q _ _ _ e => q ∈ d.qpns ∧ e.ok d
  | .bindQpn _ _ _ e | .bindQpnAlloc _ _ e | .unbindQpn _ _ _ e => e.ok d
  | .destroyQp q _ e => q ∈ d.qpns ∧ e.ok d
  | .setAutoMode .. | .read .. | .query .. | .traffic .. => True

/-- `mlx5_ib_qp_set_counter` works for the QP. -/
def setWorks (d : Dev) (q : ℕ) (e : Env) : Bool :=
  (d.qp q).state = .reset ∨ d.canSet = true ∧ ((d.qp q).state = .rts → e.fwSet = true)

/-- A counter that is made gets its QP, its set and its key. -/
def allocWorks (d : Dev) (q : ℕ) (e : Env) : Prop :=
  (d.qp q).counter = none ∧ e.fwAlloc.isSome ∧ setWorks d q e ∧ e.xa

/-- The last QP of a counter goes: the query of the counter works, or would give nothing new. -/
def releaseWorks (d : Dev) (c : ℕ) (e : Env) : Prop :=
  (d.counter c).kref = 1 → e.fwQuery c ∨ (d.counter c).stats = d.setVal (d.counter c).id

/-- The rule binds a QP and the QP gets the port: the bind works, and the QP that keeps its port for
    a driver that refuses the change has none that is another. -/
def autoWorks (d : Dev) (q p : ℕ) (works : Bool) (e : Env) : Prop :=
  let keeps := works = false → d.portValid (d.qp q).port → (d.qp q).port = p
  match autoCounter d q p with
  | some _ => setWorks d q e ∧ keeps
  | none => e.kzalloc → e.stats → allocWorks d q e ∧ keeps

/-- What the sets of all counters that a port ever had have counted. -/
def Dev.total (d : Dev) (p i : ℕ) : ℕ :=
  d.past p i +
    (d.live.map fun c => if (d.counter c).port = p then d.setVal (d.counter c).id i else 0).sum

/-- The steps that do not come to an unwind of a counter that was counted or has other QPs, lose no
    statistics, leave no bound QP with another port or with a counter it has given up, and do not go
    beyond the 32 bits of a set or the 64 bits of a sum. -/
def clean (d : Dev) : Op → Prop
  | .modifyQp q port state works e =>
    match (d.qp q).counter with
    | some c => works → ∀ p ∈ port, d.portValid p → p = (d.counter c).port
    | none => ∀ p ∈ port, state = some .init → autoFor d q p → autoWorks d q p works e
  | .bindQpn port q id e =>
    (d.ports port).mode ≠ .auto → rdmaCounterGetQp d q e → ∀ c ∈ counterById d id,
      bindQpnFits d q c → (d.qp q).counter = none → setWorks d q e
  | .bindQpnAlloc port q e =>
    bindQpnAllocCheck d port q e = .ok () → e.kzalloc → e.stats → allocWorks d q e
  | .unbindQpn port q id e =>
    unbindQpnCheck d port q id e = .ok () → setWorks d q e →
      ∀ c ∈ (d.qp q).counter, releaseWorks d c e
  | .destroyQp q works e =>
    ∀ c ∈ (d.qp q).counter, releaseWorks d c e ∧ (works = false → setWorks d q e)
  | .read port index e =>
    ∀ c ∈ d.live, (d.counter c).port = port → e.fwQuery c ∨ d.setVal (d.counter c).id index = 0
  | .traffic id i n => d.setVal id i + n < 2 ^ 32 ∧ ∀ p, d.total p i + n < 2 ^ 64
  | .setAutoMode .. | .createQp .. | .query .. => True

/-- A device that has no counters and no QPs yet. -/
structure Start (d : Dev) : Prop where
  live : d.live = []
  qpns : d.qpns = []
  dealloc : d.badDealloc = false
  ports : ∀ p, (d.ports p).mode = .none ∧ (d.ports p).numCounters = 0
  hist : ∀ p h, (d.ports p).hstats = some h → ∀ i, h i = 0
  past : ∀ p i, d.past p i = 0

/-- What holds of the counters of a device. -/
structure Sound (d : Dev) : Prop where
  num : ∀ p, (d.ports p).numCounters = d.live.countP fun c => (d.counter c).port = p
  kref : ∀ c ∈ d.live, (d.counter c).kref = d.qpns.countP fun q => (d.qp q).counter = some c
  dealloc : d.badDealloc = false
  refs : ∀ q ∈ d.qpns, ∀ c, (d.qp q).counter = some c →
    c ∈ d.live ∧ (d.portValid (d.qp q).port → (d.counter c).port = (d.qp q).port)
  busy : ∀ p mask, (d.ports p).hstats.isSome → mask ≠ 0 → mask &&& ~~~ALL_AUTO_MODE_MASKS = 0 →
    ¬((d.ports p).mode = .auto ∧ (d.ports p).mask = mask) →
    ((rdmaCounterSetAutoMode d p mask).2 = .error .ebusy ↔ ∃ c ∈ d.live, (d.counter c).port = p)
  value : ∀ p i e, clean d (.read p i e) → (rdmaCounterGetHwstatValue d p i e).2 = d.total p i

/-- The invariant. `x` is a counter with a reference that no QP has: a call has taken it for a QP,
    or from a QP, and is to give it on. -/
structure Inv (d : Dev) (x : Option ℕ) : Prop where
  liveNodup : d.live.Nodup
  qpnsNodup : d.qpns.Nodup
  fresh : ∀ c ∈ d.live, c < d.fresh
  set : ∀ c ∈ d.live, (d.counter c).id ≠ 0 ∧ (d.counter c).id ∈ d.sets
  inj : ∀ c ∈ d.live, ∀ k ∈ d.live, (d.counter c).id = (d.counter k).id → c = k
  tracked : ∀ c ∈ d.live, (d.counter c).resId = some (d.counter c).id
  num : ∀ p, (d.ports p).numCounters = d.live.countP fun c => (d.counter c).port = p
  extra : ∀ c, x = some c → c ∈ d.live
  kref : ∀ c ∈ d.live, (d.counter c).kref =
    (if x = some c then 1 else 0) + d.qpns.countP fun q => (d.qp q).counter = some c
  pos : ∀ c ∈ d.live, 0 < (d.counter c).kref
  refs : ∀ q ∈ d.qpns, ∀ c, (d.qp q).counter = some c →
    c ∈ d.live ∧ (d.portValid (d.qp q).port → (d.counter c).port = (d.qp q).port)
  auto : ∀ p, (d.ports p).mode = .auto → (d.ports p).hstats.isSome
  hist : ∀ c ∈ d.live, (d.ports (d.counter c).port).hstats.isSome
  past : ∀ p i, d.past p i = ((d.ports p).hstats.getD fun _ => 0) i
  dealloc : d.badDealloc = false
  small : ∀ c ∈ d.live, ∀ i, d.setVal (d.counter c).id i < 2 ^ 32

theorem inv_start {d : Dev} (h : Start d) : Inv d none where
  liveNodup := by simp [h.live]
  qpnsNodup := by simp [h.qpns]
  fresh := by simp [h.live]
  set := by simp [h.live]
  inj := by simp [h.live]
  tracked := by simp [h.live]
  num p := by simp [h.live, (h.ports p).2]
  extra := by simp
  kref := by simp [h.live]
  pos := by simp [h.live]
  refs := by simp [h.qpns]
  auto p hp := by simp [(h.ports p).1] at hp
  hist := by simp [h.live]
  past p i := by
    rw [h.past]
    cases hh : (d.ports p).hstats with
    | none => rfl
    | some f => exact (h.hist p f hh i).symm
  dealloc := h.dealloc
  small := by simp [h.live]

theorem setCounter_eq (d : Dev) (q : ℕ) (c : Option ℕ) (e : Env) :
    (setWorks d q e = true ∧ mlx5IbQpSetCounter d q c e = (d.setQpCounter q c, .ok ())) ∨
      (setWorks d q e = false ∧ ∃ err, mlx5IbQpSetCounter d q c e = (d, .error err)) := by
  unfold mlx5IbQpSetCounter setWorks
  split_ifs with h₁ h₂ h₃ h₄
  · simp [h₁]
  · simp [h₁, h₂]
  · simp [h₂, h₄]
  · simp [h₃, h₄]
  · simp [h₂, h₃]

variable {d : Dev} {x y : Option ℕ} {c q p : ℕ} {e : Env}

/-- A write to a reference count. -/
def Dev.setKref (d : Dev) (c n : ℕ) : Dev := d.setCounter c { d.counter c with kref := n }

section
variable (d : Dev) (c n k : ℕ)

@[simp] theorem setKref_port : ((d.setKref c n).counter k).port = (d.counter k).port := by
  rcases eq_or_ne k c with rfl | hne
  · simp [Dev.setKref, Dev.setCounter]
  · simp [Dev.setKref, Dev.setCounter, hne]

@[simp] theorem setKref_id : ((d.setKref c n).counter k).id = (d.counter k).id := by
  rcases eq_or_ne k c with rfl | hne
  · simp [Dev.setKref, Dev.setCounter]
  · simp [Dev.setKref, Dev.setCounter, hne]

@[simp] theorem setKref_resId : ((d.setKref c n).counter k).resId = (d.counter k).resId := by
  rcases eq_or_ne k c with rfl | hne
  · simp [Dev.setKref, Dev.setCounter]
  · simp [Dev.setKref, Dev.setCounter, hne]

@[simp] theorem setKref_stats : ((d.setKref c n).counter k).stats = (d.counter k).stats := by
  rcases eq_or_ne k c with rfl | hne
  · simp [Dev.setKref, Dev.setCounter]
  · simp [Dev.setKref, Dev.setCounter, hne]

@[simp] theorem setKref_kref :
    ((d.setKref c n).counter k).kref = if k = c then n else (d.counter k).kref := by
  rcases eq_or_ne k c with rfl | hne
  · simp [Dev.setKref, Dev.setCounter]
  · simp [Dev.setKref, Dev.setCounter, hne]

end

/-- A count is right again after a write, for other holders. -/
theorem Inv.setKref (h : Inv d x) {n : ℕ} (hn : 0 < n) (hy : ∀ k, y = some k → k ∈ d.live)
    (hk : ∀ k ∈ d.live, (if k = c then n else (d.counter k).kref) =
      (if y = some k then 1 else 0) + d.qpns.countP fun q => (d.qp q).counter = some k) :
    Inv (d.setKref c n) y :=
  { h with
    set k hk := by
      rw [setKref_id]
      exact h.set k hk
    inj k hk l hl heq := by
      rw [setKref_id, setKref_id] at heq
      exact h.inj k hk l hl heq
    tracked k hk := by
      rw [setKref_id, setKref_resId]
      exact h.tracked k hk
    num p := by
      simp only [setKref_port]
      exact h.num p
    extra := hy
    kref k hl := by
      rw [setKref_kref]
      exact hk k hl
    pos k hl := by
      rw [setKref_kref]
      split_ifs
      · exact hn
      · exact h.pos k hl
    refs i hi k hik := by
      rw [setKref_port]
      exact h.refs i hi k hik
    hist k hk := by
      rw [setKref_port]
      exact h.hist k hk
    small := fun k hk => by
      rw [setKref_id]
      exact h.small k hk }

/-- A call takes a reference. -/
theorem Inv.get (h : Inv d none) (hc : c ∈ d.live) : Inv (krefGet d c) (some c) := by
  refine h.setKref (Nat.succ_pos _) (fun k hk => Option.some.inj hk ▸ hc) fun k hk => ?_
  have hkref := h.kref k hk
  rcases eq_or_ne k c with rfl | hne
  · simp only [reduceCtorEq, if_true, if_false] at hkref ⊢
    omega
  · simp only [hne, hne.symm, Option.some.injEq] at hkref ⊢
    exact hkref

/-- A QP's field takes the reference of a call, or a call takes that of a QP. -/
theorem Inv.setQp (h : Inv d x) (hq : q ∈ d.qpns) {v : Qp}
    (hmove : ∀ k, (if y = some k then 1 else 0) + (if v.counter = some k then 1 else 0) =
      (if x = some k then 1 else 0) + if (d.qp q).counter = some k then 1 else 0)
    (hy : ∀ k, y = some k → k ∈ d.live)
    (hv : ∀ k, v.counter = some k →
      k ∈ d.live ∧ (d.portValid v.port → (d.counter k).port = v.port)) :
    Inv { d with qp := update d.qp q v } y :=
  { h with
    extra := hy
    kref k hk := by
      have hcount : ∀ i, (update d.qp q v i).counter =
          update (fun i => (d.qp i).counter) q v.counter i := fun i => by
        rcases eq_or_ne i q with rfl | hne
        · simp
        · simp [hne]
      have hup := countP_update (fun i => (d.qp i).counter) v.counter k h.qpnsNodup hq
      have hkref := h.kref k hk
      have hmk := hmove k
      have hsame : (d.qpns.countP fun i => (update d.qp q v i).counter = some k) =
          d.qpns.countP fun i =>
            update (fun i => (d.qp i).counter) q v.counter i = some k :=
        List.countP_congr fun i _ => by rw [hcount i]
      change (d.counter k).kref = _ + d.qpns.countP fun i => (update d.qp q v i).counter = some k
      omega
    refs i hi k hik := by
      change (update d.qp q v i).counter = some k at hik
      change k ∈ d.live ∧ (d.portValid (update d.qp q v i).port →
        (d.counter k).port = (update d.qp q v i).port)
      rcases eq_or_ne i q with rfl | hne
      · rw [update_self] at hik ⊢
        exact hv k hik
      · rw [update_of_ne hne] at hik ⊢
        exact h.refs i hi k hik }

/-- A QP is bound with the reference that was taken for it. -/
theorem Inv.give (h : Inv d (some c)) (hq : q ∈ d.qpns) (hn : (d.qp q).counter = none) {v : Qp}
    (hv : v.counter = some c) (hp : d.portValid v.port → (d.counter c).port = v.port) :
    Inv { d with qp := update d.qp q v } none := by
  refine h.setQp hq (fun k => by simp [hn, hv]) nofun fun k hk => ?_
  obtain rfl := Option.some.inj (hv.symm.trans hk)
  exact ⟨h.extra _ rfl, hp⟩

/-- A QP is unbound, and its reference is to be put. -/
theorem Inv.take (h : Inv d none) (hq : q ∈ d.qpns) (hc : (d.qp q).counter = some c) :
    Inv (d.setQpCounter q none) (some c) := by
  refine h.setQp hq (fun k => by simp [hc]) (fun k hk => ?_) nofun
  obtain rfl := Option.some.inj hk
  exact (h.refs q hq _ hc).1

/-- A QP that is gone can be written. -/
theorem Inv.setGone (h : Inv d x) (hq : q ∉ d.qpns) (v : Qp) :
    Inv { d with qp := update d.qp q v } x :=
  { h with
    kref k hk := by
      have hsame : (d.qpns.countP fun i => (update d.qp q v i).counter = some k) =
          d.qpns.countP fun i => (d.qp i).counter = some k :=
        List.countP_congr fun i hi => by rw [update_of_ne (ne_of_mem_of_not_mem hi hq)]
      exact (h.kref k hk).trans (by rw [hsame])
    refs i hi k hik := by
      have hsame : update d.qp q v i = d.qp i :=
        update_of_ne (ne_of_mem_of_not_mem hi hq) ..
      change (update d.qp q v i).counter = some k at hik
      change k ∈ d.live ∧ (d.portValid (update d.qp q v i).port →
        (d.counter k).port = (update d.qp q v i).port)
      rw [hsame] at hik ⊢
      exact h.refs i hi k hik }

/-- A QP goes, and its reference is to be put. -/
theorem Inv.eraseQp (h : Inv d none) (hq : q ∈ d.qpns) :
    Inv { d with qpns := d.qpns.erase q } (d.qp q).counter :=
  { h with
    qpnsNodup := h.qpnsNodup.erase q
    extra k hk := (h.refs q hq k hk).1
    kref k hk := by
      have hkref := h.kref k hk
      have hperm := (List.perm_cons_erase hq).countP_eq fun i => decide ((d.qp i).counter = some k)
      rw [List.countP_cons] at hperm
      simp only [decide_eq_true_eq, reduceCtorEq, if_false] at hkref hperm
      change (d.counter k).kref = _ + (d.qpns.erase q).countP fun i => (d.qp i).counter = some k
      omega
    refs i hi := h.refs i (List.mem_of_mem_erase hi) }

/-- What `counter_release` does: `d'` is `d` without the counter, whose statistics are in the
    history. -/
structure Released (d : Dev) (c : ℕ) (gone : Option ℕ) (d' : Dev) : Prop where
  live : d'.live = d.live.erase c
  fresh : d'.fresh = d.fresh
  qp : d'.qp = d.qp
  qpns : d'.qpns = d.qpns
  numPorts : d'.numPorts = d.numPorts
  setVal : d'.setVal = d.setVal
  counter : ∀ k, k ≠ c → d'.counter k = d.counter k
  sets : ∀ id ∈ d.sets, id ≠ (d.counter c).id → id ∈ d'.sets
  num : ∀ p, (d'.ports p).numCounters =
    (d.ports p).numCounters - if (d.counter c).port = p then 1 else 0
  mode : ∀ p, (d'.ports p).mode = .auto → (d.ports p).mode = .auto
  hstats : ∀ p, (d'.ports p).hstats = (d.ports p).hstats.map fun h i =>
    h i + if (d.counter c).port = p then d.setVal (d.counter c).id i else 0
  past : ∀ p i, d'.past p i =
    d.past p i + if (d.counter c).port = p then d.setVal (d.counter c).id i else 0
  dealloc : d'.badDealloc = (d.badDealloc ||
    d.qpns.any fun q => decide (some q ≠ gone ∧ (d.qp q).counter = some c))

/-- The port of a counter that is freed. -/
theorem freePort_spec (pc : PortCounter) :
    let pc' : PortCounter := { pc with numCounters := pc.numCounters - 1 }
    let pc'' := if pc'.numCounters = 0 ∧ pc'.mode = .manual then (counterSetMode pc' .none 0).1
      else pc'
    pc''.numCounters = pc.numCounters - 1 ∧ (pc''.mode = .auto → pc.mode = .auto) ∧
      pc''.hstats = pc.hstats := by
  intro pc' pc''
  by_cases hz : pc'.numCounters = 0 ∧ pc'.mode = .manual
  · have hset : pc'' = { pc' with mode := .none, mask := 0 } := by
      simp [pc'', hz, counterSetMode]
    rw [hset]
    exact ⟨rfl, nofun, rfl⟩
  · have hset : pc'' = pc' := if_neg hz
    rw [hset]
    exact ⟨rfl, id, rfl⟩

/-- A set that has counted less than 32 bits hold. -/
theorem queryQCounters_eq {id : ℕ} (h : ∀ i, d.setVal id i < 2 ^ 32) :
    d.queryQCounters id = d.setVal id :=
  funext fun i => Nat.mod_eq_of_lt (h i)

/-- The counter has its latest statistics when it is released. -/
theorem query_stats (hs : ∀ i, d.setVal (d.counter c).id i < 2 ^ 32)
    (hw : e.fwQuery c ∨ (d.counter c).stats = d.setVal (d.counter c).id) :
    (rdmaCounterQueryStats d c e).1 =
      d.setCounter c { d.counter c with stats := d.setVal (d.counter c).id } := by
  unfold rdmaCounterQueryStats
  split_ifs with hf
  · rw [queryQCounters_eq hs]
  · have hstats := hw.resolve_left hf
    simp [Dev.setCounter, ← hstats]

/-- The counter with its latest statistics, and the history with them. -/
def Dev.saved (d : Dev) (c : ℕ) (h : ℕ → ℕ) : Dev :=
  let v := d.counter c
  (d.setCounter c { v with stats := d.setVal v.id }).setPort v.port
    { d.ports v.port with hstats := some fun i => h i + d.setVal v.id i }

theorem history_eq {h : ℕ → ℕ} (hh : (d.ports (d.counter c).port).hstats = some h)
    (hs : ∀ i, d.setVal (d.counter c).id i < 2 ^ 32)
    (hw : e.fwQuery c ∨ (d.counter c).stats = d.setVal (d.counter c).id) :
    counterHistoryStatUpdate d c e = d.saved c h := by
  unfold counterHistoryStatUpdate
  simp only [hh, query_stats hs hw]
  simp [Dev.saved, Dev.setCounter]

/-- The counter of the saved device is the same but for its statistics. -/
theorem saved_counter (d : Dev) (c : ℕ) (h : ℕ → ℕ) (k : ℕ) :
    ((d.saved c h).counter k).id = (d.counter k).id ∧
      ((d.saved c h).counter k).port = (d.counter k).port ∧
      (k ≠ c → (d.saved c h).counter k = d.counter k) := by
  rcases eq_or_ne k c with rfl | hne
  · simp [Dev.saved, Dev.setCounter, Dev.setPort]
  · simp [Dev.saved, Dev.setCounter, Dev.setPort, hne]

theorem counterRelease_spec (self : Option ℕ) {h : ℕ → ℕ}
    (hh : (d.ports (d.counter c).port).hstats = some h) (hid : (d.counter c).id ≠ 0)
    (hs : ∀ i, d.setVal (d.counter c).id i < 2 ^ 32)
    (hw : e.fwQuery c ∨ (d.counter c).stats = d.setVal (d.counter c).id) :
    Released d c self (counterRelease d c self e) := by
  obtain ⟨hsid, hsport, -⟩ := saved_counter d c h c
  have hpc := freePort_spec ((d.saved c h).ports (d.counter c).port)
  dsimp only at hpc
  have hsame : (d.saved c h).ports (d.counter c).port = { d.ports (d.counter c).port with
        hstats := some fun i => h i + d.setVal (d.counter c).id i } :=
    update_self ..
  have hother : ∀ p, (d.counter c).port ≠ p → (d.saved c h).ports p = d.ports p := fun p hp =>
    update_of_ne hp.symm ..
  unfold counterRelease
  rw [history_eq hh hs hw]
  unfold mlx5IbCounterDealloc rdmaCounterFree
  simp only [hsid, hsport, if_neg hid, Dev.setPort]
  refine ⟨rfl, rfl, rfl, rfl, rfl, rfl, fun k hk => (saved_counter d c h k).2.2 hk, ?_, fun p => ?_,
    fun p => ?_, fun p => ?_, fun p i => ?_, rfl⟩
  · intro id hin hne
    change id ∈ if _ then d.sets.erase _ else d.sets
    split_ifs
    · exact (List.mem_erase_of_ne hne).2 hin
    · exact hin
  · dsimp only
    rcases eq_or_ne (d.counter c).port p with rfl | hp
    · rw [update_self, if_pos rfl, hpc.1, hsame]
    · rw [update_of_ne hp.symm, if_neg hp, hother p hp]
      rfl
  · dsimp only
    rcases eq_or_ne (d.counter c).port p with rfl | hp
    · rw [update_self]
      intro hm
      have := hpc.2.1 hm
      rwa [hsame] at this
    · rw [update_of_ne hp.symm, hother p hp]
      exact id
  · dsimp only
    rcases eq_or_ne (d.counter c).port p with rfl | hp
    · rw [update_self, hpc.2.2, hsame, hh]
      simp
    · rw [update_of_ne hp.symm, hother p hp]
      simp [hp]
  · dsimp only
    rcases eq_or_ne (d.counter c).port p with rfl | hp
    · rw [update_self, if_pos rfl]
      rfl
    · rw [update_of_ne hp.symm, if_neg hp]
      rfl

/-- A counter whose only reference is that of the call is released. -/
theorem Inv.release (h : Inv d (some c)) (hz : ∀ q ∈ d.qpns, (d.qp q).counter ≠ some c) {d' : Dev}
    (hr : Released (d.setKref c 0) c none d') : Inv d' none := by
  have hc := h.extra c rfl
  have hmem : ∀ k, k ∈ d'.live ↔ k ≠ c ∧ k ∈ d.live := fun k => by
    rw [hr.live]
    exact h.liveNodup.mem_erase_iff
  have hcounter : ∀ k, k ≠ c → d'.counter k = d.counter k := fun k hk => by
    rw [hr.counter k hk]
    exact update_of_ne hk ..
  have hports := hr.num
  have hhst := hr.hstats
  have hpast := hr.past
  simp only [setKref_port] at hports hhst hpast
  change ∀ p, (d'.ports p).hstats = (d.ports p).hstats.map _ at hhst
  have hsub : ∀ k ∈ d'.live, k ∈ d.live ∧ d'.counter k = d.counter k := fun k hk =>
    ⟨((hmem k).1 hk).2, hcounter k ((hmem k).1 hk).1⟩
  refine ⟨?_, ?_, ?_, ?_, ?_, ?_, fun p => ?_, nofun, ?_, ?_, ?_, ?_, ?_, fun p i => ?_, ?_,
    fun k hk => ?_⟩
  · rw [hr.live]
    exact h.liveNodup.erase c
  · rw [hr.qpns]
    exact h.qpnsNodup
  · intro k hk
    rw [hr.fresh]
    exact h.fresh k (hsub k hk).1
  · intro k hk
    obtain ⟨hkl, heq⟩ := hsub k hk
    rw [heq]
    refine ⟨(h.set k hkl).1, hr.sets _ (h.set k hkl).2 ?_⟩
    rw [setKref_id]
    exact fun hid => ((hmem k).1 hk).1 (h.inj k hkl c hc hid)
  · intro k hk l hl hid
    rw [(hsub k hk).2, (hsub l hl).2] at hid
    exact h.inj k (hsub k hk).1 l (hsub l hl).1 hid
  · intro k hk
    rw [(hsub k hk).2]
    exact h.tracked k (hsub k hk).1
  · have hnum := h.num p
    have hperm := (List.perm_cons_erase hc).countP_eq fun k => decide ((d.counter k).port = p)
    have hsame : (d'.live.countP fun k => (d'.counter k).port = p) =
        (d.live.erase c).countP fun k => (d.counter k).port = p := by
      rw [hr.live]
      refine List.countP_congr fun k hk => ?_
      rw [hcounter k (h.liveNodup.mem_erase_iff.1 hk).1]
    rw [List.countP_cons] at hperm
    simp only [decide_eq_true_eq] at hperm
    rw [hports p, hsame]
    change (d.ports p).numCounters - _ = _
    omega
  · intro k hk
    obtain ⟨hkl, heq⟩ := hsub k hk
    have hkref := h.kref k hkl
    have hne : (some c : Option ℕ) ≠ some k := fun hck =>
      ((hmem k).1 hk).1 (Option.some.inj hck).symm
    rw [if_neg hne] at hkref
    rw [heq, hkref, hr.qpns, hr.qp, if_neg nofun]
    rfl
  · intro k hk
    rw [(hsub k hk).2]
    exact h.pos k (hsub k hk).1
  · intro i hi k hik
    rw [hr.qpns] at hi
    rw [hr.qp] at hik ⊢
    obtain ⟨hkl, hport⟩ := h.refs i hi k hik
    have hne : k ≠ c := by
      rintro rfl
      exact hz i hi hik
    refine ⟨(hmem k).2 ⟨hne, hkl⟩, ?_⟩
    rw [hcounter k hne]
    unfold Dev.portValid at hport ⊢
    rw [hr.numPorts]
    exact hport
  · intro p hp
    have := h.auto p (hr.mode p hp)
    rw [hhst p]
    simpa using this
  · intro k hk
    rw [(hsub k hk).2, hhst]
    simpa using h.hist k (hsub k hk).1
  · have hold := h.past p i
    have hlive := h.hist c hc
    rw [hpast p i, hhst p]
    change d.past p i + _ = _
    rw [hold]
    rcases hp : (d.ports p).hstats with _ | f
    · have hne : (d.counter c).port ≠ p := by
        rintro rfl
        rw [hp] at hlive
        exact nomatch hlive
      simp [hne]
    · rfl
  · rw [hr.dealloc]
    change (d.badDealloc || _) = false
    rw [h.dealloc, Bool.false_or, List.any_eq_false]
    intro i hi
    have hne : ((d.setKref c 0).qp i).counter ≠ some c := hz i hi
    simpa using hne
  · rw [(hsub k hk).2, hr.setVal]
    exact h.small k (hsub k hk).1

/-- What a released counter has counted moves to the past. -/
theorem total_release (h : Inv d (some c)) {self : Option ℕ} {d' : Dev}
    (hr : Released (d.setKref c 0) c self d') (p i : ℕ) : d'.total p i = d.total p i := by
  have hpast := hr.past p i
  simp only [setKref_port, setKref_id] at hpast
  have hperm := ((List.perm_cons_erase (h.extra c rfl)).map fun k =>
    if (d.counter k).port = p then d.setVal (d.counter k).id i else 0).sum_eq
  have hsame : (d'.live.map fun k =>
      if (d'.counter k).port = p then d'.setVal (d'.counter k).id i else 0) =
      (d.live.erase c).map fun k =>
        if (d.counter k).port = p then d.setVal (d.counter k).id i else 0 := by
    rw [hr.live]
    refine List.map_congr_left fun k hk => ?_
    rw [hr.counter k (h.liveNodup.mem_erase_iff.1 hk).1, hr.setVal, setKref_port, setKref_id]
    rfl
  unfold Dev.total
  rw [hsame, hpast, hperm]
  exact Nat.add_assoc ..

/-- PUT: a call gives its reference back. -/
theorem Inv.put (h : Inv d (some c)) (hw : releaseWorks d c e) :
    Inv (krefPut d c none e) none ∧ ∀ p i, (krefPut d c none e).total p i = d.total p i := by
  have hc := h.extra c rfl
  have hkref := h.kref c hc
  rw [if_pos rfl] at hkref
  have hput : krefPut d c none e = if (d.counter c).kref - 1 = 0 then
      counterRelease (d.setKref c ((d.counter c).kref - 1)) c none e else
      d.setKref c ((d.counter c).kref - 1) := by
    change (if ((d.setKref c _).counter c).kref = 0 then _ else _) = _
    rw [setKref_kref, if_pos rfl]
    rfl
  rw [hput]
  split_ifs with hz
  · rw [hz]
    obtain ⟨f, hf⟩ := Option.isSome_iff_exists.1 (h.hist c hc)
    have hr : Released (d.setKref c 0) c none (counterRelease (d.setKref c 0) c none e) := by
      refine counterRelease_spec none ?_ ?_ ?_ ?_ (h := f)
      · rw [setKref_port]
        exact hf
      · rw [setKref_id]
        exact (h.set c hc).1
      · rw [setKref_id]
        exact h.small c hc
      · rw [setKref_stats, setKref_id]
        exact hw (by omega)
    have hnone : ∀ q ∈ d.qpns, (d.qp q).counter ≠ some c := by
      have : (d.qpns.countP fun q => (d.qp q).counter = some c) = 0 := by omega
      simpa using List.countP_eq_zero.1 this
    exact ⟨h.release hnone hr, total_release h hr⟩
  · refine ⟨h.setKref (by omega) nofun fun k hk => ?_, fun p i => ?_⟩
    · have hkk := h.kref k hk
      rcases eq_or_ne k c with rfl | hne
      · simp only [if_true, reduceCtorEq, if_false] at hkk ⊢
        omega
      · simp only [hne, hne.symm, Option.some.injEq] at hkk ⊢
        exact hkk
    · unfold Dev.total
      simp only [setKref_port, setKref_id]
      rfl

/-- The device with a new counter, its set and its key; no QP has it yet. -/
def Dev.added (d : Dev) (port q : ℕ) (mode : CMode) (id : ℕ) : Dev :=
  { d.setPort port (countedPort (d.ports port) mode) with
    counter := update d.counter d.fresh
      { newCounter d port q mode with id := id, task := (d.qp q).task, resId := some id }
    live := d.fresh :: d.live
    fresh := d.fresh + 1
    sets := id :: d.sets
    setVal := update d.setVal id fun _ => 0 }

theorem setWorks_congr {d₁ : Dev} (hqp : d₁.qp = d.qp) (hcan : d₁.canSet = d.canSet) :
    setWorks d₁ q e = setWorks d q e := by
  simp only [setWorks, hqp, hcan]

/-- A counter gets its set with its first QP. -/
theorem bindQp_first (id : ℕ) (hn : (d.qp q).counter = none) (h0 : (d.counter c).id = 0)
    (hid : e.fwAlloc = some id) (hw : setWorks d q e = true) :
    rdmaCounterBindQp d c q e = (({ d.setCounter c { d.counter c with id := id } with
          sets := id :: d.sets
          setVal := update d.setVal id fun _ => 0 } : Dev).setQpCounter q (some c), .ok ()) := by
  unfold rdmaCounterBindQp mlx5IbCounterBindQp
  rw [hn, h0, hid]
  simp only [Option.isSome_none, Bool.false_eq_true, if_false, ne_eq, not_true_eq_false]
  obtain ⟨-, heq⟩ | ⟨hno, -⟩ := setCounter_eq ({ d.setCounter c { d.counter c with id := id } with
    sets := id :: d.sets, setVal := update d.setVal id fun _ => 0 } : Dev) q (some c) e
  · rw [heq]
  · have hyes := (setWorks_congr rfl rfl).trans hw
    exact absurd (hno.symm.trans hyes) (by simp)

/-- A counter that is made gets its QP, its set and its key. -/
theorem allocAndBind_eq (h : Inv d none) (port : ℕ) (mode : CMode) (hk : e.kzalloc = true)
    (hs : e.stats = true) (hw : allocWorks d q e) {id : ℕ} (hid : e.fwAlloc = some id)
    (hok : e.ok d) :
    allocAndBind d port q mode e =
      ((d.added port q mode id).setQpCounter q (some d.fresh), some d.fresh) := by
  obtain ⟨hn, -, hset, hxa⟩ := hw
  obtain ⟨hid0, hidn⟩ := hok id hid
  have hkeys : ∀ k ∈ d.live, (d.counter k).resId ≠ some id := fun k hk heq => by
    rw [h.tracked k hk] at heq
    exact hidn (Option.some.inj heq ▸ (h.set k hk).2)
  unfold allocAndBind
  rw [if_neg (by simp [hk, hs])]
  dsimp only
  rw [bindQp_first id]
  · dsimp only
    unfold restrackAdd
    simp only [Dev.setCounter, Dev.setQpCounter, update_self]
    rw [if_pos]
    · simp [Dev.added, Dev.setPort]
    · refine ⟨hxa, fun k hk => ?_⟩
      rcases List.mem_cons.1 hk with rfl | hk
      · simp [newCounter]
      · simpa [(h.fresh k hk).ne] using hkeys k hk
  · exact hn
  · simp [newCounter]
  · exact hid
  · exact (setWorks_congr rfl rfl).trans hset

/-- The port of a counter that is made. -/
theorem countedPort_spec (pc : PortCounter) (mode : CMode) :
    (countedPort pc mode).numCounters = pc.numCounters + 1 ∧
      (countedPort pc mode).hstats = pc.hstats ∧
      ((countedPort pc mode).mode = .auto → pc.mode = .auto) := by
  cases mode <;> simp [countedPort, counterSetMode]

/-- NEW: a counter is made for a port that has a history. -/
theorem Inv.add (h : Inv d none) (mode : CMode) {id : ℕ} (hid0 : id ≠ 0) (hidn : id ∉ d.sets)
    (hh : (d.ports p).hstats.isSome) : Inv (d.added p q mode id) (some d.fresh) := by
  have hnf : d.fresh ∉ d.live := fun hin => absurd (h.fresh _ hin) (lt_irrefl _)
  have hself : (d.added p q mode id).counter d.fresh =
      { newCounter d p q mode with id := id, task := (d.qp q).task, resId := some id } :=
    update_self ..
  have hold : ∀ k ∈ d.live, (d.added p q mode id).counter k = d.counter k := fun k hk =>
    update_of_ne (h.fresh k hk).ne ..
  have hids : ∀ k ∈ d.live, (d.counter k).id ≠ id := fun k hk heq =>
    hidn (heq ▸ (h.set k hk).2)
  obtain ⟨hcn, hch, hcm⟩ := countedPort_spec (d.ports p) mode
  have hport : (d.added p q mode id).ports p = countedPort (d.ports p) mode :=
    update_self ..
  have hpo : ∀ r, r ≠ p → (d.added p q mode id).ports r = d.ports r := fun r hr =>
    update_of_ne hr ..
  have hhst : ∀ r, ((d.added p q mode id).ports r).hstats = (d.ports r).hstats := fun r => by
    rcases eq_or_ne r p with rfl | hr
    · rw [hport, hch]
    · rw [hpo r hr]
  have hcase : ∀ k ∈ (d.added p q mode id).live, k = d.fresh ∨ k ∈ d.live := fun k hk =>
    List.mem_cons.1 hk
  refine ⟨?_, h.qpnsNodup, ?_, ?_, ?_, ?_, fun r => ?_, ?_, ?_, ?_, ?_, fun r hr => ?_, ?_,
    fun r i => ?_, h.dealloc, fun k hk i => ?_⟩
  · exact List.nodup_cons.2 ⟨hnf, h.liveNodup⟩
  · intro k hk
    rcases hcase k hk with rfl | hk
    · exact Nat.lt_succ_self _
    · exact (h.fresh k hk).trans (Nat.lt_succ_self _)
  · intro k hk
    rcases hcase k hk with rfl | hk
    · rw [hself]
      exact ⟨hid0, mem_cons_self ..⟩
    · rw [hold k hk]
      exact ⟨(h.set k hk).1, mem_cons_of_mem _ (h.set k hk).2⟩
  · intro k hk l hl heq
    rcases hcase k hk with rfl | hk <;> rcases hcase l hl with rfl | hl
    · rfl
    · rw [hself, hold l hl] at heq
      exact absurd heq.symm (hids l hl)
    · rw [hself, hold k hk] at heq
      exact absurd heq (hids k hk)
    · rw [hold k hk, hold l hl] at heq
      exact h.inj k hk l hl heq
  · intro k hk
    rcases hcase k hk with rfl | hk
    · rw [hself]
    · rw [hold k hk]
      exact h.tracked k hk
  · have hsame : (d.live.countP fun k => ((d.added p q mode id).counter k).port = r) =
        d.live.countP fun k => (d.counter k).port = r :=
      List.countP_congr fun k hk => by rw [hold k hk]
    have hnum := h.num r
    change _ = (d.fresh :: d.live).countP _
    rw [List.countP_cons, hsame, hself]
    rcases eq_or_ne r p with rfl | hr
    · rw [hport, hcn, hnum]
      simp [newCounter]
    · rw [hpo r hr, hnum]
      simp [newCounter, hr.symm]
  · intro k hk
    exact Option.some.inj hk ▸ mem_cons_self ..
  · intro k hk
    change _ = _ + d.qpns.countP fun i => (d.qp i).counter = some k
    rcases hcase k hk with rfl | hk
    · have hz : (d.qpns.countP fun i => (d.qp i).counter = some d.fresh) = 0 := by
        refine List.countP_eq_zero.2 fun i hi hik => ?_
        exact hnf (h.refs i hi _ (by simpa using hik)).1
      rw [hself, hz, if_pos rfl]
      rfl
    · have hne : (some d.fresh : Option ℕ) ≠ some k := fun hf => hnf (Option.some.inj hf ▸ hk)
      have hkref := h.kref k hk
      rw [hold k hk, if_neg hne]
      exact hkref
  · intro k hk
    rcases hcase k hk with rfl | hk
    · rw [hself]
      exact Nat.one_pos
    · rw [hold k hk]
      exact h.pos k hk
  · intro i hi k hik
    obtain ⟨hk, hpk⟩ := h.refs i hi k hik
    rw [hold k hk]
    exact ⟨mem_cons_of_mem _ hk, hpk⟩
  · rw [hhst r]
    rcases eq_or_ne r p with rfl | hne
    · exact h.auto r (hcm (hport ▸ hr))
    · exact h.auto r (hpo r hne ▸ hr)
  · intro k hk
    rw [hhst]
    rcases hcase k hk with rfl | hk
    · rw [hself]
      exact hh
    · rw [hold k hk]
      exact h.hist k hk
  · rw [hhst r]
    exact h.past r i
  · rcases hcase k hk with rfl | hk
    · rw [hself]
      change update d.setVal id (fun _ => 0) id i < 2 ^ 32
      rw [update_self]
      exact Nat.two_pow_pos 32
    · rw [hold k hk]
      change update d.setVal id (fun _ => 0) (d.counter k).id i < 2 ^ 32
      rw [update_of_ne (hids k hk)]
      exact h.small k hk i

/-- A set that is new has counted nothing. -/
theorem total_add (h : Inv d none) (mode : CMode) {id : ℕ} (hidn : id ∉ d.sets) (p q r i : ℕ) :
    (d.added p q mode id).total r i = d.total r i := by
  have hself : (d.added p q mode id).counter d.fresh =
      { newCounter d p q mode with id := id, task := (d.qp q).task, resId := some id } :=
    update_self ..
  have hnew : (d.added p q mode id).setVal id i = 0 := by
    change update d.setVal id (fun _ => 0) id i = 0
    rw [update_self]
  change d.past r i + ((d.fresh :: d.live).map _).sum = _
  rw [map_cons, sum_cons, hself, hnew, ite_self, Nat.zero_add]
  refine congrArg (d.past r i + ·) (congrArg List.sum (List.map_congr_left fun k hk => ?_))
  have hold : (d.added p q mode id).counter k = d.counter k :=
    update_of_ne (h.fresh k hk).ne ..
  have hne : (d.counter k).id ≠ id := fun heq => hidn (heq ▸ (h.set k hk).2)
  have hval : (d.added p q mode id).setVal (d.counter k).id = d.setVal (d.counter k).id :=
    update_of_ne hne ..
  rw [hold, hval]

/-- A call that keeps the invariant, and what has been counted. -/
structure Keeps (d d' : Dev) : Prop where
  inv : Inv d' none
  total : ∀ p i, d'.total p i = d.total p i

/-- A call has taken a reference to a counter for a QP, and nothing else of the QPs changed. -/
structure Taken (d : Dev) (c : ℕ) (d' : Dev) : Prop where
  inv : Inv d' (some c)
  qp : d'.qp = d.qp
  qpns : d'.qpns = d.qpns
  numPorts : d'.numPorts = d.numPorts
  total : ∀ p i, d'.total p i = d.total p i

theorem Inv.keeps (h : Inv d none) : Keeps d d := ⟨h, fun _ _ => rfl⟩

/-- The reference is the QP's. -/
theorem Taken.bound {d' : Dev} (h : Taken d c d') (hq : q ∈ d.qpns)
    (hn : (d.qp q).counter = none) {v : Qp} (hv : v.counter = some c)
    (hp : d.portValid v.port → (d'.counter c).port = v.port) :
    Keeps d { d' with qp := update d'.qp q v } where
  inv := by
    refine h.inv.give (by rwa [h.qpns]) (by rwa [h.qp]) hv fun hval => hp ?_
    unfold Dev.portValid at hval ⊢
    rwa [h.numPorts] at hval
  total := h.total

theorem total_setKref (d : Dev) (c n p i : ℕ) : (d.setKref c n).total p i = d.total p i := by
  unfold Dev.total
  simp only [setKref_port, setKref_id]
  rfl

theorem Inv.taken (h : Inv d none) (hc : c ∈ d.live) : Taken d c (krefGet d c) :=
  ⟨h.get hc, rfl, rfl, rfl, total_setKref d c _⟩

theorem Inv.takenNew (h : Inv d none) (mode : CMode) {id : ℕ} (hid : e.fwAlloc = some id)
    (hok : e.ok d) (hh : (d.ports p).hstats.isSome) :
    Taken d d.fresh (d.added p q mode id) := by
  obtain ⟨hid0, hidn⟩ := hok id hid
  exact ⟨h.add mode hid0 hidn hh, rfl, rfl, rfl, total_add h mode hidn p q⟩

/-- A reference that was taken is given back at once. -/
theorem Inv.putBack (h : Inv d none) (hc : c ∈ d.live) (e : Env) :
    Keeps d (krefPut (krefGet d c) c none e) := by
  have hpos := h.pos c hc
  have hw : releaseWorks (krefGet d c) c e := by
    intro hone
    change ((d.setKref c _).counter c).kref = 1 at hone
    rw [setKref_kref, if_pos rfl] at hone
    omega
  obtain ⟨hinv, htotal⟩ := (h.get hc).put hw
  exact ⟨hinv, fun p i => (htotal p i).trans (total_setKref d c _ p i)⟩

/-- A bound QP is not bound again. -/
theorem bindQp_bound (d : Dev) (hs : (d.qp q).counter.isSome) :
    rdmaCounterBindQp d c q e = (d, .error .einval) := if_pos hs

/-- A counter that has a set is given a QP. -/
theorem bindQp_again (d : Dev) (hn : (d.qp q).counter = none) (h0 : (d.counter c).id ≠ 0)
    (hw : setWorks d q e = true) :
    rdmaCounterBindQp d c q e = (d.setQpCounter q (some c), .ok ()) := by
  unfold rdmaCounterBindQp mlx5IbCounterBindQp
  rw [hn, if_neg (by simp), if_pos h0]
  obtain ⟨-, heq⟩ | ⟨hno, -⟩ := setCounter_eq d q (some c) e
  · simp only [heq]
  · exact absurd (hno.symm.trans hw) (by simp)

theorem krefGet_id (d : Dev) (c k : ℕ) : ((krefGet d c).counter k).id = (d.counter k).id :=
  setKref_id d c _ k

theorem krefGet_port (d : Dev) (c k : ℕ) : ((krefGet d c).counter k).port = (d.counter k).port :=
  setKref_port d c _ k

/-- `alloc_and_bind` changes nothing, or binds the QP to a new counter of the port. -/
theorem allocAndBind_spec (h : Inv d none) (mode : CMode)
    (hh : (d.ports p).hstats.isSome) (hok : e.ok d)
    (hw : e.kzalloc → e.stats → allocWorks d q e) :
    (allocAndBind d p q mode e).1 = d ∨
      e.kzalloc ∧ e.stats ∧ (d.qp q).counter = none ∧ ∃ c d', Taken d c d' ∧
        (d'.counter c).port = p ∧ (allocAndBind d p q mode e).1 = d'.setQpCounter q (some c) := by
  by_cases hm : e.kzalloc = true ∧ e.stats = true
  · obtain ⟨hk, hs⟩ := hm
    have hworks := hw hk hs
    obtain ⟨id, hid⟩ := Option.isSome_iff_exists.1 hworks.2.1
    refine .inr ⟨hk, hs, hworks.1, d.fresh, d.added p q mode id, h.takenNew mode hid hok hh, ?_, ?_⟩
    · exact congrArg Counter.port (update_self d.fresh _ d.counter)
    · rw [allocAndBind_eq h p mode hk hs hworks hid hok]
  · refine .inl ?_
    unfold allocAndBind
    cases hk : e.kzalloc <;> cases hs : e.stats <;> simp_all

/-- A tracked counter that is found is live. -/
theorem counterById_live {id : ℕ} (hc : counterById d id = some c) : c ∈ d.live :=
  List.mem_of_find?_eq_some hc

theorem autoCounter_spec (hc : autoCounter d q p = some c) :
    c ∈ d.live ∧ (d.counter c).port = p := by
  have hmem := List.argmin_mem hc
  rw [List.mem_filter] at hmem
  refine ⟨hmem.1, ?_⟩
  have := hmem.2
  simp only [Bool.decide_and, Bool.and_eq_true, decide_eq_true_eq] at this
  exact this.2.1

theorem bindQpnFits_krefGet (d : Dev) (q c : ℕ) :
    bindQpnFits (krefGet d c) q c = bindQpnFits d q c := by
  simp [bindQpnFits, krefGet, Dev.setCounter]

theorem rdmaCounterGetQp_mem (h : rdmaCounterGetQp d q e = true) : q ∈ d.qpns := by
  unfold rdmaCounterGetQp at h
  simp only [Bool.decide_and, Bool.and_eq_true, decide_eq_true_eq] at h
  exact h.1

/-- STEP: `rdma_counter_bind_qpn`. -/
theorem Inv.bindQpn (h : Inv d none) {id : ℕ} (hw : clean d (.bindQpn p q id e)) :
    Keeps d (rdmaCounterBindQpn d p q id e).1 := by
  unfold rdmaCounterBindQpn
  split_ifs with hmode hget
  · exact h.keeps
  · exact h.keeps
  have hget' : rdmaCounterGetQp d q e = true := by simpa using hget
  rcases hid : counterById d id with _ | c
  · exact h.keeps
  have hc := counterById_live hid
  dsimp only
  rw [bindQpnFits_krefGet]
  split_ifs with hfits
  · rcases hn : (d.qp q).counter with _ | k
    · have hset : setWorks (krefGet d c) q e = true :=
        (setWorks_congr rfl rfl).trans (hw hmode hget' c hid hfits hn)
      have hport : (d.counter c).port = (d.qp q).port := by
        exact (of_decide_eq_true hfits).2
      have hset0 : ((krefGet d c).counter c).id ≠ 0 := by
        rw [krefGet_id]
        exact (h.set c hc).1
      rw [bindQp_again (krefGet d c) hn hset0 hset]
      refine (h.taken hc).bound (rdmaCounterGetQp_mem hget') hn rfl fun _ => ?_
      rw [krefGet_port]
      exact hport
    · rw [bindQp_bound (krefGet d c) (Option.isSome_iff_exists.2 ⟨k, hn⟩)]
      exact h.putBack hc e
  · exact h.putBack hc e

/-- STEP: `rdma_counter_bind_qpn_alloc`. -/
theorem Inv.bindQpnAlloc (h : Inv d none) (hok : e.ok d) (hw : clean d (.bindQpnAlloc p q e)) :
    Keeps d (rdmaCounterBindQpnAlloc d p q e).1 := by
  unfold rdmaCounterBindQpnAlloc
  rcases hcheck : bindQpnAllocCheck d p q e with err | ⟨⟩
  · exact h.keeps
  have hall : (d.ports p).hstats.isSome ∧ rdmaCounterGetQp d q e = true ∧
      (d.portValid (d.qp q).port → p = (d.qp q).port) := by
    unfold bindQpnAllocCheck at hcheck
    split_ifs at hcheck with h₁ h₂ h₃ h₄ h₅
    refine ⟨by simpa [Option.isSome_iff_ne_none] using h₂, by simpa using h₄, fun hval => ?_⟩
    by_contra hne
    exact h₅ ⟨hval, Ne.symm hne⟩
  obtain ⟨hh, hget, hport⟩ := hall
  have hfst : (match allocAndBind d p q .manual e with
      | (d, none) => ((d, .error .enomem) : Dev × Except Errno ℕ)
      | (d, some c) => (d, .ok (d.counter c).id)).1 = (allocAndBind d p q .manual e).1 := by
    rcases allocAndBind d p q .manual e with ⟨d', _ | c⟩ <;> rfl
  refine hfst ▸ ?_
  obtain heq | ⟨-, -, hn, c, d', ht, hp, heq⟩ :=
    allocAndBind_spec h .manual hh hok (hw hcheck)
  · rw [heq]
    exact h.keeps
  · rw [heq]
    have hqp : (d'.qp q).port = (d.qp q).port := by rw [ht.qp]
    refine ht.bound (rdmaCounterGetQp_mem hget) hn rfl fun hval => ?_
    rw [hp, hqp]
    exact hport (hqp ▸ hval)

/-- The rule changes nothing, or binds the QP to a counter of the port. -/
theorem bindQpAuto_spec (h : Inv d none) (hok : e.ok d) (hn : (d.qp q).counter = none)
    {works : Bool} (hw : autoFor d q p → autoWorks d q p works e) :
    rdmaCounterBindQpAuto d q p e = d ∨
      (works = false → d.portValid (d.qp q).port → (d.qp q).port = p) ∧ ∃ c d', Taken d c d' ∧
        (d'.counter c).port = p ∧ rdmaCounterBindQpAuto d q p e = d'.setQpCounter q (some c) := by
  unfold rdmaCounterBindQpAuto
  split_ifs with hfor
  · have hauto : (d.ports p).hstats.isSome := h.auto p (by
      exact (of_decide_eq_true hfor).2.2.2)
    have hw' := hw hfor
    unfold autoWorks at hw'
    rcases hc : autoCounter d q p with _ | c
    · rw [hc] at hw'
      obtain heq | ⟨hk, hs, -, c, d', ht, hp, heq⟩ :=
        allocAndBind_spec h .auto hauto hok fun hk hs => (hw' hk hs).1
      · exact .inl heq
      · exact .inr ⟨(hw' hk hs).2, c, d', ht, hp, heq⟩
    · rw [hc] at hw'
      obtain ⟨hlive, hp⟩ := autoCounter_spec hc
      have hset0 : ((krefGet d c).counter c).id ≠ 0 := by
        rw [krefGet_id]
        exact (h.set c hlive).1
      refine .inr ⟨hw'.2, c, krefGet d c, h.taken hlive, (krefGet_port d c c).trans hp, ?_⟩
      dsimp only
      rw [bindQp_again (krefGet d c) hn hset0 ((setWorks_congr rfl rfl).trans hw'.1)]
  · exact .inl rfl

/-- A QP that is written keeps its counter, which is of its port. -/
theorem Inv.setAttr (h : Inv d none) (hq : q ∈ d.qpns) (port : ℕ) (state : QpState)
    (hp : ∀ c, (d.qp q).counter = some c → d.portValid port → (d.counter c).port = port) :
    Keeps d (d.setQpAttr q port state) where
  inv := by
    refine h.setQp hq (fun k => rfl) nofun fun k hk => ?_
    exact ⟨(h.refs q hq k hk).1, hp k hk⟩
  total _ _ := rfl

/-- STEP: the part of `_ib_modify_qp`. -/
theorem Inv.modifyQp (h : Inv d none) (hq : q ∈ d.qpns) (hok : e.ok d) {port : Option ℕ}
    {state : Option QpState} {works : Bool} (hw : clean d (.modifyQp q port state works e)) :
    Keeps d (ibModifyQp d q port state works e) := by
  -- a QP that the rule does not bind
  have hplain : (∀ c, (d.qp q).counter = some c → works = true → ∀ p ∈ port, d.portValid p →
      p = (d.counter c).port) → Keeps d (if works then
        d.setQpAttr q (port.getD (d.qp q).port) (state.getD (d.qp q).state) else d) := by
    intro hc
    split_ifs with hworks
    · refine h.setAttr hq _ _ fun c hqc hval => ?_
      rcases port with _ | p
      · exact (h.refs q hq c hqc).2 hval
      · exact (hc c hqc hworks p rfl hval).symm
    · exact h.keeps
  unfold ibModifyQp
  rcases hn : (d.qp q).counter with _ | c
  · rcases port with _ | p
    · exact hplain (by simp)
    · dsimp only
      rw [clean, hn] at hw
      split_ifs with hworks hinit hinit
      · obtain heq | ⟨-, c, d', ht, hp, heq⟩ := bindQpAuto_spec h hok hn (hw p rfl hinit.2)
        · rw [heq]
          exact h.setAttr hq _ _ (by simp [hn])
        · rw [heq]
          have hset : (d'.setQpCounter q (some c)).setQpAttr q p
              (state.getD ((d'.setQpCounter q (some c)).qp q).state) =
              { d' with qp := update d'.qp q { d.qp q with
                  counter := some c, port := p, state := state.getD (d.qp q).state } } := by
            simp [Dev.setQpCounter, Dev.setQpAttr, ht.qp]
          refine hset ▸ ht.bound hq hn rfl fun _ => hp
      · exact h.setAttr hq _ _ (by simp [hn])
      · obtain heq | ⟨hkeeps, c, d', ht, hp, heq⟩ := bindQpAuto_spec h hok hn (hw p rfl hinit.2)
        · rw [heq]
          exact h.keeps
        · rw [heq]
          refine ht.bound hq hn rfl fun hval => ?_
          have hqp : (d'.qp q).port = (d.qp q).port := by rw [ht.qp]
          rw [hp, hqp]
          exact (hkeeps (by simpa using hworks) (hqp ▸ hval)).symm
      · exact h.keeps
  · rw [clean, hn] at hw
    have hp := hplain fun k hk hworks => (Option.some.inj (hn.symm.trans hk)) ▸ hw hworks
    rcases port with _ | p
    · exact hp
    · simpa using hp

/-- `rdma_counter_unbind_qp` of a QP that stays. -/
theorem Inv.unbindQp (h : Inv d none) (hq : q ∈ d.qpns) (force : Bool)
    (hw : setWorks d q e = true → ∀ c ∈ (d.qp q).counter, releaseWorks d c e)
    (hf : force = true → ∀ c ∈ (d.qp q).counter, setWorks d q e = true) :
    Keeps d (rdmaCounterUnbindQp d q force none e).1 := by
  unfold rdmaCounterUnbindQp
  rcases hc : (d.qp q).counter with _ | c
  · exact h.keeps
  obtain ⟨hset, heq⟩ | ⟨hno, err, heq⟩ := setCounter_eq d q none e
  · simp only [heq]
    have hput := (h.take hq hc).put (e := e) (hw hset c hc)
    exact ⟨hput.1, hput.2⟩
  · simp only [heq]
    split_ifs with hforce
    · exact absurd (hno.symm.trans (hf hforce c hc)) (by simp)
    · exact h.keeps

/-- STEP: `rdma_counter_unbind_qpn`. -/
theorem Inv.unbindQpn (h : Inv d none) {id : ℕ} (hw : clean d (.unbindQpn p q id e)) :
    Keeps d (rdmaCounterUnbindQpn d p q id e).1 := by
  unfold rdmaCounterUnbindQpn
  rcases hcheck : unbindQpnCheck d p q id e with err | ⟨⟩
  · exact h.keeps
  · refine h.unbindQp (rdmaCounterGetQp_mem (e := e) ?_) false (hw hcheck) nofun
    unfold unbindQpnCheck at hcheck
    by_contra hget
    split_ifs at hcheck
    simp_all

/-- The QP that is being destroyed is not one that stays. -/
theorem any_erase (h : d.qpns.Nodup) (c q : ℕ) :
    (d.qpns.any fun i => decide (some i ≠ some q ∧ (d.qp i).counter = some c)) =
      (d.qpns.erase q).any fun i => decide (some i ≠ none ∧ (d.qp i).counter = some c) := by
  rw [Bool.eq_iff_iff, List.any_eq_true, List.any_eq_true]
  refine exists_congr fun i => ?_
  rw [h.mem_erase_iff]
  simp
  tauto

/-- The device when a QP is gone. -/
def Dev.without (d : Dev) (q : ℕ) : Dev := { d with qpns := d.qpns.erase q }

theorem history_qpns (d : Dev) (c : ℕ) (e : Env) :
    (counterHistoryStatUpdate d c e).qpns = d.qpns := by
  unfold counterHistoryStatUpdate rdmaCounterQueryStats
  dsimp only
  rcases (d.ports (d.counter c).port).hstats with _ | f
  · rfl
  · dsimp only
    split_ifs <;> rfl

theorem history_without (d : Dev) (c q : ℕ) (e : Env) :
    counterHistoryStatUpdate (d.without q) c e = (counterHistoryStatUpdate d c e).without q := by
  unfold counterHistoryStatUpdate rdmaCounterQueryStats Dev.without
  dsimp only
  rcases (d.ports (d.counter c).port).hstats with _ | f
  · rfl
  · dsimp only
    split_ifs <;> rfl

theorem dealloc_without (h : d.qpns.Nodup) (c q : ℕ) (e : Env) :
    mlx5IbCounterDealloc (d.without q) c none e =
      (mlx5IbCounterDealloc d c (some q) e).without q := by
  unfold mlx5IbCounterDealloc Dev.without
  dsimp only
  split_ifs
  · rfl
  · rw [any_erase h]
  · rw [any_erase h]

/-- A reference that is put for a QP that goes can be put after it is gone. -/
theorem krefPut_without (h : d.qpns.Nodup) (c q : ℕ) (e : Env) :
    (krefPut d c (some q) e).without q = krefPut (d.without q) c none e := by
  have hput : ∀ d₁ : Dev, d₁.qpns = d.qpns →
      counterRelease (d₁.without q) c none e = (counterRelease d₁ c (some q) e).without q := by
    intro d₁ h₁
    have hnd : (counterHistoryStatUpdate d₁ c e).qpns.Nodup := by
      rw [history_qpns, h₁]
      exact h
    unfold counterRelease
    dsimp only
    rw [history_without, dealloc_without hnd]
    rfl
  change Dev.without (if ((d.setKref c _).counter c).kref = 0 then _ else _) q =
    if (((d.setKref c _).without q).counter c).kref = 0 then _ else _
  by_cases hz : ((d.setKref c ((d.counter c).kref - 1)).counter c).kref = 0
  · rw [if_pos hz]
    exact (hput (d.setKref c _) rfl).symm.trans (if_pos hz).symm
  · rw [if_neg hz]
    exact (if_neg hz).symm

/-- STEP: `ib_destroy_qp_user`. -/
theorem Inv.destroyQp (h : Inv d none) (hq : q ∈ d.qpns) {works : Bool}
    (hw : clean d (.destroyQp q works e)) : Keeps d (ibDestroyQp d q works e) := by
  have hgone : q ∉ d.qpns.erase q := fun hin => (h.qpnsNodup.mem_erase_iff.1 hin).1 rfl
  have herase := h.eraseQp hq
  cases works with
  | false =>
    exact h.unbindQp hq true (fun _ c hc => (hw c hc).1) fun _ c hc => (hw c hc).2 rfl
  | true =>
    unfold ibDestroyQp rdmaCounterUnbindQp
    rcases hc : (d.qp q).counter with _ | c
    · rw [hc] at herase
      exact ⟨herase, fun _ _ => rfl⟩
    have hrel := (hw c hc).1
    rw [hc] at herase
    obtain ⟨hset, heq⟩ | ⟨hno, err, heq⟩ := setCounter_eq d q none e
    · simp only [heq]
      have hput := (herase.setGone hgone { d.qp q with counter := none }).put (e := e) hrel
      change Keeps d ((krefPut (d.setQpCounter q none) c (some q) e).without q)
      rw [krefPut_without (by exact h.qpnsNodup)]
      exact ⟨hput.1, hput.2⟩
    · simp only [heq]
      have hput := herase.put (e := e) hrel
      change Keeps d ((krefPut d c (some q) e).without q)
      rw [krefPut_without h.qpnsNodup]
      exact ⟨hput.1, hput.2⟩

/-- A port whose mode is set keeps its counters and its history. -/
theorem Inv.setMode (h : Inv d none) {pc : PortCounter}
    (hn : pc.numCounters = (d.ports p).numCounters) (hh : pc.hstats = (d.ports p).hstats)
    (hsome : pc.hstats.isSome) : Inv (d.setPort p pc) none := by
  have hport : ∀ r, ((d.setPort p pc).ports r).numCounters = (d.ports r).numCounters ∧
      ((d.setPort p pc).ports r).hstats = (d.ports r).hstats := fun r => by
    rcases eq_or_ne r p with rfl | hr
    · simp [Dev.setPort, hn, hh]
    · simp [Dev.setPort, hr]
  refine { h with
      num := fun r => ?_, extra := nofun, auto := fun r hr => ?_, hist := fun c hc => ?_,
      past := fun r i => ?_ }
  · rw [(hport r).1]
    exact h.num r
  · rcases eq_or_ne r p with rfl | hne
    · simpa [Dev.setPort] using hsome
    · rw [(hport r).2]
      refine h.auto r ?_
      simpa [Dev.setPort, hne] using hr
  · rw [(hport _).2]
    exact h.hist c hc
  · rw [(hport r).2]
    exact h.past r i

/-- STEP: `rdma_counter_set_auto_mode`. -/
theorem Inv.setAutoMode (h : Inv d none) (p : ℕ) (mask : BitVec 32) :
    Keeps d (rdmaCounterSetAutoMode d p mask).1 := by
  have hset : ∀ mode : CMode,
      (counterSetMode (d.ports p) mode mask).1.numCounters = (d.ports p).numCounters ∧
        (counterSetMode (d.ports p) mode mask).1.hstats = (d.ports p).hstats := fun mode => by
    unfold counterSetMode
    split_ifs <;> exact ⟨rfl, rfl⟩
  unfold rdmaCounterSetAutoMode
  dsimp only
  by_cases hnone : (d.ports p).hstats.isNone
  · rw [if_pos hnone]
    exact h.keeps
  have hsome : (d.ports p).hstats.isSome := by
    simpa [Option.isSome_iff_ne_none] using hnone
  generalize (if mask ≠ 0 then CMode.auto else _) = mode
  split_ifs
  · exact h.keeps
  · exact ⟨h.setMode (hset mode).1 (hset mode).2 ((hset mode).2 ▸ hsome), fun _ _ => rfl⟩

/-- STEP: a QP is made. -/
theorem Inv.createQp (h : Inv d none) (hq : q ∉ d.qpns) {v : Qp} (hv : v.counter = none) :
    Keeps d (d.createQp q v) := by
  have hset := h.setGone hq v
  refine ⟨{ hset with
      qpnsNodup := List.nodup_cons.2 ⟨hq, h.qpnsNodup⟩, kref := fun c hc => ?_,
      refs := fun i hi c hc => ?_ }, fun _ _ => rfl⟩
  · change _ = _ + (q :: d.qpns).countP _
    rw [List.countP_cons]
    have hnew : ((d.createQp q v).qp q).counter = none := by simp [Dev.createQp, hv]
    have hkref := hset.kref c hc
    rw [hnew]
    exact hkref
  · have hne : i ≠ q := by
      rintro rfl
      simp [Dev.createQp, hv] at hc
    exact hset.refs i ((List.mem_cons.1 hi).resolve_left hne) c hc

/-- The device with other statistics in the counters. -/
def Dev.withStats (d : Dev) (f : ℕ → ℕ → ℕ) : Dev :=
  { d with counter := fun c => { d.counter c with stats := f c } }

theorem Inv.withStats (h : Inv d none) (f : ℕ → ℕ → ℕ) : Keeps d (d.withStats f) :=
  ⟨{ h with extra := nofun }, fun _ _ => rfl⟩

/-- A query changes statistics only. -/
theorem queryStats_spec (d : Dev) (c : ℕ) (e : Env) :
    ∃ f, (rdmaCounterQueryStats d c e).1 = d.withStats f := by
  unfold rdmaCounterQueryStats
  split_ifs
  · refine ⟨update (fun k => (d.counter k).stats) c (d.queryQCounters (d.counter c).id), ?_⟩
    simp only [Dev.withStats, Dev.setCounter, Dev.mk.injEq, true_and, and_true]
    funext k
    rcases eq_or_ne k c with rfl | hk
    · simp
    · simp [hk]
  · exact ⟨fun k => (d.counter k).stats, rfl⟩

/-- What a read of a port adds up when the query of each counter works, or the counter has
    nothing. -/
theorem runningSum_spec (p i : ℕ) (e : Env) : ∀ (l : List ℕ) (d : Dev),
    (∃ f, (runningSum p i e l d).1 = d.withStats f) ∧
    ((∀ c ∈ l, ((d.counter c).resId.isSome ∧ ∀ i, d.setVal (d.counter c).id i < 2 ^ 32) ∧
      ((d.counter c).port = p → e.fwQuery c ∨ d.setVal (d.counter c).id i = 0)) →
    (runningSum p i e l d).2 =
      (l.map fun c => if (d.counter c).port = p then d.setVal (d.counter c).id i else 0).sum)
  | [], d => ⟨⟨fun c => (d.counter c).stats, rfl⟩, fun _ => rfl⟩
  | c :: l, d => by
    obtain ⟨f, hf⟩ := queryStats_spec d c e
    obtain ⟨⟨g, hg⟩, hsum⟩ := runningSum_spec p i e l (d.withStats f)
    obtain ⟨hd, hsum₀⟩ := runningSum_spec p i e l d
    unfold runningSum
    by_cases hp : (d.counter c).resId.isSome ∧ (d.counter c).port = p
    · rw [if_pos hp]
      by_cases hq : e.fwQuery c
      · have hq' : rdmaCounterQueryStats d c e = (d.withStats f, true) := by
          rw [← hf]
          simp [rdmaCounterQueryStats, hq]
        have hval : f c = d.queryQCounters (d.counter c).id := by
          have := congrArg (fun d => (d.counter c).stats) hf
          simpa [rdmaCounterQueryStats, hq, Dev.setCounter, Dev.withStats] using this.symm
        rw [hq']
        refine ⟨⟨g, hg⟩, fun hall => ?_⟩
        rw [queryQCounters_eq (hall c (mem_cons_self ..)).1.2] at hval
        have htail := hsum fun k hk => hall k (mem_cons_of_mem _ hk)
        rw [map_cons, sum_cons, if_pos hp.2, ← hval]
        exact congrArg (f c i + ·) htail
      · have hq' : rdmaCounterQueryStats d c e = (d, false) := by
          simp [rdmaCounterQueryStats, hq]
        rw [hq']
        refine ⟨hd, fun hall => ?_⟩
        have hz := ((hall c (mem_cons_self ..)).2 hp.2).resolve_left hq
        rw [map_cons, sum_cons, if_pos hp.2, hz, Nat.zero_add]
        exact hsum₀ fun k hk => hall k (mem_cons_of_mem _ hk)
    · rw [if_neg hp]
      refine ⟨hd, fun hall => ?_⟩
      have hne : (d.counter c).port ≠ p := fun hpp =>
        hp ⟨(hall c (mem_cons_self ..)).1.1, hpp⟩
      rw [map_cons, sum_cons, if_neg hne, Nat.zero_add]
      exact hsum₀ fun k hk => hall k (mem_cons_of_mem _ hk)

/-- What a read gives, when it gets the statistics of every counter. -/
theorem Inv.value (h : Inv d none) (p i : ℕ) (hw : clean d (.read p i e)) :
    (rdmaCounterGetHwstatValue d p i e).2 = d.total p i := by
  have hpast := h.past p i
  unfold rdmaCounterGetHwstatValue Dev.total
  rcases hh : (d.ports p).hstats with _ | f
  · rw [hh] at hpast
    have hz : ∀ n ∈ d.live.map fun c =>
        if (d.counter c).port = p then d.setVal (d.counter c).id i else 0, n = 0 := by
      intro n hn
      obtain ⟨c, hc, rfl⟩ := List.mem_map.1 hn
      have hne : (d.counter c).port ≠ p := by
        rintro rfl
        have := h.hist c hc
        rw [hh] at this
        exact nomatch this
      exact if_neg hne
    rw [hpast, List.sum_eq_zero hz]
    rfl
  · rw [hh] at hpast
    have hsum := (runningSum_spec p i e d.live d).2 fun c hc =>
      ⟨⟨by rw [h.tracked c hc]; rfl, h.small c hc⟩, hw c hc⟩
    rw [hpast]
    change (runningSum p i e d.live d).2 + f i = f i + _
    rw [hsum, Nat.add_comm]

/-- Automatic mode is refused exactly when the port has a counter. -/
theorem Inv.busy (h : Inv d none) (p : ℕ) (mask : BitVec 32) (hh : (d.ports p).hstats.isSome)
    (hm : mask ≠ 0) (hv : mask &&& ~~~ALL_AUTO_MODE_MASKS = 0)
    (hne : ¬((d.ports p).mode = .auto ∧ (d.ports p).mask = mask)) :
    (rdmaCounterSetAutoMode d p mask).2 = .error .ebusy ↔ ∃ c ∈ d.live, (d.counter c).port = p := by
  have hpos : (d.ports p).numCounters ≠ 0 ↔ ∃ c ∈ d.live, (d.counter c).port = p := by
    rw [h.num p, ← Nat.pos_iff_ne_zero, List.countP_pos_iff]
    simp
  have hnone : (d.ports p).hstats.isNone = false := by
    rw [Option.isNone_eq_false_iff]
    exact hh
  unfold rdmaCounterSetAutoMode counterSetMode
  simp only [hnone, hm, hv, ne_eq, not_false_eq_true, not_true_eq_false, and_false, if_true,
    if_false, Bool.false_eq_true]
  rw [← hpos]
  split_ifs with hz
  · simp [hz]
  · simpa using hz

theorem Inv.sound (h : Inv d none) : Sound d := { h with
  kref c hc := by
    have hkref := h.kref c hc
    rwa [if_neg nofun, Nat.zero_add] at hkref
  busy p mask := h.busy p mask
  value p i _ hw := h.value p i hw }

/-- STEP: a clean step keeps the invariant, and no total of a port goes down. -/
theorem inv_step (h : Inv d none) {o : Op} (ho : ok d o) (hw : clean d o) :
    Inv (step d o) none ∧ ∀ p i, d.total p i ≤ (step d o).total p i := by
  have hkeeps : ∀ {d' : Dev}, Keeps d d' → Inv d' none ∧ ∀ p i, d.total p i ≤ d'.total p i :=
    fun hk => ⟨hk.inv, fun p i => (hk.total p i).ge⟩
  cases o with
  | setAutoMode port mask => exact hkeeps (h.setAutoMode port mask)
  | createQp q v => exact hkeeps (h.createQp ho.1 ho.2)
  | modifyQp q port state works e => exact hkeeps (h.modifyQp ho.1 ho.2 hw)
  | bindQpn port q id e => exact hkeeps (h.bindQpn hw)
  | bindQpnAlloc port q e => exact hkeeps (h.bindQpnAlloc ho hw)
  | unbindQpn port q id e => exact hkeeps (h.unbindQpn hw)
  | destroyQp q works e => exact hkeeps (h.destroyQp ho.1 hw)
  | read port index e =>
    refine hkeeps ?_
    change Keeps d (rdmaCounterGetHwstatValue d port index e).1
    unfold rdmaCounterGetHwstatValue
    rcases (d.ports port).hstats with _ | f
    · exact h.keeps
    · obtain ⟨g, hg⟩ := (runningSum_spec port index e d.live d).1
      rw [hg]
      exact h.withStats g
  | query c e =>
    obtain ⟨g, hg⟩ := queryStats_spec d c e
    refine hkeeps ?_
    change Keeps d (rdmaCounterQueryStats d c e).1
    rw [hg]
    exact h.withStats g
  | traffic id i n =>
    refine ⟨{ h with small := fun c hc j => ?_ }, fun p j => ?_⟩
    · change d.setVal (d.counter c).id j + (if (d.counter c).id = id ∧ j = i then n else 0) < _
      have hlt := h.small c hc j
      split_ifs with hid
      · rw [hid.1, hid.2]
        exact hw.1
      · omega
    refine Nat.add_le_add_left (List.sum_le_sum fun c _ => ?_) _
    change (if (d.counter c).port = p then _ else _) ≤ if (d.counter c).port = p then _ + _ else _
    by_cases hp : (d.counter c).port = p
    · rw [if_pos hp, if_pos hp]
      exact Nat.le_add_right ..
    · rw [if_neg hp, if_neg hp]

/-- RUN: the invariant holds after every clean run from a state that has it, and no total went
    down. -/
theorem inv_run {d₀ : Dev} (h₀ : Inv d₀ none)
    (hr : Reach step (fun d o => ok d o ∧ clean d o) d₀ d) :
    Inv d none ∧ ∀ p i, d₀.total p i ≤ d.total p i := by
  induction hr with
  | start => exact ⟨h₀, fun p i => le_rfl⟩
  | next _ ho ih =>
    obtain ⟨hinv, hle⟩ := inv_step ih.1 ho.1 ho.2
    exact ⟨hinv, fun p i => (ih.2 p i).trans (hle p i)⟩

/-- A device of two ports with histories. -/
def Dev.start : Dev where
  numPorts := 2
  ports := fun _ => { mode := .none, mask := 0, hstats := some fun _ => 0, numCounters := 0 }
  counter := fun _ => { port := 0, id := 0, kref := 0, mode := .none, mask := 0, qpType := 0,
                        task := none, stats := fun _ => 0, resId := none }
  live := []
  fresh := 0
  qp := fun _ => { port := 0, qpType := 2, task := none, noTrack := false, listed := true,
                   counter := none, state := .reset }
  qpns := []
  canSet := true
  sets := []
  setVal := fun _ _ => 0
  past := fun _ _ => 0
  badDealloc := false

theorem start_start : Start Dev.start where
  live := rfl
  qpns := rfl
  dealloc := rfl
  ports _ := ⟨rfl, rfl⟩
  hist _ _ hh _ := by
    cases hh
    rfl
  past _ _ := rfl

/-- Calls in which all works; `ALLOC_Q_COUNTER` gives the set. -/
def Env.works (id : ℕ) : Env where
  kzalloc := true
  stats := true
  xa := true
  fwAlloc := some id
  fwSet := true
  fwQuery := fun _ => true
  fwDealloc := true
  capable := true

/-- A QP of a user. -/
def userQp (port : ℕ) (state : QpState) : Qp where
  port := port
  qpType := 2
  task := some 7
  noTrack := false
  listed := true
  counter := none
  state := state

instance (e : Env) (d : Dev) : Decidable (e.ok d) :=
  inferInstanceAs (Decidable (∀ id ∈ e.fwAlloc, id ≠ 0 ∧ id ∉ d.sets))

instance (d : Dev) : (o : Op) → Decidable (ok d o)
  | .createQp q v => inferInstanceAs (Decidable (q ∉ d.qpns ∧ v.counter = none))
  | .modifyQp q _ _ _ e => inferInstanceAs (Decidable (q ∈ d.qpns ∧ e.ok d))
  | .bindQpn _ _ _ e => inferInstanceAs (Decidable (e.ok d))
  | .bindQpnAlloc _ _ e => inferInstanceAs (Decidable (e.ok d))
  | .unbindQpn _ _ _ e => inferInstanceAs (Decidable (e.ok d))
  | .destroyQp q _ e => inferInstanceAs (Decidable (q ∈ d.qpns ∧ e.ok d))
  | .setAutoMode .. => instDecidableTrue
  | .read .. => instDecidableTrue
  | .query .. => instDecidableTrue
  | .traffic .. => instDecidableTrue

instance (d : Dev) (q : ℕ) (e : Env) : Decidable (allocWorks d q e) :=
  inferInstanceAs (Decidable (_ ∧ _ ∧ _ ∧ _))

/-- Two QPs with one counter; the second is destroyed, the first is unbound with what it had. -/
def shared : List Op :=
  [.createQp 0 (userQp 1 .rts), .createQp 1 (userQp 1 .rts), .bindQpnAlloc 1 0 (.works 5),
    .bindQpn 1 1 5 (.works 6), .traffic 5 0 30, .destroyQp 1 true (.works 6), .traffic 5 0 12,
    .unbindQpn 1 0 5 (.works 6)]

/-- A QP that has a counter is to get one of its own; then all is undone. -/
def twiceBound : List Op :=
  [.createQp 0 (userQp 1 .rts), .bindQpnAlloc 1 0 (.works 5), .bindQpnAlloc 1 0 (.works 6),
    .destroyQp 0 true (.works 6)]

/-- A QP is to have the counter of another, and the firmware refuses. -/
def bindRefused : List Op :=
  [.createQp 0 (userQp 1 .rts), .createQp 1 (userQp 1 .rts), .bindQpnAlloc 1 0 (.works 5),
    .bindQpn 1 1 5 { Env.works 6 with fwSet := false }]

end RdmaDriver.QpCounter
