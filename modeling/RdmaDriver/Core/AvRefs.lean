import RdmaDriver.Schemes.RefCount
import RdmaDriver.Schemes.Run
import Mathlib.Tactic.Common
import Mathlib.Logic.Function.Basic

/-! @src drivers/infiniband/core/cm.c | name:Address vectors | scheme:run | family:refcount

    An address vector of the CM names a port, and with it holds a reference to the port's
    `cm_device`; its AH attributes hold one to the entry of their source GID. An id has two of them,
    and a call that makes one for it has it on its stack first:

        path - init -> av, on the stack - move, under the lock -> id.av - destroy -> ·
        MAD  - init -> id.av

    The calls run side by side, with the stack of each part of the state; a step is what one of them
    does up to the next place where others may come in between. -/

namespace RdmaDriver.AvRefs
open RdmaDriver.Schemes
open Function (update update_comm update_eq_self update_eq_self_iff update_of_ne update_self)
open List (mem_append_left mem_cons mem_singleton not_mem_nil)

/-- `struct cm_port`, by its device and its number. -/
structure CmPort where
  cmDev : ℕ
  portNum : ℕ
  deriving DecidableEq

/-- `struct cm_av`; `sgidAttr` is that of its `ah_attr`. -/
structure CmAv where
  port : Option CmPort
  sgidAttr : Option ℕ
  pkeyIndex : ℕ
  timeout : ℕ

/-- The address vectors there are: two of an id, and `av`, `alt_av` and a lone `ah_attr` on the
    stack of a call. -/
inductive Slot where
  | av (id : ℕ) | altAv (id : ℕ)
  | tmpAv (call : ℕ) | tmpAlt (call : ℕ) | ahAttr (call : ℕ)
  deriving DecidableEq

/-- The address vectors and the references. `gidRef` is how many references to a GID entry were
    taken here and not put; `released` counts the calls of `cm_dev_release`; `bad`: a reference was
    taken or put when there was none left, or a port was used then. -/
structure Avs where
  field : Slot → CmAv
  devRef : ℕ → ℕ
  gidRef : ℕ → ℕ
  released : ℕ → ℕ
  bad : Bool

/-- `cm_device_put`. -/
def cmDevicePut (a : Avs) (d : ℕ) : Avs :=
  if a.devRef d = 0 then { a with bad := true }
  else { a with
    devRef := update a.devRef d (a.devRef d - 1)
    released := if a.devRef d = 1 then update a.released d (a.released d + 1)
      else a.released }

/-- `kref_get` of a `cm_device`. -/
def cmDeviceGet (a : Avs) (d : ℕ) : Avs :=
  if a.devRef d = 0 then { a with bad := true }
  else { a with devRef := update a.devRef d (a.devRef d + 1) }

/-- `rdma_put_gid_attr`. -/
def rdmaPutGidAttr (a : Avs) (g : ℕ) : Avs :=
  if a.gidRef g = 0 then { a with bad := true }
  else { a with gidRef := update a.gidRef g (a.gidRef g - 1) }

/-- `rdma_hold_gid_attr`, or a lookup that returns the entry with a reference. -/
def rdmaHoldGidAttr (a : Avs) (g : ℕ) : Avs :=
  { a with gidRef := update a.gidRef g (a.gidRef g + 1) }

def Avs.set (a : Avs) (f : Slot) (av : CmAv) : Avs :=
  { a with field := update a.field f av }

/-- `cm_set_av_port`. -/
def cmSetAvPort (a : Avs) (f : Slot) (port : Option CmPort) : Avs :=
  let oldPort := (a.field f).port
  if oldPort = port then a
  else
    let a := a.set f { a.field f with port := port }
    let a := match oldPort with
      | some p => cmDevicePut a p.cmDev
      | none => a
    match port with
    | some p => cmDeviceGet a p.cmDev
    | none => a

/-- `rdma_destroy_ah_attr`. -/
def rdmaDestroyAhAttr (a : Avs) (f : Slot) : Avs :=
  match (a.field f).sgidAttr with
  | some g =>
    let a := rdmaPutGidAttr a g
    a.set f { a.field f with sgidAttr := none }
  | none => a

/-- `rdma_move_ah_attr`. -/
def rdmaMoveAhAttr (a : Avs) (dest src : Slot) : Avs :=
  let a := rdmaDestroyAhAttr a dest
  let a := a.set dest { a.field dest with sgidAttr := (a.field src).sgidAttr }
  a.set src { a.field src with sgidAttr := none }

/-- What `ib_init_ah_attr_from_wc` does: the GID entry it found, if any, and whether it succeeds. It
    may fail with the entry in `ah_attr`. -/
structure FromWc where
  sgidAttr : Option ℕ
  ok : Bool

/-- `ib_init_ah_attr_from_wc`. It zeroes `ah_attr` first. -/
def ibInitAhAttrFromWc (a : Avs) (f : Slot) (wc : FromWc) : Avs × Bool :=
  let a := match wc.sgidAttr with
    | some g => rdmaHoldGidAttr a g
    | none => a
  (a.set f { a.field f with sgidAttr := wc.sgidAttr }, wc.ok)

/-- `cm_init_av_for_lap`. -/
def cmInitAvForLap (a : Avs) (port : CmPort) (pkeyIndex : ℕ) (ahAttr av : Slot) : Avs :=
  let a := cmSetAvPort a av (some port)
  let a := a.set av { a.field av with pkeyIndex := pkeyIndex }
  rdmaMoveAhAttr a av ahAttr

/-- `cm_init_av_for_response`. -/
def cmInitAvForResponse (a : Avs) (port : CmPort) (pkeyIndex : ℕ) (wc : FromWc) (av : Slot) :
    Avs × Bool :=
  let a := cmSetAvPort a av (some port)
  let a := a.set av { a.field av with pkeyIndex := pkeyIndex }
  ibInitAhAttrFromWc a av wc

/-- What `cm_init_av_by_path` meets: no port for the path; without an `sgid_attr`, a GID entry on a
    port that has no IB CM; no P_Key; no AH attributes; or all is there. -/
inductive ByPath where
  | noPort
  | noCm (g : ℕ)
  | noPkey (p : CmPort)
  | noAh (p : CmPort) (pkeyIndex : ℕ)
  | ok (p : CmPort) (pkeyIndex timeout : ℕ) (sgidAttr : Option ℕ)

/-- `cm_init_av_by_path`. `get_cm_port_from_path` puts the entry it found only if it has a port. -/
def cmInitAvByPath (a : Avs) (av : Slot) : ByPath → Avs × Bool
  | .noPort => (a, false)
  | .noCm g => (rdmaHoldGidAttr a g, false)
  | .noPkey _ => (a.set av { a.field av with pkeyIndex := 65535 }, false)
  | .noAh p pkeyIndex =>
    let a := a.set av { a.field av with pkeyIndex := pkeyIndex }
    (cmSetAvPort a av (some p), false)
  | .ok p pkeyIndex timeout sgidAttr =>
    let a := a.set av { a.field av with pkeyIndex := pkeyIndex }
    let a := cmSetAvPort a av (some p)
    let a := match sgidAttr with
      | some g => rdmaHoldGidAttr a g
      | none => a
    let a := a.set av { a.field av with timeout := timeout }
    let a := rdmaDestroyAhAttr a av
    (a.set av { a.field av with sgidAttr := sgidAttr }, true)

/-- `cm_move_av_from_path`. -/
def cmMoveAvFromPath (a : Avs) (dest src : Slot) : Avs :=
  let a := cmSetAvPort a dest (a.field src).port
  let a := cmSetAvPort a src none
  let a := a.set dest { a.field dest with pkeyIndex := (a.field src).pkeyIndex }
  let a := rdmaMoveAhAttr a dest src
  a.set dest { a.field dest with timeout := (a.field src).timeout }

/-- `cm_destroy_av`. -/
def cmDestroyAv (a : Avs) (av : Slot) : Avs :=
  let a := rdmaDestroyAhAttr a av
  cmSetAvPort a av none

/-- `cm_alloc_msg` and `cm_form_tid` use the port of an address vector. -/
def usePort (a : Avs) (av : Slot) : Avs :=
  match (a.field av).port with
  | some p => if a.devRef p.cmDev = 0 then { a with bad := true } else a
  | none => a

/-- `cm_migrate`, where the state of the id allows it. -/
def cmMigrate (a : Avs) (id : ℕ) : Avs := a.set (.av id) (a.field (.altAv id))

/-- Where a call is: `ib_send_cm_req` with `av` made, and `alt_av` still to make; with both made;
    `ib_send_cm_sidr_req` with `av` made; `cm_lap_handler` with `ah_attr` made, and with `alt_av`
    made too; `cm_req_handler` with the new id's `av` made for the response, and made by the path.
    -/
inductive Stage where
  | none
  | req (id : ℕ) (alt : Bool)
  | reqBoth (id : ℕ)
  | sidrReq (id : ℕ)
  | lapAh (id : ℕ) (port : CmPort)
  | lapAlt (id : ℕ) (port : CmPort)
  | reqRcvd (id : ℕ) (port : CmPort)
  | reqPath (id : ℕ) (port : CmPort)
  deriving DecidableEq

/-- The id a call works on. -/
def Stage.id : Stage → Option ℕ
  | .req i _ | .reqBoth i | .sidrReq i | .lapAh i _ | .lapAlt i _ => some i
  | _ => Option.none

/-- The id that `cm_req_handler` has made and no one else knows yet. -/
def Stage.own : Stage → Option ℕ
  | .reqRcvd i _ | .reqPath i _ => some i
  | _ => Option.none

/-- The port on which the MAD came that a handler works on. -/
def Stage.port : Stage → Option CmPort
  | .lapAh _ p | .lapAlt _ p | .reqRcvd _ p | .reqPath _ p => some p
  | _ => Option.none

/-- The CM: its address vectors, those that there are or have been, its calls, the ids that others
    know, the ports of the MADs in `cm.wq`, and the devices: with the reference of `cm_add_one`, in
    the middle of it, and in `cm.device_list`. -/
structure Cm where
  avs : Avs
  slots : List Slot
  call : ℕ → Stage
  live : ℕ → Bool
  works : List CmPort
  base : ℕ → Bool
  adding : ℕ → Bool
  listed : ℕ → Bool

/-- A call begins, with its stack zeroed. -/
def Cm.enter (s : Cm) (c : ℕ) : Cm :=
  { s with slots := s.slots ++ [.tmpAv c, .tmpAlt c, .ahAttr c] }

def CmAv.zero : CmAv := ⟨none, none, 0, 0⟩

/-- A call returns; what is on its stack is gone. -/
def Cm.leave (s : Cm) (c : ℕ) : Cm :=
  { s with
    avs := ((s.avs.set (.tmpAv c) .zero).set (.tmpAlt c) .zero).set (.ahAttr c) .zero
    call := update s.call c .none }

def Cm.goto (s : Cm) (c : ℕ) (st : Stage) : Cm := { s with call := update s.call c st }

/-- `cm_alloc_id_priv`. -/
def cmAllocIdPriv (s : Cm) (i : ℕ) : Cm :=
  { s with slots := s.slots ++ [.av i, .altAv i] }

/-- `cm_finalize_id`: others may know the id. -/
def cmFinalizeId (s : Cm) (i : ℕ) : Cm := { s with live := update s.live i true }

/-- `cm_destroy_id`, which may send a last MAD, waits until no one uses the id, and frees it. -/
def cmDestroyId (s : Cm) (i : ℕ) : Cm :=
  { s with
    avs := cmDestroyAv (cmDestroyAv (usePort s.avs (.av i)) (.av i)) (.altAv i)
    live := update s.live i false }

/-- The steps. `cm_add_one` registers its ports, MADs come in on them, and it puts the device in the
    list, or fails. -/
inductive Ev where
  | addOne (d : ℕ) | addEnd (d : ℕ) (ok : Bool) | goingDown (d : ℕ) | removeOne (d : ℕ)
  | recv (port : CmPort)
  | createId (i : ℕ) | send (i : ℕ) | migrate (i : ℕ) (may : Bool) | destroyId (i : ℕ)
  | sendReq (c i : ℕ) (alt : Bool) (res : ByPath)
  | sendReqAlt (c : ℕ) (res : ByPath)
  | sendReqMove (c : ℕ)
  | sendSidrReq (c i : ℕ) (res : ByPath)
  | sendSidrReqMove (c : ℕ)
  | lap (c i : ℕ) (port : CmPort) (wc : FromWc)
  | lapPath (c : ℕ) (res : ByPath)
  | lapMove (c pkeyIndex : ℕ)
  | req (c i : ℕ) (port : CmPort) (pkeyIndex : ℕ) (wc : FromWc)
  | reqMatch (c : ℕ) (found : Bool) (res : ByPath)
  | reqAlt (c : ℕ) (res : Option ByPath)
  | sidrReq (i : ℕ) (port : CmPort) (pkeyIndex : ℕ) (wc : FromWc) (keep : Bool)

/-- `ib_send_cm_req` up to `av`. -/
def ibSendCmReq (s : Cm) (c i : ℕ) (alt : Bool) (res : ByPath) : Cm :=
  let s := s.enter c
  match cmInitAvByPath s.avs (.tmpAv c) res with
  | (a, false) => { s with avs := a }.leave c
  | (a, true) => { s with avs := a }.goto c (.req i alt)

/-- `ib_send_cm_req`: the alternate path. -/
def ibSendCmReqAlt (s : Cm) (c : ℕ) (res : ByPath) : Cm :=
  match s.call c with
  | .req i true =>
    match cmInitAvByPath s.avs (.tmpAlt c) res with
    | (a, false) => { s with avs := cmDestroyAv a (.tmpAv c) }.leave c
    | (a, true) => { s with avs := a }.goto c (.reqBoth i)
  | _ => s

/-- `ib_send_cm_req`: under the lock. -/
def ibSendCmReqMove (s : Cm) (c : ℕ) : Cm :=
  match s.call c with
  | .req i false =>
    let a := cmMoveAvFromPath s.avs (.av i) (.tmpAv c)
    { s with avs := usePort a (.av i) }.leave c
  | .reqBoth i =>
    let a := cmMoveAvFromPath s.avs (.av i) (.tmpAv c)
    let a := cmMoveAvFromPath a (.altAv i) (.tmpAlt c)
    { s with avs := usePort a (.av i) }.leave c
  | _ => s

/-- `ib_send_cm_sidr_req` up to `av`. -/
def ibSendCmSidrReq (s : Cm) (c i : ℕ) (res : ByPath) : Cm :=
  let s := s.enter c
  match cmInitAvByPath s.avs (.tmpAv c) res with
  | (a, false) => { s with avs := a }.leave c
  | (a, true) => { s with avs := a }.goto c (.sidrReq i)

/-- `ib_send_cm_sidr_req`: under the lock. -/
def ibSendCmSidrReqMove (s : Cm) (c : ℕ) : Cm :=
  match s.call c with
  | .sidrReq i =>
    let a := cmMoveAvFromPath s.avs (.av i) (.tmpAv c)
    { s with avs := usePort a (.av i) }.leave c
  | _ => s

/-- `cm_lap_handler` up to `ah_attr`. -/
def cmLapHandler (s : Cm) (c i : ℕ) (port : CmPort) (wc : FromWc) : Cm :=
  let s := s.enter c
  match ibInitAhAttrFromWc s.avs (.ahAttr c) wc with
  | (a, false) => { s with avs := a }.leave c
  | (a, true) => { s with avs := a }.goto c (.lapAh i port)

/-- `cm_lap_handler`: the alternate path. -/
def cmLapHandlerPath (s : Cm) (c : ℕ) (res : ByPath) : Cm :=
  match s.call c with
  | .lapAh i port =>
    match cmInitAvByPath s.avs (.tmpAlt c) res with
    | (a, false) => { s with avs := rdmaDestroyAhAttr a (.ahAttr c) }.leave c
    | (a, true) => { s with avs := a }.goto c (.lapAlt i port)
  | _ => s

/-- `cm_lap_handler`: under the lock. -/
def cmLapHandlerMove (s : Cm) (c pkeyIndex : ℕ) : Cm :=
  match s.call c with
  | .lapAlt i port =>
    let a := cmInitAvForLap s.avs port pkeyIndex (.ahAttr c) (.av i)
    { s with avs := cmMoveAvFromPath a (.altAv i) (.tmpAlt c) }.leave c
  | _ => s

/-- `cm_req_handler` up to the `av` for a response. -/
def cmReqHandler (s : Cm) (c i : ℕ) (port : CmPort) (pkeyIndex : ℕ) (wc : FromWc) : Cm :=
  let s := cmAllocIdPriv (s.enter c) i
  match cmInitAvForResponse s.avs port pkeyIndex wc (.av i) with
  | (a, false) => (cmDestroyId { s with avs := a } i).leave c
  | (a, true) => { s with avs := a }.goto c (.reqRcvd i port)

/-- `cm_req_handler`: a listener is found or not, and the `av` is made again by the path. -/
def cmReqHandlerMatch (s : Cm) (c : ℕ) (found : Bool) (res : ByPath) : Cm :=
  match s.call c with
  | .reqRcvd i port =>
    if found then
      match cmInitAvByPath (cmDestroyAv s.avs (.av i)) (.av i) res with
      | (a, false) => (cmDestroyId { s with avs := a } i).leave c
      | (a, true) => { s with avs := a }.goto c (.reqPath i port)
    else (cmDestroyId s i).leave c
  | _ => s

/-- `cm_req_handler`: the alternate path, if there is one. -/
def cmReqHandlerAlt (s : Cm) (c : ℕ) (res : Option ByPath) : Cm :=
  match s.call c, res with
  | .reqPath i _, some res =>
    match cmInitAvByPath s.avs (.altAv i) res with
    | (a, false) => (cmDestroyId { s with avs := a } i).leave c
    | (a, true) => cmFinalizeId ({ s with avs := a }.leave c) i
  | .reqPath i _, none => cmFinalizeId (s.leave c) i
  | _, _ => s

/-- `cm_sidr_req_handler`; the id is kept, or destroyed again. -/
def cmSidrReqHandler (s : Cm) (i : ℕ) (port : CmPort) (pkeyIndex : ℕ) (wc : FromWc) (keep : Bool) :
    Cm :=
  let s := cmAllocIdPriv s i
  match cmInitAvForResponse s.avs port pkeyIndex wc (.av i) with
  | (a, ok) => if ok && keep then cmFinalizeId { s with avs := a } i
    else cmDestroyId { s with avs := a } i

/-- `cm_add_one` up to the last port: others may hold the device from here on. -/
def cmAddOne (s : Cm) (d : ℕ) : Cm :=
  { s with
    avs := { s.avs with devRef := update s.avs.devRef d 1 }
    base := update s.base d true
    adding := update s.adding d true }

/-- The end of `cm_add_one`: `list_add_tail`, or `free`, which does not flush `cm.wq`. -/
def cmAddOneEnd (s : Cm) (d : ℕ) (ok : Bool) : Cm :=
  if ok then { s with adding := update s.adding d false, listed := update s.listed d true }
  else { s with
    avs := cmDevicePut s.avs d
    base := update s.base d false
    adding := update s.adding d false }

/-- `cm_work_handler` takes a MAD out of `cm.wq`. -/
def Cm.take (s : Cm) (port : CmPort) : Cm := { s with works := s.works.erase port }

def step (s : Cm) : Ev → Cm
  | .addOne d => cmAddOne s d
  | .addEnd d ok => cmAddOneEnd s d ok
  | .recv port => { s with works := s.works ++ [port] }
  | .goingDown d => { s with listed := update s.listed d false }
  | .removeOne d => { s with avs := cmDevicePut s.avs d, base := update s.base d false }
  | .createId i => cmFinalizeId (cmAllocIdPriv s i) i
  | .send i => { s with avs := usePort s.avs (.av i) }
  | .migrate i may => if may then { s with avs := cmMigrate s.avs i } else s
  | .destroyId i => cmDestroyId s i
  | .sendReq c i alt res => ibSendCmReq s c i alt res
  | .sendReqAlt c res => ibSendCmReqAlt s c res
  | .sendReqMove c => ibSendCmReqMove s c
  | .sendSidrReq c i res => ibSendCmSidrReq s c i res
  | .sendSidrReqMove c => ibSendCmSidrReqMove s c
  | .lap c i port wc => cmLapHandler (s.take port) c i port wc
  | .lapPath c res => cmLapHandlerPath s c res
  | .lapMove c pkeyIndex => cmLapHandlerMove s c pkeyIndex
  | .req c i port pkeyIndex wc => cmReqHandler (s.take port) c i port pkeyIndex wc
  | .reqMatch c found res => cmReqHandlerMatch s c found res
  | .reqAlt c res => cmReqHandlerAlt s c res
  | .sidrReq i port pkeyIndex wc keep => cmSidrReqHandler (s.take port) i port pkeyIndex wc keep

/-- A call works on id `i`. -/
def Cm.busy (s : Cm) (i : ℕ) : Bool := s.slots.any fun
  | .tmpAv c => (s.call c).id == some i
  | _ => false

/-- A MAD that came on a port of `d` is in `cm.wq`, or a handler works on it. -/
def Cm.handling (s : Cm) (d : ℕ) : Bool :=
  s.works.any (fun p => p.cmDev == d) || s.slots.any fun
    | .tmpAv c => (s.call c).port.map CmPort.cmDev == some d
    | _ => false

/-- The port of a path belongs to a device in `cm.device_list`. -/
def ByPath.found (s : Cm) : ByPath → Prop
  | .noPort | .noCm _ => True
  | .noPkey p | .noAh p _ | .ok p .. => s.listed p.cmDev = true

/-- What callers and the core keep to: ids, calls and devices are new when they begin; an id is used
    while it is there and destroyed when no call works on it; `get_cm_port_from_path` finds ports of
    listed devices; a MAD comes in on a port that is registered, and `cm_remove_one` gives a device up
    after `flush_workqueue`; no LAP comes on a RoCE port. -/
def ok (s : Cm) : Ev → Prop
  | .addOne d => s.avs.devRef d = 0 ∧ s.avs.released d = 0 ∧ s.base d = false
  | .goingDown d => s.listed d = true
  | .removeOne d => s.base d = true ∧ s.listed d = false ∧ s.handling d = false ∧
      s.adding d = false
  | .addEnd d _ => s.base d = true ∧ s.listed d = false ∧ s.adding d = true
  | .recv port => s.base port.cmDev = true
  | .createId i => .av i ∉ s.slots
  | .send i | .migrate i _ => s.live i = true
  | .destroyId i => s.live i = true ∧ s.busy i = false
  | .sendReq c i _ res => .tmpAv c ∉ s.slots ∧ s.live i = true ∧ res.found s
  | .sendReqAlt _ res => res.found s
  | .sendReqMove _ => True
  | .sendSidrReq c i res => .tmpAv c ∉ s.slots ∧ s.live i = true ∧ res.found s
  | .sendSidrReqMove _ => True
  | .lap c i port wc => .tmpAv c ∉ s.slots ∧ s.live i = true ∧ port ∈ s.works ∧
      (wc.ok = false → wc.sgidAttr = none)
  | .lapPath _ res => res.found s
  | .lapMove _ _ => True
  | .req c i port _ _ => .tmpAv c ∉ s.slots ∧ .av i ∉ s.slots ∧ port ∈ s.works
  | .reqMatch _ _ res => res.found s
  | .reqAlt _ (some res) => res.found s
  | .reqAlt _ none => True
  | .sidrReq i port _ _ _ => .av i ∉ s.slots ∧ port ∈ s.works

/-- The lookup does not find the GID of the path on a port without IB CM. -/
def ByPath.hasCm : ByPath → Prop
  | .noCm _ => False
  | _ => True

/-- Nor do the AH attributes fail after the port was set. -/
def ByPath.whole : ByPath → Prop
  | .noCm _ | .noAh .. => False
  | _ => True

/-- An id migrates only between vectors with ports of one device and the same GID entry; a vector on
    the stack of a call gets its AH attributes when it gets its port; `cm_add_one` fails only while no
    MAD of its ports is there. -/
def clean (s : Cm) : Ev → Prop
  | .migrate i may => may = true →
      (s.avs.field (.av i)).port.map CmPort.cmDev = (s.avs.field (.altAv i)).port.map CmPort.cmDev ∧
        (s.avs.field (.av i)).sgidAttr = (s.avs.field (.altAv i)).sgidAttr
  | .sendReq _ _ _ res | .sendReqAlt _ res | .sendSidrReq _ _ res | .lapPath _ res => res.whole
  | .reqMatch _ _ res | .reqAlt _ (some res) => res.hasCm
  | .addEnd d ok => ok = false → s.handling d = false
  | _ => True

def Cm.start : Cm where
  avs := ⟨fun _ => .zero, fun _ => 0, fun _ => 0, fun _ => 0, false⟩
  slots := []
  call _ := .none
  live _ := false
  works := []
  base _ := false
  adding _ := false
  listed _ := false

/-! ### What holds of the references -/

/-- The device whose reference an address vector holds. -/
def Avs.ownDev (a : Avs) (f : Slot) : Option ℕ := (a.field f).port.map CmPort.cmDev

/-- An address vector that holds no reference. -/
def Avs.Free (a : Avs) (f : Slot) : Prop := (a.field f).port = none ∧ (a.field f).sgidAttr = none

/-- Every reference is counted, and was counted whenever it was used. -/
structure Core (base : ℕ → Bool) (slots : List Slot) (a : Avs) : Prop where
  nodup : slots.Nodup
  dev : Counts a.devRef (fun d => if base d then 1 else 0) slots a.ownDev
  gid : Counts a.gidRef (fun _ => 0) slots fun f => (a.field f).sgidAttr
  out : ∀ f ∉ slots, a.Free f
  released : ∀ d, a.released d = 0 ∨ a.released d = 1 ∧ a.devRef d = 0
  bad : a.bad = false

variable {base : ℕ → Bool} {slots : List Slot} {a : Avs} {f g : Slot} {p : CmPort} {v : CmAv}

/-- Someone besides `f` holds the device of port `p`. -/
def Held (base : ℕ → Bool) (slots : List Slot) (a : Avs) (f : Slot) (p : CmPort) : Prop :=
  base p.cmDev = true ∨ ∃ g ∈ slots, g ≠ f ∧ (a.field g).port = some p

section
variable (a : Avs) (f : Slot) (v : CmAv)

@[simp] theorem Avs.set_field : (a.set f v).field = update a.field f v := rfl

theorem Avs.set_ownDev : (a.set f v).ownDev = update a.ownDev f (v.port.map CmPort.cmDev) := by
  funext i
  rcases eq_or_ne i f with rfl | hne
  · simp [Avs.ownDev]
  · simp [Avs.ownDev, hne]

theorem Avs.set_sgidAttr : (fun i => ((a.set f v).field i).sgidAttr) =
      update (fun i => (a.field i).sgidAttr) f v.sgidAttr := by
  funext i
  rcases eq_or_ne i f with rfl | hne
  · simp
  · simp [hne]

end

theorem Core.out_set (h : Core base slots a) (hf : f ∈ slots) (v : CmAv) :
    ∀ i ∉ slots, (a.set f v).Free i := by
  intro i hi
  have hne : i ≠ f := by
    rintro rfl
    exact hi hf
  simpa [Avs.Free, hne] using h.out i hi

/-- DATA: a vector that keeps its references may change. -/
theorem Core.set (h : Core base slots a) (hf : f ∈ slots)
    (hp : v.port.map CmPort.cmDev = (a.field f).port.map CmPort.cmDev)
    (hs : v.sgidAttr = (a.field f).sgidAttr) : Core base slots (a.set f v) where
  nodup := h.nodup
  dev := by
    rw [Avs.set_ownDev, hp, show (a.field f).port.map CmPort.cmDev = a.ownDev f from rfl,
      update_eq_self]
    exact h.dev
  gid := by
    rw [Avs.set_sgidAttr, hs, update_eq_self]
    exact h.gid
  out := h.out_set hf v
  released := h.released
  bad := h.bad

theorem Core.devRef_pos (h : Core base slots a) (hf : f ∈ slots) (hp : (a.field f).port = some p) :
    0 < a.devRef p.cmDev := by
  have := h.dev.pos hf (k := p.cmDev) (by rw [Avs.ownDev, hp]; rfl)
  omega

theorem Core.held_pos (h : Core base slots a) (hp : Held base slots a f p) :
    0 < a.devRef p.cmDev := by
  rcases hp with hb | ⟨g, hg, -, hp⟩
  · have := h.dev p.cmDev
    dsimp only at this
    rw [if_pos hb] at this
    omega
  · exact h.devRef_pos hg hp

/-- PUT: a vector gives its port up. -/
theorem Core.putPort (h : Core base slots a) (hf : f ∈ slots) (hp : (a.field f).port = some p) :
    Core base slots (cmDevicePut (a.set f { a.field f with port := none }) p.cmDev) := by
  have hpos := h.devRef_pos hf hp
  have h0 : (a.set f { a.field f with port := none }).devRef p.cmDev ≠ 0 := by
    change a.devRef p.cmDev ≠ 0
    omega
  rw [cmDevicePut, if_neg h0]
  refine ⟨h.nodup, ?_, ?_, h.out_set hf _, ?_, h.bad⟩
  · have := h.dev.drop h.nodup hf (k := p.cmDev) (by rw [Avs.ownDev, hp]; rfl)
    have hown := Avs.set_ownDev a f { a.field f with port := none }
    rw [show ({ a.field f with port := none } : CmAv).port.map CmPort.cmDev = none from rfl] at hown
    rw [← hown] at this
    exact this
  · have := Avs.set_sgidAttr a f { a.field f with port := none }
    have hkeep : update (fun i => (a.field i).sgidAttr) f (a.field f).sgidAttr =
        fun i => (a.field i).sgidAttr := update_eq_self f fun i => (a.field i).sgidAttr
    rw [this, hkeep]
    exact h.gid
  · intro d
    change (if a.devRef p.cmDev = 1 then update a.released p.cmDev (a.released p.cmDev + 1)
      else a.released) d = 0 ∨ (if a.devRef p.cmDev = 1 then update a.released p.cmDev
        (a.released p.cmDev + 1) else a.released) d = 1 ∧
          update a.devRef p.cmDev (a.devRef p.cmDev - 1) d = 0
    rcases eq_or_ne d p.cmDev with rfl | hne
    · have hr : a.released p.cmDev = 0 := by
        rcases h.released p.cmDev with hr | ⟨-, hr⟩
        · exact hr
        · omega
      split_ifs with h1
      · rw [update_self, update_self]
        omega
      · exact .inl hr
    · rw [update_of_ne hne]
      split_ifs with h1
      · rw [update_of_ne hne]
        exact h.released d
      · exact h.released d

/-- GET: a vector without a port takes one whose device is there. -/
theorem Core.getPort (h : Core base slots a) (hf : f ∈ slots) (hn : (a.field f).port = none)
    (hpos : 0 < a.devRef p.cmDev) :
    Core base slots (cmDeviceGet (a.set f { a.field f with port := some p }) p.cmDev) := by
  have h0 : (a.set f { a.field f with port := some p }).devRef p.cmDev ≠ 0 := by
    change a.devRef p.cmDev ≠ 0
    omega
  rw [cmDeviceGet, if_neg h0]
  refine ⟨h.nodup, ?_, ?_, h.out_set hf _, ?_, h.bad⟩
  · have := h.dev.take h.nodup hf (by rw [Avs.ownDev, hn]; rfl) p.cmDev
    have hown := Avs.set_ownDev a f { a.field f with port := some p }
    rw [show ({ a.field f with port := some p } : CmAv).port.map CmPort.cmDev = some p.cmDev
      from rfl] at hown
    rw [← hown] at this
    exact this
  · have := Avs.set_sgidAttr a f { a.field f with port := some p }
    have hkeep : update (fun i => (a.field i).sgidAttr) f (a.field f).sgidAttr =
        fun i => (a.field i).sgidAttr := update_eq_self f fun i => (a.field i).sgidAttr
    rw [this, hkeep]
    exact h.gid
  · intro d
    change a.released d = 0 ∨ a.released d = 1 ∧
      update a.devRef p.cmDev (a.devRef p.cmDev + 1) d = 0
    rcases eq_or_ne d p.cmDev with rfl | hne
    · rcases h.released p.cmDev with hr | ⟨-, hr⟩
      · exact .inl hr
      · omega
    · rw [update_of_ne hne]
      exact h.released d

theorem cmDevicePut_set (a : Avs) (f : Slot) (v : CmAv) (d : ℕ) :
    cmDevicePut (a.set f v) d = (cmDevicePut a d).set f v := by
  unfold cmDevicePut Avs.set
  split_ifs <;> rfl

theorem cmDevicePut_field (a : Avs) (d : ℕ) : (cmDevicePut a d).field = a.field := by
  unfold cmDevicePut
  split_ifs <;> rfl

theorem cmDeviceGet_field (a : Avs) (d : ℕ) : (cmDeviceGet a d).field = a.field := by
  unfold cmDeviceGet
  split_ifs <;> rfl

theorem Avs.set_set (a : Avs) (f : Slot) (v w : CmAv) : (a.set f v).set f w = a.set f w := by
  simp [Avs.set]

/-- `cm_set_av_port` changes the port of one vector. -/
@[simp] theorem cmSetAvPort_field (a : Avs) (f : Slot) (port : Option CmPort) :
    (cmSetAvPort a f port).field = update a.field f { a.field f with port := port } := by
  unfold cmSetAvPort
  dsimp only
  split_ifs with he
  · rw [← he, update_eq_self]
  · cases hold : (a.field f).port <;> cases port <;>
      simp [cmDevicePut_field, cmDeviceGet_field]

/-- PORT: `cm_set_av_port`. -/
theorem Core.setAvPort (h : Core base slots a) (hf : f ∈ slots) (port : Option CmPort)
    (hp : ∀ p, port = some p → Held base slots a f p) : Core base slots (cmSetAvPort a f port) := by
  rw [cmSetAvPort]
  split_ifs with he
  · exact h
  · rcases hold : (a.field f).port with - | q
    · rcases port with - | p
      · exact absurd hold he
      · exact h.getPort hf hold (h.held_pos (hp p rfl))
    · have hput := h.putPort hf hold
      rcases port with - | p
      · exact hput
      · have hheld : Held base slots
            (cmDevicePut (a.set f { a.field f with port := none }) q.cmDev) f p := by
          rcases hp p rfl with hb | ⟨g, hg, hne, hgp⟩
          · exact .inl hb
          · refine .inr ⟨g, hg, hne, ?_⟩
            rw [cmDevicePut_field, Avs.set_field, update_of_ne hne]
            exact hgp
        have hget := hput.getPort hf (p := p) (by simp [cmDevicePut_field]) (hput.held_pos hheld)
        rw [cmDevicePut_field, Avs.set_field, update_self, ← cmDevicePut_set, Avs.set_set] at hget
        exact hget

@[simp] theorem rdmaDestroyAhAttr_field (a : Avs) (f : Slot) : (rdmaDestroyAhAttr a f).field =
    update a.field f { a.field f with sgidAttr := none } := by
  unfold rdmaDestroyAhAttr rdmaPutGidAttr
  split
  · split_ifs <;> rfl
  · rename_i hn
    rw [← hn, update_eq_self]

/-- GID: a vector gives its GID entry up. -/
theorem Core.destroyAhAttr (h : Core base slots a) (hf : f ∈ slots) :
    Core base slots (rdmaDestroyAhAttr a f) := by
  rw [rdmaDestroyAhAttr]
  rcases hs : (a.field f).sgidAttr with - | g
  · exact h
  · have hpos : 0 < a.gidRef g := h.gid.pos hf hs
    have hput : rdmaPutGidAttr a g = { a with gidRef := update a.gidRef g (a.gidRef g - 1) } :=
      if_neg (by omega)
    have hset := Avs.set_sgidAttr { a with gidRef := update a.gidRef g (a.gidRef g - 1) } f
      { a.field f with sgidAttr := none }
    have hdrop := h.gid.drop h.nodup hf hs
    dsimp only
    rw [hput]
    refine ⟨h.nodup, ?_, ?_, h.out_set hf _, h.released, h.bad⟩
    · have hown := Avs.set_ownDev a f { a.field f with sgidAttr := none }
      have hkeep : update a.ownDev f ((a.field f).port.map CmPort.cmDev) = a.ownDev :=
        update_eq_self f a.ownDev
      change Counts a.devRef _ slots (a.set f { a.field f with sgidAttr := none }).ownDev
      rw [hown, hkeep]
      exact h.dev
    · rw [hset]
      exact hdrop

/-- GID: a vector that has none takes a GID entry. -/
theorem Core.holdGidAttr (h : Core base slots a) (hf : f ∈ slots) (hn : (a.field f).sgidAttr = none)
    (hp : v.port = (a.field f).port) {s : Option ℕ} (hs : v.sgidAttr = s) :
    Core base slots ((match s with
      | some g => rdmaHoldGidAttr a g
      | none => a).set f v) := by
  rcases s with - | g
  · exact h.set hf (by rw [hp]) (hs.trans hn.symm)
  · have hset := Avs.set_sgidAttr (rdmaHoldGidAttr a g) f v
    have htake := h.gid.take h.nodup hf hn g
    refine ⟨h.nodup, ?_, ?_, h.out_set hf _, h.released, h.bad⟩
    · have hown := Avs.set_ownDev a f v
      have hkeep : update a.ownDev f (v.port.map CmPort.cmDev) = a.ownDev := by
        rw [hp]
        exact update_eq_self f a.ownDev
      change Counts a.devRef _ slots (a.set f v).ownDev
      rw [hown, hkeep]
      exact h.dev
    · dsimp only
      rw [hset, hs]
      exact htake

theorem rdmaMoveAhAttr_field (a : Avs) {dest src : Slot} (hne : dest ≠ src) :
    (rdmaMoveAhAttr a dest src).field = update (update a.field dest
        { a.field dest with sgidAttr := (a.field src).sgidAttr })
        src { a.field src with sgidAttr := none } := by
  unfold rdmaMoveAhAttr
  simp [update_of_ne hne.symm]

/-- GID: `rdma_move_ah_attr`. -/
theorem Core.moveAhAttr (h : Core base slots a) {dest src : Slot} (hd : dest ∈ slots)
    (hs : src ∈ slots) (hne : dest ≠ src) : Core base slots (rdmaMoveAhAttr a dest src) := by
  have h₁ := h.destroyAhAttr hd
  have hnone : ((rdmaDestroyAhAttr a dest).field dest).sgidAttr = none := by simp
  have hmove := h₁.gid.move h₁.nodup hd hs hne hnone
  rw [rdmaMoveAhAttr]
  generalize rdmaDestroyAhAttr a dest = b at h₁ hmove
  refine ⟨h.nodup, ?_, ?_, ?_, h₁.released, h₁.bad⟩
  · have hown₁ := Avs.set_ownDev b dest { b.field dest with sgidAttr := (b.field src).sgidAttr }
    have hown₂ := Avs.set_ownDev
      (b.set dest { b.field dest with sgidAttr := (b.field src).sgidAttr }) src
      { (b.set dest { b.field dest with sgidAttr := (b.field src).sgidAttr }).field src with
        sgidAttr := none }
    have hkeep₁ : update b.ownDev dest ((b.field dest).port.map CmPort.cmDev) = b.ownDev :=
      update_eq_self dest b.ownDev
    have hkeep₂ : update b.ownDev src ((b.field src).port.map CmPort.cmDev) = b.ownDev :=
      update_eq_self src b.ownDev
    have hsrc : (b.set dest { b.field dest with sgidAttr := (b.field src).sgidAttr }).field src =
        b.field src := update_of_ne hne.symm _ _
    rw [hown₂, hown₁]
    rw [hsrc, hkeep₁, hkeep₂]
    exact h₁.dev
  · rw [Avs.set_sgidAttr, Avs.set_sgidAttr]
    exact hmove
  · intro i hi
    have hid : i ≠ dest := by
      rintro rfl
      exact hi hd
    have his : i ≠ src := by
      rintro rfl
      exact hi hs
    simpa [Avs.Free, hid, his] using h₁.out i hi

/-- DESTROY: `cm_destroy_av`. -/
theorem Core.destroyAv (h : Core base slots a) (hf : f ∈ slots) :
    Core base slots (cmDestroyAv a f) :=
  (h.destroyAhAttr hf).setAvPort hf none fun _ hp => absurd hp.symm (Option.some_ne_none _)

theorem cmDestroyAv_field (a : Avs) (f : Slot) : (cmDestroyAv a f).field =
    update a.field f { a.field f with port := none, sgidAttr := none } := by
  unfold cmDestroyAv
  simp

/-- USE: a port is used while its device is there. -/
theorem Core.usePort (h : Core base slots a) : usePort a f = a := by
  rw [AvRefs.usePort]
  split
  · rename_i p hp
    have hf : f ∈ slots := by
      by_contra hn
      rw [(h.out f hn).1] at hp
      cases hp
    have := h.devRef_pos hf hp
    exact if_neg (by omega)
  · rfl

/-- RETURN: what is on the stack of a call and holds nothing is gone. -/
theorem Core.clear (h : Core base slots a) (hf : a.Free f) : Core base slots (a.set f .zero) := by
  by_cases hm : f ∈ slots
  · refine h.set hm ?_ hf.2.symm
    rw [hf.1]
    rfl
  · have hsame : ∀ {α : Type} (π : CmAv → α), π .zero = π (a.field f) →
        (fun i => π ((a.set f .zero).field i)) = fun i => π (a.field i) := by
      intro α π hπ
      funext i
      rcases eq_or_ne i f with rfl | hne
      · simpa using hπ
      · simp [hne]
    have hdev := hsame (fun v => v.port.map CmPort.cmDev) (by rw [hf.1]; rfl)
    have hgid := hsame CmAv.sgidAttr hf.2.symm
    refine ⟨h.nodup, ?_, ?_, ?_, h.released, h.bad⟩
    · change Counts a.devRef _ slots fun i => ((a.set f .zero).field i).port.map CmPort.cmDev
      rw [hdev]
      exact h.dev
    · rw [hgid]
      exact h.gid
    · intro i hi
      rcases eq_or_ne i f with rfl | hne
      · simp [Avs.Free, CmAv.zero]
      · simpa [Avs.Free, hne] using h.out i hi

theorem cmMoveAvFromPath_field (a : Avs) {dest src : Slot} (hne : dest ≠ src) :
    (cmMoveAvFromPath a dest src).field = update (update a.field dest (a.field src)) src
        { a.field src with port := none, sgidAttr := none } := by
  unfold cmMoveAvFromPath
  simp only [Avs.set_field, rdmaMoveAhAttr_field _ hne]
  funext i
  rcases eq_or_ne i src with rfl | his
  · simp [update_of_ne hne.symm]
  · rcases eq_or_ne i dest with rfl | hid
    · simp [update_of_ne hne, update_of_ne hne.symm]
    · simp [update_of_ne his, update_of_ne hid]

section
variable (h : Core base slots a)
include h

/-- MOVE: `cm_move_av_from_path`. The source holds its device until the destination does. -/
theorem Core.moveAvFromPath {dest src : Slot} (hd : dest ∈ slots)
    (hs : src ∈ slots) (hne : dest ≠ src) : Core base slots (cmMoveAvFromPath a dest src) := by
  have h₁ := h.setAvPort hd (a.field src).port fun p hp => .inr ⟨src, hs, hne.symm, hp⟩
  have h₂ := h₁.setAvPort hs none fun _ hp => absurd hp.symm (Option.some_ne_none _)
  have h₃ := h₂.set hd (v := {
      (cmSetAvPort (cmSetAvPort a dest (a.field src).port) src none).field dest
    with pkeyIndex := ((cmSetAvPort (cmSetAvPort a dest (a.field src).port) src none).field
      src).pkeyIndex }) rfl rfl
  have h₄ := h₃.moveAhAttr hd hs hne
  exact h₄.set hd rfl rfl

/-- The new AH attributes hold their GID entry before the old ones put theirs. -/
theorem Core.destroy_hold (hf : f ∈ slots) (g : ℕ) :
    rdmaDestroyAhAttr (rdmaHoldGidAttr a g) f = rdmaHoldGidAttr (rdmaDestroyAhAttr a f) g := by
  rcases hs : (a.field f).sgidAttr with - | g₀
  · simp only [rdmaDestroyAhAttr, rdmaHoldGidAttr, hs]
  · have hpos : 0 < a.gidRef g₀ := h.gid.pos hf hs
    have h₀ : a.gidRef g₀ ≠ 0 := by omega
    have h₁ : update a.gidRef g (a.gidRef g + 1) g₀ ≠ 0 := by
      rcases eq_or_ne g₀ g with rfl | hne
      · rw [update_self]
        omega
      · rwa [update_of_ne hne]
    have hcomm : update (update a.gidRef g (a.gidRef g + 1)) g₀
          (update a.gidRef g (a.gidRef g + 1) g₀ - 1) =
        update (update a.gidRef g₀ (a.gidRef g₀ - 1)) g
          (update a.gidRef g₀ (a.gidRef g₀ - 1) g + 1) := by
      funext i
      rcases eq_or_ne g₀ g with rfl | hne
      · rcases eq_or_ne i g₀ with rfl | hi
        · simp only [update_self]
          omega
        · simp only [update_of_ne hi]
      · rw [update_of_ne hne, update_of_ne hne.symm, update_comm hne.symm]
    have e₀ : rdmaPutGidAttr a g₀ =
        { a with gidRef := update a.gidRef g₀ (a.gidRef g₀ - 1) } := if_neg h₀
    have e₁ : rdmaPutGidAttr (rdmaHoldGidAttr a g) g₀ = { rdmaHoldGidAttr a g with
        gidRef := update (rdmaHoldGidAttr a g).gidRef g₀
          ((rdmaHoldGidAttr a g).gidRef g₀ - 1) } := if_neg h₁
    rw [rdmaDestroyAhAttr, rdmaDestroyAhAttr,
      show ((rdmaHoldGidAttr a g).field f).sgidAttr = some g₀ from hs, hs]
    dsimp only
    rw [e₀, e₁]
    simp only [Avs.set, rdmaHoldGidAttr]
    rw [hcomm]

/-- INIT: `cm_init_av_by_path`. If it fails the vector holds what it held, unless the AH attributes
    failed. -/
theorem Core.initAvByPath (hf : f ∈ slots) {res : ByPath}
    (hcm : res.hasCm) (hbase : ∀ p k, res = .noAh p k → base p.cmDev = true)
    (hbase' : ∀ p k t s, res = .ok p k t s → base p.cmDev = true) :
    Core base slots (cmInitAvByPath a f res).1 ∧
      (∀ g ≠ f, (cmInitAvByPath a f res).1.field g = a.field g) ∧
      (res.whole → (cmInitAvByPath a f res).2 = false → a.Free f →
        (cmInitAvByPath a f res).1.Free f) := by
  cases res with
  | noPort => exact ⟨h, fun _ _ => rfl, fun _ _ hfree => hfree⟩
  | noCm => exact hcm.elim
  | noPkey q =>
    refine ⟨h.set hf rfl rfl, fun g hg => update_of_ne hg _ _, fun _ _ hfree => ?_⟩
    simpa [cmInitAvByPath, Avs.Free] using hfree
  | noAh q k =>
    refine ⟨?_, fun g hg => ?_, fun hw => hw.elim⟩
    · have h₁ := h.set hf (v := { a.field f with pkeyIndex := k }) rfl rfl
      refine h₁.setAvPort hf _ fun p hp => .inl ?_
      rw [← Option.some.inj hp]
      exact hbase q k rfl
    · simp [cmInitAvByPath, hg]
  | ok q k t s =>
    refine ⟨?_, fun g hg => ?_, fun _ hf => by cases hf⟩
    · have h₁ := (h.set hf (v := { a.field f with pkeyIndex := k }) rfl rfl).setAvPort hf
        (some q) fun p hp => .inl (by
          rw [← Option.some.inj hp]
          exact hbase' q k t s rfl)
      change Core base slots (Avs.set _ f _)
      generalize cmSetAvPort (a.set f { a.field f with pkeyIndex := k }) f (some q) = b at h₁
      cases s with
      | none =>
        have h₂ := h₁.set hf (v := { b.field f with timeout := t }) rfl rfl
        exact (h₂.destroyAhAttr hf).set hf rfl (by simp)
      | some g =>
        have h₂ := h₁.set hf (v := { b.field f with timeout := t }) rfl rfl
        have h₃ := h₂.destroyAhAttr hf
        have hhold := h₂.destroy_hold hf g
        change rdmaDestroyAhAttr ((rdmaHoldGidAttr b g).set f
          { (rdmaHoldGidAttr b g).field f with timeout := t }) f = _ at hhold
        rw [hhold]
        refine h₃.holdGidAttr hf (s := some g) ?_ ?_ rfl
        · simp
        · simp [rdmaHoldGidAttr]
    · cases s <;> simp [cmInitAvByPath, rdmaHoldGidAttr, hg]

/-- INIT: `cm_init_av_for_lap`. -/
theorem Core.initAvForLap {ahAttr av : Slot} (ha : ahAttr ∈ slots)
    (hv : av ∈ slots) (hne : av ≠ ahAttr) (hp : base p.cmDev = true) (k : ℕ) :
    Core base slots (cmInitAvForLap a p k ahAttr av) := by
  have h₁ := h.setAvPort hv (some p) fun q hq => .inl (by rwa [← Option.some.inj hq])
  have h₂ := h₁.set hv (v := { (cmSetAvPort a av (some p)).field av with pkeyIndex := k }) rfl rfl
  exact h₂.moveAhAttr hv ha hne

end

theorem cmInitAvForLap_field (a : Avs) {ahAttr av : Slot} (hne : av ≠ ahAttr) (p : CmPort) (k : ℕ) :
    (cmInitAvForLap a p k ahAttr av).field = update (update a.field av
      { a.field av with port := some p, pkeyIndex := k, sgidAttr := (a.field ahAttr).sgidAttr })
      ahAttr { a.field ahAttr with sgidAttr := none } := by
  unfold cmInitAvForLap
  simp only [rdmaMoveAhAttr_field _ hne]
  funext i
  rcases eq_or_ne i ahAttr with rfl | hi
  · simp [update_of_ne hne.symm]
  · rcases eq_or_ne i av with rfl | hiv
    · simp [update_of_ne hne.symm]
    · simp [update_of_ne hi, update_of_ne hiv]

/-- INIT: `ib_init_ah_attr_from_wc` into a vector without a GID entry. -/
theorem Core.initAhAttrFromWc (h : Core base slots a) (hf : f ∈ slots)
    (hn : (a.field f).sgidAttr = none) (wc : FromWc) :
    Core base slots (ibInitAhAttrFromWc a f wc).1 := by
  obtain ⟨s, b⟩ := wc
  cases s with
  | none => exact h.set hf rfl hn.symm
  | some g =>
    exact h.holdGidAttr hf (v := { a.field f with sgidAttr := some g }) (s := some g) hn rfl rfl

theorem ibInitAhAttrFromWc_field (a : Avs) (f : Slot) (wc : FromWc) :
    (ibInitAhAttrFromWc a f wc).1.field =
      update a.field f { a.field f with sgidAttr := wc.sgidAttr } := by
  obtain ⟨s, b⟩ := wc
  cases s <;> rfl

/-- INIT: `cm_init_av_for_response` of a new id. -/
theorem Core.initAvForResponse (h : Core base slots a) (hf : f ∈ slots)
    (hn : (a.field f).sgidAttr = none) (hp : base p.cmDev = true) (k : ℕ) (wc : FromWc) :
    Core base slots (cmInitAvForResponse a p k wc f).1 ∧
      ∀ g ≠ f, (cmInitAvForResponse a p k wc f).1.field g = a.field g := by
  have h₁ := h.setAvPort hf (some p) fun q hq => .inl (by rwa [← Option.some.inj hq])
  have h₂ := h₁.set hf (v := { (cmSetAvPort a f (some p)).field f with pkeyIndex := k }) rfl rfl
  refine ⟨h₂.initAhAttrFromWc hf ?_ wc, fun g hg => ?_⟩
  · simpa using hn
  · unfold cmInitAvForResponse
    simp [ibInitAhAttrFromWc_field, hg]

/-- The vectors on the stack that hold something. -/
def Stage.uses (c : ℕ) : Stage → List Slot
  | .req _ _ | .sidrReq _ => [.tmpAv c]
  | .reqBoth _ => [.tmpAv c, .tmpAlt c]
  | .lapAh _ _ => [.ahAttr c]
  | .lapAlt _ _ => [.ahAttr c, .tmpAlt c]
  | _ => []

/-- The stack of a call. -/
def stackOf (c : ℕ) : List Slot := [.tmpAv c, .tmpAlt c, .ahAttr c]

/-- What holds between the steps: the references are right, and who holds them is an id that is
    known, an id its handler works on, or a call that is where it has made the vector. -/
structure Inv (s : Cm) : Prop where
  core : Core s.base s.slots s.avs
  listed : ∀ d, s.listed d = true → s.base d = true
  ids : ∀ i, .av i ∈ s.slots ↔ .altAv i ∈ s.slots
  stack : ∀ c, .tmpAv c ∈ s.slots ∨ s.call c ≠ .none → ∀ f ∈ stackOf c, f ∈ s.slots
  fresh : ∀ c, .tmpAv c ∉ s.slots → ∀ f ∈ stackOf c, f ∉ s.slots
  live : ∀ i, s.live i = true → .av i ∈ s.slots
  dead : ∀ i, s.live i = false → (∀ c, (s.call c).own ≠ some i) →
    s.avs.Free (.av i) ∧ s.avs.Free (.altAv i)
  on : ∀ c i, (s.call c).id = some i → s.live i = true
  own : ∀ c i, (s.call c).own = some i → s.live i = false ∧ .av i ∈ s.slots ∧
    ∀ c', (s.call c').own = some i → c' = c
  work : ∀ c p, (s.call c).port = some p → s.base p.cmDev = true
  free : ∀ c, ∀ f ∈ stackOf c, f ∉ (s.call c).uses c → s.avs.Free f
  ahPort : ∀ c, (s.avs.field (.ahAttr c)).port = none
  queued : ∀ p ∈ s.works, s.base p.cmDev = true

variable {s : Cm} {c i : ℕ} {st : Stage}

/-- The vectors a call on id `i` may change. -/
def reach (c i : ℕ) : List Slot := [.av i, .altAv i, .tmpAv c, .tmpAlt c, .ahAttr c]

theorem stack_not_reach {c c' i : ℕ} (hne : c' ≠ c) {f : Slot} (hf : f ∈ stackOf c') :
    f ∉ reach c i := by
  simp only [stackOf, mem_cons, not_mem_nil, or_false] at hf
  rcases hf with rfl | rfl | rfl <;> simp [reach, hne]

theorem ids_not_reach {c i j : ℕ} (hne : j ≠ i) : .av j ∉ reach c i ∧ .altAv j ∉ reach c i := by
  simp [reach, hne]

theorem Avs.Free.congr {a b : Avs} (h : a.Free f) (he : b.field f = a.field f) : b.Free f := by
  rw [Avs.Free, he]
  exact h

section
variable (h : Inv s) (hcore : Core s.base s.slots a)
  (hsame : ∀ f ∉ reach c i, a.field f = s.avs.field f) (hc : .tmpAv c ∈ s.slots)
include h hcore hsame hc

/-- TURN: a call on id `i` changes its vectors and goes on; others may come to know the id. -/
theorem Inv.turn {l : ℕ → Bool}
    (hfree : ∀ f ∈ stackOf c, f ∉ st.uses c → a.Free f) (hah : (a.field (.ahAttr c)).port = none)
    (hid : ∀ j, st.id = some j → l j = true)
    (hown : ∀ j, st.own = some j → l j = false ∧ .av j ∈ s.slots ∧
      ∀ c' ≠ c, (s.call c').own ≠ some j) (hwork : ∀ q, st.port = some q → s.base q.cmDev = true)
    (hi : l i = true ∨ st.own = some i ∨ a.Free (.av i) ∧ a.Free (.altAv i))
    (hother : ∀ j ≠ i, (s.call c).own = some j → st.own = some j)
    (hl : ∀ j ≠ i, l j = s.live j) (hmono : s.live i = true → l i = true)
    (hnew : l i = true → .av i ∈ s.slots ∧ st.own ≠ some i ∧ ∀ c' ≠ c, (s.call c').own ≠ some i) :
    Inv ({ s with avs := a, live := l }.goto c st) := by
  have hcall : ∀ {c'}, c' ≠ c → update s.call c st c' = s.call c' :=
    fun hne => update_of_ne hne _ _
  have hself : update s.call c st c = st := update_self ..
  refine ⟨hcore, h.listed, h.ids, ?_, h.fresh, ?_, ?_, ?_, ?_, ?_, ?_, ?_, h.queued⟩
  · intro c' hc' f hf
    rcases eq_or_ne c' c with rfl | hne
    · exact h.stack c' (.inl hc) f hf
    · refine h.stack c' (hc'.imp_right fun hn => ?_) f hf
      rw [← hcall hne]
      exact hn
  · intro j hj
    rcases eq_or_ne j i with rfl | hji
    · exact (hnew hj).1
    · exact h.live j ((hl j hji).symm.trans hj)
  · intro j hj hno
    have hj : l j = false := hj
    rcases eq_or_ne j i with rfl | hji
    · rcases hi with hi | ho | hfr
      · rw [hj] at hi
        cases hi
      · refine absurd ho ?_
        rw [← hself]
        exact hno c
      · exact hfr
    · have hno' : ∀ c', (s.call c').own ≠ some j := by
        intro c' ho
        refine hno c' ?_
        change (update s.call c st c').own = some j
        rcases eq_or_ne c' c with rfl | hne
        · rw [hself]
          exact hother j hji ho
        · rwa [hcall hne]
      obtain ⟨h₁, h₂⟩ := h.dead j ((hl j hji).symm.trans hj) hno'
      obtain ⟨hr₁, hr₂⟩ := ids_not_reach (c := c) hji
      exact ⟨h₁.congr (hsame _ hr₁), h₂.congr (hsame _ hr₂)⟩
  · intro c' j hj
    have hj : (update s.call c st c').id = some j := hj
    rcases eq_or_ne c' c with rfl | hne
    · rw [hself] at hj
      exact hid j hj
    · rw [hcall hne] at hj
      have hlive := h.on c' j hj
      rcases eq_or_ne j i with rfl | hji
      · exact hmono hlive
      · exact (hl j hji).trans hlive
  · intro c' j hj
    have hj : (update s.call c st c').own = some j := hj
    have hold : ∀ {c'}, c' ≠ c → (update s.call c st c').own = some j →
        (s.call c').own = some j := by
      intro c' hne ho
      rwa [hcall hne] at ho
    rcases eq_or_ne c' c with rfl | hne
    · rw [hself] at hj
      obtain ⟨h₁, h₂, h₃⟩ := hown j hj
      refine ⟨h₁, h₂, fun c'' ho => ?_⟩
      by_contra hne
      exact h₃ c'' hne (hold hne ho)
    · obtain ⟨h₁, h₂, h₃⟩ := h.own c' j (hold hne hj)
      refine ⟨?_, h₂, fun c'' ho => ?_⟩
      · change l j = false
        rcases eq_or_ne j i with rfl | hji
        · rw [← Bool.not_eq_true]
          exact fun hlj => (hnew hlj).2.2 c' hne (hold hne hj)
        · exact (hl j hji).trans h₁
      · rcases eq_or_ne c'' c with rfl | hne'
        · have ho : (update s.call c'' st c'').own = some j := ho
          rw [hself] at ho
          exact absurd (hold hne hj) ((hown j ho).2.2 c' hne)
        · exact h₃ c'' (hold hne' ho)
  · intro c' q hq
    have hq : (update s.call c st c').port = some q := hq
    rcases eq_or_ne c' c with rfl | hne
    · rw [hself] at hq
      exact hwork q hq
    · rw [hcall hne] at hq
      exact h.work c' q hq
  · intro c' f hf hu
    have hu : f ∉ (update s.call c st c').uses c' := hu
    rcases eq_or_ne c' c with rfl | hne
    · rw [hself] at hu
      exact hfree f hf hu
    · rw [hcall hne] at hu
      exact (h.free c' f hf hu).congr (hsame f (stack_not_reach hne hf))
  · intro c'
    rcases eq_or_ne c' c with rfl | hne
    · exact hah
    · change (a.field (.ahAttr c')).port = none
      rw [hsame _ (stack_not_reach hne (by simp [stackOf]))]
      exact h.ahPort c'

/-- GOTO: a call on an id that is known goes on. -/
theorem Inv.goto
    (hfree : ∀ f ∈ stackOf c, f ∉ st.uses c → a.Free f) (hah : (a.field (.ahAttr c)).port = none)
    (hlive : s.live i = true) (hid : ∀ j, st.id = some j → j = i) (hst : st.own = none)
    (hown : (s.call c).own = none) (hwork : ∀ q, st.port = some q → s.base q.cmDev = true) :
    Inv ({ s with avs := a }.goto c st) := by
  refine h.turn hcore hsame hc hfree hah (fun j hj => hid j hj ▸ hlive) (fun j hj => ?_) hwork
    (.inl hlive) (fun j _ hj => ?_) (fun _ _ => rfl) id
    fun _ => ⟨h.live i hlive, ?_, fun c' _ ho => ?_⟩
  · rw [hst] at hj
    cases hj
  · rw [hown] at hj
    cases hj
  · rw [hst]
    exact fun hn => by cases hn
  · have := (h.own c' i ho).1
    rw [hlive] at this
    cases this

/-- RETURN: a call on id `i` is done, and has nothing left on its stack. -/
theorem Inv.leave {l : ℕ → Bool} (hfree : ∀ f ∈ stackOf c, a.Free f)
    (hi : l i = true ∨ a.Free (.av i) ∧ a.Free (.altAv i))
    (hother : ∀ j ≠ i, (s.call c).own ≠ some j)
    (hl : ∀ j ≠ i, l j = s.live j) (hmono : s.live i = true → l i = true)
    (hnew : l i = true → .av i ∈ s.slots ∧ ∀ c' ≠ c, (s.call c').own ≠ some i) :
    Inv ({ s with avs := a, live := l }.leave c) := by
  have hf₁ : a.Free (.tmpAv c) := hfree _ (by simp [stackOf])
  have hf₂ : a.Free (.tmpAlt c) := hfree _ (by simp [stackOf])
  have hf₃ : a.Free (.ahAttr c) := hfree _ (by simp [stackOf])
  have hkeep : ∀ {b : Avs} {f g : Slot}, g ≠ f → b.Free g → (b.set f .zero).Free g := by
    intro b f g hne hg
    exact hg.congr (update_of_ne hne _ _)
  have hself : ∀ (b : Avs) (f : Slot), (b.set f .zero).Free f := by
    intro b f
    simp [Avs.Free, CmAv.zero]
  have hc₁ := hcore.clear hf₁
  have hc₂ := hc₁.clear (hkeep (by simp) hf₂)
  have hc₃ := hc₂.clear (hkeep (by simp) (hkeep (by simp) hf₃))
  refine h.turn (i := i) hc₃ ?_ hc ?_ ?_ (fun j hj => by cases hj)
    (fun j hj => by cases hj) (fun q hq => by cases hq) ?_
    (fun j hj ho => absurd ho (hother j hj)) hl
    hmono fun hn => ⟨(hnew hn).1, (fun ho => by cases ho), (hnew hn).2⟩
  · intro f hf
    have hf' := hf
    simp only [reach, mem_cons, not_or] at hf'
    obtain ⟨-, -, h₁, h₂, h₃, -⟩ := hf'
    simp only [Avs.set_field, update_of_ne h₁, update_of_ne h₂, update_of_ne h₃]
    exact hsame f hf
  · intro f hf _
    simp only [stackOf, mem_cons, not_mem_nil, or_false] at hf
    rcases hf with rfl | rfl | rfl
    · exact hkeep (by simp) (hkeep (by simp) (hself _ _))
    · exact hkeep (by simp) (hself _ _)
    · exact hself _ _
  · exact (hself _ _).1
  · exact hi.imp_right fun ⟨h₁, h₂⟩ => .inr ⟨hkeep (by simp) (hkeep (by simp) (hkeep (by simp) h₁)),
      hkeep (by simp) (hkeep (by simp) (hkeep (by simp) h₂))⟩

end

/-- A call begins. -/
theorem Inv.enter (h : Inv s) (hc : .tmpAv c ∉ s.slots) :
    Inv (s.enter c) ∧ (s.enter c).call c = .none ∧ .tmpAv c ∈ (s.enter c).slots := by
  have hnone : s.call c = .none := by
    by_contra hn
    exact hc (h.stack c (.inr hn) _ (by simp [stackOf]))
  have hnew : ∀ f ∈ stackOf c, f ∉ s.slots := h.fresh c hc
  have hmem : ∀ {f}, f ∉ stackOf c → (f ∈ s.slots ++ stackOf c ↔ f ∈ s.slots) := by
    intro f hf
    simp [hf]
  have hother : ∀ {c' f}, c' ≠ c → f ∈ stackOf c' → f ∉ stackOf c := by
    intro c' f hne hf hf'
    exact stack_not_reach (i := 0) hne hf (by
      tauto)
  refine ⟨⟨⟨?_, ?_, ?_, ?_, h.core.released, h.core.bad⟩, h.listed, ?_, ?_, ?_, ?_, h.dead,
    h.on, ?_, h.work, h.free, h.ahPort, h.queued⟩, hnone, by simp [Cm.enter]⟩
  · refine List.nodup_append.2 ⟨h.core.nodup, by simp, ?_⟩
    rintro f hf g hg rfl
    exact hnew f hg hf
  · exact h.core.dev.append fun f hf => by
      rw [Avs.ownDev, (h.core.out f (hnew f hf)).1]
      rfl
  · exact h.core.gid.append fun f hf => (h.core.out f (hnew f hf)).2
  · exact fun f hf => h.core.out f fun hm => hf (mem_append_left _ hm)
  · intro i
    have := h.ids i
    rw [Cm.enter, show [.tmpAv c, .tmpAlt c, .ahAttr c] = stackOf c from rfl,
      hmem (by simp [stackOf]), hmem (by simp [stackOf])]
    exact this
  · intro c' hc' f hf
    rcases eq_or_ne c' c with rfl | hne
    · exact List.mem_append_right _ hf
    · refine mem_append_left _ (h.stack c' (hc'.imp_left fun hm => ?_) f hf)
      exact (hmem (hother hne (by simp [stackOf]))).1 hm
  · intro c' hc' f hf hm
    rcases eq_or_ne c' c with rfl | hne
    · exact hc' (List.mem_append_right _ (by simp))
    · refine h.fresh c' (fun hx => hc' (mem_append_left _ hx)) f hf ?_
      exact (hmem (hother hne hf)).1 hm
  · exact fun i hi => mem_append_left _ (h.live i hi)
  · intro c' i hi
    obtain ⟨h₁, h₂, h₃⟩ := h.own c' i hi
    exact ⟨h₁, mem_append_left _ h₂, h₃⟩

/-- An id is allocated; no one knows it and it holds nothing. -/
theorem Inv.allocIdPriv (h : Inv s) (hi : .av i ∉ s.slots) :
    Inv (cmAllocIdPriv s i) ∧ (∀ c, (s.call c).own ≠ some i) ∧ s.live i = false ∧
      s.avs.Free (.av i) ∧ s.avs.Free (.altAv i) := by
  have halt : .altAv i ∉ s.slots := fun hm => hi ((h.ids i).2 hm)
  have hown : ∀ c, (s.call c).own ≠ some i := fun c ho => hi (h.own c i ho).2.1
  have hlive : s.live i = false := by
    rw [← Bool.not_eq_true]
    exact fun hl => hi (h.live i hl)
  have hstack : ∀ {c f}, f ∈ stackOf c → f ∉ ([.av i, .altAv i] : List Slot) := by
    intro c f hf
    simp only [stackOf, mem_cons, not_mem_nil, or_false] at hf
    rcases hf with rfl | rfl | rfl <;> simp
  have hmem : ∀ {c f}, f ∈ stackOf c → (f ∈ s.slots ++ [.av i, .altAv i] ↔ f ∈ s.slots) := by
    intro c f hf
    rw [List.mem_append, or_iff_left (hstack hf)]
  refine ⟨⟨⟨?_, ?_, ?_, ?_, h.core.released, h.core.bad⟩, h.listed, ?_, ?_, ?_, ?_, h.dead,
    h.on, ?_, h.work, h.free, h.ahPort, h.queued⟩, hown, hlive, h.core.out _ hi,
    h.core.out _ halt⟩
  · refine List.nodup_append.2 ⟨h.core.nodup, by simp, ?_⟩
    rintro f hf g hg rfl
    simp only [mem_cons, not_mem_nil, or_false] at hg
    rcases hg with rfl | rfl
    · exact hi hf
    · exact halt hf
  · refine h.core.dev.append fun f hf => ?_
    simp only [mem_cons, not_mem_nil, or_false] at hf
    rcases hf with rfl | rfl
    · rw [Avs.ownDev, (h.core.out _ hi).1]
      rfl
    · rw [Avs.ownDev, (h.core.out _ halt).1]
      rfl
  · refine h.core.gid.append fun f hf => ?_
    simp only [mem_cons, not_mem_nil, or_false] at hf
    rcases hf with rfl | rfl
    · exact (h.core.out _ hi).2
    · exact (h.core.out _ halt).2
  · exact fun f hf => h.core.out f fun hm => hf (mem_append_left _ hm)
  · intro j
    have := h.ids j
    simp only [cmAllocIdPriv, List.mem_append, mem_cons, Slot.av.injEq, Slot.altAv.injEq]
    tauto
  · intro c hc f hf
    exact (hmem hf).2 (h.stack c (hc.imp_left (hmem (c := c) (by simp [stackOf])).1) f hf)
  · intro c hc f hf hm
    exact h.fresh c (fun hx => hc (mem_append_left _ hx)) f hf ((hmem hf).1 hm)
  · exact fun j hj => mem_append_left _ (h.live j hj)
  · intro c j hj
    obtain ⟨h₁, h₂, h₃⟩ := h.own c j hj
    exact ⟨h₁, mem_append_left _ h₂, h₃⟩

theorem ByPath.whole.hasCm {res : ByPath} (h : res.whole) : res.hasCm := by
  cases res <;> trivial

/-- INIT: `cm_init_av_by_path` into a vector of the CM. -/
theorem Inv.byPath (h : Inv s) (hf : f ∈ s.slots) {res : ByPath} (hcm : res.hasCm)
    (hres : res.found s) : Core s.base s.slots (cmInitAvByPath s.avs f res).1 ∧
      (∀ g ≠ f, (cmInitAvByPath s.avs f res).1.field g = s.avs.field g) ∧
      (res.whole → (cmInitAvByPath s.avs f res).2 = false → s.avs.Free f →
        (cmInitAvByPath s.avs f res).1.Free f) := by
  refine h.core.initAvByPath hf hcm (fun p k he => ?_) fun p k t g he => ?_
  · subst he
    exact h.listed _ hres
  · subst he
    exact h.listed _ hres

theorem mem_stack {c : ℕ} {f : Slot} :
    f ∈ stackOf c ↔ f = .tmpAv c ∨ f = .tmpAlt c ∨ f = .ahAttr c := by
  simp [stackOf]

section
variable (h : Inv s)
include h

/-- BEGIN: a call makes the first slot of its stack, or returns. -/
theorem Inv.enterSlot (hc : .tmpAv c ∉ s.slots) (hlive : s.live i = true) {g : Slot} {b : Bool}
    (hg : g ∈ stackOf c) (hcore : Core s.base (s.enter c).slots a)
    (hsame : ∀ f ≠ g, a.field f = (s.enter c).avs.field f) (hfail : b = false → a.Free g)
    (hah : (a.field (.ahAttr c)).port = none) (hid : st.id = some i) (hown : st.own = none)
    (huse : st.uses c = [g]) (hwork : ∀ q, st.port = some q → s.base q.cmDev = true) :
    Inv (match (a, b) with
      | (a, false) => { s.enter c with avs := a }.leave c
      | (a, true) => { s.enter c with avs := a }.goto c st) := by
  obtain ⟨h₁, hnone, hmem⟩ := h.enter hc
  have hfree := h₁.free c
  rw [hnone] at hfree
  have hreach : ∀ f ∉ reach c i, a.field f = (s.enter c).avs.field f := by
    intro f hf
    refine hsame f ?_
    rintro rfl
    rcases mem_stack.1 hg with rfl | rfl | rfl <;> exact hf (by simp [reach])
  cases b with
  | false =>
    refine h₁.leave hcore hreach hmem (fun f hf => ?_) (.inl hlive) (fun j _ ho => ?_)
      (fun _ _ => rfl) id fun _ => ⟨h₁.live i hlive, fun c' _ ho => ?_⟩
    · rcases eq_or_ne f g with rfl | hne
      · exact hfail rfl
      · exact (hfree f hf (by simp [Stage.uses])).congr (hsame f hne)
    · rw [hnone] at ho
      cases ho
    · have := (h₁.own c' i ho).1
      rw [show (s.enter c).live i = true from hlive] at this
      cases this
  | true =>
    refine h₁.goto hcore hreach hmem (fun f hf hu => ?_) hah hlive (fun j hj => ?_) hown ?_ hwork
    · rw [huse, mem_singleton] at hu
      exact (hfree f hf (by simp [Stage.uses])).congr (hsame f hu)
    · rw [hid] at hj
      exact (Option.some.inj hj).symm
    · rw [hnone]
      rfl

/-- STEP: `ib_send_cm_req` and `ib_send_cm_sidr_req` begin with an `av` on the stack. -/
theorem Inv.sendInit (hc : .tmpAv c ∉ s.slots) (hlive : s.live i = true) {res : ByPath}
    (hw : res.whole) (hres : res.found s) (hid : st.id = some i) (hown : st.own = none)
    (hport : st.port = none) (huse : st.uses c = [.tmpAv c]) :
    Inv (match cmInitAvByPath (s.enter c).avs (.tmpAv c) res with
      | (a, false) => { s.enter c with avs := a }.leave c
      | (a, true) => { s.enter c with avs := a }.goto c st) := by
  obtain ⟨h₁, hnone, hmem⟩ := h.enter hc
  have hfree := h₁.free c (.tmpAv c) (by simp [stackOf])
  rw [hnone] at hfree
  obtain ⟨hcore, hsame, hfail⟩ := h₁.byPath hmem hw.hasCm hres
  exact h.enterSlot hc hlive (by simp [stackOf]) hcore hsame
    (fun hb => hfail hw hb (hfree (by simp [Stage.uses])))
    ((congrArg CmAv.port (hsame (.ahAttr c) (by simp))).trans (h₁.ahPort c)) hid hown huse
    fun q hq => by simp [hport] at hq

/-- The vectors of the id that a call works on are there, and so is its stack. -/
theorem Inv.mems (hcall : s.call c = st) (hne : st ≠ .none) (hid : st.id = some i) :
    s.live i = true ∧ .av i ∈ s.slots ∧ .altAv i ∈ s.slots ∧ .tmpAv c ∈ s.slots ∧
      .tmpAlt c ∈ s.slots ∧ .ahAttr c ∈ s.slots ∧ ∀ c', (s.call c').own ≠ some i := by
  have hlive := h.on c i (by rw [hcall]; exact hid)
  have hstack := h.stack c (.inr (by rw [hcall]; exact hne))
  refine ⟨hlive, h.live i hlive, (h.ids i).1 (h.live i hlive), hstack _ (by simp [stackOf]),
    hstack _ (by simp [stackOf]), hstack _ (by simp [stackOf]), fun c' ho => ?_⟩
  have := (h.own c' i ho).1
  rw [hlive] at this
  cases this

/-- RETURN: a call on an id that is known. -/
theorem Inv.leaveLive (hcall : s.call c = st) (hne : st ≠ .none) (hid : st.id = some i)
    (hown : st.own = none) (hcore : Core s.base s.slots a)
    (hsame : ∀ f ∉ reach c i, a.field f = s.avs.field f) (hfree : ∀ f ∈ stackOf c, a.Free f) :
    Inv ({ s with avs := a }.leave c) := by
  obtain ⟨hlive, hav, -, hc, -, -, hno⟩ := h.mems hcall hne hid
  refine h.leave hcore hsame hc hfree (.inl hlive) (fun j _ ho => ?_) (fun _ _ => rfl) id
    fun _ => ⟨hav, fun c' _ => hno c'⟩
  rw [hcall, hown] at ho
  cases ho

/-- ALTERNATE: a call that has made slot `g` makes `alt_av`, or undoes `g` and returns. -/
theorem Inv.makeAlt {st₀ : Stage} {g : Slot} {undo : Avs → Avs} {res : ByPath}
    (hcall : s.call c = st₀) (hne : st₀ ≠ .none) (hid₀ : st₀.id = some i) (hown₀ : st₀.own = none)
    (huse₀ : st₀.uses c = [g]) (hg : g ∈ stackOf c) (hgalt : g ≠ .tmpAlt c)
    (hundo : ∀ a, Core s.base s.slots a → g ∈ s.slots → (a.field (.ahAttr c)).port = none →
      Core s.base s.slots (undo a) ∧ (∀ f ≠ g, (undo a).field f = a.field f) ∧ (undo a).Free g)
    (hid : st.id = some i) (hown : st.own = none) (huse : st.uses c = [g, .tmpAlt c])
    (hport : st.port = st₀.port) (hw : res.whole) (hres : res.found s) :
    Inv (match cmInitAvByPath s.avs (.tmpAlt c) res with
      | (a, false) => { s with avs := undo a }.leave c
      | (a, true) => { s with avs := a }.goto c st) := by
  obtain ⟨hlive, -, -, hc, halt, -, -⟩ := h.mems hcall hne hid₀
  have hstack := h.stack c (.inr (by rwa [hcall]))
  have hfree := h.free c
  rw [hcall, huse₀] at hfree
  simp only [mem_singleton] at hfree
  obtain ⟨hcore, hsame, hfail⟩ := h.byPath halt hw.hasCm hres
  have hah := (congrArg CmAv.port (hsame (.ahAttr c) (by simp))).trans (h.ahPort c)
  have hin : ∀ f ∈ stackOf c, f ∈ reach c i := fun f hf => by
    rcases mem_stack.1 hf with rfl | rfl | rfl <;> simp [reach]
  rcases hr : cmInitAvByPath s.avs (.tmpAlt c) res with ⟨a, b⟩
  rw [hr] at hcore hsame hfail hah
  cases b with
  | false =>
    obtain ⟨hcore', hkeep, hself⟩ := hundo a hcore (hstack g hg) hah
    refine h.leaveLive hcall hne hid₀ hown₀ hcore' (fun f hf => ?_) fun f hf => ?_
    · rw [hkeep f (by rintro rfl; exact hf (hin _ hg)), hsame f]
      rintro rfl
      exact hf (by simp [reach])
    · rcases eq_or_ne f g with rfl | hfg
      · exact hself
      · refine Avs.Free.congr ?_ (hkeep f hfg)
        rcases eq_or_ne f (.tmpAlt c) with rfl | hfa
        · exact hfail hw rfl (hfree _ hf hfg)
        · exact (hfree _ hf hfg).congr (hsame f hfa)
  | true =>
    refine h.goto (i := i) hcore (fun f hf => ?_) hc (fun f hf hu => ?_) hah hlive
      (fun j hj => Option.some.inj (hj.symm.trans hid)) hown (hcall ▸ hown₀) fun q hq => ?_
    · refine hsame f ?_
      rintro rfl
      exact hf (by simp [reach])
    · simp only [huse, mem_cons, not_mem_nil, or_false, not_or] at hu
      exact (hfree f hf hu.1).congr (hsame f hu.2)
    · exact h.work c q (by rw [hcall, ← hport, hq])

/-- STEP: `ib_send_cm_req` makes `alt_av`. -/
theorem Inv.sendReqAlt {res : ByPath} (hw : res.whole) (hres : res.found s) :
    Inv (ibSendCmReqAlt s c res) := by
  rw [ibSendCmReqAlt]
  split
  · rename_i i hcall
    refine h.makeAlt hcall (by simp) rfl rfl rfl (by simp [stackOf]) (by simp)
      (fun a hcore hg _ => ⟨hcore.destroyAv hg, fun f hne => ?_, ?_⟩) rfl rfl rfl rfl hw hres
    · rw [cmDestroyAv_field, update_of_ne hne]
    · simp [Avs.Free, cmDestroyAv_field]
  · exact h

/-- STEP: a call moves its `av` into the id, and returns. -/
theorem Inv.moveAv (hcall : s.call c = st) (hne : st ≠ .none) (hid : st.id = some i)
    (hown : st.own = none) (huse : st.uses c = [.tmpAv c]) : Inv ({ s with
      avs := usePort (cmMoveAvFromPath s.avs (.av i) (.tmpAv c)) (.av i) }.leave c) := by
  obtain ⟨-, hav, -, hc, -, -, -⟩ := h.mems hcall hne hid
  have hfree := h.free c
  rw [hcall, huse] at hfree
  have hcore := h.core.moveAvFromPath hav hc (by simp)
  have hfield := cmMoveAvFromPath_field s.avs (by simp : Slot.av i ≠ .tmpAv c)
  have hkeep : ∀ f, f ≠ .av i → f ≠ .tmpAv c →
      (cmMoveAvFromPath s.avs (.av i) (.tmpAv c)).field f = s.avs.field f := by
    intro f h₁ h₂
    rw [hfield, update_of_ne h₂, update_of_ne h₁]
  rw [hcore.usePort]
  refine h.leaveLive hcall hne hid hown hcore (fun f hf => ?_) fun f hf => ?_
  · simp only [reach, mem_cons, not_or] at hf
    exact hkeep f hf.1 hf.2.2.1
  · rcases mem_stack.1 hf with rfl | rfl | rfl
    · simp [Avs.Free, hfield]
    · exact (hfree _ hf (by simp)).congr (hkeep _ (by simp) (by simp))
    · exact (hfree _ hf (by simp)).congr (hkeep _ (by simp) (by simp))

/-- STEP: `ib_send_cm_req` under the lock. -/
theorem Inv.sendReqMove : Inv (ibSendCmReqMove s c) := by
  rw [ibSendCmReqMove]
  split
  · rename_i i hcall
    exact h.moveAv hcall (by simp) rfl rfl rfl
  · rename_i i hcall
    obtain ⟨-, hav, haltAv, hc, halt, -, -⟩ := h.mems hcall (by simp) rfl
    have hfree := h.free c
    rw [hcall] at hfree
    have hcore₁ := h.core.moveAvFromPath hav hc (by simp)
    have hcore₂ := hcore₁.moveAvFromPath haltAv halt (by simp)
    have hfield₁ := cmMoveAvFromPath_field s.avs (by simp : Slot.av i ≠ .tmpAv c)
    have hfield₂ := cmMoveAvFromPath_field (cmMoveAvFromPath s.avs (.av i) (.tmpAv c))
      (by simp : Slot.altAv i ≠ .tmpAlt c)
    dsimp only
    rw [hcore₂.usePort]
    refine h.leaveLive hcall (by simp) rfl rfl hcore₂ (fun f hf => ?_) fun f hf => ?_
    · simp only [reach, mem_cons, not_or] at hf
      rw [hfield₂, update_of_ne hf.2.2.2.1, update_of_ne hf.2.1, hfield₁,
        update_of_ne hf.2.2.1, update_of_ne hf.1]
    · rcases mem_stack.1 hf with rfl | rfl | rfl
      · simp [Avs.Free, hfield₂, hfield₁]
      · simp [Avs.Free, hfield₂]
      · refine (hfree _ hf (by simp [Stage.uses])).congr ?_
        simp [hfield₂, hfield₁]
  · exact h

/-- STEP: `ib_send_cm_sidr_req` under the lock. -/
theorem Inv.sendSidrReqMove : Inv (ibSendCmSidrReqMove s c) := by
  rw [ibSendCmSidrReqMove]
  split
  · rename_i i hcall
    exact h.moveAv hcall (by simp) rfl rfl rfl
  · exact h

/-- STEP: `cm_lap_handler` makes `ah_attr`. -/
theorem Inv.lap (hc : .tmpAv c ∉ s.slots) (hlive : s.live i = true)
    (hp : s.base p.cmDev = true) {wc : FromWc} (hwc : wc.ok = false → wc.sgidAttr = none) :
    Inv (cmLapHandler s c i p wc) := by
  obtain ⟨h₁, hnone, -⟩ := h.enter hc
  have hahFree := h₁.free c (.ahAttr c) (by simp [stackOf])
  rw [hnone] at hahFree
  obtain ⟨hport, hattr⟩ := hahFree (by simp [Stage.uses])
  have hcore := h₁.core.initAhAttrFromWc (f := .ahAttr c) (by simp [Cm.enter]) hattr wc
  have hfield := ibInitAhAttrFromWc_field (s.enter c).avs (.ahAttr c) wc
  have hok : (ibInitAhAttrFromWc (s.enter c).avs (.ahAttr c) wc).2 = wc.ok := rfl
  rw [cmLapHandler]
  rcases hr : ibInitAhAttrFromWc (s.enter c).avs (.ahAttr c) wc with ⟨a, b⟩
  rw [hr] at hcore hfield hok
  refine h.enterSlot hc hlive (g := .ahAttr c) (by simp [stackOf]) hcore (fun f hf => ?_)
    (fun hb => ?_) ?_ rfl rfl rfl fun q hq => Option.some.inj hq ▸ hp
  · rw [hfield, update_of_ne hf]
  · rw [Avs.Free, hfield, update_self]
    exact ⟨hport, hwc (hok.symm.trans hb)⟩
  · rw [hfield, update_self]
    exact hport

/-- STEP: `cm_lap_handler` makes `alt_av`. -/
theorem Inv.lapPath {res : ByPath} (hw : res.whole) (hres : res.found s) :
    Inv (cmLapHandlerPath s c res) := by
  rw [cmLapHandlerPath]
  split
  · rename_i i port hcall
    refine h.makeAlt hcall (by simp) rfl rfl rfl (by simp [stackOf]) (by simp)
      (fun a hcore hg hport => ⟨hcore.destroyAhAttr hg, fun f hne => ?_, ?_⟩) rfl rfl rfl rfl hw hres
    · rw [rdmaDestroyAhAttr_field, update_of_ne hne]
    · rw [Avs.Free, rdmaDestroyAhAttr_field, update_self]
      exact ⟨hport, rfl⟩
  · exact h

/-- STEP: `cm_lap_handler` under the lock. -/
theorem Inv.lapMove (k : ℕ) : Inv (cmLapHandlerMove s c k) := by
  rw [cmLapHandlerMove]
  split
  swap
  · exact h
  rename_i i port hcall
  obtain ⟨-, hav, haltAv, hc, halt, hah, -⟩ := h.mems hcall (by simp) rfl
  have hfree := h.free c
  rw [hcall] at hfree
  have hp := h.work c port (by rw [hcall]; rfl)
  have hcore₁ := h.core.initAvForLap hah hav (by simp) hp k
  have hcore₂ := hcore₁.moveAvFromPath haltAv halt (by simp)
  have hfield₁ := cmInitAvForLap_field s.avs (by simp : Slot.av i ≠ .ahAttr c) port k
  have hfield₂ := cmMoveAvFromPath_field (cmInitAvForLap s.avs port k (.ahAttr c) (.av i))
    (by simp : Slot.altAv i ≠ .tmpAlt c)
  refine h.leaveLive hcall (by simp) rfl rfl hcore₂ (fun f hf => ?_) fun f hf => ?_
  · simp only [reach, mem_cons, not_or] at hf
    rw [hfield₂, update_of_ne hf.2.2.2.1, update_of_ne hf.2.1, hfield₁,
      update_of_ne hf.2.2.2.2.1, update_of_ne hf.1]
  · rcases mem_stack.1 hf with rfl | rfl | rfl
    · refine (hfree _ hf (by simp [Stage.uses])).congr ?_
      simp [hfield₂, hfield₁]
    · simp [Avs.Free, hfield₂]
    · simp [Avs.Free, hfield₂, hfield₁, h.ahPort c]

end

/-- DESTROY: both vectors of an id. -/
theorem Core.destroyBoth (h : Core base slots a) (hav : .av i ∈ slots) (halt : .altAv i ∈ slots) :
    Core base slots (cmDestroyAv (cmDestroyAv (AvRefs.usePort a (.av i)) (.av i)) (.altAv i)) ∧
      (∀ f, f ≠ .av i → f ≠ .altAv i →
        (cmDestroyAv (cmDestroyAv (AvRefs.usePort a (.av i)) (.av i)) (.altAv i)).field f =
          a.field f) ∧
      (cmDestroyAv (cmDestroyAv (AvRefs.usePort a (.av i)) (.av i)) (.altAv i)).Free (.av i) ∧
      (cmDestroyAv (cmDestroyAv (AvRefs.usePort a (.av i)) (.av i))
        (.altAv i)).Free (.altAv i) := by
  rw [h.usePort]
  refine ⟨(h.destroyAv hav).destroyAv halt, fun f h₁ h₂ => ?_, ?_, ?_⟩
  · rw [cmDestroyAv_field, update_of_ne h₂, cmDestroyAv_field, update_of_ne h₁]
  · simp [Avs.Free, cmDestroyAv_field]
  · simp [Avs.Free, cmDestroyAv_field]

section
variable (h : Inv s)
include h

/-- The id of a handler has both vectors in the list. -/
theorem Inv.ownMems (hcall : s.call c = st) (hne : st ≠ .none) (hown : st.own = some i) :
    s.live i = false ∧ .av i ∈ s.slots ∧ .altAv i ∈ s.slots ∧ .tmpAv c ∈ s.slots ∧
      ∀ c' ≠ c, (s.call c').own ≠ some i := by
  obtain ⟨h₁, h₂, h₃⟩ := h.own c i (by rw [hcall]; exact hown)
  exact ⟨h₁, h₂, (h.ids i).1 h₂, h.stack c (.inr (by rw [hcall]; exact hne)) _ (by simp [stackOf]),
    fun c' hne ho => hne (h₃ c' ho)⟩

/-- REJECT: a handler destroys the id it has made, and returns. -/
theorem Inv.reject (hav : .av i ∈ s.slots) (hc : .tmpAv c ∈ s.slots) (hlive : s.live i = false)
    (hother : ∀ j ≠ i, (s.call c).own ≠ some j) (hfree : ∀ f ∈ stackOf c, s.avs.Free f)
    (hcore : Core s.base s.slots a)
    (hsame : ∀ f, f ≠ .av i → f ≠ .altAv i → a.field f = s.avs.field f) :
    Inv ((cmDestroyId { s with avs := a } i).leave c) := by
  obtain ⟨hcore', hkeep, h₁, h₂⟩ := hcore.destroyBoth hav ((h.ids i).1 hav)
  refine h.leave (l := update s.live i false) hcore' (fun f hf => ?_) hc (fun f hf => ?_)
    (.inr ⟨h₁, h₂⟩) hother (fun j hj => update_of_ne hj _ _) (fun hl => ?_) fun hl => ?_
  · simp only [reach, mem_cons, not_or] at hf
    exact (hkeep f hf.1 hf.2.1).trans (hsame f hf.1 hf.2.1)
  · have hne : f ≠ .av i ∧ f ≠ .altAv i := by
      rcases mem_stack.1 hf with rfl | rfl | rfl <;> simp
    exact (hfree f hf).congr ((hkeep f hne.1 hne.2).trans (hsame f hne.1 hne.2))
  · rw [hlive] at hl
    cases hl
  · rw [update_self] at hl
    cases hl

/-- ACCEPT: a handler is done, and others may know the id it has made. -/
theorem Inv.accept (hcall : s.call c = st) (hne : st ≠ .none) (hown : st.own = some i)
    (huse : st.uses c = []) (hcore : Core s.base s.slots a)
    (hsame : ∀ f, f ≠ .av i → f ≠ .altAv i → a.field f = s.avs.field f) :
    Inv (cmFinalizeId ({ s with avs := a }.leave c) i) := by
  obtain ⟨-, hav, -, hc, hno⟩ := h.ownMems hcall hne hown
  have hfree := h.free c
  rw [hcall, huse] at hfree
  refine h.leave (l := update s.live i true) hcore (fun f hf => ?_) hc (fun f hf => ?_)
    (.inl (update_self ..)) (fun j hj ho => ?_) (fun j hj => update_of_ne hj _ _)
    (fun _ => update_self ..) fun _ => ⟨hav, hno⟩
  · simp only [reach, mem_cons, not_or] at hf
    exact hsame f hf.1 hf.2.1
  · have hne : f ≠ .av i ∧ f ≠ .altAv i := by
      rcases mem_stack.1 hf with rfl | rfl | rfl <;> simp
    exact (hfree f hf (by simp)).congr (hsame f hne.1 hne.2)
  · rw [hcall, hown] at ho
    exact hj (Option.some.inj ho).symm

/-- STEP: `cm_req_handler` makes an id and its `av` for the response. -/
theorem Inv.reqHandler (hc : .tmpAv c ∉ s.slots) (hi : .av i ∉ s.slots)
    (hp : s.base p.cmDev = true) (k : ℕ) (wc : FromWc) : Inv (cmReqHandler s c i p k wc) := by
  obtain ⟨h₁, hnone, hmem⟩ := h.enter hc
  have hi' : .av i ∉ (s.enter c).slots := by simpa [Cm.enter] using hi
  obtain ⟨h₂, hno, hlive, hf₁, hf₂⟩ := h₁.allocIdPriv hi'
  have hav : .av i ∈ (cmAllocIdPriv (s.enter c) i).slots := by simp [cmAllocIdPriv]
  have hcm : .tmpAv c ∈ (cmAllocIdPriv (s.enter c) i).slots := mem_append_left _ hmem
  have hnone' : (cmAllocIdPriv (s.enter c) i).call c = .none := hnone
  have hfree := h₂.free c
  rw [hnone'] at hfree
  have hpb : (cmAllocIdPriv (s.enter c) i).base p.cmDev = true := hp
  obtain ⟨hcore, hsame⟩ := h₂.core.initAvForResponse hav hf₁.2 hpb k wc
  rw [cmReqHandler]
  rcases hr : cmInitAvForResponse (cmAllocIdPriv (s.enter c) i).avs p k wc (.av i) with ⟨a, b⟩
  rw [hr] at hcore hsame
  cases b with
  | false =>
    refine h₂.reject hav hcm hlive (fun j _ ho => ?_)
      (fun f hf => hfree f hf (by simp [Stage.uses])) hcore fun f hf _ => hsame f hf
    rw [hnone'] at ho
    cases ho
  | true =>
    refine h₂.turn (i := i) hcore (fun f hf => ?_) hcm (fun f hf hu => ?_) ?_
      (fun j hj => by cases hj)
      (fun j hj => ?_) (fun q hq => ?_) (.inr (.inl rfl)) (fun j _ ho => ?_) (fun _ _ => rfl) id
      fun hl => ?_
    · refine hsame f ?_
      rintro rfl
      exact hf (by simp [reach])
    · have hne : f ≠ .av i := by
        rcases mem_stack.1 hf with rfl | rfl | rfl <;> simp
      exact (hfree f hf (by simp [Stage.uses])).congr (hsame f hne)
    · exact (congrArg CmAv.port (hsame (.ahAttr c) (by simp))).trans (h₂.ahPort c)
    · obtain rfl := Option.some.inj hj
      exact ⟨hlive, hav, fun c' _ => hno c'⟩
    · rw [← Option.some.inj hq]
      exact hp
    · rw [hnone'] at ho
      cases ho
    · rw [show (cmAllocIdPriv (s.enter c) i).live i = false from hlive] at hl
      cases hl

/-- STEP: `cm_req_handler` looks for a listener, and makes the `av` again. -/
theorem Inv.reqMatch {found : Bool} {res : ByPath} (hcm : res.hasCm)
    (hres : res.found s) : Inv (cmReqHandlerMatch s c found res) := by
  rw [cmReqHandlerMatch]
  split
  swap
  · exact h
  rename_i i port hcall
  obtain ⟨hlive, hav, -, hc, hno⟩ := h.ownMems hcall (by simp) rfl
  have hother : ∀ j ≠ i, (s.call c).own ≠ some j := by
    intro j hj ho
    rw [hcall] at ho
    exact hj (Option.some.inj ho).symm
  have hfree : ∀ f ∈ stackOf c, s.avs.Free f := by
    intro f hf
    refine h.free c f hf ?_
    rw [hcall]
    simp [Stage.uses]
  cases found with
  | false => exact h.reject hav hc hlive hother hfree h.core fun _ _ _ => rfl
  | true =>
    have hdest := h.core.destroyAv hav
    have hkeep : ∀ f ≠ .av i, (cmDestroyAv s.avs (.av i)).field f = s.avs.field f := by
      intro f hf
      rw [cmDestroyAv_field, update_of_ne hf]
    obtain ⟨hcore, hsame, -⟩ := hdest.initAvByPath hav hcm
      (fun q k he => by subst he; exact h.listed _ hres)
      (fun q k t g he => by subst he; exact h.listed _ hres)
    rcases hr : cmInitAvByPath (cmDestroyAv s.avs (.av i)) (.av i) res with ⟨a, b⟩
    rw [hr] at hcore hsame
    have hsame' : ∀ f ≠ .av i, a.field f = s.avs.field f := fun f hf =>
      (hsame f hf).trans (hkeep f hf)
    cases b with
    | false => exact h.reject hav hc hlive hother hfree hcore fun f hf _ => hsame' f hf
    | true =>
      refine h.turn (i := i) hcore (fun f hf => ?_) hc (fun f hf hu => ?_) ?_
        (fun j hj => by cases hj) (fun j hj => ?_) (fun q hq => ?_) (.inr (.inl rfl))
        (fun j hj ho => absurd ho (hother j hj)) (fun _ _ => rfl) id fun hl => ?_
      · refine hsame' f ?_
        rintro rfl
        exact hf (by simp [reach])
      · have hne : f ≠ .av i := by
          rcases mem_stack.1 hf with rfl | rfl | rfl <;> simp
        exact (hfree f hf).congr (hsame' f hne)
      · exact (congrArg CmAv.port (hsame' (.ahAttr c) (by simp))).trans (h.ahPort c)
      · obtain rfl := Option.some.inj hj
        exact ⟨hlive, hav, hno⟩
      · refine h.work c q ?_
        rw [hcall]
        exact hq
      · rw [hlive] at hl
        cases hl

/-- STEP: `cm_req_handler` makes the `alt_av`, and is done. -/
theorem Inv.reqAlt {res : Option ByPath} (hcm : ∀ r, res = some r → r.hasCm)
    (hres : ∀ r, res = some r → r.found s) : Inv (cmReqHandlerAlt s c res) := by
  unfold cmReqHandlerAlt
  split
  · rename_i i port r hcall
    obtain ⟨hlive, hav, halt, hc, hno⟩ := h.ownMems hcall (by simp) rfl
    obtain ⟨hcore, hsame, -⟩ := h.byPath halt (hcm r rfl) (hres r rfl)
    rcases hr : cmInitAvByPath s.avs (.altAv i) r with ⟨a, b⟩
    rw [hr] at hcore hsame
    cases b with
    | false =>
      refine h.reject hav hc hlive (fun j hj ho => ?_) (fun f hf => h.free c f hf ?_) hcore
        fun f _ hf => hsame f hf
      · rw [hcall] at ho
        exact hj (Option.some.inj ho).symm
      · rw [hcall]
        simp [Stage.uses]
    | true => exact h.accept hcall (by simp) rfl rfl hcore fun f _ hf => hsame f hf
  · rename_i i port hcall
    exact h.accept hcall (by simp) rfl rfl h.core fun _ _ _ => rfl
  · exact h

/-- The vectors of one id change; either it is known or they end up empty. -/
theorem Inv.setAvs (hcore : Core s.base s.slots a)
    (hsame : ∀ f, f ≠ .av i → f ≠ .altAv i → a.field f = s.avs.field f)
    (hi : s.live i = true ∨ a.Free (.av i) ∧ a.Free (.altAv i)) : Inv { s with avs := a } := by
  refine { h with
      core := hcore, dead := fun j hj hno => ?_, free := fun c f hf hu => ?_,
      ahPort := fun c => ?_ }
  · rcases eq_or_ne j i with rfl | hji
    · rcases hi with hl | hfr
      · have hj : s.live j = false := hj
        rw [hl] at hj
        cases hj
      · exact hfr
    · obtain ⟨h₁, h₂⟩ := h.dead j hj hno
      exact ⟨h₁.congr (hsame _ (by simpa using hji) (by simp)),
        h₂.congr (hsame _ (by simp) (by simpa using hji))⟩
  · have hne : f ≠ .av i ∧ f ≠ .altAv i := by
      rcases mem_stack.1 hf with rfl | rfl | rfl <;> simp
    exact (h.free c f hf hu).congr (hsame f hne.1 hne.2)
  · exact (congrArg CmAv.port (hsame (.ahAttr c) (by simp) (by simp))).trans (h.ahPort c)

/-- An id that no handler works on becomes known. -/
theorem Inv.finalizeId (hav : .av i ∈ s.slots) (hno : ∀ c, (s.call c).own ≠ some i) :
    Inv (cmFinalizeId s i) := by
  have hl : ∀ {j}, j ≠ i → update s.live i true j = s.live j :=
    fun hj => update_of_ne hj _ _
  refine { h with
      live := fun j hj => ?_, dead := fun j hj hno' => ?_, on := fun c j hj => ?_,
      own := fun c j hj => ?_ }
  · rcases eq_or_ne j i with rfl | hji
    · exact hav
    · exact h.live j ((hl hji).symm.trans hj)
  · have hji : j ≠ i := by
      rintro rfl
      have hj : update s.live j true j = false := hj
      rw [update_self] at hj
      cases hj
    exact h.dead j ((hl hji).symm.trans hj) hno'
  · change update s.live i true j = true
    rcases eq_or_ne j i with rfl | hji
    · exact update_self ..
    · exact (hl hji).trans (h.on c j hj)
  · have hji : j ≠ i := by
      rintro rfl
      exact hno c hj
    obtain ⟨h₁, h₂⟩ := h.own c j hj
    exact ⟨(hl hji).trans h₁, h₂⟩

/-- STEP: `cm_sidr_req_handler`. -/
theorem Inv.sidrReqHandler (hi : .av i ∉ s.slots) (hp : s.base p.cmDev = true) (k : ℕ)
    (wc : FromWc) (keep : Bool) : Inv (cmSidrReqHandler s i p k wc keep) := by
  obtain ⟨h₁, hno, hlive, hf₁, hf₂⟩ := h.allocIdPriv hi
  have hav : .av i ∈ (cmAllocIdPriv s i).slots := by simp [cmAllocIdPriv]
  have hpb : (cmAllocIdPriv s i).base p.cmDev = true := hp
  obtain ⟨hcore, hsame⟩ := h₁.core.initAvForResponse hav hf₁.2 hpb k wc
  rw [cmSidrReqHandler]
  dsimp only
  split
  · exact (h₁.finalizeId hav hno).setAvs (i := i) hcore (fun f hf _ => hsame f hf)
      (.inl (update_self ..))
  · obtain ⟨hcore', hkeep, hfree⟩ := hcore.destroyBoth hav ((h₁.ids i).1 hav)
    have hset := h₁.setAvs (i := i) hcore' (fun f hf₁ hf₂ => (hkeep f hf₁ hf₂).trans (hsame f hf₁))
      (.inr hfree)
    have hsame' : update (cmAllocIdPriv s i).live i false = (cmAllocIdPriv s i).live := by
      rw [update_eq_self_iff]
      exact hlive.symm
    rw [cmDestroyId]
    rw [hsame']
    exact hset

/-- STEP: an id no call works on is destroyed. -/
theorem Inv.destroyId (hlive : s.live i = true) (hbusy : s.busy i = false) :
    Inv (cmDestroyId s i) := by
  have hav := h.live i hlive
  obtain ⟨hcore, hkeep, hfree⟩ := h.core.destroyBoth hav ((h.ids i).1 hav)
  have hset := h.setAvs (i := i) hcore hkeep (.inr hfree)
  have hno : ∀ c, (s.call c).id ≠ some i := by
    intro c hc
    have hne : s.call c ≠ .none := by
      intro hn
      rw [hn] at hc
      cases hc
    have hm := h.stack c (.inr hne) _ (show .tmpAv c ∈ stackOf c by simp [stackOf])
    refine Bool.false_ne_true (hbusy.symm.trans ?_)
    refine List.any_eq_true.2 ⟨_, hm, ?_⟩
    simpa using hc
  have hl : ∀ {j}, j ≠ i → update s.live i false j = s.live j :=
    fun hj => update_of_ne hj _ _
  refine { hset with
      live := fun j hj => ?_, dead := fun j hj hno' => ?_, on := fun c j hj => ?_,
      own := fun c j hj => ?_ }
  · have hji : j ≠ i := by
      rintro rfl
      have hj : update s.live j false j = true := hj
      rw [update_self] at hj
      cases hj
    exact h.live j ((hl hji).symm.trans hj)
  · rcases eq_or_ne j i with rfl | hji
    · exact hfree
    · exact hset.dead j ((hl hji).symm.trans hj) hno'
  · have hji : j ≠ i := by
      rintro rfl
      exact hno c hj
    exact (hl hji).trans (h.on c j hj)
  · obtain ⟨h₁, h₂⟩ := h.own c j hj
    have hji : j ≠ i := by
      rintro rfl
      rw [hlive] at h₁
      cases h₁
    exact ⟨(hl hji).trans h₁, h₂⟩

/-- STEP: `cm_migrate`, between vectors that hold the same. -/
theorem Inv.migrate (hlive : s.live i = true) (hdev : (s.avs.field (.av i)).port.map CmPort.cmDev =
      (s.avs.field (.altAv i)).port.map CmPort.cmDev)
    (hgid : (s.avs.field (.av i)).sgidAttr = (s.avs.field (.altAv i)).sgidAttr) :
    Inv { s with avs := cmMigrate s.avs i } :=
  h.setAvs (i := i) (h.core.set (h.live i hlive) hdev.symm hgid.symm)
    (fun _ hf _ => update_of_ne hf _ _) (.inl hlive)

/-- STEP: a device comes. -/
theorem Inv.addOne {d : ℕ} (hd : s.avs.devRef d = 0) (hr : s.avs.released d = 0) :
    Inv (cmAddOne s d) := by
  have hmono : ∀ {e}, s.base e = true → update s.base d true e = true := by
    intro e he
    rcases eq_or_ne e d with rfl | hne
    · exact update_self ..
    · exact (update_of_ne hne _ _).trans he
  refine { h with
      core := { h.core with dev := fun e => ?_, released := fun e => ?_ },
      listed := fun e he => hmono (h.listed e he), work := fun c q hq => hmono (h.work c q hq),
      queued := fun q hq => hmono (h.queued q hq) }
  · have he := h.core.dev e
    change update s.avs.devRef d 1 e = (if update s.base d true e then 1 else 0) +
      s.slots.countP fun f => s.avs.ownDev f = some e
    rcases eq_or_ne e d with rfl | hne
    · rw [update_self, update_self, if_pos rfl]
      omega
    · rw [update_of_ne hne, update_of_ne hne]
      exact he
  · change s.avs.released e = 0 ∨ s.avs.released e = 1 ∧ update s.avs.devRef d 1 e = 0
    rcases eq_or_ne e d with rfl | hne
    · exact .inl hr
    · rw [update_of_ne hne]
      exact h.core.released e

/-- STEP: a device goes down. -/
theorem Inv.goingDown (d : ℕ) : Inv { s with listed := update s.listed d false } := by
  refine { h with listed := fun e he => ?_ }
  have he : update s.listed d false e = true := he
  rcases eq_or_ne e d with rfl | hne
  · rw [update_self] at he
    cases he
  · rw [update_of_ne hne] at he
    exact h.listed e he

/-- The CM is done with a device that no handler works for. -/
theorem Inv.giveUp {d : ℕ} (hb : s.base d = true) (hl : s.listed d = false)
    (hh : s.handling d = false) :
    Inv { s with avs := cmDevicePut s.avs d, base := update s.base d false } := by
  have hd := h.core.dev d
  dsimp only at hd
  rw [if_pos hb] at hd
  have h0 : s.avs.devRef d ≠ 0 := by omega
  have hidle := Bool.or_eq_false_iff.1 hh
  have hkeep : ∀ {e}, e ≠ d → update s.base d false e = s.base e :=
    fun he => update_of_ne he _ _
  rw [cmDevicePut, if_neg h0]
  refine { h with
      core := { h.core with dev := fun e => ?_, released := fun e => ?_ },
      listed := fun e he => ?_, work := fun c q hq => ?_, queued := fun q hq => ?_ }
  · change update s.avs.devRef d (s.avs.devRef d - 1) e =
      (if update s.base d false e then 1 else 0) + s.slots.countP fun f => s.avs.ownDev f = some e
    rcases eq_or_ne e d with rfl | hne
    · rw [update_self, update_self, if_neg Bool.false_ne_true]
      omega
    · rw [update_of_ne hne, hkeep hne]
      exact h.core.dev e
  · dsimp only
    rcases h.core.released d with hr | ⟨-, hr⟩
    swap
    · exact absurd hr h0
    rcases eq_or_ne e d with rfl | hne
    · split_ifs with h1
      · rw [update_self, update_self]
        omega
      · exact .inl hr
    · rw [update_of_ne hne]
      split_ifs with h1
      · rw [update_of_ne hne]
        exact h.core.released e
      · exact h.core.released e
  · have hne : e ≠ d := by
      rintro rfl
      rw [hl] at he
      cases he
    exact (hkeep hne).trans (h.listed e he)
  · have hq' : (s.call c).port = some q := hq
    have hne : q.cmDev ≠ d := by
      rintro rfl
      have hcall : s.call c ≠ .none := by
        intro hn
        rw [hn] at hq'
        cases hq'
      have hm := h.stack c (.inr hcall) _ (show .tmpAv c ∈ stackOf c by simp [stackOf])
      refine Bool.false_ne_true (hidle.2.symm.trans ?_)
      refine List.any_eq_true.2 ⟨_, hm, ?_⟩
      simpa using congrArg (Option.map CmPort.cmDev) hq'
    exact (hkeep hne).trans (h.work c q hq)
  · have hne : q.cmDev ≠ d := by
      rintro rfl
      exact Bool.false_ne_true (hidle.1.symm.trans (List.any_eq_true.2 ⟨q, hq, by simp⟩))
    exact (hkeep hne).trans (h.queued q hq)

/-- STEP: `cm_add_one` is done, or fails while no MAD of its ports is there. -/
theorem Inv.addEnd {d : ℕ} {ok : Bool} (hb : s.base d = true) (hl : s.listed d = false)
    (hh : ok = false → s.handling d = false) : Inv (cmAddOneEnd s d ok) := by
  cases ok with
  | false => exact { h.giveUp hb hl (hh rfl) with }
  | true =>
    refine { h with listed := fun e he => ?_ }
    have he : update s.listed d true e = true := he
    rcases eq_or_ne e d with rfl | hne
    · exact hb
    · rw [update_of_ne hne] at he
      exact h.listed e he

/-- STEP: a MAD comes in. -/
theorem Inv.recv (hp : s.base p.cmDev = true) : Inv { s with works := s.works ++ [p] } :=
  { h with
    queued := fun q hq => by
      rcases List.mem_append.1 hq with hq | hq
      · exact h.queued q hq
      · rwa [mem_singleton.1 hq] }

/-- STEP: a handler takes a MAD. -/
theorem Inv.take (p : CmPort) : Inv (s.take p) :=
  { h with queued := fun q hq => h.queued q (List.mem_of_mem_erase hq) }

end

theorem Inv.start : Inv Cm.start := by
  have hz : ∀ f, Cm.start.avs.Free f := fun f => ⟨rfl, rfl⟩
  refine ⟨⟨List.nodup_nil, fun _ => rfl, fun _ => rfl, fun f _ => hz f, fun _ => .inl rfl, rfl⟩,
    ?_, fun _ => iff_of_false not_mem_nil not_mem_nil, ?_, ?_, ?_,
    fun _ _ _ => ⟨hz _, hz _⟩, ?_, ?_, ?_, fun _ f _ _ => hz f, fun _ => rfl, (by simp [Cm.start])⟩
  · intro d hd
    cases hd
  · rintro c (hc | hc)
    · cases hc
    · exact absurd rfl hc
  · intro c _ f _ hf
    cases hf
  · intro i hi
    cases hi
  · intro c i hc
    cases hc
  · intro c i hc
    cases hc
  · intro c q hq
    cases hq

/-- STEP: every step that callers and the core may take keeps the invariant, if it is clean. -/
theorem Inv.step (h : Inv s) {e : Ev} (hok : ok s e) (hc : clean s e) : Inv (AvRefs.step s e) := by
  cases e with
  | addOne d => exact h.addOne hok.1 hok.2.1
  | goingDown d => exact h.goingDown d
  | addEnd d ok => exact h.addEnd hok.1 hok.2.1 hc
  | removeOne d => exact h.giveUp hok.1 hok.2.1 hok.2.2.1
  | recv port => exact h.recv hok
  | createId i =>
    obtain ⟨h₁, hno, -⟩ := h.allocIdPriv hok
    exact h₁.finalizeId (by simp [cmAllocIdPriv]) hno
  | send i =>
    rw [AvRefs.step, h.core.usePort]
    exact h
  | migrate i may =>
    cases may with
    | false => exact h
    | true => exact h.migrate hok (hc rfl).1 (hc rfl).2
  | destroyId i => exact h.destroyId hok.1 hok.2
  | sendReq c i alt res => exact h.sendInit hok.1 hok.2.1 hc hok.2.2 rfl rfl rfl rfl
  | sendReqAlt c res => exact h.sendReqAlt hc hok
  | sendReqMove c => exact h.sendReqMove
  | sendSidrReq c i res => exact h.sendInit hok.1 hok.2.1 hc hok.2.2 rfl rfl rfl rfl
  | sendSidrReqMove c => exact h.sendSidrReqMove
  | lap c i port wc =>
    exact (h.take port).lap hok.1 hok.2.1 (h.queued port hok.2.2.1) hok.2.2.2
  | lapPath c res => exact h.lapPath hc hok
  | lapMove c k => exact h.lapMove k
  | req c i port k wc =>
    exact (h.take port).reqHandler hok.1 hok.2.1 (h.queued port hok.2.2) k wc
  | reqMatch c found res => exact h.reqMatch hc hok
  | reqAlt c res =>
    refine h.reqAlt (fun r hr => ?_) fun r hr => ?_
    · subst hr
      exact hc
    · subst hr
      exact hok
  | sidrReq i port k wc keep =>
    exact (h.take port).sidrReqHandler hok.1 (h.queued port hok.2) k wc keep

/-- RUN: the invariant holds in every state of every clean run. -/
theorem Inv.run (h : Reach AvRefs.step (fun s e => ok s e ∧ clean s e) Cm.start s) : Inv s :=
  h.invariant Inv.start fun _ _ hoc hi => hi.step hoc.1 hoc.2

/-- CORRECT: in every clean run the references of each device are the base reference and one for
    each address vector with a port of it, those of each GID entry one for each that names it; only
    an id that is known or at work, and a call on its way, has such a vector; a port is there as
    long as a vector names it, a device is released at most once, and no reference was taken or put,
    nor a port used, when there was none left. When no id and no call is left the base references
    are. -/
theorem cm_av_refs (h : Reach step (fun s e => ok s e ∧ clean s e) Cm.start s) :
    (s.slots.Nodup ∧ ∀ f ∉ s.slots, s.avs.Free f) ∧
    (∀ d, s.avs.devRef d = (if s.base d then 1 else 0) +
      s.slots.countP fun f => (s.avs.field f).port.map CmPort.cmDev = some d) ∧
    (∀ g, s.avs.gidRef g = s.slots.countP fun f => (s.avs.field f).sgidAttr = some g) ∧
    (∀ i, s.live i = false → (∀ c, (s.call c).own ≠ some i) →
      s.avs.Free (.av i) ∧ s.avs.Free (.altAv i)) ∧
    (∀ c, s.call c = .none → ∀ f ∈ stackOf c, s.avs.Free f) ∧
    (∀ f p, (s.avs.field f).port = some p → s.avs.devRef p.cmDev ≠ 0 ∧ s.avs.released p.cmDev = 0) ∧
    (∀ d, s.avs.released d ≤ 1) ∧ s.avs.bad = false ∧
    ((∀ i, s.live i = false) → (∀ c, s.call c = .none) →
      (∀ d, s.avs.devRef d = if s.base d then 1 else 0) ∧ ∀ g, s.avs.gidRef g = 0) := by
  have hi := Inv.run h
  have hgid : ∀ g, s.avs.gidRef g = s.slots.countP fun f => (s.avs.field f).sgidAttr = some g := by
    intro g
    exact (hi.core.gid g).trans (Nat.zero_add _)
  have hstack : ∀ c, s.call c = .none → ∀ f ∈ stackOf c, s.avs.Free f := by
    intro c hc f hf
    refine hi.free c f hf ?_
    rw [hc]
    simp [Stage.uses]
  refine ⟨⟨hi.core.nodup, hi.core.out⟩, hi.core.dev, hgid, hi.dead, hstack, fun f p hp => ?_,
    fun d => ?_, hi.core.bad, fun hlive hcall => ?_⟩
  · have hf : f ∈ s.slots := by
      by_contra hn
      rw [(hi.core.out f hn).1] at hp
      cases hp
    have hpos := hi.core.devRef_pos hf hp
    rcases hi.core.released p.cmDev with hr | ⟨-, hr⟩
    · exact ⟨by omega, hr⟩
    · omega
  · rcases hi.core.released d with hr | ⟨hr, -⟩
    · omega
    · omega
  · have hfree : ∀ f, s.avs.Free f := by
      intro f
      have hown : ∀ {i} c, (s.call c).own ≠ some i := by
        intro i c ho
        rw [hcall c] at ho
        cases ho
      cases f with
      | av i => exact (hi.dead i (hlive i) hown).1
      | altAv i => exact (hi.dead i (hlive i) hown).2
      | tmpAv c => exact hstack c (hcall c) _ (by simp [stackOf])
      | tmpAlt c => exact hstack c (hcall c) _ (by simp [stackOf])
      | ahAttr c => exact hstack c (hcall c) _ (by simp [stackOf])
    refine ⟨fun d => ?_, fun g => ?_⟩
    · have hd := hi.core.dev d
      have hz : (s.slots.countP fun f => s.avs.ownDev f = some d) = 0 := by
        refine List.countP_eq_zero.2 fun f _ => ?_
        rw [Avs.ownDev, (hfree f).1]
        simp
      rw [hz] at hd
      exact hd
    · rw [hgid g]
      refine List.countP_eq_zero.2 fun f _ => ?_
      rw [(hfree f).2]
      simp

instance (s : Cm) : (res : ByPath) → Decidable (res.found s)
  | .noPort => instDecidableTrue
  | .noCm _ => instDecidableTrue
  | .noPkey _ => inferInstanceAs (Decidable (_ = _))
  | .noAh _ _ => inferInstanceAs (Decidable (_ = _))
  | .ok .. => inferInstanceAs (Decidable (_ = _))

instance : (res : ByPath) → Decidable res.hasCm
  | .noCm _ => instDecidableFalse
  | .noPort => instDecidableTrue
  | .noPkey _ => instDecidableTrue
  | .noAh _ _ => instDecidableTrue
  | .ok .. => instDecidableTrue

instance : (res : ByPath) → Decidable res.whole
  | .noCm _ => instDecidableFalse
  | .noAh _ _ => instDecidableFalse
  | .noPort => instDecidableTrue
  | .noPkey _ => instDecidableTrue
  | .ok .. => instDecidableTrue

instance (s : Cm) : (e : Ev) → Decidable (ok s e)
  | .addOne _ => inferInstanceAs (Decidable (_ ∧ _))
  | .goingDown _ => inferInstanceAs (Decidable (_ = _))
  | .removeOne _ => inferInstanceAs (Decidable (_ ∧ _))
  | .addEnd .. => inferInstanceAs (Decidable (_ ∧ _))
  | .recv _ => inferInstanceAs (Decidable (_ = _))
  | .createId i => inferInstanceAs (Decidable (.av i ∉ s.slots))
  | .send _ => inferInstanceAs (Decidable (_ = _))
  | .migrate .. => inferInstanceAs (Decidable (_ = _))
  | .destroyId _ => inferInstanceAs (Decidable (_ ∧ _))
  | .sendReq c i _ res =>
    inferInstanceAs (Decidable (.tmpAv c ∉ s.slots ∧ s.live i = true ∧ res.found s))
  | .sendReqAlt _ res => inferInstanceAs (Decidable (res.found s))
  | .sendReqMove _ => instDecidableTrue
  | .sendSidrReq c i res =>
    inferInstanceAs (Decidable (.tmpAv c ∉ s.slots ∧ s.live i = true ∧ res.found s))
  | .sendSidrReqMove _ => instDecidableTrue
  | .lap c i port wc =>
    inferInstanceAs (Decidable (.tmpAv c ∉ s.slots ∧ s.live i = true ∧ port ∈ s.works ∧
      (wc.ok = false → wc.sgidAttr = none)))
  | .lapPath _ res => inferInstanceAs (Decidable (res.found s))
  | .lapMove _ _ => instDecidableTrue
  | .req c i port _ _ =>
    inferInstanceAs (Decidable (.tmpAv c ∉ s.slots ∧ .av i ∉ s.slots ∧ port ∈ s.works))
  | .reqMatch _ _ res => inferInstanceAs (Decidable (res.found s))
  | .reqAlt _ (some res) => inferInstanceAs (Decidable (res.found s))
  | .reqAlt _ none => instDecidableTrue
  | .sidrReq i port _ _ _ =>
    inferInstanceAs (Decidable (.av i ∉ s.slots ∧ port ∈ s.works))

instance (s : Cm) : (e : Ev) → Decidable (clean s e)
  | .migrate _ may => inferInstanceAs (Decidable (may = true → _ ∧ _))
  | .sendReq _ _ _ res => inferInstanceAs (Decidable res.whole)
  | .sendReqAlt _ res => inferInstanceAs (Decidable res.whole)
  | .sendSidrReq _ _ res => inferInstanceAs (Decidable res.whole)
  | .lapPath _ res => inferInstanceAs (Decidable res.whole)
  | .reqMatch _ _ res => inferInstanceAs (Decidable res.hasCm)
  | .reqAlt _ (some res) => inferInstanceAs (Decidable res.hasCm)
  | .reqAlt _ none => instDecidableTrue
  | .addOne _ => instDecidableTrue
  | .addEnd .. => inferInstanceAs (Decidable (_ → _))
  | .recv _ => instDecidableTrue
  | .goingDown _ => instDecidableTrue
  | .removeOne _ => instDecidableTrue
  | .createId _ => instDecidableTrue
  | .send _ => instDecidableTrue
  | .destroyId _ => instDecidableTrue
  | .sendReqMove _ => instDecidableTrue
  | .sendSidrReqMove _ => instDecidableTrue
  | .lap .. => instDecidableTrue
  | .lapMove _ _ => instDecidableTrue
  | .req .. => instDecidableTrue
  | .sidrReq .. => instDecidableTrue

/-- An id with both vectors, one of each device, sends a REQ; a third device cannot be added; a REQ
    that came in is turned down by its user; then the first device goes. -/
def twoPaths : List Ev :=
  [.addOne 0, .addEnd 0 true, .addOne 1, .addEnd 1 true, .createId 0,
    .sendReq 0 0 true (.ok ⟨0, 1⟩ 3 18 (some 7)), .sendReqAlt 0 (.ok ⟨1, 1⟩ 3 18 (some 8)),
    .sendReqMove 0, .addOne 2, .recv ⟨0, 1⟩, .addEnd 2 false, .req 1 1 ⟨0, 1⟩ 3 ⟨some 7, true⟩,
    .reqMatch 1 true (.ok ⟨0, 1⟩ 3 18 (some 7)), .reqAlt 1 none, .destroyId 1, .goingDown 0,
    .removeOne 0]

theorem cm_av_refs_demo : (twoPaths.foldl step Cm.start).avs.devRef 0 = 1 ∧
    (twoPaths.foldl step Cm.start).avs.devRef 1 = 2 ∧
    (twoPaths.foldl step Cm.start).avs.gidRef 7 = 1 ∧
    (twoPaths.foldl step Cm.start).avs.bad = false := by
  have hrun : Runs step (fun s e => ok s e ∧ clean s e) Cm.start twoPaths := by
    decide +kernel
  obtain ⟨-, hdev, hgid, -, -, -, -, hbad, -⟩ := cm_av_refs (Reach.start.runs hrun)
  refine ⟨(hdev 0).trans ?_, (hdev 1).trans ?_, (hgid 7).trans ?_, hbad⟩ <;> decide +kernel

/-- BROKEN: an id migrates from a path of one device to a path of another, and its vectors put the
    second device and its GID entry twice when it is destroyed; or the AH attributes of a path fail
    after the port was set, and the reference to its device is lost; or a REQ comes in while a device
    is added, which fails and releases the device, and the handler then takes a reference to it. -/
theorem cm_av_refs_broken :
    (∃ s, Reach step ok Cm.start s ∧ s.avs.bad = true) ∧
    (∃ s, Reach step ok Cm.start s ∧ s.avs.devRef 0 ≠ (if s.base 0 then 1 else 0) +
      s.slots.countP fun f => (s.avs.field f).port.map CmPort.cmDev = some 0) ∧
    ∃ s, Reach step ok Cm.start s ∧ s.avs.released 0 = 1 ∧ s.avs.bad = true := by
  have hrun₁ : Runs step ok Cm.start
      [.addOne 0, .addEnd 0 true, .addOne 1, .addEnd 1 true, .createId 0,
        .sendReq 0 0 true (.ok ⟨0, 1⟩ 3 18 (some 7)), .sendReqAlt 0 (.ok ⟨1, 1⟩ 3 18 (some 8)),
        .sendReqMove 0, .migrate 0 true, .destroyId 0] := by
    decide +kernel
  have hrun₂ : Runs step ok Cm.start
      [.addOne 0, .addEnd 0 true, .createId 0, .sendReq 0 0 false (.noAh ⟨0, 1⟩ 3)] := by
    decide +kernel
  have hrun₃ : Runs step ok Cm.start
      [.addOne 0, .recv ⟨0, 1⟩, .addEnd 0 false, .req 0 0 ⟨0, 1⟩ 3 ⟨some 7, true⟩] := by
    decide +kernel
  refine ⟨⟨_, Reach.start.runs hrun₁, ?_⟩, ⟨_, Reach.start.runs hrun₂, ?_⟩,
    ⟨_, Reach.start.runs hrun₃, ?_⟩⟩ <;> decide +kernel

end RdmaDriver.AvRefs
