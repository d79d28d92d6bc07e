import RdmaDriver.Basic
import RdmaDriver.Schemes.Run
import Mathlib.Data.Finset.Basic
import Mathlib.Data.List.Perm.Basic

/-! @src mlx5/core/fs_core.c, mlx5/core/fs_cmd.c | name:flow table entry | scheme:run | family:refcount

    All rules with one match value share an entry. The entry has the actions of all of them and a rule
    for each destination, which handles share by count. Where a rule is new the firmware is told, by a
    command that writes only the fields of a mask; where the last reference of a rule goes its
    destination is taken out again, and its field is added to the mask of the next command.

        handles   h1 = [a, b]    h2 = [b, c]            mask {dst, action}
                     |  |           |  |                      |
        entry       a:1 b:2 --------+ c:1       ---------> firmware: action, [a, b, c]        -/

namespace RdmaDriver.FsFte
open Schemes
open List (any_eq_true append_nil countP_append countP_cons countP_eq_zero count_cons_of_ne
  count_cons_self count_pos_iff filter_append filter_map length_cons map_append map_congr_left
  map_cons map_id map_map mem_append mem_append_left mem_cons mem_cons_of_mem mem_cons_self
  mem_map mem_reverse nodup_cons perm_middle)

/-- `MLX5_FLOW_CONTEXT_ACTION_*`; an action word is the set of its bits. -/
inductive ActionBit where
  | allow | drop | fwdDest | count | packetReformat | decap | modHdr | vlanPop | vlanPush
  | vlanPop2 | vlanPush2 | cryptoDecrypt | cryptoEncrypt | executeAso | fwdNextPrio
  | encrypt | decrypt | fwdNextNs
  deriving DecidableEq

/-- `enum mlx5_flow_destination_type`. -/
inductive DestType where
  | none | vport | flowTable | tir | flowSampler | uplink | port | counter | flowTableNum | range
  | tableType
  deriving DecidableEq

/-- What is compared of `struct mlx5_flow_table`. -/
structure FlowTable where
  id : ℕ
  type : ℕ
  level : ℕ
  deriving DecidableEq

/-- `struct mlx5_pkt_reformat`; an owner is the firmware or the driver. -/
structure PktReformat where
  ownerFw : Bool
  id : ℕ
  drId : ℕ
  deriving DecidableEq

/-- The destination of a vport, with the two bits of its flags. -/
structure Vport where
  num : ℕ
  vhcaId : ℕ
  pktReformat : PktReformat
  vhcaIdValid : Bool
  reformatIdValid : Bool
  deriving DecidableEq

/-- `struct mlx5_flow_destination`. -/
inductive Dest where
  | none
  | vport (v : Vport)
  | flowTable (ft : FlowTable)
  | tir (tirNum : ℕ)
  | flowSampler (samplerId : ℕ)
  | uplink (v : Vport)
  | port
  | counter (counterId : ℕ)
  | flowTableNum (ftNum : ℕ)
  | range (hitFt missFt field min max : ℕ)
  | tableType (ft : FlowTable)
  deriving DecidableEq

def Dest.type : Dest → DestType
  | .none => .none
  | .vport _ => .vport
  | .flowTable _ => .flowTable
  | .tir _ => .tir
  | .flowSampler _ => .flowSampler
  | .uplink _ => .uplink
  | .port => .port
  | .counter _ => .counter
  | .flowTableNum _ => .flowTableNum
  | .range .. => .range
  | .tableType _ => .tableType

/-- `struct mlx5_fs_vlan`. -/
structure Vlan where
  ethtype : ℕ
  vid : ℕ
  prio : ℕ
  deriving DecidableEq

/-- What the entry uses of `struct mlx5_flow_act`; pointers are numbers. -/
structure FlowAct where
  action : Finset ActionBit
  modifyHdr : ℕ
  pktReformat : ℕ
  ignoreFlowLevel : Bool
  vlan0 : Vlan
  vlan1 : Vlan

/-- `struct mlx5_flow_context`. -/
structure FlowContext where
  hasTag : Bool
  flowTag : ℕ

/-- `struct mlx5_flow_rule`; `parent` tells whether it is linked into the tree. -/
structure Rule where
  id : ℕ
  destAttr : Dest
  refcount : ℕ
  parent : Bool
  deriving DecidableEq

/-- The fields of a modify mask. -/
inductive MaskBit where
  | action | destinationList | flowCounters
  deriving DecidableEq

/-- `struct fs_fte`. -/
structure Fte where
  destsSize : ℤ
  fwdDests : ℤ
  action : FlowAct
  flowContext : FlowContext
  children : List Rule
  modifyMask : Finset MaskBit
  refcount : ℕ
  existing : Bool
  active : Bool

/-- `is_fwd_dest_type`. -/
def isFwdDestType : DestType → Bool
  | .flowTableNum | .flowTable | .uplink | .vport | .flowSampler | .tir | .range | .tableType =>
    true
  | _ => false

/-- `mlx5_pkt_reformat_cmp`. -/
def mlx5PktReformatCmp (p1 p2 : PktReformat) : Bool :=
  p1.ownerFw = p2.ownerFw && (if p1.ownerFw then p1.id = p2.id else p1.drId = p2.drId)

/-- The comparison of two vports in `mlx5_flow_dests_cmp`. -/
def vportCmp (v1 v2 : Vport) : Bool :=
  v1.num = v2.num && v1.vhcaIdValid = v2.vhcaIdValid &&
    v1.reformatIdValid = v2.reformatIdValid &&
    (!v1.vhcaIdValid || v1.vhcaId = v2.vhcaId) &&
    (!v1.reformatIdValid || mlx5PktReformatCmp v1.pktReformat v2.pktReformat)

/-- `mlx5_flow_dests_cmp`. -/
def mlx5FlowDestsCmp : Dest → Dest → Bool
  | .vport v1, .vport v2 => vportCmp v1 v2
  | .uplink v1, .uplink v2 => vportCmp v1 v2
  | .flowTable ft1, .flowTable ft2 => ft1 = ft2
  | .tir n1, .tir n2 => n1 = n2
  | .flowTableNum n1, .flowTableNum n2 => n1 = n2
  | .flowSampler n1, .flowSampler n2 => n1 = n2
  | .range hit1 miss1 field1 min1 max1, .range hit2 miss2 field2 min2 max2 =>
    field1 = field2 && hit1 = hit2 && miss1 = miss2 && min1 = min2 && max1 = max2
  | _, _ => false

/-- `find_flow_rule`. -/
def findFlowRule (fte : Fte) (dest : Dest) : Option Rule :=
  fte.children.find? fun r => mlx5FlowDestsCmp r.destAttr dest

/-- The rule that a pointer names. -/
def ruleAt (id : ℕ) (children : List Rule) : Option Rule := children.find? fun r => r.id = id

/-- A reference count is written. -/
def setRef (id refcount : ℕ) (children : List Rule) : List Rule :=
  children.map fun r => if r.id = id then { r with refcount := refcount } else r

/-- A rule is taken off the list. -/
def listDel (id : ℕ) (children : List Rule) : List Rule := children.filter fun r => r.id ≠ id

/-- `destroy_flow_handle`, of the rules of a handle from its last one on. -/
def destroyFlowHandle : List ℕ → Fte → Fte
  | [], fte => fte
  | id :: ids, fte =>
    match ruleAt id fte.children with
    | none => destroyFlowHandle ids fte
    | some r =>
      if r.refcount - 1 = 0 then
        destroyFlowHandle ids
          { fte with destsSize := fte.destsSize - 1, children := listDel id fte.children }
      else destroyFlowHandle ids { fte with children := setRef id (r.refcount - 1) fte.children }

/-- What `create_flow_handle` works on: the entry, the rules of the handle so far, the last one first,
    and what it returns through pointers. `next` names the next rule. -/
structure Build where
  fte : Fte
  rule : List ℕ
  modifyMask : Finset MaskBit
  newRule : Bool
  next : ℕ

/-- A destination has a rule, which is shared. -/
def Build.share (b : Build) (r : Rule) : Build :=
  { b with
    fte := { b.fte with children := setRef r.id (r.refcount + 1) b.fte.children }
    rule := r.id :: b.rule }

/-- The rule that `alloc_rule` makes. -/
def allocRule (next : ℕ) (dest : Option Dest) : Rule := ⟨next, dest.getD .none, 1, false⟩

/-- The mask that a new rule of a destination needs. -/
def newMask : Option Dest → Finset MaskBit
  | none => ∅
  | some dest => if dest.type = .counter then {.flowCounters} else {.destinationList}

/-- A rule is made for a destination; flow tables, and the rule without destination, are in the end of
    the list. -/
def Build.add (b : Build) (dest : Option Dest) : Build :=
  { fte := { b.fte with
      children :=
        if dest.isSome ∧ (allocRule b.next dest).destAttr.type ≠ .flowTable then
          allocRule b.next dest :: b.fte.children
        else b.fte.children ++ [allocRule b.next dest]
      destsSize := if dest.isSome then b.fte.destsSize + 1 else b.fte.destsSize
      fwdDests :=
        if isFwdDestType (allocRule b.next dest).destAttr.type then b.fte.fwdDests + 1
        else b.fte.fwdDests }
    rule := b.next :: b.rule
    modifyMask := b.modifyMask ∪ newMask dest
    newRule := true
    next := b.next + 1 }

/-- The loop of `create_flow_handle`; false when a rule could not be allocated. -/
def createRules (alloc : ℕ → Bool) : ℕ → List (Option Dest) → Build → Build × Bool
  | _, [], b => (b, true)
  | i, dest :: dests, b =>
    match dest.bind (findFlowRule b.fte) with
    | some r => createRules alloc (i + 1) dests (b.share r)
    | none =>
      if alloc i then ({ b with fte := destroyFlowHandle b.rule b.fte }, false)
      else createRules alloc (i + 1) dests (b.add dest)

/-- The destinations that the loop goes over: one that is missing when there are none. -/
def destList : Option (List Dest) → List (Option Dest)
  | none => [none]
  | some dests => dests.map some

/-- What fails in an addition: something before the entry is changed, the handle, the rule of a
    destination, the firmware command. -/
structure Env where
  early : Bool
  handle : Bool
  alloc : ℕ → Bool
  fw : Bool

/-- `create_flow_handle`; false for an error. -/
def createFlowHandle (e : Env) (fte : Fte) (dests : Option (List Dest)) (next : ℕ) : Build × Bool :=
  if e.handle then (⟨fte, [], ∅, false, next⟩, false)
  else createRules e.alloc 0 (destList dests) ⟨fte, [], ∅, false, next⟩

/-- The destinations that are written to the firmware: those that are no counters. -/
def isListed (dest : Dest) : Bool := dest.type ≠ .none && dest.type ≠ .counter

/-- Those that are. -/
def isCounter (dest : Dest) : Bool := dest.type = .counter

/-- A destination brings its own packet reformat. -/
def isEncap : Dest → Bool
  | .vport v | .uplink v => v.reformatIdValid
  | _ => false

/-- `mlx5_set_extended_dest`. -/
def setExtendedDest (action : Finset ActionBit) (dests : List Dest) : Bool :=
  .fwdDest ∈ action && 1 < (dests.filter isListed).length &&
    0 < ((dests.filter isListed).filter isEncap).length

/-- What the firmware knows of an entry, by the fields of a modify mask. -/
structure FwEntry where
  action : Finset ActionBit
  destination : Bool × List Dest
  flowCounter : List Dest
  deriving DecidableEq

/-- The flow context that `mlx5_cmd_set_fte` writes for actions and destinations. -/
def flowContext (action : Finset ActionBit) (dests : List Dest) : FwEntry where
  action := if setExtendedDest action dests then action.erase .packetReformat else action
  destination :=
    (setExtendedDest action dests, if .fwdDest ∈ action then dests.filter isListed else [])
  flowCounter := if .count ∈ action then dests.filter isCounter else []

/-- The flow context of an entry. -/
def Fte.context (fte : Fte) : FwEntry :=
  FsFte.flowContext fte.action.action (fte.children.map Rule.destAttr)

/-- The fields of a mask are written. -/
def FwEntry.update (fw : FwEntry) (modifyMask : Finset MaskBit) (new : FwEntry) : FwEntry where
  action := if .action ∈ modifyMask then new.action else fw.action
  destination := if .destinationList ∈ modifyMask then new.destination else fw.destination
  flowCounter := if .flowCounters ∈ modifyMask then new.flowCounter else fw.flowCounter

/-- `mlx5_cmd_create_fte` and `mlx5_cmd_update_fte`, where they do not fail. -/
def setFte (fw : Option FwEntry) (modifyMask : Finset MaskBit) (fte : Fte) : Option FwEntry :=
  if fte.existing then fw.map (·.update modifyMask fte.context) else some fte.context

/-- The last loop of `add_rule_fg`: rules that are not in the tree are linked. -/
def linkRules : List ℕ → Fte → Fte
  | [], fte => fte
  | id :: ids, fte =>
    match ruleAt id fte.children with
    | none => linkRules ids fte
    | some r =>
      if r.parent then linkRules ids fte
      else linkRules ids { fte with
        children := fte.children.map fun r => if r.id = id then { r with parent := true } else r
        refcount := fte.refcount + 1 }

/-- `check_conflicting_actions_vlan`. -/
def checkConflictingActionsVlan (vlan0 vlan1 : Vlan) : Bool :=
  vlan0.ethtype ≠ vlan1.ethtype || vlan0.vid ≠ vlan1.vid || vlan0.prio ≠ vlan1.prio

/-- `check_conflicting_actions`. -/
def checkConflictingActions (act1 act2 : FlowAct) : Bool :=
  if act1.action = {.count} ∨ act2.action = {.count} then false
  else
    ([ActionBit.drop, .packetReformat, .decap, .modHdr, .vlanPop, .vlanPush, .vlanPop2,
        .vlanPush2].any fun bit => (bit ∈ act1.action) != (bit ∈ act2.action)) ||
      (.packetReformat ∈ act1.action && act1.pktReformat ≠ act2.pktReformat) ||
      (.modHdr ∈ act1.action && act1.modifyHdr ≠ act2.modifyHdr) ||
      (.vlanPush ∈ act1.action && checkConflictingActionsVlan act1.vlan0 act2.vlan0) ||
      (.vlanPush2 ∈ act1.action && checkConflictingActionsVlan act1.vlan1 act2.vlan1)

/-- `check_conflicting_ftes`; true for an error. -/
def checkConflictingFtes (fte : Fte) (flowContext : FlowContext) (flowAct : FlowAct) : Bool :=
  checkConflictingActions flowAct fte.action ||
    (flowContext.hasTag && fte.flowContext.flowTag ≠ flowContext.flowTag)

/-- The entries of a match value: one, or none, what the firmware has of it, and the handles. -/
structure World where
  fte : Option Fte
  fw : Option FwEntry
  next : ℕ
  handles : List (List ℕ)

/-- The action word of an entry is written. -/
def Fte.setAction (fte : Fte) (action : Finset ActionBit) : Fte :=
  { fte with action := { fte.action with action := action } }

/-- What `add_rule_fte` leaves: the entry, the firmware's, the handle or an error. -/
structure Added where
  fte : Fte
  fw : Option FwEntry
  next : ℕ
  handle : Option (List ℕ)

/-- `add_rule_fte`. -/
def addRuleFte (e : Env) (fw : Option FwEntry) (fte : Fte) (dests : Option (List Dest)) (next : ℕ)
    (updateAction : Bool) : Added :=
  match createFlowHandle e fte dests next with
  | (b, false) => ⟨b.fte, fw, b.next, none⟩
  | (b, true) =>
    if !b.newRule then ⟨b.fte, fw, b.next, some b.rule.reverse⟩
    else if e.fw then ⟨destroyFlowHandle b.rule b.fte, fw, b.next, none⟩
    else
      ⟨{ b.fte with active := true, existing := true },
        setFte fw (if updateAction then b.modifyMask ∪ {.action} else b.modifyMask) b.fte, b.next,
        some b.rule.reverse⟩

/-- `add_rule_fg`. -/
def addRuleFg (e : Env) (fw : Option FwEntry) (fte : Fte) (flowContext : FlowContext)
    (flowAct : FlowAct) (dests : Option (List Dest)) (next : ℕ) : Added :=
  if checkConflictingFtes fte flowContext flowAct then ⟨fte, fw, next, none⟩
  else
    let oldAction := fte.action.action
    let added := addRuleFte e fw (fte.setAction (oldAction ∪ flowAct.action)) dests next
      (decide (oldAction ≠ flowAct.action))
    match added.handle with
    | none => { added with fte := added.fte.setAction oldAction }
    | some handle => { added with fte := linkRules handle added.fte }

/-- `alloc_fte`. -/
def allocFte (flowContext : FlowContext) (flowAct : FlowAct) : Fte where
  destsSize := 0
  fwdDests := 0
  action := flowAct
  flowContext := flowContext
  children := []
  modifyMask := ∅
  refcount := 1
  existing := false
  active := false

/-- `counter_is_valid`. -/
def counterIsValid (action : Finset ActionBit) : Bool :=
  .drop ∈ action || .allow ∈ action || .fwdDest ∈ action

/-- `dest_is_valid`, for a destination. -/
def destIsValid (dest : Dest) (flowAct : FlowAct) (ft : FlowTable) : Bool :=
  match dest with
  | .counter _ => counterIsValid flowAct.action
  | .flowTable destFt =>
    .fwdDest ∉ flowAct.action ||
      (if flowAct.ignoreFlowLevel then ft.type = destFt.type else ft.level < destFt.level)
  | _ => true

/-- A call of `_mlx5_add_flow_rules`, with the match value of the entry. -/
structure Request where
  flowContext : FlowContext
  flowAct : FlowAct
  dests : Option (List Dest)

/-- The tests of `_mlx5_add_flow_rules`. -/
def Request.valid (req : Request) (ft : FlowTable) : Bool :=
  match req.dests with
  | none => true
  | some dests => !dests.isEmpty && dests.all fun dest => destIsValid dest req.flowAct ft

/-- `_mlx5_add_flow_rules`: the rules go to the entry, or to a new one that is freed again where that
    fails. -/
def World.add (ft : FlowTable) (w : World) (e : Env) (req : Request) : World × Bool :=
  if !req.valid ft || e.early then (w, false)
  else
    match w.fte with
    | some fte =>
      let added := addRuleFg e w.fw fte req.flowContext req.flowAct req.dests w.next
      ({ fte := some added.fte
         fw := added.fw
         next := added.next
         handles := added.handle.toList ++ w.handles }, added.handle.isSome)
    | none =>
      let added := addRuleFg e none (allocFte req.flowContext req.flowAct) req.flowContext
        req.flowAct req.dests w.next
      match added.handle with
      | none => ({ w with next := added.next }, false)
      | some handle => (⟨some added.fte, added.fw, added.next, handle :: w.handles⟩, true)

/-- `mlx5_add_flow_rules`: an action that forwards to the next table is one with that table as its last
    destination. `next_ft` is what `find_next_fwd_ft` finds. -/
def Request.forward (req : Request) (supported : Bool) (nextFt : Option FlowTable) :
    Option Request :=
  if .fwdNextPrio ∈ req.flowAct.action ∨ .fwdNextNs ∈ req.flowAct.action then
    if supported then
      nextFt.map fun ft =>
        { req with
          flowAct := { req.flowAct with
            action := ((req.flowAct.action.erase .fwdNextPrio).erase .fwdNextNs) ∪ {.fwdDest} }
          dests := some (req.dests.getD [] ++ [.flowTable ft]) }
    else none
  else some req

/-- `del_sw_hw_rule`, of a rule that was taken off the list. -/
def delSwHwRule (fte : Fte) (dest : Dest) : Fte :=
  if dest.type = .counter then
    { fte.setAction (fte.action.action.erase .count) with
      destsSize := fte.destsSize - 1
      modifyMask := fte.modifyMask ∪ {.action, .flowCounters} }
  else if dest.type = .port then
    { fte.setAction (fte.action.action.erase .allow) with
      destsSize := fte.destsSize - 1
      modifyMask := fte.modifyMask ∪ {.action} }
  else if isFwdDestType dest.type then
    { (if fte.fwdDests - 1 = 0 then fte.setAction (fte.action.action.erase .fwdDest) else fte) with
      destsSize := fte.destsSize - 1
      fwdDests := fte.fwdDests - 1
      modifyMask := fte.modifyMask ∪ {.destinationList} }
  else fte

/-- `tree_remove_node` for the rules of a handle, from its last one on. -/
def removeRules : List ℕ → Fte → Fte
  | [], fte => fte
  | id :: ids, fte =>
    match ruleAt id fte.children with
    | none => removeRules ids fte
    | some r =>
      if 1 < r.refcount then
        removeRules ids { fte with children := setRef id (r.refcount - 1) fte.children }
      else
        let fte := delSwHwRule { fte with children := listDel id fte.children } r.destAttr
        removeRules ids { fte with refcount := fte.refcount - 1 }

/-- `modify_fte`; the mask is cleared also when the command fails. -/
def modifyFte (fail : Bool) (fw : Option FwEntry) (fte : Fte) : Fte × Option FwEntry :=
  ({ fte with modifyMask := ∅ }, if fail then fw else setFte fw fte.modifyMask fte)

/-- `mlx5_del_flow_rules`. -/
def World.del (w : World) (fail : Bool) (handle : List ℕ) : World :=
  match w.fte with
  | none => w
  | some fte =>
    let fte := removeRules handle.reverse fte
    let w := { w with handles := w.handles.erase handle }
    if fte.children.isEmpty then
      -- the last reference of the entry is put
      { w with
        fte := if fte.refcount - 1 = 0 then none else some { fte with refcount := fte.refcount - 1 }
        fw := if fte.active ∧ ¬ fail then none else w.fw }
    else if fte.destsSize ≠ 0 then
      if fte.modifyMask ≠ ∅ then
        let (fte, fw) := modifyFte fail w.fw fte
        { w with fte := some fte, fw := fw }
      else { w with fte := some fte }
    else { w with fte := some fte }

/-! ### Rules and references -/

/-- The rules of an entry are counted by the handles that use them. -/
structure Refs (children : List Rule) (uses : List ℕ) (next : ℕ) : Prop where
  nodup : (children.map Rule.id).Nodup
  count : ∀ r ∈ children, r.refcount = uses.count r.id ∧ 0 < r.refcount
  named : ∀ id ∈ uses, ∃ r ∈ children, r.id = id
  fresh : ∀ r ∈ children, r.id < next

section Rules

variable {l l₁ l₂ : List Rule} {r : Rule} {id n next : ℕ} {uses uses' : List ℕ}

/-- A rule that is found, and the others. -/
theorem ruleAt_split (hnd : (l.map Rule.id).Nodup) (h : ruleAt id l = some r) :
    ∃ l₁ l₂, l = l₁ ++ r :: l₂ ∧ r.id = id ∧ ∀ x ∈ l₁ ++ l₂, x.id ≠ id := by
  have hid : r.id = id := by simpa using List.find?_some h
  obtain ⟨l₁, l₂, rfl⟩ := List.append_of_mem (List.mem_of_find?_eq_some h)
  refine ⟨l₁, l₂, rfl, hid, fun x hx heq => ?_⟩
  have hnd' : ((r :: (l₁ ++ l₂)).map Rule.id).Nodup :=
    (perm_middle.map Rule.id).nodup_iff.mp hnd
  rw [map_cons, nodup_cons] at hnd'
  exact hnd'.1 (mem_map.mpr ⟨x, hx, heq.trans hid.symm⟩)

theorem ruleAt_middle (hid : r.id = id) (hne : ∀ x ∈ l₁ ++ l₂, x.id ≠ id) :
    ruleAt id (l₁ ++ r :: l₂) = some r := by
  unfold ruleAt
  rw [List.find?_append, List.find?_eq_none.mpr fun x hx => by
    simpa using hne x (mem_append_left _ hx)]
  simp [hid]

theorem ruleAt_mem (hnd : (l.map Rule.id).Nodup) (hr : r ∈ l) : ruleAt r.id l = some r := by
  obtain ⟨l₁, l₂, rfl⟩ := List.append_of_mem hr
  refine ruleAt_middle rfl fun x hx heq => ?_
  have hnd' : ((r :: (l₁ ++ l₂)).map Rule.id).Nodup :=
    (perm_middle.map Rule.id).nodup_iff.mp hnd
  rw [map_cons, nodup_cons] at hnd'
  exact hnd'.1 (mem_map.mpr ⟨x, hx, heq⟩)

theorem setRef_same (hne : ∀ x ∈ l, x.id ≠ id) : setRef id n l = l := by
  refine (map_congr_left fun x hx => ?_).trans (map_id l)
  rw [if_neg (hne x hx)]
  rfl

theorem setRef_middle (hid : r.id = id) (hne : ∀ x ∈ l₁ ++ l₂, x.id ≠ id) :
    setRef id n (l₁ ++ r :: l₂) = l₁ ++ { r with refcount := n } :: l₂ := by
  have h₁ : setRef id n l₁ = l₁ := setRef_same fun x hx => hne x (mem_append_left _ hx)
  have h₂ : setRef id n l₂ = l₂ := setRef_same fun x hx => hne x (List.mem_append_right _ hx)
  unfold setRef at h₁ h₂ ⊢
  rw [map_append, map_cons, h₁, h₂, if_pos hid]

theorem listDel_middle (hid : r.id = id) (hne : ∀ x ∈ l₁ ++ l₂, x.id ≠ id) :
    listDel id (l₁ ++ r :: l₂) = l₁ ++ l₂ := by
  have h : ∀ l : List Rule, (∀ x ∈ l, x.id ≠ id) → l.filter (fun x => x.id ≠ id) = l :=
    fun l hl => List.filter_eq_self.mpr fun x hx => by simpa using hl x hx
  unfold listDel
  rw [filter_append, List.filter_cons, h l₁ fun x hx => hne x (mem_append_left _ hx),
    h l₂ fun x hx => hne x (List.mem_append_right _ hx)]
  simp [hid]

/-- STEP: the references of one rule change. -/
theorem Refs.set (refs : Refs (l₁ ++ r :: l₂) uses next) (hn : uses'.count r.id = n) (hpos : 0 < n)
    (hother : ∀ id, id ≠ r.id → uses'.count id = uses.count id) :
    Refs (l₁ ++ { r with refcount := n } :: l₂) uses' next := by
  have hne : ∀ x ∈ l₁ ++ l₂, x.id ≠ r.id := by
    intro x hx heq
    have hnd : ((r :: (l₁ ++ l₂)).map Rule.id).Nodup :=
      (perm_middle.map Rule.id).nodup_iff.mp refs.nodup
    rw [map_cons, nodup_cons] at hnd
    exact hnd.1 (mem_map.mpr ⟨x, hx, heq⟩)
  have hmem : ∀ x, x ∈ l₁ ++ { r with refcount := n } :: l₂ →
      x = { r with refcount := n } ∨ x ∈ l₁ ++ l₂ := fun x hx => by
    simp only [mem_append, mem_cons] at hx ⊢
    tauto
  have hin : ∀ x ∈ l₁ ++ l₂, x ∈ l₁ ++ r :: l₂ := fun x hx => by
    simp only [mem_append] at hx ⊢
    tauto
  refine ⟨?_, fun x hx => ?_, fun id hid => ?_, fun x hx => ?_⟩
  · simpa using refs.nodup
  · rcases hmem x hx with rfl | hx
    · exact ⟨hn.symm, hpos⟩
    · rw [hother x.id (hne x hx)]
      exact refs.count x (hin x hx)
  · by_cases heq : id = r.id
    · exact ⟨{ r with refcount := n }, by simp, heq.symm⟩
    · have hid' : id ∈ uses := by
        rw [← count_pos_iff, ← hother id heq]
        exact count_pos_iff.mpr hid
      obtain ⟨x, hx, hxid⟩ := refs.named id hid'
      refine ⟨x, ?_, hxid⟩
      simp only [mem_append, mem_cons] at hx ⊢
      rcases hx with hx | rfl | hx
      · exact .inl hx
      · exact absurd hxid.symm heq
      · exact .inr (.inr hx)
  · rcases hmem x hx with rfl | hx
    · exact refs.fresh r (by simp)
    · exact refs.fresh x (hin x hx)

/-- STEP: a rule without references goes. -/
theorem Refs.drop (refs : Refs (l₁ ++ r :: l₂) uses next) (hn : uses'.count r.id = 0)
    (hother : ∀ id, id ≠ r.id → uses'.count id = uses.count id) : Refs (l₁ ++ l₂) uses' next := by
  have hnd : ((r :: (l₁ ++ l₂)).map Rule.id).Nodup :=
    (perm_middle.map Rule.id).nodup_iff.mp refs.nodup
  rw [map_cons, nodup_cons] at hnd
  have hin : ∀ x ∈ l₁ ++ l₂, x ∈ l₁ ++ r :: l₂ := fun x hx => by
    simp only [mem_append] at hx ⊢
    tauto
  refine ⟨hnd.2, fun x hx => ?_, fun id hid => ?_, fun x hx => refs.fresh x (hin x hx)⟩
  · rw [hother x.id fun heq => hnd.1 (mem_map.mpr ⟨x, hx, heq⟩)]
    exact refs.count x (hin x hx)
  · have heq : id ≠ r.id := by
      rintro rfl
      exact absurd hn (count_pos_iff.mpr hid).ne'
    have hid' : id ∈ uses := by
      rw [← count_pos_iff, ← hother id heq]
      exact count_pos_iff.mpr hid
    obtain ⟨x, hx, hxid⟩ := refs.named id hid'
    refine ⟨x, ?_, hxid⟩
    simp only [mem_append, mem_cons] at hx ⊢
    rcases hx with hx | rfl | hx
    · exact .inl hx
    · exact absurd hxid.symm heq
    · exact .inr hx

/-- STEP: a rule is made, with one reference. -/
theorem Refs.insert (refs : Refs (l₁ ++ l₂) uses next) (hid : r.id = next) (hr : r.refcount = 1) :
    Refs (l₁ ++ r :: l₂) (next :: uses) (next + 1) := by
  have hmem : ∀ x, x ∈ l₁ ++ r :: l₂ ↔ x = r ∨ x ∈ l₁ ++ l₂ := fun x => by
    simp only [mem_append, mem_cons]
    tauto
  have hnot : next ∉ uses := by
    intro h
    obtain ⟨x, hx, hxid⟩ := refs.named next h
    have hlt := refs.fresh x hx
    omega
  refine ⟨?_, fun x hx => ?_, fun id hin => ?_, fun x hx => ?_⟩
  · rw [(perm_middle.map Rule.id).nodup_iff, map_cons, nodup_cons]
    refine ⟨fun h => ?_, refs.nodup⟩
    obtain ⟨x, hx, hxid⟩ := mem_map.mp h
    have hlt := refs.fresh x hx
    omega
  · rcases (hmem x).mp hx with rfl | hx
    · rw [hid, hr, count_cons_self, List.count_eq_zero.mpr hnot]
      exact ⟨rfl, Nat.one_pos⟩
    · have hlt := refs.fresh x hx
      rw [count_cons_of_ne (by omega)]
      exact refs.count x hx
  · rcases mem_cons.mp hin with rfl | hin
    · exact ⟨r, by simp, hid⟩
    · obtain ⟨x, hx, hxid⟩ := refs.named id hin
      exact ⟨x, (hmem x).mpr (.inr hx), hxid⟩
  · rcases (hmem x).mp hx with rfl | hx
    · omega
    · have hlt := refs.fresh x hx
      omega

end Rules

/-! ### Making a handle -/

/-- The destinations, of some, that no rule is found for when their turn comes. -/
def newDests : List Dest → List (Option Dest) → List (Option Dest)
  | _, [] => []
  | known, dest :: dests =>
    if dest.any fun d => known.any fun k => mlx5FlowDestsCmp k d then newDests known dests
    else dest :: newDests (dest.getD .none :: known) dests

/-- The destinations of the rules of an entry. -/
def Fte.dests (fte : Fte) : List Dest := fte.children.map Rule.destAttr

/-- A destination that forwards. -/
def isFwd (dest : Dest) : Bool := isFwdDestType dest.type

/-- What `create_flow_handle` has done so far: it made rules for the destinations `news`. -/
structure Loop (fte : Fte) (uses : List ℕ) (news : List (Option Dest)) (b : Build) : Prop where
  refs : Refs b.fte.children (b.rule ++ uses) b.next
  undo : destroyFlowHandle b.rule b.fte = { fte with
    destsSize := fte.destsSize - news.countP (·.isNone)
    fwdDests := fte.fwdDests + news.countP fun d => isFwd (d.getD .none) }
  same : b.fte = { fte with
    children := b.fte.children
    destsSize := fte.destsSize + news.countP (·.isSome)
    fwdDests := fte.fwdDests + news.countP fun d => isFwd (d.getD .none) }
  dests : b.fte.dests.Perm (news.map (·.getD .none) ++ fte.dests)
  kept : ∀ f : Dest → Bool, (∀ d ∈ news, f (d.getD .none) = false) →
    b.fte.dests.filter f = fte.dests.filter f
  mask : ∀ bit, bit ∈ b.modifyMask ↔ ∃ d ∈ news, bit ∈ newMask d
  newRule : b.newRule = true ↔ news ≠ []
  parent : ∀ r ∈ b.fte.children, r.parent = false → r.id ∈ b.rule
  fresh : b.fte.children.countP (fun r => !r.parent) = news.length

section Build

variable {fte : Fte} {uses : List ℕ} {news : List (Option Dest)} {b : Build} {r : Rule}
  {dest : Option Dest} {alloc : ℕ → Bool}

/-- The undoing does not look at the counts. -/
theorem destroy_frame : ∀ (ids : List ℕ) (fte : Fte) (x y : ℤ),
    destroyFlowHandle ids { fte with destsSize := fte.destsSize + x, fwdDests := y } =
      { destroyFlowHandle ids fte with
        destsSize := (destroyFlowHandle ids fte).destsSize + x
        fwdDests := y }
  | [], fte, x, y => rfl
  | id :: ids, fte, x, y => by
    unfold destroyFlowHandle
    dsimp only
    rcases ruleAt id fte.children with _ | r
    · exact destroy_frame ids fte x y
    · dsimp only
      by_cases hr : r.refcount - 1 = 0
      · rw [if_pos hr, if_pos hr, ← destroy_frame ids _ x y, add_sub_right_comm]
      · rw [if_neg hr, if_neg hr, ← destroy_frame ids _ x y]

theorem find_isSome (d : Dest) :
    (findFlowRule fte d).isSome = fte.dests.any fun k => mlx5FlowDestsCmp k d := by
  unfold findFlowRule Fte.dests
  rw [List.any_map, Bool.eq_iff_iff, List.find?_isSome]
  simp

theorem Loop.start (refs : Refs fte.children uses b.next)
    (hlinked : ∀ r ∈ fte.children, r.parent = true) :
    Loop fte uses [] ⟨fte, [], ∅, false, b.next⟩ where
  refs := refs
  undo := by simp [destroyFlowHandle]
  same := by simp
  dests := by simp
  kept := fun _ _ => rfl
  mask := by simp
  newRule := by simp
  parent := fun r hr h => by
    rw [hlinked r hr] at h
    cases h
  fresh := by
    rw [List.length_nil, countP_eq_zero]
    intro r hr
    simp [hlinked r hr]

/-- STEP: a rule is shared. -/
theorem Loop.share (loop : Loop fte uses news b) (hr : r ∈ b.fte.children) :
    Loop fte uses news (b.share r) := by
  obtain ⟨l₁, l₂, hl, -, hne⟩ := ruleAt_split loop.refs.nodup (ruleAt_mem loop.refs.nodup hr)
  have hset : setRef r.id (r.refcount + 1) b.fte.children =
      l₁ ++ { r with refcount := r.refcount + 1 } :: l₂ := by
    rw [hl]
    exact setRef_middle rfl hne
  have hcount := loop.refs.count r hr
  have hdests : (b.share r).fte.dests = b.fte.dests := by
    unfold Fte.dests Build.share
    rw [hset, hl]
    simp
  refine ⟨?_, ?_, ?_, ?_, ?_, loop.mask, loop.newRule, fun x hx hpar => ?_, ?_⟩
  · have hrefs := loop.refs
    rw [hl] at hrefs
    change Refs (setRef r.id (r.refcount + 1) b.fte.children) (r.id :: b.rule ++ uses) b.next
    rw [hset]
    refine hrefs.set ?_ (Nat.succ_pos _) fun id hid => ?_
    · rw [List.cons_append, count_cons_self, hcount.1]
    · rw [List.cons_append, count_cons_of_ne hid.symm]
  · -- the last reference is undone first
    have hsame : destroyFlowHandle (b.share r).rule (b.share r).fte =
        destroyFlowHandle b.rule b.fte := by
      unfold Build.share
      rw [destroyFlowHandle]
      rw [hset, ruleAt_middle (by rfl) hne]
      dsimp only
      rw [if_neg (by omega), setRef_middle (by rfl) hne, Nat.add_sub_cancel]
      have hback : l₁ ++ r :: l₂ = b.fte.children := hl.symm
      rw [hback]
    rw [hsame, loop.undo]
  · unfold Build.share
    rw [loop.same]
  · rw [hdests]
    exact loop.dests
  · intro f hf
    rw [hdests]
    exact loop.kept f hf
  · change x ∈ setRef r.id (r.refcount + 1) b.fte.children at hx
    rw [hset] at hx
    simp only [mem_append, mem_cons] at hx
    rcases hx with hx | rfl | hx
    · exact mem_cons_of_mem _ (loop.parent x (by simp [hl, hx]) hpar)
    · exact mem_cons_self
    · exact mem_cons_of_mem _ (loop.parent x (by simp [hl, hx]) hpar)
  · have hfresh := loop.fresh
    change (setRef r.id (r.refcount + 1) b.fte.children).countP _ = _
    rw [hset]
    rw [hl] at hfresh
    simpa [countP_cons] using hfresh

/-- A new rule goes to one end of the list. -/
theorem add_children (b : Build) (dest : Option Dest) : ∃ l₁ l₂, b.fte.children = l₁ ++ l₂ ∧
    (b.add dest).fte.children = l₁ ++ allocRule b.next dest :: l₂ := by
  unfold Build.add
  dsimp only
  split_ifs
  · exact ⟨[], b.fte.children, rfl, rfl⟩
  · exact ⟨b.fte.children, [], (append_nil _).symm, rfl⟩

/-- STEP: a rule is made. -/
theorem Loop.add (loop : Loop fte uses news b) (dest : Option Dest) :
    Loop fte uses (dest :: news) (b.add dest) := by
  obtain ⟨l₁, l₂, hl, hl'⟩ := add_children b dest
  have hrefs := loop.refs
  rw [hl] at hrefs
  have hne : ∀ x ∈ l₁ ++ l₂, x.id ≠ b.next := fun x hx => (hrefs.fresh x hx).ne
  have hrule : (b.add dest).rule = b.next :: b.rule := rfl
  have hid : (allocRule b.next dest).id = b.next := rfl
  have hsize : (b.add dest).fte = { b.fte with
      children := l₁ ++ allocRule b.next dest :: l₂
      destsSize := if dest.isSome then b.fte.destsSize + 1 else b.fte.destsSize
      fwdDests := if isFwd (dest.getD .none) then b.fte.fwdDests + 1 else b.fte.fwdDests } := by
    rw [← hl']
    rfl
  have hdests : (b.add dest).fte.dests =
      l₁.map Rule.destAttr ++ dest.getD .none :: l₂.map Rule.destAttr := by
    unfold Fte.dests
    rw [hl', map_append, map_cons]
    rfl
  have hdests₀ : b.fte.dests = l₁.map Rule.destAttr ++ l₂.map Rule.destAttr := by
    unfold Fte.dests
    rw [hl, map_append]
  have hcount : ∀ (f : Option Dest → Bool) (x : ℤ),
      x + ((dest :: news).countP f : ℤ) = (if f dest then x + 1 else x) + (news.countP f : ℤ) := by
    intro f x
    rw [countP_cons]
    split_ifs <;> omega
  refine ⟨?_, ?_, ?_, ?_, fun f hf => ?_, fun bit => ?_, ?_, fun x hx hpar => ?_, ?_⟩
  · rw [hrule, hl']
    exact hrefs.insert rfl rfl
  · -- the rule is taken off again, and its destination if it has one
    rw [hrule, hsize]
    unfold destroyFlowHandle
    rw [ruleAt_middle hid hne]
    dsimp only
    have hlast : (allocRule b.next dest).refcount - 1 = 0 := rfl
    rw [if_pos hlast, listDel_middle hid hne, ← hl]
    have hframe := destroy_frame b.rule b.fte (if dest.isSome then 0 else -1)
      (if isFwd (dest.getD .none) then b.fte.fwdDests + 1 else b.fte.fwdDests)
    have hx : (if dest.isSome then b.fte.destsSize + 1 else b.fte.destsSize) - 1 =
        b.fte.destsSize + (if dest.isSome then 0 else -1) := by
      split_ifs <;> omega
    rw [hx]
    refine hframe.trans ?_
    rw [loop.undo, loop.same]
    dsimp only
    congr 1
    · rw [countP_cons]
      cases dest <;> simp
      omega
    · rw [hcount]
      split_ifs <;> omega
  · rw [hsize, ← hl']
    rw [hcount, hcount, loop.same]
    dsimp only
    congr 1 <;> split_ifs <;> omega
  · rw [hdests]
    refine perm_middle.trans ?_
    rw [← hdests₀]
    exact loop.dests.cons _
  · obtain ⟨hd, hnews⟩ := List.forall_mem_cons.mp hf
    rw [← loop.kept f hnews, hdests, hdests₀, filter_append, filter_append,
      List.filter_cons, if_neg (by simp [hd])]
  · change bit ∈ b.modifyMask ∪ newMask dest ↔ _
    rw [Finset.mem_union, loop.mask]
    simp only [mem_cons, exists_eq_or_imp]
    exact or_comm
  · exact ⟨fun _ => by simp, fun _ => rfl⟩
  · rw [hl'] at hx
    simp only [mem_append, mem_cons] at hx
    rcases hx with hx | rfl | hx
    · exact mem_cons_of_mem _ (loop.parent x (by simp [hl, hx]) hpar)
    · exact mem_cons_self
    · exact mem_cons_of_mem _ (loop.parent x (by simp [hl, hx]) hpar)
  · have hfresh := loop.fresh
    rw [hl] at hfresh
    rw [hl', length_cons, ← hfresh, perm_middle.countP_eq, countP_cons]
    simp [allocRule]

/-- What is new depends on what is known, not on its order. -/
theorem newDests_perm : ∀ (ds : List (Option Dest)) {known known' : List Dest},
    known.Perm known' → newDests known ds = newDests known' ds
  | [], _, _, _ => rfl
  | d :: ds, known, known', h => by
    have hany : ∀ d : Dest, (known.any fun k => mlx5FlowDestsCmp k d) =
        known'.any fun k => mlx5FlowDestsCmp k d := fun d => h.any_eq
    unfold newDests
    simp only [hany]
    rw [newDests_perm ds h, newDests_perm ds (h.cons (d.getD .none))]

/-- RUN: the loop makes a rule for each destination that none is found for, or undoes all that. -/
theorem createRules_spec : ∀ (ds : List (Option Dest)) (i : ℕ) (news : List (Option Dest)) (b : Build),
    Loop fte uses news b →
      (∃ b' news', createRules alloc i ds b = (b', true) ∧ Loop fte uses (news' ++ news) b' ∧
          news'.Perm (newDests b.fte.dests ds) ∧ b'.rule.length = b.rule.length + ds.length ∧
          b.next ≤ b'.next) ∨
        ∃ b' j, j < ds.length ∧ alloc (i + j) = true ∧ createRules alloc i ds b = (b', false) ∧
          b'.fte = { fte with
            destsSize := fte.destsSize -
              (news ++ newDests b.fte.dests (ds.take j)).countP (·.isNone)
            fwdDests := fte.fwdDests +
              (news ++ newDests b.fte.dests (ds.take j)).countP fun d => isFwd (d.getD .none) } ∧
          b.next ≤ b'.next
  | [], i, news, b, loop => .inl ⟨b, [], rfl, loop, List.Perm.refl _, rfl, le_rfl⟩
  | d :: ds, i, news, b, loop => by
    have hfind : (d.bind (findFlowRule b.fte)).isSome =
        d.any fun d => b.fte.dests.any fun k => mlx5FlowDestsCmp k d := by
      cases d with
      | none => rfl
      | some d => exact find_isSome d
    unfold createRules
    rcases hres : d.bind (findFlowRule b.fte) with _ | r
    · rw [hres] at hfind
      by_cases hfail : alloc i = true
      · refine .inr ⟨_, 0, Nat.succ_pos _, hfail, if_pos hfail, ?_, le_rfl⟩
        rw [List.take_zero, newDests, append_nil]
        exact loop.undo
      · rw [if_neg hfail]
        have hperm : (b.add d).fte.dests.Perm (d.getD .none :: b.fte.dests) := by
          obtain ⟨l₁, l₂, hl, hl'⟩ := add_children b d
          unfold Fte.dests
          rw [hl, hl', map_append, map_cons, map_append]
          exact perm_middle
        have hnew : ∀ ds, newDests b.fte.dests (d :: ds) = d :: newDests (b.add d).fte.dests ds := by
          intro ds
          rw [newDests, ← hfind, newDests_perm ds hperm]
          rfl
        rcases createRules_spec ds (i + 1) (d :: news) (b.add d) (loop.add d) with
          ⟨b', news', hres', loop', hnews, hlen, hnext⟩ | ⟨b', j, hj, hfail', hres', hfte, hnext⟩
        · refine .inl ⟨b', news' ++ [d], hres', ?_, ?_, ?_, (Nat.le_succ _).trans hnext⟩
          · rw [List.append_assoc]
            exact loop'
          · rw [hnew]
            exact (List.perm_append_singleton d news').trans (hnews.cons d)
          · rw [hlen, length_cons]
            change (b.rule.length + 1) + _ = _
            omega
        · refine .inr ⟨b', j + 1, ?_, ?_, hres', ?_, (Nat.le_succ _).trans hnext⟩
          · rw [length_cons]
            omega
          · rw [Nat.add_right_comm] at hfail'
            exact hfail'
          · rw [List.take_succ_cons, hnew]
            have hcons : ∀ f : Option Dest → Bool, ((d :: news) ++
                newDests (b.add d).fte.dests (ds.take j)).countP f =
                  (news ++ d :: newDests (b.add d).fte.dests (ds.take j)).countP f :=
              fun f => (perm_middle.symm).countP_eq f
            rw [hfte, hcons, hcons]
    · rw [hres] at hfind
      have hr : r ∈ b.fte.children := by
        obtain ⟨d', -, hd'⟩ := Option.bind_eq_some_iff.mp hres
        exact List.mem_of_find?_eq_some hd'
      have hdests : (b.share r).fte.dests = b.fte.dests := by
        unfold Fte.dests Build.share setRef
        rw [map_map]
        refine map_congr_left fun x _ => ?_
        rw [Function.comp_apply]
        split_ifs <;> rfl
      have hnew : ∀ ds, newDests b.fte.dests (d :: ds) = newDests (b.share r).fte.dests ds := by
        intro ds
        rw [newDests, ← hfind, hdests]
        rfl
      rcases createRules_spec ds (i + 1) news (b.share r) (loop.share hr) with
        ⟨b', news', hres', loop', hnews, hlen, hnext⟩ | ⟨b', j, hj, hfail', hres', hfte, hnext⟩
      · refine .inl ⟨b', news', hres', loop', ?_, ?_, hnext⟩
        · rw [hnew]
          exact hnews
        · rw [hlen, length_cons]
          change (b.rule.length + 1) + _ = _
          omega
      · refine .inr ⟨b', j + 1, ?_, ?_, hres', ?_, hnext⟩
        · rw [length_cons]
          omega
        · rw [Nat.add_right_comm] at hfail'
          exact hfail'
        · rw [List.take_succ_cons, hnew]
          exact hfte

end Build

/-! ### The entry and the firmware -/

/-- An entry outside of its functions: `uses` are the references of the handles. -/
structure FteOk (fte : Fte) (uses : List ℕ) (next : ℕ) : Prop where
  refs : Refs fte.children uses next
  linked : ∀ r ∈ fte.children, r.parent = true
  refcount : fte.refcount = fte.children.length + 1
  size : fte.destsSize = fte.dests.countP fun d => d.type ≠ .none
  fwd : fte.fwdDests = fte.dests.countP isFwd

/-- Undoing what was added to an entry gives it back: no forwarding rule was made, whose count is not
    taken back, and not the one without destination, that was not counted. -/
def RollsBack (news : List (Option Dest)) : Prop :=
  ∀ d ∈ news, isFwd (d.getD .none) = false ∧ d.isSome = true

/-- The condition on an addition to an entry. -/
structure AddFits (fte : Fte) (e : Env) (req : Request) : Prop where
  /-- where the addition fails, what it made is undone -/
  alloc : ∀ j, e.alloc j = true → RollsBack (newDests fte.dests ((destList req.dests).take j))
  fw : e.fw = true → RollsBack (newDests fte.dests (destList req.dests))
  /-- where all destinations are shared there are no new actions, for nothing is written -/
  shared : newDests fte.dests (destList req.dests) = [] → req.flowAct.action ⊆ fte.action.action
  /-- where forwarding or counting is new, the list is written, or empty -/
  forwards : .fwdDest ∈ req.flowAct.action → .fwdDest ∉ fte.action.action →
    (∃ d ∈ newDests fte.dests (destList req.dests), .destinationList ∈ newMask d) ∨
      fte.dests.filter isListed = []
  counts : .count ∈ req.flowAct.action → .count ∉ fte.action.action →
    (∃ d ∈ newDests fte.dests (destList req.dests), .flowCounters ∈ newMask d) ∨
      fte.dests.filter isCounter = []
  /-- where the actions are not written, the destinations are extended as before -/
  extends_ : fte.action.action = req.flowAct.action → .packetReformat ∈ fte.action.action →
    setExtendedDest fte.action.action
        ((newDests fte.dests (destList req.dests)).map (·.getD .none) ++ fte.dests) =
      setExtendedDest fte.action.action fte.dests

section Entry

variable {fte : Fte} {uses : List ℕ} {news : List (Option Dest)} {b : Build} {next : ℕ} {e : Env}
  {req : Request} {A A' : Finset ActionBit} {D D' : List Dest}

theorem setExtendedDest_perm (h : D.Perm D') : setExtendedDest A D = setExtendedDest A D' := by
  unfold setExtendedDest
  rw [(h.filter isListed).length_eq, ((h.filter isListed).filter isEncap).length_eq]

/-- A mask that has all fields that differ makes the firmware agree. -/
theorem update_agrees {old new : FwEntry} {mask : Finset MaskBit}
    (haction : .action ∉ mask → new.action = old.action)
    (hdest : .destinationList ∉ mask → new.destination = old.destination)
    (hcounter : .flowCounters ∉ mask → new.flowCounter = old.flowCounter) :
    old.update mask new = new := by
  unfold FwEntry.update
  cases new
  congr 1
  · exact ite_eq_left_iff.mpr fun h => (haction h).symm
  · exact ite_eq_left_iff.mpr fun h => (hdest h).symm
  · exact ite_eq_left_iff.mpr fun h => (hcounter h).symm

theorem newMask_listed {d : Option Dest} (h : .destinationList ∉ newMask d) :
    isListed (d.getD .none) = false := by
  cases d with
  | none => rfl
  | some d =>
    unfold newMask at h
    dsimp only at h
    split_ifs at h with hd
    · simp [isListed, hd]
    · simp at h

theorem newMask_counter {d : Option Dest} (h : .flowCounters ∉ newMask d) :
    isCounter (d.getD .none) = false := by
  cases d with
  | none => rfl
  | some d =>
    unfold newMask at h
    dsimp only at h
    split_ifs at h with hd
    · simp at h
    · simp [isCounter, hd]

/-- The last loop links all rules that are new. -/
theorem linkRules_spec : ∀ (ids : List ℕ) (fte : Fte), (fte.children.map Rule.id).Nodup →
    (∀ r ∈ fte.children, r.parent = false → r.id ∈ ids) → linkRules ids fte = { fte with
        children := fte.children.map fun r => { r with parent := true }
        refcount := fte.refcount + fte.children.countP fun r => !r.parent }
  | [], fte, _, h => by
    have hall : ∀ r ∈ fte.children, r.parent = true := fun r hr => by
      by_contra hpar
      exact absurd (h r hr (by simpa using hpar)) (by simp)
    have hmap : (fte.children.map fun r => ({ r with parent := true } : Rule)) = fte.children := by
      refine (map_congr_left fun r hr => ?_).trans (map_id _)
      rw [← hall r hr]
      rfl
    have hcount : (fte.children.countP fun r => !r.parent) = 0 :=
      countP_eq_zero.mpr fun r hr => by simp [hall r hr]
    rw [hmap, hcount]
    rfl
  | id :: ids, fte, hnd, h => by
    unfold linkRules
    rcases hfind : ruleAt id fte.children with _ | r
    · refine linkRules_spec ids fte hnd fun r hr hpar => ?_
      rcases mem_cons.mp (h r hr hpar) with hid | hid
      · have hnone := List.find?_eq_none.mp hfind r hr
        simp [hid] at hnone
      · exact hid
    · obtain ⟨l₁, l₂, hl, hid, hne⟩ := ruleAt_split hnd hfind
      dsimp only
      by_cases hpar : r.parent = true
      · rw [if_pos hpar]
        refine linkRules_spec ids fte hnd fun x hx hxpar => ?_
        rcases mem_cons.mp (h x hx hxpar) with hxid | hxid
        · have hxr : x = r := List.inj_on_of_nodup_map hnd hx (by simp [hl]) (hxid.trans hid.symm)
          rw [hxr, hpar] at hxpar
          cases hxpar
        · exact hxid
      · rw [if_neg hpar]
        have hset : (fte.children.map fun r => if r.id = id then { r with parent := true } else r) =
            l₁ ++ { r with parent := true } :: l₂ := by
          have hsame : ∀ l : List Rule, (∀ x ∈ l, x.id ≠ id) →
              (l.map fun r => if r.id = id then { r with parent := true } else r) = l := by
            intro l hl
            refine (map_congr_left fun x hx => ?_).trans (map_id l)
            rw [if_neg (hl x hx)]
            rfl
          rw [hl, map_append, map_cons, if_pos hid,
            hsame l₁ fun x hx => hne x (mem_append_left _ hx),
            hsame l₂ fun x hx => hne x (List.mem_append_right _ hx)]
        rw [hset, linkRules_spec ids]
        · dsimp only
          rw [hl]
          simp only [map_append]
          congr 1
          simp [hpar]
          omega
        · rw [hl] at hnd
          simpa using hnd
        · intro x hx hxpar
          simp only [mem_append, mem_cons] at hx
          rcases hx with hx | rfl | hx
          · rcases mem_cons.mp (h x (by simp [hl, hx]) hxpar) with hxid | hxid
            · exact absurd hxid (hne x (by simp [hx]))
            · exact hxid
          · cases hxpar
          · rcases mem_cons.mp (h x (by simp [hl, hx]) hxpar) with hxid | hxid
            · exact absurd hxid (hne x (by simp [hx]))
            · exact hxid

/-- What a handle leaves of the entry when its rules are linked. -/
theorem Loop.linked (loop : Loop fte uses news b) (ok : FteOk fte uses next)
    (htypes : ∀ d ∈ news, ∀ d', d = some d' → d'.type ≠ .none) :
    FteOk (linkRules b.rule.reverse b.fte) (b.rule.reverse ++ uses) b.next ∧
      (linkRules b.rule.reverse b.fte).dests = b.fte.dests := by
  have hspec := linkRules_spec b.rule.reverse b.fte loop.refs.nodup fun r hr hpar =>
    mem_reverse.mpr (loop.parent r hr hpar)
  have hdests : (linkRules b.rule.reverse b.fte).dests = b.fte.dests := by
    rw [hspec]
    unfold Fte.dests
    rw [map_map]
    rfl
  have hcount : ∀ id, (b.rule.reverse ++ uses).count id = (b.rule ++ uses).count id :=
    fun id => ((List.reverse_perm b.rule).append_right uses).count_eq id
  have hchildren : (linkRules b.rule.reverse b.fte).children =
      b.fte.children.map fun r => { r with parent := true } := by rw [hspec]
  refine ⟨⟨⟨?_, fun r hr => ?_, fun id hid => ?_, fun r hr => ?_⟩, fun r hr => ?_, ?_, ?_, ?_⟩, hdests⟩
  · rw [hchildren, map_map]
    exact loop.refs.nodup
  · rw [hchildren] at hr
    obtain ⟨x, hx, rfl⟩ := mem_map.mp hr
    rw [hcount]
    exact loop.refs.count x hx
  · have hid' : id ∈ b.rule ++ uses := by
      simpa using hid
    obtain ⟨x, hx, hxid⟩ := loop.refs.named id hid'
    rw [hchildren]
    exact ⟨_, List.mem_map_of_mem hx, hxid⟩
  · rw [hchildren] at hr
    obtain ⟨x, hx, rfl⟩ := mem_map.mp hr
    exact loop.refs.fresh x hx
  · rw [hchildren] at hr
    obtain ⟨x, hx, rfl⟩ := mem_map.mp hr
    rfl
  · have hlen : b.fte.children.length = news.length + fte.children.length := by
      have hperm := loop.dests.length_eq
      unfold Fte.dests at hperm
      simpa using hperm
    have hsame : b.fte.refcount = fte.refcount := by rw [loop.same]
    rw [hspec]
    dsimp only
    rw [List.length_map, loop.fresh, hsame, ok.refcount, hlen]
    omega
  · rw [hdests, loop.dests.countP_eq, countP_append, List.countP_map, hspec]
    rw [loop.same]
    dsimp only
    rw [ok.size]
    have hnone : news.countP (·.isSome) =
        news.countP ((fun d : Dest => decide (d.type ≠ .none)) ∘ fun d => d.getD .none) := by
      refine List.countP_congr fun d hd => ?_
      cases d with
      | none => simp [Dest.type]
      | some d => simpa using htypes _ hd d rfl
    omega
  · rw [hdests, loop.dests.countP_eq, countP_append, List.countP_map, hspec]
    rw [loop.same]
    dsimp only
    rw [ok.fwd]
    have hcomp : news.countP (isFwd ∘ fun d => d.getD .none) =
        news.countP fun d => isFwd (d.getD .none) := rfl
    omega

/-- `create_flow_handle` makes a rule for each new destination, or leaves the entry as it was. -/
theorem createFlowHandle_spec (refs : Refs fte.children uses next)
    (hlinked : ∀ r ∈ fte.children, r.parent = true) (e : Env) (dests : Option (List Dest)) :
    ∃ b, next ≤ b.next ∧ ((createFlowHandle e fte dests next = (b, true) ∧
          b.rule.length = (destList dests).length ∧
          ∃ news, Loop fte uses news b ∧ news.Perm (newDests fte.dests (destList dests))) ∨
        (createFlowHandle e fte dests next = (b, false) ∧
          ((∀ j, e.alloc j = true → RollsBack (newDests fte.dests ((destList dests).take j))) →
            b.fte = fte))) := by
  unfold createFlowHandle
  split_ifs with hhandle
  · exact ⟨_, le_rfl, .inr ⟨rfl, fun _ => rfl⟩⟩
  have loop : Loop fte uses [] ⟨fte, [], ∅, false, next⟩ :=
    Loop.start (b := ⟨fte, [], ∅, false, next⟩) refs hlinked
  rcases @createRules_spec _ _ e.alloc (destList dests) 0 [] _ loop with
    ⟨b, news, hres, loop', hnews, hlen, hnext⟩ | ⟨b, j, -, hfail, hres, hfte, hnext⟩
  · rw [append_nil] at loop'
    exact ⟨b, hnext, .inl ⟨hres, by simpa using hlen, news, loop', hnews⟩⟩
  · refine ⟨b, hnext, .inr ⟨hres, fun hrolls => ?_⟩⟩
    rw [Nat.zero_add] at hfail
    have hback := hrolls j hfail
    have hnone : (newDests fte.dests ((destList dests).take j)).countP (·.isNone) = 0 :=
      countP_eq_zero.mpr fun d hd => by simp [Option.isSome_iff_ne_none.mp (hback d hd).2]
    have hfwd : ((newDests fte.dests ((destList dests).take j)).countP
        fun d => isFwd (d.getD .none)) = 0 :=
      countP_eq_zero.mpr fun d hd => by simp [(hback d hd).1]
    rw [hfte, List.nil_append, hnone, hfwd]
    simp

/-- The firmware agrees after an update with the mask of an addition. -/
theorem Loop.agrees (loop : Loop (fte.setAction (fte.action.action ∪ req.flowAct.action)) uses news b)
    (hnews : news.Perm (newDests fte.dests (destList req.dests))) (fits : AddFits fte e req) :
    fte.context.update
        (if decide (fte.action.action ≠ req.flowAct.action) then b.modifyMask ∪ {.action}
          else b.modifyMask) b.fte.context = b.fte.context := by
  have haction : b.fte.action.action = fte.action.action ∪ req.flowAct.action := by
    rw [loop.same]
    rfl
  have hmaskiff : ∀ bit, bit ≠ MaskBit.action → (bit ∉ (if decide (fte.action.action ≠
      req.flowAct.action) then b.modifyMask ∪ {.action} else b.modifyMask) ↔
        ∀ d ∈ newDests fte.dests (destList req.dests), bit ∉ newMask d) := by
    intro bit hbit
    have hmask := loop.mask bit
    have hin : (∃ d ∈ news, bit ∈ newMask d) ↔
        ∃ d ∈ newDests fte.dests (destList req.dests), bit ∈ newMask d := by
      simp only [hnews.mem_iff]
    rw [hin] at hmask
    split_ifs
    · rw [Finset.mem_union, Finset.mem_singleton, hmask]
      simp [hbit]
    · rw [hmask]
      simp
  have hlisted : (∀ d ∈ newDests fte.dests (destList req.dests),
      .destinationList ∉ newMask d) → b.fte.dests.filter isListed = fte.dests.filter isListed :=
    fun h => loop.kept isListed fun d hd => newMask_listed (h d (hnews.mem_iff.mp hd))
  have hcounters : (∀ d ∈ newDests fte.dests (destList req.dests), .flowCounters ∉ newMask d) →
      b.fte.dests.filter isCounter = fte.dests.filter isCounter :=
    fun h => loop.kept isCounter fun d hd => newMask_counter (h d (hnews.mem_iff.mp hd))
  refine update_agrees (fun h => ?_) (fun h => ?_) fun h => ?_
  · -- the actions are not written when they are those of the addition
    have heq : fte.action.action = req.flowAct.action := by
      by_contra hne
      simp [hne] at h
    change (if setExtendedDest b.fte.action.action b.fte.dests then _ else _) =
      if setExtendedDest fte.action.action fte.dests then _ else _
    rw [haction, ← heq, Finset.union_self]
    by_cases hre : .packetReformat ∈ fte.action.action
    · have hext := fits.extends_ heq hre
      have hperm : b.fte.dests.Perm
          ((newDests fte.dests (destList req.dests)).map (·.getD .none) ++ fte.dests) :=
        loop.dests.trans ((hnews.map _).append_right _)
      rw [setExtendedDest_perm hperm, hext]
    · rw [Finset.erase_eq_of_notMem hre, ite_self, ite_self]
  · have hnone := (hmaskiff _ (by simp)).mp h
    have hfilter := hlisted hnone
    change (setExtendedDest b.fte.action.action b.fte.dests, if _ then b.fte.dests.filter isListed
        else []) = (setExtendedDest fte.action.action fte.dests, if _ then
          fte.dests.filter isListed else [])
    unfold setExtendedDest
    rw [hfilter, haction]
    by_cases hA : .fwdDest ∈ fte.action.action
    · simp [hA]
    · by_cases hB : .fwdDest ∈ req.flowAct.action
      · rcases fits.forwards hB hA with ⟨d, hd, hin⟩ | hempty
        · exact absurd hin (hnone d hd)
        · rw [hempty]
          simp
      · simp [hB]
  · have hnone := (hmaskiff _ (by simp)).mp h
    have hfilter := hcounters hnone
    change (if _ then b.fte.dests.filter isCounter else []) =
      if _ then fte.dests.filter isCounter else []
    rw [hfilter, haction]
    by_cases hA : .count ∈ fte.action.action
    · simp [hA]
    · by_cases hB : .count ∈ req.flowAct.action
      · rcases fits.counts hB hA with ⟨d, hd, hin⟩ | hempty
        · exact absurd hin (hnone d hd)
        · rw [hempty]
          simp
      · simp [hB]

end Entry

/-! ### Taking rules out -/

/-- The destinations of the rules that some handles have, and of those that they do not. -/
def Fte.left (fte : Fte) (uses : List ℕ) : List Dest :=
  (fte.children.filter fun r => r.id ∈ uses).map Rule.destAttr

def Fte.gone (fte : Fte) (uses : List ℕ) : List Dest :=
  (fte.children.filter fun r => r.id ∉ uses).map Rule.destAttr

def isPort (dest : Dest) : Bool := dest.type = .port

/-- The mask that a rule of a destination leaves when it goes. -/
def delMask (dest : Dest) : Finset MaskBit :=
  if isCounter dest then {.action, .flowCounters} else if isPort dest then {.action}
  else if isFwd dest then {.destinationList} else ∅

/-- The action bits that are gone with the destinations `gone` when `left` are left. -/
def lostBits (gone left : List Dest) : Finset ActionBit :=
  (if gone.any isCounter then {.count} else ∅) ∪ (if gone.any isPort then {.allow} else ∅) ∪
    (if gone.any isFwd && !left.any isFwd then {.fwdDest} else ∅)

/-- An entry from which the rules were taken that are not in `uses`. -/
structure Removed (fte₀ : Fte) (uses : List ℕ) (next : ℕ) (fte : Fte) : Prop where
  ok : FteOk fte uses next
  keys : fte.children.map (fun r => (r.id, r.destAttr)) =
    (fte₀.children.filter fun r => r.id ∈ uses).map fun r => (r.id, r.destAttr)
  action : fte.action.action = fte₀.action.action \ lostBits (fte₀.gone uses) (fte₀.left uses)
  mask : ∀ d ∈ fte₀.gone uses, delMask d ⊆ fte.modifyMask
  existing : fte.existing = fte₀.existing
  active : fte.active = fte₀.active

section Remove

variable {fte₀ fte : Fte} {uses : List ℕ} {next id : ℕ} {r : Rule} {d : Dest}

theorem mem_gone : d ∈ fte.gone uses ↔ ∃ r ∈ fte.children, r.id ∉ uses ∧ r.destAttr = d := by
  simp [Fte.gone, and_assoc]

theorem Removed.dests (h : Removed fte₀ uses next fte) : fte.dests = fte₀.left uses := by
  have hkeys := congrArg (List.map Prod.snd) h.keys
  rw [map_map, map_map] at hkeys
  exact hkeys

/-- The rules with their references, when all are used. -/
theorem FteOk.removed (ok : FteOk fte uses next) : Removed fte uses next fte := by
  have hall : ∀ r ∈ fte.children, r.id ∈ uses := fun r hr => by
    obtain ⟨hcount, hpos⟩ := ok.refs.count r hr
    exact count_pos_iff.mp (by omega)
  have hgone : fte.gone uses = [] := by
    unfold Fte.gone
    rw [List.filter_eq_nil_iff.mpr fun r hr => by simp [hall r hr]]
    rfl
  refine ⟨ok, ?_, ?_, fun d hd => ?_, rfl, rfl⟩
  · rw [List.filter_eq_self.mpr fun r hr => by simpa using hall r hr]
  · rw [hgone]
    simp [lostBits]
  · rw [hgone] at hd
    cases hd

/-- STEP: a reference of a rule is put that is not the last one. -/
theorem Removed.put (h : Removed fte₀ (id :: uses) next fte) (hr : ruleAt id fte.children = some r)
    (hlt : 1 < r.refcount) :
    Removed fte₀ uses next { fte with children := setRef id (r.refcount - 1) fte.children } := by
  obtain ⟨l₁, l₂, hl, rfl, hne⟩ := ruleAt_split h.ok.refs.nodup hr
  have hset : setRef r.id (r.refcount - 1) fte.children =
      l₁ ++ { r with refcount := r.refcount - 1 } :: l₂ := by
    rw [hl]
    exact setRef_middle rfl hne
  have hcount := (h.ok.refs.count r (by simp [hl])).1
  rw [count_cons_self] at hcount
  have hin : r.id ∈ uses := count_pos_iff.mp (by omega)
  have hmem : ∀ id', id' ∈ r.id :: uses ↔ id' ∈ uses := fun id' => by
    rw [mem_cons]
    refine or_iff_right_of_imp ?_
    rintro rfl
    exact hin
  have hleft : fte₀.left (r.id :: uses) = fte₀.left uses := by
    unfold Fte.left
    simp only [hmem]
  have hgone : fte₀.gone (r.id :: uses) = fte₀.gone uses := by
    unfold Fte.gone
    simp only [hmem]
  have hrefs := h.ok.refs
  rw [hl] at hrefs
  have hdests : ({ fte with children := setRef r.id (r.refcount - 1) fte.children } : Fte).dests =
      fte.dests := by
    unfold Fte.dests
    rw [hset, hl]
    simp
  refine ⟨⟨?_, fun x hx => ?_, ?_, ?_, ?_⟩, ?_, ?_, ?_, h.existing, h.active⟩
  · dsimp only
    rw [hset]
    exact hrefs.set (by omega) (by omega) fun id' hid' => (count_cons_of_ne hid'.symm).symm
  · dsimp only at hx
    rw [hset] at hx
    simp only [mem_append, mem_cons] at hx
    rcases hx with hx | rfl | hx
    · exact h.ok.linked x (by simp [hl, hx])
    · exact h.ok.linked r (by simp [hl])
    · exact h.ok.linked x (by simp [hl, hx])
  · dsimp only
    rw [h.ok.refcount, hset, hl]
    simp
  · rw [hdests]
    exact h.ok.size
  · rw [hdests]
    exact h.ok.fwd
  · have hkeys := h.keys
    simp only [hmem] at hkeys
    rw [hset, ← hkeys, hl]
    simp
  · dsimp only
    rw [h.action, hleft, hgone]
  · rw [← hgone]
    exact h.mask

/-- What `del_sw_hw_rule` does to an entry. -/
theorem delSwHwRule_spec (fte : Fte) (d : Dest) :
    (delSwHwRule fte d).children = fte.children ∧ (delSwHwRule fte d).refcount = fte.refcount ∧
      (delSwHwRule fte d).existing = fte.existing ∧ (delSwHwRule fte d).active = fte.active ∧
      (delSwHwRule fte d).destsSize = fte.destsSize - (if d.type ≠ .none then 1 else 0) ∧
      (delSwHwRule fte d).fwdDests = fte.fwdDests - (if isFwd d then 1 else 0) ∧
      (delSwHwRule fte d).modifyMask = fte.modifyMask ∪ delMask d ∧
      (delSwHwRule fte d).action.action = fte.action.action \
        ((if isCounter d then {.count} else ∅) ∪ (if isPort d then {.allow} else ∅) ∪
          if isFwd d ∧ fte.fwdDests - 1 = 0 then {.fwdDest} else ∅) := by
  have hfwd : isFwdDestType d.type = isFwd d := rfl
  unfold delSwHwRule delMask
  rw [hfwd]
  by_cases hc : d.type = .counter
  · have hc' : isCounter d = true := by simp [isCounter, hc]
    have hp : isPort d = false := by simp [isPort, hc]
    have hf : isFwd d = false := by simp [isFwd, hc, isFwdDestType]
    simp [hc, hc', hp, hf, Fte.setAction]
    ext x
    simp [and_comm]
  by_cases hp : d.type = .port
  · have hc' : isCounter d = false := by simp [isCounter, hp]
    have hp' : isPort d = true := by simp [isPort, hp]
    have hf : isFwd d = false := by simp [isFwd, hp, isFwdDestType]
    simp [hp, hc', hp', hf, Fte.setAction]
    ext x
    simp [and_comm]
  have hc' : isCounter d = false := by simp [isCounter, hc]
  have hp' : isPort d = false := by simp [isPort, hp]
  rw [if_neg hc, if_neg hp]
  by_cases hf : isFwd d = true
  · have hn : d.type ≠ .none := by
      intro hn
      simp [isFwd, hn, isFwdDestType] at hf
    by_cases hz : fte.fwdDests - 1 = 0
    · simp [hn, hc', hp', hf, hz, Fte.setAction]
      ext x
      simp [and_comm]
    · simp [hn, hc', hp', hf, hz]
  · have hf' : isFwd d = false := by simpa using hf
    have hn : d.type = .none := by
      cases d <;> simp [isFwd, isFwdDestType, Dest.type] at hf' hc hp ⊢
    simp [hn, hc', hp', hf']

theorem mem_lostBits {gone left : List Dest} {x : ActionBit} : x ∈ lostBits gone left ↔
    (x = .count ∧ gone.any isCounter = true) ∨ (x = .allow ∧ gone.any isPort = true) ∨
      (x = .fwdDest ∧ gone.any isFwd = true ∧ left.any isFwd = false) := by
  unfold lostBits
  generalize gone.any isCounter = c
  generalize gone.any isPort = p
  generalize gone.any isFwd = f
  generalize left.any isFwd = v
  cases c <;> cases p <;> cases f <;> cases v <;> simp

/-- One more destination is gone. -/
theorem lostBits_step {gone gone' left left' : List Dest} {d : Dest}
    (hany : ∀ f : Dest → Bool, gone'.any f = (f d || gone.any f))
    (hleft : left.any isFwd = (isFwd d || left'.any isFwd)) :
    lostBits gone left ∪ ((if isCounter d then {.count} else ∅) ∪
      (if isPort d then {.allow} else ∅) ∪
        if isFwd d = true ∧ left'.any isFwd = false then {.fwdDest} else ∅) =
      lostBits gone' left' := by
  ext x
  rw [Finset.mem_union, mem_lostBits, mem_lostBits, hany, hany, hany, hleft]
  cases hc : isCounter d <;> cases hp : isPort d <;> cases hf : isFwd d <;> simp
  all_goals grind

/-- STEP: the last reference of a rule is put, and the rule goes. -/
theorem Removed.drop (h : Removed fte₀ (id :: uses) next fte) (hr : ruleAt id fte.children = some r)
    (hlast : ¬ 1 < r.refcount) :
    Removed fte₀ uses next
      { delSwHwRule { fte with children := listDel id fte.children } r.destAttr with
        refcount := fte.refcount - 1 } := by
  obtain ⟨l₁, l₂, hl, rfl, hne⟩ := ruleAt_split h.ok.refs.nodup hr
  have hdel : listDel r.id fte.children = l₁ ++ l₂ := by
    rw [hl]
    exact listDel_middle rfl hne
  obtain ⟨hcount, hpos⟩ := h.ok.refs.count r (by simp [hl])
  rw [count_cons_self] at hcount
  have hzero : uses.count r.id = 0 := by omega
  have hnot : r.id ∉ uses := List.count_eq_zero.mp hzero
  have hrefs := h.ok.refs
  rw [hl] at hrefs
  -- the rules that are left
  have hkeys : (l₁ ++ l₂).map (fun r => (r.id, r.destAttr)) =
      (fte₀.children.filter fun r => r.id ∈ uses).map fun r => (r.id, r.destAttr) := by
    have hk := congrArg (List.filter fun k : ℕ × Dest => k.1 ≠ r.id) h.keys
    rw [filter_map, filter_map, List.filter_filter] at hk
    have h₁ : fte.children.filter ((fun k : ℕ × Dest => decide (k.1 ≠ r.id)) ∘
        fun r => (r.id, r.destAttr)) = l₁ ++ l₂ := hdel
    have h₂ : (fte₀.children.filter fun x => ((fun k : ℕ × Dest => decide (k.1 ≠ r.id)) ∘
        fun r => (r.id, r.destAttr)) x && decide (x.id ∈ r.id :: uses)) =
          fte₀.children.filter fun x => x.id ∈ uses := by
      refine List.filter_congr fun x _ => ?_
      by_cases hx : x.id = r.id
      · simp [hx, hnot]
      · simp [hx]
    rw [h₁, h₂] at hk
    exact hk
  have hleft' : fte₀.left uses = l₁.map Rule.destAttr ++ l₂.map Rule.destAttr := by
    have hk := congrArg (List.map Prod.snd) hkeys
    rw [map_map, map_map] at hk
    rw [← map_append]
    exact hk.symm
  have hleft : fte₀.left (r.id :: uses) = l₁.map Rule.destAttr ++ r.destAttr :: l₂.map Rule.destAttr := by
    rw [← h.dests]
    unfold Fte.dests
    rw [hl, map_append, map_cons]
  have hgone : ∀ d, d ∈ fte₀.gone uses ↔ d = r.destAttr ∨ d ∈ fte₀.gone (r.id :: uses) := by
    intro d
    rw [mem_gone, mem_gone]
    have hin : ∃ x ∈ fte₀.children, x.id = r.id ∧ x.destAttr = r.destAttr := by
      have hmem : (r.id, r.destAttr) ∈ fte.children.map fun r => (r.id, r.destAttr) :=
        mem_map.mpr ⟨r, by simp [hl], rfl⟩
      rw [h.keys] at hmem
      obtain ⟨x, hx, hkey⟩ := mem_map.mp hmem
      have hkey' := Prod.mk.inj hkey
      exact ⟨x, List.mem_of_mem_filter hx, hkey'⟩
    constructor
    · rintro ⟨x, hx, hxid, rfl⟩
      by_cases heq : x.id = r.id
      · left
        have hmem : (x.id, x.destAttr) ∈
            (fte₀.children.filter fun y => y.id ∈ r.id :: uses).map fun y => (y.id, y.destAttr) :=
          mem_map.mpr ⟨x, by simp [hx, heq], rfl⟩
        rw [← h.keys] at hmem
        obtain ⟨y, hy, hkey⟩ := mem_map.mp hmem
        obtain ⟨hk₁, hk₂⟩ := Prod.mk.inj hkey
        rw [← hk₂, List.inj_on_of_nodup_map h.ok.refs.nodup hy (by simp [hl]) (hk₁.trans heq)]
      · exact .inr ⟨x, hx, by simp [heq, hxid], rfl⟩
    · rintro (rfl | ⟨x, hx, hxid, rfl⟩)
      · obtain ⟨x, hx, hxid, hxd⟩ := hin
        exact ⟨x, hx, hxid ▸ hnot, hxd⟩
      · exact ⟨x, hx, fun hin => hxid (mem_cons_of_mem _ hin), rfl⟩
  have hany : ∀ f : Dest → Bool, (fte₀.gone uses).any f =
      (f r.destAttr || (fte₀.gone (r.id :: uses)).any f) := by
    intro f
    rw [Bool.eq_iff_iff, Bool.or_eq_true, any_eq_true, any_eq_true]
    simp only [hgone]
    constructor
    · rintro ⟨d, rfl | hd, hf⟩
      · exact .inl hf
      · exact .inr ⟨d, hd, hf⟩
    · rintro (hf | ⟨d, hd, hf⟩)
      · exact ⟨_, .inl rfl, hf⟩
      · exact ⟨d, .inr hd, hf⟩
  obtain ⟨hchildren, hrefcount, hexisting, hactive, hsize, hfwd, hmask, haction⟩ :=
    delSwHwRule_spec { fte with children := listDel r.id fte.children } r.destAttr
  generalize delSwHwRule { fte with children := listDel r.id fte.children } r.destAttr = fte' at *
  rw [hdel] at hchildren
  have hdests : fte'.dests = fte₀.left uses := by
    unfold Fte.dests
    rw [hchildren, hleft', map_append]
  have hdests₀ := h.dests
  refine ⟨⟨?_, fun x hx => ?_, ?_, ?_, ?_⟩, ?_, ?_, fun d hd => ?_, hexisting.trans h.existing,
    hactive.trans h.active⟩
  · dsimp only
    rw [hchildren]
    exact hrefs.drop hzero fun id' hid' => (count_cons_of_ne hid'.symm).symm
  · dsimp only at hx
    rw [hchildren] at hx
    refine h.ok.linked x ?_
    rw [hl]
    simp only [mem_append] at hx ⊢
    tauto
  · dsimp only
    rw [h.ok.refcount, hchildren, hl]
    simp
    omega
  · change fte'.destsSize = fte'.dests.countP _
    rw [hsize, h.ok.size, hdests, hdests₀, hleft, hleft', perm_middle.countP_eq, countP_cons]
    split_ifs with h₁ h₂ <;> simp_all
  · change fte'.fwdDests = fte'.dests.countP _
    rw [hfwd, h.ok.fwd, hdests, hdests₀, hleft, hleft', perm_middle.countP_eq, countP_cons]
    split_ifs <;> simp
  · dsimp only
    rw [hchildren, hkeys]
  · change fte'.action.action = _
    rw [haction, h.action, sdiff_sdiff_left]
    congr 1
    -- the last forwarding rule goes when none is left
    have hlastfwd : (isFwd r.destAttr = true ∧ fte.fwdDests - 1 = 0) ↔
        (isFwd r.destAttr = true ∧ (fte₀.left uses).any isFwd = false) := by
      refine and_congr_right fun hf => ?_
      rw [h.ok.fwd, hdests₀, hleft, hleft', perm_middle.countP_eq, countP_cons, if_pos hf,
        List.any_eq_false]
      rw [← countP_eq_zero]
      omega
    have hleftany : (fte₀.left (r.id :: uses)).any isFwd =
        (isFwd r.destAttr || (fte₀.left uses).any isFwd) := by
      rw [hleft, hleft', perm_middle.any_eq, List.any_cons]
    simp only [hlastfwd]
    exact lostBits_step hany hleftany
  · change delMask d ⊆ fte'.modifyMask
    rw [hmask]
    rcases (hgone d).mp hd with rfl | hd
    · exact Finset.subset_union_right
    · exact (h.mask d hd).trans Finset.subset_union_left

/-- RUN: the rules of a handle are put, and those go that no other handle has. -/
theorem removeRules_spec : ∀ (ids : List ℕ) (fte : Fte), Removed fte₀ (ids ++ uses) next fte →
    Removed fte₀ uses next (removeRules ids fte)
  | [], fte, h => h
  | id :: ids, fte, h => by
    unfold removeRules
    rcases hfind : ruleAt id fte.children with _ | r
    · obtain ⟨x, hx, hxid⟩ := h.ok.refs.named id (by simp)
      have hnone := List.find?_eq_none.mp hfind x hx
      simp [hxid] at hnone
    · dsimp only
      by_cases hlt : 1 < r.refcount
      · rw [if_pos hlt]
        exact removeRules_spec ids _ (h.put hfind hlt)
      · rw [if_neg hlt]
        have hrefcount : (delSwHwRule { fte with children := listDel id fte.children }
            r.destAttr).refcount = fte.refcount := (delSwHwRule_spec _ r.destAttr).2.1
        rw [hrefcount]
        exact removeRules_spec ids _ (h.drop hfind hlt)

end Remove

/-- The condition on a removal from an entry, `uses` being the references of all other handles, where
    rules are left. -/
structure DelFits (fte : Fte) (uses : List ℕ) (fail : Bool) : Prop where
  /-- the update of the firmware does not fail -/
  fw : fail = false
  /-- where only a rule without destination is left, nothing is written, and nothing was to write -/
  quiet : (∀ d ∈ fte.left uses, d.type = .none) → ∀ d ∈ fte.gone uses,
    (isCounter d = true → .count ∉ fte.action.action) ∧
      (isPort d = true → .allow ∉ fte.action.action ∧ .fwdDest ∉ fte.action.action) ∧
      (isFwd d = true → .fwdDest ∉ fte.action.action)
  /-- where the last forwarding rule goes, a counter or a port makes that the actions are written -/
  lastFwd : .fwdDest ∈ fte.action.action → (∃ d ∈ fte.gone uses, isFwd d = true) →
    (∃ d ∈ fte.left uses, isFwd d = true) ∨
      ∃ d ∈ fte.gone uses, isCounter d = true ∨ isPort d = true
  /-- where a port goes from a forwarding entry, another rule makes that the list is written -/
  port : .fwdDest ∈ fte.action.action → (∃ d ∈ fte.gone uses, isPort d = true) →
    ∃ d ∈ fte.gone uses, isFwd d = true
  /-- where the actions are not written, the destinations are extended as before -/
  extends_ : .packetReformat ∈ fte.action.action →
    setExtendedDest fte.action.action (fte.left uses) =
        setExtendedDest fte.action.action fte.dests ∨
      ∃ d ∈ fte.gone uses, isCounter d = true ∨ isPort d = true

section Left

variable {fte fte' : Fte} {uses : List ℕ} {next : ℕ} {fail : Bool} {f : Dest → Bool}

/-- Where none of a kind goes, those of that kind stay as they are. -/
theorem filter_left (h : ∀ d ∈ fte.gone uses, f d = false) :
    (fte.left uses).filter f = fte.dests.filter f := by
  unfold Fte.left Fte.dests
  rw [filter_map, filter_map, List.filter_filter]
  congr 1
  refine List.filter_congr fun r hr => ?_
  by_cases hin : r.id ∈ uses
  · simp [hin]
  · have hf := h r.destAttr (mem_gone.mpr ⟨r, hr, hin, rfl⟩)
    simp [hf]

theorem isListed_iff {d : Dest} : isListed d = (isPort d || isFwd d) := by
  cases d <;> rfl

theorem mem_delMask {d : Dest} : (.action ∈ delMask d ↔ isCounter d = true ∨ isPort d = true) ∧
    (.destinationList ∈ delMask d ↔ isFwd d = true) ∧
    (.flowCounters ∈ delMask d ↔ isCounter d = true) := by
  cases d <;> simp [delMask, isCounter, isPort, isFwd, isFwdDestType, Dest.type]

section
variable (h : Removed fte uses next fte') (fits : DelFits fte uses fail)
include h fits

/-- The context after a removal is what an update of the mask makes of the one before. -/
theorem Removed.agrees : fte.context.update fte'.modifyMask fte'.context = fte'.context := by
  have hmask : ∀ {bit d}, bit ∉ fte'.modifyMask → d ∈ fte.gone uses → bit ∉ delMask d :=
    fun hbit hd hin => hbit (h.mask _ hd hin)
  have hbit : ∀ x, x ∈ fte'.action.action ↔
      x ∈ fte.action.action ∧ x ∉ lostBits (fte.gone uses) (fte.left uses) := fun x => by
    rw [h.action, Finset.mem_sdiff]
  refine update_agrees (fun hact => ?_) (fun hdst => ?_) fun hcnt => ?_
  · have hnone : ∀ d ∈ fte.gone uses, isCounter d = false ∧ isPort d = false := by
      intro d hd
      have hnot := hmask hact hd
      rw [mem_delMask.1] at hnot
      simpa using hnot
    have hsame : fte'.action.action = fte.action.action := by
      ext x
      rw [hbit, mem_lostBits]
      refine and_iff_left_of_imp fun hx => ?_
      rintro (⟨rfl, hany⟩ | ⟨rfl, hany⟩ | ⟨rfl, hany, hleft⟩)
      · obtain ⟨d, hd, hdc⟩ := any_eq_true.mp hany
        simp [hnone d hd] at hdc
      · obtain ⟨d, hd, hdp⟩ := any_eq_true.mp hany
        simp [hnone d hd] at hdp
      · rcases fits.lastFwd hx (any_eq_true.mp hany) with ⟨d, hd, hdf⟩ | ⟨d, hd, hdc⟩
        · rw [List.any_eq_false] at hleft
          exact hleft d hd hdf
        · simp [hnone d hd] at hdc
    change (if setExtendedDest fte'.action.action fte'.dests then _ else _) =
      if setExtendedDest fte.action.action fte.dests then _ else _
    rw [hsame, h.dests]
    by_cases hre : .packetReformat ∈ fte.action.action
    · rcases fits.extends_ hre with hext | ⟨d, hd, hdc⟩
      · rw [hext]
      · simp [hnone d hd] at hdc
    · rw [Finset.erase_eq_of_notMem hre, ite_self, ite_self]
  · have hnone : ∀ d ∈ fte.gone uses, isFwd d = false := by
      intro d hd
      have hnot := hmask hdst hd
      rw [mem_delMask.2.1] at hnot
      simpa using hnot
    have hfwd : .fwdDest ∈ fte'.action.action ↔ .fwdDest ∈ fte.action.action := by
      rw [hbit, mem_lostBits]
      refine and_iff_left fun hlost => ?_
      have hany : (fte.gone uses).any isFwd = true := by
        rcases hlost with ⟨hx, -⟩ | ⟨hx, -⟩ | ⟨-, hany, -⟩
        · cases hx
        · cases hx
        · exact hany
      obtain ⟨d, hd, hdf⟩ := any_eq_true.mp hany
      rw [hnone d hd] at hdf
      cases hdf
    change (setExtendedDest fte'.action.action fte'.dests, if _ then fte'.dests.filter isListed
        else []) = (setExtendedDest fte.action.action fte.dests, if _ then
          fte.dests.filter isListed else [])
    unfold setExtendedDest
    simp only [hfwd, h.dests]
    by_cases hA : .fwdDest ∈ fte.action.action
    · have hlisted : (fte.left uses).filter isListed = fte.dests.filter isListed := by
        refine filter_left fun d hd => ?_
        rw [isListed_iff, hnone d hd, Bool.or_false]
        by_contra hp
        obtain ⟨d', hd', hf'⟩ := fits.port hA ⟨d, hd, by simpa using hp⟩
        rw [hnone d' hd'] at hf'
        cases hf'
      rw [hlisted]
    · simp [hA]
  · have hnone : ∀ d ∈ fte.gone uses, isCounter d = false := by
      intro d hd
      have hnot := hmask hcnt hd
      rw [mem_delMask.2.2] at hnot
      simpa using hnot
    have hcount : .count ∈ fte'.action.action ↔ .count ∈ fte.action.action := by
      rw [hbit, mem_lostBits]
      refine and_iff_left fun hlost => ?_
      have hany : (fte.gone uses).any isCounter = true := by simpa using hlost
      obtain ⟨d, hd, hdc⟩ := any_eq_true.mp hany
      rw [hnone d hd] at hdc
      cases hdc
    change (if _ then fte'.dests.filter isCounter else []) =
      if _ then fte.dests.filter isCounter else []
    simp only [hcount, h.dests, filter_left hnone]

/-- Where only a rule without destination is left, the context is the one before. -/
theorem Removed.quiet
    (hnone : ∀ d ∈ fte.left uses, d.type = .none) : fte'.context = fte.context := by
  have hquiet := fits.quiet hnone
  have hsame : fte'.action.action = fte.action.action := by
    ext x
    rw [h.action, Finset.mem_sdiff, mem_lostBits]
    refine and_iff_left_of_imp fun hx => ?_
    rintro (⟨rfl, hany⟩ | ⟨rfl, hany⟩ | ⟨rfl, hany, -⟩)
    · obtain ⟨d, hd, hdc⟩ := any_eq_true.mp hany
      exact (hquiet d hd).1 hdc hx
    · obtain ⟨d, hd, hdp⟩ := any_eq_true.mp hany
      exact ((hquiet d hd).2.1 hdp).1 hx
    · obtain ⟨d, hd, hdf⟩ := any_eq_true.mp hany
      exact (hquiet d hd).2.2 hdf hx
  have hlisted : .fwdDest ∈ fte.action.action →
      (fte.left uses).filter isListed = fte.dests.filter isListed := fun hA =>
    filter_left fun d hd => by
      rw [isListed_iff, Bool.or_eq_false_iff]
      exact ⟨by simpa using fun hp => ((hquiet d hd).2.1 hp).2 hA,
        by simpa using fun hf => (hquiet d hd).2.2 hf hA⟩
  have hcounters : .count ∈ fte.action.action →
      (fte.left uses).filter isCounter = fte.dests.filter isCounter := fun hA =>
    filter_left fun d hd => by simpa using fun hc => (hquiet d hd).1 hc hA
  have hext : setExtendedDest fte.action.action (fte.left uses) =
      setExtendedDest fte.action.action fte.dests := by
    unfold setExtendedDest
    by_cases hA : .fwdDest ∈ fte.action.action
    · rw [hlisted hA]
    · simp [hA]
  change FwEntry.mk (if setExtendedDest fte'.action.action fte'.dests then _ else _)
      (setExtendedDest fte'.action.action fte'.dests, if _ then fte'.dests.filter isListed else [])
      (if _ then fte'.dests.filter isCounter else []) =
    FwEntry.mk (if setExtendedDest fte.action.action fte.dests then _ else _)
      (setExtendedDest fte.action.action fte.dests, if _ then fte.dests.filter isListed else [])
      (if _ then fte.dests.filter isCounter else [])
  rw [hsame, h.dests, hext]
  congr 1
  · by_cases hA : .fwdDest ∈ fte.action.action
    · rw [hlisted hA]
    · simp [hA]
  · by_cases hA : .count ∈ fte.action.action
    · rw [hcounters hA]
    · simp [hA]

end

end Left

/-! ### Runs -/

/-- The calls, with what fails in them. An addition comes with what `find_next_fwd_ft` finds. -/
inductive Call where
  | add (req : Request) (supported : Bool) (nextFt : Option FlowTable) (e : Env)
  | del (handle : List ℕ) (fail : Bool)

def World.start : World := ⟨none, none, 0, []⟩

/-- A call, for an entry of the table `ft`. -/
def World.step (ft : FlowTable) (w : World) : Call → World
  | .add req supported nextFt e =>
    match req.forward supported nextFt with
    | none => w
    | some req => (w.add ft e req).1
  | .del handle fail => w.del fail handle

/-- A handle is deleted that was returned, and once. -/
def Matching (w : World) : Call → Prop
  | .add .. => True
  | .del handle _ => handle ∈ w.handles

instance (w : World) : ∀ k, Decidable (Matching w k)
  | .add .. => instDecidableTrue
  | .del .. => inferInstanceAs (Decidable (_ ∈ _))

/-- The condition on a call: no destination is of the type that means none, and what is done to an
    entry that is there fits it. -/
def Fits (ft : FlowTable) (w : World) : Call → Prop
  | .add req supported nextFt e => ∀ req', req.forward supported nextFt = some req' →
      req'.valid ft = true → e.early = false →
        (∀ dests, req'.dests = some dests → ∀ d ∈ dests, d.type ≠ .none) ∧ ∀ fte, w.fte = some fte →
            checkConflictingFtes fte req'.flowContext req'.flowAct = false →
              e.handle = false → AddFits fte e req'
  | .del handle fail => ∀ fte, w.fte = some fte →
      fte.left (w.handles.erase handle).flatten ≠ [] →
        DelFits fte (w.handles.erase handle).flatten fail

/-- The entry and the firmware between two calls. -/
structure Agree (w : World) : Prop where
  empty : w.fte = none → w.handles = []
  entry : ∀ fte, w.fte = some fte → FteOk fte w.handles.flatten w.next ∧ fte.existing = true ∧
    fte.active = true ∧ w.fw = some fte.context
  handles : ∀ h ∈ w.handles, h ≠ []

section Runs

variable {ft : FlowTable} {w : World} {k : Call} {fte : Fte} {uses : List ℕ} {next : ℕ} {e : Env}
  {req : Request} {news : List (Option Dest)} {b : Build}

theorem Fte.flags (fte : Fte) (hexisting : fte.existing = true) (hactive : fte.active = true) :
    fte = { fte with active := true, existing := true } := by
  cases fte
  subst hexisting hactive
  rfl

theorem FteOk.setAction (ok : FteOk fte uses next) (action : Finset ActionBit) :
    FteOk (fte.setAction action) uses next :=
  { ok with }

theorem allocFte_ok (flowContext : FlowContext) (flowAct : FlowAct) (next : ℕ) :
    FteOk (allocFte flowContext flowAct) [] next := by
  refine ⟨⟨List.nodup_nil, ?_, ?_, ?_⟩, ?_, rfl, rfl, rfl⟩
  all_goals
    intro x hx
    cases hx

/-- New rules have the types of their destinations. -/
theorem newDests_mem : ∀ {ds : List (Option Dest)} {known : List Dest} {d : Option Dest},
    d ∈ newDests known ds → d ∈ ds
  | [], _, _, h => h
  | d' :: ds, known, d, h => by
    unfold newDests at h
    split_ifs at h
    · exact mem_cons_of_mem _ (newDests_mem h)
    · rcases mem_cons.mp h with rfl | h
      · exact mem_cons_self
      · exact mem_cons_of_mem _ (newDests_mem h)

/-- A request that is admitted has something to make a rule for. -/
theorem destList_ne_nil (hvalid : req.valid ft = true) : destList req.dests ≠ [] := by
  unfold Request.valid at hvalid
  unfold destList
  rcases hdests : req.dests with _ | dests
  · simp
  · rw [hdests] at hvalid
    rcases dests with _ | ⟨d, dests⟩
    · simp at hvalid
    · simp

theorem news_types (hnews : news.Perm (newDests fte.dests (destList req.dests)))
    (htypes : ∀ dests, req.dests = some dests → ∀ d ∈ dests, d.type ≠ .none) :
    ∀ d ∈ news, ∀ d', d = some d' → d'.type ≠ .none := by
  rintro d hd d' rfl
  have hin := newDests_mem (hnews.mem_iff.mp hd)
  unfold destList at hin
  rcases hdests : req.dests with _ | dests
  · rw [hdests] at hin
    simp at hin
  · rw [hdests] at hin
    obtain ⟨x, hx, heq⟩ := mem_map.mp hin
    cases heq
    exact htypes dests hdests d' hx

/-- What `create_flow_handle` and the linking of its rules make of an entry. -/
theorem Loop.finish (loop : Loop fte uses news b) (ok : FteOk fte uses next)
    (htypes : ∀ d ∈ news, ∀ d', d = some d' → d'.type ≠ .none) (fte' : Fte)
    (hsame : fte' = { b.fte with active := true, existing := true }) :
    FteOk (linkRules b.rule.reverse fte') (b.rule.reverse ++ uses) b.next ∧
      (linkRules b.rule.reverse fte').existing = true ∧
      (linkRules b.rule.reverse fte').active = true ∧
      (linkRules b.rule.reverse fte').context = b.fte.context := by
  obtain ⟨hok, hdests⟩ := loop.linked ok htypes
  have hspec := linkRules_spec b.rule.reverse b.fte loop.refs.nodup fun r hr hpar =>
    mem_reverse.mpr (loop.parent r hr hpar)
  have hspec' := linkRules_spec b.rule.reverse fte' (by rw [hsame]; exact loop.refs.nodup)
    fun r hr hpar => mem_reverse.mpr (loop.parent r (by rwa [hsame] at hr) hpar)
  have heq : linkRules b.rule.reverse fte' =
      { linkRules b.rule.reverse b.fte with active := true, existing := true } := by
    rw [hspec', hspec, hsame]
  have haction : (linkRules b.rule.reverse b.fte).action = b.fte.action := by rw [hspec]
  rw [heq]
  refine ⟨{ hok with }, rfl, rfl, ?_⟩
  change flowContext (linkRules b.rule.reverse b.fte).action.action
    (linkRules b.rule.reverse b.fte).dests = flowContext b.fte.action.action b.fte.dests
  rw [haction, hdests]

/-- STEP: an addition to an entry fails and changes nothing, or the firmware has what it added. -/
theorem addRuleFg_existing (ok : FteOk fte uses next) (hexisting : fte.existing = true)
    (hactive : fte.active = true) (hvalid : req.valid ft = true)
    (htypes : ∀ dests, req.dests = some dests → ∀ d ∈ dests, d.type ≠ .none)
    (fits : checkConflictingFtes fte req.flowContext req.flowAct = false → e.handle = false →
      AddFits fte e req) :
    ∃ added, addRuleFg e (some fte.context) fte req.flowContext req.flowAct req.dests next = added ∧
      next ≤ added.next ∧ ((added.handle = none ∧ added.fte = fte ∧ added.fw = some fte.context) ∨
        ∃ handle, added.handle = some handle ∧ handle ≠ [] ∧
          FteOk added.fte (handle ++ uses) added.next ∧ added.fte.existing = true ∧
          added.fte.active = true ∧ added.fw = some added.fte.context) := by
  unfold addRuleFg
  split_ifs with hconflict
  · exact ⟨_, rfl, le_rfl, .inl ⟨rfl, rfl, rfl⟩⟩
  dsimp only
  have hconflict' : checkConflictingFtes fte req.flowContext req.flowAct = false := by
    simpa using hconflict
  have hback : ∀ action, (fte.setAction action).setAction fte.action.action = fte := fun _ => rfl
  have ok' := ok.setAction (fte.action.action ∪ req.flowAct.action)
  by_cases hhandle : e.handle = true
  · unfold addRuleFte createFlowHandle
    rw [if_pos hhandle]
    exact ⟨_, rfl, le_rfl, .inl ⟨rfl, hback _, rfl⟩⟩
  have hfits := fits hconflict' (by simpa using hhandle)
  obtain ⟨b, hnext, ⟨hres, hlen, news, loop, hnews⟩ | ⟨hres, hrolls⟩⟩ :=
    createFlowHandle_spec ok'.refs ok'.linked e req.dests
  · change news.Perm (newDests fte.dests (destList req.dests)) at hnews
    have hrule : b.rule.reverse ≠ [] := by
      have hne := List.length_pos_iff.mpr (destList_ne_nil hvalid)
      rw [← List.length_pos_iff, List.length_reverse, hlen]
      exact hne
    have hexist : b.fte.existing = true := by
      rw [loop.same]
      exact hexisting
    have hact : b.fte.active = true := by
      rw [loop.same]
      exact hactive
    unfold addRuleFte
    rw [hres]
    dsimp only
    by_cases hnew : b.newRule = true
    · rw [if_neg (by simp [hnew])]
      by_cases hfw : e.fw = true
      · rw [if_pos hfw]
        refine ⟨_, rfl, hnext, .inl ⟨rfl, ?_, rfl⟩⟩
        have hundo := hfits.fw hfw
        have hnone : news.countP (·.isNone) = 0 :=
          countP_eq_zero.mpr fun d hd => by
            simp [Option.isSome_iff_ne_none.mp (hundo d (hnews.mem_iff.mp hd)).2]
        have hfwd : (news.countP fun d => isFwd (d.getD .none)) = 0 :=
          countP_eq_zero.mpr fun d hd => by simp [(hundo d (hnews.mem_iff.mp hd)).1]
        rw [loop.undo, hnone, hfwd]
        unfold Fte.setAction
        simp
      · rw [if_neg hfw]
        obtain ⟨hok, hex, hac, hctx⟩ := loop.finish ok' (news_types hnews htypes) _ rfl
        refine ⟨_, rfl, hnext, .inr ⟨b.rule.reverse, rfl, hrule, hok, hex, hac, ?_⟩⟩
        rw [hctx]
        unfold setFte
        rw [if_pos hexist, Option.map_some, loop.agrees hnews hfits]
    · rw [if_pos (by simpa using hnew)]
      have hnil : news = [] := by
        by_contra hne
        exact hnew (loop.newRule.mpr hne)
      subst hnil
      have hsub := hfits.shared hnews.symm.eq_nil
      have hunion : fte.action.action ∪ req.flowAct.action = fte.action.action :=
        Finset.union_eq_left.mpr hsub
      obtain ⟨hok, hex, hac, hctx⟩ := loop.finish ok' (by simp) b.fte (b.fte.flags hexist hact)
      refine ⟨_, rfl, hnext, .inr ⟨b.rule.reverse, rfl, hrule, hok, hex, hac, ?_⟩⟩
      dsimp only
      rw [hctx]
      have hdests : b.fte.dests.filter (fun _ => true) = fte.dests.filter fun _ => true :=
        loop.kept _ (by simp)
      rw [List.filter_true, List.filter_true] at hdests
      have haction : b.fte.action.action = fte.action.action := by
        rw [loop.same]
        exact hunion
      congr 1
      change flowContext fte.action.action fte.dests = flowContext b.fte.action.action b.fte.dests
      rw [haction, hdests]
  · unfold addRuleFte
    rw [hres]
    refine ⟨_, rfl, hnext, .inl ⟨rfl, ?_, rfl⟩⟩
    dsimp only
    rw [hrolls hfits.alloc]
    rfl

/-- STEP: a new entry has what was added, or is freed. -/
theorem addRuleFg_new (hvalid : req.valid ft = true)
    (htypes : ∀ dests, req.dests = some dests → ∀ d ∈ dests, d.type ≠ .none) (next : ℕ) :
    ∃ added, addRuleFg e none (allocFte req.flowContext req.flowAct) req.flowContext req.flowAct
        req.dests next = added ∧ next ≤ added.next ∧ (added.handle = none ∨
        ∃ handle, added.handle = some handle ∧ handle ≠ [] ∧
          FteOk added.fte handle added.next ∧ added.fte.existing = true ∧
          added.fte.active = true ∧ added.fw = some added.fte.context) := by
  generalize hfte : allocFte req.flowContext req.flowAct = fte
  have ok : FteOk fte [] next := hfte ▸ allocFte_ok req.flowContext req.flowAct next
  have hexisting : fte.existing = false := by rw [← hfte]; rfl
  have hdests : fte.dests = [] := by rw [← hfte]; rfl
  unfold addRuleFg
  split_ifs with hconflict
  · exact ⟨_, rfl, le_rfl, .inl rfl⟩
  dsimp only
  have ok' := ok.setAction (fte.action.action ∪ req.flowAct.action)
  obtain ⟨b, hnext, ⟨hres, hlen, news, loop, hnews⟩ | ⟨hres, -⟩⟩ :=
    createFlowHandle_spec ok'.refs ok'.linked e req.dests
  · change news.Perm (newDests fte.dests (destList req.dests)) at hnews
    obtain ⟨d, ds, hds⟩ := List.exists_cons_of_ne_nil (destList_ne_nil hvalid)
    have hnew : b.newRule = true := by
      refine loop.newRule.mpr fun hnil => ?_
      rw [hnil, hdests, hds] at hnews
      have hnone : newDests [] (d :: ds) = [] := hnews.symm.eq_nil
      unfold newDests at hnone
      cases d <;> simp at hnone
    have hrule : b.rule.reverse ≠ [] := by
      rw [← List.length_pos_iff, List.length_reverse, hlen, hds]
      exact Nat.succ_pos _
    have hexist : b.fte.existing = false := by
      rw [loop.same]
      exact hexisting
    unfold addRuleFte
    rw [hres]
    dsimp only
    rw [if_neg (by simp [hnew])]
    by_cases hfw : e.fw = true
    · rw [if_pos hfw]
      exact ⟨_, rfl, hnext, .inl rfl⟩
    · rw [if_neg hfw]
      obtain ⟨hok, hex, hac, hctx⟩ := loop.finish ok' (news_types hnews htypes) _ rfl
      rw [append_nil] at hok
      refine ⟨_, rfl, hnext, .inr ⟨b.rule.reverse, rfl, hrule, hok, hex, hac, ?_⟩⟩
      rw [hctx]
      unfold setFte
      rw [if_neg (by simp [hexist])]
  · unfold addRuleFte
    rw [hres]
    exact ⟨_, rfl, hnext, .inl rfl⟩

theorem FteOk.mono {next' : ℕ} (ok : FteOk fte uses next) (h : next ≤ next') :
    FteOk fte uses next' :=
  { ok with
      refs := { ok.refs with fresh := fun r hr => (ok.refs.fresh r hr).trans_le h } }

/-- STEP: an addition keeps the firmware in agreement, and changes nothing where it fails. -/
theorem Agree.add (h : Agree w)
    (hfits : req.valid ft = true → e.early = false →
      (∀ dests, req.dests = some dests → ∀ d ∈ dests, d.type ≠ .none) ∧
        ∀ fte, w.fte = some fte → checkConflictingFtes fte req.flowContext req.flowAct = false →
          e.handle = false → AddFits fte e req) :
    Agree (w.add ft e req).1 ∧ ((w.add ft e req).2 = false → (w.add ft e req).1.fte = w.fte ∧
      (w.add ft e req).1.fw = w.fw ∧ (w.add ft e req).1.handles = w.handles) := by
  unfold World.add
  split_ifs with hvalid
  · exact ⟨h, fun _ => ⟨rfl, rfl, rfl⟩⟩
  simp only [Bool.or_eq_true, Bool.not_eq_true', not_or, Bool.not_eq_false, Bool.not_eq_true] at hvalid
  obtain ⟨htypes, hadd⟩ := hfits hvalid.1 hvalid.2
  rcases hfte : w.fte with _ | fte
  · dsimp only
    have hempty := h.empty hfte
    obtain ⟨added, hres, hnext, hnone | ⟨handle, hhandle, hne, hok, hex, hac, hfw⟩⟩ :=
      addRuleFg_new (e := e) hvalid.1 htypes w.next
    · rw [hres, hnone]
      exact ⟨⟨fun _ => hempty, fun fte hf => (by cases hf), h.handles⟩, fun _ => ⟨rfl, rfl, rfl⟩⟩
    · rw [hres, hhandle]
      refine ⟨⟨fun hf => (by cases hf), fun fte hf => ?_, fun x hx => ?_⟩, fun hf => (by cases hf)⟩
      · cases hf
        rw [hempty]
        refine ⟨?_, hex, hac, hfw⟩
        simpa using hok
      · rcases mem_cons.mp hx with rfl | hx
        · exact hne
        · exact h.handles x hx
  · dsimp only
    obtain ⟨ok, hexisting, hactive, hfw⟩ := h.entry fte hfte
    obtain ⟨added, hres, hnext, ⟨hnone, hsame, hfw'⟩ | ⟨handle, hhandle, hne, hok, hex, hac, hfw'⟩⟩ :=
      addRuleFg_existing ok hexisting hactive hvalid.1 htypes (hadd fte hfte)
    · rw [hfw, hres, hnone, hsame, hfw']
      refine ⟨⟨fun hf => (by cases hf), fun fte' hf => ?_, h.handles⟩, fun _ => ⟨rfl, rfl, rfl⟩⟩
      cases hf
      exact ⟨ok.mono hnext, hexisting, hactive, rfl⟩
    · rw [hfw, hres, hhandle]
      refine ⟨⟨fun hf => (by cases hf), fun fte' hf => ?_, fun x hx => ?_⟩, fun hf => (by cases hf)⟩
      · cases hf
        exact ⟨hok, hex, hac, hfw'⟩
      · rcases mem_cons.mp hx with rfl | hx
        · exact hne
        · exact h.handles x hx

/-- STEP: a removal keeps the firmware in agreement. -/
theorem Agree.del {handle : List ℕ} {fail : Bool} (h : Agree w) (hmatch : handle ∈ w.handles)
    (hfits : ∀ fte, w.fte = some fte → fte.left (w.handles.erase handle).flatten ≠ [] →
      DelFits fte (w.handles.erase handle).flatten fail) : Agree (w.del fail handle) := by
  have hhandles : ∀ x ∈ w.handles.erase handle, x ≠ [] := fun x hx =>
    h.handles x (List.mem_of_mem_erase hx)
  rcases hfte : w.fte with _ | fte
  · rw [h.empty hfte] at hmatch
    cases hmatch
  obtain ⟨ok, hexisting, hactive, hfw⟩ := h.entry fte hfte
  have hcount : ∀ id, w.handles.flatten.count id =
      (handle.reverse ++ (w.handles.erase handle).flatten).count id := by
    intro id
    have hperm : w.handles.flatten.Perm (handle ++ (w.handles.erase handle).flatten) := by
      exact (List.perm_cons_erase hmatch).flatten
    rw [hperm.count_eq, List.count_append, List.count_append, List.count_reverse]
  have ok' : FteOk fte (handle.reverse ++ (w.handles.erase handle).flatten) w.next := by
    refine { ok with refs := ⟨ok.refs.nodup, fun r hr => ?_, fun id hid => ?_, ok.refs.fresh⟩ }
    · rw [← hcount]
      exact ok.refs.count r hr
    · refine ok.refs.named id (count_pos_iff.mp ?_)
      rw [hcount]
      exact count_pos_iff.mpr hid
  have hremoved := removeRules_spec handle.reverse fte ok'.removed
  unfold World.del
  rw [hfte]
  dsimp only
  generalize removeRules handle.reverse fte = fte' at *
  generalize (w.handles.erase handle) = handles at *
  have hdests := hremoved.dests
  by_cases hempty : fte'.children = []
  · -- the last rule is gone, and the entry with it
    have hnil : handles = [] := by
      rcases handles with _ | ⟨x, xs⟩
      · rfl
      · obtain ⟨id, ids, hx⟩ := List.exists_cons_of_ne_nil (hhandles x mem_cons_self)
        obtain ⟨r, hr, -⟩ := hremoved.ok.refs.named id (by simp [hx])
        rw [hempty] at hr
        cases hr
    have hlast : fte'.refcount - 1 = 0 := by
      rw [hremoved.ok.refcount, hempty]
      rfl
    rw [if_pos (by simp [hempty]), if_pos hlast]
    exact ⟨fun _ => hnil, fun fte hf => (by cases hf), hhandles⟩
  have hleft : fte.left handles.flatten ≠ [] := by
    rw [← hdests]
    simpa [Fte.dests] using hempty
  have fits := hfits fte hfte hleft
  rw [if_neg (by simpa using hempty)]
  by_cases hsize : fte'.destsSize = 0
  · -- only a rule without destination is left
    have hnone : ∀ d ∈ fte.left handles.flatten, d.type = .none := by
      intro d hd
      have hzero := hremoved.ok.size
      rw [hsize, hdests] at hzero
      have hcountP : (fte.left handles.flatten).countP (fun d => decide (d.type ≠ .none)) = 0 := by
        omega
      simpa using countP_eq_zero.mp hcountP d hd
    rw [if_neg (not_not.mpr hsize)]
    refine ⟨fun hf => (by cases hf), fun fte hf => ?_, hhandles⟩
    cases hf
    refine ⟨hremoved.ok, hremoved.existing.trans hexisting, hremoved.active.trans hactive, ?_⟩
    rw [hremoved.quiet fits hnone]
    exact hfw
  rw [if_pos hsize]
  have hagrees := hremoved.agrees fits
  by_cases hmask : fte'.modifyMask = ∅
  · rw [if_neg (not_not.mpr hmask)]
    refine ⟨fun hf => (by cases hf), fun fte hf => ?_, hhandles⟩
    cases hf
    refine ⟨hremoved.ok, hremoved.existing.trans hexisting, hremoved.active.trans hactive, ?_⟩
    rw [← hagrees, hmask]
    exact hfw
  · rw [if_pos hmask]
    unfold modifyFte
    refine ⟨fun hf => (by cases hf), fun fte hf => ?_, hhandles⟩
    cases hf
    have hok := hremoved.ok
    refine ⟨{ hok with },
      hremoved.existing.trans hexisting, hremoved.active.trans hactive, ?_⟩
    unfold setFte
    rw [if_neg (by simp [fits.fw]), if_pos (hremoved.existing.trans hexisting), hfw, Option.map_some,
      hagrees]
    rfl

/-- STEP: every call keeps the firmware in agreement. -/
theorem Agree.step (h : Agree w) (hmatch : Matching w k) (hfits : Fits ft w k) :
    Agree (w.step ft k) := by
  cases k with
  | add req supported nextFt e =>
    unfold World.step
    dsimp only
    rcases hforward : req.forward supported nextFt with _ | req'
    · exact h
    · exact (h.add (hfits req' hforward)).1
  | del handle fail => exact h.del hmatch hfits

/-- CORRECT: in every run of additions and removals, with any failures, in which no call breaks the
    condition, the counts of the entry are those of its destinations, each rule is counted by the
    handles that use it, the firmware has the actions and destinations of the entry, and an addition
    that fails leaves all as it was. -/
theorem flow_entry (ft : FlowTable)
    (h : Reach (World.step ft) (fun w k => Matching w k ∧ Fits ft w k) World.start w) :
    (∀ fte, w.fte = some fte →
      fte.destsSize = (fte.dests.countP fun d => d.type ≠ .none) ∧
        fte.fwdDests = fte.dests.countP isFwd ∧
        (∀ r ∈ fte.children, r.refcount = w.handles.flatten.count r.id ∧ 0 < r.refcount) ∧
        w.fw = some fte.context) ∧
      ∀ req supported nextFt e req', req.forward supported nextFt = some req' →
        Fits ft w (.add req supported nextFt e) → (w.add ft e req').2 = false →
          (w.add ft e req').1.fte = w.fte ∧ (w.add ft e req').1.fw = w.fw ∧
            (w.add ft e req').1.handles = w.handles := by
  have hagree : Agree w := @Reach.invariant _ _ _ _ _ _ (fun w => Agree w) h
    ⟨fun _ => rfl, fun fte hf => (by cases hf), fun x hx => (by cases hx)⟩
    fun w k hok hw => hw.step hok.1 hok.2
  refine ⟨fun fte hfte => ?_, fun req supported nextFt e req' hforward hfits =>
    (hagree.add (hfits req' hforward)).2⟩
  obtain ⟨ok, -, -, hfw⟩ := hagree.entry fte hfte
  exact ⟨ok.size, ok.fwd, ok.refs.count, hfw⟩

end Runs

/-- A table, an environment in which nothing fails, and requests that forward to TIRs. -/
def rxTable : FlowTable := ⟨1, 0, 0⟩

def calm : Env := ⟨false, false, fun _ => false, false⟩

def toTirs (action : Finset ActionBit) (dests : List Dest) : Request :=
  ⟨⟨false, 0⟩, ⟨action, 0, 0, false, ⟨0, 0, 0⟩, ⟨0, 0, 0⟩⟩, some dests⟩

/-- Two handles that share a destination. -/
def shared : World := [Call.add (toTirs {.fwdDest} [.tir 1, .tir 2]) true none calm,
  .add (toTirs {.fwdDest} [.tir 2]) true none calm].foldl (World.step rxTable) World.start

theorem shared_reach : Reach (World.step rxTable)
    (fun w k => Matching w k ∧ Fits rxTable w k) World.start shared := by
  refine Reach.start.runs
    ⟨⟨trivial, fun req' hreq _ _ => ?_⟩, ⟨trivial, fun req' hreq _ _ => ?_⟩, trivial⟩
  · cases hreq
    refine ⟨fun dests hdests d hd => ?_, fun fte hfte => (by cases hfte)⟩
    cases hdests
    revert d hd
    decide
  · cases hreq
    refine ⟨fun dests hdests d hd => ?_, fun fte hfte _ _ => ?_⟩
    · cases hdests
      revert d hd
      decide
    · cases hfte
      exact ⟨fun j hj => (by cases hj), fun hj => (by cases hj), by decide, by decide, by decide,
        by decide⟩

theorem flow_entry_shared : ∃ fte, shared.fte = some fte ∧ fte.destsSize = 2 ∧ fte.fwdDests = 2 ∧
    shared.fw = some fte.context :=
  have h := flow_entry rxTable shared_reach
  have hfte : ∃ fte, shared.fte = some fte := ⟨_, rfl⟩
  match hfte with
  | ⟨fte, hf⟩ => ⟨fte, hf, (h.1 fte hf).1.trans (by cases hf; rfl),
      (h.1 fte hf).2.1.trans (by cases hf; rfl), (h.1 fte hf).2.2.2⟩

/-- An addition that fails leaves its forwarding rule counted; the last forwarding rule is deleted and
    the firmware goes on forwarding; and actions of rules that are shared are not written. -/
theorem flow_entry_broken :
    (∃ w, Reach (World.step rxTable) Matching World.start w ∧ ∃ fte, w.fte = some fte ∧
      fte.fwdDests ≠ fte.dests.countP isFwd) ∧
    (∃ w, Reach (World.step rxTable) Matching World.start w ∧ ∃ fte fw, w.fte = some fte ∧
      w.fw = some fw ∧ .fwdDest ∉ fte.action.action ∧ .fwdDest ∈ fw.action) ∧
    ∃ w, Reach (World.step rxTable) Matching World.start w ∧ ∃ fte fw, w.fte = some fte ∧
      w.fw = some fw ∧ .allow ∈ fte.action.action ∧ .allow ∉ fw.action :=
  ⟨⟨[Call.add (toTirs {.fwdDest} [.tir 1]) true none calm,
        .add (toTirs {.fwdDest} [.tir 2]) true none { calm with fw := true }].foldl
          (World.step rxTable) World.start,
      Reach.start.runs (by decide), _, rfl, by decide⟩,
    ⟨[Call.add (toTirs {.fwdDest, .count} [.tir 1]) true none calm,
        .add (toTirs {.fwdDest, .count} [.counter 7]) true none calm, .del [0] false].foldl
          (World.step rxTable) World.start,
      Reach.start.runs (by decide), _, _, rfl, rfl, by decide, by decide⟩,
    ⟨[Call.add (toTirs {.fwdDest} [.tir 1]) true none calm,
        .add (toTirs {.fwdDest, .allow} [.tir 1]) true none calm].foldl
          (World.step rxTable) World.start,
      Reach.start.runs (by decide), _, _, rfl, rfl, by decide, by decide⟩⟩

end RdmaDriver.FsFte
