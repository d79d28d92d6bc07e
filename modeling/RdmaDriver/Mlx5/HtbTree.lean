import RdmaDriver.Schemes.Run
import Mathlib.Data.List.Nodup
import Mathlib.Data.List.Perm.Basic
import Mathlib.Logic.Function.Basic
import Mathlib.Algebra.Order.Group.Nat
import Mathlib.Tactic.Common

/-! @src drivers/net/ethernet/mellanox/mlx5/core/en/htb.c, en/qos.c, qos.c |
    name:HTB offload tree | scheme:run | family:tree

    The classes of an HTB qdisc are nodes; each node has a scheduling element of the device, made
    under the element of its parent. A leaf has a queue, an inner node has none:

        root -+- inner -+- leaf, qid 0
              |         +- leaf, qid 2
              +- leaf, qid 1

    A leaf that is to have children gives its queue to the first of them; when its last child goes
    it takes the queue back. When a leaf goes the highest queue moves to the free number. -/

namespace RdmaDriver.HtbTree
open RdmaDriver.Schemes Function
open List (range)

def MLX5E_QOS_QID_INNER : ℕ := 0xffff
def MLX5E_HTB_CLASSID_ROOT : ℕ := 0xffffffff
def MLX5E_QOS_MAX_LEAF_NODES : ℕ := 256
def BYTES_IN_MBIT : ℕ := 125000

/-- `struct mlx5e_qos_node`. -/
structure Node where
  parent : Option ℕ
  rate : ℕ
  bwShare : ℕ
  maxAverageBw : ℕ
  hwId : ℕ
  classid : ℕ
  qid : ℕ
  deriving DecidableEq

/-- The context of a scheduling element; `inner` is its type. -/
structure Elem where
  parentId : ℕ
  inner : Bool
  bwShare : ℕ
  maxAvgBw : ℕ
  deriving DecidableEq

/-- `struct mlx5e_htb` with its device: `nodes` are the nodes of the hash table, `elem` the elements
    of the device, `sq` the elements of the open QoS SQs. `drained` and `restarted` are the queues
    of the net device that were reset and reactivated, the latest first. -/
structure Htb where
  nodes : List ℕ
  node : ℕ → Node
  fresh : ℕ
  usedQids : ℕ → Bool
  maxLeafNodes : ℕ
  opened : Bool
  numChannels : ℕ
  isPtp : Bool
  numTc : ℕ
  elem : ℕ → Option Elem
  sq : ℕ → Option ℕ
  drained : List ℕ
  restarted : List ℕ

inductive Errno where
  | enospc | einval | enomem | enoent
  | cmd
  deriving DecidableEq

/-- What the allocator and the firmware do in a call: `fwInner` and `fwLeaf` are the elements it
    gives, `fwDestroy` and `fwUpdate` tell the elements for which these commands work. -/
structure Env where
  kzalloc : Bool
  fwInner : Option ℕ
  fwLeaf : Option ℕ
  fwDestroy : ℕ → Bool
  fwUpdate : ℕ → Bool
  sqOpen : Bool

/-- A write to a node. -/
def Htb.setNode (h : Htb) (n : ℕ) (v : Node) : Htb := { h with node := update h.node n v }

/-- A write to the bitmap. -/
def Htb.setBit (h : Htb) (qid : ℕ) (b : Bool) : Htb :=
  { h with usedQids := update h.usedQids qid b }

/-- `mlx5e_qid_from_qos`; the result is 16 bits wide. -/
def mlx5eQidFromQos (h : Htb) (qid : ℕ) : ℕ :=
  ((h.numChannels + if h.isPtp then 1 else 0) * h.numTc + qid) % 2 ^ 16

/-- `mlx5e_htb_cur_leaf_nodes`: the last bit that is set, plus one. -/
def mlx5eHtbCurLeafNodes (h : Htb) : ℕ :=
  match (range h.maxLeafNodes).reverse.find? fun q => h.usedQids q with
  | none => 0
  | some last => last + 1

/-- `mlx5e_htb_find_unused_qos_qid`: the first bit that is clear. -/
def mlx5eHtbFindUnusedQosQid (h : Htb) : Option ℕ :=
  (range h.maxLeafNodes).find? fun q => !h.usedQids q

/-- `mlx5e_htb_node_find`. -/
def mlx5eHtbNodeFind (h : Htb) (classid : ℕ) : Option ℕ :=
  h.nodes.find? fun n => (h.node n).classid = classid

/-- `mlx5e_htb_node_find_by_qid`. -/
def mlx5eHtbNodeFindByQid (h : Htb) (qid : ℕ) : Option ℕ :=
  h.nodes.find? fun n => (h.node n).qid = qid

/-- `mlx5e_htb_node_create_leaf`, when there is memory. -/
def mlx5eHtbNodeCreateLeaf (h : Htb) (classid qid parent : ℕ) : Htb :=
  { h.setBit qid true with
    nodes := h.fresh :: h.nodes
    node := update h.node h.fresh
      { parent := some parent, rate := 0, bwShare := 0, maxAverageBw := 0, hwId := 0,
        classid := classid, qid := qid }
    fresh := h.fresh + 1 }

/-- `mlx5e_htb_node_delete`. -/
def mlx5eHtbNodeDelete (h : Htb) (n : ℕ) : Htb :=
  let qid := (h.node n).qid
  let h := { h with nodes := h.nodes.erase n }
  if qid ≠ MLX5E_QOS_QID_INNER then h.setBit qid false else h

/-- The loop of `mlx5e_htb_convert_rate` up to a node that has a ceiling, or the root; a node is
    visited at most once. -/
def ceilNode (h : Htb) : ℕ → ℕ → ℕ
  | 0, parent => parent
  | k + 1, parent =>
    if (h.node parent).classid ≠ MLX5E_HTB_CLASSID_ROOT ∧ (h.node parent).maxAverageBw = 0 then
      match (h.node parent).parent with
      | some up => ceilNode h k up
      | none => parent
    else parent

/-- The share of a rate under a ceiling, in 64-bit arithmetic. -/
def bwShareOf (rate ceil : ℕ) : ℕ :=
  let share := if ceil ≠ 0 then rate * 100 % 2 ^ 64 / BYTES_IN_MBIT / ceil else 101
  if share = 0 then 1 else if share > 100 then 0 else share

/-- `mlx5e_htb_convert_rate`. -/
def mlx5eHtbConvertRate (h : Htb) (rate parent : ℕ) : ℕ :=
  bwShareOf rate (h.node (ceilNode h h.nodes.length parent)).maxAverageBw

/-- `mlx5e_htb_convert_ceil`. -/
def mlx5eHtbConvertCeil (ceil : ℕ) : ℕ := max (ceil / BYTES_IN_MBIT % 2 ^ 32) 1

/-- `CREATE_SCHEDULING_ELEMENT`. -/
def Htb.createElem (h : Htb) (id : ℕ) (v : Elem) : Htb :=
  { h with elem := update h.elem id (some v) }

/-- `mlx5_qos_destroy_node`; where it fails it is not fatal. -/
def mlx5QosDestroyNode (h : Htb) (id : ℕ) (e : Env) : Htb :=
  if e.fwDestroy id then { h with elem := update h.elem id none } else h

/-- `mlx5_qos_update_node`. -/
def mlx5QosUpdateNode (h : Htb) (bwShare maxAvgBw id : ℕ) (e : Env) : Htb × Option Errno :=
  if e.fwUpdate id then
    ({ h with elem := update h.elem id ((h.elem id).map fun v =>
        { v with bwShare := bwShare, maxAvgBw := maxAvgBw }) }, none)
  else (h, some .cmd)

/-- `mlx5e_open_qos_sq` and `mlx5e_activate_qos_sq` for a node, if the interface is up. -/
def openQosSq (h : Htb) (n : ℕ) (e : Env) : Htb :=
  if h.opened ∧ e.sqOpen then
    { h with sq := update h.sq (h.node n).qid (some (h.node n).hwId) }
  else h

/-- `mlx5e_deactivate_qos_sq` and `mlx5e_close_qos_sq`, if the interface is up. -/
def closeQosSq (h : Htb) (qid : ℕ) : Htb :=
  if h.opened then { h with sq := update h.sq qid none } else h

/-- `mlx5e_reactivate_qos_sq`, if the interface is up; `txq` is a queue of the net device. -/
def mlx5eReactivateQosSq (h : Htb) (txq : ℕ) : Htb :=
  if h.opened then { h with restarted := txq :: h.restarted } else h

/-- `mlx5e_reset_qdisc` of a queue of the net device. -/
def mlx5eResetQdisc (h : Htb) (txq : ℕ) : Htb := { h with drained := txq :: h.drained }

/-- `mlx5e_htb_leaf_alloc_queue`. -/
def mlx5eHtbLeafAllocQueue (h : Htb) (classid parentClassid rate ceil : ℕ) (e : Env) :
    Htb × Except Errno ℕ :=
  match mlx5eHtbFindUnusedQosQid h with
  | none => (h, .error .enospc)
  | some qid =>
    match mlx5eHtbNodeFind h parentClassid with
    | none => (h, .error .einval)
    | some parent =>
      if e.kzalloc = false then (h, .error .enomem)
      else
        let n := h.fresh
        let h := mlx5eHtbNodeCreateLeaf h classid qid parent
        let h := h.setNode n { h.node n with
          rate := rate
          bwShare := mlx5eHtbConvertRate h rate parent
          maxAverageBw := mlx5eHtbConvertCeil ceil }
        match e.fwLeaf with
        | none => (mlx5eHtbNodeDelete h n, .error .cmd)
        | some id =>
          let h := h.createElem id { parentId := (h.node parent).hwId, inner := false,
                                     bwShare := (h.node n).bwShare
                                     maxAvgBw := (h.node n).maxAverageBw }
          let h := h.setNode n { h.node n with hwId := id }
          (openQosSq h n e, .ok (mlx5eQidFromQos h qid))
/-- The end of `mlx5e_htb_leaf_to_inner`, which does not fail. -/
def leafToInnerDone (h : Htb) (n child id : ℕ) (e : Env) : Htb :=
  let qid := (h.node n).qid
  let h := h.setNode n { h.node n with qid := MLX5E_QOS_QID_INNER }
  let h := closeQosSq h qid
  let h := mlx5QosDestroyNode h (h.node n).hwId e
  let h := h.setNode n { h.node n with hwId := id }
  openQosSq h child e

/-- `mlx5e_htb_leaf_to_inner`. The leaf of `classid` must have a parent. -/
def mlx5eHtbLeafToInner (h : Htb) (classid childClassid rate ceil : ℕ) (e : Env) :
    Htb × Option Errno :=
  match mlx5eHtbNodeFind h classid with
  | none => (h, some .enoent)
  | some n =>
    match (h.node n).parent, e.fwInner with
    | none, _ => (h, some .einval)
    | some _, none => (h, some .cmd)
    | some parent, some inner =>
      let h := h.createElem inner { parentId := (h.node parent).hwId, inner := true,
                                    bwShare := (h.node n).bwShare
                                    maxAvgBw := (h.node n).maxAverageBw }
      if e.kzalloc = false then (mlx5QosDestroyNode h inner e, some .enomem)
      else
        let child := h.fresh
        -- the child is to have the queue of the leaf
        let h := mlx5eHtbNodeCreateLeaf h childClassid (h.node n).qid n
        let h := h.setNode child { h.node child with
          rate := rate
          bwShare := mlx5eHtbConvertRate h rate n
          maxAverageBw := mlx5eHtbConvertCeil ceil }
        match e.fwLeaf with
        | none =>
          let h := h.setNode child { h.node child with qid := MLX5E_QOS_QID_INNER }
          let h := mlx5eHtbNodeDelete h child
          (mlx5QosDestroyNode h inner e, some .cmd)
        | some id =>
          let h := h.createElem id { parentId := inner, inner := false,
                                     bwShare := (h.node child).bwShare
                                     maxAvgBw := (h.node child).maxAverageBw }
          let h := h.setNode child { h.node child with hwId := id }
          (leafToInnerDone h n child inner e, none)

/-- The end of `mlx5e_htb_leaf_del`: the queue with the highest number moves to `qid`. -/
def moveQid (h : Htb) (n moved qid : ℕ) (e : Env) : Htb :=
  let h := h.setNode n { h.node n with qid := MLX5E_QOS_QID_INNER }
  let h := h.setBit moved false
  let h := closeQosSq h moved
  let h := mlx5eResetQdisc h moved
  let h := h.setBit qid true
  let h := h.setNode n { h.node n with qid := qid }
  let h := openQosSq h n e
  mlx5eReactivateQosSq h (mlx5eQidFromQos h moved)

/-- `mlx5e_htb_leaf_del`. -/
def mlx5eHtbLeafDel (h : Htb) (classid : ℕ) (e : Env) : Htb × Option Errno :=
  match mlx5eHtbNodeFind h classid with
  | none => (h, some .enoent)
  | some n =>
    let qid := (h.node n).qid
    let h := closeQosSq h qid
    let h := mlx5QosDestroyNode h (h.node n).hwId e
    let h := mlx5eHtbNodeDelete h n
    let leaves := mlx5eHtbCurLeafNodes h
    -- the last queue, or the highest one, is gone
    if leaves = 0 ∨ leaves - 1 < qid then (mlx5eReactivateQosSq h (mlx5eQidFromQos h qid), none)
    else
      match mlx5eHtbNodeFindByQid h (leaves - 1) with
      | none => (h, none)
      | some m => (moveQid h m (leaves - 1) qid e, none)

/-- `mlx5e_htb_leaf_del_last`. The parent of the leaf must have a parent. -/
def mlx5eHtbLeafDelLast (h : Htb) (classid : ℕ) (force : Bool) (e : Env) : Htb × Option Errno :=
  match mlx5eHtbNodeFind h classid with
  | none => (h, some .enoent)
  | some n =>
    match (h.node n).parent, (h.node n).parent.bind fun p => (h.node p).parent with
    | some parent, some grand =>
      if e.fwLeaf = none ∧ force = false then (h, some .cmd)
      else
        let h := match e.fwLeaf with
          | none => h
          | some id => h.createElem id { parentId := (h.node grand).hwId, inner := false,
                                         bwShare := (h.node parent).bwShare
                                         maxAvgBw := (h.node parent).maxAverageBw }
        let qid := (h.node n).qid
        let h := h.setNode n { h.node n with qid := MLX5E_QOS_QID_INNER }
        let h := closeQosSq h qid
        let h := mlx5eResetQdisc h qid
        let h := mlx5QosDestroyNode h (h.node n).hwId e
        let h := mlx5eHtbNodeDelete h n
        let h := h.setNode parent { h.node parent with qid := qid }
        match e.fwLeaf with
        | none => (h, some .cmd)
        | some id =>
          let old := (h.node parent).hwId
          let h := h.setNode parent { h.node parent with hwId := id }
          let h := openQosSq h parent e
          (mlx5QosDestroyNode h old e, none)
    | _, _ => (h, some .einval)

/-- The loop of `mlx5e_htb_update_children` over nodes of the hash table. -/
def updateChildren (n : ℕ) (e : Env) : List ℕ → Htb → Htb × Option Errno
  | [], h => (h, none)
  | c :: l, h =>
    if (h.node c).parent = some n then
      let old := (h.node c).bwShare
      let share := mlx5eHtbConvertRate h (h.node c).rate n
      let h := h.setNode c { h.node c with bwShare := share }
      if share = old then updateChildren n e l h
      else
        let (h, err) := mlx5QosUpdateNode h share (h.node c).maxAverageBw (h.node c).hwId e
        let (h, err') := updateChildren n e l h
        (h, err <|> err')
    else updateChildren n e l h

/-- `mlx5e_htb_node_modify`. The node must have a parent. -/
def mlx5eHtbNodeModify (h : Htb) (classid rate ceil : ℕ) (e : Env) : Htb × Option Errno :=
  match mlx5eHtbNodeFind h classid with
  | none => (h, some .enoent)
  | some n =>
    match (h.node n).parent with
    | none => (h, some .einval)
    | some parent =>
      let h := h.setNode n { h.node n with rate := rate }
      let share := mlx5eHtbConvertRate h rate parent
      let max := mlx5eHtbConvertCeil ceil
      match mlx5QosUpdateNode h share max (h.node n).hwId e with
      | (h, some err) => (h, some err)
      | (h, none) =>
        let changed := max ≠ (h.node n).maxAverageBw
        let h := h.setNode n { h.node n with bwShare := share, maxAverageBw := max }
        if changed then updateChildren n e h.nodes h else (h, none)

/-- A command of the qdisc. -/
inductive Op where
  | leafAllocQueue (classid parentClassid rate ceil : ℕ) (e : Env)
  | leafToInner (classid childClassid rate ceil : ℕ) (e : Env)
  | leafDel (classid : ℕ) (e : Env)
  | leafDelLast (classid : ℕ) (force : Bool) (e : Env)
  | nodeModify (classid rate ceil : ℕ) (e : Env)

/-- A command and its error, if it returns one. -/
def run (h : Htb) : Op → Htb × Option Errno
  | .leafAllocQueue classid parentClassid rate ceil e =>
    match mlx5eHtbLeafAllocQueue h classid parentClassid rate ceil e with
    | (h, .error err) => (h, some err)
    | (h, .ok _) => (h, none)
  | .leafToInner classid childClassid rate ceil e =>
    mlx5eHtbLeafToInner h classid childClassid rate ceil e
  | .leafDel classid e => mlx5eHtbLeafDel h classid e
  | .leafDelLast classid force e => mlx5eHtbLeafDelLast h classid force e
  | .nodeModify classid rate ceil e => mlx5eHtbNodeModify h classid rate ceil e

def step (h : Htb) (o : Op) : Htb := (run h o).1

/-- The firmware gives elements that are not in use. -/
def Env.ok (e : Env) (h : Htb) : Prop :=
  (∀ id ∈ e.fwInner, h.elem id = none) ∧ ∀ id ∈ e.fwLeaf, h.elem id = none ∧ e.fwInner ≠ some id

/-- A node that has a queue. -/
def Htb.leaf (h : Htb) (n : ℕ) : Prop := (h.node n).qid ≠ MLX5E_QOS_QID_INNER

/-- The class of a command is not the root. -/
def Htb.isClass (h : Htb) (classid : ℕ) (P : ℕ → Prop) : Prop :=
  classid ≠ MLX5E_HTB_CLASSID_ROOT ∧ ∀ n ∈ mlx5eHtbNodeFind h classid, P n

/-- The commands that the qdisc gives: a class is new when it is added, below the root or an inner
    class, or as the first child of a leaf; a leaf is deleted, as the last child of an inner class
    if it is that. -/
def ok (h : Htb) : Op → Prop
  | .leafAllocQueue classid parentClassid _ _ e =>
    e.ok h ∧ mlx5eHtbNodeFind h classid = none ∧ classid ≠ MLX5E_HTB_CLASSID_ROOT ∧
      ∀ p ∈ mlx5eHtbNodeFind h parentClassid, ¬h.leaf p
  | .leafToInner classid childClassid _ _ e =>
    e.ok h ∧ mlx5eHtbNodeFind h childClassid = none ∧ childClassid ≠ MLX5E_HTB_CLASSID_ROOT ∧
      h.isClass classid h.leaf
  | .leafDel classid e =>
    e.ok h ∧ h.isClass classid fun n => h.leaf n ∧ ∀ p ∈ (h.node n).parent,
      (h.node p).parent = none ∨ ∃ m ∈ h.nodes, m ≠ n ∧ (h.node m).parent = some p
  | .leafDelLast classid _ e =>
    e.ok h ∧ h.isClass classid fun n => h.leaf n ∧ ∀ p ∈ (h.node n).parent,
      (h.node p).parent ≠ none ∧ ∀ m ∈ h.nodes, (h.node m).parent = some p → m = n
  | .nodeModify classid _ _ e => e.ok h ∧ classid ≠ MLX5E_HTB_CLASSID_ROOT

/-- The commands in which the firmware does what it is told: a node that is to be changed is changed
    or keeps its rate, and its children whose share changes are changed. -/
def clean (h : Htb) : Op → Prop
  | .nodeModify classid rate ceil e => ∀ n ∈ mlx5eHtbNodeFind h classid,
    (e.fwUpdate (h.node n).hwId = false → rate = (h.node n).rate) ∧
      (e.fwUpdate (h.node n).hwId = true → ∀ c ∈ h.nodes, (h.node c).parent = some n →
        bwShareOf (h.node c).rate (mlx5eHtbConvertCeil ceil) ≠ (h.node c).bwShare →
        e.fwUpdate (h.node c).hwId = true)
  | .leafAllocQueue .. | .leafToInner .. | .leafDel .. | .leafDelLast .. => True

/-- The leaves of a tree. -/
def Htb.leaves (h : Htb) : List ℕ := h.nodes.filter fun n => (h.node n).qid ≠ MLX5E_QOS_QID_INNER

/-- What holds of a tree. -/
structure Sound (h : Htb) : Prop where
  qids : (h.leaves.map fun n => (h.node n).qid).Perm (range h.leaves.length)
  used : ∀ q, h.usedQids q = true ↔ q < h.leaves.length
  classid : ∀ n ∈ h.nodes, ∀ m ∈ h.nodes, (h.node n).classid = (h.node m).classid → n = m
  hw : ∀ n ∈ h.nodes, ∀ m ∈ h.nodes, (h.node n).hwId = (h.node m).hwId → n = m
  elem : ∀ n ∈ h.nodes, (h.node n).classid ≠ MLX5E_HTB_CLASSID_ROOT → ∃ p ∈ h.nodes,
    (h.node n).parent = some p ∧
    (h.node n).bwShare = bwShareOf (h.node n).rate (h.node p).maxAverageBw ∧
    ∃ inner, h.elem (h.node n).hwId = some { parentId := (h.node p).hwId, inner := inner,
                                             bwShare := (h.node n).bwShare
                                             maxAvgBw := (h.node n).maxAverageBw }

/-- Two states of one tree. -/
structure Same (h h' : Htb) : Prop where
  nodes : h'.nodes = h.nodes
  node : ∀ n ∈ h.nodes, h'.node n = h.node n
  used : ∀ q, h'.usedQids q = h.usedQids q
  elem : ∀ n ∈ h.nodes, h'.elem (h.node n).hwId = h.elem (h.node n).hwId
  fresh : h.fresh ≤ h'.fresh
  max : h'.maxLeafNodes = h.maxLeafNodes

/-- A tree before any class is added. -/
structure Start (h : Htb) (root : ℕ) : Prop where
  nodes : h.nodes = [root]
  rootNode : h.node root =
    { parent := none, rate := 0, bwShare := 0, maxAverageBw := 0, hwId := (h.node root).hwId,
      classid := MLX5E_HTB_CLASSID_ROOT, qid := MLX5E_QOS_QID_INNER }
  fresh : root < h.fresh
  elem : h.elem (h.node root).hwId ≠ none
  used : ∀ q, h.usedQids q = false
  max : h.maxLeafNodes ≤ MLX5E_QOS_MAX_LEAF_NODES

/-- The nodes, their elements and their queues. -/
structure Shape (h : Htb) : Prop where
  nodup : h.nodes.Nodup
  fresh : ∀ n ∈ h.nodes, n < h.fresh
  classid : ∀ n ∈ h.nodes, ∀ m ∈ h.nodes, (h.node n).classid = (h.node m).classid → n = m
  top : ∀ n ∈ h.nodes, (h.node n).parent = none ↔ (h.node n).classid = MLX5E_HTB_CLASSID_ROOT
  parent : ∀ n ∈ h.nodes, ∀ p, (h.node n).parent = some p → p ∈ h.nodes
  older : ∀ n ∈ h.nodes, ∀ p, (h.node n).parent = some p → p < n
  ceil : ∀ n ∈ h.nodes, (h.node n).parent ≠ none → (h.node n).maxAverageBw ≠ 0
  hw : ∀ n ∈ h.nodes, ∀ m ∈ h.nodes, (h.node n).hwId = (h.node m).hwId → n = m
  hwUsed : ∀ n ∈ h.nodes, h.elem (h.node n).hwId ≠ none
  elem : ∀ n ∈ h.nodes, ∀ p, (h.node n).parent = some p →
    ∃ inner, h.elem (h.node n).hwId = some { parentId := (h.node p).hwId, inner := inner,
                                             bwShare := (h.node n).bwShare
                                             maxAvgBw := (h.node n).maxAverageBw }
  inner : ∀ n ∈ h.nodes, ∀ p, (h.node n).parent = some p → (h.node p).qid = MLX5E_QOS_QID_INNER
  topInner : ∀ n ∈ h.nodes, (h.node n).parent = none → (h.node n).qid = MLX5E_QOS_QID_INNER
  qid : ∀ n ∈ h.nodes, ∀ m ∈ h.nodes, (h.node n).qid ≠ MLX5E_QOS_QID_INNER →
    (h.node n).qid = (h.node m).qid → n = m
  used : ∀ q, h.usedQids q = true ↔ q ≠ MLX5E_QOS_QID_INNER ∧ ∃ n ∈ h.nodes, (h.node n).qid = q
  bound : ∀ q, h.usedQids q = true → q < h.maxLeafNodes
  max : h.maxLeafNodes ≤ MLX5E_QOS_MAX_LEAF_NODES

/-- The invariant, but for gaps in the numbers of the queues. -/
structure Tree (h : Htb) : Prop extends Shape h where
  share : ∀ n ∈ h.nodes, ∀ p, (h.node n).parent = some p →
    (h.node n).bwShare = bwShareOf (h.node n).rate (h.node p).maxAverageBw

/-- The invariant: the queues have the first `k` numbers. -/
structure Inv (h : Htb) (k : ℕ) : Prop where
  tree : Tree h
  upTo : ∀ q, h.usedQids q = true ↔ q < k

variable {h h' h'' : Htb} {n m p q k id : ℕ} {e : Env}

theorem Same.refl (h : Htb) : Same h h :=
  ⟨rfl, fun _ _ => rfl, fun _ => rfl, fun _ _ => rfl, le_rfl, rfl⟩

theorem Same.trans (h₁ : Same h h') (h₂ : Same h' h'') : Same h h'' where
  nodes := h₂.nodes.trans h₁.nodes
  node n hn := (h₂.node n (h₁.nodes ▸ hn)).trans (h₁.node n hn)
  used q := (h₂.used q).trans (h₁.used q)
  elem n hn := by
    have := h₂.elem n (h₁.nodes ▸ hn)
    rw [h₁.node n hn] at this
    exact this.trans (h₁.elem n hn)
  fresh := h₁.fresh.trans h₂.fresh
  max := h₂.max.trans h₁.max

theorem Shape.same (t : Shape h) (s : Same h h') : Shape h' := by
  have hp : ∀ n ∈ h.nodes, ∀ p, (h'.node n).parent = some p → h'.node p = h.node p ∧
      (h.node n).parent = some p := fun n hn p hpar => by
    rw [s.node n hn] at hpar
    exact ⟨s.node p (t.parent n hn p hpar), hpar⟩
  constructor
  · rw [s.nodes]
    exact t.nodup
  · intro n hn
    rw [s.nodes] at hn
    exact (t.fresh n hn).trans_le s.fresh
  · intro n hn m hm heq
    rw [s.nodes] at hn hm
    rw [s.node n hn, s.node m hm] at heq
    exact t.classid n hn m hm heq
  · intro n hn
    rw [s.nodes] at hn
    rw [s.node n hn]
    exact t.top n hn
  · intro n hn p hpar
    rw [s.nodes] at hn ⊢
    exact t.parent n hn p (hp n hn p hpar).2
  · intro n hn p hpar
    rw [s.nodes] at hn
    exact t.older n hn p (hp n hn p hpar).2
  · intro n hn hne
    rw [s.nodes] at hn
    rw [s.node n hn] at hne ⊢
    exact t.ceil n hn hne
  · intro n hn m hm heq
    rw [s.nodes] at hn hm
    rw [s.node n hn, s.node m hm] at heq
    exact t.hw n hn m hm heq
  · intro n hn
    rw [s.nodes] at hn
    rw [s.node n hn, s.elem n hn]
    exact t.hwUsed n hn
  · intro n hn p hpar
    rw [s.nodes] at hn
    obtain ⟨hnode, hpar'⟩ := hp n hn p hpar
    rw [hnode, s.node n hn, s.elem n hn]
    exact t.elem n hn p hpar'
  · intro n hn p hpar
    rw [s.nodes] at hn
    obtain ⟨hnode, hpar'⟩ := hp n hn p hpar
    rw [hnode]
    exact t.inner n hn p hpar'
  · intro n hn hnone
    rw [s.nodes] at hn
    rw [s.node n hn] at hnone ⊢
    exact t.topInner n hn hnone
  · intro n hn m hm hne heq
    rw [s.nodes] at hn hm
    rw [s.node n hn] at hne heq
    rw [s.node m hm] at heq
    exact t.qid n hn m hm hne heq
  · intro q
    rw [s.used q, t.used q, s.nodes]
    refine and_congr_right fun _ => exists_congr fun n => and_congr_right fun hn => ?_
    rw [s.node n hn]
  · intro q hq
    rw [s.used q] at hq
    rw [s.max]
    exact t.bound q hq
  · rw [s.max]
    exact t.max

/-- The invariant is about the tree. -/
theorem Tree.same (t : Tree h) (s : Same h h') : Tree h' where
  toShape := t.toShape.same s
  share n hn p hpar := by
    rw [s.nodes] at hn
    rw [s.node n hn] at hpar ⊢
    rw [s.node p (t.parent n hn p hpar)]
    exact t.share n hn p hpar

theorem Inv.same (i : Inv h k) (s : Same h h') : Inv h' k where
  tree := i.tree.same s
  upTo q := by
    rw [s.used q]
    exact i.upTo q

theorem Tree.lt_inner (t : Tree h) (hq : h.usedQids q = true) : q ≠ MLX5E_QOS_QID_INNER :=
  ((t.used q).1 hq).1

/-- The tree keeps its nodes and they have other queues. -/
theorem Tree.requeue (t : Tree h) {f : ℕ → ℕ} (hnodes : h'.nodes = h.nodes)
    (hnode : ∀ m, h'.node m = { h.node m with qid := f m }) (helem : h'.elem = h.elem)
    (hfresh : h'.fresh = h.fresh) (hmax : h'.maxLeafNodes = h.maxLeafNodes)
    (hinner : ∀ m ∈ h.nodes, ∀ p, (h.node m).parent = some p → f p = MLX5E_QOS_QID_INNER)
    (htop : ∀ m ∈ h.nodes, (h.node m).parent = none → f m = MLX5E_QOS_QID_INNER)
    (hinj : ∀ n ∈ h.nodes, ∀ m ∈ h.nodes, f n ≠ MLX5E_QOS_QID_INNER → f n = f m → n = m)
    (hused : ∀ q, h'.usedQids q = true ↔ q ≠ MLX5E_QOS_QID_INNER ∧ ∃ n ∈ h.nodes, f n = q)
    (hbound : ∀ q, h'.usedQids q = true → q < h.maxLeafNodes) : Tree h' := by
  refine ⟨⟨?_, ?_, ?_, ?_, ?_, ?_, ?_, ?_, ?_, ?_, ?_, ?_, ?_, ?_, ?_, ?_⟩, ?_⟩ <;>
    simp only [hnodes, hnode, helem, hfresh, hmax]
  · exact t.nodup
  · exact t.fresh
  · exact t.classid
  · exact t.top
  · exact t.parent
  · exact t.older
  · exact t.ceil
  · exact t.hw
  · exact t.hwUsed
  · exact t.elem
  · exact hinner
  · exact htop
  · exact hinj
  · exact hused
  · exact hbound
  · exact t.max
  · exact t.share

/-- A leaf gives its queue up. -/
def Htb.retire (h : Htb) (n : ℕ) : Htb :=
  (h.setNode n { h.node n with qid := MLX5E_QOS_QID_INNER }).setBit (h.node n).qid false

/-- A node gets a queue. -/
def Htb.enqueue (h : Htb) (n q : ℕ) : Htb :=
  (h.setBit q true).setNode n { h.node n with qid := q }

theorem retire_node (h : Htb) (n m : ℕ) : (h.retire n).node m =
    { h.node m with qid := if m = n then MLX5E_QOS_QID_INNER else (h.node m).qid } := by
  rcases eq_or_ne m n with rfl | hne
  · simp [Htb.retire, Htb.setNode, Htb.setBit]
  · simp [Htb.retire, Htb.setNode, Htb.setBit, hne]

theorem enqueue_node (h : Htb) (n q m : ℕ) : (h.enqueue n q).node m =
    { h.node m with qid := if m = n then q else (h.node m).qid } := by
  rcases eq_or_ne m n with rfl | hne
  · simp [Htb.enqueue, Htb.setNode]
  · simp [Htb.enqueue, Htb.setNode, Htb.setBit, hne]

theorem setBit_used (h : Htb) (q r : ℕ) (b : Bool) :
    (h.setBit q b).usedQids r = if r = q then b else h.usedQids r := by
  rcases eq_or_ne r q with rfl | hne
  · simp [Htb.setBit]
  · simp [Htb.setBit, hne]

/-- Where one node's queue changes, the others' queues are the same. -/
theorem exists_qid_congr {f : ℕ → ℕ} {r : ℕ} (hf : f n ≠ r) (hr : (h.node n).qid ≠ r)
    (hsame : ∀ m, m ≠ n → f m = (h.node m).qid) :
    (∃ m ∈ h.nodes, (h.node m).qid = r) ↔ ∃ m ∈ h.nodes, f m = r := by
  refine exists_congr fun m => and_congr_right fun _ => ?_
  rcases eq_or_ne m n with rfl | hne
  · exact iff_of_false hr hf
  · rw [hsame m hne]

theorem Tree.retire (t : Tree h) (hn : n ∈ h.nodes) : Tree (h.retire n) := by
  refine t.requeue rfl (retire_node h n) rfl rfl rfl (fun m hm p hp => ?_) (fun m hm hp => ?_)
    (fun i hi m hm hne heq => ?_) (fun q => ?_) fun q hq => ?_
  · split_ifs
    · rfl
    · exact t.inner m hm p hp
  · split_ifs
    · rfl
    · exact t.topInner m hm hp
  · split_ifs at hne heq with h₁ h₂ h₂
    · exact absurd rfl hne
    · exact absurd rfl hne
    · exact absurd heq hne
    · exact t.qid i hi m hm hne heq
  · change ((h.setNode n _).setBit (h.node n).qid false).usedQids q = true ↔ _
    rw [setBit_used]
    rcases eq_or_ne q (h.node n).qid with rfl | hq
    · rw [if_pos rfl]
      refine ⟨nofun, ?_⟩
      rintro ⟨hne, m, hm, heq⟩
      split_ifs at heq with hmn
      · exact absurd heq.symm hne
      · exact absurd (t.qid m hm n hn (heq ▸ hne) heq) hmn
    · rw [if_neg hq]
      refine (t.used q).trans (and_congr_right fun hne => ?_)
      exact exists_qid_congr (by rw [if_pos rfl]; exact hne.symm) hq.symm fun m hm => if_neg hm
  · change ((h.setNode n _).setBit (h.node n).qid false).usedQids q = true at hq
    rw [setBit_used] at hq
    split_ifs at hq
    exact t.bound q hq

/-- A number that is free is no node's. -/
theorem Tree.free_qid (t : Tree h) (hq : h.usedQids q = false) (hb : q < h.maxLeafNodes) :
    q ≠ MLX5E_QOS_QID_INNER ∧ ∀ m ∈ h.nodes, (h.node m).qid ≠ q := by
  have hqi : q ≠ MLX5E_QOS_QID_INNER := by
    have hmax := t.max
    unfold MLX5E_QOS_MAX_LEAF_NODES at hmax
    unfold MLX5E_QOS_QID_INNER
    omega
  refine ⟨hqi, fun m hm heq => ?_⟩
  have := (t.used q).2 ⟨hqi, m, hm, heq⟩
  rw [hq] at this
  exact nomatch this

theorem Tree.enqueue (t : Tree h) (hn : n ∈ h.nodes) (hp : (h.node n).parent ≠ none)
    (hl : (h.node n).qid = MLX5E_QOS_QID_INNER)
    (hc : ∀ m ∈ h.nodes, (h.node m).parent ≠ some n) (hq : h.usedQids q = false)
    (hb : q < h.maxLeafNodes) : Tree (h.enqueue n q) := by
  obtain ⟨hqi, hfree⟩ := t.free_qid hq hb
  refine t.requeue rfl (enqueue_node h n q) rfl rfl rfl (fun m hm p hpar => ?_)
    (fun m hm hpar => ?_) (fun i hi m hm hne heq => ?_) (fun r => ?_) fun r hr => ?_
  · have hpn : p ≠ n := by
      rintro rfl
      exact hc m hm hpar
    rw [if_neg hpn]
    exact t.inner m hm p hpar
  · have hmn : m ≠ n := by
      rintro rfl
      exact hp hpar
    rw [if_neg hmn]
    exact t.topInner m hm hpar
  · split_ifs at hne heq with h₁ h₂ h₂
    · exact h₁.trans h₂.symm
    · exact absurd heq.symm (hfree m hm)
    · exact absurd heq (hfree i hi)
    · exact t.qid i hi m hm hne heq
  · change (h.setBit q true).usedQids r = true ↔ _
    rw [setBit_used]
    rcases eq_or_ne r q with rfl | hr
    · rw [if_pos rfl]
      exact ⟨fun _ => ⟨hqi, n, hn, if_pos rfl⟩, fun _ => rfl⟩
    · rw [if_neg hr]
      refine (t.used r).trans (and_congr_right fun hne => ?_)
      exact exists_qid_congr (by rw [if_pos rfl]; exact hr.symm) (by rw [hl]; exact hne.symm)
        fun m hm => if_neg hm
  · change (h.setBit q true).usedQids r = true at hr
    rw [setBit_used] at hr
    split_ifs at hr with heq
    · exact heq ▸ hb
    · exact t.bound r hr

/-- An element for a node, under the element of another. -/
def Htb.elemUnder (h : Htb) (n p : ℕ) (inner : Bool) : Elem :=
  { parentId := (h.node p).hwId, inner := inner, bwShare := (h.node n).bwShare,
    maxAvgBw := (h.node n).maxAverageBw }

/-- A leaf gets another element, made under the element of its parent. -/
def Htb.rehome (h : Htb) (n p : ℕ) (inner : Bool) (id : ℕ) : Htb :=
  (h.createElem id (h.elemUnder n p inner)).setNode n { h.node n with hwId := id }

theorem rehome_node (h : Htb) (n p : ℕ) (inner : Bool) (id m : ℕ) : (h.rehome n p inner id).node m =
    { h.node m with hwId := if m = n then id else (h.node m).hwId } := by
  rcases eq_or_ne m n with rfl | hne
  · simp [Htb.rehome, Htb.setNode]
  · simp [Htb.rehome, Htb.setNode, Htb.createElem, hne]

theorem Shape.ne_new (t : Shape h) (hid : h.elem id = none) (hm : m ∈ h.nodes) :
    (h.node m).hwId ≠ id := by
  rintro rfl
  exact t.hwUsed m hm hid

theorem Tree.rehome (t : Tree h) (hn : n ∈ h.nodes) (hp : (h.node n).parent = some p)
    (hc : ∀ m ∈ h.nodes, (h.node m).parent ≠ some n) (inner : Bool) (hid : h.elem id = none) :
    Tree (h.rehome n p inner id) := by
  have helem : ∀ i, (h.rehome n p inner id).elem i =
      if i = id then some (h.elemUnder n p inner) else h.elem i := fun i => by
    rcases eq_or_ne i id with rfl | hne
    · simp [Htb.rehome, Htb.setNode, Htb.createElem]
    · simp [Htb.rehome, Htb.setNode, Htb.createElem, hne]
  have hself : ∀ m ∈ h.nodes, ∀ r, (h.node m).parent = some r → r ≠ n := fun m hm r hr => by
    rintro rfl
    exact hc m hm hr
  refine ⟨⟨t.nodup, t.fresh, ?_, ?_, ?_, ?_, ?_, ?_, ?_, ?_, ?_, ?_, ?_, ?_, t.bound, t.max⟩,
    ?_⟩ <;>
    simp only [rehome_node]
  · exact t.classid
  · exact t.top
  · exact t.parent
  · exact t.older
  · exact t.ceil
  · intro i hi m hm heq
    split_ifs at heq with h₁ h₂ h₂
    · exact h₁.trans h₂.symm
    · exact absurd heq.symm (t.ne_new hid hm)
    · exact absurd heq (t.ne_new hid hi)
    · exact t.hw i hi m hm heq
  · intro i hi
    rw [helem]
    split_ifs with h₁ h₂
    · nofun
    · exact absurd rfl h₂
    · nofun
    · exact t.hwUsed i hi
  · intro i hi r hr
    rw [if_neg (hself i hi r hr), helem]
    rcases eq_or_ne i n with rfl | hne
    · obtain rfl := Option.some.inj (hp.symm.trans hr)
      exact ⟨inner, by rw [if_pos rfl, if_pos rfl]; rfl⟩
    · rw [if_neg hne, if_neg (t.ne_new hid hi)]
      exact t.elem i hi r hr
  · exact t.inner
  · exact t.topInner
  · exact t.qid
  · exact t.used
  · exact t.share

/-- A leaf that has no children is deleted. -/
theorem Tree.delete (t : Tree h) (hc : ∀ m ∈ h.nodes, (h.node m).parent ≠ some n)
    (hn : n ∈ h.nodes) : Tree (mlx5eHtbNodeDelete h n) := by
  have hnodes : (mlx5eHtbNodeDelete h n).nodes = h.nodes.erase n := by
    unfold mlx5eHtbNodeDelete
    dsimp only
    split_ifs <;> rfl
  have hnode : (mlx5eHtbNodeDelete h n).node = h.node ∧
      (mlx5eHtbNodeDelete h n).elem = h.elem ∧ (mlx5eHtbNodeDelete h n).fresh = h.fresh ∧
      (mlx5eHtbNodeDelete h n).maxLeafNodes = h.maxLeafNodes := by
    unfold mlx5eHtbNodeDelete
    dsimp only
    split_ifs <;> exact ⟨rfl, rfl, rfl, rfl⟩
  have hused : ∀ q, (mlx5eHtbNodeDelete h n).usedQids q = true ↔
      h.usedQids q = true ∧ q ≠ (h.node n).qid := fun q => by
    unfold mlx5eHtbNodeDelete
    dsimp only
    split_ifs with hq
    · rw [setBit_used]
      split_ifs with heq
      · simp [heq]
      · simp [heq]
    · rw [not_not] at hq
      rw [hq]
      exact ⟨fun hu => ⟨hu, t.lt_inner hu⟩, fun hu => hu.1⟩
  have hsub : ∀ m ∈ h.nodes.erase n, m ∈ h.nodes ∧ m ≠ n := fun m hm =>
    ⟨List.mem_of_mem_erase hm, (t.nodup.mem_erase_iff.1 hm).1⟩
  refine ⟨⟨?_, ?_, ?_, ?_, ?_, ?_, ?_, ?_, ?_, ?_, ?_, ?_, ?_, ?_, ?_, ?_⟩, ?_⟩ <;>
    simp only [hnodes, hnode.1, hnode.2.1, hnode.2.2.1, hnode.2.2.2]
  · exact t.nodup.erase n
  · exact fun m hm => t.fresh m (hsub m hm).1
  · exact fun i hi m hm => t.classid i (hsub i hi).1 m (hsub m hm).1
  · exact fun m hm => t.top m (hsub m hm).1
  · intro m hm p hp
    have hpn : p ≠ n := by
      rintro rfl
      exact hc m (hsub m hm).1 hp
    exact (List.mem_erase_of_ne hpn).2 (t.parent m (hsub m hm).1 p hp)
  · exact fun m hm => t.older m (hsub m hm).1
  · exact fun m hm => t.ceil m (hsub m hm).1
  · exact fun i hi m hm => t.hw i (hsub i hi).1 m (hsub m hm).1
  · exact fun m hm => t.hwUsed m (hsub m hm).1
  · exact fun m hm => t.elem m (hsub m hm).1
  · exact fun m hm => t.inner m (hsub m hm).1
  · exact fun m hm => t.topInner m (hsub m hm).1
  · exact fun i hi m hm => t.qid i (hsub i hi).1 m (hsub m hm).1
  · intro q
    rw [hused, t.used, and_assoc]
    refine and_congr_right fun hne => ?_
    constructor
    · rintro ⟨⟨m, hm, rfl⟩, hq⟩
      refine ⟨m, (t.nodup.mem_erase_iff).2 ⟨?_, hm⟩, rfl⟩
      rintro rfl
      exact hq rfl
    · rintro ⟨m, hm, rfl⟩
      exact ⟨⟨m, (hsub m hm).1, rfl⟩, fun heq =>
        (hsub m hm).2 (t.qid m (hsub m hm).1 n hn hne heq)⟩
  · exact fun q hq => t.bound q ((hused q).1 hq).1
  · exact t.max
  · exact fun m hm => t.share m (hsub m hm).1

/-- A new leaf under an inner node, with a queue that is free. -/
def Htb.addLeaf (h : Htb) (classid q p rate ceil id : ℕ) : Htb :=
  let v : Node := { parent := some p, rate := rate
                    bwShare := bwShareOf rate (h.node p).maxAverageBw
                    maxAverageBw := mlx5eHtbConvertCeil ceil, hwId := id, classid := classid
                    qid := q }
  { h.setBit q true with
    nodes := h.fresh :: h.nodes
    node := update h.node h.fresh v
    fresh := h.fresh + 1
    elem := update h.elem id
      (some { parentId := (h.node p).hwId, inner := false, bwShare := v.bwShare
              maxAvgBw := v.maxAverageBw }) }

section AddLeaf
variable {classid rate ceil : ℕ} (t : Tree h) (hd : h.addLeaf classid q p rate ceil id = h')
include t hd

/-- The nodes of the new tree are the leaf and the old ones as they were. -/
theorem Tree.added_cases (hm : m ∈ h'.nodes) : m = h.fresh ∨ m ∈ h.nodes ∧ h'.node m = h.node m := by
  rw [← hd] at hm ⊢
  exact (List.mem_cons.1 hm).imp_right fun hm => ⟨hm, update_of_ne (t.fresh m hm).ne ..⟩

theorem Tree.added_old (hm : m ∈ h.nodes) : m ∈ h'.nodes ∧ h'.node m = h.node m := by
  rw [← hd]
  exact ⟨List.mem_cons_of_mem _ hm, update_of_ne (t.fresh m hm).ne ..⟩

/-- A parent is an old node: the leaf's own, or that of an old node. -/
theorem Tree.added_parent (hp : p ∈ h.nodes) (hm : m ∈ h'.nodes) {r : ℕ}
    (hr : (h'.node m).parent = some r) : r ∈ h.nodes ∧ h'.node r = h.node r ∧
      (m = h.fresh ∧ r = p ∨ m ∈ h.nodes ∧ h'.node m = h.node m ∧ (h.node m).parent = some r) := by
  rcases t.added_cases hd hm with rfl | ⟨hm, heq⟩
  · have hself : (h'.node h.fresh).parent = some p := by
      rw [← hd]
      exact congrArg Node.parent (update_self h.fresh _ h.node)
    obtain rfl := Option.some.inj (hself.symm.trans hr)
    exact ⟨hp, (t.added_old hd hp).2, .inl ⟨rfl, rfl⟩⟩
  · rw [heq] at hr
    have hrn := t.parent m hm r hr
    exact ⟨hrn, (t.added_old hd hrn).2, .inr ⟨hm, heq, hr⟩⟩

/-- What tells the old nodes apart tells all apart if the leaf's value is new. -/
theorem Tree.added_inj {α : Type} (g : Node → α) {P : α → Prop}
    (hnew : ∀ m ∈ h.nodes, g (h.node m) ≠ g (h'.node h.fresh))
    (hinj : ∀ n ∈ h.nodes, ∀ m ∈ h.nodes, P (g (h.node n)) → g (h.node n) = g (h.node m) → n = m) :
    ∀ n ∈ h'.nodes, ∀ m ∈ h'.nodes, P (g (h'.node n)) → g (h'.node n) = g (h'.node m) → n = m := by
  intro i hi m hm hP heq
  rcases t.added_cases hd hi with rfl | ⟨hi, hoi⟩
  · rcases t.added_cases hd hm with rfl | ⟨hm, hom⟩
    · rfl
    · rw [hom] at heq
      exact absurd heq.symm (hnew m hm)
  · rw [hoi] at hP heq
    rcases t.added_cases hd hm with rfl | ⟨hm, hom⟩
    · exact absurd heq (hnew i hi)
    · rw [hom] at heq
      exact hinj i hi m hm hP heq

theorem Tree.added_used (hq : q ≠ MLX5E_QOS_QID_INNER) (r : ℕ) : h'.usedQids r = true ↔
    r ≠ MLX5E_QOS_QID_INNER ∧ ∃ n ∈ h'.nodes, (h'.node n).qid = r := by
  have hself : (h'.node h.fresh).qid = q := by
    rw [← hd]
    exact congrArg Node.qid (update_self h.fresh _ h.node)
  have hused : h'.usedQids r = (h.setBit q true).usedQids r := by rw [← hd]; rfl
  rw [hused, setBit_used]
  rcases eq_or_ne r q with rfl | hr
  · rw [if_pos rfl]
    exact ⟨fun _ => ⟨hq, h.fresh, hd ▸ List.mem_cons_self .., hself⟩, fun _ => rfl⟩
  · rw [if_neg hr]
    refine (t.used r).trans (and_congr_right fun _ => ?_)
    constructor
    · rintro ⟨m, hm, rfl⟩
      obtain ⟨hm', heq⟩ := t.added_old hd hm
      exact ⟨m, hm', by rw [heq]⟩
    · rintro ⟨m, hm, rfl⟩
      rcases t.added_cases hd hm with rfl | ⟨hm, heq⟩
      · exact absurd hself hr
      · exact ⟨m, hm, by rw [heq]⟩

end AddLeaf

theorem Tree.addLeaf (t : Tree h) {classid : ℕ} (rate ceil : ℕ) (hp : p ∈ h.nodes)
    (hpq : (h.node p).qid = MLX5E_QOS_QID_INNER)
    (hcl : ∀ m ∈ h.nodes, (h.node m).classid ≠ classid) (hcr : classid ≠ MLX5E_HTB_CLASSID_ROOT)
    (hq : h.usedQids q = false) (hb : q < h.maxLeafNodes) (hid : h.elem id = none) :
    Tree (h.addLeaf classid q p rate ceil id) := by
  obtain ⟨hqi, hfree⟩ := t.free_qid hq hb
  generalize hd : h.addLeaf classid q p rate ceil id = h'
  have hself : h'.node h.fresh =
      { parent := some p, rate := rate, bwShare := bwShareOf rate (h.node p).maxAverageBw,
        maxAverageBw := mlx5eHtbConvertCeil ceil, hwId := id, classid := classid, qid := q } := by
    rw [← hd]
    exact update_self h.fresh _ h.node
  have helem : ∀ m ∈ h.nodes, h'.elem (h.node m).hwId = h.elem (h.node m).hwId := fun m hm => by
    rw [← hd]
    exact update_of_ne (t.ne_new hid hm) ..
  have helemSelf : h'.elem id = some { parentId := (h.node p).hwId, inner := false,
                                       bwShare := bwShareOf rate (h.node p).maxAverageBw,
                                       maxAvgBw := mlx5eHtbConvertCeil ceil } := by
    rw [← hd]
    exact update_self id _ h.elem
  have hused := t.added_used hd hqi
  have hcases := fun {m} (hm : m ∈ h'.nodes) => t.added_cases hd hm
  have hparent := fun {m} (hm : m ∈ h'.nodes) {r} => t.added_parent hd hp hm (r := r)
  refine ⟨⟨?_, fun m hm => ?_, ?_, fun m hm => ?_, fun m hm r hr => ?_, fun m hm r hr => ?_,
    fun m hm hne => ?_, ?_, fun m hm => ?_, fun m hm r hr => ?_, fun m hm r hr => ?_,
    fun m hm hnone => ?_, ?_, hused, fun r hr => ?_, hd ▸ t.max⟩, fun m hm r hr => ?_⟩
  · rw [← hd]
    exact List.nodup_cons.2 ⟨fun hin => absurd (t.fresh _ hin) (lt_irrefl _), t.nodup⟩
  · have hnext : h'.fresh = h.fresh + 1 := by rw [← hd]; rfl
    rcases hcases hm with rfl | ⟨hm, -⟩
    · omega
    · have := t.fresh m hm
      omega
  · exact fun i hi m hm => t.added_inj hd (·.classid) (P := fun _ => True) (by rwa [hself])
      (fun i hi m hm _ => t.classid i hi m hm) i hi m hm trivial
  · rcases hcases hm with rfl | ⟨hm, heq⟩
    · rw [hself]
      exact ⟨nofun, fun heq => absurd heq hcr⟩
    · rw [heq]
      exact t.top m hm
  · exact (t.added_old hd (hparent hm hr).1).1
  · obtain ⟨hrn, -, ⟨rfl, -⟩ | ⟨hm, -, hr⟩⟩ := hparent hm hr
    · exact t.fresh r hrn
    · exact t.older m hm r hr
  · rcases hcases hm with rfl | ⟨hm, heq⟩
    · rw [hself]
      exact (Nat.lt_of_lt_of_le Nat.one_pos (le_max_right _ _)).ne'
    · rw [heq] at hne ⊢
      exact t.ceil m hm hne
  · exact fun i hi m hm => t.added_inj hd (·.hwId) (P := fun _ => True)
      (by rw [hself]; exact fun m hm => t.ne_new hid hm) (fun i hi m hm _ => t.hw i hi m hm) i hi m hm
      trivial
  · rcases hcases hm with rfl | ⟨hm, heq⟩
    · rw [hself, helemSelf]
      nofun
    · rw [heq, helem m hm]
      exact t.hwUsed m hm
  · obtain ⟨-, hre, ⟨rfl, rfl⟩ | ⟨hm, heq, hr⟩⟩ := hparent hm hr
    · rw [hre, hself]
      exact ⟨false, helemSelf⟩
    · rw [hre, heq, helem m hm]
      exact t.elem m hm r hr
  · obtain ⟨-, hre, ⟨-, rfl⟩ | ⟨hm, -, hr⟩⟩ := hparent hm hr
    · rw [hre, hpq]
    · rw [hre]
      exact t.inner m hm r hr
  · rcases hcases hm with rfl | ⟨hm, heq⟩
    · rw [hself] at hnone
      exact nomatch hnone
    · rw [heq] at hnone ⊢
      exact t.topInner m hm hnone
  · exact t.added_inj hd (·.qid) (P := (· ≠ MLX5E_QOS_QID_INNER)) (by rwa [hself]) t.qid
  · have hr' : (h.setBit q true).usedQids r = true := by
      rw [← hd] at hr
      exact hr
    have hmax : h'.maxLeafNodes = h.maxLeafNodes := by rw [← hd]; rfl
    rw [setBit_used] at hr'
    rw [hmax]
    split_ifs at hr' with heq
    · exact heq ▸ hb
    · exact t.bound r hr'
  · obtain ⟨-, hre, ⟨rfl, rfl⟩ | ⟨hm, heq, hr⟩⟩ := hparent hm hr
    · rw [hre, hself]
    · rw [hre, heq]
      exact t.share m hm r hr

/-- The last bit that is set among the first `m`. -/
theorem findLast_spec (f : ℕ → Bool) : ∀ m : ℕ, match (range m).reverse.find? f with
    | none => ∀ q < m, f q = false
    | some l => l < m ∧ f l = true ∧ ∀ q, l < q → q < m → f q = false
  | 0 => fun q hq => absurd hq (Nat.not_lt_zero q)
  | m + 1 => by
    have ih := findLast_spec f m
    rw [List.range_succ, List.reverse_append, List.reverse_singleton, List.singleton_append,
      List.find?_cons]
    rcases hf : f m with _ | _
    · rcases hl : (range m).reverse.find? f with _ | l
      · rw [hl] at ih
        intro q hq
        rcases Nat.lt_succ_iff_lt_or_eq.1 hq with hq | rfl
        · exact ih q hq
        · exact hf
      · rw [hl] at ih
        refine ⟨ih.1.trans (Nat.lt_succ_self m), ih.2.1, fun q hlq hq => ?_⟩
        rcases Nat.lt_succ_iff_lt_or_eq.1 hq with hq | rfl
        · exact ih.2.2 q hlq hq
        · exact hf
    · exact ⟨Nat.lt_succ_self m, hf, fun q hlq hq => absurd hq (by omega)⟩

/-- The number of leaves is read off the highest queue. -/
theorem curLeafNodes_eq (hlt : ∀ q, h.usedQids q = true → q < k)
    (htop : k = 0 ∨ h.usedQids (k - 1) = true) (hk : k ≤ h.maxLeafNodes) :
    mlx5eHtbCurLeafNodes h = k := by
  have hspec := findLast_spec (fun q => h.usedQids q) h.maxLeafNodes
  unfold mlx5eHtbCurLeafNodes
  rcases hl : (range h.maxLeafNodes).reverse.find? fun q => h.usedQids q with _ | l
  · rw [hl] at hspec
    rcases htop with rfl | htop
    · rfl
    · rcases k with _ | k
      · rfl
      · have := hspec k hk
        rw [Nat.add_sub_cancel] at htop
        rw [htop] at this
        exact nomatch this
  · rw [hl] at hspec
    obtain ⟨hlm, hul, hmax⟩ := hspec
    have hlk := hlt l hul
    rcases htop with rfl | htop
    · exact absurd hlk (Nat.not_lt_zero l)
    · by_contra hne
      change l + 1 ≠ k at hne
      have := hmax (k - 1) (by omega) (by omega)
      rw [htop] at this
      exact nomatch this

theorem Inv.le_max (i : Inv h k) : k ≤ h.maxLeafNodes := by
  by_contra hlt
  exact absurd (i.tree.bound _ ((i.upTo h.maxLeafNodes).2 (by omega))) (lt_irrefl _)

theorem Inv.free (i : Inv h k) : h.usedQids k = false := by
  rw [← Bool.not_eq_true, i.upTo k]
  exact lt_irrefl k

/-- The first free number is the number of leaves. -/
theorem Inv.findUnused (i : Inv h k) :
    mlx5eHtbFindUnusedQosQid h = if k < h.maxLeafNodes then some k else none := by
  have hfree := i.free
  unfold mlx5eHtbFindUnusedQosQid
  split_ifs with hlt
  · rw [List.find?_range_eq_some]
    refine ⟨by simp [hfree], List.mem_range.2 hlt, fun j hj => ?_⟩
    simp [(i.upTo j).2 hj]
  · rw [List.find?_range_eq_none]
    intro j hj
    simp [(i.upTo j).2 (by omega)]

/-- The number of leaves. -/
theorem Inv.card (i : Inv h k) :
    (h.leaves.map fun n => (h.node n).qid).Perm (range k) ∧ h.leaves.length = k := by
  have hnd : (h.leaves.map fun n => (h.node n).qid).Nodup := by
    refine List.Nodup.map_on ?_ (i.tree.nodup.filter _)
    intro n hn m hm heq
    have hn' := List.mem_filter.1 hn
    have hm' := List.mem_filter.1 hm
    exact i.tree.qid n hn'.1 m hm'.1 (by simpa using hn'.2) heq
  have hperm : (h.leaves.map fun n => (h.node n).qid).Perm (range k) := by
    refine (List.perm_ext_iff_of_nodup hnd (List.nodup_range)).2 fun q => ?_
    rw [List.mem_range, ← i.upTo q, i.tree.used q, List.mem_map]
    constructor
    · rintro ⟨n, hn, rfl⟩
      have hn' := List.mem_filter.1 hn
      exact ⟨by simpa using hn'.2, n, hn'.1, rfl⟩
    · rintro ⟨hq, n, hn, rfl⟩
      exact ⟨n, List.mem_filter.2 ⟨hn, by simpa using hq⟩, rfl⟩
  refine ⟨hperm, ?_⟩
  have := hperm.length_eq
  rwa [List.length_map, List.length_range] at this

theorem Inv.sound (i : Inv h k) : Sound h := by
  obtain ⟨hperm, hlen⟩ := i.card
  refine ⟨?_, ?_, i.tree.classid, i.tree.hw, fun n hn hc => ?_⟩
  · rw [hlen]
    exact hperm
  · rw [hlen]
    exact i.upTo
  · rcases hp : (h.node n).parent with _ | p
    · exact absurd ((i.tree.top n hn).1 hp) hc
    · exact ⟨p, i.tree.parent n hn p hp, rfl, i.tree.share n hn p hp, i.tree.elem n hn p hp⟩

theorem inv_start (hs : Start h n) : Inv h 0 := by
  have hmem : ∀ m ∈ h.nodes, m = n := fun m hm => by
    rw [hs.nodes] at hm
    exact List.mem_singleton.1 hm
  have hnone : (h.node n).parent = none := by rw [hs.rootNode]
  have hqid : (h.node n).qid = MLX5E_QOS_QID_INNER := by rw [hs.rootNode]
  refine ⟨⟨⟨?_, ?_, ?_, ?_, ?_, ?_, ?_, ?_, ?_, ?_, ?_, ?_, ?_, ?_, ?_, hs.max⟩, ?_⟩, fun q => ?_⟩
  · rw [hs.nodes]
    exact List.nodup_singleton n
  · exact fun m hm => hmem m hm ▸ hs.fresh
  · exact fun i hi m hm _ => (hmem i hi).trans (hmem m hm).symm
  · intro m hm
    rw [hmem m hm, hs.rootNode]
    simp
  · intro m hm p hp
    rw [hmem m hm, hnone] at hp
    exact nomatch hp
  · intro m hm p hp
    rw [hmem m hm, hnone] at hp
    exact nomatch hp
  · intro m hm hne
    rw [hmem m hm] at hne
    exact absurd hnone hne
  · exact fun i hi m hm _ => (hmem i hi).trans (hmem m hm).symm
  · exact fun m hm => hmem m hm ▸ hs.elem
  · intro m hm p hp
    rw [hmem m hm, hnone] at hp
    exact nomatch hp
  · intro m hm p hp
    rw [hmem m hm, hnone] at hp
    exact nomatch hp
  · exact fun m hm _ => hmem m hm ▸ hqid
  · exact fun i hi m hm _ _ => (hmem i hi).trans (hmem m hm).symm
  · intro q
    rw [hs.used q]
    refine ⟨nofun, ?_⟩
    rintro ⟨hne, m, hm, rfl⟩
    rw [hmem m hm] at hne
    exact absurd hqid hne
  · intro q hq
    rw [hs.used q] at hq
    exact nomatch hq
  · intro m hm p hp
    rw [hmem m hm, hnone] at hp
    exact nomatch hp
  · rw [hs.used q]
    simp

/-- A node with a ceiling, or the root, is where the loop ends at once. -/
theorem ceilNode_self (h : Htb)
    (hp : (h.node p).classid = MLX5E_HTB_CLASSID_ROOT ∨ (h.node p).maxAverageBw ≠ 0) :
    ∀ k, ceilNode h k p = p
  | 0 => rfl
  | k + 1 => by
    unfold ceilNode
    rw [if_neg]
    rintro ⟨hc, hz⟩
    rcases hp with hp | hp
    · exact hc hp
    · exact hp hz

/-- The share is computed from the ceiling of the parent. -/
theorem convertRate_eq (rate : ℕ)
    (hp : (h.node p).classid = MLX5E_HTB_CLASSID_ROOT ∨ (h.node p).maxAverageBw ≠ 0) :
    mlx5eHtbConvertRate h rate p = bwShareOf rate (h.node p).maxAverageBw := by
  unfold mlx5eHtbConvertRate
  rw [ceilNode_self h hp]

theorem Shape.hasCeil (t : Shape h) (hp : p ∈ h.nodes) :
    (h.node p).classid = MLX5E_HTB_CLASSID_ROOT ∨ (h.node p).maxAverageBw ≠ 0 := by
  rcases hr : (h.node p).parent with _ | r
  · exact .inl ((t.top p hp).1 hr)
  · exact .inr (t.ceil p hp (by rw [hr]; nofun))

theorem nodeFind_spec {classid : ℕ} (hf : mlx5eHtbNodeFind h classid = some n) :
    n ∈ h.nodes ∧ (h.node n).classid = classid :=
  ⟨List.mem_of_find?_eq_some hf, by simpa using List.find?_some hf⟩

theorem nodeFind_none {classid : ℕ} (hf : mlx5eHtbNodeFind h classid = none) :
    ∀ m ∈ h.nodes, (h.node m).classid ≠ classid := by
  simpa [mlx5eHtbNodeFind] using hf

theorem Same.of_eq (heq : h = h') : Same h h' := heq ▸ Same.refl h

theorem openQosSq_same (h : Htb) (n : ℕ) (e : Env) : Same h (openQosSq h n e) := by
  unfold openQosSq
  split_ifs
  · exact ⟨rfl, fun _ _ => rfl, fun _ => rfl, fun _ _ => rfl, le_rfl, rfl⟩
  · exact Same.refl h

theorem reactivate_same (h : Htb) (txq : ℕ) : Same h (mlx5eReactivateQosSq h txq) := by
  unfold mlx5eReactivateQosSq
  split_ifs
  · exact ⟨rfl, fun _ _ => rfl, fun _ => rfl, fun _ _ => rfl, le_rfl, rfl⟩
  · exact Same.refl h

/-- A node that is made and deleted again leaves the tree as it was. -/
theorem Shape.createDelete (t : Shape h) (classid p : ℕ) (v : Node) {q : ℕ}
    (hv : v.qid = q) (hq : h.usedQids q = false) (hqi : q ≠ MLX5E_QOS_QID_INNER) :
    Same h (mlx5eHtbNodeDelete
      ((mlx5eHtbNodeCreateLeaf h classid q p).setNode h.fresh v) h.fresh) := by
  have hqid :
      (((mlx5eHtbNodeCreateLeaf h classid q p).setNode h.fresh v).node h.fresh).qid = q := by
    simp [Htb.setNode, hv]
  unfold mlx5eHtbNodeDelete
  rw [hqid]
  rw [if_pos hqi]
  refine ⟨List.erase_cons_head .., fun m hm => ?_, fun r => ?_, fun m hm => rfl, Nat.le_succ _, rfl⟩
  · have hne : m ≠ h.fresh := (t.fresh m hm).ne
    simp [Htb.setNode, Htb.setBit, mlx5eHtbNodeCreateLeaf, hne]
  · rw [setBit_used]
    split_ifs with hr
    · rw [hr, hq]
    · change (h.setBit q true).usedQids r = h.usedQids r
      rw [setBit_used, if_neg hr]

/-- A step keeps the invariant; where it returns an error the tree is as before. -/
structure StepOk (h : Htb) (r : Htb × Option Errno) : Prop where
  inv : ∃ k, Inv r.1 k
  error : r.2 ≠ none → Same h r.1

theorem Inv.stepSame (i : Inv h k) (s : Same h h') (err : Option Errno) : StepOk h (h', err) :=
  ⟨⟨k, i.same s⟩, fun _ => s⟩

/-- A step of `mlx5e_htb_leaf_alloc_queue`. -/
theorem Inv.leafAllocQueue (i : Inv h k) {classid parentClassid : ℕ} (rate ceil : ℕ)
    (ho : ok h (.leafAllocQueue classid parentClassid rate ceil e)) :
    StepOk h (run h (.leafAllocQueue classid parentClassid rate ceil e)) := by
  obtain ⟨⟨-, hleaf⟩, hnew, hroot, hinner⟩ := ho
  unfold run mlx5eHtbLeafAllocQueue
  dsimp only
  rw [i.findUnused]
  by_cases hk : k < h.maxLeafNodes
  swap
  · rw [if_neg hk]
    exact i.stepSame (Same.refl h) _
  rw [if_pos hk]
  rcases hfp : mlx5eHtbNodeFind h parentClassid with _ | p
  · exact i.stepSame (Same.refl h) _
  dsimp only
  split_ifs with hmem
  · exact i.stepSame (Same.refl h) _
  obtain ⟨hp, -⟩ := nodeFind_spec hfp
  have hpf : p ≠ h.fresh := (i.tree.fresh p hp).ne
  have hnode : (mlx5eHtbNodeCreateLeaf h classid k p).node p = h.node p :=
    update_of_ne hpf ..
  have hconv : mlx5eHtbConvertRate (mlx5eHtbNodeCreateLeaf h classid k p) rate p =
      bwShareOf rate (h.node p).maxAverageBw := by
    rw [convertRate_eq rate (hnode ▸ i.tree.hasCeil hp), hnode]
  rcases hid : e.fwLeaf with _ | id
  · refine i.stepSame
      (i.tree.createDelete classid p _ ?_ i.free (i.tree.free_qid i.free hk).1) _
    simp [mlx5eHtbNodeCreateLeaf]
  · have htree : Tree (h.addLeaf classid k p rate ceil id) :=
      i.tree.addLeaf rate ceil hp (by simpa [Htb.leaf] using hinner p hfp) (nodeFind_none hnew)
        hroot i.free hk (hleaf id hid).1
    have hup : Inv (h.addLeaf classid k p rate ceil id) (k + 1) := by
      refine ⟨htree, fun q => ?_⟩
      change (h.setBit k true).usedQids q = true ↔ _
      rw [setBit_used]
      split_ifs with hq
      · simp [hq]
      · rw [i.upTo q]
        omega
    refine ⟨⟨k + 1, hup.same ?_⟩, fun herr => absurd rfl herr⟩
    refine Same.trans ?_ (openQosSq_same _ h.fresh e)
    rw [hconv]
    refine Same.of_eq ?_
    simp [Htb.addLeaf, Htb.setNode, Htb.createElem, Htb.setBit, mlx5eHtbNodeCreateLeaf, hpf]

theorem closeQosSq_eq (h : Htb) (q : ℕ) : ∃ sq, closeQosSq h q = { h with sq := sq } := by
  unfold closeQosSq
  split_ifs
  · exact ⟨_, rfl⟩
  · exact ⟨h.sq, rfl⟩

theorem destroyNode_eq (h : Htb) (id : ℕ) (e : Env) :
    ∃ elem, mlx5QosDestroyNode h id e = { h with elem := elem } ∧
      ∀ i, i ≠ id → elem i = h.elem i := by
  unfold mlx5QosDestroyNode
  split_ifs
  · exact ⟨_, rfl, fun i hi => update_of_ne hi ..⟩
  · exact ⟨h.elem, rfl, fun _ _ => rfl⟩

/-- A node that goes can lose its element and its SQ first. -/
theorem nodeDelete_same (t : Shape h) (hn : n ∈ h.nodes) (sq : ℕ → Option ℕ)
    {elem : ℕ → Option Elem} (helem : ∀ i, i ≠ (h.node n).hwId → elem i = h.elem i) :
    Same (mlx5eHtbNodeDelete h n) (mlx5eHtbNodeDelete { h with sq := sq, elem := elem } n) := by
  have hne : ∀ m ∈ h.nodes.erase n, elem (h.node m).hwId = h.elem (h.node m).hwId := fun m hm => by
    refine helem _ fun heq => ?_
    have hmn := t.hw m (List.mem_of_mem_erase hm) n hn heq
    exact (t.nodup.mem_erase_iff.1 hm).1 hmn
  unfold mlx5eHtbNodeDelete
  dsimp only
  split_ifs
  · exact ⟨rfl, fun _ _ => rfl, fun _ => rfl, hne, le_rfl, rfl⟩
  · exact ⟨rfl, fun _ _ => rfl, fun _ => rfl, hne, le_rfl, rfl⟩

theorem nodeDelete_used (h : Htb) (hq : (h.node n).qid ≠ MLX5E_QOS_QID_INNER) (q : ℕ) :
    (mlx5eHtbNodeDelete h n).usedQids q = if q = (h.node n).qid then false else h.usedQids q := by
  unfold mlx5eHtbNodeDelete
  rw [if_pos hq, setBit_used]

/-- The bits of a queue that moves. -/
theorem moveQid_same (h : Htb) (n q : ℕ) (e : Env) :
    Same ((h.retire n).enqueue n q) (moveQid h n (h.node n).qid q e) := by
  obtain ⟨sq, hsq⟩ := closeQosSq_eq ((h.setNode n
    { h.node n with qid := MLX5E_QOS_QID_INNER }).setBit (h.node n).qid false) (h.node n).qid
  unfold moveQid
  dsimp only
  rw [hsq]
  refine Same.trans ?_ (reactivate_same _ _)
  refine Same.trans ?_ (openQosSq_same _ n e)
  exact ⟨rfl, fun _ _ => rfl, fun _ => rfl, fun _ _ => rfl, le_rfl, rfl⟩

theorem retire_enqueue_used (h : Htb) (n q r : ℕ) : ((h.retire n).enqueue n q).usedQids r =
    if r = q then true else if r = (h.node n).qid then false else h.usedQids r := by
  change ((h.retire n).setBit q true).usedQids r = _
  rw [setBit_used]
  refine if_congr Iff.rfl rfl ?_
  change ((h.setNode n _).setBit (h.node n).qid false).usedQids r = _
  rw [setBit_used]
  rfl

/-- What a queue that moves leaves in the net device. -/
theorem moveQid_out (h : Htb) (n moved q : ℕ) (e : Env) :
    (moveQid h n moved q e).drained = moved :: h.drained ∧ (moveQid h n moved q e).restarted =
        (if h.opened then [mlx5eQidFromQos h moved] else []) ++ h.restarted ∧
      ((moveQid h n moved q e).node n).qid = q := by
  unfold moveQid mlx5eReactivateQosSq openQosSq closeQosSq
  cases hopen : h.opened <;> cases hsq : e.sqOpen <;>
    simp [Htb.setNode, Htb.setBit, mlx5eResetQdisc, hopen, mlx5eQidFromQos]

/-- A leaf has no children. -/
theorem Shape.leaf_childless (t : Shape h) (hl : h.leaf n) :
    ∀ m ∈ h.nodes, (h.node m).parent ≠ some n := fun m hm hp => hl (t.inner m hm n hp)

/-- A leaf gets a queue that is free for its own. -/
theorem Tree.requeueLeaf (t : Tree h) (hn : n ∈ h.nodes) (hl : h.leaf n)
    (hq : h.usedQids q = false) (hb : q < h.maxLeafNodes) : Tree ((h.retire n).enqueue n q) := by
  refine (t.retire hn).enqueue hn ?_ ?_ (fun m hm => ?_) ?_ hb
  · rw [retire_node]
    exact fun hp => hl (t.topInner n hn hp)
  · rw [retire_node]
    exact if_pos rfl
  · rw [retire_node]
    exact t.leaf_childless hl m hm
  · change ((h.setNode n _).setBit (h.node n).qid false).usedQids q = false
    rw [setBit_used]
    split_ifs
    · rfl
    · exact hq

/-- What `mlx5e_htb_leaf_del` does with the leaf of the class. -/
theorem Inv.leafDel_spec (i : Inv h k) {classid : ℕ} (hf : mlx5eHtbNodeFind h classid = some n)
    (hl : h.leaf n) :
    (∃ k', Inv (mlx5eHtbLeafDel h classid e).1 k') ∧ (mlx5eHtbLeafDel h classid e).2 = none ∧
      ((h.node n).qid ≠ k - 1 → ∃ m ∈ h.nodes, (h.node m).qid = k - 1 ∧
        ((mlx5eHtbLeafDel h classid e).1.node m).qid = (h.node n).qid ∧
        (mlx5eHtbLeafDel h classid e).1.drained = (k - 1) :: h.drained ∧
        (mlx5eHtbLeafDel h classid e).1.restarted =
          (if h.opened then [mlx5eQidFromQos h (k - 1)] else []) ++ h.restarted) := by
  have hn := (nodeFind_spec hf).1
  have hq : (h.node n).qid < k := (i.upTo _).1 ((i.tree.used _).2 ⟨hl, n, hn, rfl⟩)
  have hk := i.le_max
  obtain ⟨sq, hsq⟩ := closeQosSq_eq h (h.node n).qid
  obtain ⟨elem, hdel, helem⟩ := destroyNode_eq { h with sq := sq } (h.node n).hwId e
  have hsame := nodeDelete_same i.tree.toShape hn sq helem
  have htree := i.tree.delete (i.tree.leaf_childless hl) hn
  -- the tree without the leaf
  generalize hd : mlx5eHtbNodeDelete { h with sq := sq, elem := elem } n = d at hsame
  have hdt : Tree d := htree.same hsame
  have hused : ∀ q, d.usedQids q = true ↔ q < k ∧ q ≠ (h.node n).qid := fun q => by
    rw [hsame.used q, nodeDelete_used h hl]
    split_ifs with heq
    · simp [heq]
    · rw [i.upTo q]
      simp [heq]
  have hmax : d.maxLeafNodes = h.maxLeafNodes := by
    rw [← hd]
    unfold mlx5eHtbNodeDelete
    dsimp only
    split_ifs <;> rfl
  have hrest : d.opened = h.opened ∧ d.drained = h.drained ∧ d.restarted = h.restarted ∧
      d.nodes = h.nodes.erase n ∧ d.node = h.node ∧
      ∀ q, mlx5eQidFromQos d q = mlx5eQidFromQos h q := by
    rw [← hd]
    unfold mlx5eHtbNodeDelete
    dsimp only
    split_ifs <;> exact ⟨rfl, rfl, rfl, rfl, rfl, fun _ => rfl⟩
  obtain ⟨hopen, hdrain, hres, hnodes, hnode, hqid⟩ := hrest
  unfold mlx5eHtbLeafDel
  rw [hf]
  dsimp only
  rw [hsq]
  rw [hdel]
  rw [hd]
  by_cases hlast : (h.node n).qid = k - 1
  · -- the highest queue is gone
    have hcur : mlx5eHtbCurLeafNodes d = k - 1 := by
      refine curLeafNodes_eq (fun q hu => ?_) ?_ (by omega)
      · have := (hused q).1 hu
        omega
      · rcases Nat.eq_zero_or_pos (k - 1) with hz | hpos
        · exact .inl hz
        · exact .inr ((hused _).2 ⟨by omega, by omega⟩)
    rw [hcur, if_pos (by omega)]
    refine ⟨⟨k - 1, Inv.same ⟨hdt, fun q => ?_⟩ (reactivate_same _ _)⟩, rfl,
      fun hne => absurd hlast hne⟩
    rw [hused q]
    omega
  · have hcur : mlx5eHtbCurLeafNodes d = k :=
      curLeafNodes_eq (fun q hu => ((hused q).1 hu).1)
        (.inr ((hused _).2 ⟨by omega, fun heq => hlast heq.symm⟩)) (by omega)
    rw [hcur, if_neg (by omega)]
    have hex := ((hdt.used (k - 1)).1 ((hused _).2 ⟨by omega, fun heq => hlast heq.symm⟩)).2
    rcases hfm : mlx5eHtbNodeFindByQid d (k - 1) with _ | m
    · obtain ⟨m, hm, heq⟩ := hex
      have := List.find?_eq_none.1 hfm m hm
      simp [heq] at this
    · have hm : m ∈ d.nodes := List.mem_of_find?_eq_some hfm
      have hmq : (d.node m).qid = k - 1 := by simpa using List.find?_some hfm
      have hlm : d.leaf m := by
        rw [Htb.leaf, hmq]
        exact ((hdt.used (k - 1)).1 ((hused _).2 ⟨by omega, fun heq => hlast heq.symm⟩)).1
      have hms := moveQid_same d m (h.node n).qid e
      rw [hmq] at hms
      obtain ⟨hmdrain, hmres, hmnode⟩ := moveQid_out d m (k - 1) (h.node n).qid e
      refine ⟨⟨k - 1, Inv.same ⟨?_, fun r => ?_⟩ hms⟩, rfl, fun _ => ⟨m, ?_, ?_, hmnode, ?_, ?_⟩⟩
      · refine hdt.requeueLeaf hm hlm ?_ (by omega)
        rw [← Bool.not_eq_true, hused]
        simp
      · have hr := hused r
        rw [retire_enqueue_used, hmq]
        split_ifs with h₁ h₂
        · simp only [true_iff]
          omega
        · simp only [false_iff]
          omega
        · rw [hr]
          omega
      · rw [hnodes] at hm
        exact List.mem_of_mem_erase hm
      · rw [← hmq, hnode]
      · rw [hmdrain, hdrain]
      · rw [hmres, hres, hopen, hqid]

/-- A step of `mlx5e_htb_leaf_del`. -/
theorem Inv.leafDel (i : Inv h k) {classid : ℕ} (ho : ok h (.leafDel classid e)) :
    StepOk h (run h (.leafDel classid e)) := by
  rcases hf : mlx5eHtbNodeFind h classid with _ | n
  · have heq : run h (.leafDel classid e) = (h, some .enoent) := by
      simp [run, mlx5eHtbLeafDel, hf]
    rw [heq]
    exact i.stepSame (Same.refl h) _
  · obtain ⟨hinv, herr, -⟩ := i.leafDel_spec (e := e) hf (ho.2.2 n hf).1
    exact ⟨hinv, fun hne => absurd herr hne⟩

theorem setNode_setNode (h : Htb) (n : ℕ) (v w : Node) :
    (h.setNode n v).setNode n w = h.setNode n w := by
  simp [Htb.setNode]

theorem setNode_node (h : Htb) (n : ℕ) (v : Node) : (h.setNode n v).node n = v :=
  update_self ..

/-- Elements that no node has do not matter. -/
theorem Same.elems (h : Htb) {elem : ℕ → Option Elem}
    (helem : ∀ m ∈ h.nodes, elem (h.node m).hwId = h.elem (h.node m).hwId) :
    Same h { h with elem := elem } :=
  ⟨rfl, fun _ _ => rfl, fun _ => rfl, helem, le_rfl, rfl⟩

theorem Shape.createElem (t : Shape h) (hid : h.elem id = none) (v : Elem) :
    Same h (h.createElem id v) :=
  Same.elems h fun _ hm => update_of_ne (t.ne_new hid hm) ..

/-- An element that no node has is destroyed, or left over. -/
theorem destroyNode_same (h : Htb) (hid : ∀ m ∈ h.nodes, (h.node m).hwId ≠ id) (e : Env) :
    Same h (mlx5QosDestroyNode h id e) := by
  obtain ⟨elem, heq, helem⟩ := destroyNode_eq h id e
  rw [heq]
  exact Same.elems h fun m hm => helem _ (hid m hm)

/-- A new element is destroyed again. -/
theorem Shape.destroyNew (t : Shape h) (hid : h.elem id = none) (s : Same h h') (e : Env) :
    Same h (mlx5QosDestroyNode h' id e) := by
  refine s.trans (destroyNode_same h' (fun m hm => ?_) e)
  rw [s.nodes] at hm
  rw [s.node m hm]
  exact t.ne_new hid hm

/-- A child that is made and deleted again, with the queue of a leaf. -/
theorem Shape.graftDelete (t : Shape h) (classid p : ℕ) (v : Node)
    (hv : v.qid = MLX5E_QOS_QID_INNER) (hq : h.usedQids q = true) :
    Same h (mlx5eHtbNodeDelete
      ((mlx5eHtbNodeCreateLeaf h classid q p).setNode h.fresh v) h.fresh) := by
  unfold mlx5eHtbNodeDelete
  rw [setNode_node, hv]
  refine ⟨List.erase_cons_head .., fun m hm => ?_, fun r => ?_, fun m hm => rfl, Nat.le_succ _, rfl⟩
  · have hne : m ≠ h.fresh := (t.fresh m hm).ne
    simp [Htb.setNode, mlx5eHtbNodeCreateLeaf, hne]
  · change (h.setBit q true).usedQids r = h.usedQids r
    rw [setBit_used]
    split_ifs with hr
    · rw [hr, hq]
    · rfl

/-- A leaf becomes an inner node with a child, which has its queue. -/
def Htb.graft (h : Htb) (classid n p rate ceil inner id : ℕ) : Htb :=
  ((h.rehome n p true inner).retire n).addLeaf classid (h.node n).qid n rate ceil id

theorem graft_used (h : Htb) (classid n p rate ceil inner id r : ℕ) :
    (h.graft classid n p rate ceil inner id).usedQids r =
      (h.setBit (h.node n).qid true).usedQids r := by
  have hq : ((h.rehome n p true inner).node n).qid = (h.node n).qid := by rw [rehome_node]
  change (((h.rehome n p true inner).setNode n _).setBit
    ((h.rehome n p true inner).node n).qid false |>.setBit (h.node n).qid true).usedQids r = _
  rw [setBit_used, setBit_used, setBit_used, hq]
  split_ifs <;> rfl

/-- The tree when a leaf has become an inner node with a child. -/
theorem Tree.graft (t : Tree h) {classid : ℕ} (rate ceil : ℕ) {inner : ℕ} (hn : n ∈ h.nodes)
    (hl : h.leaf n) (hp : (h.node n).parent = some p)
    (hcl : ∀ m ∈ h.nodes, (h.node m).classid ≠ classid) (hcr : classid ≠ MLX5E_HTB_CLASSID_ROOT)
    (hinner : h.elem inner = none) (hid : h.elem id = none) (hne : inner ≠ id) :
    Tree (h.graft classid n p rate ceil inner id) := by
  have h₁ := t.rehome hn hp (t.leaf_childless hl) true hinner
  have h₂ := h₁.retire hn
  have hq : ((h.rehome n p true inner).node n).qid = (h.node n).qid := by rw [rehome_node]
  refine h₂.addLeaf rate ceil hn ?_ (fun m hm => ?_) hcr ?_ ?_ ?_
  · rw [retire_node]
    exact if_pos rfl
  · rw [retire_node, rehome_node]
    exact hcl m hm
  · change (((h.rehome n p true inner).setNode n _).setBit
      ((h.rehome n p true inner).node n).qid false).usedQids _ = false
    rw [setBit_used, hq, if_pos rfl]
  · exact t.bound _ ((t.used _).2 ⟨hl, n, hn, rfl⟩)
  · change (h.createElem inner _).elem id = none
    exact (update_of_ne hne.symm ..).trans hid

/-- What the end of `mlx5e_htb_leaf_to_inner` does with the leaf and its element. -/
theorem leafToInnerDone_eq (g : Htb) (n child id : ℕ) (e : Env) :
    ∃ sq elem, leafToInnerDone g n child id e = openQosSq { g with
        node := update g.node n { g.node n with qid := MLX5E_QOS_QID_INNER, hwId := id }
        sq := sq, elem := elem } child e ∧ ∀ i, i ≠ (g.node n).hwId → elem i = g.elem i := by
  unfold leafToInnerDone
  dsimp only
  obtain ⟨sq, hsq⟩ := closeQosSq_eq (g.setNode n { g.node n with qid := MLX5E_QOS_QID_INNER })
    (g.node n).qid
  rw [hsq]
  have hn : (g.setNode n { g.node n with qid := MLX5E_QOS_QID_INNER }).node n =
      { g.node n with qid := MLX5E_QOS_QID_INNER } := setNode_node ..
  obtain ⟨elem, hdel, helem⟩ := destroyNode_eq
    { g.setNode n { g.node n with qid := MLX5E_QOS_QID_INNER } with sq := sq } (g.node n).hwId e
  refine ⟨sq, elem, ?_, helem⟩
  rw [hn]
  rw [hdel]
  simp [Htb.setNode]

theorem Shape.convertRate_create (t : Shape h) (classid q p rate : ℕ) (hn : n ∈ h.nodes) :
    mlx5eHtbConvertRate (mlx5eHtbNodeCreateLeaf h classid q p) rate n =
      bwShareOf rate (h.node n).maxAverageBw := by
  have hnode : (mlx5eHtbNodeCreateLeaf h classid q p).node n = h.node n :=
    update_of_ne (t.fresh n hn).ne ..
  rw [convertRate_eq rate (hnode ▸ t.hasCeil hn), hnode]

/-- The leaf and its first child come out as the tree of `Tree.graft`. -/
theorem Tree.graft_same (t : Tree h) {classid rate ceil inner : ℕ} {g : Htb} {v : Node}
    (hn : n ∈ h.nodes) (hl : h.leaf n) (hid : h.elem id = none)
    (hinner : h.elem inner = none)
    (hv : v = { parent := some n, rate := rate, bwShare := bwShareOf rate (h.node n).maxAverageBw,
                maxAverageBw := mlx5eHtbConvertCeil ceil, hwId := id, classid := classid,
                qid := (h.node n).qid })
    (hg : g = { h.setBit (h.node n).qid true with
      nodes := h.fresh :: h.nodes
      node := update h.node h.fresh v
      fresh := h.fresh + 1
      elem := update (update h.elem inner (some (h.elemUnder n p true))) id
        (some { parentId := inner, inner := false, bwShare := v.bwShare,
                maxAvgBw := v.maxAverageBw }) }) (e : Env) :
    Same (h.graft classid n p rate ceil inner id) (leafToInnerDone g n h.fresh inner e) := by
  have hnf : n ≠ h.fresh := (t.fresh n hn).ne
  obtain ⟨sq, elem, heq, helem⟩ := leafToInnerDone_eq g n h.fresh inner e
  rw [heq]
  refine Same.trans ?_ (openQosSq_same _ h.fresh e)
  have hgn : g.node n = h.node n := by
    rw [hg]
    exact update_of_ne hnf ..
  have hnode : ∀ m, (h.graft classid n p rate ceil inner id).node m =
      if m = h.fresh then v else
        if m = n then { h.node n with qid := MLX5E_QOS_QID_INNER, hwId := inner }
        else h.node m := fun m => by
    change update _ h.fresh _ m = _
    rcases eq_or_ne m h.fresh with rfl | hmf
    · rw [update_self, if_pos rfl, retire_node, rehome_node, hv]
    · rw [update_of_ne hmf, if_neg hmf, retire_node, rehome_node]
      split_ifs with hmn
      · rw [hmn]
      · rfl
  have helems : (h.graft classid n p rate ceil inner id).elem = g.elem := by
    rw [hg, hv]
    have hself : ((h.rehome n p true inner).retire n).node n =
        { h.node n with qid := MLX5E_QOS_QID_INNER, hwId := inner } := by
      rw [retire_node, rehome_node, if_pos rfl, if_pos rfl]
    unfold Htb.graft Htb.addLeaf
    rw [hself]
    rfl
  have hold : ∀ m ∈ h.fresh :: h.nodes, (if m = h.fresh then v else
      if m = n then { h.node n with qid := MLX5E_QOS_QID_INNER, hwId := inner }
      else h.node m).hwId ≠ (h.node n).hwId := fun m hm => by
    split_ifs with hmf hmn
    · rw [hv]
      exact (t.ne_new hid hn).symm
    · exact (t.ne_new hinner hn).symm
    · exact fun heq => hmn (t.hw m ((List.mem_cons.1 hm).resolve_left hmf) n hn heq)
  refine ⟨by rw [hg]; rfl, fun m hm => ?_, fun r => ?_, fun m hm => ?_, by rw [hg]; rfl,
    by rw [hg]; rfl⟩
  · rw [hnode, hgn, hg]
    dsimp only
    rcases eq_or_ne m n with rfl | hmn
    · rw [update_self, if_neg hnf, if_pos rfl]
    · rw [update_of_ne hmn, if_neg hmn]
      rcases eq_or_ne m h.fresh with rfl | hmf
      · rw [update_self, if_pos rfl]
      · rw [update_of_ne hmf, if_neg hmf]
  · rw [hg]
    exact (graft_used h ..).symm
  · have hne' := hold m hm
    rw [hnode, helems]
    refine helem _ ?_
    rw [hgn]
    exact hne'

/-- A step of `mlx5e_htb_leaf_to_inner`. -/
theorem Inv.leafToInner (i : Inv h k) {classid childClassid : ℕ} (rate ceil : ℕ)
    (ho : ok h (.leafToInner classid childClassid rate ceil e)) :
    StepOk h (run h (.leafToInner classid childClassid rate ceil e)) := by
  obtain ⟨⟨hin, hle⟩, hnew, hroot, -, hleaf⟩ := ho
  have t := i.tree
  unfold run mlx5eHtbLeafToInner
  dsimp only
  rcases hf : mlx5eHtbNodeFind h classid with _ | n
  · exact i.stepSame (Same.refl h) _
  have hn := (nodeFind_spec hf).1
  have hl := hleaf n hf
  dsimp only
  rcases hp : (h.node n).parent with _ | p
  · exact i.stepSame (Same.refl h) _
  rcases hfi : e.fwInner with _ | inner
  · exact i.stepSame (Same.refl h) _
  dsimp only
  have hinner := hin inner hfi
  split_ifs with hmem
  · exact i.stepSame (t.destroyNew hinner (t.createElem hinner _) e) _
  have hused : h.usedQids (h.node n).qid = true := (t.used _).2 ⟨hl, n, hn, rfl⟩
  have hc := t.createElem hinner { parentId := (h.node p).hwId, inner := true,
                                   bwShare := (h.node n).bwShare,
                                   maxAvgBw := (h.node n).maxAverageBw }
  rcases hid : e.fwLeaf with _ | id
  · dsimp only
    refine i.stepSame (t.destroyNew hinner (hc.trans ?_) e) _
    rw [setNode_setNode]
    exact (t.toShape.same hc).graftDelete childClassid n _ rfl hused
  · dsimp only
    obtain ⟨hnone, hne⟩ := hle id hid
    rw [hfi] at hne
    have hne' : inner ≠ id := fun heq => hne (congrArg some heq)
    have htree := t.graft rate ceil hn hl hp (nodeFind_none hnew) hroot hinner hnone hne'
    have hup : Inv (h.graft childClassid n p rate ceil inner id) k := by
      refine ⟨htree, fun q => ?_⟩
      rw [graft_used, setBit_used]
      split_ifs with heq
      · rw [heq]
        exact iff_of_true rfl ((i.upTo _).1 hused)
      · exact i.upTo q
    refine ⟨⟨k, hup.same ?_⟩, fun herr => absurd rfl herr⟩
    have hconv := (t.toShape.same hc).convertRate_create childClassid (h.node n).qid n rate hn
    refine t.graft_same hn hl hnone hinner rfl ?_ e
    dsimp only [Htb.createElem] at hconv ⊢
    rw [hconv]
    simp [Htb.setNode, Htb.setBit, mlx5eHtbNodeCreateLeaf, Htb.elemUnder]

/-- The state of `mlx5e_htb_leaf_del_last` when the parent has the queue of its last child. -/
theorem delLast_eq (g : Htb) (hpn : p ≠ n) (q : ℕ) (e : Env) :
    let g₁ := mlx5eResetQdisc (closeQosSq
      (g.setNode n { g.node n with qid := MLX5E_QOS_QID_INNER }) q) q
    let g₂ := mlx5eHtbNodeDelete (mlx5QosDestroyNode g₁ (g₁.node n).hwId e) n
    ∃ sq elem, g₂.setNode p { g₂.node p with qid := q } = { g with
        nodes := g.nodes.erase n
        node := update (update g.node n
          { g.node n with qid := MLX5E_QOS_QID_INNER }) p { g.node p with qid := q }
        sq := sq, elem := elem, drained := q :: g.drained } ∧
      ∀ i, i ≠ (g.node n).hwId → elem i = g.elem i := by
  intro g₁ g₂
  obtain ⟨sq, hsq⟩ := closeQosSq_eq (g.setNode n { g.node n with qid := MLX5E_QOS_QID_INNER }) q
  have hg₁ : g₁ = { g.setNode n { g.node n with qid := MLX5E_QOS_QID_INNER } with
      sq := sq, drained := q :: g.drained } := by
    simp only [g₁]
    rw [hsq]
    rfl
  have hn : g₁.node n = { g.node n with qid := MLX5E_QOS_QID_INNER } := by
    rw [hg₁]
    exact setNode_node ..
  obtain ⟨elem, hdel, helem⟩ := destroyNode_eq g₁ (g₁.node n).hwId e
  rw [hn] at helem
  refine ⟨sq, elem, ?_, fun i hi => (helem i hi).trans (by rw [hg₁]; rfl)⟩
  have hg₂ : g₂ = { g with
      nodes := g.nodes.erase n
      node := update g.node n { g.node n with qid := MLX5E_QOS_QID_INNER }
      sq := sq, elem := elem, drained := q :: g.drained } := by
    simp only [g₂]
    rw [hdel]
    unfold mlx5eHtbNodeDelete
    rw [hn, if_neg (not_not.2 rfl), hg₁]
    rfl
  rw [hg₂]
  simp [Htb.setNode, hpn]

/-- The tree when the last child of a node is gone and the node has its queue. -/
theorem Tree.prune (t : Tree h) (hn : n ∈ h.nodes) (hl : h.leaf n) (hp : (h.node n).parent = some p)
    (hpp : (h.node p).parent ≠ none) (hlast : ∀ m ∈ h.nodes, (h.node m).parent = some p → m = n) :
    Tree ((mlx5eHtbNodeDelete (h.retire n) n).enqueue p (h.node n).qid) ∧ p ≠ n ∧
      (mlx5eHtbNodeDelete (h.retire n) n) = { h.retire n with nodes := h.nodes.erase n } := by
  have hpn : p ≠ n := by
    rintro rfl
    exact t.leaf_childless hl p hn hp
  have hq : ((h.retire n).node n).qid = MLX5E_QOS_QID_INNER := by
    rw [retire_node, if_pos rfl]
  have hdel : mlx5eHtbNodeDelete (h.retire n) n = { h.retire n with nodes := h.nodes.erase n } := by
    unfold mlx5eHtbNodeDelete
    rw [hq]
    rfl
  have htree := (t.retire hn).delete (n := n) (fun m hm => by
    rw [retire_node]
    exact t.leaf_childless hl m hm) hn
  refine ⟨?_, hpn, hdel⟩
  rw [hdel] at htree ⊢
  refine htree.enqueue ((List.mem_erase_of_ne hpn).2 (t.parent n hn p hp)) ?_ ?_ ?_ ?_ ?_
  · change ((h.retire n).node p).parent ≠ none
    rw [retire_node]
    exact hpp
  · change ((h.retire n).node p).qid = _
    rw [retire_node, if_neg hpn]
    exact t.inner n hn p hp
  · intro m hm
    rw [retire_node]
    exact fun hmp => (t.nodup.mem_erase_iff.1 hm).1 (hlast m (List.mem_of_mem_erase hm) hmp)
  · change ((h.setNode n _).setBit (h.node n).qid false).usedQids (h.node n).qid = false
    rw [setBit_used, if_pos rfl]
  · exact t.bound _ ((t.used _).2 ⟨hl, n, hn, rfl⟩)
theorem openQosSq_eq (h : Htb) (n : ℕ) (e : Env) : ∃ sq, openQosSq h n e = { h with sq := sq } := by
  unfold openQosSq
  split_ifs
  · exact ⟨_, rfl⟩
  · exact ⟨h.sq, rfl⟩

/-- The nodes and bits of the pruned tree. -/
theorem prune_node (h : Htb) (hpn : p ≠ n) (q m : ℕ) (l : List ℕ) :
    ((({ h.retire n with nodes := l } : Htb).enqueue p q).node m) = update (update h.node n
        { h.node n with qid := MLX5E_QOS_QID_INNER }) p { h.node p with qid := q } m := by
  rw [enqueue_node]
  rw [retire_node]
  rcases eq_or_ne m p with rfl | hmp
  · rw [update_self, if_pos rfl]
  · rw [update_of_ne hmp, if_neg hmp]
    rcases eq_or_ne m n with rfl | hmn
    · rw [update_self, if_pos rfl]
    · rw [update_of_ne hmn, if_neg hmn]

theorem prune_used (t : Shape h) (hn : n ∈ h.nodes) (hl : h.leaf n) (p : ℕ) (l : List ℕ) (r : ℕ) :
    (({ h.retire n with nodes := l } : Htb).enqueue p (h.node n).qid).usedQids r =
      h.usedQids r := by
  change (((h.setNode n _).setBit (h.node n).qid false).setBit (h.node n).qid true).usedQids r = _
  rw [setBit_used, setBit_used]
  split_ifs with hr
  · rw [hr]
    exact ((t.used _).2 ⟨hl, n, hn, rfl⟩).symm
  · rfl

section
variable (i : Inv h k) (hn : n ∈ h.nodes) (hl : h.leaf n) (hp : (h.node n).parent = some p)
include i hn hl hp

/-- A forced deletion that cannot make a leaf of the parent still gives it the queue. -/
theorem Inv.delLastForced (hpp : (h.node p).parent ≠ none)
    (hlast : ∀ m ∈ h.nodes, (h.node m).parent = some p → m = n) {g : Htb} {sq elem drained}
    (hg : g = { h with
        nodes := h.nodes.erase n
        node := update (update h.node n
          { h.node n with qid := MLX5E_QOS_QID_INNER }) p { h.node p with qid := (h.node n).qid }
        sq := sq, elem := elem, drained := drained })
    (helem : ∀ i, i ≠ (h.node n).hwId → elem i = h.elem i) : Inv g k := by
  obtain ⟨htree, hpn, hdel⟩ := i.tree.prune hn hl hp hpp hlast
  rw [hdel] at htree
  have hup :
      Inv (({ h.retire n with nodes := h.nodes.erase n } : Htb).enqueue p (h.node n).qid) k :=
    ⟨htree, fun q => by rw [prune_used i.tree.toShape hn hl]; exact i.upTo q⟩
  refine hup.same ⟨by rw [hg]; rfl, fun m hm => ?_, fun r => ?_, fun m hm => ?_, by rw [hg]; rfl,
    by rw [hg]; rfl⟩
  · rw [prune_node h hpn, hg]
  · rw [prune_used i.tree.toShape hn hl, hg]
  · have hmn : m ≠ n ∧ m ∈ h.nodes := i.tree.nodup.mem_erase_iff.1 hm
    have hhw : ((({ h.retire n with nodes := h.nodes.erase n } : Htb).enqueue p
        (h.node n).qid).node m).hwId = (h.node m).hwId := by
      rw [enqueue_node]
      rw [retire_node]
    rw [hhw, hg]
    exact helem _ fun heq => hmn.1 (i.tree.hw m hmn.2 n hn heq)

/-- The parent is a leaf again, with an element of its own. -/
theorem Inv.delLastDone {grand : ℕ} (hpp : (h.node p).parent = some grand)
    (hlast : ∀ m ∈ h.nodes, (h.node m).parent = some p → m = n) (hid : h.elem id = none)
    {g : Htb} (sq : ℕ → Option ℕ) (elem : ℕ → Option Elem) (drained : List ℕ) (hg : g = { h with
        nodes := h.nodes.erase n
        node := update (update h.node n
          { h.node n with qid := MLX5E_QOS_QID_INNER }) p
          { h.node p with qid := (h.node n).qid, hwId := id }
        sq := sq, elem := elem, drained := drained })
    (helem : ∀ i, i ≠ (h.node n).hwId → i ≠ (h.node p).hwId → elem i =
      update h.elem id (some (h.elemUnder p grand false)) i) : Inv g k := by
  have t := i.tree
  obtain ⟨htree, hpn, hdel⟩ := t.prune hn hl hp (by rw [hpp]; nofun) hlast
  have hpm := t.parent n hn p hp
  rw [hdel] at htree
  have hnode := prune_node h hpn (h.node n).qid
  generalize hd : ({ h.retire n with nodes := h.nodes.erase n } : Htb).enqueue p (h.node n).qid = d
    at htree
  have hdn : ∀ m, d.node m = update (update h.node n
      { h.node n with qid := MLX5E_QOS_QID_INNER }) p { h.node p with qid := (h.node n).qid } m :=
    fun m => by rw [← hd]; exact hnode m _
  have hdp : d.node p = { h.node p with qid := (h.node n).qid } := by
    rw [hdn, update_self]
  have hdo : ∀ m, m ≠ p → m ≠ n → d.node m = h.node m := fun m hmp hmn => by
    rw [hdn, update_of_ne hmp, update_of_ne hmn]
  have hdelem : d.elem = h.elem := by
    rw [← hd]
    rfl
  have hdnodes : d.nodes = h.nodes.erase n := by
    rw [← hd]
    rfl
  have hdused : ∀ r, d.usedQids r = h.usedQids r := fun r => by
    rw [← hd, prune_used t.toShape hn hl]
  have hdhw : ∀ m, (d.node m).hwId = (h.node m).hwId ∧ (d.node m).parent = (h.node m).parent :=
      fun m => by
    rcases eq_or_ne m p with rfl | hmp
    · rw [hdp]
      exact ⟨rfl, rfl⟩
    · rcases eq_or_ne m n with rfl | hmn
      · rw [hdn, update_of_ne hmp, update_self]
        exact ⟨rfl, rfl⟩
      · rw [hdo m hmp hmn]
        exact ⟨rfl, rfl⟩
  have hmem : ∀ m ∈ d.nodes, m ≠ n ∧ m ∈ h.nodes := fun m hm =>
    t.nodup.mem_erase_iff.1 (hdnodes ▸ hm)
  have hup : Inv (d.rehome p grand false id) k := by
    refine ⟨htree.rehome (hdnodes ▸ (List.mem_erase_of_ne hpn).2 hpm) ?_ (fun m hm hmp => ?_) false
      (by rw [hdelem]; exact hid), fun q => ?_⟩
    · rw [(hdhw p).2, hpp]
    · rw [(hdhw m).2] at hmp
      exact (hmem m hm).1 (hlast m (hmem m hm).2 hmp)
    · change d.usedQids q = true ↔ _
      rw [hdused]
      exact i.upTo q
  have hself : ∀ m ∈ d.nodes, m ≠ p → (h.node m).hwId ≠ (h.node n).hwId ∧
      (h.node m).hwId ≠ (h.node p).hwId ∧ (h.node m).hwId ≠ id := fun m hm hmp =>
    ⟨fun heq => (hmem m hm).1 (t.hw m (hmem m hm).2 n hn heq),
      fun heq => hmp (t.hw m (hmem m hm).2 p hpm heq), t.ne_new hid (hmem m hm).2⟩
  refine hup.same ⟨by rw [hg, ← hd]; rfl, fun m hm => ?_, fun r => ?_, fun m hm => ?_,
    by rw [hg, ← hd]; rfl, by rw [hg, ← hd]; rfl⟩
  · rw [rehome_node, hg]
    dsimp only
    rcases eq_or_ne m p with rfl | hmp
    · rw [update_self, hdp, if_pos rfl]
    · rw [update_of_ne hmp, if_neg hmp, hdo m hmp (hmem m hm).1, update_of_ne (hmem m hm).1]
  · rw [hg]
    exact (hdused r).symm
  · have hre : (d.rehome p grand false id).elem =
        update h.elem id (some (h.elemUnder p grand false)) := by
      change update d.elem id (some (d.elemUnder p grand false)) = _
      unfold Htb.elemUnder
      rw [hdelem, hdp, (hdhw grand).1]
    rw [hre, rehome_node, hg]
    rcases eq_or_ne m p with rfl | hmp
    · rw [if_pos rfl]
      exact helem id (t.ne_new hid hn).symm (t.ne_new hid hpm).symm
    · rw [if_neg hmp, (hdhw m).1]
      obtain ⟨h₁, h₂, -⟩ := hself m hm hmp
      exact helem _ h₁ h₂

end

/-- A step of `mlx5e_htb_leaf_del_last`. -/
theorem Inv.leafDelLast (i : Inv h k) {classid : ℕ} {force : Bool}
    (ho : ok h (.leafDelLast classid force e)) :
    (∃ k, Inv (mlx5eHtbLeafDelLast h classid force e).1 k) ∧
      (force = false → (mlx5eHtbLeafDelLast h classid force e).2 ≠ none →
        Same h (mlx5eHtbLeafDelLast h classid force e).1) := by
  have t := i.tree
  unfold mlx5eHtbLeafDelLast
  rcases hf : mlx5eHtbNodeFind h classid with _ | n
  · exact ⟨⟨k, i⟩, fun _ _ => Same.refl h⟩
  obtain ⟨hl, hlast⟩ := ho.2.2 n hf
  have hn := (nodeFind_spec hf).1
  dsimp only
  rcases hp : (h.node n).parent with _ | p
  · exact absurd (t.topInner n hn hp) hl
  obtain ⟨hpp, hlast⟩ := hlast p hp
  obtain ⟨grand, hgr⟩ := Option.ne_none_iff_exists'.1 hpp
  simp only [Option.bind_some, hgr]
  by_cases hfail : e.fwLeaf = none ∧ force = false
  · simp only [if_pos hfail]
    exact ⟨⟨k, i⟩, fun _ _ => Same.refl h⟩
  simp only [if_neg hfail]
  have hpn : p ≠ n := (t.prune hn hl hp hpp hlast).2.1
  rcases hid : e.fwLeaf with _ | id
  · obtain ⟨sq, elem, heq, helem⟩ := delLast_eq h hpn (h.node n).qid e
    rw [heq]
    refine ⟨⟨k, i.delLastForced hn hl hp hpp hlast rfl helem⟩, fun hforce _ => ?_⟩
    exact absurd ⟨hid, hforce⟩ hfail
  · dsimp only
    generalize hg : h.createElem id ({ parentId := (h.node grand).hwId, inner := false,
                                       bwShare := (h.node p).bwShare,
                                       maxAvgBw := (h.node p).maxAverageBw } : Elem) = g
    have hnode : g.node = h.node := by rw [← hg]; rfl
    obtain ⟨sq, elem, heq, helem⟩ := delLast_eq g hpn (g.node n).qid e
    rw [heq]
    refine ⟨⟨k, ?_⟩, fun _ herr => absurd rfl herr⟩
    generalize hd : Htb.setNode _ p _ = d
    have hold : ((update (update g.node n
        { g.node n with qid := MLX5E_QOS_QID_INNER }) p
          { g.node p with qid := (g.node n).qid }) p) =
        { h.node p with qid := (h.node n).qid } := by
      rw [update_self, hnode]
    obtain ⟨sq', hsq⟩ := openQosSq_eq d p e
    obtain ⟨elem', hdel, helem'⟩ := destroyNode_eq { d with sq := sq' } (h.node p).hwId e
    dsimp only
    rw [hold]
    rw [hsq, hdel]
    refine i.delLastDone hn hl hp hgr hlast ((ho.1.2 id hid).1) sq' elem'
      ((h.node n).qid :: h.drained) ?_ fun j hjn hjp => ?_
    · rw [← hd, ← hg]
      simp [Htb.setNode, Htb.createElem]
    · rw [helem' j hjp, ← hd, ← hg]
      change elem j = _
      rw [helem j (by rw [hnode]; exact hjn), ← hg]
      rfl

/-- A node that has a parent is changed, and its element is told. -/
def Htb.retune (h : Htb) (n rate share ceil : ℕ) : Htb :=
  { h.setNode n { h.node n with rate := rate, bwShare := share, maxAverageBw := ceil } with
    elem := update h.elem (h.node n).hwId
      ((h.elem (h.node n).hwId).map fun v => { v with bwShare := share, maxAvgBw := ceil }) }

theorem retune_node (h : Htb) (n rate share ceil m : ℕ) : (h.retune n rate share ceil).node m =
    { h.node m with
      rate := if m = n then rate else (h.node m).rate
      bwShare := if m = n then share else (h.node m).bwShare
      maxAverageBw := if m = n then ceil else (h.node m).maxAverageBw } := by
  rcases eq_or_ne m n with rfl | hne
  · simp [Htb.retune, Htb.setNode]
  · simp [Htb.retune, Htb.setNode, hne]

theorem Shape.retune (t : Shape h) (hn : n ∈ h.nodes) (rate share : ℕ) {ceil : ℕ}
    (hceil : ceil ≠ 0) : Shape (h.retune n rate share ceil) := by
  have helem : ∀ i, (h.retune n rate share ceil).elem i = if i = (h.node n).hwId then
      (h.elem i).map fun v => { v with bwShare := share, maxAvgBw := ceil } else h.elem i :=
    fun i => by
      rcases eq_or_ne i (h.node n).hwId with rfl | hne
      · simp [Htb.retune]
      · simp [Htb.retune, hne]
  refine ⟨t.nodup, t.fresh, ?_, ?_, ?_, ?_, ?_, ?_, ?_, ?_, ?_, ?_, ?_, ?_, t.bound, t.max⟩ <;>
    simp only [retune_node]
  · exact t.classid
  · exact t.top
  · exact t.parent
  · exact t.older
  · intro m hm hne
    split_ifs
    · exact hceil
    · exact t.ceil m hm hne
  · exact t.hw
  · intro m hm
    rw [helem]
    split_ifs
    · simpa using t.hwUsed m hm
    · exact t.hwUsed m hm
  · intro m hm r hr
    obtain ⟨inner, heq⟩ := t.elem m hm r hr
    rw [helem]
    rcases eq_or_ne m n with rfl | hne
    · simp only [heq]
      exact ⟨inner, rfl⟩
    · have hhw : (h.node m).hwId ≠ (h.node n).hwId := fun hw => hne (t.hw m hm n hn hw)
      rw [if_neg hhw, if_neg hne, if_neg hne]
      exact ⟨inner, heq⟩
  · exact t.inner
  · exact t.topInner
  · exact t.qid
  · exact t.used

/-- What `mlx5e_htb_update_children` does when each child whose share changes is changed: the
    children on the list have the shares of the ceiling of `n`. -/
structure Reshared (h : Htb) (n : ℕ) (l : List ℕ) (h' : Htb) : Prop where
  shape : Shape h'
  nodes : h'.nodes = h.nodes
  used : h'.usedQids = h.usedQids
  node : ∀ m, h'.node m = { h.node m with
    bwShare := if m ∈ l ∧ (h.node m).parent = some n then
      bwShareOf (h.node m).rate (h.node n).maxAverageBw else (h.node m).bwShare }

theorem updateChildren_spec (hn : n ∈ h.nodes) : ∀ (l : List ℕ) (h' : Htb) (l' : List ℕ),
    Reshared h n l' h' → (∀ c ∈ l, c ∈ h.nodes ∧ ((h.node c).parent = some n →
      bwShareOf (h.node c).rate (h.node n).maxAverageBw ≠ (h.node c).bwShare →
      e.fwUpdate (h.node c).hwId = true)) →
    Reshared h n (l' ++ l) (updateChildren n e l h').1 ∧ (updateChildren n e l h').2 = none
  | [], h', l', hr, _ => by
    rw [List.append_nil]
    exact ⟨hr, rfl⟩
  | c :: l, h', l', hr, hl => by
    obtain ⟨hc, hfw⟩ := hl c (List.mem_cons_self ..)
    have htail := fun h₁ (hr₁ : Reshared h n (l' ++ [c]) h₁) =>
      updateChildren_spec hn l h₁ (l' ++ [c]) hr₁ fun m hm => hl m (List.mem_cons_of_mem _ hm)
    rw [List.append_assoc, List.singleton_append] at htail
    have hpar : (h'.node c).parent = (h.node c).parent := by rw [hr.node]
    have hrate : (h'.node c).rate = (h.node c).rate := by rw [hr.node]
    unfold updateChildren
    by_cases hp : (h'.node c).parent = some n
    · rw [if_pos hp]
      rw [hpar] at hp
      have hshare : mlx5eHtbConvertRate h' (h'.node c).rate n =
          bwShareOf (h.node c).rate (h.node n).maxAverageBw := by
        rw [convertRate_eq _ (hr.shape.hasCeil (hr.nodes ▸ hn)), hrate, hr.node n]
      rw [hshare]
      by_cases hold : bwShareOf (h.node c).rate (h.node n).maxAverageBw = (h'.node c).bwShare
      · rw [if_pos hold, hold]
        have hsame : h'.setNode c { h'.node c with bwShare := (h'.node c).bwShare } = h' := by
          simp [Htb.setNode]
        rw [hsame]
        refine htail h' { hr with node := fun m => ?_ }
        rw [hr.node m]
        rcases eq_or_ne m c with rfl | hmc
        · rw [hr.node m] at hold
          simp only [List.mem_append, List.mem_singleton, or_true, hp, if_true, and_true]
            at hold ⊢
          rw [← hold]
        · simp [hmc]
      · rw [if_neg hold]
        have hcl : ¬(c ∈ l' ∧ (h.node c).parent = some n) := fun hin => by
          rw [hr.node c] at hold
          exact hold (if_pos hin).symm
        have hshare' : (h'.node c).bwShare = (h.node c).bwShare := by
          rw [hr.node c]
          exact if_neg hcl
        have hhw : (h'.node c).hwId = (h.node c).hwId := by rw [hr.node]
        have hupd := hfw hp (hshare' ▸ hold)
        rw [← hhw] at hupd
        have hre : Reshared h n (l' ++ [c]) (h'.retune c (h'.node c).rate
            (bwShareOf (h.node c).rate (h.node n).maxAverageBw) (h'.node c).maxAverageBw) := by
          have hcm : c ∈ h'.nodes := hr.nodes ▸ hc
          refine ⟨hr.shape.retune hcm _ _ (hr.shape.ceil c hcm (by rw [hpar, hp]; nofun)), hr.nodes,
            hr.used, fun m => ?_⟩
          rw [retune_node]
          rcases eq_or_ne m c with rfl | hmc
          · simp [hr.node m, hp]
          · simp [hr.node m, hmc]
        have heq : mlx5QosUpdateNode (h'.setNode c { h'.node c with
            bwShare := bwShareOf (h.node c).rate (h.node n).maxAverageBw })
            (bwShareOf (h.node c).rate (h.node n).maxAverageBw) (h'.node c).maxAverageBw
            (h'.node c).hwId e = (h'.retune c (h'.node c).rate
              (bwShareOf (h.node c).rate (h.node n).maxAverageBw) (h'.node c).maxAverageBw,
              none) := by
          unfold mlx5QosUpdateNode
          rw [if_pos hupd]
          rfl
        rw [setNode_node]
        rw [heq]
        exact htail _ hre
    · rw [if_neg hp]
      refine htail h' { hr with node := fun m => ?_ }
      rw [hr.node m]
      rcases eq_or_ne m c with rfl | hmc
      · rw [hpar] at hp
        simp [hp]
      · simp [hmc]

theorem convertCeil_ne_zero (ceil : ℕ) : mlx5eHtbConvertCeil ceil ≠ 0 :=
  (Nat.lt_of_lt_of_le Nat.one_pos (le_max_right _ _)).ne'

/-- A node that is changed has its share; its children have theirs if its ceiling is the same, or
    when they are changed too. -/
theorem Tree.modify (t : Tree h) (hn : n ∈ h.nodes) (hp : (h.node n).parent = some p)
    (rate ceil : ℕ) {g : Htb} (hshape : Shape g) (hnodes : g.nodes = h.nodes)
    (hnode : ∀ m, g.node m = { h.node m with
      rate := if m = n then rate else (h.node m).rate
      bwShare := if m ∈ h.nodes ∧ (h.node m).parent = some n then
          bwShareOf (h.node m).rate ceil
        else if m = n then bwShareOf rate (h.node p).maxAverageBw else (h.node m).bwShare
      maxAverageBw := if m = n then ceil else (h.node m).maxAverageBw }) : Tree g := by
  have hself : ∀ m ∈ h.nodes, (h.node m).parent = some n → m ≠ n := fun m hm hmp => by
    rintro rfl
    exact absurd (t.older m hm m hmp) (lt_irrefl m)
  refine ⟨hshape, fun m hm r hr => ?_⟩
  rw [hnodes] at hm
  rw [hnode] at hr ⊢
  rw [hnode r]
  dsimp only at hr ⊢
  rcases eq_or_ne r n with rfl | hrn
  · rw [if_pos ⟨hm, hr⟩, if_neg (hself m hm hr), if_pos rfl]
  · have hnot : ¬(m ∈ h.nodes ∧ (h.node m).parent = some n) := fun hin =>
      hrn (Option.some.inj (hr.symm.trans hin.2))
    rw [if_neg hnot, if_neg hrn]
    rcases eq_or_ne m n with rfl | hmn
    · rw [if_pos rfl, if_pos rfl, Option.some.inj (hp.symm.trans hr)]
    · rw [if_neg hmn, if_neg hmn]
      exact t.share m hm r hr

/-- A step of `mlx5e_htb_node_modify` in which the firmware does what it is told. -/
theorem Inv.nodeModify (i : Inv h k) {classid rate ceil : ℕ}
    (hc : clean h (.nodeModify classid rate ceil e)) :
    StepOk h (run h (.nodeModify classid rate ceil e)) := by
  have t := i.tree
  unfold run mlx5eHtbNodeModify
  dsimp only
  rcases hf : mlx5eHtbNodeFind h classid with _ | n
  · exact i.stepSame (Same.refl h) _
  obtain ⟨hrate, hkids⟩ := hc n hf
  have hn := (nodeFind_spec hf).1
  dsimp only
  generalize hv : Node.mk (h.node n).parent rate (h.node n).bwShare (h.node n).maxAverageBw
    (h.node n).hwId (h.node n).classid (h.node n).qid = v
  rcases hp : (h.node n).parent with _ | p
  · exact i.stepSame (Same.refl h) _
  have hpm := t.parent n hn p hp
  have hpn : p ≠ n := (t.older n hn p hp).ne
  dsimp only
  have hconv : mlx5eHtbConvertRate (h.setNode n v) rate p =
      bwShareOf rate (h.node p).maxAverageBw := by
    have hpnode : (h.setNode n v).node p = h.node p := update_of_ne hpn ..
    rw [convertRate_eq rate (hpnode ▸ t.hasCeil hpm), hpnode]
  have hhw : v.hwId = (h.node n).hwId ∧ v.maxAverageBw = (h.node n).maxAverageBw := by
    rw [← hv]
    exact ⟨rfl, rfl⟩
  unfold mlx5QosUpdateNode
  rw [hconv, setNode_node, hhw.1]
  by_cases hfw : e.fwUpdate (h.node n).hwId = true
  swap
  · -- the node could not be changed, and keeps its rate
    rw [if_neg hfw]
    refine i.stepSame (Same.of_eq ?_) _
    rw [← hv, hrate (by simpa using hfw)]
    simp [Htb.setNode]
  rw [if_pos hfw]
  dsimp only
  have htune : ({ h.setNode n v with
      elem := update (h.setNode n v).elem (h.node n).hwId
        (((h.setNode n v).elem (h.node n).hwId).map fun v =>
          { v with bwShare := bwShareOf rate (h.node p).maxAverageBw
                   maxAvgBw := mlx5eHtbConvertCeil ceil }) } : Htb).setNode n
      { v with bwShare := bwShareOf rate (h.node p).maxAverageBw
               maxAverageBw := mlx5eHtbConvertCeil ceil } =
      h.retune n rate (bwShareOf rate (h.node p).maxAverageBw) (mlx5eHtbConvertCeil ceil) := by
    rw [← hv]
    simp [Htb.setNode, Htb.retune]
  rw [setNode_node]
  rw [htune, hhw.2]
  have hshape := t.toShape.retune hn rate (bwShareOf rate (h.node p).maxAverageBw)
    (convertCeil_ne_zero ceil)
  have htnode := retune_node h n rate (bwShareOf rate (h.node p).maxAverageBw)
    (mlx5eHtbConvertCeil ceil)
  split_ifs with hch
  · have hself : ∀ m ∈ h.nodes, (h.node m).parent = some n → m ≠ n := fun m hm hmp => by
      rintro rfl
      exact absurd (t.older m hm m hmp) (lt_irrefl m)
    generalize hg : h.retune n rate (bwShareOf rate (h.node p).maxAverageBw)
      (mlx5eHtbConvertCeil ceil) = g at hshape htnode
    have hgn : g.nodes = h.nodes ∧ g.usedQids = h.usedQids := by
      rw [← hg]
      exact ⟨rfl, rfl⟩
    have hgmax : (g.node n).maxAverageBw = mlx5eHtbConvertCeil ceil := by
      rw [htnode]
      exact if_pos rfl
    have hstart : Reshared g n [] g := ⟨hshape, rfl, rfl, fun m => by simp⟩
    obtain ⟨hre, herr⟩ := updateChildren_spec (e := e) (hgn.1 ▸ hn) g.nodes g [] hstart
      fun c hcm => by
        refine ⟨hcm, fun hcp hne => ?_⟩
        rw [hgn.1] at hcm
        rw [htnode] at hcp
        have hcn := hself c hcm hcp
        rw [htnode c] at hne ⊢
        rw [if_neg hcn, if_neg hcn, hgmax] at hne
        exact hkids hfw c hcm hcp hne
    rw [List.nil_append] at hre
    have htree : Tree (updateChildren n e g.nodes g).1 := by
      refine t.modify hn hp rate (mlx5eHtbConvertCeil ceil) hre.shape (hre.nodes.trans hgn.1)
        fun m => ?_
      rw [hre.node m, hgmax, hgn.1, htnode m]
      by_cases hm : m ∈ h.nodes ∧ (h.node m).parent = some n
      · have hmn := hself m hm.1 hm.2
        rw [if_pos hm, if_pos hm, if_neg hmn]
      · rw [if_neg hm, if_neg hm]
    refine ⟨⟨k, htree, fun q => ?_⟩, fun hne => absurd herr hne⟩
    rw [hre.used, hgn.2]
    exact i.upTo q
  · have htree : Tree (h.retune n rate (bwShareOf rate (h.node p).maxAverageBw)
        (mlx5eHtbConvertCeil ceil)) := by
      refine t.modify hn hp rate (mlx5eHtbConvertCeil ceil) hshape rfl fun m => ?_
      rw [htnode]
      by_cases hm : m ∈ h.nodes ∧ (h.node m).parent = some n
      · have hmn : m ≠ n := by
          rintro rfl
          exact absurd (t.older m hm.1 m hm.2) (lt_irrefl m)
        rw [if_pos hm, if_neg hmn, if_neg hmn, if_neg hmn, t.share m hm.1 n hm.2, not_not.1 hch]
      · rw [if_neg hm]
    exact ⟨⟨k, htree, i.upTo⟩, fun herr => absurd rfl herr⟩

/-- A forced deletion, which goes on when it returns an error. -/
def Op.forced : Op → Bool
  | .leafDelLast _ force _ => force
  | .leafAllocQueue .. | .leafToInner .. | .leafDel .. | .nodeModify .. => false

/-- STEP: a clean step keeps the invariant; a step that returns an error and is not forced leaves
    the tree as it was. -/
theorem inv_step (i : Inv h k) {o : Op} (ho : ok h o) (hc : clean h o) :
    (∃ k, Inv (step h o) k) ∧ (o.forced = false → (run h o).2 ≠ none → Same h (run h o).1) := by
  cases o with
  | leafAllocQueue classid parentClassid rate ceil e =>
    obtain ⟨hinv, herr⟩ := i.leafAllocQueue rate ceil ho
    exact ⟨hinv, fun _ => herr⟩
  | leafToInner classid childClassid rate ceil e =>
    obtain ⟨hinv, herr⟩ := i.leafToInner rate ceil ho
    exact ⟨hinv, fun _ => herr⟩
  | leafDel classid e =>
    obtain ⟨hinv, herr⟩ := i.leafDel ho
    exact ⟨hinv, fun _ => herr⟩
  | leafDelLast classid force e => exact i.leafDelLast ho
  | nodeModify classid rate ceil e =>
    obtain ⟨hinv, herr⟩ := i.nodeModify hc
    exact ⟨hinv, fun _ => herr⟩

/-- RUN: the invariant holds in every state of every clean run. -/
theorem inv_run {h₀ : Htb} {root : ℕ} (hs : Start h₀ root)
    (hr : Reach step (fun h o => ok h o ∧ clean h o) h₀ h) : ∃ k, Inv h k := by
  induction hr with
  | start => exact ⟨0, inv_start hs⟩
  | next _ ho ih =>
    obtain ⟨k, hk⟩ := ih
    exact (inv_step hk ho.1 ho.2).1

/-- CORRECT: in every state of every clean run the leaves have the first queues, and each class has
    one element, made under the element of its parent with its share and its ceiling; a command that
    fails and is not forced leaves the tree as it was; a deletion that moves the highest queue
    restarts the queue of the moved class, and drains it exactly if the two numbers of the queue are
    one. -/
theorem htb_tree {h₀ : Htb} {root : ℕ} (hs : Start h₀ root)
    (hr : Reach step (fun h o => ok h o ∧ clean h o) h₀ h) :
    Sound h ∧
    (∀ o, ok h o → clean h o → o.forced = false → (run h o).2 ≠ none → Same h (run h o).1) ∧
    ∀ classid e n, ok h (.leafDel classid e) → mlx5eHtbNodeFind h classid = some n →
      (h.node n).qid ≠ h.leaves.length - 1 → ∃ m ∈ h.nodes,
        (h.node m).qid = h.leaves.length - 1 ∧
        ((step h (.leafDel classid e)).node m).qid = (h.node n).qid ∧
        (step h (.leafDel classid e)).restarted =
          (if h.opened then [mlx5eQidFromQos h (h.node m).qid] else []) ++ h.restarted ∧
        ((step h (.leafDel classid e)).drained = mlx5eQidFromQos h (h.node m).qid :: h.drained ↔
          mlx5eQidFromQos h (h.node m).qid = (h.node m).qid) := by
  obtain ⟨k, i⟩ := inv_run hs hr
  refine ⟨i.sound, fun o ho hc => (inv_step i ho hc).2, fun classid e n ho hf hne => ?_⟩
  rw [i.card.2] at hne ⊢
  obtain ⟨m, hm, hmq, hnew, hdrain, hres⟩ :=
    (i.leafDel_spec (e := e) hf (ho.2.2 n hf).1).2.2 hne
  refine ⟨m, hm, hmq, hnew, ?_, ?_⟩
  · rw [hmq]
    exact hres
  · rw [hmq]
    change (mlx5eHtbLeafDel h classid e).1.drained = _ ↔ _
    rw [hdrain, List.cons_eq_cons, eq_comm]
    simp

/-- Eight channels, and the root. -/
def Htb.start : Htb where
  nodes := [0]
  node := fun _ => { parent := none, rate := 0, bwShare := 0, maxAverageBw := 0, hwId := 100,
                     classid := MLX5E_HTB_CLASSID_ROOT, qid := MLX5E_QOS_QID_INNER }
  fresh := 1
  usedQids := fun _ => false
  maxLeafNodes := 16
  opened := true
  numChannels := 8
  isPtp := false
  numTc := 1
  elem := fun id =>
    if id = 100 then some { parentId := 0, inner := true, bwShare := 0, maxAvgBw := 0 } else none
  sq := fun _ => none
  drained := []
  restarted := []

theorem start_start : Start Htb.start 0 where
  nodes := rfl
  rootNode := rfl
  fresh := by decide
  elem := by decide
  used _ := rfl
  max := by decide

/-- Calls in which all works; the firmware gives the elements. -/
def Env.works (inner leaf : ℕ) : Env where
  kzalloc := true
  fwInner := some inner
  fwLeaf := some leaf
  fwDestroy := fun _ => true
  fwUpdate := fun _ => true
  sqOpen := true

instance (h : Htb) (n : ℕ) : Decidable (h.leaf n) := inferInstanceAs (Decidable (_ ≠ _))

instance (h : Htb) (classid : ℕ) (P : ℕ → Prop) [DecidablePred P] :
    Decidable (h.isClass classid P) :=
  inferInstanceAs (Decidable (_ ∧ ∀ n ∈ mlx5eHtbNodeFind h classid, P n))

instance (h : Htb) (e : Env) : Decidable (e.ok h) :=
  inferInstanceAs (Decidable ((∀ id ∈ e.fwInner, h.elem id = none) ∧
    ∀ id ∈ e.fwLeaf, h.elem id = none ∧ e.fwInner ≠ some id))

instance (h : Htb) : (o : Op) → Decidable (ok h o)
  | .leafAllocQueue classid parentClassid _ _ e =>
    inferInstanceAs (Decidable (e.ok h ∧ mlx5eHtbNodeFind h classid = none ∧
      classid ≠ MLX5E_HTB_CLASSID_ROOT ∧ ∀ p ∈ mlx5eHtbNodeFind h parentClassid, ¬h.leaf p))
  | .leafToInner classid childClassid _ _ e =>
    inferInstanceAs (Decidable (e.ok h ∧ mlx5eHtbNodeFind h childClassid = none ∧
      childClassid ≠ MLX5E_HTB_CLASSID_ROOT ∧ h.isClass classid h.leaf))
  | .leafDel classid e =>
    inferInstanceAs (Decidable (e.ok h ∧ h.isClass classid fun n => h.leaf n ∧
      ∀ p ∈ (h.node n).parent, (h.node p).parent = none ∨
        ∃ m ∈ h.nodes, m ≠ n ∧ (h.node m).parent = some p))
  | .leafDelLast classid _ e =>
    inferInstanceAs (Decidable (e.ok h ∧ h.isClass classid fun n => h.leaf n ∧
      ∀ p ∈ (h.node n).parent, (h.node p).parent ≠ none ∧
        ∀ m ∈ h.nodes, (h.node m).parent = some p → m = n))
  | .nodeModify classid _ _ e =>
    inferInstanceAs (Decidable (e.ok h ∧ classid ≠ MLX5E_HTB_CLASSID_ROOT))

instance (h : Htb) : (o : Op) → Decidable (clean h o)
  | .nodeModify classid rate ceil e =>
    inferInstanceAs (Decidable (∀ n ∈ mlx5eHtbNodeFind h classid,
      (e.fwUpdate (h.node n).hwId = false → rate = (h.node n).rate) ∧
        (e.fwUpdate (h.node n).hwId = true → ∀ c ∈ h.nodes, (h.node c).parent = some n →
          bwShareOf (h.node c).rate (mlx5eHtbConvertCeil ceil) ≠ (h.node c).bwShare →
          e.fwUpdate (h.node c).hwId = true)))
  | .leafAllocQueue .. => instDecidableTrue
  | .leafToInner .. => instDecidableTrue
  | .leafDel .. => instDecidableTrue
  | .leafDelLast .. => instDecidableTrue

/-- Two classes; the first has two children, and gets another ceiling. -/
def grown : List Op :=
  [.leafAllocQueue 1 MLX5E_HTB_CLASSID_ROOT 125000000 125000000 (.works 101 102),
    .leafAllocQueue 2 MLX5E_HTB_CLASSID_ROOT 125000000 250000000 (.works 103 104),
    .leafToInner 1 3 25000000 125000000 (.works 105 106),
    .leafAllocQueue 4 1 50000000 125000000 (.works 107 108),
    .nodeModify 1 125000000 250000000 (.works 109 110)]

theorem htb_tree_demo : ∃ h, grown.foldl step Htb.start = h ∧ Sound h ∧ h.leaves.length = 3 ∧
    (step h (.leafDel 3 (.works 111 112))).restarted = [10] ∧
    (step h (.leafDel 3 (.works 111 112))).drained ≠ [10] := by
  have hrun : Runs step (fun h o => ok h o ∧ clean h o) Htb.start grown := by decide +kernel
  exact ⟨_, rfl, (htb_tree start_start (Reach.start.runs hrun)).1, by decide +kernel,
    by decide +kernel, by decide +kernel⟩

/-- A class gets another rate, and the firmware refuses. -/
def refused : List Op :=
  [.leafAllocQueue 1 MLX5E_HTB_CLASSID_ROOT 125000000 125000000 (.works 101 102),
    .leafToInner 1 2 25000000 125000000 (.works 103 104),
    .nodeModify 2 50000000 125000000 { Env.works 105 106 with fwUpdate := fun _ => false }]

/-- BROKEN: a change that the firmware refuses leaves the new rate with the old share; the queue
    that is drained when one moves is not the one of the net device. -/
theorem htb_tree_broken :
    (∃ h, Reach step ok Htb.start h ∧ ¬Sound h) ∧
    ∃ h, Reach step ok Htb.start h ∧ ok h (.leafDel 3 (.works 111 112)) ∧
      (step h (.leafDel 3 (.works 111 112))).drained = [2] ∧ mlx5eQidFromQos h 2 = 10 := by
  have hrun₁ : Runs step ok Htb.start refused := by decide +kernel
  have hrun₂ : Runs step ok Htb.start grown := by decide +kernel
  refine ⟨⟨_, Reach.start.runs hrun₁, fun hs => ?_⟩, ⟨_, Reach.start.runs hrun₂, ?_⟩⟩
  · obtain ⟨p, -, hp, hshare, -⟩ := hs.elem 2 (by decide +kernel) (by decide +kernel)
    have h1 : ((refused.foldl step Htb.start).node 2).parent = some 1 := by decide +kernel
    obtain rfl := Option.some.inj (h1.symm.trans hp)
    revert hshare
    decide +kernel
  · decide +kernel

end RdmaDriver.HtbTree
