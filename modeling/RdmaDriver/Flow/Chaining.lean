import RdmaDriver.Basic
import RdmaDriver.Schemes.Run
import RdmaDriver.Schemes.OrderedTree
import Mathlib.Data.List.Infix
import Mathlib.Logic.Function.Basic

/-! @src mlx5/core/fs_core.c | name:chaining of flow tables | scheme:run | family:ordered tree

    The priorities of a namespace tree hold tables, sorted by level. What misses in a table goes on to
    the first table of the next priority that has one. A rule can forward to that table too, or to the
    first one behind its namespace; it is then in a list of the table it forwards to, and moves when
    another table comes before that one, or when that one goes.

        root -+- prio --- ns -+- prio -- t1 t2 --+ miss      fwd_rules (t3) = [r]
              |               +- prio            |
              |               +- prio -- t3 <----+<-- r
              +- prio --- ns --- prio -- t4                                              -/

namespace RdmaDriver.FsChaining
open Schemes Function
open List (any_eq_true append_assoc cons_append countP_cons_of_neg countP_cons_of_pos map_id'
  mem_append mem_append_left mem_cons mem_cons_self mem_filter mem_map mem_reverse mem_singleton
  nodup_append' pairwise_cons suffix_append)
open Option (none_or some_or)

/-- What `set_prio_attrs` sets of a `struct fs_prio`. -/
structure PrioAttr where
  startLevel : ℕ
  numLevels : ℕ

/-- The tree below the root namespace: a leaf is a priority with tables, another node a namespace or a
    priority with namespaces. A node is known by its address, the tail of which is its parent. -/
abbrev FsNode := OTree PrioAttr

/-- What the chaining uses of `struct mlx5_flow_table`. -/
structure FlowTable where
  id : ℕ
  level : ℕ
  prio : List ℕ
  deriving DecidableEq

/-- The namespace of a table. -/
def FlowTable.ns (ft : FlowTable) : List ℕ := ft.prio.tail

/-- A rule that forwards to the next table, of its priority or of its namespace. `fte` is the entry of
    its table that it is in. -/
structure Rule where
  id : ℕ
  ft : FlowTable
  fte : ℕ
  nextNs : Bool
  dest : FlowTable
  refcount : ℕ
  deriving DecidableEq

/-- The tables of each priority, the table that the firmware goes to on a miss, the root table, the
    list of forwarding rules of each table, and all these rules. `put` tells the tables that were
    destroyed while they had rules. -/
structure State where
  ft : List ℕ → List FlowTable
  miss : ℕ → Option FlowTable
  rootFt : Option FlowTable
  fwdRules : ℕ → List ℕ
  rules : List Rule
  put : ℕ → Bool
  next : ℕ

section Model

variable (tree : List FsNode)

/-- `find_next_chained_ft`. -/
def findNextChainedFt (s : State) (node : List ℕ) : Option FlowTable :=
  OTree.climb (fun prio => (s.ft prio).head?) false tree node

/-- `find_prev_chained_ft`. -/
def findPrevChainedFt (s : State) (node : List ℕ) : Option FlowTable :=
  OTree.climb (fun prio => (s.ft prio).getLast?) true tree node

/-- `find_next_fwd_ft`. -/
def findNextFwdFt (s : State) (ft : FlowTable) (nextNs : Bool) : Option FlowTable :=
  findNextChainedFt tree s (if nextNs then ft.ns.tail else ft.prio)

/-- `connect_fts_in_prio`. -/
def connectFtsInPrio (s : State) (prio : List ℕ) (ft : Option FlowTable) : State :=
  { s with miss := fun id => if (s.ft prio).any fun iter => iter.id = id then ft else s.miss id }

/-- `connect_prev_fts`, where no priority has chains. -/
def connectPrevFts (s : State) (ft : Option FlowTable) (prio : List ℕ) : State :=
  match findPrevChainedFt tree s prio with
  | some prevFt => connectFtsInPrio s prevFt.prio ft
  | none => s

/-- `connect_fwd_rules`. -/
def connectFwdRules (s : State) : Option FlowTable → Option FlowTable → State
  | some newNextFt, some oldNextFt =>
    let moved := s.fwdRules oldNextFt.id ++ s.fwdRules newNextFt.id
    { s with
      fwdRules := update (update s.fwdRules oldNextFt.id []) newNextFt.id moved
      rules := s.rules.map fun iter =>
        if iter.id ∈ moved ∧ ¬ (iter.nextNs ∧ iter.ft.ns = newNextFt.ns) then
          { iter with dest := newNextFt }
        else iter }
  | _, _ => s

/-- `update_root_ft_create`, for a device that can modify the root or not. -/
def updateRootFtCreate (modifyRoot : Bool) (s : State) (ft : FlowTable) : State :=
  if modifyRoot then
    match s.rootFt with
    | some rootFt => if rootFt.level ≤ ft.level then s else { s with rootFt := some ft }
    | none => { s with rootFt := some ft }
  else s

/-- `list_add_flow_table`. -/
def listAddFlowTable (s : State) (ft : FlowTable) : State :=
  { s with
    ft := update s.ft ft.prio
      (((s.ft ft.prio).takeWhile fun iter => iter.level ≤ ft.level) ++
        ft :: (s.ft ft.prio).dropWhile fun iter => iter.level ≤ ft.level) }

/-- A new table is the first of its priority. -/
def State.isFirst (s : State) (ft : FlowTable) : Bool :=
  match (s.ft ft.prio).head? with
  | some firstFt => ft.level < firstFt.level
  | none => true

/-- `connect_flow_table`. -/
def connectFlowTable (modifyRoot : Bool) (s : State) (ft : FlowTable) : State :=
  let nextFt := ((s.ft ft.prio).head?).or (findNextChainedFt tree s ft.prio)
  updateRootFtCreate modifyRoot
    (if s.isFirst ft then connectFwdRules (connectPrevFts tree s (some ft) ft.prio) (some ft) nextFt
      else s) ft

/-- `__mlx5_create_flow_table` for a managed table. -/
def mlx5CreateFlowTable (modifyRoot : Bool) (s : State) (prio : List ℕ) (level : ℕ)
    (fail : Bool) : State :=
  match OTree.leafAt tree prio with
  | none => s
  | some attr =>
    if attr.numLevels ≤ level ∨ fail then s
    else
      let ft : FlowTable := ⟨s.next, level + attr.startLevel, prio⟩
      let s := { s with
        miss := update s.miss ft.id (findNextChainedFt tree s prio)
        next := s.next + 1 }
      listAddFlowTable (connectFlowTable tree modifyRoot s ft) ft

/-- `find_next_ft`, where no priority has chains. -/
def findNextFt (s : State) (ft : FlowTable) : Option FlowTable :=
  (((s.ft ft.prio).dropWhile fun iter => iter ≠ ft).tail.head?).or (findNextChainedFt tree s ft.prio)

/-- `update_root_ft_destroy`. -/
def updateRootFtDestroy (s : State) (ft : FlowTable) : State :=
  if s.rootFt = some ft then { s with rootFt := findNextFt tree s ft } else s

/-- `disconnect_flow_table`. -/
def disconnectFlowTable (s : State) (ft : FlowTable) : State :=
  let s := updateRootFtDestroy tree s ft
  if (s.ft ft.prio).head? = some ft then
    let nextFt := findNextFt tree s ft
    connectPrevFts tree (connectFwdRules s nextFt (some ft)) nextFt ft.prio
  else s

/-- The last reference of a table is put. -/
def dropFlowTable (s : State) (ft : FlowTable) : State :=
  { s with ft := update s.ft ft.prio ((s.ft ft.prio).erase ft) }

/-- `mlx5_destroy_flow_table`; a table with rules is not destroyed before they are gone. -/
def mlx5DestroyFlowTable (s : State) (ft : FlowTable) : State :=
  let s := disconnectFlowTable tree s ft
  if s.rules.any fun r => r.ft = ft then { s with put := update s.put ft.id true }
  else dropFlowTable s ft

/-- `mlx5_add_flow_rules` with an action that forwards to the next table; none for an error. A rule of
    the same entry with the same destination is shared. -/
def mlx5AddFlowRules (s : State) (ft : FlowTable) (fte : ℕ) (nextNs fail : Bool) :
    State × Option ℕ :=
  match findNextFwdFt tree s ft nextNs with
  | none => (s, none)
  | some nextFt =>
    if fail then (s, none)
    else
      match s.rules.find? fun r => r.ft = ft && r.fte = fte && r.dest = nextFt with
      | some rule =>
        ({ s with
          rules := s.rules.map fun r =>
            if r.id = rule.id then { r with refcount := r.refcount + 1 } else r }, some rule.id)
      | none =>
        ({ s with
          rules := s.rules ++ [⟨s.next, ft, fte, nextNs, nextFt, 1⟩]
          fwdRules := update s.fwdRules nextFt.id (s.next :: s.fwdRules nextFt.id)
          next := s.next + 1 }, some s.next)

/-- `mlx5_del_flow_rules` of a rule that forwards to the next table. -/
def mlx5DelFlowRules (s : State) (id : ℕ) : State :=
  match s.rules.find? fun r => r.id = id with
  | none => s
  | some rule =>
    if 1 < rule.refcount then
      { s with rules := s.rules.map fun r =>
          if r.id = id then { r with refcount := r.refcount - 1 } else r }
    else
      let s := { s with
        rules := s.rules.filter fun r => r.id ≠ id
        fwdRules := fun table => (s.fwdRules table).filter fun x => x ≠ id }
      if s.put rule.ft.id ∧ ¬ s.rules.any fun r => r.ft = rule.ft then dropFlowTable s rule.ft else s

/-- The calls. -/
inductive Call where
  | create (prio : List ℕ) (level : ℕ) (fail : Bool)
  | destroy (ft : FlowTable)
  | add (ft : FlowTable) (fte : ℕ) (nextNs fail : Bool)
  | del (handle : ℕ × Bool)

/-- The tree, and the handles: a rule and what it was asked to forward to. -/
structure World where
  fs : State
  handles : List (ℕ × Bool)

def World.start : World := ⟨⟨fun _ => [], fun _ => none, none, fun _ => [], [], fun _ => false, 0⟩, []⟩

def World.step (modifyRoot : Bool) (w : World) : Call → World
  | .create prio level fail => { w with fs := mlx5CreateFlowTable tree modifyRoot w.fs prio level fail }
  | .destroy ft => { w with fs := mlx5DestroyFlowTable tree w.fs ft }
  | .add ft fte nextNs fail =>
    match mlx5AddFlowRules tree w.fs ft fte nextNs fail with
    | (s, none) => { w with fs := s }
    | (s, some id) => ⟨s, (id, nextNs) :: w.handles⟩
  | .del handle => ⟨mlx5DelFlowRules w.fs handle.1, w.handles.erase handle⟩

end Model

/-- Tables that are there are destroyed, and get rules, and handles that were returned are deleted. -/
def Matching (w : World) : Call → Prop
  | .create .. => True
  | .destroy ft => ft ∈ w.fs.ft ft.prio
  | .add ft _ _ _ => ft ∈ w.fs.ft ft.prio
  | .del handle => handle ∈ w.handles

instance (w : World) : ∀ k, Decidable (Matching w k)
  | .create .. => instDecidableTrue
  | .destroy _ => inferInstanceAs (Decidable (_ ∈ _))
  | .add .. => inferInstanceAs (Decidable (_ ∈ _))
  | .del _ => inferInstanceAs (Decidable (_ ∈ _))

/-- The priorities of the later namespaces of the priority that a namespace is in. -/
def laterNs (tree : List FsNode) : List ℕ → List (List ℕ)
  | [] => []
  | i :: parent => OTree.leavesIn parent (i + 1) ((OTree.childrenAt tree parent).drop (i + 1))

/-- The condition on a call: a new table that comes before another one is not in the namespace of a
    rule of the list of that one that forwards to the next namespace; a table that goes has no rules,
    and when no table is after it none forwards to it; a rule that forwards to the next namespace is not
    in the root namespace, and the later namespaces of its priority have no tables; and an entry does not
    forward both ways to one table. -/
def Fits (tree : List FsNode) (w : World) : Call → Prop
  | .create prio level _ => ∀ attr, OTree.leafAt tree prio = some attr →
      w.fs.isFirst ⟨w.fs.next, level + attr.startLevel, prio⟩ = true →
        ∀ nextFt, ((w.fs.ft prio).head?).or (findNextChainedFt tree w.fs prio) = some nextFt →
          ∀ r ∈ w.fs.rules, r.id ∈ w.fs.fwdRules nextFt.id → r.nextNs = true →
            prio ∈ OTree.after tree r.ft.ns
  | .destroy ft => (∀ r ∈ w.fs.rules, r.ft ≠ ft) ∧
      (findNextFt tree w.fs ft = none → w.fs.fwdRules ft.id = [])
  | .add ft fte nextNs _ => (nextNs = true → ft.ns ≠ [] ∧ ∀ p ∈ laterNs tree ft.ns, w.fs.ft p = []) ∧
      ∀ r ∈ w.fs.rules, r.ft = ft → r.fte = fte →
        findNextFwdFt tree w.fs ft nextNs = some r.dest → r.nextNs = nextNs
  | .del _ => True

/-- The levels of the priorities grow along the tree. -/
def Ordered (tree : List FsNode) : Prop :=
  (OTree.order tree).Pairwise fun p q => ∀ a b, OTree.leafAt tree p = some a →
    OTree.leafAt tree q = some b → a.startLevel + a.numLevels ≤ b.startLevel

/-! ### The first table of some priorities -/

/-- The first table of the priorities of a list. -/
def first (s : State) (prios : List (List ℕ)) : Option FlowTable :=
  prios.findSome? fun prio => (s.ft prio).head?

/-- Where a rule should go: to the first table after its priority, or after its namespace. -/
def scope (tree : List FsNode) (r : Rule) : List (List ℕ) :=
  OTree.after tree (if r.nextNs then r.ft.ns else r.ft.prio)

/-- The tables have different numbers, and their levels are in the range of their priority. -/
structure Tables (tree : List FsNode) (s : State) : Prop where
  sorted : ∀ p, (s.ft p).Pairwise fun t u => t.level ≤ u.level
  home : ∀ p, ∀ t ∈ s.ft p, t.prio = p ∧ t.id < s.next ∧ ∃ a, OTree.leafAt tree p = some a ∧
    a.startLevel ≤ t.level ∧ t.level < a.startLevel + a.numLevels
  nodup : ∀ p, (s.ft p).Nodup
  unique : ∀ p, ∀ t ∈ s.ft p, ∀ q, ∀ u ∈ s.ft q, t.id = u.id → t = u

section First

variable {tree : List FsNode} {s s' : State} {p q : List ℕ} {t u : FlowTable} {L L₁ L₂ : List (List ℕ)}
  {l : List FlowTable}

theorem findNext_eq (s : State) (p : List ℕ) :
    findNextChainedFt tree s p = first s (OTree.after tree p) := OTree.climb_false _ _ _

theorem first_append : first s (L₁ ++ L₂) = (first s L₁).or (first s L₂) := List.findSome?_append

theorem first_cons : first s (p :: L) = ((s.ft p).head?).or (first s L) := by
  unfold first
  rw [List.findSome?_cons]
  cases (s.ft p).head? <;> rfl

theorem first_some (h : first s L = some t) : ∃ p ∈ L, t ∈ s.ft p := by
  obtain ⟨p, hp, hhead⟩ := List.exists_of_findSome?_eq_some h
  exact ⟨p, hp, List.mem_of_head? hhead⟩

theorem first_none : first s L = none ↔ ∀ p ∈ L, s.ft p = [] := by
  unfold first
  rw [List.findSome?_eq_none_iff]
  simp

theorem first_congr (h : ∀ p ∈ L, s'.ft p = s.ft p) : first s' L = first s L := by
  induction L with
  | nil => rfl
  | cons p L ih =>
    obtain ⟨hp, hL⟩ := List.forall_mem_cons.mp h
    rw [first_cons, first_cons, hp, ih hL]

/-- One priority of the list has other tables. -/
theorem first_update (h : s'.ft = update s.ft p l) (h₁ : p ∉ L₁) (h₂ : p ∉ L₂) :
    first s' (L₁ ++ p :: L₂) = (first s L₁).or ((l.head?).or (first s L₂)) := by
  have hother : ∀ q, q ≠ p → s'.ft q = s.ft q := fun q hq => by rw [h, update_of_ne hq]
  have hself : s'.ft p = l := by rw [h, update_self]
  rw [first_append, first_cons, hself, first_congr fun q hq => hother q fun heq => h₁ (heq ▸ hq),
    first_congr fun q hq => hother q fun heq => h₂ (heq ▸ hq)]

theorem first_update_other (h : s'.ft = update s.ft p l) (hp : p ∉ L) :
    first s' L = first s L :=
  first_congr fun q hq => by
    have hne : q ≠ p := fun heq => hp (heq ▸ hq)
    rw [h, update_of_ne hne]

/-- The order around a priority with tables. -/
theorem Tables.split (tables : Tables tree s) (ht : t ∈ s.ft p) :
    OTree.order tree = OTree.before tree p ++ p :: OTree.after tree p := by
  obtain ⟨-, -, a, ha, -⟩ := tables.home p t ht
  exact OTree.order_leaf ha

theorem order_nodup (h : OTree.order tree = L₁ ++ p :: L₂) :
    p ∉ L₁ ∧ p ∉ L₂ ∧ ∀ q ∈ L₁, q ∉ L₂ := by
  have hnd : (OTree.order tree).Nodup := OTree.nodup_leavesIn [] 0 tree
  rw [h] at hnd
  obtain ⟨-, hnd₂, hdisj⟩ := nodup_append'.mp hnd
  refine ⟨fun hp => hdisj hp mem_cons_self, (List.nodup_cons.mp hnd₂).1, fun q hq hq' => ?_⟩
  exact hdisj hq (List.mem_cons_of_mem _ hq')

/-- A part of the order that goes to its end has a priority with all that is after it, or is after
    it. -/
theorem suffix_cases {S : List (List ℕ)} (h : S <:+ L₁ ++ p :: L₂) :
    (∃ B, B <:+ L₁ ∧ S = B ++ p :: L₂) ∨ S <:+ L₂ := by
  induction L₁ with
  | nil =>
    rcases List.suffix_cons_iff.mp h with rfl | hS
    · exact .inl ⟨[], List.nil_suffix, rfl⟩
    · exact .inr hS
  | cons q L₁ ih =>
    rcases List.suffix_cons_iff.mp h with rfl | hS
    · exact .inl ⟨q :: L₁, List.suffix_rfl, rfl⟩
    · rcases ih hS with ⟨B, hB, hS⟩ | hS
      · exact .inl ⟨B, hB.trans (List.suffix_cons q L₁), hS⟩
      · exact .inr hS

/-- A priority is in the order once. -/
theorem order_unique (h : OTree.order tree = L₁ ++ p :: L₂)
    (h' : OTree.order tree = OTree.before tree p ++ p :: OTree.after tree p) :
    L₁ = OTree.before tree p ∧ L₂ = OTree.after tree p := by
  have hsuf : (p :: OTree.after tree p) <:+ L₁ ++ p :: L₂ := by
    rw [← h, h']
    exact suffix_append _ _
  obtain ⟨hp₁, hp₂, -⟩ := order_nodup h
  have htail : L₂ = OTree.after tree p := by
    rcases suffix_cases hsuf with ⟨B, hB, heq⟩ | hS
    · cases B with
      | nil => exact (List.cons.inj heq).2.symm
      | cons x B =>
        obtain ⟨rfl, -⟩ := List.cons.inj heq
        exact absurd (hB.subset mem_cons_self) hp₁
    · exact absurd (hS.subset mem_cons_self) hp₂
  refine ⟨?_, htail⟩
  rw [h', htail] at h
  exact (List.append_cancel_right h).symm

/-- What is after a priority with tables is a part of the order. -/
theorem Tables.suffix (tables : Tables tree s) (ht : t ∈ s.ft q) :
    OTree.after tree q <:+ OTree.order tree ∧ OTree.after tree t.ns <:+ OTree.after tree q := by
  obtain ⟨rfl, -, a, ha, -⟩ := tables.home q t ht
  refine ⟨?_, ?_⟩
  · rw [tables.split ht]
    exact (List.suffix_cons _ _).trans (suffix_append _ _)
  · unfold FlowTable.ns
    rcases hprio : t.prio with _ | ⟨i, parent⟩
    · exact List.suffix_rfl
    · exact OTree.after_suffix tree i parent

/-- The tables of the last priority before one that has tables are connected, and no others. -/
theorem connectPrev_spec (tables : Tables tree s)
    (hp : OTree.order tree = OTree.before tree p ++ p :: OTree.after tree p) (ht : t ∈ s.ft q)
    (n : Option FlowTable) :
    (∃ C, OTree.after tree q = C ++ p :: OTree.after tree p ∧ first s C = none ∧
        (connectPrevFts tree s n p).miss t.id = n) ∨
      ((∀ C, OTree.after tree q = C ++ p :: OTree.after tree p → first s C ≠ none) ∧
        (connectPrevFts tree s n p).miss t.id = s.miss t.id) := by
  have hq := tables.split ht
  have hprev : findPrevChainedFt tree s p =
      (OTree.before tree p).reverse.findSome? fun prio => (s.ft prio).getLast? :=
    OTree.climb_true _ _ _
  have hsame : ∀ q', q' ≠ q → (s.ft q').any (fun iter => decide (iter.id = t.id)) = false := by
    intro q' hne
    rw [List.any_eq_false]
    intro u hu hid
    have heq := tables.unique q' u hu q t ht (by simpa using hid)
    exact hne ((tables.home q' u hu).1.symm.trans (heq ▸ (tables.home q t ht).1))
  by_cases hin : p ∈ OTree.after tree q
  · have hsuf : OTree.after tree q <:+ OTree.before tree p ++ p :: OTree.after tree p := by
      rw [← hp]
      exact (tables.suffix ht).1
    rcases suffix_cases hsuf with ⟨C, -, hC⟩ | hS
    · have hbefore : OTree.before tree p = OTree.before tree q ++ q :: C := by
        have h := hq
        rw [hC, ← cons_append, ← append_assoc] at h
        exact (order_unique h hp).1.symm
      have hnd : OTree.order tree = OTree.before tree q ++ q :: (C ++ p :: OTree.after tree p) := by
        rw [← hC]
        exact hq
      have hqC : q ∉ C := fun h => (order_nodup hnd).2.1 (mem_append_left _ h)
      rw [hbefore, List.reverse_append, List.reverse_cons, append_assoc,
        List.findSome?_append] at hprev
      by_cases hfirst : first s C = none
      · left
        refine ⟨C, hC, hfirst, ?_⟩
        have hempty : (C.reverse.findSome? fun prio => (s.ft prio).getLast?) = none := by
          rw [List.findSome?_eq_none_iff]
          intro x hx
          rw [first_none.mp hfirst x (mem_reverse.mp hx)]
          rfl
        obtain ⟨u, hu⟩ : ∃ u, (s.ft q).getLast? = some u := by
          rw [List.getLast?_eq_some_getLast (List.ne_nil_of_mem ht)]
          exact ⟨_, rfl⟩
        have huq := (tables.home q u (List.mem_of_getLast? hu)).1
        rw [hempty, none_or, List.singleton_append, List.findSome?_cons, hu] at hprev
        unfold connectPrevFts connectFtsInPrio
        rw [hprev]
        dsimp only
        rw [huq, if_pos]
        exact any_eq_true.mpr ⟨t, ht, by simp⟩
      · right
        refine ⟨fun C' hC' => ?_, ?_⟩
        · rw [hC] at hC'
          rw [← List.append_cancel_right hC']
          exact hfirst
        · rcases hfound : C.reverse.findSome? (fun prio => (s.ft prio).getLast?) with _ | u
          · rw [List.findSome?_eq_none_iff] at hfound
            refine absurd (first_none.mpr fun x hx => ?_) hfirst
            simpa using hfound x (mem_reverse.mpr hx)
          · rw [hfound, some_or] at hprev
            obtain ⟨q', hq', hlast⟩ := List.exists_of_findSome?_eq_some hfound
            have huq := (tables.home q' u (List.mem_of_getLast? hlast)).1
            unfold connectPrevFts connectFtsInPrio
            rw [hprev]
            dsimp only
            rw [huq, if_neg]
            rw [hsame q' fun heq => hqC (heq ▸ mem_reverse.mp hq')]
            simp
    · exact absurd (hS.subset hin) (order_nodup hp).2.1
  · right
    refine ⟨fun C hC => absurd (hC ▸ by simp) hin, ?_⟩
    unfold connectPrevFts connectFtsInPrio
    rcases hfound : findPrevChainedFt tree s p with _ | u
    · rfl
    · rw [hfound] at hprev
      obtain ⟨q', hq', hlast⟩ := List.exists_of_findSome?_eq_some hprev.symm
      have huq := (tables.home q' u (List.mem_of_getLast? hlast)).1
      dsimp only
      rw [huq, if_neg]
      rw [hsame q' fun heq => ?_]
      · simp
      · subst heq
        obtain ⟨X, Y, hXY⟩ := List.append_of_mem (mem_reverse.mp hq')
        have h := hp
        rw [hXY, append_assoc, cons_append] at h
        rw [← (order_unique h hq).2] at hin
        simp at hin

/-- A search for a number that no table has changes nothing. -/
theorem connectPrev_other {id : ℕ} (h : ∀ q, ∀ u ∈ s.ft q, u.id ≠ id) (n : Option FlowTable) :
    (connectPrevFts tree s n p).miss id = s.miss id := by
  unfold connectPrevFts
  rcases findPrevChainedFt tree s p with _ | u
  · rfl
  · unfold connectFtsInPrio
    dsimp only
    rw [if_neg]
    intro hany
    obtain ⟨u', hu', hid⟩ := any_eq_true.mp hany
    exact h _ u' hu' (by simpa using hid)

/-- The first table when one priority gets other tables: of a part of the order with this priority, and
    of one after it. -/
theorem first_cases (hp : OTree.order tree = OTree.before tree p ++ p :: OTree.after tree p)
    (hft : s'.ft = update s.ft p l) (hL : L <:+ OTree.order tree) :
    (∃ B, B <:+ OTree.before tree p ∧ L = B ++ p :: OTree.after tree p ∧
      first s L = (first s B).or (((s.ft p).head?).or (first s (OTree.after tree p))) ∧
      first s' L = (first s B).or ((l.head?).or (first s (OTree.after tree p)))) ∨
    (L <:+ OTree.after tree p ∧ p ∉ L ∧ first s' L = first s L) := by
  obtain ⟨hp₁, hp₂, -⟩ := order_nodup hp
  rw [hp] at hL
  rcases suffix_cases hL with ⟨B, hB, rfl⟩ | hS
  · refine .inl ⟨B, hB, rfl, ?_, first_update hft (fun h => hp₁ (hB.subset h)) hp₂⟩
    rw [first_append, first_cons]
  · have hpL : p ∉ L := fun h => hp₂ (hS.subset h)
    exact .inr ⟨hS, hpL, first_update_other hft hpL⟩

theorem first_heads (h : ∀ p, (s'.ft p).head? = (s.ft p).head?) : first s' L = first s L := by
  unfold first
  rw [show (fun p => (s'.ft p).head?) = fun p => (s.ft p).head? from funext h]

section
variable (tables : Tables tree s)
  (hp : OTree.order tree = OTree.before tree p ++ p :: OTree.after tree p) (ht : t ∈ s.ft q)
include tables hp ht

/-- After `connect_prev_fts` the miss targets are right for the tables that the priority is to have. -/
theorem connectPrev_miss
    (hmiss : s.miss t.id = first s (OTree.after tree q)) (hft : s'.ft = update s.ft p l) :
    (connectPrevFts tree s ((l.head?).or (first s (OTree.after tree p))) p).miss t.id =
      first s' (OTree.after tree q) := by
  rcases first_cases hp hft (tables.suffix ht).1 with ⟨B, -, hB, hold, hnew⟩ | ⟨-, hout, hnew⟩
  · rcases connectPrev_spec tables hp ht ((l.head?).or (first s (OTree.after tree p))) with
      ⟨C, hC, hnone, hset⟩ | ⟨hsome, hkept⟩
    · rw [hB] at hC
      rw [List.append_cancel_right hC] at hnew
      rw [hset, hnew, hnone, none_or]
    · obtain ⟨b, hb⟩ := Option.ne_none_iff_exists'.mp (hsome B hB)
      rw [hkept, hmiss, hold, hnew, hb]
      rfl
  · rcases connectPrev_spec tables hp ht ((l.head?).or (first s (OTree.after tree p))) with
      ⟨C, hC, -⟩ | ⟨-, hkept⟩
    · exact absurd (hC ▸ by simp) hout
    · rw [hkept, hmiss, hnew]

/-- What is found first from a priority on is not found after a later one that has tables. -/
theorem Tables.first_ne (hle : OTree.after tree q <:+ OTree.after tree p) {d e : FlowTable}
    (hd : first s (p :: OTree.after tree p) = some d) (he : first s (OTree.after tree q) = some e) :
    d ≠ e := by
  have hq := tables.split ht
  have hsuf : (q :: OTree.after tree q) <:+ (p :: OTree.after tree p) := by
    refine @List.suffix_of_suffix_length_le _ _ (OTree.order tree) _ ?_ ?_ ?_
    · rw [hq]
      exact suffix_append _ _
    · rw [hp]
      exact suffix_append _ _
    · simpa using hle.length_le
  obtain ⟨C, hC⟩ := hsuf
  obtain ⟨x, l, hx⟩ := List.exists_cons_of_ne_nil (List.ne_nil_of_mem ht)
  have hfound : ∃ q' ∈ C ++ [q], d ∈ s.ft q' := by
    rw [← hC, first_append, first_cons, hx, List.head?_cons, some_or] at hd
    refine first_some (L := C ++ [q]) ?_
    rw [first_append, first_cons, hx, List.head?_cons, some_or]
    exact hd
  obtain ⟨q', hq', hdmem⟩ := hfound
  obtain ⟨p', hp', hemem⟩ := first_some he
  intro heq
  have hsame : q' = p' :=
    (tables.home q' d hdmem).1.symm.trans ((heq ▸ (tables.home p' e hemem).1))
  have hnd : (C ++ q :: OTree.after tree q).Nodup := by
    rw [hC]
    have hall : (OTree.order tree).Nodup := OTree.nodup_leavesIn [] 0 tree
    rw [hp] at hall
    exact hall.sublist (List.sublist_append_right _ _)
  have hnd' : ((C ++ [q]) ++ OTree.after tree q).Nodup := by simpa using hnd
  exact (nodup_append'.mp hnd').2.2 hq' (hsame ▸ hp')

end

/-- The levels of the tables grow along the order. -/
theorem Tables.lt (tables : Tables tree s) (hordered : Ordered tree)
    (hp : OTree.order tree = L₁ ++ p :: L₂) {attr : PrioAttr}
    (hattr : OTree.leafAt tree p = some attr) :
    (∀ q ∈ L₁, ∀ u ∈ s.ft q, u.level < attr.startLevel) ∧
      ∀ q ∈ L₂, ∀ u ∈ s.ft q, attr.startLevel + attr.numLevels ≤ u.level := by
  unfold Ordered at hordered
  rw [hp] at hordered
  obtain ⟨-, hcons, hcross⟩ := List.pairwise_append.mp hordered
  refine ⟨fun q hq u hu => ?_, fun q hq u hu => ?_⟩
  · obtain ⟨-, -, a, ha, -, hlt⟩ := tables.home q u hu
    have hle := hcross q hq p mem_cons_self a attr ha hattr
    omega
  · obtain ⟨-, -, a, ha, hle, -⟩ := tables.home q u hu
    have hle' := (pairwise_cons.mp hcons).1 q hq attr a hattr ha
    omega

/-- What holds of the tables holds when only the rules change. -/
theorem Tables.rules (tables : Tables tree s) (hft : s'.ft = s.ft) (hnext : s.next ≤ s'.next) :
    Tables tree s' := by
  refine ⟨?_, ?_, ?_, ?_⟩
  · rw [hft]
    exact tables.sorted
  · rw [hft]
    intro p t ht
    obtain ⟨hprio, hlt, ha⟩ := tables.home p t ht
    exact ⟨hprio, Nat.lt_of_lt_of_le hlt hnext, ha⟩
  · rw [hft]
    exact tables.nodup
  · rw [hft]
    exact tables.unique

end First

/-! ### The rules that forward -/

/-- Each rule goes to the first table of its scope, and is in the list of that table only. -/
structure Fwd (tree : List FsNode) (s : State) : Prop where
  home : ∀ r ∈ s.rules, r.ft ∈ s.ft r.ft.prio
  dest : ∀ r ∈ s.rules, first s (scope tree r) = some r.dest
  list : ∀ r ∈ s.rules, ∀ x, r.id ∈ s.fwdRules x ↔ x = r.dest.id
  listed : ∀ x, ∀ id ∈ s.fwdRules x, ∃ r ∈ s.rules, r.id = id

/-- The rules have different numbers and are counted by the handles, which are of their kind. -/
structure Refs (s : State) (handles : List (ℕ × Bool)) : Prop where
  nodup : (s.rules.map fun r => r.id).Nodup
  lt : ∀ r ∈ s.rules, r.id < s.next
  alive : ∀ h ∈ handles, ∃ r ∈ s.rules, r.id = h.1 ∧ r.nextNs = h.2
  count : ∀ r ∈ s.rules, r.refcount = handles.countP fun h => h.1 = r.id

section Moves

variable {tree : List FsNode} {s s' : State} {old new : FlowTable} {r : Rule}
  {handles : List (ℕ × Bool)}

/-- What `connect_fwd_rules` makes of a rule. -/
def Rule.connect (new old : FlowTable) (s : State) (r : Rule) : Rule :=
  if r.id ∈ s.fwdRules old.id ++ s.fwdRules new.id ∧ ¬ (r.nextNs ∧ r.ft.ns = new.ns) then
    { r with dest := new }
  else r

@[simp] theorem connect_same : (r.connect new old s).id = r.id ∧ (r.connect new old s).ft = r.ft ∧
    (r.connect new old s).fte = r.fte ∧ (r.connect new old s).nextNs = r.nextNs ∧
    (r.connect new old s).refcount = r.refcount := by
  unfold Rule.connect
  split <;> simp

theorem scope_connect : scope tree (r.connect new old s) = scope tree r := by
  obtain ⟨-, hft, -, hns, -⟩ := @connect_same s old new r
  unfold scope
  rw [hft, hns]

section
variable (fwd : Fwd tree s) (hr : r ∈ s.rules)
include fwd hr

/-- A rule of the old list that is in another namespace goes to the new table. -/
theorem Fwd.connect_moved (hdest : r.dest = old)
    (hns : ¬ (r.nextNs ∧ r.ft.ns = new.ns)) : (r.connect new old s).dest = new := by
  have hmem : r.id ∈ s.fwdRules old.id := (fwd.list r hr _).mpr (by rw [hdest])
  unfold Rule.connect
  rw [if_pos ⟨mem_append_left _ hmem, hns⟩]

/-- A rule that is not in the old list stays where it is. -/
theorem Fwd.connect_kept (hold : r.dest.id ≠ old.id)
    (hnew : r.dest.id = new.id → r.dest = new) : (r.connect new old s).dest = r.dest := by
  unfold Rule.connect
  split
  · rename_i h
    rcases mem_append.mp h.1 with hmem | hmem
    · exact absurd ((fwd.list r hr _).mp hmem).symm hold
    · exact (hnew ((fwd.list r hr _).mp hmem).symm).symm
  · rfl

/-- The lists after the move. -/
theorem Fwd.connect_list (x : ℕ) : r.id ∈ (connectFwdRules s (some new) (some old)).fwdRules x ↔
      (x = new.id ∧ (r.dest.id = old.id ∨ r.dest.id = new.id)) ∨
        (x ≠ new.id ∧ x ≠ old.id ∧ x = r.dest.id) := by
  unfold connectFwdRules
  dsimp only
  by_cases hnew : x = new.id
  · rw [hnew, update_self, mem_append, fwd.list r hr, fwd.list r hr]
    simp only [true_and, ne_eq, not_true_eq_false, false_and, or_false]
    exact or_congr eq_comm eq_comm
  · rw [update_of_ne hnew]
    by_cases hold : x = old.id
    · rw [hold, update_self]
      simp only [List.not_mem_nil, ne_eq, not_true_eq_false, false_and, and_false, or_false,
        false_iff, not_and]
      exact fun h => absurd (hold.trans h) hnew
    · rw [update_of_ne hold, fwd.list r hr]
      simp [hnew, hold]

end

/-- The rules and lists are right after the move when each rule that goes to the old table is to go to
    the new one, and the others stay. -/
theorem Fwd.connect (fwd : Fwd tree s) {new? old? : Option FlowTable}
    (hrules : s'.rules = (connectFwdRules s new? old?).rules)
    (hlists : s'.fwdRules = (connectFwdRules s new? old?).fwdRules)
    (hhome : ∀ r ∈ s.rules, r.ft ∈ s'.ft r.ft.prio)
    (hne : ∀ new old, new? = some new → old? = some old → new.id ≠ old.id)
    (hold : ∀ old, old? = some old → ∀ r ∈ s.rules, r.dest.id = old.id → r.dest = old)
    (hnew : ∀ new, new? = some new → ∀ r ∈ s.rules, r.dest.id = new.id → r.dest = new)
    (hmove : ∀ r ∈ s.rules,
      (some r.dest = old? ∧ ∃ new, new? = some new ∧ first s' (scope tree r) = some new ∧
        ¬ (r.nextNs ∧ r.ft.ns = new.ns)) ∨
      (some r.dest ≠ old? ∧ first s' (scope tree r) = some r.dest)) : Fwd tree s' := by
  have hsame : (connectFwdRules s new? old? = s) → (∀ r ∈ s.rules,
      first s' (scope tree r) = some r.dest) → Fwd tree s' := by
    intro heq hdest
    rw [heq] at hrules hlists
    refine ⟨?_, ?_, ?_, ?_⟩
    · rw [hrules]
      exact hhome
    · rw [hrules]
      exact hdest
    · rw [hrules, hlists]
      exact fwd.list
    · rw [hrules, hlists]
      exact fwd.listed
  rcases new? with _ | new
  · refine hsame rfl fun r hr => ?_
    rcases hmove r hr with ⟨-, n, hn, -⟩ | ⟨-, h⟩
    · cases hn
    · exact h
  rcases old? with _ | old
  · refine hsame rfl fun r hr => ?_
    rcases hmove r hr with ⟨h, -⟩ | ⟨-, h⟩
    · cases h
    · exact h
  replace hrules : s'.rules = s.rules.map (Rule.connect new old s) := hrules
  -- where a rule goes, and the list it is in
  have hrule : ∀ r ∈ s.rules, first s' (scope tree r) = some (r.connect new old s).dest ∧
      ∀ x, r.id ∈ s'.fwdRules x ↔ x = (r.connect new old s).dest.id := by
    intro r hr
    rcases hmove r hr with ⟨hdest, n, hn, hfirst, hns⟩ | ⟨hdest, hfirst⟩
    · cases hn
      cases hdest
      rw [fwd.connect_moved hr rfl hns]
      refine ⟨hfirst, fun x => ?_⟩
      rw [hlists, fwd.connect_list hr]
      constructor
      · rintro (⟨h, -⟩ | ⟨-, hx, h⟩)
        · exact h
        · exact absurd h hx
      · exact fun h => .inl ⟨h, .inl rfl⟩
    · have hkept : r.dest.id ≠ old.id := fun h => hdest (by rw [hold old rfl r hr h])
      rw [fwd.connect_kept hr hkept (hnew new rfl r hr)]
      refine ⟨hfirst, fun x => ?_⟩
      rw [hlists, fwd.connect_list hr]
      constructor
      · rintro (⟨h, h' | h'⟩ | ⟨-, -, h⟩)
        · exact absurd h' hkept
        · exact h.trans h'.symm
        · exact h
      · intro h
        by_cases hx : x = new.id
        · exact .inl ⟨hx, .inr (h.symm.trans hx)⟩
        · exact .inr ⟨hx, fun h' => hkept (h.symm.trans h'), h⟩
  refine ⟨?_, ?_, ?_, ?_⟩
  · rw [hrules]
    intro r' hr'
    obtain ⟨r, hr, rfl⟩ := mem_map.mp hr'
    rw [connect_same.2.1]
    exact hhome r hr
  · rw [hrules]
    intro r' hr'
    obtain ⟨r, hr, rfl⟩ := mem_map.mp hr'
    rw [scope_connect]
    exact (hrule r hr).1
  · rw [hrules]
    intro r' hr' x
    obtain ⟨r, hr, rfl⟩ := mem_map.mp hr'
    rw [connect_same.1]
    exact (hrule r hr).2 x
  · intro x id hid
    rw [hlists] at hid
    have hlisted : ∃ y, id ∈ s.fwdRules y := by
      unfold connectFwdRules at hid
      dsimp only at hid
      by_cases hx : x = new.id
      · rw [hx, update_self] at hid
        exact (mem_append.mp hid).elim (fun h => ⟨_, h⟩) fun h => ⟨_, h⟩
      · rw [update_of_ne hx] at hid
        by_cases hx' : x = old.id
        · rw [hx', update_self] at hid
          cases hid
        · rw [update_of_ne hx'] at hid
          exact ⟨x, hid⟩
    obtain ⟨y, hy⟩ := hlisted
    obtain ⟨r, hr, rfl⟩ := fwd.listed y id hy
    rw [hrules]
    exact ⟨_, List.mem_map_of_mem hr, connect_same.1⟩

/-- The counts follow the handles. -/
theorem Refs.recount (refs : Refs s handles) {f : Rule → Rule} {handles' : List (ℕ × Bool)}
    (hf : ∀ r, (f r).id = r.id ∧ (f r).nextNs = r.nextNs)
    (hsame : s'.rules = s.rules.map f ∧ s.next ≤ s'.next)
    (halive : ∀ h ∈ handles', h ∈ handles ∨ ∃ r ∈ s.rules, r.id = h.1 ∧ r.nextNs = h.2)
    (hcount : ∀ r ∈ s.rules, r.refcount = handles.countP (fun h => h.1 = r.id) →
      (f r).refcount = handles'.countP fun h => h.1 = r.id) : Refs s' handles' := by
  obtain ⟨hrules, hnext⟩ := hsame
  refine ⟨?_, ?_, ?_, ?_⟩
  · rw [hrules, List.map_map]
    have hcomp : ((fun r => r.id) ∘ f) = fun r : Rule => r.id := funext fun r => (hf r).1
    rw [hcomp]
    exact refs.nodup
  · rw [hrules]
    intro r' hr'
    obtain ⟨r, hr, rfl⟩ := mem_map.mp hr'
    rw [(hf r).1]
    exact Nat.lt_of_lt_of_le (refs.lt r hr) hnext
  · intro h hh
    obtain ⟨r, hr, hid, hns⟩ := (halive h hh).elim (refs.alive h) fun hex => hex
    rw [hrules]
    exact ⟨f r, List.mem_map_of_mem hr, by rw [(hf r).1, hid], by rw [(hf r).2, hns]⟩
  · rw [hrules]
    intro r' hr'
    obtain ⟨r, hr, rfl⟩ := mem_map.mp hr'
    rw [(hf r).1]
    exact hcount r hr (refs.count r hr)

/-- The move keeps the numbers, kinds and counts of the rules. -/
theorem Refs.connect (refs : Refs s handles) {new? old? : Option FlowTable}
    (hrules : s'.rules = (connectFwdRules s new? old?).rules) (hnext : s.next ≤ s'.next) :
    Refs s' handles := by
  have hmap : ∃ f : Rule → Rule, (∀ r, (f r).id = r.id ∧ (f r).nextNs = r.nextNs ∧
      (f r).refcount = r.refcount) ∧ s'.rules = s.rules.map f := by
    rcases new? with _ | new
    · exact ⟨fun r => r, fun r => ⟨rfl, rfl, rfl⟩, by rw [hrules, map_id']; rfl⟩
    · rcases old? with _ | old
      · exact ⟨fun r => r, fun r => ⟨rfl, rfl, rfl⟩, by rw [hrules, map_id']; rfl⟩
      · refine ⟨Rule.connect new old s, fun r => ?_, hrules⟩
        obtain ⟨hid, -, -, hns, hcount⟩ := @connect_same s old new r
        exact ⟨hid, hns, hcount⟩
  obtain ⟨f, hf, hrules⟩ := hmap
  refine refs.recount (fun r => ⟨(hf r).1, (hf r).2.1⟩) ⟨hrules, hnext⟩ (fun h hh => .inl hh) ?_
  intro r _ hcount
  rw [(hf r).2.2, hcount]

end Moves

/-! ### Steps -/

/-- What holds between the calls. -/
structure Chained (tree : List FsNode) (modifyRoot : Bool) (s : State)
    (handles : List (ℕ × Bool)) : Prop where
  tables : Tables tree s
  miss : ∀ p, ∀ t ∈ s.ft p, s.miss t.id = first s (OTree.after tree p)
  fwd : Fwd tree s
  refs : Refs s handles
  put : ∀ x, s.put x = false
  root : Ordered tree → modifyRoot = true → s.rootFt = first s (OTree.order tree)

section Around

variable {tree : List FsNode} {modifyRoot : Bool} {s s' : State} {p x : List ℕ} {r : Rule}
  {ft n : FlowTable} {l : List FlowTable} {handles : List (ℕ × Bool)}

theorem Fwd.dest_mem (fwd : Fwd tree s) (hr : r ∈ s.rules) :
    ∃ q ∈ scope tree r, r.dest ∈ s.ft q := first_some (fwd.dest r hr)

theorem Fwd.scope_suffix (fwd : Fwd tree s) (tables : Tables tree s) (hr : r ∈ s.rules) :
    scope tree r <:+ OTree.order tree := by
  obtain ⟨hprio, hns⟩ := tables.suffix (fwd.home r hr)
  unfold scope
  split
  · exact hns.trans hprio
  · exact hprio

/-- What a rule can forward to is not in its namespace, when it forwards to the next one. -/
theorem scope_ns (hx : x ∈ scope tree r) : ¬ (r.nextNs ∧ r.ft.ns = x.tail) := by
  rintro ⟨hns, heq⟩
  unfold scope at hx
  rw [if_pos hns] at hx
  exact OTree.not_suffix_of_mem_after _ hx (heq ▸ List.tail_suffix x)

/-- The rules when a priority gets other tables: those that went to the first table from this priority
    on are to go to the new first one, the others stay. -/
theorem Fwd.cases (fwd : Fwd tree s) (tables : Tables tree s)
    (hp : OTree.order tree = OTree.before tree p ++ p :: OTree.after tree p)
    (hft : s'.ft = update s.ft p l) (hr : r ∈ s.rules)
    (hskip : p ∉ scope tree r → some r.dest ≠ first s (p :: OTree.after tree p)) :
    (some r.dest = first s (p :: OTree.after tree p) ∧
      (∀ x ∈ p :: OTree.after tree p, x ∈ scope tree r) ∧
      first s' (scope tree r) = (l.head?).or (first s (OTree.after tree p))) ∨
    (some r.dest ≠ first s (p :: OTree.after tree p) ∧ first s' (scope tree r) = some r.dest) := by
  have hdest := fwd.dest r hr
  rcases first_cases hp hft (fwd.scope_suffix tables hr) with
    ⟨B, hB, hscope, hold, hnew⟩ | ⟨-, hout, hnew⟩
  · rw [← first_cons, hdest] at hold
    rcases hb : first s B with _ | b
    · left
      rw [hb, none_or] at hold hnew
      refine ⟨hold, fun x hx => ?_, hnew⟩
      rw [hscope]
      exact List.mem_append_right _ hx
    · right
      rw [hb, some_or] at hold hnew
      refine ⟨fun heq => ?_, by rw [hnew, hold]⟩
      -- the table before the priority is not one from there on
      obtain ⟨q, hq, hmem⟩ := first_some hb
      obtain ⟨q', hq', hmem'⟩ := first_some heq.symm
      rw [Option.some.inj hold] at hmem'
      have hsame : q = q' := (tables.home q b hmem).1.symm.trans (tables.home q' b hmem').1
      obtain ⟨hp₁, -, hdisj⟩ := order_nodup hp
      rcases mem_cons.mp hq' with rfl | hq'
      · exact hp₁ (hB.subset (hsame ▸ hq))
      · exact hdisj q (hB.subset hq) (hsame ▸ hq')
  · exact .inr ⟨hskip hout, by rw [hnew, hdest]⟩

end Around

section Create

variable {tree : List FsNode} {modifyRoot : Bool} {s s' : State} {ft t : FlowTable} {p : List ℕ}
  {handles : List (ℕ × Bool)} {attr : PrioAttr} {l : List FlowTable} {n? o? : Option FlowTable}

theorem connectPrev_eq (s : State) (p : List ℕ) :
    connectPrevFts tree s n? p = { s with miss := (connectPrevFts tree s n? p).miss } := by
  unfold connectPrevFts
  rcases findPrevChainedFt tree s p with _ | u <;> rfl

theorem connectFwd_miss (s : State) (miss : ℕ → Option FlowTable) (next : ℕ) :
    connectFwdRules { s with miss := miss, next := next } n? o? = { s with
        miss := miss, next := next
        fwdRules := (connectFwdRules s n? o?).fwdRules
        rules := (connectFwdRules s n? o?).rules } := by
  rcases n? with _ | n
  · rfl
  · rcases o? with _ | o <;> rfl

theorem updateRoot_eq (s : State) : updateRootFtCreate modifyRoot s ft =
    { s with rootFt := (updateRootFtCreate modifyRoot s ft).rootFt } := by
  unfold updateRootFtCreate
  split
  · split
    · split <;> rfl
    · rfl
  · rfl

theorem updateRoot_congr (h : s'.rootFt = s.rootFt) :
    (updateRootFtCreate modifyRoot s' ft).rootFt = (updateRootFtCreate modifyRoot s ft).rootFt := by
  unfold updateRootFtCreate
  rw [h]
  split
  · split
    · split
      · exact h
      · rfl
    · rfl
  · exact h

theorem insert_perm (l : List FlowTable) (ft : FlowTable) :
    ((l.takeWhile fun iter => iter.level ≤ ft.level) ++
      ft :: l.dropWhile fun iter => iter.level ≤ ft.level).Perm (ft :: l) := by
  refine List.perm_middle.trans ?_
  rw [List.takeWhile_append_dropWhile]

theorem insert_sorted (h : l.Pairwise fun t u => t.level ≤ u.level) :
    ((l.takeWhile fun iter => iter.level ≤ ft.level) ++
      ft :: l.dropWhile fun iter => iter.level ≤ ft.level).Pairwise fun t u => t.level ≤ u.level := by
  induction l with
  | nil => simp
  | cons x l ih =>
    obtain ⟨hx, hl⟩ := pairwise_cons.mp h
    by_cases hle : x.level ≤ ft.level
    · rw [List.takeWhile_cons_of_pos (by simpa using hle),
        List.dropWhile_cons_of_pos (by simpa using hle), cons_append]
      refine pairwise_cons.mpr ⟨fun u hu => ?_, ih hl⟩
      rcases mem_cons.mp ((insert_perm l ft).mem_iff.mp hu) with rfl | hu
      · exact hle
      · exact hx u hu
    · rw [List.takeWhile_cons_of_neg (by simpa using hle),
        List.dropWhile_cons_of_neg (by simpa using hle), List.nil_append]
      refine pairwise_cons.mpr ⟨fun u hu => ?_, h⟩
      rcases mem_cons.mp hu with rfl | hu
      · omega
      · have hxu := hx u hu
        omega

/-- A table that is the first of its priority goes in front. -/
theorem insert_first (h : s.isFirst ft = true) :
    ((s.ft ft.prio).takeWhile fun iter => iter.level ≤ ft.level) ++
      (ft :: (s.ft ft.prio).dropWhile fun iter => iter.level ≤ ft.level) = ft :: s.ft ft.prio := by
  unfold State.isFirst at h
  rcases hl : s.ft ft.prio with _ | ⟨x, l⟩
  · rfl
  · rw [hl] at h
    have hlt : ¬ x.level ≤ ft.level := by simpa using h
    rw [List.takeWhile_cons_of_neg (by simpa using hlt), List.dropWhile_cons_of_neg (by simpa using hlt),
      List.nil_append]

/-- Another one leaves the first. -/
theorem insert_other (h : ¬ s.isFirst ft = true) : ∃ x, (s.ft ft.prio).head? = some x ∧
    x.level ≤ ft.level ∧ (((s.ft ft.prio).takeWhile fun iter => iter.level ≤ ft.level) ++
      (ft :: (s.ft ft.prio).dropWhile fun iter => iter.level ≤ ft.level)).head? = some x := by
  unfold State.isFirst at h
  rcases hl : s.ft ft.prio with _ | ⟨x, l⟩
  · rw [hl] at h
    exact absurd rfl h
  · rw [hl] at h
    have hle : x.level ≤ ft.level := by simpa using h
    refine ⟨x, rfl, hle, ?_⟩
    rw [List.takeWhile_cons_of_pos (by simpa using hle)]
    rfl

/-- A new table with its own number can be put in. -/
theorem Tables.insert (tables : Tables tree s) (hid : ft.id = s.next)
    (hattr : OTree.leafAt tree ft.prio = some attr) (hlow : attr.startLevel ≤ ft.level)
    (hhigh : ft.level < attr.startLevel + attr.numLevels)
    (hft : s'.ft = update s.ft ft.prio
      (((s.ft ft.prio).takeWhile fun iter => iter.level ≤ ft.level) ++
        ft :: (s.ft ft.prio).dropWhile fun iter => iter.level ≤ ft.level))
    (hnext : s'.next = s.next + 1) : Tables tree s' := by
  have hmem : ∀ p, ∀ t ∈ s'.ft p, (t = ft ∧ p = ft.prio) ∨ t ∈ s.ft p := by
    intro p t ht
    rw [hft] at ht
    by_cases hp : p = ft.prio
    · rw [hp, update_self] at ht
      rcases mem_cons.mp ((insert_perm _ ft).mem_iff.mp ht) with h | h
      · exact .inl ⟨h, hp⟩
      · exact .inr (hp ▸ h)
    · rw [update_of_ne hp] at ht
      exact .inr ht
  have hfresh : ∀ p, ∀ t ∈ s.ft p, t.id ≠ ft.id := by
    intro p t ht heq
    have hlt := (tables.home p t ht).2.1
    omega
  refine ⟨fun p => ?_, fun p t ht => ?_, fun p => ?_, fun p t ht q u hu heq => ?_⟩
  · rw [hft]
    by_cases hp : p = ft.prio
    · rw [hp, update_self]
      exact insert_sorted (tables.sorted _)
    · rw [update_of_ne hp]
      exact tables.sorted p
  · rcases hmem p t ht with ⟨rfl, rfl⟩ | h
    · exact ⟨rfl, by omega, attr, hattr, hlow, hhigh⟩
    · obtain ⟨hprio, hlt, ha⟩ := tables.home p t h
      exact ⟨hprio, by omega, ha⟩
  · rw [hft]
    by_cases hp : p = ft.prio
    · rw [hp, update_self, (insert_perm _ ft).nodup_iff]
      exact List.nodup_cons.mpr ⟨fun h => hfresh _ _ h rfl, tables.nodup _⟩
    · rw [update_of_ne hp]
      exact tables.nodup p
  · rcases hmem p t ht with ⟨rfl, -⟩ | ht
    · rcases hmem q u hu with ⟨rfl, -⟩ | hu
      · rfl
      · exact absurd heq.symm (hfresh q u hu)
    · rcases hmem q u hu with ⟨rfl, -⟩ | hu
      · exact absurd heq (hfresh p t ht)
      · exact tables.unique p t ht q u hu heq

/-- What a creation does. -/
structure Created (tree : List FsNode) (modifyRoot : Bool) (s s' : State) (ft : FlowTable) :
    Prop where
  tables : s'.ft = update s.ft ft.prio
    (((s.ft ft.prio).takeWhile fun iter => iter.level ≤ ft.level) ++
      ft :: (s.ft ft.prio).dropWhile fun iter => iter.level ≤ ft.level)
  next : s'.next = s.next + 1
  put : s'.put = s.put
  root : s'.rootFt = (updateRootFtCreate modifyRoot s ft).rootFt
  conn : s.isFirst ft = true → s'.miss = (connectPrevFts tree { s with
      miss := update s.miss ft.id (findNextChainedFt tree s ft.prio), next := s.next + 1 }
        (some ft) ft.prio).miss ∧ s'.rules = (connectFwdRules s (some ft)
        (((s.ft ft.prio).head?).or (findNextChainedFt tree s ft.prio))).rules ∧
      s'.fwdRules = (connectFwdRules s (some ft)
        (((s.ft ft.prio).head?).or (findNextChainedFt tree s ft.prio))).fwdRules
  same : ¬ s.isFirst ft = true → s'.miss = update s.miss ft.id (findNextChainedFt tree s ft.prio) ∧
      s'.rules = s.rules ∧ s'.fwdRules = s.fwdRules

theorem create_spec (s : State) (level : ℕ) (hattr : OTree.leafAt tree p = some attr)
    (hlevel : level < attr.numLevels) :
    Created tree modifyRoot s (mlx5CreateFlowTable tree modifyRoot s p level false)
      ⟨s.next, level + attr.startLevel, p⟩ := by
  unfold mlx5CreateFlowTable
  rw [hattr]
  dsimp only
  rw [if_neg (by simpa using hlevel)]
  unfold connectFlowTable listAddFlowTable
  dsimp only
  -- the search for the next table does not see what was set before
  have hfirst : State.isFirst { s with
      miss := update s.miss s.next (findNextChainedFt tree s p), next := s.next + 1 }
        ⟨s.next, level + attr.startLevel, p⟩ = s.isFirst ⟨s.next, level + attr.startLevel, p⟩ := rfl
  have hnext : findNextChainedFt tree { s with
      miss := update s.miss s.next (findNextChainedFt tree s p), next := s.next + 1 } p =
        findNextChainedFt tree s p := rfl
  rw [hfirst, hnext]
  split_ifs with hf
  · rw [connectPrev_eq]
    dsimp only
    rw [connectFwd_miss, updateRoot_eq]
    exact ⟨rfl, rfl, rfl, updateRoot_congr rfl, fun _ => ⟨rfl, rfl, rfl⟩, fun h => absurd hf h⟩
  · rw [updateRoot_eq]
    exact ⟨rfl, rfl, rfl, updateRoot_congr rfl, fun h => absurd h hf, fun _ => ⟨rfl, rfl, rfl⟩⟩

theorem create_fail (s : State) (level : ℕ) (fail : Bool)
    (h : ∀ attr, OTree.leafAt tree p = some attr → attr.numLevels ≤ level ∨ fail) :
    mlx5CreateFlowTable tree modifyRoot s p level fail = s := by
  unfold mlx5CreateFlowTable
  rcases hattr : OTree.leafAt tree p with _ | attr
  · rfl
  · exact if_pos (h attr hattr)

/-- The root after a creation. -/
theorem Chained.root_create (h : Chained tree modifyRoot s handles)
    (created : Created tree modifyRoot s s' ft) (hattr : OTree.leafAt tree ft.prio = some attr)
    (hlow : attr.startLevel ≤ ft.level) (hhigh : ft.level < attr.startLevel + attr.numLevels)
    (hordered : Ordered tree) (hmodify : modifyRoot = true) :
    s'.rootFt = first s' (OTree.order tree) := by
  have hp := OTree.order_leaf hattr
  obtain ⟨hp₁, hp₂, -⟩ := order_nodup hp
  obtain ⟨hbelow, habove⟩ := h.tables.lt hordered hp hattr
  have hroot := h.root hordered hmodify
  rw [hp, first_append, first_cons] at hroot
  rw [created.root, hp, first_update created.tables hp₁ hp₂]
  unfold updateRootFtCreate
  rw [if_pos hmodify]
  rcases hb : first s (OTree.before tree ft.prio) with _ | b
  · rw [hb, none_or] at hroot
    by_cases hfirst : s.isFirst ft = true
    · rw [insert_first hfirst, List.head?_cons, some_or, hroot]
      unfold State.isFirst at hfirst
      rcases hhead : (s.ft ft.prio).head? with _ | x
      · rcases ha : first s (OTree.after tree ft.prio) with _ | a
        · rfl
        · obtain ⟨q, hq, hmem⟩ := first_some ha
          have hle := habove q hq a hmem
          exact congrArg State.rootFt (if_neg (by omega))
      · rw [hhead] at hfirst
        have hlt : ft.level < x.level := by simpa using hfirst
        exact congrArg State.rootFt (if_neg (by omega))
    · obtain ⟨x, hhead, hle, hnew⟩ := insert_other hfirst
      rw [hhead, some_or] at hroot
      rw [hnew, some_or, hroot]
      exact (congrArg State.rootFt (if_pos hle)).trans hroot
  · rw [hb, some_or] at hroot
    rw [some_or, hroot]
    obtain ⟨q, hq, hmem⟩ := first_some hb
    have hlt := hbelow q hq b hmem
    exact (congrArg State.rootFt (if_pos (by omega))).trans hroot

theorem Created.mem (created : Created tree modifyRoot s s' ft) {q : List ℕ} :
    t ∈ s'.ft q ↔ (t = ft ∧ q = ft.prio) ∨ t ∈ s.ft q := by
  rw [created.tables]
  by_cases hq : q = ft.prio
  · rw [hq, update_self, (insert_perm _ ft).mem_iff, mem_cons]
    simp
  · rw [update_of_ne hq]
    simp [hq]

section
variable (h : Chained tree modifyRoot s handles)
include h

/-- A rule that does not reach the new table does not go to the table after it. -/
theorem Chained.skip
    (hp : OTree.order tree = OTree.before tree ft.prio ++ ft.prio :: OTree.after tree ft.prio)
    (hfits : ∀ nextFt, first s (ft.prio :: OTree.after tree ft.prio) = some nextFt →
      ∀ r ∈ s.rules, r.id ∈ s.fwdRules nextFt.id → r.nextNs = true →
        ft.prio ∈ OTree.after tree r.ft.ns)
    {r : Rule} (hr : r ∈ s.rules) (hout : ft.prio ∉ scope tree r) :
    some r.dest ≠ first s (ft.prio :: OTree.after tree ft.prio) := by
  intro heq
  have hmem : r.id ∈ s.fwdRules r.dest.id := (h.fwd.list r hr _).mpr rfl
  cases hns : r.nextNs with
  | true =>
    have hin := hfits r.dest heq.symm r hr hmem hns
    unfold scope at hout
    rw [if_pos hns] at hout
    exact hout hin
  | false =>
    have hdest := h.fwd.dest r hr
    have hsuf := h.fwd.scope_suffix h.tables hr
    have hscope : scope tree r = OTree.after tree r.ft.prio := by
      unfold scope
      rw [if_neg (by simp [hns])]
    rw [hscope] at hdest hsuf hout
    rw [hp] at hsuf
    rcases suffix_cases hsuf with ⟨B, -, hB⟩ | hle
    · exact hout (hB ▸ by simp)
    · exact h.tables.first_ne hp (h.fwd.home r hr) hle heq.symm hdest rfl

/-- The rules after a creation in front of the others. -/
theorem Chained.fwd_create (created : Created tree modifyRoot s s' ft) (hid : ft.id = s.next)
    (hattr : OTree.leafAt tree ft.prio = some attr) (hfirst : s.isFirst ft = true)
    (hfits : ∀ nextFt, first s (ft.prio :: OTree.after tree ft.prio) = some nextFt →
      ∀ r ∈ s.rules, r.id ∈ s.fwdRules nextFt.id → r.nextNs = true →
        ft.prio ∈ OTree.after tree r.ft.ns) : Fwd tree s' := by
  have hp := OTree.order_leaf hattr
  obtain ⟨-, hrules, hlists⟩ := created.conn hfirst
  rw [findNext_eq, ← first_cons] at hrules hlists
  have hft := created.tables
  rw [insert_first hfirst] at hft
  have hdest : ∀ r ∈ s.rules, ∃ q, r.dest ∈ s.ft q := fun r hr =>
    (h.fwd.dest_mem hr).imp fun q hq => hq.2
  refine h.fwd.connect hrules hlists (fun r hr => created.mem.mpr (.inr (h.fwd.home r hr))) ?_ ?_ ?_ ?_
  · rintro new old hnew hold heq
    cases hnew
    obtain ⟨q, -, hmem⟩ := first_some hold
    have hlt := (h.tables.home q old hmem).2.1
    omega
  · intro old hold r hr heq
    obtain ⟨q, -, hmem⟩ := first_some hold
    obtain ⟨q', hmem'⟩ := hdest r hr
    exact h.tables.unique q' r.dest hmem' q old hmem heq
  · intro new hnew r hr heq
    cases hnew
    obtain ⟨q, hmem⟩ := hdest r hr
    have hlt := (h.tables.home q r.dest hmem).2.1
    omega
  · intro r hr
    rcases h.fwd.cases h.tables hp hft hr (h.skip hp hfits hr) with ⟨hgone, hin, hnew⟩ | hkept
    · exact .inl ⟨hgone, ft, rfl, hnew, scope_ns (hin _ mem_cons_self)⟩
    · exact .inr hkept

/-- STEP: a creation that succeeds. -/
theorem Chained.create (created : Created tree modifyRoot s s' ft) (hid : ft.id = s.next)
    (hattr : OTree.leafAt tree ft.prio = some attr) (hlow : attr.startLevel ≤ ft.level)
    (hhigh : ft.level < attr.startLevel + attr.numLevels)
    (hfits : s.isFirst ft = true → ∀ nextFt,
      first s (ft.prio :: OTree.after tree ft.prio) = some nextFt →
        ∀ r ∈ s.rules, r.id ∈ s.fwdRules nextFt.id → r.nextNs = true →
          ft.prio ∈ OTree.after tree r.ft.ns) : Chained tree modifyRoot s' handles := by
  have hp := OTree.order_leaf hattr
  obtain ⟨hp₁, hp₂, -⟩ := order_nodup hp
  have htables := h.tables.insert hid hattr hlow hhigh created.tables created.next
  have hput : ∀ x, s'.put x = false := fun x => by rw [created.put, h.put]
  have hroot := h.root_create created hattr hlow hhigh
  have hnew : first s' (OTree.after tree ft.prio) = first s (OTree.after tree ft.prio) :=
    first_update_other created.tables hp₂
  have hfresh : ∀ q, ∀ u ∈ s.ft q, u.id ≠ ft.id := by
    intro q u hu heq
    have hlt := (h.tables.home q u hu).2.1
    omega
  by_cases hfirst : s.isFirst ft = true
  · obtain ⟨hmiss, hrules, -⟩ := created.conn hfirst
    refine ⟨htables, ?_, h.fwd_create created hid hattr hfirst (hfits hfirst),
      h.refs.connect hrules (by rw [created.next]; omega), hput, hroot⟩
    intro q t ht
    rw [hmiss]
    rcases created.mem.mp ht with ⟨rfl, rfl⟩ | ht
    · refine (connectPrev_other (by exact hfresh) _).trans ?_
      dsimp only
      rw [update_self, findNext_eq, hnew]
    · have hft := created.tables
      rw [insert_first hfirst] at hft
      have hprev : Tables tree { s with
          miss := update s.miss ft.id (findNextChainedFt tree s ft.prio)
          next := s.next + 1 } := h.tables.rules rfl (Nat.le_succ _)
      refine connectPrev_miss hprev hp ht ?_ hft
      dsimp only
      rw [update_of_ne (hfresh q t ht), h.miss q t ht]
      rfl
  · obtain ⟨hmiss, hrules, hlists⟩ := created.same hfirst
    obtain ⟨x, hhead, -, hnewhead⟩ := insert_other hfirst
    have hheads : ∀ q, (s'.ft q).head? = (s.ft q).head? := by
      intro q
      rw [created.tables]
      by_cases hq : q = ft.prio
      · rw [hq, update_self, hnewhead, hhead]
      · rw [update_of_ne hq]
    refine ⟨htables, ?_, ⟨?_, ?_, ?_, ?_⟩, ⟨?_, ?_, ?_, ?_⟩, hput, hroot⟩
    · intro q t ht
      rw [hmiss, first_heads hheads]
      rcases created.mem.mp ht with ⟨rfl, rfl⟩ | ht
      · rw [update_self, findNext_eq]
      · rw [update_of_ne (hfresh q t ht), h.miss q t ht]
    · rw [hrules]
      exact fun r hr => created.mem.mpr (.inr (h.fwd.home r hr))
    · rw [hrules]
      intro r hr
      rw [first_heads hheads, h.fwd.dest r hr]
    · rw [hrules, hlists]
      exact h.fwd.list
    · rw [hrules, hlists]
      exact h.fwd.listed
    · rw [hrules]
      exact h.refs.nodup
    · rw [hrules, created.next]
      exact fun r hr => Nat.lt_succ_of_lt (h.refs.lt r hr)
    · rw [hrules]
      exact h.refs.alive
    · rw [hrules]
      exact h.refs.count

end

end Create

section Destroy

variable {tree : List FsNode} {modifyRoot : Bool} {s s' : State} {ft t : FlowTable} {p : List ℕ}
  {handles : List (ℕ × Bool)} {l : List FlowTable} {n? o? : Option FlowTable}

theorem connectFwd_frame (s : State) : (connectFwdRules s n? o?).ft = s.ft ∧
    (connectFwdRules s n? o?).miss = s.miss ∧ (connectFwdRules s n? o?).rootFt = s.rootFt ∧
    (connectFwdRules s n? o?).put = s.put ∧ (connectFwdRules s n? o?).next = s.next := by
  rcases n? with _ | n
  · exact ⟨rfl, rfl, rfl, rfl, rfl⟩
  · rcases o? with _ | o <;> exact ⟨rfl, rfl, rfl, rfl, rfl⟩

theorem connectPrev_congr (hft : s'.ft = s.ft) (hmiss : s'.miss = s.miss) :
    (connectPrevFts tree s' n? p).miss = (connectPrevFts tree s n? p).miss := by
  unfold connectPrevFts findPrevChainedFt connectFtsInPrio
  rw [hft, hmiss]
  split
  · rfl
  · exact hmiss

/-- What a destruction does. -/
structure Destroyed (tree : List FsNode) (s s' : State) (ft : FlowTable) : Prop where
  tables : s'.ft = update s.ft ft.prio ((s.ft ft.prio).erase ft)
  next : s'.next = s.next
  put : s'.put = s.put
  root : s'.rootFt = if s.rootFt = some ft then findNextFt tree s ft else s.rootFt
  conn : (s.ft ft.prio).head? = some ft →
    s'.miss = (connectPrevFts tree s (findNextFt tree s ft) ft.prio).miss ∧
      s'.rules = (connectFwdRules s (findNextFt tree s ft) (some ft)).rules ∧
      s'.fwdRules = (connectFwdRules s (findNextFt tree s ft) (some ft)).fwdRules
  same : (s.ft ft.prio).head? ≠ some ft →
    s'.miss = s.miss ∧ s'.rules = s.rules ∧ s'.fwdRules = s.fwdRules

theorem updateRootDestroy_eq (s : State) (ft : FlowTable) : updateRootFtDestroy tree s ft =
    { s with rootFt := if s.rootFt = some ft then findNextFt tree s ft else s.rootFt } := by
  unfold updateRootFtDestroy
  split <;> rfl

/-- The rules of the other tables are there after the table was disconnected. -/
theorem connectFwd_tables (h : ∀ r ∈ s.rules, r.ft ≠ ft) :
    ∀ r ∈ (connectFwdRules s n? o?).rules, r.ft ≠ ft := by
  rcases n? with _ | n
  · exact h
  · rcases o? with _ | o
    · exact h
    · intro r' hr'
      obtain ⟨r, hr, rfl⟩ := mem_map.mp
        (show r' ∈ s.rules.map (Rule.connect n o s) from hr')
      rw [connect_same.2.1]
      exact h r hr

theorem destroy_spec (s : State) (hrules : ∀ r ∈ s.rules, r.ft ≠ ft) :
    Destroyed tree s (mlx5DestroyFlowTable tree s ft) ft := by
  unfold mlx5DestroyFlowTable disconnectFlowTable dropFlowTable
  rw [updateRootDestroy_eq]
  dsimp only
  have hnext : ∀ root, findNextFt tree { s with rootFt := root } ft = findNextFt tree s ft :=
    fun _ => rfl
  rw [hnext (if s.rootFt = some ft then findNextFt tree s ft else s.rootFt)]
  by_cases hhead : (s.ft ft.prio).head? = some ft
  · rw [if_pos hhead]
    have hmove : ∀ root, connectFwdRules { s with rootFt := root } (findNextFt tree s ft) (some ft) =
        { connectFwdRules s (findNextFt tree s ft) (some ft) with rootFt := root } := by
      intro root
      rcases findNextFt tree s ft with _ | n <;> rfl
    rw [hmove, connectPrev_eq]
    rw [if_neg]
    · obtain ⟨hft, hmiss, -, hput, hnexts⟩ := @connectFwd_frame (findNextFt tree s ft) (some ft) s
      refine ⟨?_, hnexts, hput, rfl, fun _ => ⟨connectPrev_congr hft hmiss, rfl, rfl⟩,
        fun h => absurd hhead h⟩
      rw [hft]
    · rw [any_eq_true]
      rintro ⟨r, hr, heq⟩
      exact connectFwd_tables hrules r hr (by simpa using heq)
  · rw [if_neg hhead]
    rw [if_neg]
    · exact ⟨rfl, rfl, rfl, rfl, fun h => absurd h hhead, fun _ => ⟨rfl, rfl, rfl⟩⟩
    · rw [any_eq_true]
      rintro ⟨r, hr, heq⟩
      exact hrules r hr (by simpa using heq)

/-- The table after the first one of a priority. -/
theorem findNextFt_first (h : s.ft ft.prio = ft :: l) :
    findNextFt tree s ft = (l.head?).or (first s (OTree.after tree ft.prio)) := by
  unfold findNextFt
  rw [h, List.dropWhile_cons_of_neg (by simp), findNext_eq]
  rfl

theorem Destroyed.mem (destroyed : Destroyed tree s s' ft) (tables : Tables tree s) {q : List ℕ} :
    t ∈ s'.ft q ↔ t ≠ ft ∧ t ∈ s.ft q := by
  rw [destroyed.tables]
  by_cases hq : q = ft.prio
  · rw [hq, update_self, (tables.nodup _).mem_erase_iff]
  · rw [update_of_ne hq]
    refine ⟨fun ht => ⟨fun heq => hq ?_, ht⟩, fun h => h.2⟩
    rw [← (tables.home q t ht).1, heq]

theorem Tables.erase (tables : Tables tree s) (destroyed : Destroyed tree s s' ft) :
    Tables tree s' := by
  have hsub : ∀ q, (s'.ft q).Sublist (s.ft q) := by
    intro q
    rw [destroyed.tables]
    by_cases hq : q = ft.prio
    · rw [hq, update_self]
      exact List.erase_sublist
    · rw [update_of_ne hq]
  refine ⟨fun q => (tables.sorted q).sublist (hsub q), fun q t ht => ?_,
    fun q => (tables.nodup q).sublist (hsub q), fun q t ht q' u hu => ?_⟩
  · rw [destroyed.next]
    exact tables.home q t ((hsub q).subset ht)
  · exact tables.unique q t ((hsub q).subset ht) q' u ((hsub q').subset hu)

section
variable (h : Chained tree modifyRoot s handles) (destroyed : Destroyed tree s s' ft)
include h destroyed

/-- The root after the first table of a priority is destroyed. -/
theorem Chained.root_destroy (hl : s.ft ft.prio = ft :: l) (hordered : Ordered tree)
    (hmodify : modifyRoot = true) : s'.rootFt = first s' (OTree.order tree) := by
  have hmem : ft ∈ s.ft ft.prio := by simp [hl]
  have hp := h.tables.split hmem
  obtain ⟨hp₁, hp₂, -⟩ := order_nodup hp
  have hft := destroyed.tables
  rw [hl, List.erase_cons_head] at hft
  have hroot := h.root hordered hmodify
  rw [hp, first_append, first_cons, hl, List.head?_cons, some_or] at hroot
  rw [destroyed.root, hp, first_update hft hp₁ hp₂, hroot, findNextFt_first hl]
  rcases hb : first s (OTree.before tree ft.prio) with _ | b
  · rw [none_or, if_pos rfl, none_or]
  · rw [some_or, if_neg, some_or]
    intro heq
    cases heq
    obtain ⟨q, hq, hmem'⟩ := first_some hb
    exact hp₁ ((h.tables.home q ft hmem').1 ▸ hq)

/-- The rules after the first table of a priority is destroyed. -/
theorem Chained.fwd_destroy (hl : s.ft ft.prio = ft :: l) (hrules : ∀ r ∈ s.rules, r.ft ≠ ft)
    (hnone : findNextFt tree s ft = none → s.fwdRules ft.id = []) : Fwd tree s' := by
  have hmem : ft ∈ s.ft ft.prio := by simp [hl]
  have hp := h.tables.split hmem
  obtain ⟨-, hp₂, -⟩ := order_nodup hp
  have hft := destroyed.tables
  rw [hl, List.erase_cons_head] at hft
  obtain ⟨-, hmoved, hlists⟩ := destroyed.conn (by rw [hl]; rfl)
  have hold : first s (ft.prio :: OTree.after tree ft.prio) = some ft := by
    rw [first_cons, hl]
    rfl
  have hnext : findNextFt tree s ft = first s' (ft.prio :: OTree.after tree ft.prio) := by
    rw [findNextFt_first hl, first_cons, hft, update_self, first_update_other hft hp₂]
  -- the next table is another one
  have hnew : ∀ new, findNextFt tree s ft = some new →
      new ≠ ft ∧ new ∈ s.ft new.prio ∧ new.prio ∈ ft.prio :: OTree.after tree ft.prio := by
    intro new heq
    rw [hnext] at heq
    obtain ⟨q, hq, hin⟩ := first_some heq
    obtain ⟨hne, hin⟩ := (destroyed.mem h.tables).mp hin
    have hprio := (h.tables.home q new hin).1
    rw [← hprio] at hin hq
    exact ⟨hne, hin, hq⟩
  have hdest : ∀ r ∈ s.rules, ∃ q, r.dest ∈ s.ft q := fun r hr =>
    (h.fwd.dest_mem hr).imp fun q hq => hq.2
  refine h.fwd.connect hmoved hlists
    (fun r hr => (destroyed.mem h.tables).mpr ⟨hrules r hr, h.fwd.home r hr⟩) ?_ ?_ ?_ ?_
  · intro new old heq hold heq'
    cases hold
    obtain ⟨hne, hin, -⟩ := hnew new heq
    exact hne (h.tables.unique _ new hin _ ft hmem heq')
  · intro old hold r hr heq
    cases hold
    obtain ⟨q, hin⟩ := hdest r hr
    exact h.tables.unique q r.dest hin _ ft hmem heq
  · intro new heq r hr heq'
    obtain ⟨-, hin, -⟩ := hnew new heq
    obtain ⟨q, hin'⟩ := hdest r hr
    exact h.tables.unique q r.dest hin' _ new hin heq'
  · intro r hr
    have hskip : ft.prio ∉ scope tree r →
        some r.dest ≠ first s (ft.prio :: OTree.after tree ft.prio) := by
      intro hout heq
      rw [hold] at heq
      obtain ⟨q, hq, hin⟩ := h.fwd.dest_mem hr
      rw [Option.some.inj heq] at hin
      exact hout ((h.tables.home q ft hin).1 ▸ hq)
    rcases h.fwd.cases h.tables hp hft hr hskip with ⟨hgone, hin, hfirst⟩ | hkept
    · rw [hold] at hgone
      rw [← findNextFt_first hl] at hfirst
      rcases hn : findNextFt tree s ft with _ | new
      · have hlist := (h.fwd.list r hr ft.id).mpr (by rw [Option.some.inj hgone])
        rw [hnone hn] at hlist
        cases hlist
      · rw [hn] at hfirst
        exact .inl ⟨hgone, new, rfl, hfirst, scope_ns (hin _ (hnew new hn).2.2)⟩
    · rw [hold] at hkept
      exact .inr hkept

/-- STEP: a destruction. -/
theorem Chained.destroy (hmem : ft ∈ s.ft ft.prio) (hrules : ∀ r ∈ s.rules, r.ft ≠ ft)
    (hnone : findNextFt tree s ft = none → s.fwdRules ft.id = []) :
    Chained tree modifyRoot s' handles := by
  have hp := h.tables.split hmem
  have htables := h.tables.erase destroyed
  have hput : ∀ x, s'.put x = false := fun x => by rw [destroyed.put, h.put]
  by_cases hhead : (s.ft ft.prio).head? = some ft
  · obtain ⟨l, hl⟩ : ∃ l, s.ft ft.prio = ft :: l := by
      rcases hl : s.ft ft.prio with _ | ⟨x, l⟩
      · rw [hl] at hhead
        cases hhead
      · rw [hl] at hhead
        cases hhead
        exact ⟨l, rfl⟩
    obtain ⟨hmiss, hmoved, -⟩ := destroyed.conn hhead
    refine ⟨htables, ?_, h.fwd_destroy destroyed hl hrules hnone,
      h.refs.connect hmoved (by rw [destroyed.next]), hput, h.root_destroy destroyed hl⟩
    intro q t ht
    have hft := destroyed.tables
    rw [hl, List.erase_cons_head] at hft
    obtain ⟨-, hin⟩ := (destroyed.mem h.tables).mp ht
    rw [hmiss, findNextFt_first hl]
    exact connectPrev_miss h.tables hp hin (h.miss q t hin) hft
  · obtain ⟨hmiss, hsame, hlists⟩ := destroyed.same hhead
    have hheads : ∀ q, (s'.ft q).head? = (s.ft q).head? := by
      intro q
      rw [destroyed.tables]
      by_cases hq : q = ft.prio
      · rw [hq, update_self]
        rcases hl : s.ft ft.prio with _ | ⟨x, l⟩
        · rfl
        · rw [List.erase_cons_tail]
          · rfl
          · rw [hl] at hhead
            simpa using hhead
      · rw [update_of_ne hq]
    refine ⟨htables, ?_, ⟨?_, ?_, ?_, ?_⟩, ⟨?_, ?_, ?_, ?_⟩, hput, ?_⟩
    · intro q t ht
      rw [hmiss, first_heads hheads]
      exact h.miss q t ((destroyed.mem h.tables).mp ht).2
    · rw [hsame]
      exact fun r hr => (destroyed.mem h.tables).mpr ⟨hrules r hr, h.fwd.home r hr⟩
    · rw [hsame]
      intro r hr
      rw [first_heads hheads, h.fwd.dest r hr]
    · rw [hsame, hlists]
      exact h.fwd.list
    · rw [hsame, hlists]
      exact h.fwd.listed
    · rw [hsame]
      exact h.refs.nodup
    · rw [hsame, destroyed.next]
      exact h.refs.lt
    · rw [hsame]
      exact h.refs.alive
    · rw [hsame]
      exact h.refs.count
    · intro hordered hmodify
      have hroot := h.root hordered hmodify
      rw [destroyed.root, if_neg, hroot, first_heads hheads]
      -- the root is the first of its priority
      intro heq
      rw [hroot] at heq
      obtain ⟨q, -, hq⟩ := List.exists_of_findSome?_eq_some heq
      rw [← (h.tables.home q ft (List.mem_of_head? hq)).1] at hq
      exact hhead hq

end

end Destroy

section Rules

variable {tree : List FsNode} {modifyRoot : Bool} {s s' : State} {ft nextFt : FlowTable}
  {handles : List (ℕ × Bool)} {fte id : ℕ} {nextNs fail : Bool} {rule r : Rule} {o : Option ℕ}

/-- A rule is made for the first table of its scope. -/
theorem findNextFwd_eq (hns : nextNs = true → ft.ns ≠ [] ∧ ∀ p ∈ laterNs tree ft.ns, s.ft p = []) :
    findNextFwdFt tree s ft nextNs = first s (scope tree ⟨id, ft, fte, nextNs, nextFt, 1⟩) := by
  unfold findNextFwdFt scope
  rw [findNext_eq]
  cases nextNs with
  | false => rfl
  | true =>
    obtain ⟨hne, hempty⟩ := hns rfl
    rw [if_pos rfl, if_pos rfl]
    rcases hparent : ft.ns with _ | ⟨i, parent⟩
    · exact absurd hparent hne
    · have hafter : OTree.after tree (i :: parent) =
          laterNs tree (i :: parent) ++ OTree.after tree parent := rfl
      rw [hparent] at hempty
      rw [hafter, first_append, first_none.mpr hempty, none_or]
      rfl

/-- The rules keep where they go when only their counts change. -/
theorem Fwd.recount (fwd : Fwd tree s) {f : Rule → Rule}
    (hf : ∀ r, (f r).id = r.id ∧ (f r).ft = r.ft ∧ (f r).nextNs = r.nextNs ∧ (f r).dest = r.dest)
    (hsame : s'.rules = s.rules.map f ∧ s'.ft = s.ft ∧ s'.fwdRules = s.fwdRules) :
    Fwd tree s' := by
  obtain ⟨hrules, hft, hlists⟩ := hsame
  refine ⟨?_, ?_, ?_, ?_⟩
  · rw [hrules, hft]
    intro r' hr'
    obtain ⟨r, hr, rfl⟩ := mem_map.mp hr'
    rw [(hf r).2.1]
    exact fwd.home r hr
  · rw [hrules]
    intro r' hr'
    obtain ⟨r, hr, rfl⟩ := mem_map.mp hr'
    have hscope : scope tree (f r) = scope tree r := by
      unfold scope
      rw [(hf r).2.1, (hf r).2.2.1]
    rw [hscope, (hf r).2.2.2, ← fwd.dest r hr]
    exact first_congr fun p _ => by rw [hft]
  · rw [hrules, hlists]
    intro r' hr' x
    obtain ⟨r, hr, rfl⟩ := mem_map.mp hr'
    rw [(hf r).1, (hf r).2.2.2]
    exact fwd.list r hr x
  · rw [hrules, hlists]
    intro x id hid
    obtain ⟨r, hr, rfl⟩ := fwd.listed x id hid
    exact ⟨f r, List.mem_map_of_mem hr, (hf r).1⟩

section
variable (h : Chained tree modifyRoot s handles)
include h

/-- What a call that changes only the rules has to keep. -/
theorem Chained.rules {handles' : List (ℕ × Bool)}
    (hsame : s'.ft = s.ft ∧ s'.miss = s.miss ∧ s'.rootFt = s.rootFt ∧ s'.put = s.put ∧
      s.next ≤ s'.next) (fwd : Fwd tree s') (refs : Refs s' handles') :
    Chained tree modifyRoot s' handles' := by
  obtain ⟨hft, hmiss, hroot, hput, hnext⟩ := hsame
  have hfirst : ∀ L, first s' L = first s L := fun L => first_congr fun p _ => by rw [hft]
  refine ⟨h.tables.rules hft hnext, fun p t ht => ?_, fwd, refs, fun x => by rw [hput, h.put], ?_⟩
  · rw [hft] at ht
    rw [hmiss, hfirst, h.miss p t ht]
  · intro hordered hmodify
    rw [hroot, hfirst, h.root hordered hmodify]

/-- STEP: an addition. -/
theorem Chained.add (hmem : ft ∈ s.ft ft.prio)
    (hns : nextNs = true → ft.ns ≠ [] ∧ ∀ p ∈ laterNs tree ft.ns, s.ft p = [])
    (hkind : ∀ r ∈ s.rules, r.ft = ft → r.fte = fte →
      findNextFwdFt tree s ft nextNs = some r.dest → r.nextNs = nextNs)
    (heq : mlx5AddFlowRules tree s ft fte nextNs fail = (s', o)) :
    Chained tree modifyRoot s' (match o with
      | none => handles
      | some id => (id, nextNs) :: handles) := by
  unfold mlx5AddFlowRules at heq
  rcases hnext : findNextFwdFt tree s ft nextNs with _ | nextFt
  · rw [hnext] at heq
    cases heq
    exact h
  rw [hnext] at heq
  dsimp only at heq
  by_cases hfail : fail = true
  · rw [if_pos hfail] at heq
    cases heq
    exact h
  rw [if_neg hfail] at heq
  rcases hfound : s.rules.find? (fun r => r.ft = ft && r.fte = fte && r.dest = nextFt) with _ | rule
  · -- a new rule
    rw [hfound] at heq
    cases heq
    have hfresh : ∀ r ∈ s.rules, r.id ≠ s.next := fun r hr => Nat.ne_of_lt (h.refs.lt r hr)
    have hscope := hnext
    rw [@findNextFwd_eq _ _ _ nextFt fte s.next _ hns] at hscope
    refine h.rules ⟨rfl, rfl, rfl, rfl, Nat.le_succ _⟩ ⟨?_, ?_, ?_, ?_⟩ ⟨?_, ?_, ?_, ?_⟩
    · intro r hr
      rcases mem_append.mp hr with hr | hr
      · exact h.fwd.home r hr
      · cases mem_singleton.mp hr
        exact hmem
    · intro r hr
      rcases mem_append.mp hr with hr | hr
      · exact h.fwd.dest r hr
      · cases mem_singleton.mp hr
        exact hscope
    · intro r hr x
      dsimp only
      rcases mem_append.mp hr with hr | hr
      · rw [← h.fwd.list r hr x]
        by_cases hx : x = nextFt.id
        · rw [hx, update_self, mem_cons]
          exact or_iff_right (hfresh r hr)
        · rw [update_of_ne hx]
      · cases mem_singleton.mp hr
        by_cases hx : x = nextFt.id
        · rw [hx, update_self]
          simp
        · rw [update_of_ne hx]
          refine iff_of_false (fun hin => ?_) hx
          obtain ⟨r, hr, hid⟩ := h.fwd.listed x s.next hin
          exact hfresh r hr hid
    · intro x id hid
      dsimp only at hid ⊢
      have hcases : id = s.next ∨ id ∈ s.fwdRules x := by
        by_cases hx : x = nextFt.id
        · rw [hx, update_self] at hid
          rw [hx]
          exact mem_cons.mp hid
        · rw [update_of_ne hx] at hid
          exact .inr hid
      rcases hcases with rfl | hid
      · exact ⟨_, List.mem_append_right _ (mem_singleton.mpr rfl), rfl⟩
      · obtain ⟨r, hr, heq⟩ := h.fwd.listed x id hid
        exact ⟨r, mem_append_left _ hr, heq⟩
    · dsimp only
      rw [List.map_append]
      refine nodup_append'.mpr ⟨h.refs.nodup, by simp, ?_⟩
      intro id hid hid'
      obtain ⟨r, hr, rfl⟩ := mem_map.mp hid
      exact hfresh r hr (by simpa using hid')
    · intro r hr
      rcases mem_append.mp hr with hr | hr
      · exact Nat.lt_succ_of_lt (h.refs.lt r hr)
      · cases mem_singleton.mp hr
        exact Nat.lt_succ_self _
    · intro handle hh
      rcases mem_cons.mp hh with rfl | hh
      · exact ⟨_, List.mem_append_right _ (mem_singleton.mpr rfl), rfl, rfl⟩
      · obtain ⟨r, hr, heq⟩ := h.refs.alive handle hh
        exact ⟨r, mem_append_left _ hr, heq⟩
    · intro r hr
      rcases mem_append.mp hr with hr | hr
      · rw [countP_cons_of_neg (by simpa using fun heq => hfresh r hr heq.symm), h.refs.count r hr]
      · cases mem_singleton.mp hr
        rw [countP_cons_of_pos (by simp), List.countP_eq_zero.mpr]
        intro handle hh heq
        obtain ⟨r, hr, hid, -⟩ := h.refs.alive handle hh
        exact hfresh r hr (hid.trans (by simpa using heq))
  · -- a rule of the entry is shared
    rw [hfound] at heq
    cases heq
    have hrule := List.mem_of_find?_eq_some hfound
    have hp := List.find?_some hfound
    simp only [Bool.and_eq_true, decide_eq_true_eq] at hp
    obtain ⟨⟨hft, hfte⟩, hdest⟩ := hp
    have hsame := hkind rule hrule hft hfte (by rw [hnext, hdest])
    refine h.rules ⟨rfl, rfl, rfl, rfl, Nat.le_refl _⟩
      (h.fwd.recount (fun r => ?_) ⟨rfl, rfl, rfl⟩)
      (h.refs.recount (fun r => ?_) ⟨rfl, Nat.le_refl _⟩ ?_ ?_)
    · split <;> exact ⟨rfl, rfl, rfl, rfl⟩
    · split <;> exact ⟨rfl, rfl⟩
    · intro handle hh
      rcases mem_cons.mp hh with rfl | hh
      · exact .inr ⟨rule, hrule, rfl, hsame⟩
      · exact .inl hh
    · intro r hr hcount
      split_ifs with hid
      · rw [countP_cons_of_pos (by simp [hid]), hcount]
      · rw [countP_cons_of_neg (by simpa using fun heq => hid heq.symm), hcount]

/-- STEP: a handle is deleted. -/
theorem Chained.del {handle : ℕ × Bool} (hmem : handle ∈ handles) :
    Chained tree modifyRoot (mlx5DelFlowRules s handle.1) (handles.erase handle) := by
  obtain ⟨r₀, hr₀, hid₀, -⟩ := h.refs.alive handle hmem
  have hperm : ∀ f : ℕ × Bool → Bool,
      handles.countP f = (handle :: handles.erase handle).countP f :=
    fun f => (List.perm_cons_erase hmem).countP_eq f
  unfold mlx5DelFlowRules
  rcases hfound : s.rules.find? (fun r => r.id = handle.1) with _ | rule
  · exact absurd (List.find?_eq_none.mp hfound r₀ hr₀) (by simpa using hid₀)
  rw [hfound]
  dsimp only
  have hrule := List.mem_of_find?_eq_some hfound
  have hid : rule.id = handle.1 := by simpa using List.find?_some hfound
  have hcount := h.refs.count rule hrule
  rw [hperm, countP_cons_of_pos (by simp [hid])] at hcount
  by_cases hlast : 1 < rule.refcount
  · rw [if_pos hlast]
    refine h.rules ⟨rfl, rfl, rfl, rfl, Nat.le_refl _⟩
      (h.fwd.recount (fun r => ?_) ⟨rfl, rfl, rfl⟩)
      (h.refs.recount (fun r => ?_) ⟨rfl, Nat.le_refl _⟩ (fun x hx => .inl (List.mem_of_mem_erase hx)) ?_)
    · split <;> exact ⟨rfl, rfl, rfl, rfl⟩
    · split <;> exact ⟨rfl, rfl⟩
    · intro r hr hcount
      rw [hperm] at hcount
      by_cases hrid : r.id = handle.1
      · rw [countP_cons_of_pos (by simp [hrid])] at hcount
        rw [if_pos hrid, hcount]
        rfl
      · rw [countP_cons_of_neg (by simpa using fun heq => hrid heq.symm)] at hcount
        rw [if_neg hrid, hcount]
  · rw [if_neg hlast, if_neg (by simp [h.put])]
    have hnone : (handles.erase handle).countP (fun x => decide (x.1 = rule.id)) = 0 := by omega
    have hgone : ∀ x ∈ handles.erase handle, x.1 ≠ handle.1 := by
      intro x hx heq
      exact List.countP_eq_zero.mp hnone x hx (by simp [hid, heq])
    refine h.rules ⟨rfl, rfl, rfl, rfl, Nat.le_refl _⟩ ⟨?_, ?_, ?_, ?_⟩ ⟨?_, ?_, ?_, ?_⟩
    · exact fun r hr => h.fwd.home r (mem_filter.mp hr).1
    · exact fun r hr => h.fwd.dest r (mem_filter.mp hr).1
    · intro r hr x
      obtain ⟨hr, hne⟩ := mem_filter.mp hr
      rw [← h.fwd.list r hr x]
      exact ⟨fun hin => (mem_filter.mp hin).1, fun hin => mem_filter.mpr ⟨hin, hne⟩⟩
    · intro x id hin
      obtain ⟨hin, hne⟩ := mem_filter.mp hin
      obtain ⟨r, hr, rfl⟩ := h.fwd.listed x id hin
      exact ⟨r, mem_filter.mpr ⟨hr, hne⟩, rfl⟩
    · exact h.refs.nodup.sublist (List.filter_sublist.map _)
    · exact fun r hr => h.refs.lt r (mem_filter.mp hr).1
    · intro x hx
      obtain ⟨r, hr, hrid, hns⟩ := h.refs.alive x (List.mem_of_mem_erase hx)
      refine ⟨r, mem_filter.mpr ⟨hr, ?_⟩, hrid, hns⟩
      simpa [hrid] using hgone x hx
    · intro r hr
      obtain ⟨hr, hne⟩ := mem_filter.mp hr
      rw [h.refs.count r hr, hperm, countP_cons_of_neg]
      simpa using fun heq : handle.1 = r.id => (by simpa using hne : r.id ≠ handle.1) heq.symm

end

end Rules

/-! ### Runs -/

/-- What is closest on a list of priorities: the lowest table of the first one that has tables, or
    nothing. -/
def Closest (s : State) (prios : List (List ℕ)) : Option FlowTable → Prop
  | none => ∀ p ∈ prios, s.ft p = []
  | some t => ∃ L₁ p L₂, prios = L₁ ++ p :: L₂ ∧ (∀ q ∈ L₁, s.ft q = []) ∧ t ∈ s.ft p ∧
      ∀ u ∈ s.ft p, t.level ≤ u.level

/-- What the chaining is for. -/
structure Chaining (tree : List FsNode) (w : World) : Prop where
  miss : ∀ p, ∀ t ∈ w.fs.ft p, Closest w.fs (OTree.after tree p) (w.fs.miss t.id)
  kinds : ∀ h ∈ w.handles, ∃ r ∈ w.fs.rules, r.id = h.1 ∧ r.nextNs = h.2
  nextPrio : ∀ r ∈ w.fs.rules, r.nextNs = false → w.fs.miss r.ft.id = some r.dest
  nextNs : ∀ r ∈ w.fs.rules, r.nextNs = true →
    Closest w.fs (OTree.after tree r.ft.ns) (some r.dest)
  lists : ∀ r ∈ w.fs.rules, ∀ x, r.id ∈ w.fs.fwdRules x ↔ x = r.dest.id

/-- The root table is a lowest one, and there is one when there are tables. -/
def Lowest (s : State) : Option FlowTable → Prop
  | none => ∀ p, s.ft p = []
  | some t => t ∈ s.ft t.prio ∧ ∀ p, ∀ u ∈ s.ft p, t.level ≤ u.level

section Runs

variable {tree : List FsNode} {modifyRoot : Bool} {w : World} {k : Call}

theorem Tables.closest {s : State} (tables : Tables tree s) (L : List (List ℕ)) :
    Closest s L (first s L) := by
  induction L with
  | nil => exact fun p hp => (by cases hp)
  | cons p L ih =>
    rw [first_cons]
    rcases hl : s.ft p with _ | ⟨t, l⟩
    · rw [List.head?_nil, none_or]
      rcases hfirst : first s L with _ | u
      · rw [hfirst] at ih
        exact fun q hq => (mem_cons.mp hq).elim (fun heq => heq ▸ hl) (ih q)
      · rw [hfirst] at ih
        obtain ⟨L₁, q, L₂, rfl, hempty, hmem⟩ := ih
        refine ⟨p :: L₁, q, L₂, rfl, fun x hx => ?_, hmem⟩
        exact (mem_cons.mp hx).elim (fun heq => heq ▸ hl) (hempty x)
    · refine ⟨[], p, L, rfl, fun q hq => (by cases hq), by simp [hl], fun u hu => ?_⟩
      have hsorted := tables.sorted p
      rw [hl] at hsorted hu
      rcases mem_cons.mp hu with rfl | hu
      · exact Nat.le_refl _
      · exact (pairwise_cons.mp hsorted).1 u hu

theorem Tables.lowest {s : State} (tables : Tables tree s) (hordered : Ordered tree) :
    Lowest s (first s (OTree.order tree)) := by
  have hall : ∀ p, ∀ u ∈ s.ft p, p ∈ OTree.order tree := by
    intro p u hu
    rw [tables.split hu]
    simp
  have hclosest := tables.closest (OTree.order tree)
  rcases hfirst : first s (OTree.order tree) with _ | t
  · rw [hfirst] at hclosest
    intro p
    by_contra hne
    obtain ⟨u, hu⟩ := List.exists_mem_of_ne_nil _ hne
    exact hne (hclosest p (hall p u hu))
  · rw [hfirst] at hclosest
    obtain ⟨L₁, p, L₂, hsplit, hempty, hmem, hlow⟩ := hclosest
    obtain ⟨hprio, -, a, ha, -, hlt⟩ := tables.home p t hmem
    refine ⟨by rw [hprio]; exact hmem, fun q u hu => ?_⟩
    have hq := hall q u hu
    rw [hsplit] at hq
    rcases mem_append.mp hq with hq | hq
    · rw [hempty q hq] at hu
      cases hu
    · rcases mem_cons.mp hq with rfl | hq
      · exact hlow u hu
      · have hle := (tables.lt hordered hsplit ha).2 q hq u hu
        omega

/-- STEP: every call that meets the condition keeps the chains. -/
theorem Chained.step (h : Chained tree modifyRoot w.fs w.handles) (hmatch : Matching w k)
    (hfits : Fits tree w k) :
    Chained tree modifyRoot (w.step tree modifyRoot k).fs (w.step tree modifyRoot k).handles := by
  cases k with
  | create prio level fail =>
    unfold World.step
    dsimp only
    by_cases hok : ∃ attr, OTree.leafAt tree prio = some attr ∧ level < attr.numLevels ∧ fail = false
    · obtain ⟨attr, hattr, hlevel, rfl⟩ := hok
      refine h.create (create_spec w.fs level hattr hlevel) rfl hattr (Nat.le_add_left _ _)
        (by dsimp only; omega) fun hfirst nextFt hnext => ?_
      refine hfits attr hattr hfirst nextFt ?_
      rw [findNext_eq, ← first_cons]
      exact hnext
    · rw [create_fail]
      · exact h
      · intro attr hattr
        by_contra hnot
        obtain ⟨hlevel, hfail⟩ := not_or.mp hnot
        exact hok ⟨attr, hattr, by omega, by simpa using hfail⟩
  | destroy ft => exact h.destroy (destroy_spec w.fs hfits.1) hmatch hfits.1 hfits.2
  | add ft fte nextNs fail =>
    unfold World.step
    dsimp only
    rcases hadd : mlx5AddFlowRules tree w.fs ft fte nextNs fail with ⟨s, _ | id⟩
    · exact h.add hmatch hfits.1 hfits.2 hadd
    · exact h.add hmatch hfits.1 hfits.2 hadd
  | del handle => exact h.del hmatch

/-- CORRECT: in every run of creations, destructions, additions and removals that meet the condition,
    each table goes on to the closest table after its priority, each rule to the one it was asked for,
    and it is in the list of that one only; and where the device can modify the root and the levels grow
    along the tree, the root is the lowest table. -/
theorem chaining (h : Reach (World.step tree modifyRoot) (fun w k => Matching w k ∧ Fits tree w k)
    World.start w) :
    Chaining tree w ∧ (modifyRoot = true → Ordered tree → Lowest w.fs w.fs.rootFt) := by
  have hchained : Chained tree modifyRoot w.fs w.handles := by
    refine @Reach.invariant _ _ _ _ _ _ (fun w => Chained tree modifyRoot w.fs w.handles) h ?_
      fun w k hok hw => hw.step hok.1 hok.2
    refine ⟨⟨fun _ => .nil, fun p t ht => (by cases ht), fun _ => .nil, fun p t ht => (by cases ht)⟩,
      fun p t ht => (by cases ht), ⟨fun r hr => (by cases hr), fun r hr => (by cases hr),
        fun r hr => (by cases hr), fun x id hid => (by cases hid)⟩,
      ⟨.nil, fun r hr => (by cases hr), fun x hx => (by cases hx), fun r hr => (by cases hr)⟩,
      fun _ => rfl, fun _ _ => ?_⟩
    exact (first_none.mpr fun _ _ => rfl).symm
  refine ⟨⟨?_, hchained.refs.alive, ?_, ?_, hchained.fwd.list⟩, ?_⟩
  · intro p t ht
    rw [hchained.miss p t ht]
    exact hchained.tables.closest _
  · intro r hr hns
    have hdest := hchained.fwd.dest r hr
    unfold scope at hdest
    rw [hchained.miss _ _ (hchained.fwd.home r hr), ← hdest, if_neg (by simp [hns])]
  · intro r hr hns
    have hdest := hchained.fwd.dest r hr
    unfold scope at hdest
    rw [if_pos hns] at hdest
    rw [← hdest]
    exact hchained.tables.closest _
  · intro hmodify hordered
    rw [hchained.root hordered hmodify]
    exact hchained.tables.lowest hordered

end Runs

/-- A namespace with two priorities, and another one behind it. -/
def twoSpaces : List FsNode :=
  [.node [.node [.leaf ⟨0, 1⟩, .leaf ⟨1, 1⟩]], .node [.node [.leaf ⟨2, 1⟩]]]

/-- A table in the first and one in the last priority, a rule between them, and a table in between. -/
def between (nextNs : Bool) : World :=
  [Call.create [0, 0, 1] 0 false, .create [0, 0, 0] 0 false,
    .add ⟨1, 0, [0, 0, 0]⟩ 0 nextNs false, .create [1, 0, 0] 0 false].foldl
      (World.step twoSpaces true) World.start

theorem between_reach : Reach (World.step twoSpaces true)
    (fun w k => Matching w k ∧ Fits twoSpaces w k) World.start (between false) := by
  refine Reach.start.runs ⟨⟨trivial, ?_⟩, ⟨trivial, ?_⟩, ⟨by decide, ?_⟩, ⟨trivial, ?_⟩, trivial⟩
  · exact fun attr _ _ nextFt _ r hr => (by cases hr)
  · exact fun attr _ _ nextFt _ r hr => (by cases hr)
  · exact ⟨fun hns => (by cases hns), fun r hr => (by cases hr)⟩
  · intro attr _ _ nextFt _ r hr _ hns
    cases mem_singleton.mp hr
    cases hns

theorem twoSpaces_ordered : Ordered twoSpaces := by
  have horder : OTree.order twoSpaces = [[0, 0, 0], [1, 0, 0], [0, 0, 1]] := rfl
  unfold Ordered
  rw [horder]
  simp [twoSpaces, OTree.leafAt, OTree.childrenAt, OTree.children]

theorem chaining_between : Chaining twoSpaces (between false) ∧
    Lowest (between false).fs (some ⟨1, 0, [0, 0, 0]⟩) ∧
    ((between false).fs.rules.map fun r => r.dest.id) = [3] :=
  have h := chaining between_reach
  ⟨h.1, h.2 rfl twoSpaces_ordered, by decide⟩

/-- A rule that forwards to the next namespace goes into the list of a new table of its own namespace,
    and is left behind when the table it goes to is destroyed. -/
theorem chaining_broken :
    (∃ w, Reach (World.step twoSpaces true) Matching World.start w ∧ ¬ Chaining twoSpaces w) ∧
    ∃ w, Reach (World.step twoSpaces true) Matching World.start w ∧
      ∃ r ∈ w.fs.rules, r.dest ∉ w.fs.ft r.dest.prio :=
  ⟨⟨between true, Reach.start.runs (by decide), fun h => (by
      have hlist := (h.lists ⟨2, ⟨1, 0, [0, 0, 0]⟩, 0, true, ⟨0, 2, [0, 0, 1]⟩, 1⟩ (by decide) 3).mp
        (by decide)
      exact absurd hlist (by decide))⟩,
    ⟨(between true).step twoSpaces true (.destroy ⟨0, 2, [0, 0, 1]⟩),
      (Reach.runs .start (l := [_, _, _, _]) (by decide)).next (by decide), by decide⟩⟩

end RdmaDriver.FsChaining
