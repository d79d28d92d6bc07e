import Mathlib.Algebra.Ring.Nat
import Mathlib.Data.List.Nodup
import Mathlib.Logic.Function.Basic
import RdmaDriver.Schemes.Run

/-! @src drivers/net/ethernet/mellanox/mlx5/core/esw/qos.c | name:vport rates | scheme:tree |
    family:rollback

    The rates of virtual ports and of their groups, and the scheduling elements programmed for them.

        root --+-- node0 --+-- vport      max_rate: of the vport, or of its group
               |           +-- vport      min_rate: a share, relative to the largest among siblings
               +-- group ----- vport

    A share is `min_rate / divider`. The divider follows the largest guarantee among the siblings,
    so that one change programs all of them again, and below a group the vports of the group. -/

namespace RdmaDriver.EswQos
open RdmaDriver.Schemes Function
open List (map_congr_left mem_cons mem_cons_of_mem mem_cons_self mem_map mem_singleton nodup_cons
  not_mem_nil)

def MLX5_MIN_BW_SHARE : ℕ := 1

/-- The capabilities `max_tsar_bw_share`, `esw_bw_share` and `esw_rate_limit`. -/
structure Caps where
  maxTsarBwShare : ℕ
  eswBwShare : Bool
  eswRateLimit : Bool

/-- `struct mlx5_esw_sched_node`, with the maximum rate and the share of its element, if there is
    one. -/
@[ext]
structure Node where
  maxRate : ℕ
  minRate : ℕ
  bwShare : ℕ
  elem : Option (ℕ × ℕ)

/-- The groups in order, their vports in order, and the group of a vport. Beside them: the name of
    the next group, and whether a division by zero was made. -/
structure St where
  nodes : List ℕ
  group : ℕ → Node
  children : ℕ → List ℕ
  vport : ℕ → Node
  parent : ℕ → ℕ
  next : ℕ
  trap : Bool

/-- Which commands that configure an element succeed. -/
structure Cmds where
  group : ℕ → Bool
  vport : ℕ → Bool

section Shares

/-- `esw_qos_calc_bw_share`. -/
def calcBwShare (minRate divider fwMax : ℕ) : ℕ :=
  if divider = 0 then 0
  else min (max ((minRate + divider - 1) % 2 ^ 32 / divider) MLX5_MIN_BW_SHARE) fwMax

/-- The loop of `esw_qos_calculate_min_rate_divider`. -/
def maxGuarantee (minRates : List ℕ) : ℕ :=
  minRates.foldl (fun g r => if r > g then r else g) 0

/-- `esw_qos_calculate_min_rate_divider`, with the share of the parent. -/
def calculateMinRateDivider (fwMax : ℕ) (minRates : List ℕ) (parentShare : ℕ) : ℕ :=
  if maxGuarantee minRates ≠ 0 then max (maxGuarantee minRates / fwMax) 1
  else if parentShare ≠ 0 then 1
  else 0

/-- It divides by zero. -/
def dividesByZero (fwMax : ℕ) (minRates : List ℕ) : Bool :=
  decide (maxGuarantee minRates ≠ 0 ∧ fwMax = 0)

/-- `esw_qos_sched_elem_config` that works. -/
def schedElemConfig (n : Node) (maxRate bwShare : ℕ) : Node :=
  { n with elem := some (maxRate, bwShare) }

/-- `esw_qos_update_sched_node_bw_share`; none where the command fails. -/
def updateSchedNodeBwShare (c : Caps) (ok : Bool) (divider : ℕ) (n : Node) : Option Node :=
  let bwShare := calcBwShare n.minRate divider c.maxTsarBwShare
  if bwShare = n.bwShare then some n
  else if ok then some { schedElemConfig n n.maxRate bwShare with bwShare := bwShare }
  else none

/-- The loop of `esw_qos_normalize_min_rate` over vports, up to the first failure. -/
def normalizeVports (c : Caps) (ok : ℕ → Bool) (divider : ℕ) :
    List ℕ → (ℕ → Node) → Bool × (ℕ → Node)
  | [], vport => (true, vport)
  | v :: l, vport =>
    match updateSchedNodeBwShare c (ok v) divider (vport v) with
    | none => (false, vport)
    | some n => normalizeVports c ok divider l (update vport v n)

/-- The minimum rates of the vports of a group. -/
def vportRates (s : St) (g : ℕ) : List ℕ := (s.children g).map fun v => (s.vport v).minRate

/-- The minimum rates of the groups. -/
def groupRates (s : St) : List ℕ := s.nodes.map fun g => (s.group g).minRate

/-- `esw_qos_normalize_min_rate` of a group. -/
def normalizeMinRate (c : Caps) (ok : ℕ → Bool) (s : St) (g : ℕ) : Bool × St :=
  let divider := calculateMinRateDivider c.maxTsarBwShare (vportRates s g) (s.group g).bwShare
  let r := normalizeVports c ok divider (s.children g) s.vport
  (r.1, { s with
    vport := r.2, trap := s.trap || dividesByZero c.maxTsarBwShare (vportRates s g) })

/-- The loop of `esw_qos_normalize_min_rate` over the groups. -/
def normalizeNodes (c : Caps) (ok : Cmds) (divider : ℕ) : List ℕ → St → Bool × St
  | [], s => (true, s)
  | g :: l, s =>
    match updateSchedNodeBwShare c (ok.group g) divider (s.group g) with
    | none => (false, s)
    | some n =>
      let s := { s with group := update s.group g n }
      if s.children g = [] then normalizeNodes c ok divider l s
      else
        let r := normalizeMinRate c ok.vport s g
        if r.1 then normalizeNodes c ok divider l r.2 else (false, r.2)

/-- `esw_qos_normalize_min_rate` of the root. -/
def normalizeRoot (c : Caps) (ok : Cmds) (s : St) : Bool × St :=
  normalizeNodes c ok (calculateMinRateDivider c.maxTsarBwShare (groupRates s) 0) s.nodes
    { s with trap := s.trap || dividesByZero c.maxTsarBwShare (groupRates s) }

end Shares

section Setters

/-- `esw_qos_set_vport_min_rate`: whether it works. -/
def setVportMinRate (c : Caps) (ok : ℕ → Bool) (s : St) (v minRate : ℕ) : Bool × St :=
  if minRate ≠ 0 ∧ ¬(c.eswBwShare = true ∧ c.maxTsarBwShare ≥ MLX5_MIN_BW_SHARE) then (false, s)
  else if minRate = (s.vport v).minRate then (true, s)
  else
    let previous := (s.vport v).minRate
    let set := fun (s : St) rate =>
      { s with vport := update s.vport v { s.vport v with minRate := rate } }
    let r := normalizeMinRate c ok (set s minRate) (s.parent v)
    if r.1 then (true, r.2) else (false, set r.2 previous)

/-- `esw_qos_set_vport_max_rate`. -/
def setVportMaxRate (c : Caps) (ok : Bool) (s : St) (v maxRate : ℕ) : Bool × St :=
  if maxRate ≠ 0 ∧ ¬c.eswRateLimit = true then (false, s)
  else if maxRate = (s.vport v).maxRate then (true, s)
  else
    let actMaxRate := if maxRate = 0 then (s.group (s.parent v)).maxRate else maxRate
    if ok then
      let n := schedElemConfig (s.vport v) actMaxRate (s.vport v).bwShare
      (true, { s with vport := update s.vport v { n with maxRate := maxRate } })
    else (false, s)

/-- `esw_qos_set_node_min_rate`. -/
def setNodeMinRate (c : Caps) (ok restore : Cmds) (s : St) (g minRate : ℕ) : Bool × St :=
  if ¬c.eswBwShare = true ∨ c.maxTsarBwShare < MLX5_MIN_BW_SHARE then (false, s)
  else if minRate = (s.group g).minRate then (true, s)
  else
    let previous := (s.group g).minRate
    let set := fun (s : St) rate =>
      { s with group := update s.group g { s.group g with minRate := rate } }
    let r := normalizeRoot c ok (set s minRate)
    if r.1 then (true, r.2) else (false, (normalizeRoot c restore (set r.2 previous)).2)

/-- The loop of `esw_qos_set_node_max_rate` over the vports: the last result, and the vports. -/
def limitVports (ok : ℕ → Bool) (maxRate : ℕ) : List ℕ → Bool → (ℕ → Node) → Bool × (ℕ → Node)
  | [], err, vport => (err, vport)
  | v :: l, err, vport =>
    if (vport v).maxRate ≠ 0 then limitVports ok maxRate l err vport
    else if ok v then
      limitVports ok maxRate l true
        (update vport v (schedElemConfig (vport v) maxRate (vport v).bwShare))
    else limitVports ok maxRate l false vport

/-- `esw_qos_set_node_max_rate`. -/
def setNodeMaxRate (ok : Cmds) (s : St) (g maxRate : ℕ) : Bool × St :=
  if (s.group g).maxRate = maxRate then (true, s)
  else if ok.group g then
    let n := schedElemConfig (s.group g) maxRate (s.group g).bwShare
    let r := limitVports ok.vport maxRate (s.children g) true s.vport
    (r.1, { s with
      group := update s.group g { n with maxRate := maxRate }, vport := r.2 })
  else (false, s)

end Setters

section Moves

/-- The limit of the element of a vport in a group. -/
def actMaxRate (s : St) (v g : ℕ) : ℕ :=
  if (s.vport v).maxRate ≠ 0 then (s.vport v).maxRate else (s.group g).maxRate

/-- `esw_qos_node_set_parent`. -/
def nodeSetParent (s : St) (v g : ℕ) : St :=
  let children := update s.children (s.parent v) ((s.children (s.parent v)).erase v)
  { s with
    children := update children g (children g ++ [v])
    parent := update s.parent v g }

/-- `esw_qos_update_node_scheduling_element`, with what its commands do: the element is destroyed, a
    new one is created, and where this fails the old one is created again. -/
def updateNodeSchedulingElement (destroyed created restored : Bool) (s : St) (v new : ℕ) :
    Bool × St :=
  let set := fun (s : St) elem =>
    { s with vport := update s.vport v { s.vport v with elem := elem } }
  if ¬destroyed = true then (false, s)
  else if created then
    (true, nodeSetParent (set s (some (actMaxRate s v new, (s.vport v).bwShare))) v new)
  else if restored then
    (false, set s (some (actMaxRate s v (s.parent v), (s.vport v).bwShare)))
  else (false, set s none)

/-- `esw_qos_vport_update_node`; the results of the normalisations are not looked at. -/
def vportUpdateNode (c : Caps) (destroyed created restored : Bool) (ok : ℕ → Bool) (s : St)
    (v new : ℕ) : Bool × St :=
  let curr := s.parent v
  if curr = new then (true, s)
  else
    let r := updateNodeSchedulingElement destroyed created restored s v new
    if ¬r.1 = true then (false, r.2)
    else if (r.2.vport v).bwShare ≠ 0 ∨ (r.2.group new).bwShare ≠ 0 then
      (true, (normalizeMinRate c ok (normalizeMinRate c ok r.2 curr).2 new).2)
    else (true, r.2)

/-- `__esw_qos_create_vports_sched_node`: the element of the group is created, the group is
    allocated with its directory, and the shares are normalised. -/
def createVportsSchedNode (c : Caps) (created allocated : Bool) (ok : Cmds) (s : St) : Bool × St :=
  if ¬(created = true ∧ allocated = true) then (false, s)
  else
    let g := s.next
    let r := normalizeRoot c ok { s with
      nodes := s.nodes ++ [g]
      group := update s.group g ⟨0, 0, 0, some (0, 0)⟩
      children := update s.children g []
      next := g + 1 }
    if r.1 then (true, r.2) else (false, { r.2 with nodes := r.2.nodes.erase g })

/-- `__esw_qos_destroy_node`; the result of the command that destroys the element is lost. -/
def destroyNode (c : Caps) (ok : Cmds) (s : St) (g : ℕ) : Bool × St :=
  normalizeRoot c ok { s with nodes := s.nodes.erase g }

end Moves

/-- An operation, with what its commands do. -/
inductive Op where
  | setVportMinRate (ok : ℕ → Bool) (v minRate : ℕ)
  | setVportMaxRate (ok : Bool) (v maxRate : ℕ)
  | setNodeMinRate (ok restore : Cmds) (g minRate : ℕ)
  | setNodeMaxRate (ok : Cmds) (g maxRate : ℕ)
  | vportUpdateNode (destroyed created restored : Bool) (ok : ℕ → Bool) (v new : ℕ)
  | createVportsSchedNode (created allocated : Bool) (ok : Cmds)
  | destroyNode (ok : Cmds) (g : ℕ)

/-- The result of an operation, and the state after it. -/
def run (c : Caps) (s : St) : Op → Bool × St
  | .setVportMinRate ok v minRate => setVportMinRate c ok s v minRate
  | .setVportMaxRate ok v maxRate => setVportMaxRate c ok s v maxRate
  | .setNodeMinRate ok restore g minRate => setNodeMinRate c ok restore s g minRate
  | .setNodeMaxRate ok g maxRate => setNodeMaxRate ok s g maxRate
  | .vportUpdateNode destroyed created restored ok v new =>
    vportUpdateNode c destroyed created restored ok s v new
  | .createVportsSchedNode created allocated ok => createVportsSchedNode c created allocated ok s
  | .destroyNode ok g => destroyNode c ok s g

def step (c : Caps) (s : St) (a : Op) : St := (run c s a).2

/-- A vport that is on the list of its group. -/
def IsVport (s : St) (v : ℕ) : Prop := s.parent v ∈ s.nodes ∧ v ∈ s.children (s.parent v)

/-- An operation on vports and groups that exist. A group is destroyed when it has no vport, and
    `node0` is not. -/
def Allowed (s : St) : Op → Prop
  | .setVportMinRate _ v _ => IsVport s v
  | .setVportMaxRate _ v _ => IsVport s v
  | .setNodeMinRate _ _ g _ => g ∈ s.nodes
  | .setNodeMaxRate _ g _ => g ∈ s.nodes
  | .vportUpdateNode _ _ _ _ v new => IsVport s v ∧ new ∈ s.nodes
  | .createVportsSchedNode _ _ _ => True
  | .destroyNode _ g => g ∈ s.nodes ∧ g ≠ 0 ∧ s.children g = []

/-- An eswitch with some vports, all in `node0` and without rates. -/
def start (vports : ℕ) : St :=
  ⟨[0], fun _ => ⟨0, 0, 0, some (0, 0)⟩, fun g => if g = 0 then List.range vports else [],
    fun _ => ⟨0, 0, 0, some (0, 0)⟩, fun _ => 0, 1, false⟩

section Dividers
variable {fwMax parentShare : ℕ} {rates : List ℕ}

theorem le_maxGuarantee (rates : List ℕ) : ∀ g : ℕ,
    g ≤ rates.foldl (fun g r => if r > g then r else g) g ∧
      ∀ r ∈ rates, r ≤ rates.foldl (fun g r => if r > g then r else g) g := by
  induction rates with
  | nil => exact fun g => ⟨Nat.le_refl g, fun _ h => absurd h not_mem_nil⟩
  | cons a l ih =>
    intro g
    obtain ⟨hle, hall⟩ := ih (if a > g then a else g)
    have hg : g ≤ (if a > g then a else g) ∧ a ≤ (if a > g then a else g) := by
      split_ifs <;> omega
    refine ⟨Nat.le_trans hg.1 hle, fun r hr => ?_⟩
    rcases mem_cons.mp hr with rfl | hr
    · exact Nat.le_trans hg.2 hle
    · exact hall r hr

theorem maxGuarantee_mem (rates : List ℕ) : ∀ g : ℕ,
    rates.foldl (fun g r => if r > g then r else g) g = g ∨
      rates.foldl (fun g r => if r > g then r else g) g ∈ rates := by
  induction rates with
  | nil => exact fun g => .inl rfl
  | cons a l ih =>
    intro g
    rcases ih (if a > g then a else g) with h | h
    · rw [List.foldl_cons, h]
      split_ifs
      · exact .inr mem_cons_self
      · exact .inl rfl
    · exact .inr (mem_cons_of_mem a h)

/-- There is a guarantee where one of the nodes has one. -/
theorem maxGuarantee_ne_zero : maxGuarantee rates ≠ 0 ↔ ∃ r ∈ rates, r ≠ 0 := by
  constructor
  · intro h
    rcases maxGuarantee_mem rates 0 with hz | hm
    · exact absurd hz h
    · exact ⟨_, hm, h⟩
  · rintro ⟨r, hr, hne⟩ hz
    have hle := (le_maxGuarantee rates 0).2 r hr
    have hz' : rates.foldl (fun g r => if r > g then r else g) 0 = 0 := hz
    omega

/-- The divider is zero where neither the nodes nor their parent have a guarantee. -/
theorem calculateMinRateDivider_ne_zero : calculateMinRateDivider fwMax rates parentShare ≠ 0 ↔
    (∃ r ∈ rates, r ≠ 0) ∨ parentShare ≠ 0 := by
  unfold calculateMinRateDivider
  rw [← maxGuarantee_ne_zero]
  by_cases hm : maxGuarantee rates ≠ 0
  · rw [if_pos hm]
    exact iff_of_true (by omega) (.inl hm)
  · rw [if_neg hm]
    split_ifs with hp
    · exact iff_of_true (by decide) (.inr hp)
    · exact iff_of_false (by decide) (by tauto)

/-- A share is between the least one and the maximum of the firmware, or none. -/
theorem calcBwShare_bounds (minRate divider : ℕ) :
    (divider = 0 → calcBwShare minRate divider fwMax = 0) ∧
      (divider ≠ 0 → 0 < fwMax → MLX5_MIN_BW_SHARE ≤ calcBwShare minRate divider fwMax) ∧
      calcBwShare minRate divider fwMax ≤ fwMax := by
  unfold calcBwShare MLX5_MIN_BW_SHARE
  refine ⟨fun h => if_pos h, fun h hf => ?_, ?_⟩
  · rw [if_neg h]
    omega
  · split_ifs
    · exact Nat.zero_le _
    · exact Nat.min_le_right _ _

end Dividers

section Passes
variable {c : Caps} {d : ℕ} {n : Node} {ok : ℕ → Bool} {vport : ℕ → Node} {l : List ℕ} {limit : ℕ}

/-- A node after `esw_qos_update_sched_node_bw_share` that works. -/
def shared (c : Caps) (d : ℕ) (n : Node) : Node :=
  if calcBwShare n.minRate d c.maxTsarBwShare = n.bwShare then n
  else
    { n with
      elem := some (n.maxRate, calcBwShare n.minRate d c.maxTsarBwShare)
      bwShare := calcBwShare n.minRate d c.maxTsarBwShare }

/-- The share of a node changes. -/
def Changes (c : Caps) (d : ℕ) (n : Node) : Prop :=
  calcBwShare n.minRate d c.maxTsarBwShare ≠ n.bwShare

instance : Decidable (Changes c d n) := inferInstanceAs (Decidable (_ ≠ _))

@[simp] theorem shared_maxRate : (shared c d n).maxRate = n.maxRate := by
  unfold shared
  split_ifs <;> rfl

@[simp] theorem shared_minRate : (shared c d n).minRate = n.minRate := by
  unfold shared
  split_ifs <;> rfl

@[simp] theorem shared_bwShare :
    (shared c d n).bwShare = calcBwShare n.minRate d c.maxTsarBwShare := by
  unfold shared
  split_ifs with h
  · exact h.symm
  · rfl

theorem shared_of_not (h : ¬Changes c d n) : shared c d n = n := if_pos (not_not.mp h)

theorem shared_elem (h : Changes c d n) :
    (shared c d n).elem = some (n.maxRate, calcBwShare n.minRate d c.maxTsarBwShare) := by
  unfold shared
  rw [if_neg h]

/-- The command is only given where the share changes. -/
theorem updateSchedNodeBwShare_eq (b : Bool) : updateSchedNodeBwShare c b d n =
    if Changes c d n ∧ b = false then none else some (shared c d n) := by
  unfold updateSchedNodeBwShare shared Changes schedElemConfig
  by_cases h : calcBwShare n.minRate d c.maxTsarBwShare = n.bwShare
  · simp [h]
  · cases b <;> simp [h]

/-- The vports that are programmed again, up to the first failure, have a maximum rate of their own,
    or their group has none. -/
def SparesVports (c : Caps) (ok : ℕ → Bool) (d limit : ℕ) : List ℕ → (ℕ → Node) → Prop
  | [], _ => True
  | v :: l, vport =>
    if Changes c d (vport v) then
      ok v = true → ((vport v).maxRate ≠ 0 ∨ limit = 0) ∧ SparesVports c ok d limit l vport
    else SparesVports c ok d limit l vport

theorem sparesVports_cons {v : ℕ} : SparesVports c ok d limit (v :: l) vport ↔
    if Changes c d (vport v) then
      ok v = true → ((vport v).maxRate ≠ 0 ∨ limit = 0) ∧ SparesVports c ok d limit l vport
    else SparesVports c ok d limit l vport := Iff.rfl

theorem SparesVports.congr {vport' : ℕ → Node} : (∀ v ∈ l, vport' v = vport v) →
    (SparesVports c ok d limit l vport' ↔ SparesVports c ok d limit l vport) := by
  induction l with
  | nil => exact fun _ => Iff.rfl
  | cons v l ih =>
    intro h
    rw [sparesVports_cons, sparesVports_cons, h v mem_cons_self,
      ih fun u hu => h u (mem_cons_of_mem v hu)]

theorem sparesVports_of_not :
    (∀ v ∈ l, ¬Changes c d (vport v)) → SparesVports c ok d limit l vport := by
  induction l with
  | nil => exact fun _ => trivial
  | cons v l ih =>
    intro h
    rw [sparesVports_cons, if_neg (h v mem_cons_self)]
    exact ih fun u hu => h u (mem_cons_of_mem v hu)

/-- RUN: the vports after the loop. Those that were programmed have their new share; all have it
    where no command fails. -/
theorem normalizeVports_spec (c : Caps) (ok : ℕ → Bool) (d limit : ℕ) (l : List ℕ) :
    ∀ vport : ℕ → Node, l.Nodup → (∀ v, (normalizeVports c ok d l vport).2 v = vport v ∨
      v ∈ l ∧ (normalizeVports c ok d l vport).2 v = shared c d (vport v) ∧
        (SparesVports c ok d limit l vport → (vport v).maxRate ≠ 0 ∨ limit = 0)) ∧
    ((normalizeVports c ok d l vport).1 = true ↔ ∀ v ∈ l, Changes c d (vport v) → ok v = true) ∧
    ((normalizeVports c ok d l vport).1 = true → ∀ v ∈ l,
      (normalizeVports c ok d l vport).2 v = shared c d (vport v)) := by
  induction l with
  | nil =>
    intro vport _
    exact ⟨fun v => .inl rfl, iff_of_true rfl fun _ h => absurd h not_mem_nil,
      fun _ _ h => absurd h not_mem_nil⟩
  | cons v l ih =>
    intro vport hn
    obtain ⟨hout, hl⟩ := nodup_cons.mp hn
    unfold normalizeVports
    rw [updateSchedNodeBwShare_eq]
    by_cases hfail : Changes c d (vport v) ∧ ok v = false
    · rw [if_pos hfail]
      refine ⟨fun u => .inl rfl, iff_of_false Bool.false_ne_true fun h => ?_,
        fun h => Bool.noConfusion h⟩
      have hok := h v mem_cons_self hfail.1
      rw [hfail.2] at hok
      cases hok
    rw [if_neg hfail]
    have hself : update vport v (shared c d (vport v)) v = shared c d (vport v) :=
      update_self ..
    have hother : ∀ u, u ≠ v → update vport v (shared c d (vport v)) u = vport u :=
      fun u hu => update_of_ne hu ..
    have hmem : ∀ u ∈ l, u ≠ v := fun u hu he => hout (he ▸ hu)
    obtain ⟨hmid, hres, hall⟩ := ih (update vport v (shared c d (vport v))) hl
    have hv : (normalizeVports c ok d l (update vport v (shared c d (vport v)))).2 v =
        shared c d (vport v) := by
      rcases hmid v with h | ⟨h, -⟩
      · rw [h, hself]
      · exact absurd h hout
    have hspares : SparesVports c ok d limit (v :: l) vport → SparesVports c ok d limit l vport ∧
          (Changes c d (vport v) → (vport v).maxRate ≠ 0 ∨ limit = 0) := by
      rw [sparesVports_cons]
      by_cases hc : Changes c d (vport v)
      · have hok : ok v = true := by simpa [hc] using hfail
        rw [if_pos hc]
        exact fun h => ⟨(h hok).2, fun _ => (h hok).1⟩
      · rw [if_neg hc]
        exact fun h => ⟨h, fun h' => absurd h' hc⟩
    refine ⟨fun u => ?_, hres.trans ⟨fun h u hu => ?_, fun h u hu => ?_⟩, fun hr u hu => ?_⟩
    · by_cases hu : u = v
      · subst hu
        by_cases hc : Changes c d (vport u)
        · exact .inr ⟨mem_cons_self, hv, fun h => (hspares h).2 hc⟩
        · rw [shared_of_not hc] at hv
          rw [shared_of_not hc]
          exact .inl hv
      · rcases hmid u with h | ⟨hu', h, hs⟩
        · exact .inl (h.trans (hother u hu))
        · rw [hother u hu] at h hs
          refine .inr ⟨mem_cons_of_mem v hu', h, fun hsp => hs ?_⟩
          exact (SparesVports.congr fun w hw => hother w (hmem w hw)).mpr (hspares hsp).1
    · rcases mem_cons.mp hu with rfl | hu
      · intro hc
        simpa [hc] using hfail
      · have h' := h u hu
        rwa [hother u (hmem u hu)] at h'
    · rw [hother u (hmem u hu)]
      exact h u (mem_cons_of_mem v hu)
    · rcases mem_cons.mp hu with rfl | hu
      · exact hv
      · rw [hall hr u hu, hother u (hmem u hu)]

end Passes

section Trees
variable {c : Caps} {d : ℕ} {ok : Cmds} {s s' : St} {g v : ℕ} {l : List ℕ}

/-- The divider of the vports of a group whose share follows divider `d`. -/
def vportDivider (c : Caps) (d : ℕ) (s : St) (g : ℕ) : ℕ :=
  calculateMinRateDivider c.maxTsarBwShare (vportRates s g)
    (calcBwShare (s.group g).minRate d c.maxTsarBwShare)

/-- The divider of the groups. -/
def groupDivider (c : Caps) (s : St) : ℕ :=
  calculateMinRateDivider c.maxTsarBwShare (groupRates s) 0

/-- There are minimum rates only where the firmware has shares. -/
structure Guard (c : Caps) (s : St) : Prop where
  group : ∀ g, (s.group g).minRate ≠ 0 → c.maxTsarBwShare ≠ 0
  vport : ∀ v, (s.vport v).minRate ≠ 0 → c.maxTsarBwShare ≠ 0

theorem Guard.groups (h : Guard c s) : dividesByZero c.maxTsarBwShare (groupRates s) = false := by
  refine decide_eq_false fun ⟨hm, hz⟩ => ?_
  obtain ⟨r, hr, hne⟩ := maxGuarantee_ne_zero.mp hm
  obtain ⟨g, -, rfl⟩ := mem_map.mp hr
  exact h.group g hne hz

theorem Guard.vports (h : Guard c s) (g : ℕ) :
    dividesByZero c.maxTsarBwShare (vportRates s g) = false := by
  refine decide_eq_false fun ⟨hm, hz⟩ => ?_
  obtain ⟨r, hr, hne⟩ := maxGuarantee_ne_zero.mp hm
  obtain ⟨v, -, rfl⟩ := mem_map.mp hr
  exact h.vport v hne hz

/-- Every command that is needed for a group and its vports succeeds. -/
def Programs (c : Caps) (ok : Cmds) (d : ℕ) (s : St) (g : ℕ) : Prop :=
  (Changes c d (s.group g) → ok.group g = true) ∧
    ∀ v ∈ s.children g, Changes c (vportDivider c d s g) (s.vport v) → ok.vport v = true

/-- `SparesVports` of all groups, up to the first failure. -/
def SparesNodes (c : Caps) (ok : Cmds) (d : ℕ) (s : St) : List ℕ → Prop
  | [] => True
  | g :: l => (Changes c d (s.group g) → ok.group g = true) →
    SparesVports c ok.vport (vportDivider c d s g) (s.group g).maxRate (s.children g) s.vport ∧
      (Programs c ok d s g → SparesNodes c ok d s l)

theorem sparesNodes_cons : SparesNodes c ok d s (g :: l) ↔
    ((Changes c d (s.group g) → ok.group g = true) →
      SparesVports c ok.vport (vportDivider c d s g) (s.group g).maxRate (s.children g) s.vport ∧
        (Programs c ok d s g → SparesNodes c ok d s l)) := Iff.rfl

/-- Two states with the same group and the same vports in it. -/
def Agree (s s' : St) (g : ℕ) : Prop :=
  s'.group g = s.group g ∧ s'.children g = s.children g ∧ ∀ v ∈ s.children g, s'.vport v = s.vport v

theorem Agree.vportDivider (h : Agree s s' g) : vportDivider c d s' g = vportDivider c d s g := by
  obtain ⟨hg, hc, hv⟩ := h
  have hrates : vportRates s' g = vportRates s g := by
    unfold vportRates
    rw [hc]
    exact map_congr_left fun v hm => by rw [hv v hm]
  unfold EswQos.vportDivider
  rw [hrates, hg]

theorem Agree.programs (h : Agree s s' g) : Programs c ok d s' g ↔ Programs c ok d s g := by
  have hdiv : EswQos.vportDivider c d s' g = EswQos.vportDivider c d s g := h.vportDivider
  obtain ⟨hg, hc, hv⟩ := h
  unfold Programs
  rw [hg, hc, hdiv]
  refine and_congr_right' ⟨fun h v hm => ?_, fun h v hm => ?_⟩
  · rw [← hv v hm]
    exact h v hm
  · rw [hv v hm]
    exact h v hm

theorem SparesNodes.congr : (∀ g ∈ l, Agree s s' g) →
    (SparesNodes c ok d s' l ↔ SparesNodes c ok d s l) := by
  induction l with
  | nil => exact fun _ => Iff.rfl
  | cons g l ih =>
    intro h
    have hg := h g mem_cons_self
    have hdiv : EswQos.vportDivider c d s' g = EswQos.vportDivider c d s g := hg.vportDivider
    rw [sparesNodes_cons, sparesNodes_cons, hg.programs, hdiv, hg.1, hg.2.1,
      SparesVports.congr hg.2.2, ih fun g' hg' => h g' (mem_cons_of_mem g hg')]

/-- A group without vports is not looked at. -/
theorem normalizeMinRate_nil {f : ℕ → Bool} (h : s.children g = []) :
    normalizeMinRate c f s g = (true, s) := by
  unfold normalizeMinRate
  have hzero : dividesByZero c.maxTsarBwShare (vportRates s g) = false := by
    unfold vportRates
    rw [h]
    rfl
  rw [h, hzero, Bool.or_false]
  rfl

theorem normalizeNodes_cons : normalizeNodes c ok d (g :: l) s =
    if Changes c d (s.group g) ∧ ok.group g = false then (false, s)
    else
      let r := normalizeMinRate c ok.vport
        { s with group := update s.group g (shared c d (s.group g)) } g
      if r.1 then normalizeNodes c ok d l r.2 else (false, r.2) := by
  rw [normalizeNodes, updateSchedNodeBwShare_eq]
  by_cases hfail : Changes c d (s.group g) ∧ ok.group g = false
  · rw [if_pos hfail, if_pos hfail]
  · rw [if_neg hfail, if_neg hfail]
    simp only
    by_cases hc : s.children g = []
    · have hskip := @normalizeMinRate_nil c
        { s with group := update s.group g (shared c d (s.group g)) } g ok.vport hc
      rw [if_pos hc, hskip]
      rfl
    · rw [if_neg hc]

/-- The state after a loop over groups: what was not programmed is as it was. -/
structure Normalised (c : Caps) (ok : Cmds) (d : ℕ) (l : List ℕ) (s : St) (r : Bool × St) :
    Prop where
  tree : r.2.nodes = s.nodes ∧ r.2.children = s.children ∧ r.2.parent = s.parent ∧
    r.2.next = s.next ∧ r.2.trap = s.trap
  group : ∀ g, r.2.group g = s.group g ∨ g ∈ l ∧ r.2.group g = shared c d (s.group g)
  vport : ∀ v, r.2.vport v = s.vport v ∨ s.parent v ∈ l ∧
    r.2.vport v = shared c (vportDivider c d s (s.parent v)) (s.vport v) ∧
      (SparesNodes c ok d s l → (s.vport v).maxRate ≠ 0 ∨ (s.group (s.parent v)).maxRate = 0)
  res : r.1 = true ↔ ∀ g ∈ l, Programs c ok d s g
  all : r.1 = true → ∀ g ∈ l, r.2.group g = shared c d (s.group g) ∧
    ∀ v ∈ s.children g, r.2.vport v = shared c (vportDivider c d s g) (s.vport v)

/-- RUN: the loop over the groups. -/
theorem normalizeNodes_spec (c : Caps) (ok : Cmds) (d : ℕ) (l : List ℕ) : ∀ s : St, l.Nodup →
    (∀ g ∈ l, (s.children g).Nodup ∧ ∀ v ∈ s.children g, s.parent v = g) → Guard c s →
    Normalised c ok d l s (normalizeNodes c ok d l s) := by
  induction l with
  | nil =>
    intro s _ _ _
    exact ⟨⟨rfl, rfl, rfl, rfl, rfl⟩, fun _ => .inl rfl, fun _ => .inl rfl,
      iff_of_true rfl fun _ h => absurd h not_mem_nil, fun _ _ h => absurd h not_mem_nil⟩
  | cons g l ih =>
    intro s hn htree hguard
    obtain ⟨hout, hl⟩ := nodup_cons.mp hn
    rw [normalizeNodes_cons]
    split_ifs with hfail
    · refine ⟨⟨rfl, rfl, rfl, rfl, rfl⟩, fun _ => .inl rfl, fun _ => .inl rfl,
        iff_of_false Bool.false_ne_true fun h => ?_, fun h => Bool.noConfusion h⟩
      have hok := (h g mem_cons_self).1 hfail.1
      rw [hfail.2] at hok
      cases hok
    have hgroup : Changes c d (s.group g) → ok.group g = true := fun hc => by
      simpa [hc] using hfail
    -- the vports of the group, with the divider that follows from its new share
    obtain ⟨hnodup, hpar⟩ := htree g mem_cons_self
    obtain ⟨hmid, hres, hall⟩ := normalizeVports_spec c ok.vport (vportDivider c d s g)
      (s.group g).maxRate (s.children g) s.vport hnodup
    set r := normalizeVports c ok.vport (vportDivider c d s g) (s.children g) s.vport with hr
    have heq : normalizeMinRate c ok.vport
        { s with group := update s.group g (shared c d (s.group g)) } g = (r.1, { s with
          group := update s.group g (shared c d (s.group g)), vport := r.2 }) := by
      unfold normalizeMinRate
      have hz := hguard.vports g
      have hrates : vportRates { s with
        group := update s.group g (shared c d (s.group g)) } g = vportRates s g := rfl
      simp only [hrates, hz, Bool.or_false, update_self, shared_bwShare]
      rfl
    rw [heq]
    have hsame : ∀ v, (r.2 v).minRate = (s.vport v).minRate := fun v => by
      rcases hmid v with h | ⟨-, h, -⟩ <;> rw [h]
      exact shared_minRate
    have hne : ∀ g' ∈ l, g' ≠ g := fun g' hg' he => hout (he ▸ hg')
    have hvport : ∀ v, s.parent v ≠ g → r.2 v = s.vport v := fun v hv => by
      rcases hmid v with h | ⟨hm, -⟩
      · exact h
      · exact absurd (hpar v hm) hv
    have hagree : ∀ g' ∈ l, Agree s { s with
        group := update s.group g (shared c d (s.group g)), vport := r.2 } g' :=
      fun g' hg' => ⟨update_of_ne (hne g' hg') .., rfl, fun v hv =>
        hvport v (by rw [(htree g' (mem_cons_of_mem g hg')).2 v hv]; exact hne g' hg')⟩
    have hself : ∀ v, s.parent v = g → r.2 v = s.vport v ∨ s.parent v ∈ g :: l ∧
        r.2 v = shared c (vportDivider c d s (s.parent v)) (s.vport v) ∧
          (SparesNodes c ok d s (g :: l) →
            (s.vport v).maxRate ≠ 0 ∨ (s.group (s.parent v)).maxRate = 0) := fun v hv => by
      rw [hv]
      rcases hmid v with h | ⟨-, h, hs⟩
      · exact .inl h
      · exact .inr ⟨mem_cons_self, h, fun hsp => hs (sparesNodes_cons.mp hsp hgroup).1⟩
    by_cases hrun : r.1 = true
    · rw [if_pos hrun]
      have hprog : Programs c ok d s g := ⟨hgroup, hres.mp hrun⟩
      have hguard' : Guard c { s with
          group := update s.group g (shared c d (s.group g)), vport := r.2 } := by
        refine ⟨fun g' hm => ?_, fun v hm => ?_⟩
        · by_cases he : g' = g
          · subst he
            have hm' : (update s.group g' (shared c d (s.group g')) g').minRate ≠ 0 := hm
            rw [update_self, shared_minRate] at hm'
            exact hguard.group g' hm'
          · have hm' : (update s.group g (shared c d (s.group g)) g').minRate ≠ 0 := hm
            rw [update_of_ne he] at hm'
            exact hguard.group g' hm'
        · have hm' : (r.2 v).minRate ≠ 0 := hm
          rw [hsame v] at hm'
          exact hguard.vport v hm'
      obtain ⟨htree', hgroup', hvport', hres', hall'⟩ := ih
        { s with group := update s.group g (shared c d (s.group g)), vport := r.2 } hl
        (fun g' hg' => htree g' (mem_cons_of_mem g hg')) hguard'
      have hg' : (normalizeNodes c ok d l { s with
          group := update s.group g (shared c d (s.group g)), vport := r.2 }).2.group g =
          shared c d (s.group g) := by
        rcases hgroup' g with h | ⟨h, -⟩
        · rw [h]
          exact update_self ..
        · exact absurd h hout
      have hgv : ∀ v, s.parent v = g → (normalizeNodes c ok d l { s with
          group := update s.group g (shared c d (s.group g)), vport := r.2 }).2.vport v =
          r.2 v := fun v hv => by
        rcases hvport' v with h | ⟨h, -⟩
        · exact h
        · exact absurd (hv ▸ h : g ∈ l) hout
      refine ⟨htree', fun g₁ => ?_, fun v => ?_, hres'.trans ⟨fun h g₁ hg₁ => ?_,
        fun h g₁ hg₁ => ?_⟩, fun hrun' g₁ hg₁ => ?_⟩
      · by_cases he : g₁ = g
        · subst he
          exact .inr ⟨mem_cons_self, hg'⟩
        · have hg₁ : update s.group g (shared c d (s.group g)) g₁ = s.group g₁ :=
            update_of_ne he ..
          have h := hgroup' g₁
          simp only [hg₁] at h
          exact h.imp_right fun h => ⟨mem_cons_of_mem g h.1, h.2⟩
      · by_cases hv : s.parent v = g
        · rw [hgv v hv]
          exact hself v hv
        · rcases hvport' v with h | ⟨hm, h, hs⟩
          · exact .inl (h.trans (hvport v hv))
          · have hag := hagree _ hm
            have hmax : (update s.group g (shared c d (s.group g)) (s.parent v)) =
                s.group (s.parent v) := hag.1
            refine .inr ⟨mem_cons_of_mem g hm, ?_, fun hsp => ?_⟩
            · rw [h]
              simp only
              rw [hag.vportDivider, hvport v hv]
            · have hs' := hs ((SparesNodes.congr hagree).mpr
                ((sparesNodes_cons.mp hsp hgroup).2 hprog))
              simp only at hs'
              rwa [hmax, hvport v hv] at hs'
      · rcases mem_cons.mp hg₁ with rfl | hg₁
        · exact hprog
        · exact (hagree g₁ hg₁).programs.mp (h g₁ hg₁)
      · exact (hagree g₁ hg₁).programs.mpr (h g₁ (mem_cons_of_mem g hg₁))
      · rcases mem_cons.mp hg₁ with rfl | hg₁
        · exact ⟨hg', fun v hv => (hgv v (hpar v hv)).trans (hall hrun v hv)⟩
        · obtain ⟨h₁, h₂⟩ := hall' hrun' g₁ hg₁
          have hag := hagree g₁ hg₁
          refine ⟨h₁.trans (congrArg _ hag.1), fun v hv => (h₂ v hv).trans ?_⟩
          rw [hag.vportDivider]
          exact congrArg _ (hag.2.2 v hv)
    · rw [if_neg hrun]
      refine ⟨⟨rfl, rfl, rfl, rfl, rfl⟩, fun g₁ => ?_, fun v => ?_,
        iff_of_false Bool.false_ne_true fun h => ?_, fun h => Bool.noConfusion h⟩
      · by_cases he : g₁ = g
        · subst he
          exact .inr ⟨mem_cons_self, update_self ..⟩
        · exact .inl (update_of_ne he ..)
      · by_cases hv : s.parent v = g
        · exact hself v hv
        · exact .inl (hvport v hv)
      · exact hrun (hres.mpr (h g mem_cons_self).2)

end Trees

section Good
variable {c : Caps} {d d' limit : ℕ} {n n' : Node} {ok : Cmds} {s s' : St} {g v : ℕ}

/-- The groups and the lists of their vports. -/
structure Tree (s : St) : Prop where
  nodup : s.nodes.Nodup
  children : ∀ g ∈ s.nodes, (s.children g).Nodup ∧ ∀ v ∈ s.children g, s.parent v = g
  lt : ∀ g ∈ s.nodes, g < s.next

/-- The elements are programmed with what is stored; a vport without a maximum rate has that of its
    group. -/
structure Elems (s : St) : Prop where
  group : ∀ g ∈ s.nodes, (s.group g).elem = some ((s.group g).maxRate, (s.group g).bwShare)
  vport : ∀ g ∈ s.nodes, ∀ v ∈ s.children g,
    (s.vport v).elem = some (actMaxRate s v g, (s.vport v).bwShare)

/-- The shares follow from the minimum rates. -/
structure Shared (c : Caps) (s : St) : Prop where
  group : ∀ g ∈ s.nodes,
    (s.group g).bwShare = calcBwShare (s.group g).minRate (groupDivider c s) c.maxTsarBwShare
  vport : ∀ g ∈ s.nodes, ∀ v ∈ s.children g, (s.vport v).bwShare =
    calcBwShare (s.vport v).minRate (vportDivider c (groupDivider c s) s g) c.maxTsarBwShare

/-- INVARIANT: the elements and the shares are right, and no division by zero was made. -/
structure Good (c : Caps) (s : St) : Prop where
  tree : Tree s
  elems : Elems s
  shared : Shared c s
  guard : Guard c s
  trap : s.trap = false

/-- What is stored and what is programmed is the same. -/
structure Same (s s' : St) : Prop where
  nodes : s'.nodes = s.nodes
  parent : s'.parent = s.parent
  group : ∀ g ∈ s.nodes, Agree s s' g

theorem Same.refl (s : St) : Same s s := ⟨rfl, rfl, fun _ _ => ⟨rfl, rfl, fun _ _ => rfl⟩⟩

theorem Same.groupRates (h : Same s s') : groupRates s' = groupRates s := by
  unfold EswQos.groupRates
  rw [h.nodes]
  exact map_congr_left fun g hg => by rw [(h.group g hg).1]

theorem Good.same (h : Good c s) (hs : Same s s') (hnext : s.next ≤ s'.next) (hguard : Guard c s')
    (htrap : s'.trap = false) : Good c s' := by
  have hdiv : groupDivider c s' = groupDivider c s := by
    unfold groupDivider
    rw [hs.groupRates]
  refine ⟨⟨?_, fun g hg => ?_, fun g hg => ?_⟩, ⟨fun g hg => ?_, fun g hg v hv => ?_⟩,
    ⟨fun g hg => ?_, fun g hg v hv => ?_⟩, hguard, htrap⟩
  · rw [hs.nodes]
    exact h.tree.nodup
  all_goals
    rw [hs.nodes] at hg
    obtain ⟨hgroup, hchild, hvport⟩ := hs.group g hg
  · rw [hchild, hs.parent]
    exact h.tree.children g hg
  · exact Nat.lt_of_lt_of_le (h.tree.lt g hg) hnext
  · rw [hgroup]
    exact h.elems.group g hg
  · rw [hchild] at hv
    unfold actMaxRate
    rw [hvport v hv, hgroup]
    exact h.elems.vport g hg v hv
  · rw [hgroup, hdiv]
    exact h.shared.group g hg
  · rw [hchild] at hv
    rw [hvport v hv, hdiv, (hs.group g hg).vportDivider]
    exact h.shared.vport g hg v hv

/-- The element of a node whose share is programmed again keeps the limit, where it has one of its
    own or its parent has none. -/
theorem shared_limit (h : n.elem = some (if n.maxRate ≠ 0 then n.maxRate else limit, n.bwShare))
    (hkept : n.maxRate ≠ 0 ∨ limit = 0) : (shared c d n).elem =
      some (if n.maxRate ≠ 0 then n.maxRate else limit, (shared c d n).bwShare) := by
  by_cases hc : Changes c d n
  · rw [shared_elem hc, shared_bwShare]
    have hlimit : n.maxRate = if n.maxRate ≠ 0 then n.maxRate else limit := by
      split_ifs <;> omega
    rw [← hlimit]
  · rw [shared_of_not hc]
    exact h

/-- The divider of the vports of a group. -/
def nodeDivider (c : Caps) (s : St) (g : ℕ) : ℕ :=
  calculateMinRateDivider c.maxTsarBwShare (vportRates s g) (s.group g).bwShare

theorem Shared.divider (h : Shared c s) (hg : g ∈ s.nodes) :
    vportDivider c (groupDivider c s) s g = nodeDivider c s g := by
  unfold vportDivider nodeDivider
  rw [← h.group g hg]

theorem normalizeRoot_eq (h : Guard c s) : normalizeRoot c ok s =
    normalizeNodes c ok (groupDivider c s) s.nodes s := by
  unfold normalizeRoot
  rw [h.groups, Bool.or_false]
  rfl

/-- STEP: a normalisation of the root that works. -/
theorem normalizeRoot_good (htree : Tree s) (helems : Elems s) (hguard : Guard c s)
    (htrap : s.trap = false) (hspares : SparesNodes c ok (groupDivider c s) s s.nodes)
    (hr : (normalizeRoot c ok s).1 = true) : Good c (normalizeRoot c ok s).2 := by
  rw [normalizeRoot_eq hguard] at hr ⊢
  obtain ⟨⟨hn, hc, hp, hnext, ht⟩, hgroup, hvport, -, hall⟩ := normalizeNodes_spec c ok
    (groupDivider c s) s.nodes s htree.nodup htree.children hguard
  set r := normalizeNodes c ok (groupDivider c s) s.nodes s
  have hgmin : ∀ g, (r.2.group g).minRate = (s.group g).minRate := fun g => by
    rcases hgroup g with h | ⟨-, h⟩ <;> rw [h]
    exact shared_minRate
  have hvmin : ∀ v, (r.2.vport v).minRate = (s.vport v).minRate := fun v => by
    rcases hvport v with h | ⟨-, h, -⟩ <;> rw [h]
    exact shared_minRate
  have hdiv : groupDivider c r.2 = groupDivider c s := by
    unfold groupDivider groupRates
    rw [hn]
    simp only [hgmin]
  have hvdiv : ∀ g, vportDivider c (groupDivider c s) r.2 g =
      vportDivider c (groupDivider c s) s g := fun g => by
    unfold vportDivider vportRates
    rw [hc, hgmin]
    simp only [hvmin]
  refine ⟨⟨hn ▸ htree.nodup, ?_, ?_⟩, ⟨fun g hg => ?_, fun g hg v hv => ?_⟩,
    ⟨fun g hg => ?_, fun g hg v hv => ?_⟩, ⟨fun g hm => ?_, fun v hm => ?_⟩, ht.trans htrap⟩
  · rw [hn, hc, hp]
    exact htree.children
  · rw [hn, hnext]
    exact htree.lt
  · rw [hn] at hg
    have helem : (s.group g).elem = some (if (s.group g).maxRate ≠ 0 then (s.group g).maxRate else
        (s.group g).maxRate, (s.group g).bwShare) := by
      rw [ite_self]
      exact helems.group g hg
    have hlim := @shared_limit c (groupDivider c s) _ _ helem (ne_or_eq _ _)
    rw [ite_self] at hlim
    rw [(hall hr g hg).1, hlim, shared_maxRate]
  · rw [hn] at hg
    rw [hc] at hv
    have hpar := (htree.children g hg).2 v hv
    have hmax : (r.2.group g).maxRate = (s.group g).maxRate := by
      rw [(hall hr g hg).1, shared_maxRate]
    unfold actMaxRate
    rw [hmax]
    rcases hvport v with h | ⟨-, h, hkept⟩
    · rw [h]
      exact helems.vport g hg v hv
    · rw [h, shared_maxRate]
      refine shared_limit (helems.vport g hg v hv) ?_
      rw [← hpar]
      exact hkept hspares
  · rw [hn] at hg
    rw [hgmin, hdiv, (hall hr g hg).1, shared_bwShare]
  · rw [hn] at hg
    rw [hc] at hv
    rw [hvmin, hdiv, hvdiv, (hall hr g hg).2 v hv, shared_bwShare]
  · rw [hgmin] at hm
    exact hguard.group g hm
  · rw [hvmin] at hm
    exact hguard.vport v hm

end Good

section OneGroup
variable {c : Caps} {d limit : ℕ} {n : Node} {ok : ℕ → Bool} {s s' : St} {g v : ℕ} {X : ℕ → Prop}
  {l : List ℕ} {vport : ℕ → Node}

/-- All is right but the shares of the vports of some groups. -/
structure GoodBut (c : Caps) (X : ℕ → Prop) (s : St) : Prop where
  tree : Tree s
  elems : Elems s
  group : ∀ g ∈ s.nodes,
    (s.group g).bwShare = calcBwShare (s.group g).minRate (groupDivider c s) c.maxTsarBwShare
  vport : ∀ g ∈ s.nodes, ¬X g → ∀ v ∈ s.children g, (s.vport v).bwShare =
    calcBwShare (s.vport v).minRate (nodeDivider c s g) c.maxTsarBwShare
  guard : Guard c s
  trap : s.trap = false

theorem GoodBut.good (h : GoodBut c X s) (hX : ∀ g, ¬X g) : Good c s := by
  have hdiv : ∀ g ∈ s.nodes, vportDivider c (groupDivider c s) s g = nodeDivider c s g :=
    fun g hg => by
      unfold vportDivider nodeDivider
      rw [← h.group g hg]
  exact { h with shared := ⟨h.group, fun g hg v hv => (hdiv g hg).symm ▸ h.vport g hg (hX g) v hv⟩ }

theorem Good.vport_share (h : Good c s) (hg : g ∈ s.nodes) (hv : v ∈ s.children g) :
    (s.vport v).bwShare = calcBwShare (s.vport v).minRate (nodeDivider c s g) c.maxTsarBwShare := by
  rw [← h.shared.divider hg]
  exact h.shared.vport g hg v hv

/-- The commands that are needed for the vports of a group succeed, and those vports have a maximum
    rate of their own, or the group has none. -/
def Keeps (c : Caps) (ok : ℕ → Bool) (s : St) (g : ℕ) : Prop :=
  ∀ v ∈ s.children g, Changes c (nodeDivider c s g) (s.vport v) →
    ok v = true ∧ ((s.vport v).maxRate ≠ 0 ∨ (s.group g).maxRate = 0)

theorem normalizeMinRate_eq (h : Guard c s) : normalizeMinRate c ok s g =
    ((normalizeVports c ok (nodeDivider c s g) (s.children g) s.vport).1, { s with
      vport := (normalizeVports c ok (nodeDivider c s g) (s.children g) s.vport).2 }) := by
  unfold normalizeMinRate
  rw [h.vports g, Bool.or_false]
  rfl

/-- STEP: the normalisation of a group. -/
theorem GoodBut.normalize (h : GoodBut c X s) (hg : g ∈ s.nodes) (hk : Keeps c ok s g) :
    ∃ vport : ℕ → Node, normalizeMinRate c ok s g = (true, { s with vport := vport }) ∧
      GoodBut c (fun x => X x ∧ x ≠ g) { s with vport := vport } ∧
      ∀ v, s.parent v ≠ g → vport v = s.vport v := by
  obtain ⟨hnodup, hpar⟩ := h.tree.children g hg
  obtain ⟨hmid, hres, hall⟩ := normalizeVports_spec c ok (nodeDivider c s g) (s.group g).maxRate
    (s.children g) s.vport hnodup
  have htrue := hres.mpr fun v hv hc => (hk v hv hc).1
  have hall := hall htrue
  rw [normalizeMinRate_eq h.guard, htrue]
  set vport := (normalizeVports c ok (nodeDivider c s g) (s.children g) s.vport).2 with hvp
  have hother : ∀ v, s.parent v ≠ g → vport v = s.vport v := fun v hv => by
    rcases hmid v with he | ⟨hm, -⟩
    · exact he
    · exact absurd (hpar v hm) hv
  have hmin : ∀ v, (vport v).minRate = (s.vport v).minRate := fun v => by
    rcases hmid v with he | ⟨-, he, -⟩ <;> rw [he]
    exact shared_minRate
  have hdiv : ∀ x, nodeDivider c { s with vport := vport } x = nodeDivider c s x := fun x => by
    unfold nodeDivider vportRates
    simp only [hmin]
  refine ⟨vport, rfl, ⟨{ h.tree with },
    ⟨h.elems.group, fun x hx v hv => ?_⟩, h.group, fun x hx hX v hv => ?_,
    ⟨h.guard.group, fun v hm => h.guard.vport v ?_⟩, h.trap⟩, hother⟩
  · change (vport v).elem = some (if (vport v).maxRate ≠ 0 then (vport v).maxRate else
      (s.group x).maxRate, (vport v).bwShare)
    have hold := h.elems.vport x hx v hv
    by_cases he : x = g
    · subst he
      rw [hall v hv, shared_maxRate]
      by_cases hc : Changes c (nodeDivider c s x) (s.vport v)
      · exact shared_limit hold (hk v hv hc).2
      · rw [shared_of_not hc]
        exact hold
    · rw [hother v (by rw [(h.tree.children x hx).2 v hv]; exact he)]
      exact hold
  · change (vport v).bwShare = calcBwShare (vport v).minRate _ _
    rw [hdiv, hmin]
    by_cases he : x = g
    · subst he
      rw [hall v hv, shared_bwShare]
    · rw [hother v (by rw [(h.tree.children x hx).2 v hv]; exact he)]
      exact h.vport x hx (fun hx' => hX ⟨hx', he⟩) v hv
  · rw [← hmin v]
    exact hm

/-- The first command that is needed fails. -/
def FirstFails (c : Caps) (ok : ℕ → Bool) (d : ℕ) : List ℕ → (ℕ → Node) → Prop
  | [], _ => False
  | v :: l, vport =>
    if Changes c d (vport v) then ok v = false else FirstFails c ok d l vport

theorem firstFails_cons : FirstFails c ok d (v :: l) vport ↔
    if Changes c d (vport v) then ok v = false else FirstFails c ok d l vport := Iff.rfl

/-- Nothing is programmed then. -/
theorem FirstFails.normalize : FirstFails c ok d l vport →
    normalizeVports c ok d l vport = (false, vport) := by
  induction l with
  | nil => exact fun h => h.elim
  | cons v l ih =>
    rw [firstFails_cons, normalizeVports, updateSchedNodeBwShare_eq]
    by_cases hc : Changes c d (vport v)
    · rw [if_pos hc]
      intro hf
      rw [if_pos ⟨hc, hf⟩]
    · rw [if_neg hc, if_neg fun h => hc h.1, shared_of_not hc]
      simp only [update_eq_self]
      exact ih

/-- A vport with another minimum rate. -/
def withVportMin (s : St) (v minRate : ℕ) : St :=
  { s with vport := update s.vport v { s.vport v with minRate := minRate } }

/-- STEP: `esw_qos_set_vport_min_rate`. -/
theorem setVportMinRate_spec (h : Good c s) (hv : IsVport s v) {minRate : ℕ}
    (hm : Keeps c ok (withVportMin s v minRate) (s.parent v) ∨
      FirstFails c ok (nodeDivider c (withVportMin s v minRate) (s.parent v))
        (s.children (s.parent v)) (withVportMin s v minRate).vport) :
    Good c (setVportMinRate c ok s v minRate).2 ∧ ((setVportMinRate c ok s v minRate).1 = false →
        Same s (setVportMinRate c ok s v minRate).2) := by
  unfold setVportMinRate
  by_cases hsup : minRate ≠ 0 ∧ ¬(c.eswBwShare = true ∧ c.maxTsarBwShare ≥ MLX5_MIN_BW_SHARE)
  · rw [if_pos hsup]
    exact ⟨h, fun _ => Same.refl s⟩
  rw [if_neg hsup]
  split_ifs with hsame
  · exact ⟨h, fun _ => Same.refl s⟩
  simp only
  have hset : { s with vport := update s.vport v { s.vport v with minRate := minRate } } =
      withVportMin s v minRate := rfl
  rw [hset]
  have hself : (withVportMin s v minRate).vport v = { s.vport v with minRate := minRate } :=
    update_self ..
  have hother : ∀ u, u ≠ v → (withVportMin s v minRate).vport u = s.vport u := fun u hu =>
    update_of_ne hu ..
  have hguard : Guard c (withVportMin s v minRate) := by
    refine ⟨h.guard.group, fun u hu hz => ?_⟩
    by_cases he : u = v
    · subst he
      rw [hself] at hu
      refine hsup ⟨hu, fun hcap => ?_⟩
      have hle : MLX5_MIN_BW_SHARE ≤ c.maxTsarBwShare := hcap.2
      rw [hz] at hle
      exact absurd hle (by decide)
    · rw [hother u he] at hu
      exact h.guard.vport u hu hz
  rcases hm with hk | hf
  · have hbut : GoodBut c (fun x => x = s.parent v) (withVportMin s v minRate) := by
      refine ⟨{ h.tree with }, ⟨h.elems.group, fun g hg u hu => ?_⟩,
        h.shared.group, fun g hg hne u hu => ?_, hguard, h.trap⟩
      · have hold := h.elems.vport g hg u hu
        unfold actMaxRate at hold ⊢
        by_cases he : u = v
        · subst he
          rw [hself]
          exact hold
        · rw [hother u he]
          exact hold
      · have hun : ∀ w ∈ s.children g, (withVportMin s v minRate).vport w = s.vport w :=
          fun w hw => hother w fun he =>
            hne (by rw [← he]; exact ((h.tree.children g hg).2 w hw).symm)
        have hrates : vportRates (withVportMin s v minRate) g = vportRates s g :=
          map_congr_left fun w hw => by rw [hun w hw]
        have hdiv : nodeDivider c (withVportMin s v minRate) g = nodeDivider c s g := by
          unfold nodeDivider
          rw [hrates]
          rfl
        rw [hun u hu, hdiv]
        exact h.vport_share hg hu
    obtain ⟨vport, heq, hgood, -⟩ := hbut.normalize hv.1 hk
    rw [heq]
    exact ⟨hgood.good fun g hX => hX.2 hX.1, fun hr => Bool.noConfusion hr⟩
  · rw [normalizeMinRate_eq hguard]
    have hnone := hf.normalize
    have hchild : (withVportMin s v minRate).children = s.children := rfl
    rw [hchild, hnone]
    have hback : ({ withVportMin s v minRate with
        vport := update (withVportMin s v minRate).vport v
          { (withVportMin s v minRate).vport v with minRate := (s.vport v).minRate } } : St) =
        s := by
      rw [hself]
      unfold withVportMin
      simp only [update_idem, update_eq_self]
    change Good c { withVportMin s v minRate with
        vport := update (withVportMin s v minRate).vport v
          { (withVportMin s v minRate).vport v with minRate := (s.vport v).minRate } } ∧
      (_ → Same s { withVportMin s v minRate with
        vport := update (withVportMin s v minRate).vport v
          { (withVportMin s v minRate).vport v with minRate := (s.vport v).minRate } })
    rw [hback]
    exact ⟨h, fun _ => Same.refl s⟩

end OneGroup

section Limits
variable {c : Caps} {ok : ℕ → Bool} {s s' : St} {g v maxRate : ℕ} {l : List ℕ}

/-- STEP: only limits change. -/
theorem Good.limits (h : Good c s) (hs : s'.nodes = s.nodes ∧ s'.children = s.children ∧
      s'.parent = s.parent ∧ s'.next = s.next ∧ s'.trap = s.trap)
    (hgroup : ∀ g, (s'.group g).minRate = (s.group g).minRate ∧
      (s'.group g).bwShare = (s.group g).bwShare)
    (hvport : ∀ v, (s'.vport v).minRate = (s.vport v).minRate ∧
      (s'.vport v).bwShare = (s.vport v).bwShare) (helems : Elems s') : Good c s' := by
  obtain ⟨hn, hc, hp, hnext, ht⟩ := hs
  have hdiv : groupDivider c s' = groupDivider c s := by
    unfold groupDivider groupRates
    rw [hn]
    simp only [(hgroup _).1]
  have hvdiv : ∀ d g, vportDivider c d s' g = vportDivider c d s g := fun d g => by
    unfold vportDivider vportRates
    rw [hc]
    simp only [(hgroup _).1, (hvport _).1]
  refine ⟨⟨hn ▸ h.tree.nodup, ?_, ?_⟩, helems, ⟨fun g hg => ?_, fun g hg v hv => ?_⟩,
    ⟨fun g hm => ?_, fun v hm => ?_⟩, ht.trans h.trap⟩
  · rw [hn, hc, hp]
    exact h.tree.children
  · rw [hn, hnext]
    exact h.tree.lt
  · rw [hn] at hg
    rw [(hgroup g).1, (hgroup g).2, hdiv]
    exact h.shared.group g hg
  · rw [hn] at hg
    rw [hc] at hv
    rw [(hvport v).1, (hvport v).2, hdiv, hvdiv]
    exact h.shared.vport g hg v hv
  · rw [(hgroup g).1] at hm
    exact h.guard.group g hm
  · rw [(hvport v).1] at hm
    exact h.guard.vport v hm

/-- STEP: `esw_qos_set_vport_max_rate`. -/
theorem setVportMaxRate_spec (h : Good c s) (hv : IsVport s v) (b : Bool) :
    Good c (setVportMaxRate c b s v maxRate).2 ∧ ((setVportMaxRate c b s v maxRate).1 = false →
        Same s (setVportMaxRate c b s v maxRate).2) := by
  unfold setVportMaxRate
  by_cases hsup : maxRate ≠ 0 ∧ ¬c.eswRateLimit = true
  · rw [if_pos hsup]
    exact ⟨h, fun _ => Same.refl s⟩
  rw [if_neg hsup]
  by_cases hsame : maxRate = (s.vport v).maxRate
  · rw [if_pos hsame]
    exact ⟨h, fun _ => Same.refl s⟩
  rw [if_neg hsame]
  cases b with
  | false => exact ⟨h, fun _ => Same.refl s⟩
  | true =>
    refine ⟨h.limits ⟨rfl, rfl, rfl, rfl, rfl⟩ (fun _ => ⟨rfl, rfl⟩) (fun u => ?_)
      ⟨h.elems.group, fun g hg u hu => ?_⟩, fun hr => Bool.noConfusion hr⟩
    · by_cases he : u = v
      · subst he
        simp [schedElemConfig]
      · simp [he]
    · by_cases he : u = v
      · subst he
        have hpar := (h.tree.children g hg).2 u hu
        by_cases hz : maxRate = 0 <;> simp [schedElemConfig, actMaxRate, hpar]
      · have hold := h.elems.vport g hg u hu
        simpa [actMaxRate, he] using hold

/-- RUN: the vports of a group with a new limit, when the commands for them succeed. -/
theorem limitVports_spec (ok : ℕ → Bool) (maxRate : ℕ) (l : List ℕ) : ∀ vport : ℕ → Node, l.Nodup →
    (∀ v ∈ l, (vport v).maxRate = 0 → ok v = true) →
    (limitVports ok maxRate l true vport).1 = true ∧
      ∀ v, (limitVports ok maxRate l true vport).2 v =
        if v ∈ l ∧ (vport v).maxRate = 0 then schedElemConfig (vport v) maxRate (vport v).bwShare
        else vport v := by
  induction l with
  | nil =>
    intro vport _ _
    exact ⟨rfl, fun v => by simp [limitVports]⟩
  | cons v l ih =>
    intro vport hn hok
    obtain ⟨hout, hl⟩ := nodup_cons.mp hn
    unfold limitVports
    by_cases hmax : (vport v).maxRate ≠ 0
    · rw [if_pos hmax]
      obtain ⟨hres, hall⟩ := ih vport hl fun u hu => hok u (mem_cons_of_mem v hu)
      refine ⟨hres, fun u => ?_⟩
      rw [hall u]
      by_cases he : u = v
      · subst he
        simp [hmax]
      · simp [he]
    · have hz := not_not.mp hmax
      rw [if_neg hmax, if_pos (hok v mem_cons_self hz)]
      have hother : ∀ u, u ≠ v → update vport v
          (schedElemConfig (vport v) maxRate (vport v).bwShare) u = vport u :=
        fun u hu => update_of_ne hu ..
      have hne : ∀ u ∈ l, u ≠ v := fun u hu he => hout (he ▸ hu)
      obtain ⟨hres, hall⟩ := ih (update vport v
        (schedElemConfig (vport v) maxRate (vport v).bwShare)) hl fun u hu => by
          rw [hother u (hne u hu)]
          exact hok u (mem_cons_of_mem v hu)
      refine ⟨hres, fun u => ?_⟩
      rw [hall u]
      by_cases he : u = v
      · subst he
        simp [hout, hz]
      · rw [hother u he]
        simp [he]

/-- STEP: `esw_qos_set_node_max_rate`. -/
theorem setNodeMaxRate_spec {ok : Cmds} (h : Good c s) (hg : g ∈ s.nodes)
    (hm : ok.group g = false ∨ ∀ v ∈ s.children g, (s.vport v).maxRate = 0 → ok.vport v = true) :
    Good c (setNodeMaxRate ok s g maxRate).2 ∧
      ((setNodeMaxRate ok s g maxRate).1 = false → Same s (setNodeMaxRate ok s g maxRate).2) := by
  unfold setNodeMaxRate
  by_cases hsame : (s.group g).maxRate = maxRate
  · rw [if_pos hsame]
    exact ⟨h, fun _ => Same.refl s⟩
  rw [if_neg hsame]
  cases hcmd : ok.group g with
  | false => exact ⟨h, fun _ => Same.refl s⟩
  | true =>
    have hok : ∀ v ∈ s.children g, (s.vport v).maxRate = 0 → ok.vport v = true :=
      hm.resolve_left (by rw [hcmd]; decide)
    obtain ⟨hres, hall⟩ := limitVports_spec ok.vport maxRate (s.children g) s.vport
      (h.tree.children g hg).1 hok
    simp only [if_true]
    refine ⟨h.limits ⟨rfl, rfl, rfl, rfl, rfl⟩ (fun x => ?_) (fun u => ?_)
      ⟨fun x hx => ?_, fun x hx u hu => ?_⟩, fun hr => ?_⟩
    · by_cases he : x = g
      · subst he
        simp [schedElemConfig]
      · simp [he]
    · simp only [hall u]
      split_ifs <;> simp [schedElemConfig]
    · by_cases he : x = g
      · subst he
        simp [schedElemConfig]
      · simpa [he] using h.elems.group x hx
    · have hold := h.elems.vport x hx u hu
      have hpar := (h.tree.children x hx).2 u hu
      unfold actMaxRate at hold ⊢
      simp only [hall u]
      by_cases he : x = g
      · subst he
        by_cases hz : (s.vport u).maxRate = 0
        · simp [hu, hz, schedElemConfig]
        · simpa [hz] using hold
      · have hnot : u ∉ s.children g := fun hmem =>
          he (hpar.symm.trans ((h.tree.children g hg).2 u hmem))
        simpa [hnot, he] using hold
    · rw [hres] at hr
      cases hr

end Limits

section Restores
variable {c : Caps} {d d' limit : ℕ} {n n' : Node} {s s' : St} {g v minRate : ℕ} {ok restore : Cmds}

/-- A group with another minimum rate. -/
def withGroupMin (s : St) (g minRate : ℕ) : St :=
  { s with group := update s.group g { s.group g with minRate := minRate } }

theorem withGroupMin_fields (x : ℕ) :
    ((withGroupMin s g minRate).group x).maxRate = (s.group x).maxRate ∧
      ((withGroupMin s g minRate).group x).bwShare = (s.group x).bwShare ∧
      ((withGroupMin s g minRate).group x).elem = (s.group x).elem ∧
      (x ≠ g → (withGroupMin s g minRate).group x = s.group x) ∧
      ((withGroupMin s g minRate).group g).minRate = minRate := by
  unfold withGroupMin
  by_cases he : x = g
  · subst he
    simp
  · simp [he]

theorem withGroupMin_elems (h : Elems s) : Elems (withGroupMin s g minRate) := by
  refine ⟨fun x hx => ?_, fun x hx u hu => ?_⟩
  · obtain ⟨hmax, hshare, helem, -⟩ := @withGroupMin_fields s g minRate x
    rw [hmax, hshare, helem]
    exact h.group x hx
  · have hold := h.vport x hx u hu
    unfold actMaxRate at hold ⊢
    rw [(withGroupMin_fields x).1]
    exact hold

/-- A node that was programmed with another share is as before when its minimum rate is. -/
theorem shared_back (hshare : n.bwShare = calcBwShare n.minRate d c.maxTsarBwShare)
    (helem : n.elem = some (if n.maxRate ≠ 0 then n.maxRate else limit, n.bwShare))
    (h : n' = n ∨ (n.maxRate ≠ 0 ∨ limit = 0) ∧ n'.maxRate = n.maxRate ∧ n'.minRate = n.minRate ∧
      n'.elem = some (n.maxRate, n'.bwShare)) : shared c d n' = n := by
  rcases h with rfl | ⟨hkept, hmax, hmin, helem'⟩
  · exact shared_of_not (not_not.mpr hshare.symm)
  · have hlimit : (if n.maxRate ≠ 0 then n.maxRate else limit) = n.maxRate := by
      split_ifs <;> omega
    have hcalc : calcBwShare n'.minRate d c.maxTsarBwShare = n.bwShare := by rw [hmin, hshare]
    ext1
    · rw [shared_maxRate, hmax]
    · rw [shared_minRate, hmin]
    · rw [shared_bwShare, hcalc]
    · by_cases hc : Changes c d n'
      · rw [shared_elem hc, hmax, hcalc, helem, hlimit]
      · have hsame : n'.bwShare = n.bwShare := (not_not.mp hc).symm.trans hcalc
        rw [shared_of_not hc, helem', hsame, helem, hlimit]

/-- STEP: a normalisation of the root with an old minimum rate, after one with a new rate that has
    failed, leaves all as it was. -/
theorem normalizeRoot_back (h : Good c s) (hcap : c.maxTsarBwShare ≠ 0)
    (hs : SparesNodes c ok (groupDivider c (withGroupMin s g minRate)) (withGroupMin s g minRate)
      s.nodes)
    (hrestore : ∀ x, restore.group x = true ∧ restore.vport x = true) :
    Good c (normalizeRoot c restore (withGroupMin
        (normalizeRoot c ok (withGroupMin s g minRate)).2 g (s.group g).minRate)).2 ∧
      Same s (normalizeRoot c restore (withGroupMin
        (normalizeRoot c ok (withGroupMin s g minRate)).2 g (s.group g).minRate)).2 := by
  have hguard : ∀ {s : St}, Guard c s := ⟨fun _ _ => hcap, fun _ _ => hcap⟩
  have hset := fun x => @withGroupMin_fields s g minRate x
  rw [@normalizeRoot_eq c ok _ hguard]
  obtain ⟨⟨hn, hc, hp, hnext, ht⟩, hgroup, hvport, -, -⟩ := normalizeNodes_spec c ok
    (groupDivider c (withGroupMin s g minRate)) s.nodes (withGroupMin s g minRate) h.tree.nodup
    h.tree.children hguard
  have hnodes : (withGroupMin s g minRate).nodes = s.nodes := rfl
  rw [hnodes]
  set m := (normalizeNodes c ok (groupDivider c (withGroupMin s g minRate)) s.nodes
    (withGroupMin s g minRate)).2
  have hback := fun x => @withGroupMin_fields m g (s.group g).minRate x
  have hn' : (withGroupMin m g (s.group g).minRate).nodes = s.nodes := hn
  have hc' : (withGroupMin m g (s.group g).minRate).children = s.children := hc
  have hp' : (withGroupMin m g (s.group g).minRate).parent = s.parent := hp
  -- the minimum rates are those from before
  have hgmin : ∀ x, ((withGroupMin m g (s.group g).minRate).group x).minRate =
      (s.group x).minRate := fun x => by
    by_cases he : x = g
    · rw [he]
      exact (hback x).2.2.2.2
    · rw [(hback x).2.2.2.1 he]
      rcases hgroup x with hx | ⟨-, hx⟩
      · rw [hx, (hset x).2.2.2.1 he]
      · rw [hx, shared_minRate, (hset x).2.2.2.1 he]
  have hvmin : ∀ v, (m.vport v).minRate = (s.vport v).minRate := fun v => by
    rcases hvport v with hv | ⟨-, hv, -⟩ <;> rw [hv]
    · rfl
    · exact shared_minRate
  have hdiv : groupDivider c (withGroupMin m g (s.group g).minRate) = groupDivider c s := by
    unfold groupDivider groupRates
    rw [hn']
    simp only [hgmin]
  have hvdiv : ∀ d x, vportDivider c d (withGroupMin m g (s.group g).minRate) x =
      vportDivider c d s x := fun d x => by
    have hrates : vportRates (withGroupMin m g (s.group g).minRate) x = vportRates s x := by
      unfold vportRates
      rw [hc']
      exact map_congr_left fun v _ => hvmin v
    unfold vportDivider
    rw [hrates, hgmin]
  rw [@normalizeRoot_eq c restore _ hguard, hdiv, hn']
  obtain ⟨⟨hn₂, hc₂, hp₂, hnext₂, ht₂⟩, hgroup₂, hvport₂, hres₂, hall₂⟩ := normalizeNodes_spec c
    restore (groupDivider c s) s.nodes (withGroupMin m g (s.group g).minRate) h.tree.nodup
    (by rw [hc', hp']; exact h.tree.children) hguard
  have hall := hall₂ (hres₂.mpr fun x _ => ⟨fun _ => (hrestore x).1, fun v _ _ => (hrestore v).2⟩)
  set r := (normalizeNodes c restore (groupDivider c s) s.nodes
    (withGroupMin m g (s.group g).minRate)).2
  have hsame : Same s r := by
    refine ⟨hn₂.trans hn', hp₂.trans hp', fun x hx => ⟨?_, by rw [hc₂, hc'], fun v hv => ?_⟩⟩
    · rw [(hall x hx).1]
      have helem := h.elems.group x hx
      refine @shared_back c (groupDivider c s) (s.group x).maxRate _ _ (h.shared.group x hx)
        (by rw [ite_self]; exact helem) ?_
      rcases hgroup x with hx' | ⟨-, hx'⟩
      · refine .inl (Node.ext ?_ (hgmin x) ?_ ?_)
        · rw [(hback x).1, hx', (hset x).1]
        · rw [(hback x).2.1, hx', (hset x).2.1]
        · rw [(hback x).2.2.1, hx', (hset x).2.2.1]
      · refine .inr ⟨ne_or_eq _ _, ?_, hgmin x, ?_⟩
        · rw [(hback x).1, hx', shared_maxRate, (hset x).1]
        · rw [(hback x).2.2.1, (hback x).2.1, hx']
          have helem₁ : Elems (withGroupMin s g minRate) := withGroupMin_elems h.elems
          have hlim := @shared_limit c (groupDivider c (withGroupMin s g minRate))
            ((withGroupMin s g minRate).group x).maxRate ((withGroupMin s g minRate).group x)
            (by rw [ite_self]; exact helem₁.group x hx) (ne_or_eq _ _)
          rw [ite_self] at hlim
          rw [hlim, (hset x).1]
    · have hpar := (h.tree.children x hx).2 v hv
      rw [(hall x hx).2 v (by rw [hc']; exact hv), hvdiv]
      refine shared_back (h.shared.vport x hx v hv) (h.elems.vport x hx v hv) ?_
      rcases hvport v with hv' | ⟨-, hv', hkept⟩
      · exact .inl hv'
      · have hkept' := hkept hs
        have hpar' : (withGroupMin s g minRate).parent v = x := hpar
        rw [hpar', (hset x).1] at hkept'
        by_cases hch : Changes c (vportDivider c (groupDivider c (withGroupMin s g minRate))
            (withGroupMin s g minRate) x) (s.vport v)
        · have hm : m.vport v = shared c (vportDivider c
              (groupDivider c (withGroupMin s g minRate)) (withGroupMin s g minRate) x)
              (s.vport v) := by
            rw [hv', hpar']
            rfl
          refine .inr ⟨hkept', ?_, hvmin v, ?_⟩
          · change (m.vport v).maxRate = _
            rw [hm, shared_maxRate]
          · change (m.vport v).elem = some (_, (m.vport v).bwShare)
            rw [hm, shared_elem hch, shared_bwShare]
        · refine .inl ?_
          change m.vport v = s.vport v
          rw [hv', hpar']
          exact shared_of_not hch
  refine ⟨h.same hsame ?_ hguard (ht₂.trans (ht.trans h.trap)), hsame⟩
  exact Nat.le_of_eq (hnext₂.trans hnext).symm

/-- STEP: `esw_qos_set_node_min_rate`. -/
theorem setNodeMinRate_spec (h : Good c s)
    (hs : SparesNodes c ok (groupDivider c (withGroupMin s g minRate)) (withGroupMin s g minRate)
      s.nodes)
    (hrestore : ∀ x, restore.group x = true ∧ restore.vport x = true) :
    Good c (setNodeMinRate c ok restore s g minRate).2 ∧
      ((setNodeMinRate c ok restore s g minRate).1 = false →
        Same s (setNodeMinRate c ok restore s g minRate).2) := by
  unfold setNodeMinRate
  by_cases hsup : ¬c.eswBwShare = true ∨ c.maxTsarBwShare < MLX5_MIN_BW_SHARE
  · rw [if_pos hsup]
    exact ⟨h, fun _ => Same.refl s⟩
  rw [if_neg hsup]
  split_ifs with hsame
  · exact ⟨h, fun _ => Same.refl s⟩
  have hcap : c.maxTsarBwShare ≠ 0 := fun hz => hsup (.inr (by rw [hz]; decide))
  have hset : { s with group := update s.group g { s.group g with minRate := minRate } } =
      withGroupMin s g minRate := rfl
  simp only [hset]
  by_cases hr : (normalizeRoot c ok (withGroupMin s g minRate)).1 = true
  · rw [if_pos hr]
    exact ⟨normalizeRoot_good { h.tree with }
      (withGroupMin_elems h.elems) ⟨fun _ _ => hcap, fun _ _ => hcap⟩ h.trap hs hr,
      fun hf => Bool.noConfusion hf⟩
  · rw [if_neg hr]
    obtain ⟨hgood, hback⟩ := normalizeRoot_back h hcap hs hrestore
    exact ⟨hgood, fun _ => hback⟩

end Restores

section Moving
variable {c : Caps} {ok : ℕ → Bool} {s s' : St} {g v new : ℕ} {destroyed created restored : Bool}

/-- STEP: a group that is new, and what the normalisation does then. -/
theorem createVportsSchedNode_spec (h : Good c s) (allocated : Bool) (ok : Cmds) :
    Good c (createVportsSchedNode c created allocated ok s).2 ∧
      ((createVportsSchedNode c created allocated ok s).1 = false →
        Same s (createVportsSchedNode c created allocated ok s).2) := by
  unfold createVportsSchedNode
  by_cases hfail : ¬(created = true ∧ allocated = true)
  · rw [if_pos hfail]
    exact ⟨h, fun _ => Same.refl s⟩
  rw [if_neg hfail]
  have hout : s.next ∉ s.nodes := fun hm => absurd (h.tree.lt _ hm) (Nat.lt_irrefl _)
  have hne : ∀ g ∈ s.nodes, g ≠ s.next := fun g hg he => hout (he ▸ hg)
  set s₁ : St := { s with
    nodes := s.nodes ++ [s.next]
    group := update s.group s.next ⟨0, 0, 0, some (0, 0)⟩
    children := update s.children s.next []
    next := s.next + 1 } with hs₁
  have hself : s₁.group s.next = ⟨0, 0, 0, some (0, 0)⟩ := update_self ..
  have hnone : s₁.children s.next = [] := update_self ..
  have hgroup : ∀ g ∈ s.nodes, s₁.group g = s.group g := fun g hg =>
    update_of_ne (hne g hg) ..
  have hchild : ∀ g ∈ s.nodes, s₁.children g = s.children g := fun g hg =>
    update_of_ne (hne g hg) ..
  have hcase : ∀ g ∈ s₁.nodes, g ∈ s.nodes ∨ g = s.next := fun g hg => by
    simpa [hs₁] using hg
  have htree : Tree s₁ := by
    refine ⟨?_, fun g hg => ?_, fun g hg => ?_⟩
    · change (s.nodes ++ [s.next]).Nodup
      refine List.nodup_append.mpr ⟨h.tree.nodup, List.nodup_singleton _, fun a ha b hb => ?_⟩
      rw [mem_singleton.mp hb]
      exact hne a ha
    · rcases hcase g hg with hg | rfl
      · rw [hchild g hg]
        exact h.tree.children g hg
      · rw [hnone]
        exact ⟨List.nodup_nil, fun v hv => absurd hv not_mem_nil⟩
    · rcases hcase g hg with hg | rfl
      · exact Nat.lt_succ_of_lt (h.tree.lt g hg)
      · exact Nat.lt_succ_self _
  have helems : Elems s₁ := by
    refine ⟨fun g hg => ?_, fun g hg v hv => ?_⟩
    · rcases hcase g hg with hg | rfl
      · rw [hgroup g hg]
        exact h.elems.group g hg
      · rw [hself]
    · rcases hcase g hg with hg | rfl
      · rw [hchild g hg] at hv
        have hold := h.elems.vport g hg v hv
        unfold actMaxRate at hold ⊢
        rw [hgroup g hg]
        exact hold
      · rw [hnone] at hv
        cases hv
  have hguard : Guard c s₁ := by
    refine ⟨fun g hg => ?_, h.guard.vport⟩
    by_cases he : g = s.next
    · rw [he, hself] at hg
      exact absurd rfl hg
    · have hg' : (update s.group s.next ⟨0, 0, 0, some (0, 0)⟩ g).minRate ≠ 0 := hg
      rw [update_of_ne he] at hg'
      exact h.guard.group g hg'
  -- a group without a guarantee changes no divider
  have hdiv : groupDivider c s₁ = groupDivider c s := by
    have hrates : groupRates s₁ = groupRates s ++ [0] := by
      unfold groupRates
      rw [List.map_append, List.map_singleton, hself]
      exact congrArg (· ++ [0]) (map_congr_left fun g hg => by rw [hgroup g hg])
    unfold groupDivider calculateMinRateDivider
    rw [hrates]
    unfold maxGuarantee
    rw [List.foldl_append]
    rfl
  have hvdiv : ∀ g ∈ s.nodes, vportDivider c (groupDivider c s) s₁ g =
      vportDivider c (groupDivider c s) s g := fun g hg => by
    unfold vportDivider vportRates
    rw [hchild g hg, hgroup g hg]
  have hstay : ∀ g ∈ s.nodes, ¬Changes c (groupDivider c s) (s.group g) := fun g hg =>
    not_not.mpr (h.shared.group g hg).symm
  have hvstay : ∀ g ∈ s.nodes, ∀ v ∈ s.children g,
      ¬Changes c (vportDivider c (groupDivider c s) s₁ g) (s.vport v) := fun g hg v hv => by
    rw [hvdiv g hg]
    exact not_not.mpr (h.shared.vport g hg v hv).symm
  obtain ⟨⟨hn, hc, hp, hnext, ht⟩, hgr, hvp, -, -⟩ := normalizeNodes_spec c ok (groupDivider c s₁)
    s₁.nodes s₁ htree.nodup htree.children hguard
  have hspares : SparesNodes c ok (groupDivider c s₁) s₁ s₁.nodes := by
    have hall : ∀ l, (∀ g ∈ l, g ∈ s₁.nodes) → SparesNodes c ok (groupDivider c s₁) s₁ l := by
      intro l
      induction l with
      | nil => exact fun _ => trivial
      | cons g l ih =>
        intro hl
        refine sparesNodes_cons.mpr fun _ => ⟨?_, fun _ =>
          ih fun x hx => hl x (mem_cons_of_mem g hx)⟩
        rcases hcase g (hl g mem_cons_self) with hg | rfl
        · rw [hdiv, hchild g hg]
          exact sparesVports_of_not (hvstay g hg)
        · rw [hnone]
          trivial
    exact hall s₁.nodes fun _ hg => hg
  by_cases hr : (normalizeRoot c ok s₁).1 = true
  · rw [if_pos hr]
    exact ⟨normalizeRoot_good htree helems hguard h.trap hspares hr, fun hf => Bool.noConfusion hf⟩
  · rw [if_neg hr]
    rw [normalizeRoot_eq hguard]
    set m := (normalizeNodes c ok (groupDivider c s₁) s₁.nodes s₁).2
    have hgm : ∀ g ∈ s.nodes, m.group g = s.group g := fun g hg => by
      rcases hgr g with he | ⟨-, he⟩
      · rw [he, hgroup g hg]
      · rw [he, hgroup g hg, hdiv, shared_of_not (hstay g hg)]
    have hvm : ∀ g ∈ s.nodes, ∀ v ∈ s.children g, m.vport v = s.vport v := fun g hg v hv => by
      rcases hvp v with he | ⟨-, he, -⟩
      · exact he
      · have hpar : s₁.parent v = g := (h.tree.children g hg).2 v hv
        rw [he, hpar, hdiv]
        exact shared_of_not (hvstay g hg v hv)
    have hsame : Same s { m with nodes := m.nodes.erase s.next } := by
      refine ⟨?_, hp, fun g hg => ⟨hgm g hg, ?_, hvm g hg⟩⟩
      · change m.nodes.erase s.next = s.nodes
        rw [hn]
        rw [List.erase_append_right _ hout]
        simp
      · change m.children g = s.children g
        rw [hc, hchild g hg]
    refine ⟨h.same hsame ?_ ⟨fun g hg => ?_, fun v hv => ?_⟩ (ht.trans h.trap), fun _ => hsame⟩
    · change s.next ≤ m.next
      rw [hnext]
      exact Nat.le_succ _
    · have hg' : (m.group g).minRate ≠ 0 := hg
      rcases hgr g with he | ⟨-, he⟩
      · rw [he] at hg'
        exact hguard.group g hg'
      · rw [he, shared_minRate] at hg'
        exact hguard.group g hg'
    · have hv' : (m.vport v).minRate ≠ 0 := hv
      rcases hvp v with he | ⟨-, he, -⟩
      · rw [he] at hv'
        exact hguard.vport v hv'
      · rw [he, shared_minRate] at hv'
        exact hguard.vport v hv'

/-- A tree without one of the groups. -/
def withoutGroup (s : St) (g : ℕ) : St := { s with nodes := s.nodes.erase g }

/-- STEP: `__esw_qos_destroy_node`. -/
theorem destroyNode_spec {ok : Cmds} (h : Good c s)
    (hs : SparesNodes c ok (groupDivider c (withoutGroup s g)) (withoutGroup s g)
      (withoutGroup s g).nodes)
    (hok : ∀ x ∈ (withoutGroup s g).nodes,
      Programs c ok (groupDivider c (withoutGroup s g)) (withoutGroup s g) x) :
    Good c (destroyNode c ok s g).2 ∧ (destroyNode c ok s g).1 = true := by
  have hmem : ∀ x ∈ (withoutGroup s g).nodes, x ∈ s.nodes := fun x hx => List.mem_of_mem_erase hx
  have htree : Tree (withoutGroup s g) := ⟨h.tree.nodup.erase g,
    fun x hx => h.tree.children x (hmem x hx), fun x hx => h.tree.lt x (hmem x hx)⟩
  have helems : Elems (withoutGroup s g) :=
    ⟨fun x hx => h.elems.group x (hmem x hx), fun x hx => h.elems.vport x (hmem x hx)⟩
  have hguard : Guard c (withoutGroup s g) := ⟨h.guard.group, h.guard.vport⟩
  have hres := (normalizeNodes_spec c ok (groupDivider c (withoutGroup s g))
    (withoutGroup s g).nodes (withoutGroup s g) htree.nodup htree.children hguard).res.mpr hok
  rw [← normalizeRoot_eq hguard] at hres
  exact ⟨normalizeRoot_good htree helems hguard h.trap hs hres, hres⟩

end Moving

section Parents
variable {c : Caps} {ok : ℕ → Bool} {s s' : St} {g v new : ℕ} {destroyed created restored : Bool}

/-- A vport with another element. -/
def withElem (s : St) (v : ℕ) (elem : Option (ℕ × ℕ)) : St :=
  { s with vport := update s.vport v { s.vport v with elem := elem } }

/-- A vport with its new element, in its new group. -/
def movedVport (s : St) (v new : ℕ) : St :=
  nodeSetParent (withElem s v (some (actMaxRate s v new, (s.vport v).bwShare))) v new

theorem withElem_fields {elem : Option (ℕ × ℕ)} (u : ℕ) :
    ((withElem s v elem).vport u).maxRate = (s.vport u).maxRate ∧
      ((withElem s v elem).vport u).minRate = (s.vport u).minRate ∧
      ((withElem s v elem).vport u).bwShare = (s.vport u).bwShare ∧
      (u ≠ v → (withElem s v elem).vport u = s.vport u) ∧
      ((withElem s v elem).vport v).elem = elem := by
  unfold withElem
  by_cases he : u = v
  · subst he
    simp
  · simp [he]

/-- The lists of vports after a move. -/
theorem movedVport_children (hne : s.parent v ≠ new) (g : ℕ) : (movedVport s v new).children g =
    if g = new then s.children new ++ [v]
    else if g = s.parent v then (s.children (s.parent v)).erase v
    else s.children g := by
  unfold movedVport nodeSetParent withElem
  by_cases hg : g = new
  · subst hg
    simp [Ne.symm hne]
  · by_cases hp : g = s.parent v
    · subst hp
      simp [hg]
    · simp [hg, hp]

theorem mem_movedVport (h : Tree s) (hne : s.parent v ≠ new) (hg : g ∈ s.nodes) {u : ℕ} :
    u ∈ (movedVport s v new).children g ↔ u ≠ v ∧ u ∈ s.children g ∨ u = v ∧ g = new := by
  have hpar := (h.children g hg).2
  rw [movedVport_children hne]
  by_cases hn : g = new
  · subst hn
    rw [if_pos rfl, List.mem_append, mem_singleton]
    constructor
    · rintro (hu | rfl)
      · refine .inl ⟨fun he => hne ?_, hu⟩
        rw [← he]
        exact hpar u hu
      · exact .inr ⟨rfl, rfl⟩
    · rintro (⟨-, hu⟩ | ⟨rfl, -⟩)
      · exact .inl hu
      · exact .inr rfl
  · rw [if_neg hn]
    by_cases hp : g = s.parent v
    · subst hp
      rw [if_pos rfl, (h.children _ hg).1.mem_erase_iff]
      simp [hn]
    · rw [if_neg hp]
      constructor
      · intro hu
        refine .inl ⟨fun he => hp ?_, hu⟩
        rw [← he]
        exact (hpar u hu).symm
      · rintro (⟨-, hu⟩ | ⟨-, he⟩)
        · exact hu
        · exact absurd he hn

theorem movedVport_tree (h : Tree s) (hv : IsVport s v) (hnew : new ∈ s.nodes)
    (hne : s.parent v ≠ new) : Tree (movedVport s v new) := by
  refine ⟨h.nodup, fun g hg => ⟨?_, fun u hu => ?_⟩, h.lt⟩
  · rw [movedVport_children hne]
    split_ifs
    · refine List.nodup_append.mpr ⟨(h.children new hnew).1, List.nodup_singleton v,
        fun a ha b hb he => hne ?_⟩
      rw [← mem_singleton.mp hb, ← he]
      exact (h.children new hnew).2 a ha
    · exact (h.children _ hv.1).1.erase v
    · exact (h.children g hg).1
  · change update s.parent v new u = g
    rcases (mem_movedVport h hne hg).mp hu with ⟨huv, hu⟩ | ⟨rfl, rfl⟩
    · rw [update_of_ne huv]
      exact (h.children g hg).2 u hu
    · exact update_self ..

/-- STEP: a vport is moved; the shares in its old and its new group are still to be normalised. -/
theorem movedVport_goodBut (h : Good c s) (hv : IsVport s v) (hnew : new ∈ s.nodes)
    (hne : s.parent v ≠ new) :
    GoodBut c (fun g => g = s.parent v ∨ g = new) (movedVport s v new) := by
  have hset := fun u => @withElem_fields s v (some (actMaxRate s v new, (s.vport v).bwShare)) u
  refine ⟨movedVport_tree h.tree hv hnew hne, ⟨h.elems.group, fun g hg u hu => ?_⟩,
    h.shared.group, fun g hg hX u hu => ?_, ⟨h.guard.group, fun u hm => ?_⟩, h.trap⟩
  · change ((withElem s v _).vport u).elem = some (if ((withElem s v _).vport u).maxRate ≠ 0 then
      ((withElem s v _).vport u).maxRate else (s.group g).maxRate,
      ((withElem s v _).vport u).bwShare)
    rw [(hset u).1, (hset u).2.2.1]
    rcases (mem_movedVport h.tree hne hg).mp hu with ⟨huv, hu⟩ | ⟨rfl, rfl⟩
    · rw [(hset u).2.2.2.1 huv]
      exact h.elems.vport g hg u hu
    · rw [(hset u).2.2.2.2]
      rfl
  · obtain ⟨hold, hnot⟩ := not_or.mp hX
    have hchild : (movedVport s v new).children g = s.children g := by
      rw [movedVport_children hne, if_neg hnot, if_neg hold]
    have hdiv : nodeDivider c (movedVport s v new) g = nodeDivider c s g := by
      unfold nodeDivider vportRates
      rw [hchild]
      congr 1
      exact map_congr_left fun w _ => (hset w).2.1
    rw [hchild] at hu
    rw [hdiv]
    change ((withElem s v _).vport u).bwShare = calcBwShare ((withElem s v _).vport u).minRate _ _
    rw [(hset u).2.1, (hset u).2.2.1]
    exact h.vport_share hg hu
  · have hm' : ((withElem s v (some (actMaxRate s v new, (s.vport v).bwShare))).vport u).minRate ≠ 0
      := hm
    rw [(hset u).2.1] at hm'
    exact h.guard.vport u hm'

/-- A vport without a share has no guarantee, nor has one of its group. -/
theorem Good.no_guarantee (h : Good c s) (hg : g ∈ s.nodes) (hv : v ∈ s.children g)
    (hz : (s.vport v).bwShare = 0) :
    (s.group g).bwShare = 0 ∧ ∀ u ∈ s.children g, (s.vport u).minRate = 0 := by
  have hdiv : nodeDivider c s g = 0 := by
    by_contra hne
    have hcap : 0 < c.maxTsarBwShare := by
      rcases calculateMinRateDivider_ne_zero.mp hne with ⟨r, hr, hrne⟩ | hshare
      · obtain ⟨u, -, rfl⟩ := mem_map.mp hr
        exact Nat.pos_of_ne_zero (h.guard.vport u hrne)
      · have hle := (@calcBwShare_bounds c.maxTsarBwShare (s.group g).minRate
          (groupDivider c s)).2.2
        rw [← h.shared.group g hg] at hle
        omega
    have hge := (@calcBwShare_bounds c.maxTsarBwShare (s.vport v).minRate (nodeDivider c s g)).2.1
      hne hcap
    rw [← h.vport_share hg hv, hz] at hge
    exact absurd hge (by decide)
  have hnone := not_or.mp (fun hor => calculateMinRateDivider_ne_zero.mpr hor hdiv)
  refine ⟨not_not.mp hnone.2, fun u hu => ?_⟩
  by_contra hne
  exact hnone.1 ⟨_, mem_map.mpr ⟨u, hu, rfl⟩, hne⟩

end Parents

section Updates
variable {c : Caps} {ok : ℕ → Bool} {s : St} {g v new vports : ℕ}
  {destroyed created restored : Bool}

theorem nodeDivider_zero (h : ∀ u ∈ s.children g, (s.vport u).minRate = 0)
    (hz : (s.group g).bwShare = 0) : nodeDivider c s g = 0 := by
  by_contra hne
  rcases calculateMinRateDivider_ne_zero.mp hne with ⟨r, hr, hrne⟩ | hshare
  · obtain ⟨u, hu, rfl⟩ := mem_map.mp hr
    exact hrne (h u hu)
  · exact hshare hz

/-- What a move does right: its commands and those of the two normalisations succeed, no limit is
    lost by them, and where the vport and its new group have no share, no vport of that group has a
    guarantee. -/
def Moves (c : Caps) (ok : ℕ → Bool) (s : St) (v new : ℕ) : Prop :=
  if (s.vport v).bwShare ≠ 0 ∨ (s.group new).bwShare ≠ 0 then
    Keeps c ok (movedVport s v new) (s.parent v) ∧ Keeps c ok (movedVport s v new) new
  else ∀ u ∈ s.children new, (s.vport u).minRate = 0

/-- STEP: `esw_qos_vport_update_node`. -/
theorem vportUpdateNode_spec (h : Good c s) (hv : IsVport s v) (hnew : new ∈ s.nodes)
    (hrestore : destroyed = true → created = false → restored = true)
    (hm : destroyed = true → created = true → s.parent v ≠ new → Moves c ok s v new) :
    Good c (vportUpdateNode c destroyed created restored ok s v new).2 ∧
      ((vportUpdateNode c destroyed created restored ok s v new).1 = false →
        Same s (vportUpdateNode c destroyed created restored ok s v new).2) := by
  unfold vportUpdateNode
  by_cases hsame : s.parent v = new
  · simp only [if_pos hsame]
    exact ⟨h, fun _ => Same.refl s⟩
  simp only [if_neg hsame]
  cases hd : destroyed with
  | false => exact ⟨h, fun _ => Same.refl s⟩
  | true =>
    cases hc : created with
    | false =>
      rw [hrestore hd hc]
      have hold := h.elems.vport _ hv.1 v hv.2
      have hback : withElem s v (some (actMaxRate s v (s.parent v), (s.vport v).bwShare)) = s := by
        unfold withElem
        rw [← hold, update_eq_self]
      change Good c (withElem s v _) ∧ (_ → Same s (withElem s v _))
      rw [hback]
      exact ⟨h, fun _ => Same.refl s⟩
    | true =>
      have hmoves := hm hd hc hsame
      have hbut := movedVport_goodBut h hv hnew hsame
      have hset := fun u => @withElem_fields s v (some (actMaxRate s v new, (s.vport v).bwShare)) u
      change Good c (if ((movedVport s v new).vport v).bwShare ≠ 0 ∨ (s.group new).bwShare ≠ 0 then
        (true, (normalizeMinRate c ok
          (normalizeMinRate c ok (movedVport s v new) (s.parent v)).2 new).2)
        else (true, movedVport s v new)).2 ∧ ((if ((movedVport s v new).vport v).bwShare ≠ 0 ∨
          (s.group new).bwShare ≠ 0 then (true, (normalizeMinRate c ok
            (normalizeMinRate c ok (movedVport s v new) (s.parent v)).2 new).2)
          else (true, movedVport s v new)).1 = false → _)
      have hshare : ((movedVport s v new).vport v).bwShare = (s.vport v).bwShare := (hset v).2.2.1
      rw [hshare]
      unfold Moves at hmoves
      by_cases hnorm : (s.vport v).bwShare ≠ 0 ∨ (s.group new).bwShare ≠ 0
      · rw [if_pos hnorm] at hmoves ⊢
        obtain ⟨vport, heq, hbut', hother⟩ := hbut.normalize hv.1 hmoves.1
        -- the first normalisation leaves the vports of the new group as they are
        have hpar : ∀ u ∈ (movedVport s v new).children new, (movedVport s v new).parent u = new :=
          (movedVport_tree h.tree hv hnew hsame).children new hnew |>.2
        have hun : ∀ u ∈ (movedVport s v new).children new,
            vport u = (movedVport s v new).vport u := fun u hu =>
          hother u (by rw [hpar u hu]; exact Ne.symm hsame)
        have hkeeps : Keeps c ok { movedVport s v new with vport := vport } new := by
          have hdiv : nodeDivider c { movedVport s v new with vport := vport } new =
              nodeDivider c (movedVport s v new) new := by
            unfold nodeDivider vportRates
            congr 1
            exact map_congr_left fun u hu => congrArg Node.minRate (hun u hu)
          intro u hu
          rw [hdiv]
          change Changes c _ (vport u) → _ ∧ ((vport u).maxRate ≠ 0 ∨ _)
          rw [hun u hu]
          exact hmoves.2 u hu
        obtain ⟨vport', heq', hbut'', -⟩ := hbut'.normalize (g := new) hnew hkeeps
        rw [heq]
        rw [heq']
        exact ⟨hbut''.good fun g hX => hX.1.1.elim (fun he => hX.1.2 he) fun he => hX.2 he,
          fun hf => Bool.noConfusion hf⟩
      · rw [if_neg hnorm] at hmoves ⊢
        obtain ⟨hzero, hgroup⟩ := not_or.mp hnorm
        obtain ⟨hcurr, hmins⟩ := h.no_guarantee hv.1 hv.2 (not_not.mp hzero)
        have hall : ∀ g, g = s.parent v ∨ g = new → g ∈ s.nodes ∧ (s.group g).bwShare = 0 ∧
            ∀ u ∈ s.children g, (s.vport u).minRate = 0 := by
          rintro g (rfl | rfl)
          · exact ⟨hv.1, hcurr, hmins⟩
          · exact ⟨hnew, not_not.mp hgroup, hmoves⟩
        refine ⟨GoodBut.good (X := fun _ => False) { hbut with vport := fun g hg _ u hu => ?_ }
          fun _ hX => hX, fun hf => Bool.noConfusion hf⟩
        by_cases hX : g = s.parent v ∨ g = new
        · obtain ⟨-, hg0, hg⟩ := hall g hX
          have hmem : ∀ w ∈ (movedVport s v new).children g, w = v ∨ w ∈ s.children g :=
            fun w hw => by
              rcases (mem_movedVport h.tree hsame (hall g hX).1).mp hw with ⟨-, hw⟩ | ⟨hw, -⟩
              · exact .inr hw
              · exact .inl hw
          have hdiv : nodeDivider c (movedVport s v new) g = 0 := by
            refine nodeDivider_zero (fun w hw => ?_) hg0
            change ((withElem s v _).vport w).minRate = 0
            rw [(hset w).2.1]
            rcases hmem w hw with rfl | hw
            · exact hmins w hv.2
            · exact hg w hw
          rw [hdiv, (calcBwShare_bounds _ _).1 rfl]
          change ((withElem s v _).vport u).bwShare = 0
          rw [(hset u).2.2.1]
          rcases hmem u hu with rfl | hu
          · exact not_not.mp hzero
          · rw [h.vport_share (hall g hX).1 hu, nodeDivider_zero hg hg0]
            exact (calcBwShare_bounds _ _).1 rfl
        · exact hbut.vport g hg hX u hu

/-- The operations that go right. A setter of a minimum rate programs no vport again that has its
    limit from its group; where a command of it fails, this is the first one, or, for a group, the
    restoring ones succeed. A setter of the maximum rate of a group fails at its first command, if
    at all. -/
def Meets (c : Caps) (s : St) : Op → Prop
  | .setVportMinRate ok v minRate => Keeps c ok (withVportMin s v minRate) (s.parent v) ∨
    FirstFails c ok (nodeDivider c (withVportMin s v minRate) (s.parent v))
      (s.children (s.parent v)) (withVportMin s v minRate).vport
  | .setVportMaxRate _ _ _ => True
  | .setNodeMinRate ok restore g minRate =>
    SparesNodes c ok (groupDivider c (withGroupMin s g minRate)) (withGroupMin s g minRate)
        s.nodes ∧ ∀ x, restore.group x = true ∧ restore.vport x = true
  | .setNodeMaxRate ok g _ =>
    ok.group g = false ∨ ∀ v ∈ s.children g, (s.vport v).maxRate = 0 → ok.vport v = true
  | .vportUpdateNode destroyed created restored ok v new =>
    (destroyed = true → created = false → restored = true) ∧
      (destroyed = true → created = true → s.parent v ≠ new → Moves c ok s v new)
  | .createVportsSchedNode _ _ _ => True
  | .destroyNode ok g =>
    SparesNodes c ok (groupDivider c (withoutGroup s g)) (withoutGroup s g)
        (withoutGroup s g).nodes ∧ ∀ x ∈ (withoutGroup s g).nodes,
        Programs c ok (groupDivider c (withoutGroup s g)) (withoutGroup s g) x

/-- STEP: an operation that goes right keeps the invariant; one that fails changes nothing. -/
theorem Good.run (h : Good c s) (a : Op) (ha : Allowed s a) (hm : Meets c s a) :
    Good c (run c s a).2 ∧ ((EswQos.run c s a).1 = false → Same s (EswQos.run c s a).2) := by
  cases a with
  | setVportMinRate ok v minRate => exact setVportMinRate_spec h ha hm
  | setVportMaxRate ok v maxRate => exact setVportMaxRate_spec h ha ok
  | setNodeMinRate ok restore g minRate => exact setNodeMinRate_spec h hm.1 hm.2
  | setNodeMaxRate ok g maxRate => exact setNodeMaxRate_spec h ha hm
  | vportUpdateNode destroyed created restored ok v new =>
    exact vportUpdateNode_spec h ha.1 ha.2 hm.1 hm.2
  | createVportsSchedNode created allocated ok => exact createVportsSchedNode_spec h allocated ok
  | destroyNode ok g =>
    obtain ⟨hgood, hres⟩ := destroyNode_spec h hm.1 hm.2
    refine ⟨hgood, fun hf => ?_⟩
    change (destroyNode c ok s g).1 = false at hf
    rw [hres] at hf
    cases hf

theorem Good.start : Good c (start vports) := by
  have hgroup : groupDivider c (EswQos.start vports) = 0 := rfl
  refine ⟨⟨List.nodup_singleton 0, fun g hg => ?_, fun g hg => ?_⟩,
    ⟨fun _ _ => rfl, fun _ _ _ _ => rfl⟩, ⟨fun _ _ => ?_, fun g _ v _ => ?_⟩,
    ⟨fun _ h => absurd rfl h, fun _ h => absurd rfl h⟩, rfl⟩
  · rw [mem_singleton.mp hg]
    exact ⟨List.nodup_range, fun _ _ => rfl⟩
  · rw [mem_singleton.mp hg]
    exact Nat.zero_lt_one
  · rw [hgroup]
    exact ((calcBwShare_bounds _ _).1 rfl).symm
  · have hzero : vportDivider c 0 (EswQos.start vports) g = 0 := by
      by_contra hne
      rcases calculateMinRateDivider_ne_zero.mp hne with ⟨r, hr, hrne⟩ | hshare
      · obtain ⟨u, -, rfl⟩ := mem_map.mp hr
        exact hrne rfl
      · exact hshare ((calcBwShare_bounds _ _).1 rfl)
    rw [hgroup, hzero]
    exact ((calcBwShare_bounds _ _).1 rfl).symm

/-- RUN: the invariant holds in every state reached by operations that go right. -/
theorem Good.reach (h : Reach (step c) (fun s a => Allowed s a ∧ Meets c s a)
    (EswQos.start vports) s) : Good c s :=
  h.invariant Good.start fun _ a ha hs => (hs.run a ha.1 ha.2).1

end Updates

section Rates
variable {c : Caps} {s : St} {vports : ℕ}

/-- The share of a node, among siblings with these minimum rates and below a parent with this share:
    that of the formula, between the least share and the maximum where there is a guarantee, and
    none elsewhere. -/
def ShareOk (c : Caps) (n : Node) (rates : List ℕ) (parentShare : ℕ) : Prop :=
  n.bwShare = calcBwShare n.minRate
    (calculateMinRateDivider c.maxTsarBwShare rates parentShare) c.maxTsarBwShare ∧
  ((∃ r ∈ rates, r ≠ 0) ∨ parentShare ≠ 0 →
    MLX5_MIN_BW_SHARE ≤ n.bwShare ∧ n.bwShare ≤ c.maxTsarBwShare) ∧
  (¬((∃ r ∈ rates, r ≠ 0) ∨ parentShare ≠ 0) → n.bwShare = 0)

theorem shareOk_of {n : Node} {rates : List ℕ} {parentShare : ℕ}
    (h : n.bwShare = calcBwShare n.minRate
      (calculateMinRateDivider c.maxTsarBwShare rates parentShare) c.maxTsarBwShare)
    (hcap : (∃ r ∈ rates, r ≠ 0) ∨ parentShare ≠ 0 → 0 < c.maxTsarBwShare) :
    ShareOk c n rates parentShare := by
  obtain ⟨hzero, hleast, hmost⟩ := @calcBwShare_bounds c.maxTsarBwShare n.minRate
    (calculateMinRateDivider c.maxTsarBwShare rates parentShare)
  rw [← h] at hzero hleast hmost
  refine ⟨h, fun hsome => ⟨hleast (calculateMinRateDivider_ne_zero.mpr hsome) (hcap hsome), hmost⟩,
    fun hnone => hzero (not_not.mp fun hne => hnone (calculateMinRateDivider_ne_zero.mp hne))⟩

theorem Good.shareOk_group (h : Good c s) {g : ℕ} (hg : g ∈ s.nodes) :
    ShareOk c (s.group g) (groupRates s) 0 := by
  refine shareOk_of (h.shared.group g hg) ?_
  rintro (⟨r, hr, hne⟩ | hne)
  · obtain ⟨x, -, rfl⟩ := mem_map.mp hr
    exact Nat.pos_of_ne_zero (h.guard.group x hne)
  · exact absurd rfl hne

theorem Good.shareOk_vport (h : Good c s) {g v : ℕ} (hg : g ∈ s.nodes) (hv : v ∈ s.children g) :
    ShareOk c (s.vport v) (vportRates s g) (s.group g).bwShare := by
  refine shareOk_of (h.vport_share hg hv) ?_
  rintro (⟨r, hr, hne⟩ | hne)
  · obtain ⟨u, -, rfl⟩ := mem_map.mp hr
    exact Nat.pos_of_ne_zero (h.guard.vport u hne)
  · obtain ⟨hshare, hsome, hnone⟩ := h.shareOk_group hg
    by_cases hr : (∃ r ∈ groupRates s, r ≠ 0) ∨ 0 ≠ 0
    · exact Nat.lt_of_lt_of_le Nat.zero_lt_one (Nat.le_trans (hsome hr).1 (hsome hr).2)
    · exact absurd (hnone hr) hne

/-- CORRECT: in every run of operations that go right, the element of a vport has its maximum rate
    or else that of its group, every element has the share that is stored, which follows from the
    minimum rates of the siblings, no division by zero is made, and an operation that fails changes
    nothing. -/
theorem vport_rates (h : Reach (step c) (fun s a => Allowed s a ∧ Meets c s a) (start vports) s) :
    (∀ g ∈ s.nodes, (s.group g).elem = some ((s.group g).maxRate, (s.group g).bwShare) ∧
      ShareOk c (s.group g) (groupRates s) 0) ∧
    (∀ g ∈ s.nodes, ∀ v ∈ s.children g, (s.vport v).elem =
        some (if (s.vport v).maxRate ≠ 0 then (s.vport v).maxRate else (s.group g).maxRate,
          (s.vport v).bwShare) ∧
      ShareOk c (s.vport v) (vportRates s g) (s.group g).bwShare) ∧
    s.trap = false ∧
    ∀ a, Allowed s a → Meets c s a → (run c s a).1 = false → Same s (step c s a) := by
  have hgood := Good.reach h
  exact ⟨fun g hg => ⟨hgood.elems.group g hg, hgood.shareOk_group hg⟩,
    fun g hg v hv => ⟨hgood.elems.vport g hg v hv, hgood.shareOk_vport hg hv⟩, hgood.trap,
    fun a ha hm => (hgood.run a ha hm).2⟩

instance Allowed.decidable : ∀ s a, Decidable (Allowed s a)
  | s, .setVportMinRate _ v _ => inferInstanceAs (Decidable (s.parent v ∈ s.nodes ∧ _))
  | s, .setVportMaxRate _ v _ => inferInstanceAs (Decidable (s.parent v ∈ s.nodes ∧ _))
  | s, .setNodeMinRate _ _ g _ => inferInstanceAs (Decidable (g ∈ s.nodes))
  | s, .setNodeMaxRate _ g _ => inferInstanceAs (Decidable (g ∈ s.nodes))
  | s, .vportUpdateNode _ _ _ _ v new =>
    inferInstanceAs (Decidable ((s.parent v ∈ s.nodes ∧ _) ∧ new ∈ s.nodes))
  | _, .createVportsSchedNode _ _ _ => instDecidableTrue
  | s, .destroyNode _ g => inferInstanceAs (Decidable (g ∈ s.nodes ∧ g ≠ 0 ∧ s.children g = []))

instance SparesVports.decidable (c : Caps) (ok : ℕ → Bool) (d limit : ℕ) :
    ∀ l vport, Decidable (SparesVports c ok d limit l vport)
  | [], _ => instDecidableTrue
  | v :: l, vport =>
    have := SparesVports.decidable c ok d limit l vport
    inferInstanceAs (Decidable (ite (Changes c d (vport v)) (ok v = true → _ ∧ _) _))

def allOk : Cmds := ⟨fun _ => true, fun _ => true⟩

/-- A group with a guarantee, one of the two vports moved to it, and a limit on both. -/
def rated : List Op :=
  [.createVportsSchedNode true true allOk, .setNodeMinRate allOk allOk 1 50,
    .setVportMinRate (fun _ => true) 0 20, .setVportMaxRate true 1 7,
    .vportUpdateNode true true true (fun _ => true) 1 1, .setNodeMaxRate allOk 1 30]

/-- Then the command of another minimum rate fails. -/
theorem vport_rates_demo :
    let s := rated.foldl (step ⟨100, true, true⟩) (start 2)
    (s.group 1).elem = some (30, 50) ∧ (s.vport 0).elem = some (0, 20) ∧
      (s.vport 1).elem = some (7, 1) ∧
      Same s (step ⟨100, true, true⟩ s (.setVportMinRate (fun _ => false) 0 40)) := by
  have hruns : Runs (step ⟨100, true, true⟩) (fun s a => Allowed s a ∧ Meets ⟨100, true, true⟩ s a)
      (start 2) rated := by
    refine ⟨⟨trivial, trivial⟩, ⟨by decide, ⟨fun _ => ⟨?_, fun _ _ => ⟨?_, fun _ => trivial⟩⟩,
      fun _ => ⟨rfl, rfl⟩⟩⟩, ⟨by decide, .inl (by unfold Keeps; decide)⟩, ⟨by decide, trivial⟩,
      ⟨by decide, fun _ _ => rfl, fun _ _ _ => by unfold Moves Keeps; decide⟩,
      ⟨by decide, .inr fun _ _ _ => rfl⟩, trivial⟩
    · decide
    · decide
  obtain ⟨hgroup, hvport, -, hfail⟩ := vport_rates (Reach.start.runs hruns)
  refine ⟨(hgroup 1 (by decide)).1.trans (by decide),
    (hvport 0 (by decide) 0 (by decide)).1.trans (by decide),
    (hvport 1 (by decide) 1 (by decide)).1.trans (by decide),
    hfail _ (by decide) (.inr ?_) (by decide)⟩
  change FirstFails _ _ _ [0] _
  rw [firstFails_cons, if_pos (by decide)]

/-- A group with a maximum rate, to which a vport is moved. -/
def grouped : List Op :=
  [.createVportsSchedNode true true ⟨fun _ => true, fun _ => true⟩,
    .setNodeMaxRate ⟨fun _ => true, fun _ => true⟩ 1 10,
    .vportUpdateNode true true true (fun _ => true) 0 1]

/-- BROKEN: the vport loses the limit of its group when it gets a minimum rate. -/
theorem vport_rates_broken : ¬∀ (c : Caps) (vports : ℕ) (s : St), Reach (step c) Allowed
    (start vports) s → ∀ a, Allowed s a → (run c s a).1 = true →
      ∀ g ∈ (step c s a).nodes, ∀ v ∈ (step c s a).children g, ((step c s a).vport v).elem =
        some (if ((step c s a).vport v).maxRate ≠ 0 then ((step c s a).vport v).maxRate
          else ((step c s a).group g).maxRate, ((step c s a).vport v).bwShare) := by
  intro h
  have hreach : Reach (step ⟨100, true, true⟩) Allowed (start 1)
      (grouped.foldl (step ⟨100, true, true⟩) (start 1)) := Reach.start.runs (by decide)
  have hlost := h _ _ _ hreach (.setVportMinRate (fun _ => true) 0 5) (by decide) (by decide) 1
    (by decide) 0 (by decide)
  exact absurd hlost (by decide)

end Rates

end RdmaDriver.EswQos
