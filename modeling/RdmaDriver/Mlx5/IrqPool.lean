import Mathlib.Logic.Function.Basic
import RdmaDriver.Basic
import RdmaDriver.Schemes.Run
import RdmaDriver.Schemes.Tally

/-! @src drivers/net/ethernet/mellanox/mlx5/core/irq_affinity.c | name:IRQ pool |
    scheme:tally | family:references

    A pool shares its IRQs among event queues. A request takes a reference to an IRQ whose CPUs are
    among the ones it asks for; if all of these are in use up to a threshold, a new IRQ is placed on
    the CPU with the fewest IRQs.

        xa index    -> reserved -> irq (mask, refcount = 1)
        irqs_per_cpu[c]++                | attach, request      | detach, release, put
                                         v refcount++           v refcount--, free at 0
                                                                  irqs_per_cpu[c]-- by release only

    The count of a CPU goes up when an index is reserved and goes down in one place. -/

namespace RdmaDriver.IrqPool
open RdmaDriver.Schemes Function

def EBUSY : ℕ := 16
def EUSERS : ℕ := 87
def ENOENT : ℕ := 2

/-- `struct cpumask`. -/
abbrev Mask := ℕ → Bool

/-- The pool as it is set up, and the CPUs of the machine. A device has at most 2048 vectors, and a
    CPU is online. -/
structure Pool where
  min : ℕ
  max : ℕ
  maxLt : max < 2048
  minThreshold : ℕ
  sf : Bool
  perCpu : Bool
  nr : ℕ
  online : Mask
  node : Option Mask
  someOnline : ∃ c < nr, online c = true

/-- `struct mlx5_irq`. -/
structure Irq where
  mask : Mask
  refcount : ℤ

/-- An index of `pool->irqs`. -/
inductive Slot where
  | empty
  | reserved
  | irq (x : Irq)

/-- An index that `xa_alloc` can take. -/
def Slot.isFree : Slot → Bool
  | .empty => true
  | _ => false

/-- The indices, `irqs_per_cpu`, and how many requests and notifiers there are for each index. -/
structure St where
  slots : ℕ → Slot
  load : ℕ → ℕ
  reqs : ℕ → ℕ
  nbs : ℕ → ℕ

section Masks
variable (p : Pool)

/-- The CPUs of a mask in order. -/
def cpus (m : Mask) : List ℕ := (List.range p.nr).filter m

/-- `cpumask_first`. -/
def cpumaskFirst (m : Mask) : ℕ := (cpus p m).head?.getD p.nr

/-- `cpumask_subset`. -/
def cpumaskSubset (a b : Mask) : Bool := (cpus p a).all b

end Masks

section Choice
variable (p : Pool)

/-- The loop of `cpu_get_least_loaded`. -/
def leastLoop (load : ℕ → ℕ) : List ℕ → Option ℕ → Option ℕ
  | [], best => best
  | cpu :: l, best =>
    if !p.online cpu then leastLoop load l best
    else if load cpu = 0 then some cpu
    else
      let b := best.getD cpu
      leastLoop load l (some (if load cpu < load b then cpu else b))

/-- `cpu_get_least_loaded`. -/
def cpuGetLeastLoaded (load : ℕ → ℕ) (src req : Mask) : Option ℕ :=
  leastLoop p load (cpus p fun c => src c && req c) none

/-- `cpu_get`. -/
def cpuGet (load : ℕ → ℕ) (cpu : ℕ) : ℕ → ℕ :=
  update load cpu (toU 16 (load cpu + 1 : ℕ))

/-- `cpu_put`. -/
def cpuPut (load : ℕ → ℕ) (cpu : ℕ) : ℕ → ℕ :=
  update load cpu (toU 16 ((load cpu : ℤ) - 1))

/-- `cpu_req_mask_local_spread`: the CPU whose count is to go up. -/
def cpuReqMaskLocalSpread (load : ℕ → ℕ) (req : Mask) : ℕ :=
  let numaCpu := p.node.bind fun node => cpuGetLeastLoaded p load node req
  match numaCpu, cpuGetLeastLoaded p load p.online req with
  | some n, some c => if load n = 0 then n else if load c = load n then n else c
  | some n, none => if load n = 0 then n else cpumaskFirst p p.online
  | none, some c => c
  | none, none => cpumaskFirst p p.online

/-- The mask of a new IRQ, and the counts once it is placed. -/
def place (load : ℕ → ℕ) (req : Mask) : Mask × (ℕ → ℕ) :=
  if p.perCpu then
    if (cpus p req).length > 1 then
      let cpu := cpuReqMaskLocalSpread p load req
      (fun c => c == cpu, cpuGet load cpu)
    else (req, cpuGet load (cpumaskFirst p req))
  else (req, load)

end Choice

/-- What fails in a request: the memory of `xa_alloc`, something in `mlx5_irq_alloc` up to its
    `xa_store`, and the entry in sysfs. -/
structure Env where
  xaAlloc : Option ℕ
  irqAlloc : Option ℕ
  sysfs : Option ℕ

section Calls
variable (p : Pool)

/-- `xa_alloc` in `irq_pool_request_irq`: the first free index. -/
def xaAlloc (s : St) (env : Env) : Except ℕ ℕ :=
  match env.xaAlloc with
  | some e => .error (if e = EBUSY then EUSERS else e)
  | none =>
    match (List.range' p.min (p.max + 1 - p.min)).find? fun i => (s.slots i).isFree with
    | some i => .ok i
    | none => .error EUSERS

/-- `irq_pool_request_irq`, with `mlx5_irq_alloc`. -/
def irqPoolRequestIrq (s : St) (req : Mask) (env : Env) : Except ℕ ℕ × St :=
  match xaAlloc p s env with
  | .error e => (.error e, s)
  | .ok i =>
    let s := { s with slots := update s.slots i .reserved }
    let (mask, load) := place p s.load req
    let s := { s with load := load }
    match env.irqAlloc with
    | some e => (.error e, { s with slots := update s.slots i .empty })
    | none => (.ok i, { s with slots := update s.slots i (.irq ⟨mask, 1⟩) })

/-- The loop of `irq_pool_find_least_loaded`, with the IRQ so far and its count. -/
def findLoop (s : St) (req : Mask) : List ℕ → Option (ℕ × ℤ) → Option ℕ
  | [], best => best.map Prod.fst
  | i :: l, best =>
    match s.slots i with
    | .irq x =>
      if !cpumaskSubset p x.mask req then findLoop s req l best
      else if x.refcount < p.minThreshold then some i
      else
        match best with
        | none => findLoop s req l (some (i, x.refcount))
        | some (j, r) =>
          findLoop s req l (if x.refcount < r then some (i, x.refcount) else some (j, r))
    | _ => findLoop s req l best

/-- `irq_pool_find_least_loaded`. -/
def irqPoolFindLeastLoaded (s : St) (req : Mask) : Option ℕ :=
  findLoop p s req (List.range' p.min (p.max + 1 - p.min)) none

/-- `mlx5_irq_read_locked`. -/
def mlx5IrqReadLocked (s : St) (i : ℕ) : ℤ :=
  match s.slots i with | .irq x => x.refcount | _ => 0

/-- `mlx5_irq_get_locked`: whether there is an IRQ. -/
def mlx5IrqGetLocked (s : St) (i : ℕ) : Bool × St :=
  match s.slots i with
  | .irq x =>
    if x.refcount = 0 then (false, s)
    else (true, { s with
      slots := update s.slots i (.irq { x with refcount := x.refcount + 1 }) })
  | _ => (false, s)

/-- `mlx5_irq_put`: whether it was the last reference. -/
def mlx5IrqPut (s : St) (i : ℕ) : Bool × St :=
  match s.slots i with
  | .irq x =>
    if x.refcount - 1 = 0 then (true, { s with slots := update s.slots i .empty })
    else (false, { s with
      slots := update s.slots i (.irq { x with refcount := x.refcount - 1 }) })
  | _ => (false, s)

/-- `mlx5_irq_affinity_request` where no IRQ below the threshold is found: a new IRQ, or else the
    one that was found. -/
def requestNew (s : St) (req : Mask) (env : Env) (least : Option ℕ) : Except ℕ ℕ × St :=
  match irqPoolRequestIrq p s req env, least with
  | (.ok i, s), _ => (.ok i, s)
  | (.error e, s), none => (.error e, s)
  | (.error _, s), some i => (.ok i, (mlx5IrqGetLocked s i).2)

/-- `mlx5_irq_affinity_request` up to the entry in sysfs. -/
def affinityPick (s : St) (req : Mask) (env : Env) : Except ℕ ℕ × St :=
  match irqPoolFindLeastLoaded p s req with
  | some i =>
    if mlx5IrqReadLocked s i < p.minThreshold then (.ok i, (mlx5IrqGetLocked s i).2)
    else requestNew p s req env (some i)
  | none => requestNew p s req env none

/-- `mlx5_irq_affinity_request`. -/
def mlx5IrqAffinityRequest (s : St) (req : Mask) (env : Env) : Except ℕ ℕ × St :=
  match affinityPick p s req env with
  | (.error e, s) => (.error e, s)
  | (.ok i, s) =>
    match p.sf, env.sysfs with
    | true, some e => (.error e, (mlx5IrqPut s i).2)
    | _, _ => (.ok i, { s with reqs := update s.reqs i (s.reqs i + 1) })

/-- `mlx5_irq_affinity_irq_release`. -/
def mlx5IrqAffinityIrqRelease (s : St) (i : ℕ) : St :=
  let s := { s with reqs := update s.reqs i (s.reqs i - 1) }
  let cpu := match s.slots i with | .irq x => cpumaskFirst p x.mask | _ => p.nr
  match mlx5IrqPut s i with
  | (true, s) => if p.perCpu then { s with load := cpuPut s.load cpu } else s
  | (false, s) => s

/-- `mlx5_irq_attach_nb`; the notifier chain may refuse. -/
def mlx5IrqAttachNb (s : St) (i : ℕ) (register : Option ℕ) : Except ℕ ℕ × St :=
  match mlx5IrqGetLocked s i with
  | (false, s) => (.error ENOENT, s)
  | (true, s) =>
    match register with
    | some e => (.error e, (mlx5IrqPut s i).2)
    | none => (.ok i, { s with nbs := update s.nbs i (s.nbs i + 1) })

/-- `mlx5_irq_detach_nb`. -/
def mlx5IrqDetachNb (s : St) (i : ℕ) : St :=
  (mlx5IrqPut { s with nbs := update s.nbs i (s.nbs i - 1) } i).2

end Calls

/-- A call. -/
inductive Op where
  | request (req : Mask) (env : Env)
  | release (i : ℕ)
  | attach (i : ℕ) (register : Option ℕ)
  | detach (i : ℕ)

/-- The pool after a call. -/
def step (p : Pool) (s : St) : Op → St
  | .request req env => (mlx5IrqAffinityRequest p s req env).2
  | .release i => mlx5IrqAffinityIrqRelease p s i
  | .attach i register => (mlx5IrqAttachNb s i register).2
  | .detach i => mlx5IrqDetachNb s i

/-- A request has a CPU; only what is held is released, detached or attached to. -/
def Allowed (p : Pool) (s : St) : Op → Prop
  | .request req _ => ∃ c < p.nr, req c = true
  | .release i => 0 < s.reqs i
  | .attach i _ => 0 < s.reqs i + s.nbs i
  | .detach i => 0 < s.nbs i

/-- A pool without IRQs. -/
def start : St := ⟨fun _ => .empty, fun _ => 0, fun _ => 0, fun _ => 0⟩

section Least
variable {p : Pool}

theorem mem_cpus {m : Mask} {c : ℕ} : c ∈ cpus p m ↔ c < p.nr ∧ m c = true := by
  simp [cpus]

theorem subset_iff {a b : Mask} :
    cpumaskSubset p a b = true ↔ ∀ c < p.nr, a c = true → b c = true := by
  simp only [cpumaskSubset, List.all_eq_true, mem_cpus, and_imp]

/-- The first CPU of a mask is in it. -/
theorem first_mem {m : Mask} (h : ∃ c < p.nr, m c = true) :
    cpumaskFirst p m < p.nr ∧ m (cpumaskFirst p m) = true := by
  obtain ⟨c, hc⟩ := h
  have hmem := mem_cpus.mpr hc
  unfold cpumaskFirst
  cases hl : cpus p m with
  | nil => rw [hl] at hmem; cases hmem
  | cons a l => exact mem_cpus.mp (by rw [hl]; exact List.mem_cons_self)

theorem first_single {c : ℕ} (h : c < p.nr) : cpumaskFirst p (fun x => x == c) = c := by
  have := (first_mem (p := p) (m := fun x => x == c) ⟨c, h, beq_self_eq_true c⟩).2
  exact eq_of_beq this

/-- The least loaded CPU is one of the list that is online, or the best so far. -/
theorem leastLoop_some {load : ℕ → ℕ} {c : ℕ} : ∀ {l : List ℕ} {best : Option ℕ},
    leastLoop p load l best = some c → best = some c ∨ c ∈ l ∧ p.online c = true
  | [], best, h => .inl h
  | cpu :: l, best, h => by
    rw [leastLoop] at h
    by_cases ho : p.online cpu = true
    · simp only [ho] at h
      by_cases hz : load cpu = 0
      · rw [if_pos hz] at h
        obtain rfl := Option.some.inj h
        exact .inr ⟨List.mem_cons_self, ho⟩
      · rw [if_neg hz] at h
        rcases leastLoop_some h with hb | ⟨hmem, hon⟩
        · cases best with
          | none =>
            obtain rfl : cpu = c := by simpa using hb
            exact .inr ⟨List.mem_cons_self, ho⟩
          | some b =>
            simp only [Option.some.injEq] at hb
            split_ifs at hb
            · obtain rfl := hb
              exact .inr ⟨List.mem_cons_self, ho⟩
            · exact .inl (congrArg some hb)
        · exact .inr ⟨List.mem_cons_of_mem _ hmem, hon⟩
    · rw [if_pos (by simpa using ho)] at h
      rcases leastLoop_some h with hb | ⟨hmem, hon⟩
      · exact .inl hb
      · exact .inr ⟨List.mem_cons_of_mem _ hmem, hon⟩

/-- There is none only where none of the list is online. -/
theorem leastLoop_none {load : ℕ → ℕ} : ∀ {l : List ℕ} {best : Option ℕ},
    leastLoop p load l best = none → best = none ∧ ∀ c ∈ l, p.online c = false
  | [], best, h => ⟨h, fun _ hc => by cases hc⟩
  | cpu :: l, best, h => by
    rw [leastLoop] at h
    by_cases ho : p.online cpu = true
    · simp only [ho] at h
      by_cases hz : load cpu = 0
      · rw [if_pos hz] at h
        cases h
      · rw [if_neg hz] at h
        cases (leastLoop_none h).1
    · rw [if_pos (by simpa using ho)] at h
      obtain ⟨hb, hl⟩ := leastLoop_none h
      refine ⟨hb, fun c hc => ?_⟩
      rcases List.mem_cons.mp hc with rfl | hc
      · simpa using ho
      · exact hl c hc

theorem least_some {load : ℕ → ℕ} {src req : Mask} {c : ℕ}
    (h : cpuGetLeastLoaded p load src req = some c) :
    c < p.nr ∧ src c = true ∧ req c = true ∧ p.online c = true := by
  rcases leastLoop_some h with hb | ⟨hmem, hon⟩
  · cases hb
  · obtain ⟨hlt, hm⟩ := mem_cpus.mp hmem
    rw [Bool.and_eq_true] at hm
    exact ⟨hlt, hm.1, hm.2, hon⟩

theorem least_none {load : ℕ → ℕ} {req : Mask}
    (h : cpuGetLeastLoaded p load p.online req = none) :
    ¬∃ c < p.nr, req c = true ∧ p.online c = true := by
  rintro ⟨c, hlt, hreq, hon⟩
  have := (leastLoop_none h).2 c (mem_cpus.mpr ⟨hlt, by rw [hon, hreq]; rfl⟩)
  rw [hon] at this
  cases this

/-- The CPU for a new IRQ is online; it is one of the requested ones if any of these is online. -/
theorem local_spread (load : ℕ → ℕ) (req : Mask) :
    cpuReqMaskLocalSpread p load req < p.nr ∧ ((∃ c < p.nr, req c = true ∧ p.online c = true) →
        req (cpuReqMaskLocalSpread p load req) = true) := by
  have hfirst := first_mem p.someOnline
  have hnuma : ∀ n, (p.node.bind fun node => cpuGetLeastLoaded p load node req) = some n →
      n < p.nr ∧ req n = true := by
    intro n hn
    obtain ⟨node, -, hn⟩ := Option.bind_eq_some_iff.mp hn
    obtain ⟨hlt, -, hreq, -⟩ := least_some hn
    exact ⟨hlt, hreq⟩
  unfold cpuReqMaskLocalSpread
  cases hn : p.node.bind fun node => cpuGetLeastLoaded p load node req with
  | some n =>
    obtain ⟨hnlt, hnreq⟩ := hnuma n hn
    cases hc : cpuGetLeastLoaded p load p.online req with
    | some c =>
      obtain ⟨hclt, -, hcreq, -⟩ := least_some hc
      simp only
      split_ifs
      · exact ⟨hnlt, fun _ => hnreq⟩
      · exact ⟨hnlt, fun _ => hnreq⟩
      · exact ⟨hclt, fun _ => hcreq⟩
    | none =>
      simp only
      split_ifs
      · exact ⟨hnlt, fun _ => hnreq⟩
      · exact ⟨hfirst.1, fun h => absurd h (least_none hc)⟩
  | none =>
    cases hc : cpuGetLeastLoaded p load p.online req with
    | some c =>
      obtain ⟨hclt, -, hcreq, -⟩ := least_some hc
      exact ⟨hclt, fun _ => hcreq⟩
    | none => exact ⟨hfirst.1, fun h => absurd h (least_none hc)⟩

/-- The count of the CPU that a new IRQ is placed on goes up. -/
theorem place_load (load : ℕ → ℕ) (req : Mask) :
    (place p load req).2 =
      if p.perCpu then cpuGet load (cpumaskFirst p (place p load req).1) else load := by
  unfold place
  by_cases hp : p.perCpu = true
  · simp only [if_pos hp]
    by_cases hw : (cpus p req).length > 1
    · simp only [if_pos hw]
      rw [first_single (local_spread load req).1]
    · simp only [if_neg hw]
  · simp only [if_neg hp]

/-- A new IRQ has only requested CPUs, if any of these is online. -/
theorem place_subset (load : ℕ → ℕ) {req : Mask}
    (h : ∃ c < p.nr, req c = true ∧ p.online c = true) :
    cpumaskSubset p (place p load req).1 req = true := by
  rw [subset_iff]
  intro c hc
  unfold place
  split_ifs
  · intro heq
    rw [eq_of_beq heq]
    exact (local_spread load req).2 h
  · exact id
  · exact id

end Least

section Calls
variable {p : Pool} {s : St} {i : ℕ} {req : Mask} {env : Env}

/-- There is an IRQ at the index whose CPUs are all requested. -/
def Fits (p : Pool) (s : St) (req : Mask) (i : ℕ) (x : Irq) : Prop :=
  s.slots i = .irq x ∧ cpumaskSubset p x.mask req = true

/-- The IRQ that is found fits; unless it is below the threshold, all that fit have reached it. -/
theorem findLoop_spec : ∀ (l : List ℕ) (best : Option (ℕ × ℤ)),
    (∀ j r, best = some (j, r) → ∃ x, Fits p s req j x ∧ x.refcount = r ∧ p.minThreshold ≤ r) →
    (∀ i, findLoop p s req l best = some i → ∃ x, Fits p s req i x) ∧
      ((∀ i, findLoop p s req l best = some i → ¬mlx5IrqReadLocked s i < p.minThreshold) →
        ∀ j ∈ l, ∀ y, Fits p s req j y → p.minThreshold ≤ y.refcount)
  | [], best, hb => by
    refine ⟨fun i h => ?_, fun _ j hj => by cases hj⟩
    obtain ⟨⟨j, r⟩, hbest, rfl⟩ := Option.map_eq_some_iff.mp h
    obtain ⟨x, hx, -⟩ := hb j r hbest
    exact ⟨x, hx⟩
  | k :: l, best, hb => by
    have hskip : (∀ y, ¬Fits p s req k y) → findLoop p s req (k :: l) best =
        findLoop p s req l best → (∀ i, findLoop p s req (k :: l) best = some i →
          ∃ x, Fits p s req i x) ∧ ((∀ i, findLoop p s req (k :: l) best = some i →
            ¬mlx5IrqReadLocked s i < p.minThreshold) →
              ∀ j ∈ k :: l, ∀ y, Fits p s req j y → p.minThreshold ≤ y.refcount) := by
      intro hno heq
      rw [heq]
      obtain ⟨hfit, hall⟩ := findLoop_spec l best hb
      refine ⟨hfit, fun h j hj y hy => ?_⟩
      rcases List.mem_cons.mp hj with rfl | hj
      · exact absurd hy (hno y)
      · exact hall h j hj y hy
    cases hk : s.slots k with
    | empty => exact hskip (fun y hy => by simp [Fits, hk] at hy) (by rw [findLoop, hk])
    | reserved => exact hskip (fun y hy => by simp [Fits, hk] at hy) (by rw [findLoop, hk])
    | irq x =>
      by_cases hsub : cpumaskSubset p x.mask req = true
      · have hfits : Fits p s req k x := ⟨hk, hsub⟩
        have hread : mlx5IrqReadLocked s k = x.refcount := by rw [mlx5IrqReadLocked, hk]
        by_cases hlt : x.refcount < p.minThreshold
        · have heq : findLoop p s req (k :: l) best = some k := by
            rw [findLoop, hk]
            simp only [hsub, Bool.not_true, Bool.false_eq_true, if_false, if_pos hlt]
          rw [heq]
          refine ⟨fun i h => ?_, fun h => ?_⟩
          · obtain rfl := Option.some.inj h
            exact ⟨x, hfits⟩
          · exact absurd (hread ▸ hlt) (h k rfl)
        · -- the IRQ with fewer references is kept, and both have reached the threshold
          have hkeep : ∃ best', findLoop p s req (k :: l) best = findLoop p s req l best' ∧
              ∀ j r, best' = some (j, r) →
                ∃ x, Fits p s req j x ∧ x.refcount = r ∧ p.minThreshold ≤ r := by
            have hx : ∀ j r, some (k, x.refcount) = some (j, r) →
                ∃ x, Fits p s req j x ∧ x.refcount = r ∧ p.minThreshold ≤ r := by
              intro j r h
              obtain ⟨rfl, rfl⟩ := Prod.mk.inj (Option.some.inj h)
              exact ⟨x, hfits, rfl, not_lt.mp hlt⟩
            rw [findLoop, hk]
            simp only [hsub, if_neg hlt]
            cases best with
            | none => exact ⟨_, rfl, hx⟩
            | some b =>
              refine ⟨_, rfl, ?_⟩
              split_ifs
              · exact hx
              · exact hb
          obtain ⟨best', heq, hb'⟩ := hkeep
          rw [heq]
          obtain ⟨hfit, hall⟩ := findLoop_spec l best' hb'
          refine ⟨hfit, fun h j hj y hy => ?_⟩
          rcases List.mem_cons.mp hj with rfl | hj
          · obtain rfl : x = y := Slot.irq.inj (hk.symm.trans hy.1)
            exact not_lt.mp hlt
          · exact hall h j hj y hy
      · refine hskip (fun y hy => ?_) ?_
        · obtain rfl : x = y := Slot.irq.inj (hk.symm.trans hy.1)
          exact hsub hy.2
        · rw [findLoop, hk]
          simp only [Bool.not_eq_true _ ▸ hsub, Bool.not_false, if_true]

/-- A request creates an IRQ if none that fits is below the threshold. -/
def Creates (p : Pool) (s : St) (req : Mask) : Prop :=
  ∀ i, irqPoolFindLeastLoaded p s req = some i → ¬mlx5IrqReadLocked s i < p.minThreshold

theorem find_fits (h : irqPoolFindLeastLoaded p s req = some i) : ∃ x, Fits p s req i x :=
  (findLoop_spec _ none (by simp)).1 i h

theorem fits_reached (h : Creates p s req) {j : ℕ} (hmin : p.min ≤ j) (hmax : j ≤ p.max) {y : Irq}
    (hy : Fits p s req j y) : p.minThreshold ≤ y.refcount :=
  (findLoop_spec _ none (by simp)).2 h j (List.mem_range'_1.mpr ⟨hmin, by omega⟩) y hy

/-- The index that is reserved was free. -/
theorem xaAlloc_ok (h : xaAlloc p s env = .ok i) : s.slots i = .empty ∧ i ≤ p.max := by
  unfold xaAlloc at h
  cases he : env.xaAlloc with
  | some e => rw [he] at h; cases h
  | none =>
    rw [he] at h
    cases hf : (List.range' p.min (p.max + 1 - p.min)).find? fun i => (s.slots i).isFree with
    | none => rw [hf] at h; cases h
    | some j =>
      rw [hf] at h
      obtain rfl : j = i := Except.ok.inj h
      have hmem := List.mem_range'_1.mp (List.mem_of_find?_eq_some hf)
      refine ⟨?_, by omega⟩
      have hempty := List.find?_some hf
      cases hs : s.slots j with
      | empty => rfl
      | reserved => rw [hs] at hempty; cases hempty
      | irq x => rw [hs] at hempty; cases hempty

/-- The pool with another entry at an index. -/
def setSlot (s : St) (i : ℕ) (x : Slot) : St := { s with slots := update s.slots i x }

/-- What becomes of a request for a new IRQ: it fails before an index is reserved, or after it, or
    there is a new IRQ. -/
theorem request_cases (p : Pool) (s : St) (req : Mask) (env : Env) :
    (∃ e, irqPoolRequestIrq p s req env = (.error e, s)) ∨ ∃ i, xaAlloc p s env = .ok i ∧
        ((∃ e, env.irqAlloc = some e ∧ irqPoolRequestIrq p s req env =
            (.error e, { s with load := (place p s.load req).2 })) ∨
          env.irqAlloc = none ∧ irqPoolRequestIrq p s req env =
            (.ok i, setSlot { s with load := (place p s.load req).2 } i
              (.irq ⟨(place p s.load req).1, 1⟩))) := by
  cases hx : xaAlloc p s env with
  | error e => exact .inl ⟨e, by rw [irqPoolRequestIrq, hx]⟩
  | ok i =>
    refine .inr ⟨i, rfl, ?_⟩
    rw [irqPoolRequestIrq, hx]
    cases ha : env.irqAlloc with
    | some e =>
      refine .inl ⟨e, rfl, ?_⟩
      simp only [update_idem]
      rw [← (xaAlloc_ok hx).1, update_eq_self]
    | none =>
      refine .inr ⟨rfl, ?_⟩
      simp only [update_idem, setSlot]

end Calls

section Kept
variable {p : Pool} {s : St} {i : ℕ} {x : Irq} {req : Mask} {env : Env}

/-- The references are those of requests and notifiers, an IRQ is there as long as it has any, and
    no index is reserved. -/
structure Kept (p : Pool) (s : St) : Prop where
  live : ∀ i x, s.slots i = .irq x →
    i ≤ p.max ∧ 0 < x.refcount ∧ x.refcount = (s.reqs i + s.nbs i : ℕ)
  gone : ∀ i, (∀ x, s.slots i ≠ .irq x) → s.slots i = .empty ∧ s.reqs i + s.nbs i = 0

/-- One index changes. -/
theorem Kept.change (h : Kept p s) {s' : St}
    (hother : ∀ j, j ≠ i → s'.slots j = s.slots j ∧ s'.reqs j = s.reqs j ∧ s'.nbs j = s.nbs j)
    (hi : (∃ x, s'.slots i = .irq x ∧ i ≤ p.max ∧ 0 < x.refcount ∧
        x.refcount = (s'.reqs i + s'.nbs i : ℕ)) ∨
      s'.slots i = .empty ∧ s'.reqs i + s'.nbs i = 0) : Kept p s' := by
  refine ⟨fun j y hj => ?_, fun j hj => ?_⟩
  · by_cases he : j = i
    · subst he
      rcases hi with ⟨x, hx, hx'⟩ | ⟨hx, -⟩
      · obtain rfl : x = y := Slot.irq.inj (hx.symm.trans hj)
        exact hx'
      · rw [hx] at hj
        cases hj
    · obtain ⟨hs, hr, hn⟩ := hother j he
      rw [hs] at hj
      rw [hr, hn]
      exact h.live j y hj
  · by_cases he : j = i
    · subst he
      rcases hi with ⟨x, hx, -⟩ | hx
      · exact absurd hx (hj x)
      · exact hx
    · obtain ⟨hs, hr, hn⟩ := hother j he
      rw [hs, hr, hn]
      exact h.gone j fun x hx => hj x (hs.trans hx)

theorem Kept.congr_load (h : Kept p s) (load : ℕ → ℕ) : Kept p { s with load := load } :=
  ⟨h.live, h.gone⟩

theorem setSlot_self (s : St) (i : ℕ) (x : Slot) : (setSlot s i x).slots i = x :=
  update_self _ _ _

theorem setSlot_of_ne (s : St) (x : Slot) {j : ℕ} (h : j ≠ i) :
    (setSlot s i x).slots j = s.slots j :=
  update_of_ne h _ _

theorem setSlot_twice (s : St) (i : ℕ) (x y : Slot) :
    setSlot (setSlot s i x) i y = setSlot s i y := by
  simp only [setSlot, update_idem]

theorem setSlot_old (h : s.slots i = y) : setSlot s i y = s := by
  subst h
  simp only [setSlot, update_eq_self]

/-- A reference to an IRQ. -/
theorem get_eq (hx : s.slots i = .irq x) (hpos : 0 < x.refcount) :
    mlx5IrqGetLocked s i = (true, setSlot s i (.irq { x with refcount := x.refcount + 1 })) := by
  unfold mlx5IrqGetLocked
  rw [hx]
  simp only [if_neg hpos.ne', setSlot]

/-- A reference is dropped. -/
theorem put_eq (hx : s.slots i = .irq x) :
    mlx5IrqPut s i = (decide (x.refcount = 1), setSlot s i
      (if x.refcount = 1 then .empty else .irq { x with refcount := x.refcount - 1 })) := by
  unfold mlx5IrqPut
  rw [hx]
  by_cases h : x.refcount = 1
  · simp [h, setSlot]
  · have hne : ¬x.refcount - 1 = 0 := by omega
    simp only [if_neg hne, if_neg h, decide_eq_false h, setSlot]

/-- A new IRQ fails after its index was reserved. -/
def Leaks (p : Pool) (s : St) (req : Mask) (env : Env) : Prop :=
  Creates p s req ∧ (∃ i, xaAlloc p s env = .ok i) ∧
    (env.irqAlloc ≠ none ∨ p.sf = true ∧ env.sysfs ≠ none)

/-- The counts of a request that leaves no new IRQ. -/
def LoadAfter (p : Pool) (s : St) (req : Mask) (env : Env) (load : ℕ → ℕ) : Prop :=
  load = s.load ∨ Leaks p s req env ∧ load = (place p s.load req).2

/-- What a request comes to: an error, one more reference to an IRQ that fits, or a new IRQ. -/
inductive Outcome (p : Pool) (s : St) (req : Mask) (env : Env) : Except ℕ ℕ × St → Prop where
  | failed (e : ℕ) {load : ℕ → ℕ} (hload : LoadAfter p s req env load) :
    Outcome p s req env (.error e, { s with load := load })
  | shared {i : ℕ} {x : Irq} {load : ℕ → ℕ} (hload : LoadAfter p s req env load)
    (hfits : Fits p s req i x) : Outcome p s req env
      (.ok i, { slots := update s.slots i (.irq { x with refcount := x.refcount + 1 })
                load := load
                reqs := update s.reqs i (s.reqs i + 1)
                nbs := s.nbs })
  | created {i : ℕ} (hnew : Creates p s req) (hempty : s.slots i = .empty) (hle : i ≤ p.max) :
    Outcome p s req env
      (.ok i, { slots := update s.slots i (.irq ⟨(place p s.load req).1, 1⟩)
                load := (place p s.load req).2
                reqs := update s.reqs i (s.reqs i + 1)
                nbs := s.nbs })

/-- A reference to an IRQ that fits, and the entry in sysfs. -/
theorem outcome_shared (h : Kept p s) {load : ℕ → ℕ} (hload : LoadAfter p s req env load)
    (hfits : Fits p s req i x)
    (hpick : affinityPick p s req env = (.ok i, (mlx5IrqGetLocked { s with load := load } i).2)) :
    Outcome p s req env (mlx5IrqAffinityRequest p s req env) := by
  have hpos := (h.live i x hfits.1).2.1
  rw [get_eq (s := { s with load := load }) hfits.1 hpos] at hpick
  rw [mlx5IrqAffinityRequest, hpick]
  cases hsf : p.sf with
  | false => exact .shared hload hfits
  | true =>
    cases he : env.sysfs with
    | none => exact .shared hload hfits
    | some e =>
      have hne : ¬x.refcount + 1 = 1 := by omega
      simp only [put_eq (setSlot_self _ _ _), if_neg hne, setSlot_twice, Int.add_sub_cancel]
      rw [setSlot_old (s := { s with load := load }) hfits.1]
      exact .failed e hload

/-- STEP: a request comes to one of the outcomes. -/
theorem request_outcome (h : Kept p s) (req : Mask) (env : Env) :
    Outcome p s req env (mlx5IrqAffinityRequest p s req env) := by
  -- a request that does not find an IRQ below the threshold
  have hcreate : Creates p s req → affinityPick p s req env =
      requestNew p s req env (irqPoolFindLeastLoaded p s req) →
      Outcome p s req env (mlx5IrqAffinityRequest p s req env) := by
    intro hnew hpick
    have herror : ∀ e load, LoadAfter p s req env load →
        irqPoolRequestIrq p s req env = (.error e, { s with load := load }) →
        Outcome p s req env (mlx5IrqAffinityRequest p s req env) := by
      intro e load hload hreq
      unfold requestNew at hpick
      rw [hreq] at hpick
      cases hf : irqPoolFindLeastLoaded p s req with
      | none =>
        rw [hf] at hpick
        rw [mlx5IrqAffinityRequest, hpick]
        exact .failed e hload
      | some i =>
        rw [hf] at hpick
        obtain ⟨x, hx⟩ := find_fits hf
        exact outcome_shared h hload hx hpick
    rcases request_cases p s req env with ⟨e, hreq⟩ | ⟨i, hx, ⟨e, ha, hreq⟩ | ⟨ha, hreq⟩⟩
    · exact herror e s.load (.inl rfl) hreq
    · have hl : Leaks p s req env := ⟨hnew, ⟨i, hx⟩, .inl (by rw [ha]; exact Option.some_ne_none e)⟩
      exact herror e _ (.inr ⟨hl, rfl⟩) hreq
    · obtain ⟨hempty, hle⟩ := xaAlloc_ok hx
      unfold requestNew at hpick
      rw [hreq] at hpick
      rw [mlx5IrqAffinityRequest, hpick]
      cases hsf : p.sf with
      | false => exact .created hnew hempty hle
      | true =>
        cases he : env.sysfs with
        | none => exact .created hnew hempty hle
        | some e =>
          have hl : Leaks p s req env :=
            ⟨hnew, ⟨i, hx⟩, .inr ⟨hsf, by rw [he]; exact Option.some_ne_none e⟩⟩
          simp only [put_eq (setSlot_self _ _ _), if_true, setSlot_twice]
          rw [setSlot_old (s := { s with load := (place p s.load req).2 }) hempty]
          exact .failed e (.inr ⟨hl, rfl⟩)
  cases hf : irqPoolFindLeastLoaded p s req with
  | none =>
    refine hcreate (fun i hi => by rw [hf] at hi; cases hi) ?_
    simp only [affinityPick, hf]
  | some i =>
    by_cases hlt : mlx5IrqReadLocked s i < p.minThreshold
    · obtain ⟨x, hx⟩ := find_fits hf
      refine outcome_shared h (.inl rfl) hx ?_
      simp only [affinityPick, hf, if_pos hlt]
    · refine hcreate (fun j hj => ?_) ?_
      · rw [hf] at hj
        obtain rfl := Option.some.inj hj
        exact hlt
      · simp only [affinityPick, hf, if_neg hlt]

end Kept

section Steps
variable {p : Pool} {s : St} {i : ℕ} {x : Irq} {req : Mask} {env : Env}

/-- An index with references has an IRQ. -/
theorem Kept.irq (h : Kept p s) (hpos : 0 < s.reqs i + s.nbs i) : ∃ x, s.slots i = .irq x := by
  by_contra hno
  have := (h.gone i fun x hx => hno ⟨x, hx⟩).2
  omega

/-- STEP: a request keeps the references. -/
theorem Kept.request (h : Kept p s) {r : Except ℕ ℕ × St} (ho : Outcome p s req env r) :
    Kept p r.2 := by
  cases ho with
  | failed e hload => exact h.congr_load _
  | @shared i x load hload hfits =>
    obtain ⟨hle, hpos, hcount⟩ := h.live i x hfits.1
    refine h.change (i := i) (fun j hj => ⟨?_, ?_, rfl⟩)
      (.inl ⟨_, update_self _ _ _, hle, ?_, ?_⟩)
    · exact update_of_ne hj _ _
    · exact update_of_ne hj _ _
    · simp only
      omega
    · simp only [update_self]
      omega
  | @created i hnew hempty hle =>
    have hzero := (h.gone i fun x hx => by rw [hempty] at hx; cases hx).2
    refine h.change (i := i) (fun j hj => ⟨?_, ?_, rfl⟩)
      (.inl ⟨_, update_self _ _ _, hle, ?_, ?_⟩)
    · exact update_of_ne hj _ _
    · exact update_of_ne hj _ _
    · exact Int.one_pos
    · simp only [update_self]
      omega

/-- A reference of a request or of a notifier is dropped. -/
theorem Kept.put (h : Kept p s) (hx : s.slots i = .irq x) {reqs nbs : ℕ → ℕ}
    (hother : ∀ j, j ≠ i → reqs j = s.reqs j ∧ nbs j = s.nbs j)
    (hless : reqs i + nbs i + 1 = s.reqs i + s.nbs i) :
    Kept p (mlx5IrqPut { s with reqs := reqs, nbs := nbs } i).2 := by
  obtain ⟨hle, hpos, hcount⟩ := h.live i x hx
  rw [put_eq (s := { s with reqs := reqs, nbs := nbs }) hx]
  refine h.change (i := i) (fun j hj => ⟨setSlot_of_ne _ _ hj, hother j hj⟩) ?_
  by_cases h1 : x.refcount = 1
  · simp only [if_pos h1]
    refine .inr ⟨setSlot_self _ _ _, ?_⟩
    change reqs i + nbs i = 0
    omega
  · simp only [if_neg h1]
    refine .inl ⟨_, setSlot_self _ _ _, hle, ?_, ?_⟩
    · simp only
      omega
    · change x.refcount - 1 = ((reqs i + nbs i : ℕ) : ℤ)
      omega

theorem release_put (hx : s.slots i = .irq x) : ∃ load,
    mlx5IrqAffinityIrqRelease p s i = { (mlx5IrqPut
      { s with reqs := update s.reqs i (s.reqs i - 1) } i).2 with load := load } ∧
    load = if x.refcount = 1 ∧ p.perCpu = true then cpuPut s.load (cpumaskFirst p x.mask)
      else s.load := by
  refine ⟨_, ?_, rfl⟩
  unfold mlx5IrqAffinityIrqRelease
  simp only [hx]
  rw [put_eq (s := { s with reqs := update s.reqs i (s.reqs i - 1) }) hx]
  by_cases h1 : x.refcount = 1
  · by_cases hp : p.perCpu = true
    · simp only [h1, hp, decide_true, if_true, and_self, setSlot]
    · simp only [h1, hp, decide_true, and_false, if_false, setSlot, Bool.false_eq_true]
  · simp only [h1, decide_false, if_false, false_and, setSlot]

/-- STEP: every call keeps the references. -/
theorem kept_step (h : Kept p s) : ∀ {o : Op}, Allowed p s o → Kept p (step p s o)
  | .request req env, _ => h.request (request_outcome h req env)
  | .release i, ha => by
    have ha : 0 < s.reqs i := ha
    obtain ⟨x, hx⟩ := h.irq (i := i) (by omega)
    obtain ⟨load, hrel, -⟩ := release_put (p := p) hx
    rw [step, hrel]
    refine (h.put hx (fun j hj => ⟨update_of_ne hj _ _, rfl⟩) ?_).congr_load load
    rw [update_self]
    omega
  | .attach i register, ha => by
    obtain ⟨x, hx⟩ := h.irq ha
    obtain ⟨hle, hpos, hcount⟩ := h.live i x hx
    rw [step, mlx5IrqAttachNb, get_eq hx hpos]
    cases register with
    | some e =>
      have hne : ¬x.refcount + 1 = 1 := by omega
      simp only [put_eq (setSlot_self _ _ _), if_neg hne, setSlot_twice, Int.add_sub_cancel]
      rwa [setSlot_old hx]
    | none =>
      refine h.change (i := i) (fun j hj => ⟨?_, rfl, ?_⟩)
        (.inl ⟨_, setSlot_self _ _ _, hle, ?_, ?_⟩)
      · exact setSlot_of_ne _ _ hj
      · exact update_of_ne hj _ _
      · simp only
        omega
      · simp only [setSlot, update_self]
        omega
  | .detach i, ha => by
    have ha : 0 < s.nbs i := ha
    obtain ⟨x, hx⟩ := h.irq (i := i) (by omega)
    refine h.put hx (fun j hj => ⟨rfl, update_of_ne hj _ _⟩) ?_
    rw [update_self]
    omega

theorem kept_start : Kept p start :=
  ⟨fun _ _ h => Slot.noConfusion h, fun _ _ => ⟨rfl, rfl⟩⟩

/-- The pool placed the IRQ of the index on the CPU. -/
def PlacedOn (p : Pool) (s : St) (c i : ℕ) : Prop :=
  match s.slots i with
  | .irq x => cpumaskFirst p x.mask = c
  | _ => False

instance (p : Pool) (s : St) (c : ℕ) : DecidablePred (PlacedOn p s c) := fun i => by
  unfold PlacedOn
  cases s.slots i <;> infer_instance

/-- The IRQs that the pool placed on the CPU. -/
def placedCount (p : Pool) (s : St) (c : ℕ) : ℕ := Nat.count (PlacedOn p s c) (p.max + 1)

/-- `irqs_per_cpu` counts the IRQs that are placed on each CPU. -/
def Loaded (p : Pool) (s : St) : Prop := p.perCpu = true → ∀ c, s.load c = placedCount p s c

theorem placedCount_lt (p : Pool) (s : St) (c : ℕ) : placedCount p s c < 2 ^ 16 - 1 :=
  (Nat.count_le (p := PlacedOn p s c) (n := p.max + 1)).trans_lt
    (by have := p.maxLt; omega)

end Steps

section Load
variable {p : Pool} {s s' : St} {i : ℕ} {x : Irq} {req : Mask} {env : Env}

theorem placedOn_irq {c : ℕ} (hx : s.slots i = .irq x) :
    PlacedOn p s c i ↔ cpumaskFirst p x.mask = c := by
  unfold PlacedOn
  rw [hx]

theorem placedOn_empty {c : ℕ} (hx : s.slots i = .empty) : ¬PlacedOn p s c i := by
  unfold PlacedOn
  rw [hx]
  exact id

theorem placedOn_congr {c : ℕ} (h : s'.slots i = s.slots i) :
    PlacedOn p s' c i ↔ PlacedOn p s c i := by
  unfold PlacedOn
  rw [h]

/-- More or fewer references move no IRQ. -/
theorem placedCount_same (hx : s.slots i = .irq x) {r : ℤ}
    (hi : s'.slots i = .irq { x with refcount := r })
    (hother : ∀ j, j ≠ i → s'.slots j = s.slots j) (c : ℕ) :
    placedCount p s' c = placedCount p s c := by
  refine count_congr fun j _ => ?_
  by_cases he : j = i
  · subst he
    rw [placedOn_irq hi, placedOn_irq hx]
  · exact placedOn_congr (hother j he)

/-- An IRQ more on one CPU. -/
theorem placedCount_new (hle : i ≤ p.max) (hempty : s.slots i = .empty)
    (hi : s'.slots i = .irq x) (hother : ∀ j, j ≠ i → s'.slots j = s.slots j) (c : ℕ) :
    placedCount p s' c = placedCount p s c + if c = cpumaskFirst p x.mask then 1 else 0 := by
  split_ifs with hc
  · exact count_insert (placedOn_empty hempty) ((placedOn_irq hi).mpr hc.symm)
      (fun j hj => (placedOn_congr (hother j hj)).symm) (Nat.lt_succ_of_le hle)
  · refine count_congr fun j _ => ?_
    by_cases he : j = i
    · subst he
      rw [placedOn_irq hi]
      exact iff_of_false (fun h => hc h.symm) (placedOn_empty hempty)
    · exact placedOn_congr (hother j he)

/-- The count of one CPU goes up. -/
theorem cpuGet_eq {load : ℕ → ℕ} {cpu : ℕ} (h : load cpu < 2 ^ 16 - 1) (c : ℕ) :
    cpuGet load cpu c = load c + if c = cpu then 1 else 0 := by
  unfold cpuGet
  by_cases hc : c = cpu
  · subst hc
    rw [update_self, if_pos rfl]
    exact toU_of_lt (by omega)
  · rw [update_of_ne hc, if_neg hc, Nat.add_zero]

/-- The count of one CPU goes down. -/
theorem cpuPut_eq {load : ℕ → ℕ} {cpu : ℕ} (h : load cpu < 2 ^ 16) (hpos : 0 < load cpu) (c : ℕ) :
    cpuPut load cpu c + (if c = cpu then 1 else 0) = load c := by
  unfold cpuPut
  by_cases hc : c = cpu
  · subst hc
    rw [update_self, if_pos rfl]
    have hsub : toU 16 ((load c : ℤ) - 1) = load c - 1 := by
      exact_mod_cast toU_sub h hpos
    rw [hsub]
    omega
  · rw [update_of_ne hc, if_neg hc, Nat.add_zero]

/-- What a call must not do in a pool that counts: fail after the index of a new IRQ is reserved, or
    drop the last reference as a notifier. -/
def Accounted (p : Pool) (s : St) : Op → Prop
  | .request req env => p.perCpu = true → ¬Leaks p s req env
  | .detach i => p.perCpu = true → s.reqs i + s.nbs i ≠ 1
  | _ => True

theorem load_after (ha : Accounted p s (.request req env)) {load : ℕ → ℕ}
    (h : LoadAfter p s req env load) : load = s.load := by
  rcases h with rfl | ⟨hleak, rfl⟩
  · rfl
  · rw [place_load]
    by_cases hp : p.perCpu = true
    · exact absurd hleak (ha hp)
    · rw [if_neg hp]

/-- STEP: the counts follow a request. -/
theorem Loaded.request (hl : Loaded p s) (ha : Accounted p s (.request req env))
    {r : Except ℕ ℕ × St} (ho : Outcome p s req env r) : Loaded p r.2 := by
  intro hp c
  cases ho with
  | failed e hload =>
    rw [load_after ha hload]
    exact hl hp c
  | shared hload hfits =>
    rw [load_after ha hload]
    refine (hl hp c).trans (placedCount_same hfits.1 (update_self _ _ _) ?_ c).symm
    exact fun j hj => update_of_ne hj _ _
  | created hnew hempty hle =>
    rw [placedCount_new hle hempty (update_self _ _ _)
      (fun j hj => update_of_ne hj _ _) c, ← hl hp c]
    simp only
    rw [place_load, if_pos hp, cpuGet_eq]
    rw [hl hp]
    exact placedCount_lt p s _

/-- The last reference to an IRQ is dropped, and its CPU has one IRQ less. -/
theorem placedCount_gone (hk : Kept p s) (hx : s.slots i = .irq x) (hi : s'.slots i = .empty)
    (hother : ∀ j, j ≠ i → s'.slots j = s.slots j) (c : ℕ) :
    placedCount p s c = placedCount p s' c + if c = cpumaskFirst p x.mask then 1 else 0 :=
  placedCount_new (hk.live i x hx).1 hi hx (fun j hj => (hother j hj).symm) c

/-- STEP: the counts follow every call that is accounted for. -/
theorem loaded_step (hk : Kept p s) (hl : Loaded p s) : ∀ {o : Op}, Allowed p s o →
    Accounted p s o → Loaded p (step p s o)
  | .request req env, _, ha => hl.request ha (request_outcome hk req env)
  | .release i, hal, _ => by
    have hal : 0 < s.reqs i := hal
    obtain ⟨x, hx⟩ := hk.irq (i := i) (by omega)
    obtain ⟨load, hrel, hload⟩ := release_put (p := p) hx
    rw [step, hrel, put_eq (s := { s with reqs := update s.reqs i (s.reqs i - 1) }) hx]
    intro hp c
    simp only [hp, and_true] at hload
    change load c = placedCount p _ c
    by_cases h1 : x.refcount = 1
    · simp only [if_pos h1]
      rw [if_pos h1] at hload
      have hgone : ∀ c, placedCount p s c = placedCount p (setSlot s i .empty) c +
          if c = cpumaskFirst p x.mask then 1 else 0 :=
        placedCount_gone hk hx (setSlot_self _ _ _) fun j hj => setSlot_of_ne _ _ hj
      have hpos : 0 < s.load (cpumaskFirst p x.mask) := by
        rw [hl hp, hgone, if_pos rfl]
        exact Nat.succ_pos _
      have hlt : s.load (cpumaskFirst p x.mask) < 2 ^ 16 := by
        rw [hl hp]
        exact (placedCount_lt p s _).trans (by decide)
      have hput := cpuPut_eq hlt hpos c
      rw [hl hp c, hgone c, ← hload] at hput
      exact Nat.add_right_cancel hput
    · simp only [if_neg h1]
      rw [if_neg h1] at hload
      rw [hload, hl hp c]
      exact (placedCount_same hx (setSlot_self _ _ _) (fun j hj => setSlot_of_ne _ _ hj) c).symm
  | .attach i register, hal, _ => by
    obtain ⟨x, hx⟩ := hk.irq hal
    obtain ⟨hle, hpos, hcount⟩ := hk.live i x hx
    rw [step, mlx5IrqAttachNb, get_eq hx hpos]
    cases register with
    | some e =>
      have hne : ¬x.refcount + 1 = 1 := by omega
      simp only [put_eq (setSlot_self _ _ _), if_neg hne, setSlot_twice, Int.add_sub_cancel]
      rwa [setSlot_old hx]
    | none =>
      intro hp c
      refine (hl hp c).trans (placedCount_same hx (setSlot_self _ _ _) ?_ c).symm
      exact fun j hj => setSlot_of_ne _ _ hj
  | .detach i, hal, ha => by
    have hal : 0 < s.nbs i := hal
    obtain ⟨x, hx⟩ := hk.irq (i := i) (by omega)
    obtain ⟨hle, hpos, hcount⟩ := hk.live i x hx
    intro hp c
    have h1 : ¬x.refcount = 1 := by
      have := ha hp
      omega
    rw [step, mlx5IrqDetachNb, put_eq (s := { s with nbs := update s.nbs i (s.nbs i - 1) }) hx]
    simp only [if_neg h1]
    refine (hl hp c).trans (placedCount_same hx (setSlot_self _ _ _) ?_ c).symm
    exact fun j hj => setSlot_of_ne _ _ hj

/-- What is meant to hold of a request: an error leaves everything as it is; the IRQ of a request
    has no other CPUs than the requested ones if any of these is online, and it is a new one only
    where all that fit have reached the threshold. -/
def Served (p : Pool) (s : St) (req : Mask) : Except ℕ ℕ × St → Prop
  | (.error _, s') => s' = s
  | (.ok i, s') => ∃ x, s'.slots i = .irq x ∧
      ((∃ c < p.nr, req c = true ∧ p.online c = true) → cpumaskSubset p x.mask req = true) ∧
      (s.slots i = .empty → ∀ j y, p.min ≤ j → j ≤ p.max → Fits p s req j y →
        p.minThreshold ≤ y.refcount)

/-- STEP: a request that is accounted for is served. -/
theorem served_request (hk : Kept p s) (ha : Accounted p s (.request req env)) :
    Served p s req (mlx5IrqAffinityRequest p s req env) := by
  have ho := request_outcome hk req env
  generalize mlx5IrqAffinityRequest p s req env = r at ho
  cases ho with
  | failed e hload =>
    rw [load_after ha hload]
    rfl
  | shared hload hfits =>
    refine ⟨_, update_self _ _ _, fun _ => hfits.2, fun hempty => ?_⟩
    rw [hfits.1] at hempty
    cases hempty
  | created hnew hempty hle =>
    refine ⟨_, update_self _ _ _, place_subset s.load, fun _ j y hmin hmax hy => ?_⟩
    exact fits_reached hnew hmin hmax hy

/-- CORRECT: in every run in which no request fails after the index of a new IRQ is reserved and no
    notifier drops the last reference, the references and the counts of the CPUs are right in every
    state, and every such request is served. -/
theorem irq_pool_accounting
    (h : Reach (step p) (fun s o => Allowed p s o ∧ Accounted p s o) start s) :
    Kept p s ∧ Loaded p s ∧ ∀ req env, Allowed p s (.request req env) →
      Accounted p s (.request req env) → Served p s req (mlx5IrqAffinityRequest p s req env) := by
  have hstart : Kept p start ∧ Loaded p start :=
    ⟨kept_start, fun _ c => (Nat.count_iff_forall_not.mpr fun i _ => placedOn_empty rfl).symm⟩
  have hinv : Kept p s ∧ Loaded p s :=
    @Reach.invariant _ _ _ _ _ _ (fun s => Kept p s ∧ Loaded p s) h hstart fun s o ho hs =>
      ⟨kept_step hs.1 ho.1, loaded_step hs.1 hs.2 ho.1 ho.2⟩
  exact ⟨hinv.1, hinv.2, fun req env _ ha => served_request hinv.1 ha⟩

end Load

section Runs

instance (p : Pool) (s : St) : ∀ o, Decidable (Allowed p s o)
  | .request req _ => inferInstanceAs (Decidable (∃ c < p.nr, req c = true))
  | .release i => inferInstanceAs (Decidable (0 < s.reqs i))
  | .attach i _ => inferInstanceAs (Decidable (0 < s.reqs i + s.nbs i))
  | .detach i => inferInstanceAs (Decidable (0 < s.nbs i))

/-- A pool of two IRQs on two CPUs. -/
def twoCpus : Pool :=
  ⟨0, 1, by decide, 2, true, true, 2, fun _ => true, none, 0, by decide, rfl⟩

/-- A request for both CPUs. -/
def both (irqAlloc sysfs : Option ℕ) : Op := .request (fun _ => true) ⟨none, irqAlloc, sysfs⟩

/-- Two requests share an IRQ, and a notifier comes and goes. -/
theorem irq_pool_accounting_demo :
    Kept twoCpus ([both none none, both none none, .attach 0 none, .detach 0, .release 0].foldl
      (step twoCpus) start) := by
  have hok : ∀ s, Accounted twoCpus s (both none none) := by
    rintro s - ⟨-, -, h | ⟨-, h⟩⟩ <;> exact h rfl
  have hruns : Runs (step twoCpus) (fun s o => Allowed twoCpus s o ∧ Accounted twoCpus s o) start
      [both none none, both none none, .attach 0 none, .detach 0, .release 0] :=
    ⟨⟨by decide, hok _⟩, ⟨by decide, hok _⟩, ⟨by decide, trivial⟩,
      ⟨by decide, fun _ => by decide⟩, ⟨by decide, trivial⟩, trivial⟩
  exact (irq_pool_accounting (Reach.start.runs hruns)).1

/-- A run without misuse that ends with a count that is wrong. -/
def Miscounts (l : List Op) : Prop :=
  Runs (step twoCpus) (Allowed twoCpus) start l ∧ ¬Loaded twoCpus (l.foldl (step twoCpus) start)

/-- BROKEN: the count of CPU 0 stays up when the IRQ of a request cannot be set up, when its entry
    in sysfs fails, and when the last reference is that of a notifier. -/
theorem irq_pool_accounting_broken :
    Miscounts [both (some 12) none] ∧ Miscounts [both none (some 12)] ∧
      Miscounts [both none none, .attach 0 none, .release 0, .detach 0] := by
  have hcount : ∀ l : List Op, (l.foldl (step twoCpus) start).load 0 ≠
      placedCount twoCpus (l.foldl (step twoCpus) start) 0 →
      ¬Loaded twoCpus (l.foldl (step twoCpus) start) := fun l hne h => hne (h rfl 0)
  exact ⟨⟨by decide, hcount _ (by decide)⟩, ⟨by decide, hcount _ (by decide)⟩,
    by decide, hcount _ (by decide)⟩

end Runs

end RdmaDriver.IrqPool
