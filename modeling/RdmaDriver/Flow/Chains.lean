import RdmaDriver.Basic
import RdmaDriver.Schemes.Run
import Mathlib.Data.List.Sort

/-! @src mlx5/core/lib/fs_chains.c | name:flow table chains | scheme:run | family:refcount

    A chain has a table for each priority and level that is in use, and the table is there as long as
    it was got more often than put. Each table has a rule for packets that nothing in it matches, to
    the level 0 table of the next priority. A get of a level gets all levels below it first, each of
    which gets those below it, and a put undoes that in the other order. When a level 0 table comes or
    goes, all tables of the priority before it get a new rule first and lose the old one then.

        (3,0)--→(5,0)--→(7,0)--→ end
        (3,1)--↗        ↗
                (5,1)--+                                                                  -/

namespace RdmaDriver.FsChains
open Schemes Function
open List (append_nil erase_cons_head forall_mem_cons length_cons length_reverse map_nil
  map_reverse mem_append mem_append_right mem_cons mem_cons_self mem_map mem_map_of_mem
  mem_reverse ne_nil_of_mem pairwise_append pairwise_cons pairwise_map)

/-- `FDB_TC_MAX_CHAIN`, `FDB_TC_MAX_PRIO`, `FDB_TC_LEVELS_PER_PRIO`. -/
def fdbTcMaxChain : ℕ := 3
def fdbTcMaxPrio : ℕ := 16
def fdbTcLevelsPerPrio : ℕ := 2

/-- What does not change of `struct mlx5_fs_chains`. -/
structure Attr where
  priosSupported : Bool
  ignoreFlowLevel : Bool
  offloads : Bool
  chainsDefaultFt : ℕ
  chainsEndFt : ℕ

/-- `struct prio`. The miss rule is named by the table it leads to. -/
structure Prio where
  prio : ℕ
  level : ℕ
  ref : ℕ
  ft : ℕ
  nextFt : ℕ
  missRule : ℕ
  deriving DecidableEq

/-- `struct fs_chain`. -/
structure FsChain where
  ref : ℕ
  priosList : List Prio

/-- `struct mlx5_fs_chains`: the hash of chains, with the lists that have all that is in the hash of
    priorities; and what there is of tables, miss groups and miss rules. `tick` counts what was asked of
    others, `inBounds` is false when `miss_rules` was indexed past its end. -/
@[ext] structure State where
  chain : ℕ → Option FsChain
  table : ℕ → Bool
  group : ℕ → Bool
  rules : ℕ → List ℕ
  next : ℕ
  tick : ℕ
  inBounds : Bool

/-- `mlx5_chains_get_chain_range`. -/
def Attr.chainRange (a : Attr) : ℕ :=
  if !a.priosSupported then 1 else if a.ignoreFlowLevel then 2 ^ 32 - 2 else fdbTcMaxChain

/-- `mlx5_chains_get_nf_ft_chain`. -/
def Attr.nfFtChain (a : Attr) : ℕ := a.chainRange + 1

/-- `mlx5_chains_get_prio_range`. -/
def Attr.prioRange (a : Attr) : ℕ :=
  if a.ignoreFlowLevel then 2 ^ 32 - 1 else if !a.offloads then 1 else fdbTcMaxPrio

/-- `mlx5_chains_get_level_range`. -/
def Attr.levelRange (a : Attr) : ℕ :=
  if a.ignoreFlowLevel then 2 ^ 32 - 1 else fdbTcLevelsPerPrio

/-- The default miss of a chain. -/
def Attr.chainEnd (a : Attr) (chain : ℕ) : ℕ :=
  if chain = a.nfFtChain then a.chainsDefaultFt else a.chainsEndFt

/-- The list of a chain. -/
def State.prios (s : State) (chain : ℕ) : List Prio :=
  match s.chain chain with
  | some cs => cs.priosList
  | none => []

/-- Something was asked for. -/
def State.ask (s : State) : State := { s with tick := s.tick + 1 }

/-- The list of a chain is written. -/
def State.setPrios (s : State) (chain : ℕ) (l : List Prio) : State :=
  match s.chain chain with
  | some cs => { s with chain := update s.chain chain (some { cs with priosList := l }) }
  | none => s

/-- `mlx5_chains_get_chain`; false for an error. -/
def getChain (fail : ℕ → Bool) (s : State) (chain : ℕ) : State × Bool :=
  match s.chain chain with
  | some cs =>
    ({ s with chain := update s.chain chain (some { cs with ref := cs.ref + 1 }) }, true)
  | none =>
    if fail s.tick then (s.ask, false)
    else ({ s.ask with chain := update s.chain chain (some ⟨1, []⟩) }, true)

/-- `mlx5_chains_put_chain`. -/
def putChain (s : State) (chain : ℕ) : State :=
  match s.chain chain with
  | some cs =>
    { s with
      chain := update s.chain chain
        (if cs.ref - 1 = 0 then none else some { cs with ref := cs.ref - 1 }) }
  | none => s

/-- `mlx5_chains_add_miss_rule`. -/
def addMissRule (fail : ℕ → Bool) (s : State) (ft nextFt : ℕ) : State × Bool :=
  if fail s.tick then (s.ask, false)
  else ({ s.ask with rules := update s.rules ft (nextFt :: s.rules ft) }, true)

/-- `mlx5_del_flow_rules` of a miss rule. -/
def delRule (s : State) (ft missRule : ℕ) : State :=
  { s with rules := update s.rules ft ((s.rules ft).erase missRule) }

/-- The size of `miss_rules`. -/
def missRulesSize : ℕ := fdbTcLevelsPerPrio + 1

/-- The tables that `mlx5_chains_update_prio_prevs` goes over, in its order: back to the level 0 table of
    the priority before. -/
def prevs : List Prio → List Prio
  | [] => []
  | p :: l => p :: if p.level = 0 then [] else prevs l

/-- The first loop of `mlx5_chains_update_prio_prevs`; where a rule fails those before it are deleted,
    the last one first. -/
def addMissRules (fail : ℕ → Bool) (nextFt : ℕ) : ℕ → List Prio → State → State × Bool
  | _, [], s => (s, true)
  | n, p :: l, s =>
    match addMissRule fail { s with inBounds := s.inBounds && decide (n < missRulesSize) } p.ft
      nextFt with
    | (s, false) => (s, false)
    | (s, true) =>
      match addMissRules fail nextFt (n + 1) l s with
      | (s, false) => (delRule s p.ft nextFt, false)
      | (s, true) => (s, true)

/-- The rules that the second loop deletes. -/
def delOldRules : List Prio → State → State
  | [], s => s
  | p :: l, s => delOldRules l (delRule s p.ft p.missRule)

/-- An entry gets its new rule. -/
def Prio.point (p : Prio) (nextFt : ℕ) : Prio := { p with nextFt := nextFt, missRule := nextFt }

/-- The entries after the second loop, in its order. -/
def repoint (nextFt : ℕ) : List Prio → List Prio
  | [] => []
  | p :: l => p.point nextFt :: if p.level = 0 then l else repoint nextFt l

/-- `mlx5_chains_update_prio_prevs` for an entry with a level, and the entries before it; what it leaves
    of these. -/
def updatePrioPrevs (fail : ℕ → Bool) (s : State) (level : ℕ) (before : List Prio) (nextFt : ℕ) :
    State × List Prio × Bool :=
  if level ≠ 0 then (s, before, true)
  else
    match addMissRules fail nextFt 0 (prevs before.reverse) s with
    | (s, false) => (s, before, false)
    | (s, true) =>
      (delOldRules (prevs before.reverse) s, (repoint nextFt before.reverse).reverse, true)

/-- An entry is larger than a key. -/
def larger (prio level : ℕ) (p : Prio) : Bool :=
  prio < p.prio || (prio = p.prio && level < p.level)

/-- The table that a new entry leads to, by what is behind it. -/
def nextFt (chainEnd : ℕ) : List Prio → ℕ
  | [] => chainEnd
  | p :: _ => if p.level = 0 then p.ft else p.nextFt

/-- `mlx5_chains_create_table`, `mlx5_create_flow_group`, and what undoes them. -/
def createTable (fail : ℕ → Bool) (s : State) : State × Option ℕ :=
  if fail s.tick then (s.ask, none)
  else ({ s.ask with table := update s.table s.next true, next := s.next + 1 }, some s.next)

def createGroup (fail : ℕ → Bool) (s : State) (ft : ℕ) : State × Bool :=
  if fail s.tick then (s.ask, false)
  else ({ s.ask with group := update s.group ft true }, true)

def destroyGroup (s : State) (ft : ℕ) : State :=
  { s with group := update s.group ft false }

/-- `mlx5_destroy_flow_table`, and `mlx5_chains_put_chain`. -/
def dropTable (s : State) (chain ft : ℕ) : State :=
  putChain { s with table := update s.table ft false } chain

/-- `mlx5_chains_create_prio`; false for an error. -/
def createPrio (a : Attr) (fail : ℕ → Bool) (s : State) (chain prio level : ℕ) : State × Bool :=
  match getChain fail s chain with
  | (s, false) => (s, false)
  | (s, true) =>
    let before := (s.prios chain).takeWhile fun p => !larger prio level p
    let behind := (s.prios chain).dropWhile fun p => !larger prio level p
    let next := nextFt (a.chainEnd chain) behind
    -- the allocations of the entry
    if fail s.tick then (putChain s.ask chain, false)
    else
      match createTable fail s.ask with
      | (s, none) => (putChain s chain, false)
      | (s, some ft) =>
        match createGroup fail s ft with
        | (s, false) => (dropTable s chain ft, false)
        | (s, true) =>
          match addMissRule fail s ft next with
          | (s, false) => (dropTable (destroyGroup s ft) chain ft, false)
          | (s, true) =>
            -- the insertion in the hash
            if fail s.tick then
              (dropTable (destroyGroup (delRule s.ask ft next) ft) chain ft, false)
            else
              match updatePrioPrevs fail s.ask level before ft with
              | (s, _, false) => (dropTable (destroyGroup (delRule s ft next) ft) chain ft, false)
              | (s, before, true) =>
                (s.setPrios chain (before ++ ⟨prio, level, 0, ft, next, next⟩ :: behind), true)

/-- An entry has a key. -/
def Prio.hasKey (p : Prio) (prio level : ℕ) : Bool := p.prio = prio && p.level = level

/-- `mlx5_chains_destroy_prio`; a rule that fails is warned about. -/
def destroyPrio (fail : ℕ → Bool) (s : State) (chain prio level : ℕ) : State :=
  let before := (s.prios chain).takeWhile fun p => !p.hasKey prio level
  match (s.prios chain).dropWhile fun p => !p.hasKey prio level with
  | [] => s
  | e :: behind =>
    match updatePrioPrevs fail s level before e.nextFt with
    | (s, before, _) =>
      dropTable (destroyGroup (delRule (s.setPrios chain (before ++ behind)) e.ft e.missRule) e.ft)
        chain e.ft

/-- A reference count is written. -/
def State.modifyRef (s : State) (chain prio level : ℕ) (f : ℕ → ℕ) : State :=
  s.setPrios chain ((s.prios chain).map fun p =>
    if p.hasKey prio level then { p with ref := f p.ref } else p)

/-- The reference count of an entry, an `int`, goes up and down. -/
def incRef (ref : ℕ) : ℕ := (ref + 1) % 2 ^ 32

def decRef (ref : ℕ) : ℕ := (ref + (2 ^ 32 - 1)) % 2 ^ 32

/-- The lookup in the hash of priorities. -/
def State.lookup (s : State) (chain prio level : ℕ) : Option Prio :=
  (s.prios chain).find? fun p => p.hasKey prio level

/-- The part of `mlx5_chains_put_table` under the lock, for an entry that was found. -/
def putOne (fail : ℕ → Bool) (s : State) (chain prio level : ℕ) : State :=
  let s := s.modifyRef chain prio level decRef
  match s.lookup chain prio level with
  | some p => if p.ref = 0 then destroyPrio fail s chain prio level else s
  | none => s

/-- `mlx5_chains_put_table`, with the puts of the levels below it. -/
def putAt (fail : ℕ → Bool) (chain prio level : ℕ) (puts : State → State) (s : State) : State :=
  match s.lookup chain prio level with
  | none => s
  | some _ => puts (putOne fail s chain prio level)

/-- The puts of all levels below one, from the last one on. -/
def putPrevs (fail : ℕ → Bool) (chain prio : ℕ) : ℕ → State → State
  | 0, s => s
  | level + 1, s =>
    putPrevs fail chain prio level (putAt fail chain prio level (putPrevs fail chain prio level) s)

/-- `mlx5_chains_put_table`. -/
def mlx5ChainsPutTable (fail : ℕ → Bool) (s : State) (chain prio level : ℕ) : State :=
  putAt fail chain prio level (putPrevs fail chain prio level) s

/-- What fails: creations in `mlx5_chains_create_prio`, and rules in `mlx5_chains_destroy_prio`. -/
structure Env where
  create : ℕ → Bool
  destroy : ℕ → Bool

/-- The part of `mlx5_chains_get_table` under the lock. -/
def getOne (a : Attr) (e : Env) (s : State) (chain prio level : ℕ) : State × Bool :=
  match s.lookup chain prio level with
  | some _ => (s.modifyRef chain prio level incRef, true)
  | none =>
    match createPrio a e.create s chain prio level with
    | (s, false) => (s, false)
    | (s, true) => (s.modifyRef chain prio level incRef, true)

/-- The test of the ranges in `mlx5_chains_get_table`. -/
def Attr.admits (a : Attr) (chain prio level : ℕ) : Bool :=
  !((decide (a.chainRange < chain) && chain ≠ a.nfFtChain) || a.prioRange < prio ||
    a.levelRange < level)

/-- `mlx5_chains_get_table`, with the gets of the levels below it. -/
def getAt (a : Attr) (e : Env) (chain prio level : ℕ) (gets : State → State × Bool) (s : State) :
    State × Option ℕ :=
  if a.admits chain prio level = false then (s, none)
  else
    match gets s with
    | (s, false) => (s, none)
    | (s, true) =>
      match getOne a e s chain prio level with
      | (s, false) => (putPrevs e.destroy chain prio level s, none)
      | (s, true) => (s, (s.lookup chain prio level).map Prio.ft)

/-- The gets of all levels below one; where one fails those before it are put. -/
def getPrevs (a : Attr) (e : Env) (chain prio : ℕ) : ℕ → State → State × Bool
  | 0, s => (s, true)
  | level + 1, s =>
    match getPrevs a e chain prio level s with
    | (s, false) => (s, false)
    | (s, true) =>
      match getAt a e chain prio level (getPrevs a e chain prio level) s with
      | (s, none) => (putPrevs e.destroy chain prio level s, false)
      | (s, some _) => (s, true)

/-- `mlx5_chains_get_table`; none for an error. -/
def mlx5ChainsGetTable (a : Attr) (e : Env) (s : State) (chain prio level : ℕ) :
    State × Option ℕ :=
  getAt a e chain prio level (getPrevs a e chain prio level) s

/-! ### Lists of a chain -/

/-- The order of the entries. -/
def Prio.Below (p q : Prio) : Prop := p.prio < q.prio ∨ (p.prio = q.prio ∧ p.level < q.level)

/-- The table that packets of a priority go to when nothing matches: that of level 0 of the next
    priority in the list, or the end. -/
def IsNext (chainEnd : ℕ) (l : List Prio) (prio ft : ℕ) : Prop :=
  (∃ p ∈ l, p.level = 0 ∧ prio < p.prio ∧ (∀ q ∈ l, prio < q.prio → p.prio ≤ q.prio) ∧ ft = p.ft) ∨
    ((∀ p ∈ l, p.prio ≤ prio) ∧ ft = chainEnd)

/-- A list is sorted, with a level 0 for each priority, and each entry leads to the next priority. -/
structure ListOk (chainEnd : ℕ) (l : List Prio) : Prop where
  sorted : l.Pairwise Prio.Below
  based : ∀ p ∈ l, ∃ q ∈ l, q.prio = p.prio ∧ q.level = 0
  leads : ∀ p ∈ l, IsNext chainEnd l p.prio p.nextFt ∧ p.missRule = p.nextFt

section Lists

variable {chainEnd prio level ft ref : ℕ} {l l' l₁ l₂ : List Prio} {p q e : Prio}

theorem mem_middle : q ∈ l₁ ++ p :: l₂ ↔ q = p ∨ q ∈ l₁ ++ l₂ :=
  List.perm_middle.mem_iff.trans mem_cons

theorem Prio.Below.irrefl (p : Prio) : ¬ p.Below p := by
  unfold Prio.Below
  omega

theorem below_total (hs : l.Pairwise Prio.Below) (hp : p ∈ l) (hq : q ∈ l) :
    p = q ∨ p.Below q ∨ q.Below p := by
  induction hs with
  | nil => cases hp
  | @cons x l hx _ ih =>
    rcases mem_cons.mp hp with rfl | hp' <;> rcases mem_cons.mp hq with rfl | hq'
    · exact .inl rfl
    · exact .inr (.inl (hx q hq'))
    · exact .inr (.inr (hx p hp'))
    · exact ih hp' hq'

/-- Two entries of a sorted list with the same key are the same. -/
theorem eq_of_key (hs : l.Pairwise Prio.Below) (hp : p ∈ l) (hq : q ∈ l) (hprio : p.prio = q.prio)
    (hlevel : p.level = q.level) : p = q := by
  rcases below_total hs hp hq with heq | hlt | hlt
  · exact heq
  all_goals
    unfold Prio.Below at hlt
    omega

/-- What `prevs` takes of a sorted list: all entries of the last priority. -/
theorem prevs_stop : ∀ {l₂ l₁ : List Prio}, (∀ p ∈ l₂, p.level ≠ 0) → q.level = 0 →
    prevs (l₂ ++ q :: l₁) = l₂ ++ [q] ∧
      ∀ ft, repoint ft (l₂ ++ q :: l₁) = (l₂ ++ [q]).map (Prio.point · ft) ++ l₁
  | [], l₁, _, hq => by simp [prevs, repoint, hq]
  | p :: l₂, l₁, h, hq => by
    obtain ⟨hp, hl⟩ := forall_mem_cons.mp h
    obtain ⟨hprevs, hpoint⟩ := @prevs_stop _ l₁ hl hq
    constructor
    · change p :: (if p.level = 0 then [] else prevs (l₂ ++ q :: l₁)) = _
      rw [if_neg hp, hprevs]
      rfl
    · intro ft
      change p.point ft :: (if p.level = 0 then l₂ ++ q :: l₁ else repoint ft (l₂ ++ q :: l₁)) = _
      rw [if_neg hp, hpoint]
      rfl

/-- The tables before a new priority are those of the last one. -/
theorem prevs_split (hs : l.Pairwise Prio.Below)
    (hb : ∀ p ∈ l, ∃ q ∈ l, q.prio = p.prio ∧ q.level = 0) :
    ∃ l₁ l₂ last, l = l₁ ++ l₂ ∧ prevs l.reverse = l₂.reverse ∧
      (∀ ft, (repoint ft l.reverse).reverse = l₁ ++ l₂.map (Prio.point · ft)) ∧
      (∀ p ∈ l₁, p.prio < last) ∧ (∀ p ∈ l₂, p.prio = last) ∧ (l ≠ [] → l₂ ≠ []) := by
  rcases List.eq_nil_or_concat l with rfl | ⟨l₀, x, rfl⟩
  · exact ⟨[], [], 0, rfl, rfl, fun _ => rfl, by simp, by simp, fun h => h⟩
  rw [List.concat_eq_append] at hs hb ⊢
  obtain ⟨e, he, hprio, hlevel⟩ := hb x (by simp)
  obtain ⟨l₁, l₂, hl⟩ := List.append_of_mem he
  rw [hl] at hs ⊢
  obtain ⟨-, hs₂, hs₁⟩ := pairwise_append.mp hs
  have hs₂' := pairwise_cons.mp hs₂
  -- nothing is behind the last entry
  have hmax : ∀ p ∈ l₂, p.prio ≤ x.prio := by
    intro p hp
    have hpx : p ∈ l₀ ++ [x] := by
      rw [hl]
      simp [hp]
    rcases mem_append.mp hpx with hp₀ | hp₀
    · have hs' := hs
      rw [← hl] at hs'
      have hbelow := (pairwise_append.mp hs').2.2 p hp₀ x (List.mem_singleton_self x)
      unfold Prio.Below at hbelow
      omega
    · rw [List.mem_singleton.mp hp₀]
  have hlast : ∀ p ∈ l₂, p.prio = x.prio ∧ p.level ≠ 0 := by
    intro p hp
    have hbelow := hs₂'.1 p hp
    have hle := hmax p hp
    unfold Prio.Below at hbelow
    omega
  obtain ⟨hprevs, hpoint⟩ := @prevs_stop e l₂.reverse l₁.reverse
    (fun p hp => (hlast p (mem_reverse.mp hp)).2) hlevel
  have hrev : (l₁ ++ e :: l₂).reverse = l₂.reverse ++ e :: l₁.reverse := by simp
  refine ⟨l₁, e :: l₂, x.prio, rfl, ?_, fun ft => ?_, fun p hp => ?_, ?_, fun _ => by simp⟩
  · rw [hrev, hprevs, List.reverse_cons]
  · rw [hrev, hpoint]
    simp
  · have hbelow := hs₁ p hp e mem_cons_self
    unfold Prio.Below at hbelow
    omega
  · exact forall_mem_cons.mpr ⟨hprio, fun p hp => (hlast p hp).1⟩

/-- What matters of an entry for the others. -/
def SameShape (l l' : List Prio) : Prop :=
  ∀ p ∈ l, ∃ q ∈ l', q.prio = p.prio ∧ q.level = p.level ∧ q.ft = p.ft

theorem IsNext.congr (h : SameShape l l') (h' : SameShape l' l) (hn : IsNext chainEnd l prio ft) :
    IsNext chainEnd l' prio ft := by
  rcases hn with ⟨p, hp, hlevel, hlt, hmin, rfl⟩ | ⟨hmax, rfl⟩
  · obtain ⟨q, hq, hqp, hql, hqf⟩ := h p hp
    refine .inl ⟨q, hq, by omega, by omega, fun r hr hlt' => ?_, hqf.symm⟩
    obtain ⟨x, hx, hxp, -, -⟩ := h' r hr
    have hle := hmin x hx (by omega)
    omega
  · refine .inr ⟨fun q hq => ?_, rfl⟩
    obtain ⟨p, hp, hpq, -, -⟩ := h' q hq
    have hle := hmax p hp
    omega

theorem sameShape_point (l₁ l₂ l₃ : List Prio) (ft : ℕ) :
    SameShape (l₁ ++ l₂ ++ l₃) (l₁ ++ l₂.map (Prio.point · ft) ++ l₃) ∧
      SameShape (l₁ ++ l₂.map (Prio.point · ft) ++ l₃) (l₁ ++ l₂ ++ l₃) := by
  constructor
  · intro p hp
    rcases mem_append.mp hp with hp | hp
    · rcases mem_append.mp hp with hp | hp
      · exact ⟨p, by simp [hp], rfl, rfl, rfl⟩
      · exact ⟨p.point ft, by simp only [mem_append, mem_map]; exact .inl (.inr ⟨p, hp, rfl⟩),
          rfl, rfl, rfl⟩
    · exact ⟨p, by simp [hp], rfl, rfl, rfl⟩
  · intro p hp
    rcases mem_append.mp hp with hp | hp
    · rcases mem_append.mp hp with hp | hp
      · exact ⟨p, by simp [hp], rfl, rfl, rfl⟩
      · obtain ⟨q, hq, rfl⟩ := mem_map.mp hp
        exact ⟨q, by simp [hq], rfl, rfl, rfl⟩
    · exact ⟨p, by simp [hp], rfl, rfl, rfl⟩

/-- Entries that get a new rule keep their places. -/
theorem sorted_point {l₃ : List Prio} (hs : (l₁ ++ l₂ ++ l₃).Pairwise Prio.Below) (ft : ℕ) :
    (l₁ ++ l₂.map (Prio.point · ft) ++ l₃).Pairwise Prio.Below := by
  obtain ⟨hs₁₂, hs₃, hcross⟩ := pairwise_append.mp hs
  obtain ⟨hs₁, hs₂, hcross'⟩ := pairwise_append.mp hs₁₂
  refine pairwise_append.mpr ⟨pairwise_append.mpr ⟨hs₁, ?_, fun p hp q hq => ?_⟩, hs₃,
    fun p hp q hq => ?_⟩
  · exact pairwise_map.mpr hs₂
  · obtain ⟨r, hr, rfl⟩ := mem_map.mp hq
    exact hcross' p hp r hr
  · rcases mem_append.mp hp with hp | hp
    · exact hcross p (List.mem_append_left _ hp) q hq
    · obtain ⟨r, hr, rfl⟩ := mem_map.mp hp
      exact hcross r (mem_append_right _ hr) q hq

/-- The list is cut at the first larger entry. -/
theorem larger_split (hs : l.Pairwise Prio.Below) (hno : ∀ p ∈ l, ¬ (p.prio = prio ∧ p.level = level)) :
    (∀ p ∈ l.takeWhile fun p => !larger prio level p, p.prio < prio ∨ p.prio = prio ∧ p.level < level) ∧
      ∀ p ∈ l.dropWhile fun p => !larger prio level p,
        prio < p.prio ∨ prio = p.prio ∧ level < p.level := by
  induction hs with
  | nil => exact ⟨fun p hp => (by cases hp), fun p hp => (by cases hp)⟩
  | @cons x l hx hs ih =>
    obtain ⟨hxno, hlno⟩ := forall_mem_cons.mp hno
    obtain ⟨htake, hdrop⟩ := ih hlno
    rw [List.takeWhile_cons, List.dropWhile_cons]
    by_cases hlarge : larger prio level x = true
    · rw [if_neg (by simp [hlarge]), if_neg (by simp [hlarge])]
      have hlarge' : prio < x.prio ∨ prio = x.prio ∧ level < x.level := by
        simpa [larger] using hlarge
      refine ⟨fun p hp => (by cases hp), forall_mem_cons.mpr ⟨hlarge', fun p hp => ?_⟩⟩
      have hbelow := hx p hp
      unfold Prio.Below at hbelow
      omega
    · have hnot : ¬ (prio < x.prio ∨ prio = x.prio ∧ level < x.level) := by
        simpa [larger] using hlarge
      rw [if_pos (by simp [hlarge]), if_pos (by simp [hlarge])]
      exact ⟨forall_mem_cons.mpr ⟨by omega, htake⟩, hdrop⟩

/-- The new entry is in its place. -/
theorem sorted_insert (hs : (l₁ ++ l₂).Pairwise Prio.Below)
    (h₁ : ∀ p ∈ l₁, p.prio < e.prio ∨ p.prio = e.prio ∧ p.level < e.level)
    (h₂ : ∀ p ∈ l₂, e.prio < p.prio ∨ e.prio = p.prio ∧ e.level < p.level) :
    (l₁ ++ e :: l₂).Pairwise Prio.Below := by
  obtain ⟨hs₁, hs₂, hcross⟩ := pairwise_append.mp hs
  refine pairwise_append.mpr ⟨hs₁, pairwise_cons.mpr ⟨h₂, hs₂⟩, fun p hp q hq => ?_⟩
  rcases mem_cons.mp hq with rfl | hq
  · exact h₁ p hp
  · exact hcross p hp q hq

/-- The table that `mlx5_chains_create_prio` finds for the new entry is that of the next priority. -/
theorem nextFt_isNext (ok : ListOk chainEnd (l₁ ++ l₂))
    (h₁ : ∀ p ∈ l₁, p.prio < prio ∨ p.prio = prio ∧ p.level < level)
    (h₂ : ∀ p ∈ l₂, prio < p.prio ∨ prio = p.prio ∧ level < p.level) :
    IsNext chainEnd (l₁ ++ l₂) prio (nextFt chainEnd l₂) := by
  cases l₂ with
  | nil =>
    refine .inr ⟨fun p hp => ?_, rfl⟩
    rw [append_nil] at hp
    have hlt := h₁ p hp
    omega
  | cons b l₂ =>
    have hb := h₂ b mem_cons_self
    have hbin : b ∈ l₁ ++ b :: l₂ := by simp
    have hsb := pairwise_cons.mp (pairwise_append.mp ok.sorted).2.1
    -- everything with a larger priority is not before `b`
    have hmin : ∀ q ∈ l₁ ++ b :: l₂, prio < q.prio → q = b ∨ b.Below q := by
      intro q hq hlt
      rcases mem_append.mp hq with hq | hq
      · have hle := h₁ q hq
        omega
      · rcases mem_cons.mp hq with rfl | hq
        · exact .inl rfl
        · exact .inr (hsb.1 q hq)
    dsimp only [nextFt]
    split_ifs with hlevel
    · refine .inl ⟨b, hbin, hlevel, by omega, fun q hq hlt => ?_, rfl⟩
      rcases hmin q hq hlt with rfl | hbelow
      · exact le_rfl
      · unfold Prio.Below at hbelow
        omega
    · have hprio : b.prio = prio := by
        by_contra hne
        obtain ⟨z, hz, hzp, hzl⟩ := ok.based b hbin
        rcases hmin z hz (by omega) with rfl | hbelow
        · exact hlevel hzl
        · unfold Prio.Below at hbelow
          omega
      rw [← hprio]
      exact (ok.leads b hbin).1

/-- An entry above level 0 is put in. -/
theorem ListOk.insert_level (ok : ListOk chainEnd (l₁ ++ l₂)) (hlevel : e.level ≠ 0)
    (hzero : ∃ z ∈ l₁ ++ l₂, z.prio = e.prio ∧ z.level = 0)
    (h₁ : ∀ p ∈ l₁, p.prio < e.prio ∨ p.prio = e.prio ∧ p.level < e.level)
    (h₂ : ∀ p ∈ l₂, e.prio < p.prio ∨ e.prio = p.prio ∧ e.level < p.level)
    (hnext : e.nextFt = nextFt chainEnd l₂) (hrule : e.missRule = e.nextFt) :
    ListOk chainEnd (l₁ ++ e :: l₂) := by
  obtain ⟨z, hz, hzp, hzl⟩ := hzero
  have hmem : ∀ p, p ∈ l₁ ++ e :: l₂ ↔ p = e ∨ p ∈ l₁ ++ l₂ := by
    intro p
    simp only [mem_append, mem_cons]
    tauto
  -- the new entry has the priority of one that is there
  have hkeep : ∀ {prio ft}, IsNext chainEnd (l₁ ++ l₂) prio ft →
      IsNext chainEnd (l₁ ++ e :: l₂) prio ft := by
    rintro prio ft (⟨p, hp, hpl, hlt, hmin, rfl⟩ | ⟨hmax, rfl⟩)
    · refine .inl ⟨p, (hmem p).mpr (.inr hp), hpl, hlt, fun q hq hlt' => ?_, rfl⟩
      rcases (hmem q).mp hq with rfl | hq
      · have hle := hmin z hz (by omega)
        omega
      · exact hmin q hq hlt'
    · refine .inr ⟨fun q hq => ?_, rfl⟩
      rcases (hmem q).mp hq with rfl | hq
      · have hle := hmax z hz
        omega
      · exact hmax q hq
  refine ⟨sorted_insert ok.sorted h₁ h₂, fun p hp => ?_, fun p hp => ?_⟩
  · rcases (hmem p).mp hp with rfl | hp
    · exact ⟨z, (hmem z).mpr (.inr hz), hzp, hzl⟩
    · obtain ⟨q, hq, hqp⟩ := ok.based p hp
      exact ⟨q, (hmem q).mpr (.inr hq), hqp⟩
  · rcases (hmem p).mp hp with rfl | hp
    · exact ⟨hkeep (hnext ▸ nextFt_isNext ok h₁ h₂), hrule⟩
    · exact ⟨hkeep (ok.leads p hp).1, (ok.leads p hp).2⟩

/-- A level 0 entry is put in, and those of the priority before it are pointed to it. -/
theorem ListOk.insert_zero {last : ℕ} {l₃ : List Prio} (ok : ListOk chainEnd (l₁ ++ l₂ ++ l₃))
    (hlevel : e.level = 0) (hnone : l₁ ++ l₂ ≠ [] → l₂ ≠ []) (hl₁ : ∀ p ∈ l₁, p.prio < last)
    (hl₂ : ∀ p ∈ l₂, p.prio = last) (h₁ : ∀ p ∈ l₁ ++ l₂, p.prio < e.prio)
    (h₃ : ∀ p ∈ l₃, e.prio < p.prio) (hnext : e.nextFt = nextFt chainEnd l₃)
    (hrule : e.missRule = e.nextFt) :
    ListOk chainEnd (l₁ ++ l₂.map (Prio.point · e.ft) ++ e :: l₃) := by
  have hbefore : ∀ p ∈ l₁ ++ l₂, p.prio < e.prio ∨ p.prio = e.prio ∧ p.level < e.level := fun p hp =>
    .inl (h₁ p hp)
  have hbehind : ∀ p ∈ l₃, e.prio < p.prio ∨ e.prio = p.prio ∧ e.level < p.level := fun p hp =>
    .inl (h₃ p hp)
  obtain ⟨hshape, hshape'⟩ := sameShape_point l₁ l₂ (e :: l₃) e.ft
  have hmem : ∀ p, p ∈ l₁ ++ l₂ ++ e :: l₃ ↔ p = e ∨ p ∈ l₁ ++ l₂ ++ l₃ := by
    intro p
    simp only [mem_append, mem_cons]
    tauto
  have hsorted := sorted_insert ok.sorted hbefore hbehind
  -- behind the new priority nothing changes
  have hover : ∀ {prio ft}, e.prio ≤ prio → IsNext chainEnd (l₁ ++ l₂ ++ l₃) prio ft →
      IsNext chainEnd (l₁ ++ l₂ ++ e :: l₃) prio ft := by
    rintro prio ft hle (⟨p, hp, hpl, hlt, hmin, rfl⟩ | ⟨hmax, rfl⟩)
    · refine .inl ⟨p, (hmem p).mpr (.inr hp), hpl, hlt, fun q hq hlt' => ?_, rfl⟩
      rcases (hmem q).mp hq with rfl | hq
      · omega
      · exact hmin q hq hlt'
    · refine .inr ⟨fun q hq => ?_, rfl⟩
      rcases (hmem q).mp hq with rfl | hq
      · exact hle
      · exact hmax q hq
  -- before the last priority nothing changes
  have hunder : ∀ p ∈ l₁, ∀ {ft}, IsNext chainEnd (l₁ ++ l₂ ++ l₃) p.prio ft →
      IsNext chainEnd (l₁ ++ l₂ ++ e :: l₃) p.prio ft := by
    intro p hp ft hn
    obtain ⟨z, l₄, rfl⟩ := List.exists_cons_of_ne_nil
      (hnone (List.append_ne_nil_of_left_ne_nil (ne_nil_of_mem hp) l₂))
    have hz : z ∈ l₁ ++ z :: l₄ ++ l₃ := by simp
    have hzp : z.prio = last := hl₂ z mem_cons_self
    have hze := h₁ z (by simp)
    have hpl := hl₁ p hp
    rcases hn with ⟨q, hq, hql, hlt, hmin, rfl⟩ | ⟨hmax, rfl⟩
    · have hqz := hmin z hz (by omega)
      refine .inl ⟨q, (hmem q).mpr (.inr hq), hql, hlt, fun r hr hlt' => ?_, rfl⟩
      rcases (hmem r).mp hr with rfl | hr
      · omega
      · exact hmin r hr hlt'
    · have hle := hmax z hz
      omega
  have hlast : IsNext chainEnd (l₁ ++ l₂ ++ e :: l₃) last e.ft ∨ l₂ = [] := by
    rcases List.eq_nil_or_concat l₂ with hnil | ⟨l₄, z, hz⟩
    · exact .inr hnil
    · have hz' : z ∈ l₂ := by simp [hz]
      have hlt := h₁ z (mem_append_right _ hz')
      have hzp := hl₂ z hz'
      refine .inl (.inl ⟨e, (hmem e).mpr (.inl rfl), hlevel, by omega, fun q hq hlt' => ?_, rfl⟩)
      rcases (hmem q).mp hq with rfl | hq
      · exact le_rfl
      · rcases mem_append.mp hq with hq | hq
        · rcases mem_append.mp hq with hq | hq
          · have hqlt := hl₁ q hq
            omega
          · have hqp := hl₂ q hq
            omega
        · exact (h₃ q hq).le
  refine ⟨sorted_point hsorted e.ft, fun p hp => ?_, fun p hp => ?_⟩
  · obtain ⟨q, hq, hqp, hql, -⟩ := hshape' p hp
    have hbase : ∃ z ∈ l₁ ++ l₂ ++ e :: l₃, z.prio = q.prio ∧ z.level = 0 := by
      rcases (hmem q).mp hq with rfl | hq
      · exact ⟨q, (hmem q).mpr (.inl rfl), rfl, hlevel⟩
      · obtain ⟨z, hz, hzq⟩ := ok.based q hq
        exact ⟨z, (hmem z).mpr (.inr hz), hzq⟩
    obtain ⟨z, hz, hzp, hzl⟩ := hbase
    obtain ⟨y, hy, hyp, hyl, -⟩ := hshape z hz
    exact ⟨y, hy, by omega, by omega⟩
  · have hgoal : IsNext chainEnd (l₁ ++ l₂ ++ e :: l₃) p.prio p.nextFt ∧ p.missRule = p.nextFt := by
      rcases mem_append.mp hp with hp | hp
      · rcases mem_append.mp hp with hp | hp
        · have hleads := ok.leads p (by simp [hp])
          exact ⟨hunder p hp hleads.1, hleads.2⟩
        · obtain ⟨q, hq, rfl⟩ := mem_map.mp hp
          refine ⟨?_, rfl⟩
          have hn := hlast.resolve_right (ne_nil_of_mem hq)
          rw [← hl₂ q hq] at hn
          exact hn
      · rcases mem_cons.mp hp with rfl | hp
        · refine ⟨hover le_rfl ?_, hrule⟩
          rw [hnext]
          exact nextFt_isNext ok hbefore hbehind
        · have hleads := ok.leads p (by simp [hp])
          exact ⟨hover (h₃ p hp).le hleads.1, hleads.2⟩
    exact ⟨hgoal.1.congr hshape hshape', hgoal.2⟩

/-- An entry above level 0 is taken out. -/
theorem ListOk.remove_level (ok : ListOk chainEnd (l₁ ++ e :: l₂)) (hlevel : e.level ≠ 0) :
    ListOk chainEnd (l₁ ++ l₂) := by
  have hsub : (l₁ ++ l₂).Sublist (l₁ ++ e :: l₂) := (List.sublist_cons_self e l₂).append_left l₁
  have hmem : ∀ p ∈ l₁ ++ e :: l₂, p ≠ e → p ∈ l₁ ++ l₂ := by
    intro p hp hne
    simp only [mem_append, mem_cons] at hp ⊢
    tauto
  have hzero : ∀ p ∈ l₁ ++ e :: l₂, p.level = 0 → p ∈ l₁ ++ l₂ := by
    intro p hp hpl
    refine hmem p hp ?_
    rintro rfl
    exact hlevel hpl
  refine ⟨ok.sorted.sublist hsub, fun p hp => ?_, fun p hp => ?_⟩
  · obtain ⟨q, hq, hqp, hql⟩ := ok.based p (hsub.subset hp)
    exact ⟨q, hzero q hq hql, hqp, hql⟩
  · obtain ⟨hn, hrule⟩ := ok.leads p (hsub.subset hp)
    refine ⟨?_, hrule⟩
    rcases hn with ⟨q, hq, hql, hlt, hmin, heq⟩ | ⟨hmax, heq⟩
    · exact .inl ⟨q, hzero q hq hql, hql, hlt, fun r hr => hmin r (hsub.subset hr), heq⟩
    · exact .inr ⟨fun q hq => hmax q (hsub.subset hq), heq⟩

/-- A level 0 entry is taken out, and those of the priority before it are pointed behind it. -/
theorem ListOk.remove_zero {last : ℕ} {l₃ : List Prio} (ok : ListOk chainEnd (l₁ ++ l₂ ++ e :: l₃))
    (hnone : l₁ ++ l₂ ≠ [] → l₂ ≠ []) (hl₁ : ∀ p ∈ l₁, p.prio < last)
    (hl₂ : ∀ p ∈ l₂, p.prio = last) (h₁ : ∀ p ∈ l₁ ++ l₂, p.prio < e.prio)
    (h₃ : ∀ p ∈ l₃, e.prio < p.prio) :
    ListOk chainEnd (l₁ ++ l₂.map (Prio.point · e.nextFt) ++ l₃) := by
  have hsub : (l₁ ++ l₂ ++ l₃).Sublist (l₁ ++ l₂ ++ e :: l₃) :=
    (List.sublist_cons_self e l₃).append_left (l₁ ++ l₂)
  obtain ⟨hshape, hshape'⟩ := sameShape_point l₁ l₂ l₃ e.nextFt
  have hmem : ∀ p ∈ l₁ ++ l₂ ++ e :: l₃, p.prio ≠ e.prio → p ∈ l₁ ++ l₂ ++ l₃ := by
    intro p hp hne
    simp only [mem_append, mem_cons] at hp ⊢
    rcases hp with hp | rfl | hp
    · exact .inl hp
    · exact absurd rfl hne
    · exact .inr hp
  have hne : ∀ p ∈ l₁ ++ l₂ ++ l₃, p.prio ≠ e.prio := by
    intro p hp
    rcases mem_append.mp hp with hp | hp
    · exact (h₁ p hp).ne
    · exact (h₃ p hp).ne'
  have hkeep : ∀ {prio ft}, IsNext chainEnd (l₁ ++ l₂ ++ e :: l₃) prio ft →
      (∀ p ∈ l₁ ++ l₂ ++ e :: l₃, prio < p.prio → (∀ q ∈ l₁ ++ l₂ ++ e :: l₃, prio < q.prio →
        p.prio ≤ q.prio) → p.prio ≠ e.prio) → IsNext chainEnd (l₁ ++ l₂ ++ l₃) prio ft := by
    rintro prio ft (⟨p, hp, hpl, hlt, hmin, rfl⟩ | ⟨hmax, rfl⟩) hother
    · exact .inl ⟨p, hmem p hp (hother p hp hlt hmin), hpl, hlt, fun q hq => hmin q (hsub.subset hq), rfl⟩
    · exact .inr ⟨fun q hq => hmax q (hsub.subset hq), rfl⟩
  refine ⟨sorted_point (ok.sorted.sublist hsub) e.nextFt, fun p hp => ?_, fun p hp => ?_⟩
  · obtain ⟨q, hq, hqp, -, -⟩ := hshape' p hp
    obtain ⟨z, hz, hzp, hzl⟩ := ok.based q (hsub.subset hq)
    obtain ⟨y, hy, hyp, hyl, -⟩ := hshape z (hmem z hz (hzp ▸ hne q hq))
    exact ⟨y, hy, by omega, by omega⟩
  · have hgoal : IsNext chainEnd (l₁ ++ l₂ ++ l₃) p.prio p.nextFt ∧ p.missRule = p.nextFt := by
      rcases mem_append.mp hp with hp | hp
      · rcases mem_append.mp hp with hp | hp
        · -- the next priority is at most the last one
          have hleads := ok.leads p (by simp [hp])
          have hpl := hl₁ p hp
          refine ⟨hkeep hleads.1 fun q _ _ hmin => ?_, hleads.2⟩
          obtain ⟨z, hz⟩ := List.exists_mem_of_ne_nil l₂
            (hnone (List.append_ne_nil_of_left_ne_nil (ne_nil_of_mem hp) l₂))
          have hzp := hl₂ z hz
          have hqz := hmin z (by simp [hz]) (by omega)
          have hze := h₁ z (by simp [hz])
          omega
        · obtain ⟨q, hq, rfl⟩ := mem_map.mp hp
          refine ⟨?_, rfl⟩
          change IsNext chainEnd _ q.prio e.nextFt
          have hqe := h₁ q (mem_append_right _ hq)
          have hqp := hl₂ q hq
          -- between the last priority and that of the entry there is nothing
          have hgap : ∀ r ∈ l₁ ++ l₂ ++ l₃, q.prio < r.prio → e.prio < r.prio := by
            intro r hr hlt
            rcases mem_append.mp hr with hr | hr
            · rcases mem_append.mp hr with hr | hr
              · have hrl := hl₁ r hr
                omega
              · have hrl := hl₂ r hr
                omega
            · exact h₃ r hr
          rcases (ok.leads e (by simp)).1 with ⟨r, hr, hrl, hlt, hmin, heq⟩ | ⟨hmax, heq⟩
          · exact .inl ⟨r, hmem r hr (by omega), hrl, by omega,
              fun x hx hlt' => hmin x (hsub.subset hx) (hgap x hx hlt'), heq⟩
          · refine .inr ⟨fun r hr => ?_, heq⟩
            by_contra hlt
            have hlt' := hgap r hr (by omega)
            have hle := hmax r (hsub.subset hr)
            omega
      · have hleads := ok.leads p (by simp [hp])
        have hlt := h₃ p hp
        exact ⟨hkeep hleads.1 fun q _ hq _ => by omega, hleads.2⟩
    exact ⟨hgoal.1.congr hshape hshape', hgoal.2⟩

end Lists

/-! ### Rules, tables and chains -/

/-- The rules after the tables of some entries were pointed elsewhere. -/
def pointed (rules : ℕ → List ℕ) (ps : List Prio) (nextFt : ℕ) : ℕ → List ℕ :=
  fun ft => if ft ∈ ps.map Prio.ft then [nextFt] else rules ft

/-- The entries that `mlx5_chains_update_prio_prevs` goes over. -/
def updated (level : ℕ) (before : List Prio) : List Prio :=
  if level = 0 then prevs before.reverse else []

/-- What it leaves of the entries. -/
def updatedList (level : ℕ) (before : List Prio) (nextFt : ℕ) : List Prio :=
  if level = 0 then (repoint nextFt before.reverse).reverse else before

section Tables

variable {fail : ℕ → Bool} {s s₁ s₂ : State} {chain ft level nft : ℕ} {before : List Prio}

/-- RUN: the first loop adds a rule to each table, or leaves all as before. -/
theorem addMissRules_spec : ∀ (ps : List Prio) (n : ℕ) (s : State), (ps.map Prio.ft).Nodup →
    ∃ t b, (n + ps.length ≤ missRulesSize → b = s.inBounds) ∧ (((∃ m, fail m = true) ∧
          addMissRules fail nft n ps s = ({ s with tick := t, inBounds := b }, false)) ∨
        addMissRules fail nft n ps s = ({ s with
          rules := fun ft => if ft ∈ ps.map Prio.ft then nft :: s.rules ft else s.rules ft
          tick := t
          inBounds := b }, true))
  | [], n, s, _ => ⟨s.tick, s.inBounds, fun _ => rfl, .inr rfl⟩
  | p :: ps, n, s, hnd => by
    obtain ⟨hp, hnd'⟩ := List.nodup_cons.mp hnd
    unfold addMissRules addMissRule
    by_cases hfail : fail s.tick = true
    · refine ⟨s.tick + 1, s.inBounds && decide (n < missRulesSize), fun hn => ?_,
        .inl ⟨⟨_, hfail⟩, ?_⟩⟩
      · have hlt : n < missRulesSize := by
          rw [length_cons] at hn
          omega
        simp [hlt]
      · simp [hfail, State.ask]
    · have hok : fail s.tick = false := by simpa using hfail
      obtain ⟨t, b, hb, hres⟩ := addMissRules_spec ps (n + 1)
        { s with
          rules := update s.rules p.ft (nft :: s.rules p.ft)
          tick := s.tick + 1
          inBounds := s.inBounds && decide (n < missRulesSize) } hnd'
      refine ⟨t, b, fun hn => ?_, ?_⟩
      · rw [length_cons] at hn
        have hlt : n < missRulesSize := by omega
        rw [hb (by omega)]
        simp [hlt]
      · dsimp only
        rw [if_neg (by simp [hok])]
        dsimp only [State.ask]
        rcases hres with ⟨hex, hres⟩ | hres
        · left
          refine ⟨hex, ?_⟩
          rw [hres]
          dsimp only [delRule]
          rw [update_self, erase_cons_head, update_idem, update_eq_self]
        · right
          rw [hres]
          dsimp only
          congr 2
          funext ft
          by_cases hft : ft = p.ft
          · subst hft
            rw [if_neg hp, update_self, if_pos (by simp)]
          · rw [update_of_ne hft]
            simp [hft]

/-- RUN: the second loop leaves the new rules. -/
theorem delOldRules_spec : ∀ (ps : List Prio) (s : State), (ps.map Prio.ft).Nodup →
    (∀ p ∈ ps, s.rules p.ft = [nft, p.missRule]) →
      delOldRules ps s = { s with rules := pointed s.rules ps nft }
  | [], s, _, _ => rfl
  | p :: ps, s, hnd, hrules => by
    obtain ⟨hp, hnd'⟩ := List.nodup_cons.mp hnd
    obtain ⟨hp₀, hps⟩ := forall_mem_cons.mp hrules
    have herase : [nft, p.missRule].erase p.missRule = [nft] := by
      by_cases heq : nft = p.missRule
      · rw [heq, erase_cons_head]
      · simp [heq]
    unfold delOldRules delRule
    rw [hp₀, herase, delOldRules_spec ps _ hnd' fun q hq => ?_]
    · dsimp only
      congr 1
      funext ft
      unfold pointed
      by_cases hft : ft = p.ft
      · subst hft
        rw [if_neg hp, update_self, if_pos (by simp)]
      · rw [update_of_ne hft]
        simp [hft]
    · dsimp only
      rw [update_of_ne]
      · exact hps q hq
      · rintro heq
        exact hp (heq ▸ mem_map_of_mem hq)

/-- What `mlx5_chains_update_prio_prevs` does: all tables of the priority before are pointed to another
    table, or none. -/
theorem updatePrioPrevs_spec (hnd : ((updated level before).map Prio.ft).Nodup)
    (hrules : ∀ p ∈ updated level before, s.rules p.ft = [p.missRule]) :
    ∃ t b, ((updated level before).length ≤ missRulesSize → b = s.inBounds) ∧
      (((∃ m, fail m = true) ∧ updatePrioPrevs fail s level before nft =
          ({ s with tick := t, inBounds := b }, before, false)) ∨
        updatePrioPrevs fail s level before nft = ({ s with
          rules := pointed s.rules (updated level before) nft
          tick := t
          inBounds := b }, updatedList level before nft, true)) := by
  unfold updatePrioPrevs updatedList
  by_cases hlevel : level = 0
  · have hps : updated level before = prevs before.reverse := if_pos hlevel
    rw [hps] at hnd hrules ⊢
    rw [if_neg (not_not.mpr hlevel), if_pos hlevel]
    obtain ⟨t, b, hb, ⟨hex, hres⟩ | hres⟩ := @addMissRules_spec fail nft
      (prevs before.reverse) 0 s hnd
    · refine ⟨t, b, fun hn => hb (by omega), .inl ⟨hex, ?_⟩⟩
      rw [hres]
    · refine ⟨t, b, fun hn => hb (by omega), .inr ?_⟩
      rw [hres]
      dsimp only
      rw [delOldRules_spec _ _ hnd fun p hp => ?_]
      · congr 2
        funext ft
        unfold pointed
        by_cases hft : ft ∈ (prevs before.reverse).map Prio.ft
        · rw [if_pos hft, if_pos hft]
        · rw [if_neg hft, if_neg hft]
          exact if_neg hft
      · dsimp only
        rw [if_pos (mem_map_of_mem hp), hrules p hp]
  · have hps : updated level before = [] := if_neg hlevel
    rw [hps, if_pos hlevel, if_neg hlevel]
    exact ⟨s.tick, s.inBounds, fun _ => rfl, .inr rfl⟩

/-- A chain counts its entries, and is gone when it has none. -/
def ChainOk (s : State) (chain : ℕ) : Prop :=
  ∀ cs, s.chain chain = some cs → cs.ref = cs.priosList.length ∧ cs.priosList ≠ []

/-- A reference to a chain is given back. -/
theorem putChain_undo (hc : ChainOk s chain) (h : s₂.chain = update s.chain chain
    (some ⟨(s.prios chain).length + 1, s.prios chain⟩)) :
    putChain s₂ chain = { s₂ with chain := s.chain } := by
  unfold putChain
  rw [h, update_self]
  dsimp only
  rw [update_idem, Nat.add_sub_cancel]
  congr 1
  unfold State.prios
  rcases hchain : s.chain chain with _ | cs
  · dsimp only
    rw [List.length_nil, if_pos rfl, ← hchain, update_eq_self]
  · obtain ⟨href, hne⟩ := hc cs hchain
    rw [if_neg (by simpa using hne), ← href, ← hchain, update_eq_self]

theorem update_undo {f : ℕ → Bool} (h : f ft = false) :
    update (update f ft true) ft false = f := by
  rw [update_idem, ← h, update_eq_self]

/-- Where `mlx5_chains_create_prio` is: it has the chain, and these tables, groups and rules. -/
structure Making (s : State) (chain : ℕ) (tables groups : ℕ → Bool) (rules : ℕ → List ℕ) (b : Bool)
    (x : State) : Prop where
  chain : x.chain = update s.chain chain (some ⟨(s.prios chain).length + 1, s.prios chain⟩)
  table : x.table = tables
  group : x.group = groups
  rules : x.rules = rules
  next : s.next ≤ x.next
  bounds : x.inBounds = b

section
variable {x : State} {tables groups : ℕ → Bool} {rules : ℕ → List ℕ} {b : Bool}

theorem Making.ask (m : Making s chain tables groups rules b x) :
    Making s chain tables groups rules b x.ask := ⟨m.1, m.2, m.3, m.4, m.5, m.6⟩

/-- The labels of the errors, from the last one on. -/
theorem Making.put_chain (m : Making s chain s.table s.group s.rules b x) (hc : ChainOk s chain) :
    putChain x chain = { s with tick := x.tick, inBounds := b, next := x.next } := by
  rw [putChain_undo hc m.chain]
  exact State.ext rfl m.table m.group m.rules rfl rfl m.bounds

theorem Making.drop_table (m : Making s chain (update s.table ft true) s.group s.rules b x)
    (htable : s.table ft = false) (hc : ChainOk s chain) :
    dropTable x chain ft = { s with tick := x.tick, inBounds := b, next := x.next } :=
  Making.put_chain (x := { x with table := update x.table ft false })
    { m with table := by rw [m.table, update_undo htable] } hc

theorem Making.destroy_group (m : Making s chain tables (update s.group ft true) rules b x)
    (hgroup : s.group ft = false) : Making s chain tables s.group rules b (destroyGroup x ft) := by
  refine { m with group := ?_ }
  unfold destroyGroup
  rw [m.group, update_undo hgroup]

theorem Making.del_rule {r : ℕ}
    (m : Making s chain tables groups (update s.rules ft (r :: s.rules ft)) b x) :
    Making s chain tables groups s.rules b (delRule x ft r) := by
  refine { m with rules := ?_ }
  unfold delRule
  rw [m.rules, update_self, erase_cons_head, update_idem, update_eq_self]

theorem getChain_making (fail : ℕ → Bool) (hc : ChainOk s chain) :
    getChain fail s chain = (s.ask, false) ∨ ∃ x, getChain fail s chain = (x, true) ∧
      Making s chain s.table s.group s.rules s.inBounds x ∧ x.next = s.next := by
  unfold getChain
  rcases hchain : s.chain chain with _ | cs
  · dsimp only
    split_ifs with hfail
    · exact .inl rfl
    · exact .inr ⟨_, rfl, ⟨by simp [State.prios, hchain], rfl, rfl, rfl, le_rfl, rfl⟩, rfl⟩
  · exact .inr ⟨_, rfl, ⟨by simp [State.prios, hchain, (hc cs hchain).1], rfl, rfl, rfl, le_rfl, rfl⟩,
      rfl⟩

theorem Making.create_table (fail : ℕ → Bool) (m : Making s chain tables groups rules b x) :
    createTable fail x = (x.ask, none) ∨ ∃ x', createTable fail x = (x', some x.next) ∧
      Making s chain (update tables x.next true) groups rules b x' ∧ x'.next = x.next + 1 := by
  unfold createTable
  split_ifs
  · exact .inl rfl
  · exact .inr ⟨_, rfl, { m with table := by rw [← m.table], next := Nat.le_succ_of_le m.next }, rfl⟩

theorem Making.create_group (fail : ℕ → Bool) (m : Making s chain tables groups rules b x) (ft : ℕ) :
    createGroup fail x ft = (x.ask, false) ∨ ∃ x', createGroup fail x ft = (x', true) ∧
      Making s chain tables (update groups ft true) rules b x' ∧ x'.next = x.next := by
  unfold createGroup
  split_ifs
  · exact .inl rfl
  · exact .inr ⟨_, rfl, { m with group := by rw [← m.group] }, rfl⟩

theorem Making.add_rule (fail : ℕ → Bool) (m : Making s chain tables groups rules b x)
    (ft nextFt : ℕ) : addMissRule fail x ft nextFt = (x.ask, false) ∨
      ∃ x', addMissRule fail x ft nextFt = (x', true) ∧
        Making s chain tables groups (update rules ft (nextFt :: rules ft)) b x' ∧
          x'.next = x.next := by
  unfold addMissRule
  split_ifs
  · exact .inl rfl
  · exact .inr ⟨_, rfl, { m with rules := by rw [← m.rules] }, rfl⟩

end

/-- The new entry and what is before and behind it. -/
def beforeOf (s : State) (chain prio level : ℕ) : List Prio :=
  (s.prios chain).takeWhile fun p => !larger prio level p

def behindOf (s : State) (chain prio level : ℕ) : List Prio :=
  (s.prios chain).dropWhile fun p => !larger prio level p

/-- What `mlx5_chains_create_prio` does: an entry without references, or nothing. -/
theorem createPrio_spec {a : Attr} {prio : ℕ} (hc : ChainOk s chain) (htable : s.table s.next = false)
    (hgroup : s.group s.next = false)
    (hnd : ((updated level (beforeOf s chain prio level)).map Prio.ft).Nodup)
    (hrules : ∀ p ∈ updated level (beforeOf s chain prio level),
      s.rules p.ft = [p.missRule] ∧ p.ft ≠ s.next) :
    ∃ t b, ((updated level (beforeOf s chain prio level)).length ≤ missRulesSize →
        b = s.inBounds) ∧ ((∃ n, s.next ≤ n ∧ createPrio a fail s chain prio level =
          ({ s with tick := t, inBounds := b, next := n }, false)) ∨
        ∃ s', createPrio a fail s chain prio level = (s', true) ∧
          s'.chain = update s.chain chain (some ⟨(s.prios chain).length + 1,
            updatedList level (beforeOf s chain prio level) s.next ++
              ⟨prio, level, 0, s.next, nextFt (a.chainEnd chain) (behindOf s chain prio level),
                nextFt (a.chainEnd chain) (behindOf s chain prio level)⟩ ::
              behindOf s chain prio level⟩) ∧ s'.table = update s.table s.next true ∧
          s'.group = update s.group s.next true ∧ s'.rules = pointed (update s.rules s.next
            (nextFt (a.chainEnd chain) (behindOf s chain prio level) :: s.rules s.next))
            (updated level (beforeOf s chain prio level)) s.next ∧
          s'.next = s.next + 1 ∧ s'.inBounds = b) := by
  unfold createPrio
  rcases getChain_making fail hc with hres | ⟨s₁, hres, m₁, hnext₁⟩
  · rw [hres]
    exact ⟨s.tick + 1, s.inBounds, fun _ => rfl, .inl ⟨s.next, le_rfl, rfl⟩⟩
  rw [hres]
  dsimp only
  have hprios : s₁.prios chain = s.prios chain := by
    unfold State.prios
    rw [m₁.chain, update_self]
    rfl
  have hbehind : ((s.prios chain).dropWhile fun p => !larger prio level p) =
    behindOf s chain prio level := rfl
  have hbefore : ((s.prios chain).takeWhile fun p => !larger prio level p) =
    beforeOf s chain prio level := rfl
  rw [hprios, hbehind, hbefore]
  generalize nextFt (a.chainEnd chain) (behindOf s chain prio level) = nft
  split_ifs with h₁
  · rw [m₁.ask.put_chain hc]
    exact ⟨_, _, fun _ => rfl, .inl ⟨_, m₁.next, rfl⟩⟩
  rcases m₁.ask.create_table fail with hres | ⟨s₂, hres, m₂, hnext₂⟩
  · rw [hres]
    dsimp only
    rw [m₁.ask.ask.put_chain hc]
    exact ⟨_, _, fun _ => rfl, .inl ⟨_, m₁.next, rfl⟩⟩
  have hft : s₁.ask.next = s.next := hnext₁
  rw [hft] at hres m₂ hnext₂
  rw [hres]
  dsimp only
  rcases m₂.create_group fail s.next with hres | ⟨s₃, hres, m₃, hnext₃⟩
  · rw [hres]
    dsimp only
    rw [m₂.ask.drop_table htable hc]
    exact ⟨_, _, fun _ => rfl, .inl ⟨_, m₂.next, rfl⟩⟩
  rw [hres]
  dsimp only
  rcases m₃.add_rule fail s.next nft with hres | ⟨s₄, hres, m₄, hnext₄⟩
  · rw [hres]
    dsimp only
    rw [(m₃.ask.destroy_group hgroup).drop_table htable hc]
    exact ⟨_, _, fun _ => rfl, .inl ⟨_, m₃.next, rfl⟩⟩
  rw [hres]
  dsimp only
  by_cases h₅ : fail s₄.tick = true
  · rw [if_pos h₅, (m₄.ask.del_rule.destroy_group hgroup).drop_table htable hc]
    exact ⟨_, _, fun _ => rfl, .inl ⟨_, m₄.next, rfl⟩⟩
  rw [if_neg h₅]
  have hrules₄ : ∀ p ∈ updated level (beforeOf s chain prio level),
      s₄.ask.rules p.ft = [p.missRule] := by
    intro p hp
    rw [m₄.ask.rules, update_of_ne (hrules p hp).2]
    exact (hrules p hp).1
  obtain ⟨t, b, hb, ⟨-, hres⟩ | hres⟩ := @updatePrioPrevs_spec fail _ _ s.next _ hnd hrules₄
  · have m₅ : Making s chain _ _ _ b { s₄.ask with tick := t, inBounds := b } :=
      { m₄ with bounds := rfl }
    rw [hres]
    dsimp only
    rw [(m₅.del_rule.destroy_group hgroup).drop_table htable hc]
    exact ⟨_, b, fun h => (hb h).trans m₄.bounds, .inl ⟨_, m₄.next, rfl⟩⟩
  · have hchain : s₄.ask.chain chain = some ⟨(s.prios chain).length + 1, s.prios chain⟩ := by
      rw [m₄.ask.chain, update_self]
    rw [hres]
    unfold State.setPrios
    dsimp only
    rw [hchain]
    refine ⟨t, b, fun h => (hb h).trans m₄.bounds, .inr ⟨_, rfl, ?_, m₄.table, m₄.group, ?_,
      hnext₄.trans (hnext₃.trans hnext₂), rfl⟩⟩
    · change update s₄.chain chain _ = _
      rw [m₄.chain, update_idem]
    · change pointed s₄.rules _ _ = _
      rw [m₄.rules]

end Tables

/-! ### Reference counts -/

/-- The state has the entries of `P`, with the reference counts `R`; there is a table with one rule for
    each entry, and nothing else. -/
structure Core (a : Attr) (s : State) (R : ℕ → ℕ → ℕ → ℕ) (P : ℕ → ℕ → ℕ → Prop) : Prop where
  chainOk : ∀ c, ChainOk s c
  listOk : ∀ c, ListOk (a.chainEnd c) (s.prios c)
  mem : ∀ c p l, P c p l ↔ ∃ e ∈ s.prios c, e.prio = p ∧ e.level = l
  ref : ∀ c, ∀ e ∈ s.prios c, e.ref = R c e.prio e.level
  unique : ∀ c, ∀ e ∈ s.prios c, ∀ c', ∀ e' ∈ s.prios c', e.ft = e'.ft → c = c' ∧ e = e'
  fresh : ∀ c, ∀ e ∈ s.prios c, e.ft < s.next
  table : ∀ ft, s.table ft = true ↔ ∃ c, ∃ e ∈ s.prios c, e.ft = ft
  group : s.group = s.table
  rules : ∀ c, ∀ e ∈ s.prios c, s.rules e.ft = [e.missRule]
  norules : ∀ ft, s.table ft = false → s.rules ft = []

/-- Entries of `P` stay, with their tables. -/
def Stable (P : ℕ → ℕ → ℕ → Prop) (s s' : State) : Prop :=
  ∀ c, ∀ e ∈ s.prios c, P c e.prio e.level →
    ∃ e' ∈ s'.prios c, e'.prio = e.prio ∧ e'.level = e.level ∧ e'.ft = e.ft

section Counts

variable {a : Attr} {fail : ℕ → Bool} {s s' : State} {R : ℕ → ℕ → ℕ → ℕ} {P Q : ℕ → ℕ → ℕ → Prop}
  {c p lv ft : ℕ} {e : Prio} {l l₁ l₂ : List Prio}

theorem Stable.refl (P : ℕ → ℕ → ℕ → Prop) (s : State) : Stable P s s :=
  fun _ e he _ => ⟨e, he, rfl, rfl, rfl⟩

theorem Stable.trans {s'' : State} (h : Stable P s s') (h' : Stable P s' s'') : Stable P s s'' := by
  intro c e he hP
  obtain ⟨e', he', hp, hl, hft⟩ := h c e he hP
  obtain ⟨e'', he'', hp', hl', hft'⟩ := h' c e' he' (by rwa [hp, hl])
  exact ⟨e'', he'', hp'.trans hp, hl'.trans hl, hft'.trans hft⟩

theorem Stable.mono (h : Stable P s s') (hle : ∀ c p l, Q c p l → P c p l) : Stable Q s s' :=
  fun c e he hQ => h c e he (hle _ _ _ hQ)

theorem Prio.Below.ne {q : Prio} (h : e.Below q) : e ≠ q := by
  rintro rfl
  exact Prio.Below.irrefl _ h

theorem nodup_of_sorted (hs : l.Pairwise Prio.Below) : l.Nodup := hs.imp fun h => h.ne

/-- The tables of a list are different. -/
theorem Core.nodup_ft (core : Core a s R P) (hsub : l.Sublist (s.prios c)) : (l.map Prio.ft).Nodup := by
  refine List.Nodup.map_on (fun x hx y hy heq => ?_)
    ((nodup_of_sorted (core.listOk c).sorted).sublist hsub)
  exact (core.unique c x (hsub.subset hx) c y (hsub.subset hy) heq).2

theorem Core.next_free (core : Core a s R P) : s.table s.next = false := by
  by_contra h
  obtain ⟨c, e, he, hft⟩ := (core.table s.next).mp (by simpa using h)
  have hlt := core.fresh c e he
  omega

/-- The entries before a level 0 that is not there, or before one to be removed: those of the last
    priority among them get a new rule. -/
theorem updated_split (hs : (l₁ ++ l₂).Pairwise Prio.Below)
    (hb : ∀ x ∈ l₁ ++ l₂, ∃ q ∈ l₁ ++ l₂, q.prio = x.prio ∧ q.level = 0)
    (h₁ : lv = 0 → ∀ x ∈ l₁, x.prio < p) (h₂ : lv = 0 → ∀ x ∈ l₂, p ≤ x.prio) :
    ∃ k₁ k₂ last, l₁ = k₁ ++ k₂ ∧ updated lv l₁ = k₂.reverse ∧
      (∀ ft, updatedList lv l₁ ft = k₁ ++ k₂.map (Prio.point · ft)) ∧
      (lv = 0 → (∀ x ∈ k₁, x.prio < last) ∧ (∀ x ∈ k₂, x.prio = last) ∧ (l₁ ≠ [] → k₂ ≠ [])) ∧
      (lv ≠ 0 → k₂ = []) := by
  by_cases hlv : lv = 0
  · obtain ⟨k₁, k₂, last, rfl, hprevs, hpoint, hk₁, hk₂, hne⟩ :=
      prevs_split (pairwise_append.mp hs).1 fun x hx => by
        obtain ⟨q, hq, hqp, hql⟩ := hb x (List.mem_append_left _ hx)
        rcases mem_append.mp hq with hq | hq
        · exact ⟨q, hq, hqp, hql⟩
        · have hlt := h₁ hlv x hx
          have hle := h₂ hlv q hq
          omega
    refine ⟨k₁, k₂, last, rfl, ?_, fun ft => ?_, fun _ => ⟨hk₁, hk₂, hne⟩, fun h => absurd hlv h⟩
    · rw [updated, if_pos hlv, hprevs]
    · rw [updatedList, if_pos hlv, hpoint]
  · refine ⟨l₁, [], 0, (append_nil _).symm, ?_, fun ft => ?_, fun h => absurd h hlv, fun _ => rfl⟩
    · rw [updated, if_neg hlv]
      rfl
    · rw [updatedList, if_neg hlv, map_nil, append_nil]

/-- Where an entry comes from when some of a list were pointed elsewhere. -/
theorem point_origin {k₁ k₂ k₃ : List Prio} {y : Prio}
    (hy : y ∈ k₁ ++ k₂.map (Prio.point · ft) ++ k₃) :
    ∃ x ∈ k₁ ++ k₂ ++ k₃, y.prio = x.prio ∧ y.level = x.level ∧ y.ref = x.ref ∧ y.ft = x.ft := by
  simp only [mem_append, mem_map] at hy
  rcases hy with (hy | ⟨x, hx, rfl⟩) | hy
  · exact ⟨y, by simp [hy], rfl, rfl, rfl, rfl⟩
  · exact ⟨x, by simp [hx], rfl, rfl, rfl, rfl⟩
  · exact ⟨y, by simp [hy], rfl, rfl, rfl, rfl⟩

theorem pointed_other {rules : ℕ → List ℕ} {nft : ℕ} (h : ∀ x ∈ l, x.ft ≠ ft) :
    pointed rules l.reverse nft ft = rules ft := by
  refine if_neg fun hin => ?_
  rw [map_reverse, mem_reverse] at hin
  obtain ⟨x, hx, hxf⟩ := mem_map.mp hin
  exact h x hx hxf

/-- The rules of the entries of a list of which some were pointed elsewhere. -/
theorem point_rules {k₁ k₂ k₃ : List Prio} {rules : ℕ → List ℕ} {y : Prio}
    (hnd : ((k₁ ++ k₂ ++ k₃).map Prio.ft).Nodup)
    (hrules : ∀ x ∈ k₁ ++ k₂ ++ k₃, rules x.ft = [x.missRule])
    (hy : y ∈ k₁ ++ k₂.map (Prio.point · ft) ++ k₃) :
    pointed rules k₂.reverse ft y.ft = [y.missRule] := by
  simp only [List.map_append] at hnd
  obtain ⟨hnd₁₂, -, hdisj⟩ := List.nodup_append'.mp hnd
  obtain ⟨-, -, hdisj'⟩ := List.nodup_append'.mp hnd₁₂
  rcases mem_append.mp hy with hy | hy
  · rcases mem_append.mp hy with hy | hy
    · have hne : ∀ x ∈ k₂, x.ft ≠ y.ft := fun x hx hxf =>
        hdisj' (mem_map_of_mem hy) (hxf ▸ mem_map_of_mem hx)
      rw [pointed_other hne, hrules y (by simp [hy])]
    · obtain ⟨x, hx, rfl⟩ := mem_map.mp hy
      have hin : x.ft ∈ k₂.map Prio.ft := mem_map_of_mem hx
      refine if_pos ?_
      rw [map_reverse, mem_reverse]
      exact hin
  · have hne : ∀ x ∈ k₂, x.ft ≠ y.ft := fun x hx hxf =>
      hdisj (mem_append_right _ (hxf ▸ mem_map_of_mem hx)) (mem_map_of_mem hy)
    rw [pointed_other hne, hrules y (by simp [hy])]

/-- The list of a chain was replaced by one with the same entries, some of them pointed elsewhere. -/
theorem prios_update {cs : FsChain} (c' : ℕ)
    (h : s'.chain = update s.chain c (some cs)) :
    s'.prios c' = if c' = c then cs.priosList else s.prios c' := by
  unfold State.prios
  rw [h]
  split_ifs with hc
  · rw [hc, update_self]
  · rw [update_of_ne hc]

/-- The closest priority below one has no more levels than `miss_rules` has room for. -/
def Room (P : ℕ → ℕ → ℕ → Prop) (c p : ℕ) : Prop :=
  ∀ q < p, (∀ q', q < q' → q' < p → ∀ l, ¬ P c q' l) → ∀ l, P c q l → l < missRulesSize

theorem Core.room (core : Core a s R P) (hl : s.prios c = l₁ ++ l₂) (h₁ : ∀ x ∈ l₁, x.prio < p)
    (h₂ : ∀ x ∈ l₂, p ≤ x.prio) {k₁ k₂ : List Prio} {last : ℕ} (hk : l₁ = k₁ ++ k₂)
    (hk₁ : ∀ x ∈ k₁, x.prio < last) (hk₂ : ∀ x ∈ k₂, x.prio = last) (room : Room P c p) :
    k₂.length ≤ missRulesSize := by
  have hin : ∀ x ∈ k₁ ++ k₂ ++ l₂, x ∈ s.prios c := fun x hx => by rwa [hl, hk]
  have hsorted : k₂.Pairwise Prio.Below := by
    have hs := (core.listOk c).sorted
    rw [hl, hk] at hs
    exact (pairwise_append.mp (pairwise_append.mp hs).1).2.1
  have hlevels : (k₂.map Prio.level).Pairwise (· < ·) := by
    refine pairwise_map.mpr (hsorted.imp_of_mem fun {x y} hx hy h => ?_)
    have hxp := hk₂ x hx
    have hyp := hk₂ y hy
    unfold Prio.Below at h
    omega
  have hsub : k₂.map Prio.level ⊆ List.range missRulesSize := by
    intro l hlv
    obtain ⟨x, hx, rfl⟩ := mem_map.mp hlv
    have hxp := hk₂ x hx
    have hlt := h₁ x (by simp [hk, hx])
    refine List.mem_range.mpr (room last (by omega) (fun q' hq hq' l hP => ?_) x.level ?_)
    · obtain ⟨y, hy, rfl, -⟩ := (core.mem c q' l).mp hP
      rw [hl, hk] at hy
      rcases mem_append.mp hy with hy | hy
      · rcases mem_append.mp hy with hy | hy
        · have hylt := hk₁ y hy
          omega
        · have hyp := hk₂ y hy
          omega
      · have hyle := h₂ y hy
        omega
    · exact (core.mem c last x.level).mpr ⟨x, hin x (by simp [hx]), hxp, rfl⟩
  have hlen := (List.subperm_of_subset (hlevels.imp fun h => h.ne) hsub).length_le
  rwa [List.length_map, List.length_range] at hlen

/-- The entries that get a new rule when an entry comes or goes behind `l₁`: they are few. -/
theorem Core.updated_cut (core : Core a s R P) (hl : s.prios c = l₁ ++ l₂)
    (h₁ : lv = 0 → ∀ x ∈ l₁, x.prio < p) (h₂ : lv = 0 → ∀ x ∈ l₂, p ≤ x.prio) :
    ∃ k₁ k₂ last, l₁ = k₁ ++ k₂ ∧ updated lv l₁ = k₂.reverse ∧
      (∀ ft, updatedList lv l₁ ft = k₁ ++ k₂.map (Prio.point · ft)) ∧
      (lv = 0 → (∀ x ∈ k₁, x.prio < last) ∧ (∀ x ∈ k₂, x.prio = last) ∧ (l₁ ≠ [] → k₂ ≠ [])) ∧
      (lv ≠ 0 → k₂ = []) ∧ (∀ x ∈ k₂, x ∈ s.prios c) ∧
      ((updated lv l₁).map Prio.ft).Nodup ∧
      ((lv = 0 → Room P c p) → (updated lv l₁).length ≤ missRulesSize) := by
  have hok := core.listOk c
  rw [hl] at hok
  obtain ⟨k₁, k₂, last, hk, hupd, hlist, hzero, hlevel⟩ := updated_split hok.sorted hok.based h₁ h₂
  have hsub : k₂.Sublist (s.prios c) := by
    rw [hl, hk]
    exact (List.sublist_append_right k₁ k₂).trans (List.sublist_append_left _ _)
  refine ⟨k₁, k₂, last, hk, hupd, hlist, hzero, hlevel, fun x hx => hsub.subset hx, ?_,
    fun room => ?_⟩
  · rw [hupd, map_reverse, List.nodup_reverse]
    exact core.nodup_ft hsub
  · rw [hupd, length_reverse]
    by_cases hlv : lv = 0
    · exact core.room hl (h₁ hlv) (h₂ hlv) hk (hzero hlv).1 (hzero hlv).2.1 (room hlv)
    · rw [hlevel hlv]
      exact Nat.zero_le _

/-- The entries of a state are those of `Q` in another one, with the reference counts `ρ`, and a new
    one with a table of its own, if `N` names one. -/
structure Carried (s s' : State) (Q : ℕ → ℕ → ℕ → Prop) (N : ℕ → Prio → Prop)
    (ρ : ℕ → Prio → ℕ) : Prop where
  new : ∀ d y, N d y → y ∈ s'.prios d ∧ y.ft = s.next
  one : ∀ d y d' y', N d y → N d' y' → d = d' ∧ y = y'
  fwd : ∀ d, ∀ x ∈ s.prios d, Q d x.prio x.level →
    ∃ y ∈ s'.prios d, y.prio = x.prio ∧ y.level = x.level ∧ y.ft = x.ft
  back : ∀ d, ∀ y ∈ s'.prios d, N d y ∨ Q d y.prio y.level ∧ ∃ x ∈ s.prios d,
    y.prio = x.prio ∧ y.level = x.level ∧ y.ft = x.ft ∧ y.ref = ρ d x

section Carry

variable {N : ℕ → Prio → Prop} {ρ : ℕ → Prio → ℕ} (h : Carried s s' Q N ρ)
include h

theorem Carried.ref {R' : ℕ → ℕ → ℕ → ℕ} (hN : ∀ d y, N d y → y.ref = R' d y.prio y.level)
    (hρ : ∀ d, ∀ x ∈ s.prios d, ρ d x = R' d x.prio x.level) :
    ∀ d, ∀ y ∈ s'.prios d, y.ref = R' d y.prio y.level := by
  intro d y hy
  rcases h.back d y hy with hn | ⟨-, x, hx, h₁, h₂, -, h₄⟩
  · exact hN d y hn
  · rw [h₄, h₁, h₂, hρ d x hx]

theorem Carried.table : (∃ d, ∃ y ∈ s'.prios d, y.ft = ft) ↔ (∃ d y, N d y ∧ y.ft = ft) ∨
    ∃ d, ∃ x ∈ s.prios d, Q d x.prio x.level ∧ x.ft = ft := by
  constructor
  · rintro ⟨d, y, hy, rfl⟩
    rcases h.back d y hy with hN | ⟨hq, x, hx, h₁, h₂, h₃, -⟩
    · exact .inl ⟨d, y, hN, rfl⟩
    · exact .inr ⟨d, x, hx, h₁ ▸ h₂ ▸ hq, h₃.symm⟩
  · rintro (⟨d, y, hN, hft⟩ | ⟨d, x, hx, hq, rfl⟩)
    · exact ⟨d, y, (h.new d y hN).1, hft⟩
    · obtain ⟨y, hy, -, -, h₃⟩ := h.fwd d x hx hq
      exact ⟨d, y, hy, h₃⟩

variable (core : Core a s R P)
include core

theorem Carried.mem (hQ : ∀ c p l, Q c p l → P c p l) (d p' l' : ℕ) :
    (Q d p' l' ∨ ∃ y, N d y ∧ y.prio = p' ∧ y.level = l') ↔
      ∃ y ∈ s'.prios d, y.prio = p' ∧ y.level = l' := by
  constructor
  · rintro (hq | ⟨y, hy, hkey⟩)
    · obtain ⟨x, hx, rfl, rfl⟩ := (core.mem d p' l').mp (hQ d p' l' hq)
      obtain ⟨y, hy, h₁, h₂, -⟩ := h.fwd d x hx hq
      exact ⟨y, hy, h₁, h₂⟩
    · exact ⟨y, (h.new d y hy).1, hkey⟩
  · rintro ⟨y, hy, rfl, rfl⟩
    exact (h.back d y hy).symm.imp And.left fun hN => ⟨y, hN, rfl, rfl⟩

/-- Tables stay different, since the table of a new entry is not an old one. -/
theorem Carried.unique (hsorted : ∀ d, (s'.prios d).Pairwise Prio.Below) : ∀ d, ∀ y ∈ s'.prios d,
    ∀ d', ∀ y' ∈ s'.prios d', y.ft = y'.ft → d = d' ∧ y = y' := by
  intro d y hy d' y' hy' heq
  rcases h.back d y hy with hN | ⟨-, x, hx, h₁, h₂, h₃, -⟩ <;>
    rcases h.back d' y' hy' with hN' | ⟨-, x', hx', h₁', h₂', h₃', -⟩
  · exact h.one d y d' y' hN hN'
  · have hlt := core.fresh d' x' hx'
    have hnew := (h.new d y hN).2
    omega
  · have hlt := core.fresh d x hx
    have hnew := (h.new d' y' hN').2
    omega
  · obtain ⟨rfl, rfl⟩ := core.unique d x hx d' x' hx' (h₃.symm.trans (heq.trans h₃'))
    exact ⟨rfl, eq_of_key (hsorted d) hy hy' (h₁.trans h₁'.symm) (h₂.trans h₂'.symm)⟩

theorem Carried.fresh (d : ℕ) (y : Prio) (hy : y ∈ s'.prios d) : N d y ∨ y.ft < s.next :=
  (h.back d y hy).imp_right fun ⟨_, x, hx, _, _, h₃, _⟩ => h₃ ▸ core.fresh d x hx

end Carry

section Insert

variable {k₁ k₂ k₃ : List Prio} {n : ℕ} {new : Prio} (core : Core a s R P)
  (hl : k₁ ++ k₂ ++ k₃ = s.prios c) (hft : new.ft = s.next)
  (hchain : s'.chain = update s.chain c
    (some ⟨n, k₁ ++ k₂.map (Prio.point · s.next) ++ new :: k₃⟩))
include core hl hft hchain

/-- The entries when one was put into the list of a chain, and some before it were pointed to it. -/
theorem Core.carried_insert : Carried s s' P (fun d y => d = c ∧ y = new) fun _ x => x.ref where
  new := by
    rintro _ _ ⟨rfl, rfl⟩
    exact ⟨by rw [prios_update _ hchain, if_pos rfl]; simp, hft⟩
  one := by
    rintro _ _ _ _ ⟨rfl, rfl⟩ ⟨rfl, rfl⟩
    exact ⟨rfl, rfl⟩
  fwd d x hx _ := by
    rw [prios_update _ hchain]
    split_ifs with hd
    · rw [hd, ← hl] at hx
      obtain ⟨y, hy, hkey⟩ := (sameShape_point k₁ k₂ k₃ s.next).1 x hx
      exact ⟨y, mem_middle.mpr (.inr hy), hkey⟩
    · exact ⟨x, hx, rfl, rfl, rfl⟩
  back d y hy := by
    rw [prios_update _ hchain] at hy
    split_ifs at hy with hd
    · refine (mem_middle.mp hy).imp (⟨hd, ·⟩) fun hy => ?_
      obtain ⟨x, hx, h₁, h₂, h₃, h₄⟩ := point_origin hy
      rw [hl, ← hd] at hx
      exact ⟨(core.mem _ _ _).mpr ⟨x, hx, h₁.symm, h₂.symm⟩, x, hx, h₁, h₂, h₄, h₃⟩
    · exact .inr ⟨(core.mem _ _ _).mpr ⟨y, hy, rfl, rfl⟩, y, hy, rfl, rfl, rfl, rfl⟩

/-- And their rules. -/
theorem Core.rules_insert (hrules : s'.rules = pointed (update s.rules s.next
    (new.missRule :: s.rules s.next)) k₂.reverse s.next) (d : ℕ) (y : Prio)
    (hy : y ∈ s'.prios d) : s'.rules y.ft = [y.missRule] := by
  have hin : ∀ x ∈ k₂, x ∈ s.prios c := fun x hx => hl ▸ by simp [hx]
  have hold : ∀ {d' x}, x ∈ s.prios d' → update s.rules s.next (new.missRule :: s.rules s.next)
      x.ft = [x.missRule] := fun hx => by
    rw [update_of_ne (core.fresh _ _ hx).ne]
    exact core.rules _ _ hx
  rw [prios_update _ hchain] at hy
  rw [hrules]
  split_ifs at hy with hd
  · rcases mem_middle.mp hy with rfl | hy
    · rw [hft, pointed_other fun x hx => (core.fresh c x (hin x hx)).ne, update_self,
        core.norules _ core.next_free]
    · exact point_rules (core.nodup_ft (c := c) (hl ▸ List.Sublist.refl _))
        (fun x hx => hold (hl ▸ hx)) hy
  · rw [pointed_other fun x hx hxf => hd (core.unique c x (hin x hx) d y hy hxf).1.symm]
    exact hold hy

end Insert

/-- STEP: an entry without references is created. -/
theorem Core.create (core : Core a s R P) (hno : ¬ P c p lv) (hz : lv ≠ 0 → P c p 0)
    (hR : R c p lv = 0) :
    ∃ t b, ((lv = 0 → Room P c p) → b = s.inBounds) ∧
      ((∃ n, s.next ≤ n ∧ createPrio a fail s c p lv =
          ({ s with tick := t, inBounds := b, next := n }, false)) ∨
        ∃ s', createPrio a fail s c p lv = (s', true) ∧ s'.inBounds = b ∧ Stable P s s' ∧
          Core a s' R fun c' p' l' => P c' p' l' ∨ (c' = c ∧ p' = p ∧ l' = lv)) := by
  have hok := core.listOk c
  have hnokey : ∀ x ∈ s.prios c, ¬ (x.prio = p ∧ x.level = lv) := fun x hx hkey =>
    hno ((core.mem c p lv).mpr ⟨x, hx, hkey⟩)
  have hl : beforeOf s c p lv ++ behindOf s c p lv = s.prios c := List.takeWhile_append_dropWhile
  obtain ⟨hbefore, hbehind⟩ := larger_split hok.sorted hnokey
  change ∀ x ∈ beforeOf s c p lv, _ at hbefore
  change ∀ x ∈ behindOf s c p lv, _ at hbehind
  -- there is nothing of a priority without its level 0
  have hfirst : lv = 0 → ∀ x ∈ s.prios c, x.prio ≠ p := by
    rintro rfl x hx rfl
    obtain ⟨q, hq, hkey⟩ := hok.based x hx
    exact hnokey q hq hkey
  have hlt : lv = 0 → ∀ x ∈ beforeOf s c p lv, x.prio < p := fun h x hx => by
    have hne := hfirst h x (hl ▸ List.mem_append_left _ hx)
    have hle := hbefore x hx
    omega
  have hgt : lv = 0 → ∀ x ∈ behindOf s c p lv, p < x.prio := fun h x hx => by
    have hne := hfirst h x (hl ▸ mem_append_right _ hx)
    have hle := hbehind x hx
    omega
  obtain ⟨k₁, k₂, last, hk, hupd, hlist, hzero, hlevel, hin, hnd, hroom⟩ :=
    core.updated_cut hl.symm hlt fun h x hx => (hgt h x hx).le
  obtain ⟨t, b, hb, hres⟩ := @createPrio_spec fail _ _ _ a _ (core.chainOk c) core.next_free
    (by rw [core.group]; exact core.next_free) hnd fun x hx => by
      have hx' := hin x (mem_reverse.mp (hupd ▸ hx))
      exact ⟨core.rules c x hx', (core.fresh c x hx').ne⟩
  refine ⟨t, b, fun room => hb (hroom room), ?_⟩
  rcases hres with hfail | ⟨s', hres, hchain, htable, hgroup, hrules, hnext, hbounds⟩
  · exact .inl hfail
  rw [hlist] at hchain
  rw [hupd] at hrules
  generalize hnf : nextFt (a.chainEnd c) (behindOf s c p lv) = nf at hchain hrules
  obtain ⟨new, hnew⟩ : ∃ e, e = (⟨p, lv, 0, s.next, nf, nf⟩ : Prio) := ⟨_, rfl⟩
  obtain ⟨hnp, hnl, hnr, hnft, hnn, hnm⟩ : new.prio = p ∧ new.level = lv ∧ new.ref = 0 ∧
      new.ft = s.next ∧ new.nextFt = nf ∧ new.missRule = nf := by
    rw [hnew]
    exact ⟨rfl, rfl, rfl, rfl, rfl, rfl⟩
  rw [← hnew] at hchain
  rw [← hl, hk] at hok
  rw [hk] at hl hlt
  have hcar := core.carried_insert hl hnft hchain
  have hprios := fun d => prios_update d hchain
  have hlists : ∀ d, ListOk (a.chainEnd d) (s'.prios d) := by
    intro d
    rw [hprios]
    split_ifs with hd
    swap
    · exact core.listOk d
    subst hd
    by_cases hlv : lv = 0
    · obtain ⟨hk₁, hk₂, hne⟩ := hzero hlv
      rw [← hnft]
      exact hok.insert_zero (hnl.trans hlv) (fun h => hne (hk ▸ h)) hk₁ hk₂
        (fun x hx => (hlt hlv x hx).trans_eq hnp.symm)
        (fun x hx => hnp.trans_lt (hgt hlv x hx)) (by rw [hnn, hnf]) (by rw [hnm, hnn])
    · obtain rfl := hlevel hlv
      rw [append_nil] at hl hok hk
      rw [map_nil, append_nil]
      refine hok.insert_level (by rwa [hnl]) ?_ (by rw [hnp, hnl, ← hk]; exact hbefore)
        (by rwa [hnp, hnl]) (by rw [hnn, hnf]) (by rw [hnm, hnn])
      rw [hl, hnp]
      exact (core.mem d p 0).mp (hz hlv)
  refine .inr ⟨s', hres, hbounds, fun d x hx _ => hcar.fwd d x hx ((core.mem _ _ _).mpr
    ⟨x, hx, rfl, rfl⟩), ⟨fun d cs hcs => ?_, hlists, fun d p' l' => ?_, ?_,
    hcar.unique core fun d => (hlists d).sorted, fun d y hy => ?_, fun ft => ?_,
    by rw [hgroup, htable, core.group],
    core.rules_insert hl hnft hchain (by rw [hrules, hnm]), fun ft hft => ?_⟩⟩
  · by_cases hd : d = c
    · subst hd
      rw [hchain, update_self] at hcs
      cases hcs
      refine ⟨?_, by simp⟩
      rw [← hl]
      simp
      omega
    · rw [hchain, update_of_ne hd] at hcs
      exact core.chainOk d cs hcs
  · rw [← hcar.mem core fun _ _ _ h => h]
    refine or_congr_right ⟨?_, ?_⟩
    · rintro ⟨rfl, rfl, rfl⟩
      exact ⟨new, ⟨rfl, rfl⟩, hnp, hnl⟩
    · rintro ⟨_, ⟨rfl, rfl⟩, rfl, rfl⟩
      exact ⟨rfl, hnp, hnl⟩
  · refine hcar.ref ?_ core.ref
    rintro _ _ ⟨rfl, rfl⟩
    rw [hnr, hnp, hnl, hR]
  · have hfresh := hcar.fresh core d y hy
    rcases hfresh with ⟨-, rfl⟩ | hlt'
    · omega
    · omega
  · rw [htable, hcar.table]
    by_cases hft : ft = s.next
    · subst hft
      rw [update_self]
      exact ⟨fun _ => .inl ⟨c, new, ⟨rfl, rfl⟩, hnft⟩, fun _ => rfl⟩
    · rw [update_of_ne hft, core.table]
      constructor
      · rintro ⟨d, x, hx, rfl⟩
        exact .inr ⟨d, x, hx, (core.mem _ _ _).mpr ⟨x, hx, rfl, rfl⟩, rfl⟩
      · rintro (⟨d, y, ⟨-, rfl⟩, rfl⟩ | ⟨d, x, hx, -, hxf⟩)
        · exact absurd hnft hft
        · exact ⟨d, x, hx, hxf⟩
  · have hne : ft ≠ s.next := by
      rintro rfl
      rw [htable, update_self] at hft
      cases hft
    rw [htable, update_of_ne hne] at hft
    rw [hrules, pointed_other fun x hx hxf => ?_, update_of_ne hne]
    · exact core.norules ft hft
    · rw [(core.table ft).mpr ⟨c, x, hin x hx, hxf⟩] at hft
      cases hft

/-- STEP: a reference count is written. -/
theorem Core.modifyRef {f : ℕ → ℕ} {R' : ℕ → ℕ → ℕ → ℕ} (core : Core a s R P) (hP : P c p lv)
    (hself : R' c p lv = f (R c p lv))
    (hne : ∀ c' p' l', ¬ (c' = c ∧ p' = p ∧ l' = lv) → R' c' p' l' = R c' p' l') :
    Core a (s.modifyRef c p lv f) R' P ∧ Stable P s (s.modifyRef c p lv f) ∧
      (s.modifyRef c p lv f).inBounds = s.inBounds ∧ (s.modifyRef c p lv f).next = s.next := by
  obtain ⟨e, he, hep, hel⟩ := (core.mem c p lv).mp hP
  obtain ⟨cs, hcs⟩ : ∃ cs, s.chain c = some cs := by
    rcases hchain : s.chain c with _ | cs
    · unfold State.prios at he
      rw [hchain] at he
      cases he
    · exact ⟨cs, rfl⟩
  have hcsl : cs.priosList = s.prios c := by
    unfold State.prios
    rw [hcs]
  generalize hg : (fun x : Prio => if x.hasKey p lv then { x with ref := f x.ref } else x) = g
  have hgkey : ∀ x, (g x).prio = x.prio ∧ (g x).level = x.level ∧ (g x).ft = x.ft ∧
      (g x).nextFt = x.nextFt ∧ (g x).missRule = x.missRule := by
    intro x
    rw [← hg]
    dsimp only
    split_ifs
    all_goals exact ⟨rfl, rfl, rfl, rfl, rfl⟩
  have hgref : ∀ x, (g x).ref = if x.prio = p ∧ x.level = lv then f x.ref else x.ref := by
    intro x
    rw [← hg]
    simp only [Prio.hasKey, Bool.and_eq_true, decide_eq_true_eq]
    split_ifs <;> rfl
  have hres : s.modifyRef c p lv f = { s with
      chain := update s.chain c (some { cs with priosList := (s.prios c).map g }) } := by
    unfold State.modifyRef State.setPrios
    rw [hcs, ← hg]
  generalize s.modifyRef c p lv f = s' at *
  have hchain : s'.chain = update s.chain c
      (some { cs with priosList := (s.prios c).map g }) := by rw [hres]
  have htable : s'.table = s.table := by rw [hres]
  have hgroup : s'.group = s.group := by rw [hres]
  have hrules : s'.rules = s.rules := by rw [hres]
  have hnext : s'.next = s.next := by rw [hres]
  have hprios := fun c' => prios_update c' hchain
  have hback : ∀ d, ∀ y ∈ s'.prios d, ∃ x ∈ s.prios d, y.prio = x.prio ∧ y.level = x.level ∧
      y.ft = x.ft ∧ y.nextFt = x.nextFt ∧ y.missRule = x.missRule ∧
      y.ref = if d = c ∧ x.prio = p ∧ x.level = lv then f x.ref else x.ref := by
    intro d y hy
    by_cases hd : d = c
    · subst hd
      rw [hprios, if_pos rfl] at hy
      obtain ⟨x, hx, rfl⟩ := mem_map.mp hy
      obtain ⟨h₁, h₂, h₃, h₄, h₅⟩ := hgkey x
      refine ⟨x, hx, h₁, h₂, h₃, h₄, h₅, ?_⟩
      rw [hgref]
      simp
    · rw [hprios, if_neg hd] at hy
      exact ⟨y, hy, rfl, rfl, rfl, rfl, rfl, by rw [if_neg fun h => hd h.1]⟩
  have hcar : Carried s s' P (fun _ _ => False)
      fun d x => if d = c ∧ x.prio = p ∧ x.level = lv then f x.ref else x.ref := by
    refine ⟨nofun, nofun, fun d x hx _ => ?_, fun d y hy => ?_⟩
    · by_cases hd : d = c
      · subst hd
        refine ⟨g x, ?_, (hgkey x).1, (hgkey x).2.1, (hgkey x).2.2.1⟩
        rw [hprios, if_pos rfl]
        exact mem_map_of_mem hx
      · exact ⟨x, by rwa [hprios, if_neg hd], rfl, rfl, rfl⟩
    · obtain ⟨x, hx, h₁, h₂, h₃, -, -, h₄⟩ := hback d y hy
      exact .inr ⟨(core.mem _ _ _).mpr ⟨x, hx, h₁.symm, h₂.symm⟩, x, hx, h₁, h₂, h₃, h₄⟩
  have hfwd : ∀ d, ∀ x ∈ s.prios d, ∃ y ∈ s'.prios d, y.prio = x.prio ∧ y.level = x.level ∧
      y.ft = x.ft := fun d x hx => hcar.fwd d x hx ((core.mem _ _ _).mpr ⟨x, hx, rfl, rfl⟩)
  have hsorted : ∀ d, (s'.prios d).Pairwise Prio.Below := by
    intro d
    rw [hprios]
    split_ifs with hd
    · subst hd
      refine pairwise_map.mpr ((core.listOk d).sorted.imp fun {x y} h => ?_)
      unfold Prio.Below at h ⊢
      rw [(hgkey x).1, (hgkey x).2.1, (hgkey y).1, (hgkey y).2.1]
      exact h
    · exact (core.listOk d).sorted
  refine ⟨⟨fun d cs' hcs' => ?_, fun d => ⟨hsorted d, fun y hy => ?_, fun y hy => ?_⟩,
    fun d p' l' => by simpa using hcar.mem core (fun _ _ _ h => h) d p' l',
    hcar.ref nofun fun d x hx => ?_, hcar.unique core hsorted,
    fun d y hy => hnext ▸ (hcar.fresh core d y hy).resolve_left id, fun ft => ?_,
    by rw [hgroup, htable, core.group], fun d y hy => ?_, fun ft hft => ?_⟩,
    fun d x hx _ => hfwd d x hx, by rw [hres], hnext⟩
  · by_cases hd : d = c
    · subst hd
      rw [hchain, update_self] at hcs'
      cases hcs'
      obtain ⟨href, hne'⟩ := core.chainOk d cs hcs
      rw [hcsl] at href hne'
      exact ⟨by simpa using href, by simpa using hne'⟩
    · rw [hchain, update_of_ne hd] at hcs'
      exact core.chainOk d cs' hcs'
  · obtain ⟨x, hx, h₁, -⟩ := hback d y hy
    obtain ⟨q, hq, hqp, hql⟩ := (core.listOk d).based x hx
    obtain ⟨z, hz, hzp, hzl, -⟩ := hfwd d q hq
    exact ⟨z, hz, by omega, by omega⟩
  · obtain ⟨x, hx, h₁, -, -, h₄, h₅, -⟩ := hback d y hy
    obtain ⟨hn, hr⟩ := (core.listOk d).leads x hx
    rw [h₁, h₄, h₅]
    refine ⟨hn.congr (hfwd d) fun z hz => ?_, hr⟩
    obtain ⟨x', hx', h₁', h₂', h₃', -⟩ := hback d z hz
    exact ⟨x', hx', h₁'.symm, h₂'.symm, h₃'.symm⟩
  · rw [core.ref d x hx]
    split_ifs with hkey
    · obtain ⟨rfl, rfl, rfl⟩ := hkey
      exact hself.symm
    · exact (hne d x.prio x.level hkey).symm
  · rw [htable, core.table, hcar.table]
    constructor
    · rintro ⟨d, x, hx, hxf⟩
      exact .inr ⟨d, x, hx, (core.mem _ _ _).mpr ⟨x, hx, rfl, rfl⟩, hxf⟩
    · rintro (⟨_, _, ⟨⟩, -⟩ | ⟨d, x, hx, -, hxf⟩)
      exact ⟨d, x, hx, hxf⟩
  · obtain ⟨x, hx, -, -, h₃, -, h₅, -⟩ := hback d y hy
    rw [hrules, h₃, h₅]
    exact core.rules d x hx
  · rw [htable] at hft
    rw [hrules]
    exact core.norules ft hft

theorem cut_at : ∀ {l₁ : List Prio}, (∀ x ∈ l₁, ¬ (x.prio = p ∧ x.level = lv)) →
    e.prio = p ∧ e.level = lv → ((l₁ ++ e :: l₂).takeWhile fun x => !x.hasKey p lv) = l₁ ∧
        ((l₁ ++ e :: l₂).dropWhile fun x => !x.hasKey p lv) = e :: l₂
  | [], _, he => by simp [Prio.hasKey, he]
  | x :: l₁, h, he => by
    obtain ⟨hx, hl⟩ := forall_mem_cons.mp h
    obtain ⟨htake, hdrop⟩ := cut_at hl he
    have hkey : (!x.hasKey p lv) = true := by
      rw [Bool.not_eq_true', Bool.eq_false_iff]
      exact fun h => hx (by simpa [Prio.hasKey] using h)
    rw [List.cons_append, List.takeWhile_cons, List.dropWhile_cons, if_pos hkey, if_pos hkey, htake,
      hdrop]
    exact ⟨rfl, rfl⟩

/-- What `mlx5_chains_destroy_prio` does where no rule fails. -/
theorem destroyPrio_spec (hfail : ∀ n, fail n = false) (hc : ChainOk s c)
    (hl : s.prios c = l₁ ++ e :: l₂) (hkey : e.prio = p ∧ e.level = lv)
    (hl₁ : ∀ x ∈ l₁, ¬ (x.prio = p ∧ x.level = lv))
    (hnd : ((updated lv l₁).map Prio.ft).Nodup)
    (hrules : ∀ x ∈ updated lv l₁, s.rules x.ft = [x.missRule] ∧ x.ft ≠ e.ft)
    (he : s.rules e.ft = [e.missRule]) :
    (destroyPrio fail s c p lv).prios c = updatedList lv l₁ e.nextFt ++ l₂ ∧
      ChainOk (destroyPrio fail s c p lv) c ∧
      (∀ c', c' ≠ c → (destroyPrio fail s c p lv).chain c' = s.chain c') ∧
      (destroyPrio fail s c p lv).table = update s.table e.ft false ∧
      (destroyPrio fail s c p lv).group = update s.group e.ft false ∧
      (destroyPrio fail s c p lv).rules =
        update (pointed s.rules (updated lv l₁) e.nextFt) e.ft [] ∧
      (destroyPrio fail s c p lv).next = s.next ∧ ((updated lv l₁).length ≤ missRulesSize →
        (destroyPrio fail s c p lv).inBounds = s.inBounds) := by
  obtain ⟨htake, hdrop⟩ := @cut_at _ _ _ l₂ _ hl₁ hkey
  obtain ⟨cs, hcs⟩ : ∃ cs, s.chain c = some cs := by
    rcases hchain : s.chain c with _ | cs
    · unfold State.prios at hl
      rw [hchain] at hl
      simp at hl
    · exact ⟨cs, rfl⟩
  have hcsl : cs.priosList = l₁ ++ e :: l₂ := by
    rw [← hl]
    unfold State.prios
    rw [hcs]
  obtain ⟨href, -⟩ := hc cs hcs
  have hlen : (updatedList lv l₁ e.nextFt).length = l₁.length := by
    have hpoint : ∀ k : List Prio, (repoint e.nextFt k).length = k.length := by
      intro k
      induction k with
      | nil => rfl
      | cons x k ih =>
        unfold repoint
        split_ifs
        · rfl
        · rw [length_cons, ih, length_cons]
    unfold updatedList
    split_ifs
    · rw [length_reverse, hpoint, length_reverse]
    · rfl
  obtain ⟨t, b, hb, ⟨⟨m, hm⟩, -⟩ | hres⟩ := @updatePrioPrevs_spec fail _ _ e.nextFt _ hnd
    fun x hx => (hrules x hx).1
  · rw [hfail] at hm
    cases hm
  generalize hd : destroyPrio fail s c p lv = s'
  have hpoint : pointed s.rules (updated lv l₁) e.nextFt e.ft = [e.missRule] := by
    unfold pointed
    rw [if_neg, he]
    intro hin
    obtain ⟨x, hx, hxf⟩ := mem_map.mp hin
    exact (hrules x hx).2 hxf
  have hcount : cs.ref - 1 = (updatedList lv l₁ e.nextFt ++ l₂).length := by
    rw [href, hcsl]
    simp only [List.length_append, length_cons]
    omega
  have hstate : s' = { s with
      chain := update s.chain c (if (updatedList lv l₁ e.nextFt ++ l₂).length = 0 then none
        else some ⟨(updatedList lv l₁ e.nextFt ++ l₂).length, updatedList lv l₁ e.nextFt ++ l₂⟩)
      table := update s.table e.ft false
      group := update s.group e.ft false
      rules := update (pointed s.rules (updated lv l₁) e.nextFt) e.ft []
      tick := t
      inBounds := b } := by
    rw [← hd]
    unfold destroyPrio
    rw [hl, htake, hdrop]
    dsimp only
    rw [hres]
    unfold State.setPrios
    rw [hcs]
    unfold dropTable destroyGroup delRule putChain
    dsimp only
    rw [update_self]
    dsimp only
    rw [hcount, update_idem, hpoint, erase_cons_head]
  refine ⟨?_, fun cs' hcs' => ?_, fun c' hc' => ?_, by rw [hstate], by rw [hstate], by rw [hstate],
    by rw [hstate], fun h => ?_⟩
  · unfold State.prios
    rw [hstate]
    dsimp only
    rw [update_self]
    split_ifs with hnil
    · exact (List.length_eq_zero_iff.mp hnil).symm
    · rfl
  · rw [hstate] at hcs'
    dsimp only at hcs'
    rw [update_self] at hcs'
    split_ifs at hcs' with hnil
    cases hcs'
    exact ⟨rfl, fun h => hnil (List.length_eq_zero_iff.mpr h)⟩
  · rw [hstate]
    exact update_of_ne hc' ..
  · rw [hstate]
    exact hb h

/-- The entries when one was taken from the list of a chain, and some before it were pointed to what
    is behind it. -/
theorem Core.carried_remove {k₁ k₂ : List Prio} (core : Core a s R P)
    (hl : s.prios c = k₁ ++ k₂ ++ e :: l₂)
    (hprios : s'.prios c = k₁ ++ k₂.map (Prio.point · ft) ++ l₂)
    (hother : ∀ d, d ≠ c → s'.prios d = s.prios d) :
    Carried s s' (fun d p' l' => P d p' l' ∧ ¬ (d = c ∧ p' = e.prio ∧ l' = e.level))
      (fun _ _ => False) fun _ x => x.ref := by
  have hsorted := (core.listOk c).sorted
  refine ⟨nofun, nofun, fun d x hx hq => ?_, fun d y hy => .inr ?_⟩
  · by_cases hd : d = c
    · subst hd
      rw [hl] at hx
      have hx' := (mem_middle.mp hx).resolve_left (by
        rintro rfl
        exact hq.2 ⟨rfl, rfl, rfl⟩)
      rw [hprios]
      exact (sameShape_point k₁ k₂ l₂ ft).1 x hx'
    · exact ⟨x, by rwa [hother d hd], rfl, rfl, rfl⟩
  · by_cases hd : d = c
    · subst hd
      rw [hprios] at hy
      obtain ⟨x, hx, h₁, h₂, h₃, h₄⟩ := point_origin hy
      have hx' : x ∈ s.prios d := hl ▸ mem_middle.mpr (.inr hx)
      refine ⟨⟨(core.mem _ _ _).mpr ⟨x, hx', h₁.symm, h₂.symm⟩, ?_⟩, x, hx', h₁, h₂, h₄, h₃⟩
      rintro ⟨-, hyp, hyl⟩
      obtain rfl := eq_of_key hsorted hx' (hl ▸ by simp) (h₁.symm.trans hyp) (h₂.symm.trans hyl)
      -- it was taken once
      have hnd := nodup_of_sorted hsorted
      rw [hl] at hnd
      exact (List.nodup_middle.mp hnd).notMem hx
    · rw [hother d hd] at hy
      exact ⟨⟨(core.mem _ _ _).mpr ⟨y, hy, rfl, rfl⟩, fun h => hd h.1⟩, y, hy, rfl, rfl, rfl, rfl⟩

/-- STEP: an entry is destroyed, level 0 as the last one of its priority. -/
theorem Core.destroy (core : Core a s R P) (hfail : ∀ n, fail n = false) (hP : P c p lv)
    (hz : lv = 0 → ∀ l', P c p l' → l' = 0) :
    Core a (destroyPrio fail s c p lv) R
        (fun c' p' l' => P c' p' l' ∧ ¬ (c' = c ∧ p' = p ∧ l' = lv)) ∧
      Stable (fun c' p' l' => ¬ (c' = c ∧ p' = p ∧ l' = lv)) s (destroyPrio fail s c p lv) ∧
      ((lv = 0 → Room P c p) → (destroyPrio fail s c p lv).inBounds = s.inBounds) := by
  obtain ⟨e, he, hep, hel⟩ := (core.mem c p lv).mp hP
  obtain ⟨l₁, l₂, hl⟩ := List.append_of_mem he
  have hok := core.listOk c
  rw [hl] at hok
  have hsorted := pairwise_append.mp hok.sorted
  have hl₁ : ∀ x ∈ l₁, x.Below e := fun x hx => hsorted.2.2 x hx e mem_cons_self
  have hl₂ : ∀ x ∈ l₂, e.Below x := (pairwise_cons.mp hsorted.2.1).1
  have hin : ∀ x ∈ l₁ ++ e :: l₂, x ∈ s.prios c := fun x hx => hl ▸ hx
  -- level 0 is alone
  have halone : lv = 0 → ∀ x ∈ l₁ ++ e :: l₂, x.prio = p → x.level = 0 := fun h x hx hxp =>
    hz h x.level ((core.mem c p x.level).mpr ⟨x, hin x hx, hxp, rfl⟩)
  have hlt : lv = 0 → ∀ x ∈ l₁, x.prio < p := fun h x hx => by
    have hlt := hl₁ x hx
    unfold Prio.Below at hlt
    omega
  have hgt : lv = 0 → ∀ x ∈ l₂, p < x.prio := fun h x hx => by
    have hlt := hl₂ x hx
    have hone := halone h x (by simp [hx])
    unfold Prio.Below at hlt
    omega
  obtain ⟨k₁, k₂, last, rfl, hupd, hlist, hzero, hlevel, hk₂, hnd, hroom⟩ :=
    core.updated_cut hl hlt fun h x hx => by
      rcases mem_cons.mp hx with rfl | hx
      · exact hep.ge
      · exact (hgt h x hx).le
  have hnde : ∀ x ∈ k₁ ++ k₂ ++ l₂, x.ft ≠ e.ft := by
    intro x hx heq
    obtain ⟨-, rfl⟩ := core.unique c x (hin x (mem_middle.mpr (.inr hx))) c e he heq
    rcases mem_append.mp hx with hx | hx
    · exact Prio.Below.irrefl _ (hl₁ x hx)
    · exact Prio.Below.irrefl _ (hl₂ x hx)
  have hspec := destroyPrio_spec hfail (core.chainOk c) hl ⟨hep, hel⟩
    (fun x hx hkey => by
      have hlt := hl₁ x hx
      unfold Prio.Below at hlt
      omega) hnd
    (fun x hx => by
      rw [hupd, mem_reverse] at hx
      exact ⟨core.rules c x (hk₂ x hx), hnde x (by simp [hx])⟩)
    (core.rules c e he)
  rw [hupd, hlist] at hspec
  rw [hupd] at hroom
  generalize destroyPrio fail s c p lv = s' at *
  obtain ⟨hprios, hchainOk, hchain, htable, hgroup, hrules, hnext, hbounds⟩ := hspec
  have hother : ∀ c', c' ≠ c → s'.prios c' = s.prios c' := by
    intro c' hc'
    unfold State.prios
    rw [hchain c' hc']
  have hcar := core.carried_remove hl hprios hother
  rw [hep, hel] at hcar
  have hlists : ∀ d, ListOk (a.chainEnd d) (s'.prios d) := by
    intro d
    by_cases hd : d = c
    swap
    · rw [hother d hd]
      exact core.listOk d
    rw [hd, hprios]
    by_cases hlv : lv = 0
    · obtain ⟨hk₁, hk₂, hne⟩ := hzero hlv
      exact hok.remove_zero hne hk₁ hk₂ (fun x hx => (hlt hlv x hx).trans_eq hep.symm)
        fun x hx => hep.trans_lt (hgt hlv x hx)
    · obtain rfl := hlevel hlv
      rw [map_nil, append_nil]
      rw [append_nil] at hok
      exact hok.remove_level (by rwa [hel])
  refine ⟨⟨fun d => ?_, hlists,
    fun d p' l' => by simpa using hcar.mem core (fun _ _ _ h => h.1) d p' l',
    hcar.ref nofun core.ref, hcar.unique core fun d => (hlists d).sorted,
    fun d y hy => hnext ▸ (hcar.fresh core d y hy).resolve_left id, fun ft => ?_,
    by rw [hgroup, htable, core.group], fun d y hy => ?_, fun ft hft => ?_⟩,
    fun d x hx hne => hcar.fwd d x hx ⟨(core.mem _ _ _).mpr ⟨x, hx, rfl, rfl⟩, hne⟩,
    fun room => hbounds (hroom room)⟩
  · by_cases hd : d = c
    · rw [hd]
      exact hchainOk
    · unfold ChainOk
      rw [hchain d hd]
      exact core.chainOk d
  · rw [htable, hcar.table]
    by_cases hft : ft = e.ft
    · subst hft
      rw [update_self]
      refine ⟨fun h => (by cases h), ?_⟩
      rintro (⟨_, _, ⟨⟩, -⟩ | ⟨d, x, hx, ⟨-, hne⟩, hxf⟩)
      obtain ⟨rfl, rfl⟩ := core.unique d x hx c e he hxf
      exact absurd ⟨rfl, hep, hel⟩ hne
    · rw [update_of_ne hft, core.table]
      constructor
      · rintro ⟨d, x, hx, rfl⟩
        refine .inr ⟨d, x, hx, ⟨(core.mem _ _ _).mpr ⟨x, hx, rfl, rfl⟩, ?_⟩, rfl⟩
        rintro ⟨rfl, hxp, hxl⟩
        obtain rfl := eq_of_key (core.listOk d).sorted hx he (hxp.trans hep.symm)
          (hxl.trans hel.symm)
        exact hft rfl
      · rintro (⟨_, _, ⟨⟩, -⟩ | ⟨d, x, hx, -, hxf⟩)
        exact ⟨d, x, hx, hxf⟩
  · rw [hrules]
    by_cases hd : d = c
    · subst hd
      rw [hprios] at hy
      obtain ⟨x, hx, -, -, -, h₄⟩ := point_origin hy
      rw [update_of_ne (h₄ ▸ hnde x hx)]
      refine point_rules ?_ (fun z hz => core.rules d z (hin z (mem_middle.mpr (.inr hz)))) hy
      refine core.nodup_ft (c := d) ?_
      rw [hl]
      exact (List.sublist_cons_self e l₂).append_left _
    · rw [hother d hd] at hy
      rw [update_of_ne fun heq => hd (core.unique d y hy c e he heq).1, pointed_other fun x hx hxf =>
        hd (core.unique c x (hk₂ x hx) d y hy hxf).1.symm]
      exact core.rules d y hy
  · rw [hrules]
    by_cases hne : ft = e.ft
    · rw [hne, update_self]
    · rw [htable, update_of_ne hne] at hft
      rw [update_of_ne hne, pointed_other fun x hx hxf => ?_]
      · exact core.norules ft hft
      · rw [(core.table ft).mpr ⟨c, x, hk₂ x hx, hxf⟩] at hft
        cases hft

end Counts

end RdmaDriver.FsChains
