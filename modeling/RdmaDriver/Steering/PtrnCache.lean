import Mathlib.Data.List.Perm.Basic
import Mathlib.Data.List.Nodup
import Mathlib.Data.List.Forall2
import RdmaDriver.Basic
import RdmaDriver.Schemes.Run

/-! @src drivers/net/ethernet/mellanox/mlx5/core/steering/dr_ptrn.c | name:Modify-Header Patterns |
    scheme:run | family:cache

    Hardware ORs a pattern with an argument to get the actions of a modify-header. Patterns are
    shared: the inline data of an action is masked out of the pattern, and an array of actions that
    only differs in inline data finds the pattern again.

        actions   control | inline data       pattern   control | 0          OR = actions
                  --------+------------                 --------+------------
                  control | source (COPY)               control | source

    A list keeps the patterns that are in use, the one that was asked for last first. -/

namespace RdmaDriver.PtrnCache
open Schemes

/-! ### Code -/

/-- `enum dr_ptrn_modify_hdr_action_id`. -/
def ACTION_ID_COPY : ℕ := 0x05
def ACTION_ID_SET : ℕ := 0x06
def ACTION_ID_ADD : ℕ := 0x07
def ACTION_ID_INSERT_INLINE : ℕ := 0x0a

def DR_ACTION_CACHE_LINE_SIZE : ℕ := 64
def DR_CHUNK_SIZE_8 : ℕ := 3

/-- The byte order of the host. -/
inductive Host where
  | little
  | big
  deriving DecidableEq

/-- An entry of `hw_actions`: its double-words as they follow each other in memory. -/
structure HwAction where
  control : BitVec 32
  inlineData : BitVec 32
  deriving DecidableEq

/-- `MLX5_GET(ste_double_action_set_v1, &hw_actions[i], action_id)`. -/
def HwAction.actionId (a : HwAction) : ℕ := (a.control >>> 24).toNat

/-- `(__force __be32)hw_actions[i]`: the low half of the 64-bit word that the host loads, which are
    the first four bytes or the last four. -/
def HwAction.be32 (host : Host) (a : HwAction) : BitVec 32 :=
  match host with
  | .little => a.control
  | .big => a.inlineData

/-- `struct mlx5dr_ptrn_obj` at address `addr`; `chunk` is the ICM address of its chunk. -/
structure PtrnObj where
  addr : ℕ
  chunk : ℕ
  data : List HwAction
  numOfActions : ℕ
  index : ℕ
  refcount : ℕ
  deriving DecidableEq

/-- What the ICM pool (for a chunk size), the allocator and the post of a new pattern answer. -/
structure Answers where
  chunk : ℕ → Option ℕ
  pattern : Option ℕ
  data : Bool
  postsend : Bool

/-- Action `i` in the loop of `dr_ptrn_compare_modify_hdr`. -/
def sameAction (host : Host) (cur a : HwAction) : Bool :=
  if a.actionId = ACTION_ID_COPY then a = cur else a.be32 host = cur.be32 host

/-- `dr_ptrn_compare_modify_hdr`. -/
def compareModifyHdr (host : Host) (curNum : ℕ) (curHwActions : List HwAction) (num : ℕ)
    (hwActions : List HwAction) : Bool :=
  curNum = num && (curHwActions.zip hwActions).all fun c => sameAction host c.1 c.2

/-- `dr_ptrn_find_cached_pattern`: the pattern, and the list with it in front. -/
def findCachedPattern (host : Host) (ptrnList : List PtrnObj) (num : ℕ)
    (hwActions : List HwAction) : Option (PtrnObj × List PtrnObj) :=
  (ptrnList.find? fun p => compareModifyHdr host p.numOfActions p.data num hwActions).map
    fun p => (p, ptrnList.erase p)

/-- `dr_ptrn_alloc_pattern`: the new pattern. -/
def allocPattern (base : ℕ) (ans : Answers) (num : ℕ) (data : List HwAction) : Option PtrnObj := do
  let chunkSize := max (Nat.log2 (roundupPowOfTwo num)) DR_CHUNK_SIZE_8
  let chunk ← ans.chunk chunkSize
  let addr ← ans.pattern
  if ans.data then
    some { addr := addr, chunk := chunk, data := data, numOfActions := num,
           index := toU 32 (toU 64 ((chunk : ℤ) - base) / DR_ACTION_CACHE_LINE_SIZE),
           refcount := 1 }
  else none

/-- The mask of one action. -/
def maskAction (a : HwAction) : HwAction :=
  if a.actionId = ACTION_ID_SET ∨ a.actionId = ACTION_ID_ADD ∨
      a.actionId = ACTION_ID_INSERT_INLINE then { a with inlineData := 0 } else a

/-- `dr_ptrn_free_pattern`. -/
def freePattern (ptrnList : List PtrnObj) (addr : ℕ) : List PtrnObj :=
  ptrnList.filter fun p => p.addr ≠ addr

/-- `mlx5dr_ptrn_cache_get_pattern`: the address of the pattern, and the list. -/
def getPattern (host : Host) (base : ℕ) (ptrnList : List PtrnObj) (num : ℕ)
    (data : List HwAction) (ans : Answers) : Option ℕ × List PtrnObj :=
  match findCachedPattern host ptrnList num data with
  | some (pattern, rest) =>
    (some pattern.addr, { pattern with refcount := pattern.refcount + 1 } :: rest)
  | none =>
    match allocPattern base ans num data with
    | none => (none, ptrnList)
    | some pattern =>
      let pattern := { pattern with data := pattern.data.map maskAction }
      if ans.postsend then (some pattern.addr, pattern :: ptrnList)
      else
        let pattern := { pattern with refcount := pattern.refcount - 1 }
        (none, freePattern (pattern :: ptrnList) pattern.addr)

/-- `mlx5dr_ptrn_cache_put_pattern`. -/
def putPattern (ptrnList : List PtrnObj) (addr : ℕ) : List PtrnObj :=
  if ptrnList.any fun p => p.addr = addr ∧ p.refcount = 1 then freePattern ptrnList addr
  else ptrnList.map fun p => if p.addr = addr then { p with refcount := p.refcount - 1 } else p

/-- The cache, and the gets that are not matched by a put: the pattern that was returned and the
    actions of the caller. -/
structure State where
  ptrnList : List PtrnObj
  held : List (ℕ × List HwAction)

/-- The calls. -/
inductive Act where
  | get (data : List HwAction) (ans : Answers)
  | put (x : ℕ × List HwAction)

/-- The call is made. -/
def step (host : Host) (base : ℕ) (s : State) : Act → State
  | .get data ans =>
    let r := getPattern host base s.ptrnList data.length data ans
    { ptrnList := r.2, held := (r.1.map fun addr => (addr, data)).toList ++ s.held }
  | .put x => { ptrnList := putPattern s.ptrnList x.1, held := s.held.erase x }

/-- The second double-word is zero unless the action is one of the four that use it. -/
def WellFormed (data : List HwAction) : Prop :=
  ∀ a ∈ data, a.actionId ≠ ACTION_ID_COPY → a.actionId ≠ ACTION_ID_SET →
    a.actionId ≠ ACTION_ID_ADD → a.actionId ≠ ACTION_ID_INSERT_INLINE → a.inlineData = 0

/-- A number of actions is a `u16`, a new pattern is not at the address of another, and what is put
    was got. -/
def ok (s : State) : Act → Prop
  | .get data ans => data.length < 2 ^ 16 ∧ WellFormed data ∧
      ∀ addr, ans.pattern = some addr → ∀ p ∈ s.ptrnList, p.addr ≠ addr
  | .put x => x ∈ s.held

/-- The actions of two arrays have the same control double-words. -/
def SameControl (cur data : List HwAction) : Prop :=
  List.Forall₂ (fun c a => c.control = a.control) cur data

/-- The host is little-endian, or no cached pattern that compares equal to the array has other
    control double-words. -/
def Apart (host : Host) (s : State) : Act → Prop
  | .get data _ => host = .little ∨ ∀ p ∈ s.ptrnList,
      compareModifyHdr host p.numOfActions p.data data.length data → SameControl p.data data
  | .put _ => True

/-! ### One pattern and one array of actions -/

variable {host : Host} {base : ℕ} {cur data : List HwAction} {c a : HwAction} {p : PtrnObj}
  {ptrnList : List PtrnObj} {held : List (ℕ × List HwAction)} {s : State} {ans : Answers}

/-- What hardware ORs is the caller's array: action by action the control double-words are equal,
    and the pattern adds nothing to the caller's data. -/
def Reproduces (pattern data : List HwAction) : Prop :=
  List.Forall₂ (fun c a => c.control = a.control ∧ c.inlineData ||| a.inlineData = a.inlineData)
    pattern data

/-- Only a copy has data in a pattern. -/
def Masked (pattern : List HwAction) : Prop :=
  ∀ c ∈ pattern, c.actionId ≠ ACTION_ID_COPY → c.inlineData = 0

theorem maskAction_control (a : HwAction) : (maskAction a).control = a.control := by
  unfold maskAction
  split_ifs <;> rfl

theorem masked_maskAction (h : WellFormed data) : Masked (data.map maskAction) := by
  intro c hc hid
  obtain ⟨a, ha, rfl⟩ := List.mem_map.mp hc
  have hcopy : a.actionId ≠ ACTION_ID_COPY := by
    rwa [HwAction.actionId, maskAction_control] at hid
  unfold maskAction
  split_ifs with hmask
  · rfl
  · exact h a ha hcopy (fun h => hmask (.inl h)) (fun h => hmask (.inr (.inl h)))
      fun h => hmask (.inr (.inr h))

/-- MISS: a new pattern reproduces the actions that it was made from. -/
theorem reproduces_maskAction (data : List HwAction) : Reproduces (data.map maskAction) data := by
  induction data with
  | nil => exact .nil
  | cons a data ih =>
    refine .cons ⟨maskAction_control a, ?_⟩ ih
    unfold maskAction
    split_ifs
    · exact BitVec.zero_or
    · exact BitVec.or_self

theorem sameAction_of_compare (hlen : cur.length = data.length)
    (h : compareModifyHdr host cur.length cur data.length data = true) :
    List.Forall₂ (fun c a => sameAction host c a = true) cur data := by
  have hall := (Bool.and_eq_true_iff.mp h).2
  clear h
  induction cur generalizing data with
  | nil => rw [List.eq_nil_of_length_eq_zero hlen.symm]; exact .nil
  | cons c cur ih =>
    obtain ⟨a, data, rfl⟩ := List.exists_cons_of_length_eq_add_one hlen.symm
    rw [List.zip_cons_cons, List.all_cons, Bool.and_eq_true_iff] at hall
    exact .cons hall.1 (ih (Nat.succ.inj hlen) hall.2)

/-- On a little-endian host the comparison is one of control double-words. -/
theorem control_of_sameAction (h : sameAction .little c a = true) : c.control = a.control := by
  unfold sameAction at h
  split_ifs at h with hcopy
  · rw [of_decide_eq_true h]
  · exact (of_decide_eq_true h).symm

/-- HIT: a pattern that compares equal, and has the same control double-words, reproduces the
    actions. -/
theorem reproduces_of_same (hmask : Masked cur)
    (hsame : List.Forall₂ (fun c a => sameAction host c a = true) cur data)
    (hctrl : SameControl cur data) : Reproduces cur data := by
  induction hsame with
  | nil => exact .nil
  | @cons c a cur data hca _ ih =>
    obtain ⟨hc, hrest⟩ := List.forall₂_cons.mp hctrl
    refine .cons ⟨hc, ?_⟩ (ih (fun x hx => hmask x (List.mem_cons_of_mem _ hx)) hrest)
    by_cases hcopy : a.actionId = ACTION_ID_COPY
    · rw [sameAction, if_pos hcopy] at hca
      rw [of_decide_eq_true hca]
      exact BitVec.or_self
    · have hid : c.actionId ≠ ACTION_ID_COPY := by rwa [HwAction.actionId, hc]
      rw [hmask c List.mem_cons_self hid]
      exact BitVec.zero_or

/-! ### The cache -/

/-- The gets of the pattern at `addr` that wait for their put. -/
def gets (held : List (ℕ × List HwAction)) (addr : ℕ) : ℕ := held.countP fun x => x.1 = addr

/-- A cached pattern is masked, and its references are the gets that wait. -/
structure Good (held : List (ℕ × List HwAction)) (p : PtrnObj) : Prop where
  num : p.numOfActions = p.data.length
  masked : Masked p.data
  count : p.refcount = gets held p.addr
  pos : 0 < p.refcount

/-- Patterns have their own addresses, they are good, and every get that waits is served. -/
structure Inv (s : State) : Prop where
  nodup : (s.ptrnList.map PtrnObj.addr).Nodup
  good : ∀ p ∈ s.ptrnList, Good s.held p
  served : ∀ x ∈ s.held, ∃ p ∈ s.ptrnList, p.addr = x.1 ∧ Reproduces p.data x.2

theorem gets_cons (x : ℕ × List HwAction) (addr : ℕ) :
    gets (x :: held) addr = gets held addr + if x.1 = addr then 1 else 0 := by
  rw [gets, List.countP_cons, gets]
  simp only [decide_eq_true_eq]

theorem gets_erase {x : ℕ × List HwAction} (hx : x ∈ held) (addr : ℕ) :
    gets held addr = gets (held.erase x) addr + if x.1 = addr then 1 else 0 := by
  rw [← gets_cons]
  exact (List.perm_cons_erase hx).countP_eq _

/-- FIND: the pattern compares equal, and the others stay. -/
theorem find_spec {r : PtrnObj × List PtrnObj}
    (h : findCachedPattern host ptrnList data.length data = some r) : r.1 ∈ ptrnList ∧
      compareModifyHdr host r.1.numOfActions r.1.data data.length data = true ∧
      r.2 = ptrnList.erase r.1 := by
  obtain ⟨p, hp, rfl⟩ := Option.map_eq_some_iff.mp h
  have hcmp := List.find?_some hp
  exact ⟨List.mem_of_find?_eq_some hp, hcmp, rfl⟩

theorem alloc_spec (h : allocPattern base ans data.length data = some p) :
    ans.pattern = some p.addr ∧ p.data = data ∧ p.numOfActions = data.length ∧
      p.refcount = 1 := by
  obtain ⟨chunk, -, h⟩ := Option.bind_eq_some_iff.mp h
  obtain ⟨addr, haddr, h⟩ := Option.bind_eq_some_iff.mp h
  by_cases hdata : ans.data
  · rw [if_pos hdata] at h
    obtain rfl := Option.some.inj h
    exact ⟨haddr, rfl, rfl, rfl⟩
  · rw [if_neg hdata] at h
    cases h

section
variable (h : Inv s) (hp : p ∈ s.ptrnList)
include h hp

/-- What a get is given. -/
theorem Inv.reproduces
    (hcmp : compareModifyHdr host p.numOfActions p.data data.length data = true)
    (hapart : Apart host s (.get data ans)) : Reproduces p.data data := by
  have hgood := h.good p hp
  have hlen : p.data.length = data.length := by
    rw [← hgood.num]
    exact of_decide_eq_true (Bool.and_eq_true_iff.mp hcmp).1
  have hctrl : SameControl p.data data := by
    rcases hapart with rfl | hall
    · rw [hgood.num] at hcmp
      exact (sameAction_of_compare hlen hcmp).imp fun _ _ => control_of_sameAction
    · exact hall p hp hcmp
  rw [hgood.num] at hcmp
  exact reproduces_of_same hgood.masked (sameAction_of_compare hlen hcmp) hctrl

/-- A cached pattern at an address is the only one there. -/
theorem Inv.addr_inj {q : PtrnObj} (hq : q ∈ s.ptrnList) (haddr : p.addr = q.addr) : p = q :=
  List.inj_on_of_nodup_map h.nodup hp hq haddr

/-- GET, found: the pattern has one more reference and goes to the front. -/
theorem Inv.hit (hrep : Reproduces p.data data) :
    Inv { ptrnList := { p with refcount := p.refcount + 1 } :: s.ptrnList.erase p,
          held := (p.addr, data) :: s.held } := by
  have hperm := (List.perm_cons_erase hp).map PtrnObj.addr
  have hnodup := hperm.nodup_iff.mp h.nodup
  refine ⟨hnodup, fun q hq => ?_, fun x hx => ?_⟩
  · rcases List.mem_cons.mp hq with rfl | hq
    · have hgood := h.good p hp
      refine ⟨hgood.num, hgood.masked, ?_, Nat.succ_pos _⟩
      rw [gets_cons, if_pos rfl, ← hgood.count]
    · have hne : p.addr ≠ q.addr := fun heq =>
        (List.nodup_cons.mp hnodup).1 (heq ▸ List.mem_map_of_mem hq)
      have hgood := h.good q (List.mem_of_mem_erase hq)
      refine { hgood with count := ?_ }
      rw [gets_cons, if_neg hne]
      exact hgood.count
  · rcases List.mem_cons.mp hx with rfl | hx
    · exact ⟨_, List.mem_cons_self, rfl, hrep⟩
    · obtain ⟨q, hq, haddr, hq'⟩ := h.served x hx
      by_cases hqp : q = p
      · exact ⟨_, List.mem_cons_self, hqp ▸ haddr, hqp ▸ hq'⟩
      · exact ⟨q, List.mem_cons_of_mem _ ((List.mem_erase_of_ne hqp).mpr hq), haddr, hq'⟩

end

/-- GET, not found: a new pattern has one reference. -/
theorem Inv.miss (h : Inv s) (hfresh : ∀ q ∈ s.ptrnList, q.addr ≠ p.addr)
    (hnum : p.numOfActions = p.data.length) (hmask : Masked p.data) (hone : p.refcount = 1)
    (hrep : Reproduces p.data data) :
    Inv { ptrnList := p :: s.ptrnList, held := (p.addr, data) :: s.held } := by
  refine ⟨?_, fun q hq => ?_, fun x hx => ?_⟩
  · refine List.nodup_cons.mpr ⟨fun hmem => ?_, h.nodup⟩
    obtain ⟨q, hq, haddr⟩ := List.mem_map.mp hmem
    exact hfresh q hq haddr
  · rcases List.mem_cons.mp hq with rfl | hq
    · refine ⟨hnum, hmask, ?_, by omega⟩
      -- nobody waits for a pattern that was not there
      have hzero : gets s.held q.addr = 0 := by
        refine List.countP_eq_zero.mpr fun x hx => ?_
        obtain ⟨r, hr, haddr, -⟩ := h.served x hx
        simpa [← haddr] using hfresh r hr
      rw [gets_cons, if_pos rfl, hzero, hone]
    · have hgood := h.good q hq
      refine { hgood with count := ?_ }
      rw [gets_cons, if_neg (hfresh q hq).symm]
      exact hgood.count
  · rcases List.mem_cons.mp hx with rfl | hx
    · exact ⟨p, List.mem_cons_self, rfl, hrep⟩
    · obtain ⟨q, hq, hq'⟩ := h.served x hx
      exact ⟨q, List.mem_cons_of_mem _ hq, hq'⟩

/-- A pattern that was just put in front is taken out again. -/
theorem freePattern_cons (hfresh : ∀ q ∈ ptrnList, q.addr ≠ p.addr) :
    freePattern (p :: ptrnList) p.addr = ptrnList := by
  rw [freePattern, List.filter_cons_of_neg (by simp)]
  exact List.filter_eq_self.mpr fun q hq => decide_eq_true (hfresh q hq)

/-- A failed get leaves the cache as it was. -/
theorem getPattern_none (hok : ok s (.get data ans))
    (h : (getPattern host base s.ptrnList data.length data ans).1 = none) :
    (getPattern host base s.ptrnList data.length data ans).2 = s.ptrnList := by
  unfold getPattern at h ⊢
  rcases hfind : findCachedPattern host s.ptrnList data.length data with _ | r
  · rcases halloc : allocPattern base ans data.length data with _ | p
    · rfl
    · rw [hfind, halloc] at h
      by_cases hpost : ans.postsend
      · simp [hpost] at h
      · simp only [hpost]
        exact freePattern_cons (hok.2.2 _ (alloc_spec halloc).1)
  · rw [hfind] at h
    cases h

/-- GET: found, new, or failed. -/
theorem Inv.get (h : Inv s) (hok : ok s (.get data ans)) (hapart : Apart host s (.get data ans)) :
    Inv (step host base s (.get data ans)) := by
  rw [step]
  rcases hget : getPattern host base s.ptrnList data.length data ans with ⟨_ | addr, ptrnList⟩
  · have hsame := @getPattern_none host base _ _ _ hok (by rw [hget])
    rw [hget] at hsame
    obtain rfl : ptrnList = s.ptrnList := hsame
    exact h
  · unfold getPattern at hget
    rcases hfind : findCachedPattern host s.ptrnList data.length data with _ | ⟨p, rest⟩
    · rcases halloc : allocPattern base ans data.length data with _ | p
      · rw [hfind, halloc] at hget
        cases hget
      · obtain ⟨haddr, hdata, hnum, hone⟩ := alloc_spec halloc
        rw [hfind, halloc] at hget
        by_cases hpost : ans.postsend
        · simp only [if_pos hpost] at hget
          obtain ⟨h1, rfl⟩ := Prod.mk.inj hget
          obtain rfl := Option.some.inj h1
          refine h.miss (hok.2.2 _ haddr) ?_ ?_ hone ?_
          · simp only [List.length_map]
            rw [hnum, hdata]
          · simp only [hdata]
            exact masked_maskAction hok.2.1
          · simp only [hdata]
            exact reproduces_maskAction data
        · simp [hpost] at hget
    · obtain ⟨hp, hcmp, hrest⟩ := find_spec hfind
      obtain rfl : rest = s.ptrnList.erase p := hrest
      rw [hfind] at hget
      obtain ⟨h1, rfl⟩ := Prod.mk.inj hget
      obtain rfl := Option.some.inj h1
      exact h.hit hp (h.reproduces hp hcmp hapart)

/-- PUT: the last reference takes the pattern out of the cache. -/
theorem Inv.put (h : Inv s) {x : ℕ × List HwAction} (hx : x ∈ s.held) :
    Inv (step host base s (.put x)) := by
  obtain ⟨p, hp, haddr, -⟩ := h.served x hx
  have hgood := h.good p hp
  have hgets := gets_erase hx
  rw [step, putPattern]
  by_cases hlast : p.refcount = 1
  · rw [if_pos (List.any_eq_true.mpr ⟨p, hp, by simp [haddr, hlast]⟩)]
    have hzero : gets (s.held.erase x) x.1 = 0 := by
      have := hgets x.1
      rw [if_pos rfl, ← haddr, ← hgood.count, hlast] at this
      rw [← haddr]
      omega
    refine ⟨h.nodup.sublist (List.filter_sublist.map _), fun q hq => ?_, fun y hy => ?_⟩
    · obtain ⟨hq, hne⟩ := List.mem_filter.mp hq
      have hq' := h.good q hq
      refine { hq' with count := ?_ }
      rw [hq'.count, hgets, if_neg fun heq => of_decide_eq_true hne heq.symm]
      rfl
    · obtain ⟨q, hq, hqy, hrep⟩ := h.served y (List.mem_of_mem_erase hy)
      refine ⟨q, List.mem_filter.mpr ⟨hq, decide_eq_true fun heq => ?_⟩, hqy, hrep⟩
      exact List.countP_eq_zero.mp hzero y hy (decide_eq_true (hqy.symm.trans heq))
  · rw [if_neg fun hany => ?_]
    · refine ⟨?_, fun q' hq' => ?_, fun y hy => ?_⟩
      · rw [List.map_map]
        refine (List.map_congr_left fun q _ => ?_) ▸ h.nodup
        simp only [Function.comp]
        split_ifs <;> rfl
      · obtain ⟨q, hq, rfl⟩ := List.mem_map.mp hq'
        have hq' := h.good q hq
        by_cases heq : q.addr = x.1
        · obtain rfl : p = q := h.addr_inj hp hq (haddr.trans heq.symm)
          have hcount := hgets p.addr
          rw [if_pos haddr.symm, ← hgood.count] at hcount
          rw [if_pos heq]
          refine ⟨hgood.num, hgood.masked, ?_, (by omega : 0 < p.refcount - 1)⟩
          exact (by omega : p.refcount - 1 = gets (s.held.erase x) p.addr)
        · rw [if_neg heq]
          refine { hq' with count := ?_ }
          rw [hq'.count, hgets, if_neg fun h => heq h.symm]
          rfl
      · obtain ⟨q, hq, hqy, hrep⟩ := h.served y (List.mem_of_mem_erase hy)
        refine ⟨_, List.mem_map_of_mem hq, ?_, ?_⟩ <;> split_ifs <;> assumption
    · obtain ⟨q, hq, hq'⟩ := List.any_eq_true.mp hany
      obtain ⟨hqx, hone⟩ := of_decide_eq_true hq'
      exact hlast (h.addr_inj hp hq (haddr.trans hqx.symm) ▸ hone)

/-- No pattern, and no get. -/
def start : State := { ptrnList := [], held := [] }

/-- RUN: what holds after every sequence of calls. -/
theorem reach_inv (h : Reach (step host base) (fun s a => ok s a ∧ Apart host s a) start s) :
    Inv s := by
  have hstart : Inv start := by
    refine ⟨List.nodup_nil, fun p hp => ?_, fun x hx => ?_⟩
    · cases hp
    · cases hx
  refine h.invariant hstart fun s a hok hs => ?_
  cases a with
  | get data ans => exact hs.get hok.1 hok.2
  | put x => exact hs.put hok.1

/-- Every pattern that waits for its put is cached and reproduces the actions of its caller, and a
    pattern is cached only while one waits; a get that fails leaves the cache as it was. -/
structure Served (host : Host) (base : ℕ) (s : State) : Prop where
  reproduces : ∀ x ∈ s.held, ∃ p ∈ s.ptrnList, p.addr = x.1 ∧ Reproduces p.data x.2
  cached : ∀ addr, (∃ p ∈ s.ptrnList, p.addr = addr) ↔ ∃ x ∈ s.held, x.1 = addr
  failed : ∀ data ans, ok s (.get data ans) →
    (getPattern host base s.ptrnList data.length data ans).1 = none →
    (getPattern host base s.ptrnList data.length data ans).2 = s.ptrnList

/-- CORRECT only in part: on a little-endian host every sequence of calls is served, and on a
    big-endian host every sequence in which no array compares equal to a pattern with other control
    double-words. -/
theorem ptrn_cache (h : Reach (step host base) (fun s a => ok s a ∧ Apart host s a) start s) :
    Served host base s where
  reproduces := (reach_inv h).served
  cached addr := by
    refine ⟨fun ⟨p, hp, haddr⟩ => ?_, fun ⟨x, hx, haddr⟩ => ?_⟩
    · have hgood := (reach_inv h).good p hp
      have hpos := hgood.pos
      rw [hgood.count] at hpos
      obtain ⟨x, hx, hxp⟩ := List.countP_pos_iff.mp hpos
      exact ⟨x, hx, (of_decide_eq_true hxp).trans haddr⟩
    · obtain ⟨p, hp, hpx, -⟩ := (reach_inv h).served x hx
      exact ⟨p, hp, hpx.trans haddr⟩
  failed _ _ := getPattern_none

/-- Memory for a pattern at address `addr`, if there is one, and the post succeeds. -/
def demoAns (addr : Option ℕ) : Answers :=
  { chunk := fun _ => some 4096, pattern := addr, data := true, postsend := true }

/-- An array that sets double-word `dw` to `v`. -/
def setDw (dw v : BitVec 32) : List HwAction :=
  [{ control := 0x06000000 ||| dw <<< 16, inlineData := v }]

/-- One caller sets a double-word, and another sets double-word `dw` to 0. -/
def demoCalls (dw : BitVec 32) : List Act :=
  [.get (setDw 1 5) (demoAns (some 100)), .get (setDw dw 0) (demoAns none)]

def demoState (host : Host) (dw : BitVec 32) : State := (demoCalls dw).foldl (step host 0) start

theorem demo_ok_first : ok start (.get (setDw 1 5) (demoAns (some 100))) :=
  ⟨by decide, fun _ ha _ hset => absurd (List.mem_singleton.mp ha ▸ rfl) hset,
    fun _ _ p hp => by cases hp⟩

theorem demo_ok_second {dw : BitVec 32} (h : ∀ a ∈ setDw dw 0, a.actionId = ACTION_ID_SET) :
    ok s (.get (setDw dw 0) (demoAns none)) :=
  ⟨show 1 < 2 ^ 16 by decide, fun a ha _ hset => absurd (h a ha) hset, fun _ h => by cases h⟩

theorem demoState_reach : Reach (step .little 0) (fun s a => ok s a ∧ Apart .little s a) start
    (demoState .little 1) :=
  Reach.runs .start (show Runs _ _ start (demoCalls 1) from
    ⟨⟨demo_ok_first, .inl rfl⟩, ⟨demo_ok_second (by decide), .inl rfl⟩, trivial⟩)

theorem ptrn_cache_demo : (demoState .little 1).ptrnList.length = 1 ∧
    Served .little 0 (demoState .little 1) :=
  ⟨rfl, ptrn_cache demoState_reach⟩

/-- BROKEN: on a big-endian host the comparison is one of inline data. The second caller sets
    another double-word, and is given the pattern of the first. -/
theorem ptrn_cache_broken : Reach (step .big 0) ok start (demoState .big 2) ∧
    ∃ x ∈ (demoState .big 2).held, x.2 = setDw 2 0 ∧
      ¬∃ p ∈ (demoState .big 2).ptrnList, p.addr = x.1 ∧ Reproduces p.data x.2 := by
  refine ⟨Reach.runs .start (show Runs _ _ start (demoCalls 2) from
    ⟨demo_ok_first, demo_ok_second (by decide), trivial⟩), (100, setDw 2 0), by decide, rfl, ?_⟩
  rintro ⟨p, hp, -, hrep⟩
  have hdata : p.data = setDw 1 0 := by
    have hall : ∀ p ∈ (demoState .big 2).ptrnList, p.data = setDw 1 0 := by decide
    exact hall p hp
  rw [hdata] at hrep
  exact absurd (List.forall₂_cons.mp hrep).1.1 (by decide)

end RdmaDriver.PtrnCache
