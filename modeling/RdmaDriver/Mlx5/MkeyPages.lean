import Mathlib.Data.List.Nodup
import Mathlib.Data.List.Perm.Subperm
import Mathlib.Data.List.Range
import Mathlib.Data.List.GetD
import RdmaDriver.Mlx5.MkeyCache

/-! @src drivers/infiniband/hw/mlx5/mr.c | name:Mkey pages | scheme:run | family:stack

    The free mkeys of a cache entry lie in a list of pages of `NUM_MKEYS_PER_PAGE` slots each. Only
    the last page is ever touched: the slot comes from the counter `ci`, a page is added by the push
    that finds all of them full and freed by the pop that empties its slot 0, and the first page
    stays. The list is read through its slots as the queue of the cache model, and that one as a
    stack.

        pages_list   [k₀ … kₙ₋₁] - [kₙ … k₂ₙ₋₁] - [k₂ₙ k₂ₙ₊₁ 0 … 0]
                                                          ↑ ci mod n -/

namespace RdmaDriver.MkeyPages
open Schemes Function

/-- `struct mlx5_mkeys_queue`; a page of `pages_list` is its array `mkeys`. -/
structure MkeysQueue where
  pagesList : List (List ℕ)
  numPages : ℕ
  ci : ℕ
  deriving DecidableEq

/-- The queue of an entry that was just allocated. -/
def zeroed : MkeysQueue := ⟨[], 0, 0⟩

/-- `kzalloc` of a page with `N` slots. -/
def kzallocPage (N : ℕ) : List ℕ := List.replicate N 0

/-- `mlx5r_mkeys_init`; `alloc` tells whether the page is allocated. -/
def mlx5rMkeysInit (N : ℕ) (q : MkeysQueue) (alloc : Bool) : MkeysQueue × Option Errno :=
  if !alloc then (q, some .enomem)
  else
    let pagesList := [kzallocPage N]
    ({ q with pagesList := pagesList, numPages := toU 32 (q.numPages + 1 : ℕ) }, none)

/-- `page->mkeys[tmp] = mkey` in the last page of the list. -/
def setLast (pagesList : List (List ℕ)) (tmp mkey : ℕ) : List (List ℕ) :=
  pagesList.dropLast ++ [(pagesList.getLastD []).set tmp mkey]

/-- `push_mkey_locked`, with `NUM_MKEYS_PER_PAGE = N`. -/
def pushMkeyLocked (N : ℕ) (q : MkeysQueue) (mkey : ℕ) (alloc : Bool) :
    MkeysQueue × Option Errno :=
  let tmp := q.ci % N
  if toU 64 (q.numPages * N : ℕ) ≤ q.ci then
    if !alloc then (q, some .enomem)
    else
      let pagesList := q.pagesList ++ [kzallocPage N]
      (⟨setLast pagesList tmp mkey, toU 32 (q.numPages + 1 : ℕ), toU 64 (q.ci + 1 : ℕ)⟩, none)
  else ({ q with pagesList := setLast q.pagesList tmp mkey, ci := toU 64 (q.ci + 1 : ℕ) }, none)

/-- `pop_mkey_locked`: the mkey and the queue. -/
def popMkeyLocked (N : ℕ) (q : MkeysQueue) : ℕ × MkeysQueue :=
  let tmp := toU 64 ((q.ci : ℤ) - 1) % N
  let mkey := (q.pagesList.getLastD []).getD tmp 0
  let q := { q with pagesList := setLast q.pagesList tmp 0, ci := toU 64 ((q.ci : ℤ) - 1) }
  if 1 < q.numPages ∧ tmp = 0 then
    (mkey, { q with
      pagesList := q.pagesList.dropLast, numPages := toU 32 ((q.numPages : ℤ) - 1) })
  else (mkey, q)

/-! ### Runs -/

/-- The queue, and beside it the mkeys that were pushed and not popped yet, the newest first. -/
structure Sys where
  queue : MkeysQueue
  stack : List ℕ
  deriving DecidableEq

/-- The calls under the queue lock; `alloc` tells whether a page can be allocated. -/
inductive Act where | push (mkey : ℕ) (alloc : Bool) | pop
  deriving DecidableEq

def step (N : ℕ) (s : Sys) : Act → Sys
  | .push mkey alloc =>
    let (queue, rc) := pushMkeyLocked N s.queue mkey alloc
    ⟨queue, if rc = none then mkey :: s.stack else s.stack⟩
  | .pop => ⟨(popMkeyLocked N s.queue).2, s.stack.tail⟩

/-- The state behind `mlx5r_mkeys_init`. -/
def start (N : ℕ) : Sys := ⟨(mlx5rMkeysInit N zeroed true).1, []⟩

/-- Only a queue that is not empty is popped, and the `u32` that counts the pages does not wrap:
    that would take 2³² of them. -/
def Ok (N : ℕ) (s : Sys) : Act → Prop
  | .push mkey alloc => (pushMkeyLocked N s.queue mkey alloc).1.pagesList.length < 2 ^ 32
  | .pop => s.queue.ci ≠ 0

instance (N : ℕ) (s : Sys) : ∀ a, Decidable (Ok N s a)
  | .push mkey alloc => inferInstanceAs
      (Decidable ((pushMkeyLocked N s.queue mkey alloc).1.pagesList.length < 2 ^ 32))
  | .pop => inferInstanceAs (Decidable (s.queue.ci ≠ 0))

/-! ### The pages as slots -/

/-- Slot `i` of page `p`; 0 where there is none. -/
def slot (pagesList : List (List ℕ)) (p i : ℕ) : ℕ := (pagesList.getD p []).getD i 0

/-- The queue of the cache model that the pages stand for. -/
def slots (q : MkeysQueue) : Mlx5Mkey.Queue := ⟨q.numPages, q.ci, slot q.pagesList⟩

section Slots

variable {l : List (List ℕ)} {p : List ℕ} {t m N : ℕ}

@[simp] theorem getLastD_append : (l ++ [p]).getLastD [] = p := by
  rw [List.getLastD_eq_getLast?, List.getLast?_concat]
  rfl

@[simp] theorem setLast_append : setLast (l ++ [p]) t m = l ++ [p.set t m] := by
  rw [setLast, List.dropLast_concat, getLastD_append]

/-- A page put at the end is seen at its index only. -/
theorem slot_append : slot (l ++ [p]) = update (slot l) l.length (fun i => p.getD i 0) := by
  funext j i
  unfold slot
  rcases Nat.lt_trichotomy j l.length with hlt | rfl | hgt
  · rw [update_of_ne hlt.ne, List.getD_append _ _ _ _ hlt]
  · rw [update_self, List.getD_append_right _ _ _ _ le_rfl]
    simp
  · rw [update_of_ne hgt.ne', List.getD_eq_default _ _ hgt.le,
      List.getD_eq_default (l ++ [p]) _ (by simpa using Nat.succ_le_of_lt hgt)]

theorem getD_set (ht : t < p.length) :
    (fun i => (p.set t m).getD i 0) = update (fun i => p.getD i 0) t m := by
  funext i
  by_cases hi : i = t
  · subst hi
    simp [ht]
  · rw [update_of_ne hi]
    simp [Ne.symm hi]

theorem slot_set (ht : t < p.length) : slot (l ++ [p.set t m]) = update (slot (l ++ [p])) l.length
      (update (slot (l ++ [p]) l.length) t m) := by
  rw [slot_append, slot_append, update_self, update_idem, getD_set ht]

theorem slot_kzalloc (ht : t < N) : slot (l ++ [(kzallocPage N).set t m]) =
    update (slot l) l.length (update (fun _ => 0) t m) := by
  rw [slot_append, getD_set (by simpa [kzallocPage] using ht)]
  congr 2
  funext i
  rw [kzallocPage, List.getD_eq_getElem?_getD, List.getElem?_replicate]
  split <;> rfl

end Slots

/-! ### The invariant -/

/-- The pages are linked as counted, each of `N` slots, and hold the stack from its bottom up. -/
structure Inv (N : ℕ) (s : Sys) : Prop where
  queue : Mlx5Mkey.QueueInv N (slots s.queue)
  linked : s.queue.numPages = s.queue.pagesList.length
  sized : ∀ p ∈ s.queue.pagesList, p.length = N
  few : s.queue.numPages < 2 ^ 32
  keys : Mlx5Mkey.keys N (slots s.queue) = s.stack.reverse

section Steps

variable {N : ℕ} {s : Sys} {mkey : ℕ} {alloc : Bool}

theorem Inv.ci_eq (h : Inv N s) : s.queue.ci = s.stack.length := by
  have hlen := congrArg List.length h.keys
  simpa [Mlx5Mkey.keys, slots] using hlen

theorem Inv.last_page (h : Inv N s) : ∃ l p, s.queue.pagesList = l ++ [p] ∧ p.length = N ∧
    s.queue.numPages = l.length + 1 := by
  have hpages : 1 ≤ s.queue.numPages := h.queue.pages
  have hlinked := h.linked
  rcases List.eq_nil_or_concat s.queue.pagesList with hnil | ⟨l, p, hl⟩
  · rw [hnil] at hlinked
    simp only [List.length_nil] at hlinked
    omega
  · rw [List.concat_eq_append] at hl
    refine ⟨l, p, hl, h.sized p (by simp [hl]), ?_⟩
    rw [hlinked, hl, List.length_append, List.length_singleton]

/-- The counters are far from wrapping. -/
theorem Inv.ci_lt (h : Inv N s) (hN : N < 2 ^ 32) : s.queue.numPages * N < 2 ^ 64 ∧
    s.queue.ci ≤ s.queue.numPages * N ∧ s.queue.ci + 1 < 2 ^ 64 := by
  have hupper : s.queue.ci ≤ s.queue.numPages * N := h.queue.upper
  have hmul : s.queue.numPages * N ≤ (2 ^ 32 - 1) * (2 ^ 32 - 1) :=
    Nat.mul_le_mul (by have := h.few; omega) (by omega)
  omega

theorem inv_start : Inv N (start N) := by
  have h1 : (start N).queue = ⟨[kzallocPage N], 1, 0⟩ := rfl
  refine ⟨⟨?_, ?_, ?_⟩, ?_, ?_, ?_, ?_⟩ <;> rw [h1]
  · exact le_rfl
  · exact Nat.zero_le _
  · exact .inl rfl
  · rfl
  · simp [kzallocPage]
  · norm_num
  · rfl

/-- A push that fails changes nothing. -/
theorem push_failed (q : MkeysQueue) (h : (pushMkeyLocked N q mkey alloc).2 ≠ none) :
    (pushMkeyLocked N q mkey alloc).1 = q := by
  simp only [pushMkeyLocked] at h ⊢
  split at h
  · split at h
    · rename_i hfull hno
      rw [if_pos hfull, if_pos hno]
    · exact absurd rfl h
  · exact absurd rfl h

/-- STEP: a push that succeeds is the push of the cache model. -/
theorem push_simulates (hN : 0 < N) (hN' : N < 2 ^ 32) (h : Inv N s)
    (hok : Ok N s (.push mkey alloc)) (hrc : (pushMkeyLocked N s.queue mkey alloc).2 = none) :
    let q := (pushMkeyLocked N s.queue mkey alloc).1
    Mlx5Mkey.pushMkey N (slots s.queue) mkey alloc = some (slots q) ∧
      q.numPages = q.pagesList.length ∧ (∀ p ∈ q.pagesList, p.length = N) ∧
      q.numPages < 2 ^ 32 := by
  obtain ⟨hmul, hle, hci⟩ := h.ci_lt hN'
  have hmod : s.queue.ci % N < N := Nat.mod_lt _ hN
  have hlinked := h.linked
  simp only [Ok, pushMkeyLocked, toU_of_lt hmul, toU_of_lt hci] at hok hrc ⊢
  by_cases hfull : s.queue.numPages * N ≤ s.queue.ci
  · have hneed : (slots s.queue).needsPage N = true := decide_eq_true hfull
    rw [if_pos hfull] at hok hrc ⊢
    cases alloc with
    | false => exact absurd hrc (by simp)
    | true =>
      simp only [Bool.not_true, Bool.false_eq_true, if_false, setLast_append, List.length_append,
        List.length_singleton] at hok ⊢
      have hwrap : toU 32 ((s.queue.numPages + 1 : ℕ) : ℤ) = s.queue.numPages + 1 :=
        toU_of_lt (by omega)
      rw [hwrap]
      refine ⟨?_, by omega, ?_, by omega⟩
      · rw [Mlx5Mkey.pushMkey, if_pos hneed]
        simp only [Bool.not_true, Bool.false_eq_true, if_false, slots, slot_kzalloc hmod, hlinked]
      · intro p hp
        rcases List.mem_append.mp hp with hp | hp
        · exact h.sized p hp
        · rw [List.mem_singleton.mp hp, List.length_set, kzallocPage, List.length_replicate]
  · have hneed : ¬ (slots s.queue).needsPage N = true := fun hd => hfull (of_decide_eq_true hd)
    obtain ⟨l, p, hl, hp, hn⟩ := h.last_page
    rw [if_neg hfull] at hok ⊢
    rw [hl, setLast_append] at hok ⊢
    refine ⟨?_, by simpa using hn, ?_, h.few⟩
    · rw [Mlx5Mkey.pushMkey, if_neg hneed]
      have hset := slot_set (l := l) (m := mkey) (hmod.trans_eq hp.symm)
      simp only [slots, hl, hn, Nat.add_sub_cancel, hset]
    · intro p' hp'
      rcases List.mem_append.mp hp' with hp' | hp'
      · exact h.sized p' (by simp [hl, hp'])
      · rw [List.mem_singleton.mp hp', List.length_set, hp]

theorem toU_pred {w n : ℕ} (h : n < 2 ^ w) (h0 : n ≠ 0) : toU w ((n : ℤ) - 1) = n - 1 := by
  have hsub := toU_sub h (Nat.one_le_iff_ne_zero.mpr h0)
  rwa [Nat.cast_one] at hsub

section
variable (hN : 0 < N) (hN' : N < 2 ^ 32)
include hN hN'

/-- STEP: a pop is the pop of the cache model, on a queue that shows the same mkeys. -/
theorem pop_simulates (h : Inv N s) (hci : s.queue.ci ≠ 0) : let q := (popMkeyLocked N s.queue).2
    let a := Mlx5Mkey.popMkey N (slots s.queue)
    (popMkeyLocked N s.queue).1 = a.1 ∧ q.numPages = a.2.numPages ∧ q.ci = a.2.ci ∧
      Mlx5Mkey.keys N (slots q) = Mlx5Mkey.keys N a.2 ∧ q.numPages = q.pagesList.length ∧
      (∀ p ∈ q.pagesList, p.length = N) ∧ q.numPages ≤ s.queue.numPages := by
  obtain ⟨hmul, hle, hlt⟩ := h.ci_lt hN'
  obtain ⟨l, p, hl, hp, hn⟩ := h.last_page
  have hfew := h.few
  have hpred : toU 64 ((s.queue.ci : ℤ) - 1) = s.queue.ci - 1 := toU_pred (by omega) hci
  have hmod : (s.queue.ci - 1) % N < p.length := hp.symm ▸ Nat.mod_lt _ hN
  have hsized : ∀ p' ∈ l, p'.length = N := fun p' hp' => h.sized p' (by simp [hl, hp'])
  have hlast : slot (l ++ [p]) l.length ((s.queue.ci - 1) % N) =
      p.getD ((s.queue.ci - 1) % N) 0 := by
    rw [slot_append, update_self]
  simp only [popMkeyLocked, Mlx5Mkey.popMkey, hpred, slots, hl, hn, Nat.add_sub_cancel, hlast,
    getLastD_append, setLast_append, List.dropLast_concat]
  by_cases hfree : 1 < l.length + 1 ∧ (s.queue.ci - 1) % N = 0
  · -- slot 0 of the last page is emptied: the mkeys that remain lie in the pages before it
    have hwrap : toU 32 (((l.length + 1 : ℕ) : ℤ) - 1) = l.length :=
      toU_pred (by omega) (Nat.succ_ne_zero _)
    simp only [if_pos hfree, hwrap]
    refine ⟨trivial, trivial, trivial, ?_, trivial, hsized, Nat.le_succ _⟩
    refine List.map_congr_left fun i hi => ?_
    have hi' : i < s.queue.ci - 1 := List.mem_range.mp hi
    have hfit : s.queue.ci - 1 < (l.length + 1) * N := by
      rw [← hn]
      omega
    have hdiv : i / N < l.length := by
      refine (Nat.div_lt_iff_lt_mul hN).mpr ?_
      have hdm := Nat.div_add_mod (s.queue.ci - 1) N
      have hpage : (s.queue.ci - 1) / N ≤ l.length :=
        Nat.lt_succ_iff.mp ((Nat.div_lt_iff_lt_mul hN).mpr hfit)
      have hlow : N * ((s.queue.ci - 1) / N) ≤ N * l.length := Nat.mul_le_mul_left N hpage
      rw [Nat.mul_comm]
      omega
    simp only [update_of_ne hdiv.ne, slot_append]
  · simp only [if_neg hfree]
    refine ⟨trivial, trivial, trivial, ?_, by simp, ?_, le_rfl⟩
    · rw [slot_set hmod]
    · intro p' hp'
      rcases List.mem_append.mp hp' with hp' | hp'
      · exact hsized p' hp'
      · rw [List.mem_singleton.mp hp', List.length_set, hp]

/-- STEP: every call keeps the invariant. -/
theorem inv_step (a : Act) (hok : Ok N s a) (h : Inv N s) : Inv N (step N s a) := by
  cases a with
  | push mkey alloc =>
    by_cases hrc : (pushMkeyLocked N s.queue mkey alloc).2 = none
    · obtain ⟨hsim, hlinked, hsized, hfew⟩ := push_simulates hN hN' h hok hrc
      obtain ⟨hqueue, hkeys⟩ := Mlx5Mkey.pushMkey_some hN h.queue hsim
      refine ⟨hqueue, hlinked, hsized, hfew, ?_⟩
      simp only [step, if_pos hrc, List.reverse_cons]
      rw [hkeys, h.keys]
    · simp only [step, if_neg hrc, push_failed _ hrc]
      exact h
  | pop =>
    obtain ⟨-, hnum, hci, hkeys, hlinked, hsized, hle⟩ := pop_simulates hN hN' h hok
    obtain ⟨⟨hpages, hupper, hlower⟩, hpop⟩ := Mlx5Mkey.popMkey_spec hN h.queue hok
    rw [← hnum] at hpages hupper hlower
    rw [← hci] at hupper hlower
    refine ⟨⟨hpages, hupper, hlower⟩, hlinked, hsized, hle.trans_lt h.few, ?_⟩
    · rw [h.keys] at hpop
      have htail := congrArg (fun l => l.reverse.tail.reverse) hpop
      simp only [List.reverse_reverse, List.reverse_append, List.reverse_singleton,
        List.singleton_append, List.tail_cons] at htail
      exact hkeys.trans htail.symm

/-- A pop returns the mkey on top of the stack. -/
theorem pop_eq_head (h : Inv N s) (hci : s.queue.ci ≠ 0) :
    s.stack = (popMkeyLocked N s.queue).1 :: s.stack.tail := by
  obtain ⟨hmkey, -⟩ := pop_simulates hN hN' h hci
  obtain ⟨-, hpop⟩ := Mlx5Mkey.popMkey_spec hN h.queue hci
  rw [h.keys] at hpop
  have hrev := congrArg List.reverse hpop
  rw [List.reverse_reverse, List.reverse_append, List.reverse_singleton,
    List.singleton_append] at hrev
  rw [hrev, hmkey, List.tail_cons]

end

/-- The number of pages: one, or as many as the mkeys need. -/
theorem Inv.num_pages_eq (hN : 0 < N) (h : Inv N s) :
    s.queue.numPages = max 1 (divRoundUp s.queue.ci N) := by
  have hpages : 1 ≤ s.queue.numPages := h.queue.pages
  have hupper : s.queue.ci ≤ s.queue.numPages * N := h.queue.upper
  have hlower : s.queue.numPages = 1 ∨ (s.queue.numPages - 1) * N < s.queue.ci := h.queue.lower
  have hle : divRoundUp s.queue.ci N ≤ s.queue.numPages := by
    refine Nat.lt_succ_iff.mp ((Nat.div_lt_iff_lt_mul hN).mpr ?_)
    rw [Nat.succ_mul]
    omega
  rcases hlower with hone | hlow
  · rw [hone] at hle ⊢
    exact (Nat.max_eq_left hle).symm
  · have hge : s.queue.numPages ≤ divRoundUp s.queue.ci N := by
      refine (Nat.le_div_iff_mul_le hN).mpr ?_
      obtain ⟨k, hk⟩ := Nat.exists_eq_add_of_le' hpages
      rw [hk] at hlow ⊢
      rw [Nat.add_sub_cancel] at hlow
      rw [Nat.succ_mul]
      omega
    rw [Nat.max_eq_right (hpages.trans hge)]
    exact Nat.le_antisymm hge hle

/-- The slot a push fills and the slot a pop empties lie in the last page, at the index `ci` has in
    the whole list of slots. -/
theorem Inv.in_last (h : Inv N s) (hci : s.queue.ci ≠ 0) :
    s.queue.pagesList.length = (s.queue.ci - 1) / N + 1 := by
  have hupper : s.queue.ci ≤ s.queue.numPages * N := h.queue.upper
  have hpages : 1 ≤ s.queue.numPages := h.queue.pages
  have hlow : (s.queue.numPages - 1) * N ≤ s.queue.ci - 1 := by
    rcases h.queue.lower with hone | hlow
    · have hone' : s.queue.numPages = 1 := hone
      rw [hone', Nat.sub_self, Nat.zero_mul]
      exact Nat.zero_le _
    · exact Nat.le_sub_one_of_lt hlow
  have hlast : (s.queue.ci - 1) / N = s.queue.numPages - 1 :=
    h.queue.last_page hlow (by change s.queue.ci - 1 < s.queue.numPages * N; omega)
  rw [hlast, ← h.linked]
  omega

/-- A push fails only where it needs a page and gets none. -/
theorem push_rc (q : MkeysQueue) : (pushMkeyLocked N q mkey alloc).2 = none ∨
    ((pushMkeyLocked N q mkey alloc).2 = some .enomem ∧ alloc = false) := by
  simp only [pushMkeyLocked]
  split
  · cases alloc with
    | false => exact .inr ⟨rfl, rfl⟩
    | true => exact .inl rfl
  · exact .inl rfl

/-- RUN: the invariant holds in every reachable state. -/
theorem inv_of_reach (hN : 0 < N) (hN' : N < 2 ^ 32) (h : Reach (step N) (Ok N) (start N) s) :
    Inv N s :=
  h.invariant inv_start fun _ a hok hinv => inv_step hN hN' a hok hinv

end Steps

/-- CORRECT: in every run from `mlx5r_mkeys_init` the pages are a stack. `ci` counts its mkeys, the
    pages linked are those it needs, but never none; a pop returns the mkey pushed last, from the
    last page; a push writes to the last page, or fails for want of a page and changes nothing. -/
theorem mkey_stack {N : ℕ} (hN : 0 < N) (hN' : N < 2 ^ 32) {s : Sys}
    (h : Reach (step N) (Ok N) (start N) s) :
    s.queue.ci = s.stack.length ∧
    s.queue.numPages = max 1 (divRoundUp s.queue.ci N) ∧
    s.queue.numPages = s.queue.pagesList.length ∧
    (∀ mkey rest, s.stack = mkey :: rest → (popMkeyLocked N s.queue).1 = mkey ∧
      (step N s .pop).stack = rest ∧ s.queue.pagesList.length = (s.queue.ci - 1) / N + 1) ∧
    ∀ mkey alloc, Ok N s (.push mkey alloc) →
      let r := pushMkeyLocked N s.queue mkey alloc
      (r.2 = none ∧ (step N s (.push mkey alloc)).stack = mkey :: s.stack ∧
        r.1.pagesList.length = s.queue.ci / N + 1) ∨
      (r.2 = some .enomem ∧ alloc = false ∧ r.1 = s.queue ∧
        (step N s (.push mkey alloc)).stack = s.stack) := by
  have hinv := inv_of_reach hN hN' h
  refine ⟨hinv.ci_eq, hinv.num_pages_eq hN, hinv.linked, ?_, ?_⟩
  · intro mkey rest hstack
    have hci : s.queue.ci ≠ 0 := by
      rw [hinv.ci_eq, hstack]
      exact Nat.succ_ne_zero _
    have hhead := pop_eq_head hN hN' hinv hci
    rw [hstack, List.tail_cons] at hhead
    refine ⟨(List.cons.inj hhead).1.symm, ?_, hinv.in_last hci⟩
    rw [step, hstack, List.tail_cons]
  · intro mkey alloc hok
    rcases @push_rc N mkey alloc s.queue with hrc | ⟨hrc, hno⟩
    · have hstack : (step N s (.push mkey alloc)).stack = mkey :: s.stack := by
        simp only [step, if_pos hrc]
      refine .inl ⟨hrc, hstack, ?_⟩
      -- `ci` has moved on by one
      have hinv' := inv_step hN hN' _ hok hinv
      have hci := hinv'.ci_eq
      rw [hstack, List.length_cons, ← hinv.ci_eq] at hci
      have hin := hinv'.in_last (by omega)
      rwa [hci, Nat.add_sub_cancel] at hin
    · have hne : (pushMkeyLocked N s.queue mkey alloc).2 ≠ none := by
        rw [hrc]
        exact Option.some_ne_none _
      exact .inr ⟨hrc, hno, push_failed _ hne, by simp only [step, if_neg hne]⟩

/-- Three pushes and a pop over pages of two slots: the second page is added and freed again. -/
def threeOne : List Act := [.push 7 true, .push 8 true, .push 9 true, .pop]

theorem mkey_stack_demo : let s := threeOne.foldl (step 2) (start 2)
    s = ⟨⟨[[7, 8]], 1, 2⟩, [8, 7]⟩ ∧ (popMkeyLocked 2 s.queue).1 = 8 := by
  have hruns : Runs (step 2) (Ok 2) (start 2) threeOne := by decide +kernel
  obtain ⟨-, -, -, hpop, -⟩ := mkey_stack (by decide) (by decide) (Reach.start.runs hruns)
  exact ⟨by decide +kernel, (hpop 8 [7] (by decide +kernel)).1⟩

end RdmaDriver.MkeyPages
