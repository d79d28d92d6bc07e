import RdmaDriver.Basic
import RdmaDriver.Schemes.Run
import RdmaDriver.Schemes.Splice
import Mathlib.Data.List.Sort

/-! @src mlx5/core/steering/dr_matcher.c | name:matcher chain | scheme:run | family:linked

    The matchers of a table that have rules are on a list, sorted by priority. Hardware goes through
    them by hit and miss addresses: from an anchor to the start table of the next matcher, and from a
    start table, where no rule hits, to the end anchor. A link is the three things that connect an
    anchor and a start table; putting a matcher on the list replaces one link by two, taking it off
    replaces two by one, and all other links are not touched. A rehash gives a link another start
    table and queues the write of its anchor; the insertion of the rule sends the queue at its end,
    or drops it where it fails. Matchers are not put on or taken off meanwhile: it has the lock.

        s_anchor -hit→ s_htbl -miss→ e_anchor -hit→ s_htbl -miss→ e_anchor -miss→ default
                 ←pointing_ste                ←pointing_ste                         -/

namespace RdmaDriver.DrMatcher
open Schemes Function
open List (concat_eq_append dropLast_subset eq_nil_or_concat mem_append_left mem_append_right
  mem_cons mem_cons_of_mem mem_cons_self nodup_append' nodup_cons perm_middle)

/-- What is written in an STE that takes all packets. -/
inductive Ste where
  | init
  | hit (icmAddr numOfEntries : ℕ)
  | miss (icmAddr : ℕ)
  deriving DecidableEq

/-- `mlx5dr_ste_set_hit_addr`. -/
def Ste.setHitAddr (ste : Ste) (icmAddr numOfEntries : ℕ) : Ste :=
  match ste with
  | .hit _ _ => .hit icmAddr numOfEntries
  | ste => ste

/-- `struct mlx5dr_ste_htbl`. A table is named by the address of its chunk. `next_htbl` is that of its
    first STE, `hw` is what hardware does with a packet that no rule of the table takes, and
    `hw_ste_arr` the copy of it. -/
structure Htbl where
  numOfEntries : ℕ
  pointingSte : Option ℕ
  nextHtbl : Option ℕ
  hwSteArr : Ste
  hw : Ste

/-- `struct mlx5dr_matcher_rx_tx`. -/
structure NicMatcher where
  prio : ℕ
  sHtbl : ℕ
  eAnchor : ℕ
  deriving DecidableEq

/-- `struct mlx5dr_table_rx_tx`, with the matchers of the table. -/
structure NicTbl where
  htbl : ℕ → Htbl
  matcher : ℕ → NicMatcher
  matcherList : List ℕ
  nicMatcherList : List ℕ
  sAnchor : ℕ
  defaultIcmAddr : ℕ

/-- `struct mlx5dr_htbl_connect_info`. -/
inductive ConnectInfo where
  | hit (hitNextHtbl : ℕ)
  | miss (missIcmAddr : ℕ)

/-- A field of a table is written. -/
def NicTbl.modify (t : NicTbl) (u : ℕ) (f : Htbl → Htbl) : NicTbl :=
  { t with htbl := update t.htbl u (f (t.htbl u)) }

/-- `mlx5dr_ste_set_formatted_ste`. -/
def setFormattedSte (t : NicTbl) : ConnectInfo → Ste
  | .hit s => .hit s (t.htbl s).numOfEntries
  | .miss icmAddr => .miss icmAddr

/-- `mlx5dr_ste_htbl_init_and_postsend`; the copy is written before the post. -/
def htblInitAndPostsend (t : NicTbl) (u : ℕ) (info : ConnectInfo) (updateHwSte postOk : Bool) :
    NicTbl :=
  t.modify u fun h => { h with
    hwSteArr := if updateHwSte then setFormattedSte t info else h.hwSteArr
    hw := if postOk then setFormattedSte t info else h.hw }

/-- `pointing_ste` of a table, and `next_htbl` of the STE, are set to each other. -/
def NicTbl.point (t : NicTbl) (a s : ℕ) : NicTbl :=
  (t.modify s fun h => { h with pointingSte := some a }).modify a
    fun h => { h with nextHtbl := some s }

/-- What the posts of `dr_nic_matcher_connect` return. -/
structure Posts where
  eAnchor : Bool
  sHtbl : Bool
  prev : Bool
  deriving DecidableEq

/-- The end anchor of the previous matcher, or the start anchor of the table. -/
def prevAnchor (t : NicTbl) : Option ℕ → ℕ
  | some p => (t.matcher p).eAnchor
  | none => t.sAnchor

/-- Where the end anchor of the last matcher, or of one before `next`, leads to. -/
def nextInfo (t : NicTbl) : Option ℕ → ConnectInfo
  | some n => .hit (t.matcher n).sHtbl
  | none => .miss t.defaultIcmAddr

/-- `dr_nic_matcher_connect`; true where it returns 0. -/
def drNicMatcherConnect (t : NicTbl) (m : ℕ) (next prev : Option ℕ) (posts : Posts) :
    NicTbl × Bool :=
  let c := t.matcher m
  let t := htblInitAndPostsend t c.eAnchor (nextInfo t next) next.isSome posts.eAnchor
  if posts.eAnchor = false then (t, false)
  else
    let t := htblInitAndPostsend t c.sHtbl (.miss c.eAnchor) false posts.sHtbl
    if posts.sHtbl = false then (t, false)
    else
      let prevHtbl := prevAnchor t prev
      let t := htblInitAndPostsend t prevHtbl (.hit c.sHtbl) true posts.prev
      if posts.prev = false then (t, false)
      else
        let t := t.point prevHtbl c.sHtbl
        match next with
        | some n => (t.point c.eAnchor (t.matcher n).sHtbl, true)
        | none => (t, true)

/-- The loop of `mlx5dr_matcher_add_to_tbl_nic`: the next matcher, and `first`. -/
def findNext (t : NicTbl) (prio : ℕ) : List ℕ → Bool → Option ℕ × Bool
  | [], first => (none, first)
  | x :: l, first =>
    if prio ≤ (t.matcher x).prio then (some x, first) else findNext t prio l false

/-- `list_prev_entry`. -/
def listPrev (n : ℕ) : List ℕ → Option ℕ
  | x :: y :: l => if y = n then some x else listPrev n (y :: l)
  | _ => none

/-- `list_next_entry`, none for the last one. -/
def listNext (m : ℕ) : List ℕ → Option ℕ
  | x :: y :: l => if x = m then some y else listNext m (y :: l)
  | _ => none

/-- `list_add_tail` before an entry. -/
def insertBefore (n m : ℕ) : List ℕ → List ℕ
  | [] => []
  | x :: l => if x = n then m :: x :: l else x :: insertBefore n m l

/-- `mlx5dr_matcher_add_to_tbl_nic`. -/
def mlx5drMatcherAddToTblNic (t : NicTbl) (m : ℕ) (posts : Posts) : NicTbl × Bool :=
  if m ∈ t.nicMatcherList then (t, true)
  else
    let (next, first) := findNext t (t.matcher m).prio t.nicMatcherList true
    let prev := if first then none else match next with
      | some n => listPrev n t.nicMatcherList
      | none => t.nicMatcherList.getLast?
    match drNicMatcherConnect t m next prev posts with
    | (t, false) => (t, false)
    | (t, true) =>
      match prev, next with
      | some p, _ => ({ t with nicMatcherList := insertAfter p m t.nicMatcherList }, true)
      | none, some n => ({ t with nicMatcherList := insertBefore n m t.nicMatcherList }, true)
      | none, none => ({ t with nicMatcherList := m :: t.nicMatcherList }, true)

/-- `dr_matcher_disconnect_nic`. -/
def drMatcherDisconnectNic (t : NicTbl) (next prev : Option ℕ) (postOk : Bool) : NicTbl × Bool :=
  let prevAnchor := prevAnchor t prev
  let t := match next with
    | some n => t.point prevAnchor (t.matcher n).sHtbl
    | none => t.modify prevAnchor fun h => { h with nextHtbl := none }
  (htblInitAndPostsend t prevAnchor (nextInfo t next) true postOk, postOk)

/-- `mlx5dr_matcher_remove_from_tbl_nic`. -/
def mlx5drMatcherRemoveFromTblNic (t : NicTbl) (m : ℕ) (postOk : Bool) : NicTbl × Bool :=
  if m ∉ t.nicMatcherList then (t, true)
  else
    match drMatcherDisconnectNic t (listNext m t.nicMatcherList) (listPrev m t.nicMatcherList)
      postOk with
    | (t, false) => (t, false)
    | (t, true) => ({ t with nicMatcherList := t.nicMatcherList.erase m }, true)

/-- `dr_rule_rehash_htbl` for the start table of a matcher, and the table whose first STE it puts on the
    update list. `copyOk` is false where the rules cannot be copied: the new table is freed. -/
def drRuleRehashHtbl (t : NicTbl) (m newHtbl newSize : ℕ) (allocOk copyOk : Bool) :
    NicTbl × Option ℕ :=
  let c := t.matcher m
  match allocOk, (t.htbl c.sHtbl).pointingSte with
  | true, some a =>
    let t := t.modify newHtbl fun _ => ⟨newSize, none, none, .init, .init⟩
    let t := t.point a newHtbl
    if copyOk = false then (t, none)
    else
      let t := t.modify newHtbl fun h => { h with hw := .miss c.eAnchor }
      let t := { t with matcher := update t.matcher m { c with sHtbl := newHtbl } }
      (t.modify a fun h => { h with hwSteArr := h.hwSteArr.setHitAddr newHtbl newSize }, some a)
  | _, _ => (t, none)

/-- `dr_rule_handle_one_ste_in_update_list`: the data of the entry are the copy of the STE. -/
def handleOneSteInUpdateList (a : ℕ) (t : NicTbl) : NicTbl :=
  t.modify a fun h => { h with hw := h.hwSteArr }

/-- `dr_rule_send_update_list`, in reverse. -/
def drRuleSendUpdateList (t : NicTbl) (sendSteList : List ℕ) : NicTbl :=
  sendSteList.foldr handleOneSteInUpdateList t

/-- A table of one entry from `mlx5dr_ste_htbl_alloc`. -/
def newHtbl : Htbl := ⟨1, none, none, .init, .init⟩

/-- `dr_matcher_init_nic`. -/
def drMatcherInitNic (t : NicTbl) (m prio sHtbl eAnchor : ℕ) : NicTbl :=
  { (t.modify eAnchor fun _ => newHtbl).modify sHtbl fun _ => newHtbl with
    matcher := update t.matcher m ⟨prio, sHtbl, eAnchor⟩
    matcherList := m :: t.matcherList }

/-- A table, and the anchors whose writes the insertion of a rule has queued. -/
structure World where
  tbl : NicTbl
  sendSteList : List ℕ

/-- What happens to a table: `send` and `free` end the insertion of a rule, well or with
    `free_rule`. -/
inductive Act where
  | create (m prio sHtbl eAnchor : ℕ)
  | destroy (m : ℕ)
  | add (m : ℕ) (posts : Posts)
  | remove (m : ℕ) (postOk : Bool)
  | rehash (m newHtbl newSize : ℕ) (allocOk copyOk : Bool)
  | send
  | free
  deriving DecidableEq

def step (w : World) : Act → World
  | .create m prio sHtbl eAnchor => { w with tbl := drMatcherInitNic w.tbl m prio sHtbl eAnchor }
  | .destroy m => { w with tbl.matcherList := w.tbl.matcherList.erase m }
  | .add m posts => { w with tbl := (mlx5drMatcherAddToTblNic w.tbl m posts).1 }
  | .remove m postOk => { w with tbl := (mlx5drMatcherRemoveFromTblNic w.tbl m postOk).1 }
  | .rehash m newHtbl newSize allocOk copyOk =>
    let p := drRuleRehashHtbl w.tbl m newHtbl newSize allocOk copyOk
    ⟨p.1, w.sendSteList ++ p.2.toList⟩
  | .send => ⟨drRuleSendUpdateList w.tbl w.sendSteList, []⟩
  | .free => { w with sendSteList := [] }

/-- A chunk that is not that of a table in use. -/
def Unused (t : NicTbl) (u : ℕ) : Prop :=
  u ≠ t.sAnchor ∧ ∀ m ∈ t.matcherList, u ≠ (t.matcher m).sHtbl ∧ u ≠ (t.matcher m).eAnchor

/-- What the lock and the allocator promise, posts that succeed, a rehash that copies the rules of its
    table, and no queued write that is dropped: new tables get unused chunks, only matchers without
    rules are destroyed, and one rule at a time is inserted, which rehashes a start table once. -/
def ok (w : World) : Act → Prop
  | .create m _ sHtbl eAnchor => w.sendSteList = [] ∧
    m ∉ w.tbl.matcherList ∧ sHtbl ≠ eAnchor ∧ Unused w.tbl sHtbl ∧ Unused w.tbl eAnchor
  | .destroy m => w.sendSteList = [] ∧ m ∉ w.tbl.nicMatcherList
  | .add m posts => w.sendSteList = [] ∧ m ∈ w.tbl.matcherList ∧ posts = ⟨true, true, true⟩
  | .remove _ postOk => w.sendSteList = [] ∧ postOk = true
  | .rehash m newHtbl _ allocOk copyOk => w.sendSteList = [] ∧
    m ∈ w.tbl.nicMatcherList ∧ Unused w.tbl newHtbl ∧ (allocOk = true → copyOk = true)
  | .send => True
  | .free => w.sendSteList = []

instance (t : NicTbl) (u : ℕ) : Decidable (Unused t u) := inferInstanceAs (Decidable (_ ∧ _))

instance (w : World) : ∀ a, Decidable (ok w a)
  | .create .. => inferInstanceAs (Decidable (_ ∧ _ ∧ _ ∧ _ ∧ _))
  | .destroy _ => inferInstanceAs (Decidable (_ ∧ _))
  | .add .. => inferInstanceAs (Decidable (_ ∧ _ ∧ _))
  | .remove .. => inferInstanceAs (Decidable (_ ∧ _))
  | .rehash .. => inferInstanceAs (Decidable (_ ∧ _ ∧ _ ∧ (_ → _)))
  | .send => instDecidableTrue
  | .free => inferInstanceAs (Decidable (_ = _))

/-- `dr_table_init_nic`. -/
def start (sAnchor defaultIcmAddr : ℕ) : NicTbl where
  htbl := update (fun _ => newHtbl) sAnchor
    ⟨1, none, none, .miss defaultIcmAddr, .miss defaultIcmAddr⟩
  matcher := fun _ => ⟨0, 0, 0⟩
  matcherList := []
  nicMatcherList := []
  sAnchor := sAnchor
  defaultIcmAddr := defaultIcmAddr

/-! ### Searching the list -/

section Lists

variable {t : NicTbl} {m n : ℕ} {l l₁ l₂ : List ℕ}

/-- The list is cut where the priorities are no longer smaller. -/
theorem findNext_split (t : NicTbl) (prio : ℕ) : ∀ (l : List ℕ) (first : Bool), ∃ l₁ l₂,
    l = l₁ ++ l₂ ∧ (∀ x ∈ l₁, (t.matcher x).prio < prio) ∧
      (∀ n ∈ l₂.head?, prio ≤ (t.matcher n).prio) ∧
      findNext t prio l first = (l₂.head?, first && l₁.isEmpty)
  | [], first => ⟨[], [], rfl, by simp, by simp, by simp [findNext]⟩
  | x :: l, first => by
    unfold findNext
    by_cases hx : prio ≤ (t.matcher x).prio
    · rw [if_pos hx]
      exact ⟨[], x :: l, rfl, by simp, by simpa using hx, by simp⟩
    · rw [if_neg hx]
      obtain ⟨l₁, l₂, rfl, hlt, hle, hres⟩ := findNext_split t prio l false
      refine ⟨x :: l₁, l₂, rfl, ?_, hle, by simp [hres]⟩
      exact List.forall_mem_cons.mpr ⟨Nat.lt_of_not_le hx, hlt⟩

theorem listPrev_none : ∀ {l : List ℕ}, n ∉ l.tail → listPrev n l = none
  | [], _ => rfl
  | [_], _ => rfl
  | x :: y :: l, h => by
    have hne : y ≠ n := by
      rintro rfl
      exact h mem_cons_self
    unfold listPrev
    rw [if_neg hne]
    exact listPrev_none fun hn => h (mem_cons_of_mem y hn)

theorem listPrev_split : ∀ {l₁ : List ℕ}, (l₁ ++ n :: l₂).Nodup →
    listPrev n (l₁ ++ n :: l₂) = l₁.getLast?
  | [], h => listPrev_none (nodup_cons.mp h).1
  | [x], _ => by simp [listPrev]
  | x :: y :: l₁, h => by
    have hnd := (nodup_cons.mp h).2
    have hne : y ≠ n := by
      rintro rfl
      exact (nodup_cons.mp hnd).1 (by simp)
    have ih := @listPrev_split (y :: l₁) hnd
    change (if y = n then some x else listPrev n ((y :: l₁) ++ n :: l₂)) = _
    rw [if_neg hne, ih, List.getLast?_cons_cons]

theorem listNext_split : ∀ {l₁ l₂ : List ℕ}, m ∉ l₁ → listNext m (l₁ ++ m :: l₂) = l₂.head?
  | [], l₂, _ => by
    cases l₂ with
    | nil => rfl
    | cons n l₂ => simp [listNext]
  | x :: l₁, l₂, h => by
    obtain ⟨hx, hl⟩ := not_or.mp fun h' => h (mem_cons.mpr h')
    have ih := @listNext_split _ l₂ hl
    cases l₁ with
    | nil =>
      change (if x = m then _ else listNext m (m :: l₂)) = _
      rw [if_neg (Ne.symm hx)]
      exact ih
    | cons y l₁ =>
      change (if x = m then _ else listNext m ((y :: l₁) ++ m :: l₂)) = _
      rw [if_neg (Ne.symm hx), ih]

end Lists

/-! ### Links -/

/-- The link from an anchor to the start table of a matcher, and from there to its end anchor. -/
structure LinkTo (t : NicTbl) (a m : ℕ) : Prop where
  hit : (t.htbl a).hw = .hit (t.matcher m).sHtbl (t.htbl (t.matcher m).sHtbl).numOfEntries
  copy : (t.htbl a).hwSteArr = (t.htbl a).hw
  next : (t.htbl a).nextHtbl = some (t.matcher m).sHtbl
  pointing : (t.htbl (t.matcher m).sHtbl).pointingSte = some a
  miss : (t.htbl (t.matcher m).sHtbl).hw = .miss (t.matcher m).eAnchor

/-- All links from an anchor on. -/
def Linked (t : NicTbl) : ℕ → List ℕ → Prop
  | _, [] => True
  | a, m :: l => LinkTo t a m ∧ Linked t (t.matcher m).eAnchor l

/-- The anchor behind the last link. -/
def lastAnchor (t : NicTbl) (a : ℕ) : List ℕ → ℕ
  | [] => a
  | m :: l => lastAnchor t (t.matcher m).eAnchor l

section Links

variable {t t' : NicTbl} {m a u v : ℕ} {next prev : Option ℕ} {l l₁ l₂ : List ℕ}

@[simp] theorem modify_htbl (t : NicTbl) (u v : ℕ) (f : Htbl → Htbl) :
    (t.modify u f).htbl v = if v = u then f (t.htbl u) else t.htbl v :=
  update_apply ..

@[simp] theorem modify_matcher (t : NicTbl) (u : ℕ) (f : Htbl → Htbl) :
    (t.modify u f).matcher = t.matcher := rfl

@[simp] theorem modify_default (t : NicTbl) (u : ℕ) (f : Htbl → Htbl) :
    (t.modify u f).defaultIcmAddr = t.defaultIcmAddr := rfl

@[simp] theorem prevAnchor_modify (t : NicTbl) (u : ℕ) (f : Htbl → Htbl) (prev : Option ℕ) :
    prevAnchor (t.modify u f) prev = prevAnchor t prev := by
  cases prev <;> rfl

theorem linked_append : ∀ {l₁ : List ℕ} {a : ℕ},
    Linked t a (l₁ ++ l₂) ↔ Linked t a l₁ ∧ Linked t (lastAnchor t a l₁) l₂
  | [], a => ⟨fun h => ⟨trivial, h⟩, fun h => h.2⟩
  | m :: l₁, a => by
    change (_ ∧ Linked t _ (l₁ ++ l₂)) ↔ (_ ∧ Linked t _ l₁) ∧ _
    rw [linked_append, and_assoc]
    rfl

theorem lastAnchor_append : ∀ {l₁ : List ℕ} {a : ℕ},
    lastAnchor t a (l₁ ++ l₂) = lastAnchor t (lastAnchor t a l₁) l₂
  | [], _ => rfl
  | _ :: l₁, _ => @lastAnchor_append l₁ _

theorem prevAnchor_getLast : ∀ {l : List ℕ}, prevAnchor t l.getLast? = lastAnchor t t.sAnchor l := by
  intro l
  rcases eq_nil_or_concat l with rfl | ⟨l, p, rfl⟩
  · rfl
  · rw [concat_eq_append, lastAnchor_append, List.getLast?_concat]
    rfl

/-- A last anchor is the first one or an end anchor. -/
theorem lastAnchor_cases : ∀ (l : List ℕ) (a : ℕ),
    lastAnchor t a l = a ∧ l = [] ∨ ∃ l₀ p, l = l₀ ++ [p] ∧
      lastAnchor t a l = (t.matcher p).eAnchor := by
  intro l a
  rcases eq_nil_or_concat l with rfl | ⟨l, p, rfl⟩
  · exact .inl ⟨rfl, rfl⟩
  · rw [concat_eq_append]
    exact .inr ⟨l, p, rfl, by rw [lastAnchor_append]; rfl⟩

theorem lastAnchor_congr : ∀ {l : List ℕ} {a : ℕ},
    (∀ x ∈ l, (t'.matcher x).eAnchor = (t.matcher x).eAnchor) →
      lastAnchor t' a l = lastAnchor t a l
  | [], _, _ => rfl
  | m :: l, _, h => by
    unfold lastAnchor
    rw [h m mem_cons_self]
    exact lastAnchor_congr fun x hx => h x (mem_cons_of_mem m hx)

/-- FRAME: links stay where neither the matchers nor the tables between the anchors change. -/
theorem Linked.frame : ∀ {l : List ℕ} {a : ℕ}, (∀ x ∈ l, t'.matcher x = t.matcher x) →
    (∀ x ∈ l, t'.htbl (t.matcher x).sHtbl = t.htbl (t.matcher x).sHtbl) →
    (l ≠ [] → t'.htbl a = t.htbl a) →
    (∀ x ∈ l.dropLast, t'.htbl (t.matcher x).eAnchor = t.htbl (t.matcher x).eAnchor) →
      Linked t a l → Linked t' a l
  | [], _, _, _, _, _, _ => trivial
  | m :: l, a, hm, hs, ha, he, ⟨link, linked⟩ => by
    have hm₀ := hm m mem_cons_self
    have hs₀ := hs m mem_cons_self
    have ha₀ := ha (List.cons_ne_nil m l)
    have hrest : Linked t' (t.matcher m).eAnchor l := by
      refine Linked.frame (fun x hx => hm x (mem_cons_of_mem m hx))
        (fun x hx => hs x (mem_cons_of_mem m hx)) (fun hl => he m ?_) (fun x hx => he x ?_) linked
      · obtain ⟨y, l, rfl⟩ := List.exists_cons_of_ne_nil hl
        exact mem_cons_self
      · obtain ⟨y, l, rfl⟩ := List.exists_cons_of_ne_nil
          (List.ne_nil_of_mem (dropLast_subset _ hx))
        exact mem_cons_of_mem m hx
    refine ⟨⟨?_, ?_, ?_, ?_, ?_⟩, by rwa [hm₀]⟩
    · rw [hm₀, ha₀, hs₀]
      exact link.hit
    · rw [ha₀]
      exact link.copy
    · rw [hm₀, ha₀]
      exact link.next
    · rw [hm₀, hs₀]
      exact link.pointing
    · rw [hm₀, hs₀]
      exact link.miss

/-- The parts of a table that no link is made of. -/
def SameList (t t' : NicTbl) : Prop :=
  t'.matcher = t.matcher ∧ t'.matcherList = t.matcherList ∧
    t'.nicMatcherList = t.nicMatcherList ∧ t'.sAnchor = t.sAnchor ∧
    t'.defaultIcmAddr = t.defaultIcmAddr

/-- What `dr_nic_matcher_connect` does: the two links of the matcher, and nothing else. -/
theorem connect_spec (hse : (t.matcher m).sHtbl ≠ (t.matcher m).eAnchor)
    (hae : prevAnchor t prev ≠ (t.matcher m).eAnchor)
    (has : prevAnchor t prev ≠ (t.matcher m).sHtbl)
    (hn : ∀ n, next = some n → (t.matcher n).sHtbl ≠ (t.matcher m).eAnchor ∧
      (t.matcher n).sHtbl ≠ (t.matcher m).sHtbl ∧ (t.matcher n).sHtbl ≠ prevAnchor t prev ∧
      (t.htbl (t.matcher n).sHtbl).hw = .miss (t.matcher n).eAnchor) :
    ∃ t', drNicMatcherConnect t m next prev ⟨true, true, true⟩ = (t', true) ∧ SameList t t' ∧
      LinkTo t' (prevAnchor t prev) m ∧ (∀ n, next = some n → LinkTo t' (t.matcher m).eAnchor n) ∧
      (next = none → (t'.htbl (t.matcher m).eAnchor).hw = .miss t.defaultIcmAddr ∧
        (t'.htbl (t.matcher m).eAnchor).nextHtbl = (t.htbl (t.matcher m).eAnchor).nextHtbl) ∧
      ∀ u, u ≠ prevAnchor t prev → u ≠ (t.matcher m).sHtbl → u ≠ (t.matcher m).eAnchor →
        (∀ n, next = some n → u ≠ (t.matcher n).sHtbl) → t'.htbl u = t.htbl u := by
  have hse' := hse.symm
  have hae' := hae.symm
  have has' := has.symm
  cases next with
  | none =>
    refine ⟨_, rfl, ⟨rfl, rfl, rfl, rfl, rfl⟩, ⟨?_, ?_, ?_, ?_, ?_⟩, fun n h => (by cases h),
      fun _ => ⟨?_, ?_⟩, fun u ha hs he _ => ?_⟩
    all_goals simp_all [htblInitAndPostsend, NicTbl.point, setFormattedSte, nextInfo]
  | some n =>
    obtain ⟨hne, hns, hna, hmiss⟩ := hn n rfl
    have hne' := hne.symm
    have hns' := hns.symm
    have hna' := hna.symm
    refine ⟨_, rfl, ⟨rfl, rfl, rfl, rfl, rfl⟩, ⟨?_, ?_, ?_, ?_, ?_⟩, ?_, fun h => (by cases h),
      fun u ha hs he hn => ?_⟩
    case refine_6 =>
      rintro _ ⟨⟩
      refine ⟨?_, ?_, ?_, ?_, ?_⟩
      all_goals simp_all [htblInitAndPostsend, NicTbl.point, setFormattedSte, nextInfo]
    all_goals simp_all [htblInitAndPostsend, NicTbl.point, setFormattedSte]

/-- What `dr_matcher_disconnect_nic` does: one link, or the end. -/
theorem disconnect_spec
    (hn : ∀ n, next = some n → (t.matcher n).sHtbl ≠ prevAnchor t prev ∧
      (t.htbl (t.matcher n).sHtbl).hw = .miss (t.matcher n).eAnchor) :
    ∃ t', drMatcherDisconnectNic t next prev true = (t', true) ∧ SameList t t' ∧
      (∀ n, next = some n → LinkTo t' (prevAnchor t prev) n) ∧
      (next = none → (t'.htbl (prevAnchor t prev)).hw = .miss t.defaultIcmAddr ∧
        (t'.htbl (prevAnchor t prev)).nextHtbl = none) ∧
      ∀ u, u ≠ prevAnchor t prev → (∀ n, next = some n → u ≠ (t.matcher n).sHtbl) →
        t'.htbl u = t.htbl u := by
  cases next with
  | none =>
    refine ⟨_, rfl, ⟨rfl, rfl, rfl, rfl, rfl⟩, fun n h => (by cases h), fun _ => ⟨?_, ?_⟩,
      fun u ha _ => ?_⟩
    all_goals simp_all [htblInitAndPostsend, setFormattedSte, nextInfo]
  | some n =>
    refine ⟨_, rfl, ⟨rfl, rfl, rfl, rfl, rfl⟩, ?_, fun h => (by cases h), fun u ha hn => ?_⟩
    · rintro _ ⟨⟩
      refine ⟨?_, ?_, ?_, ?_, ?_⟩
      all_goals simp_all [htblInitAndPostsend, NicTbl.point, setFormattedSte, nextInfo]
    · simp_all [htblInitAndPostsend, NicTbl.point, nextInfo]

/-- A rehash of a start table, and its writes. -/
def rehashSent (t : NicTbl) (m newHtbl newSize : ℕ) : NicTbl :=
  let p := drRuleRehashHtbl t m newHtbl newSize true true
  drRuleSendUpdateList p.1 p.2.toList

/-- What a rehash of a start table does: the link leads to the new table. -/
theorem rehash_spec {newHtbl newSize : ℕ} (link : LinkTo t a m) (hna : newHtbl ≠ a) :
    (rehashSent t m newHtbl newSize).matcher =
        update t.matcher m { t.matcher m with sHtbl := newHtbl } ∧
      (rehashSent t m newHtbl newSize).matcherList = t.matcherList ∧
      (rehashSent t m newHtbl newSize).nicMatcherList = t.nicMatcherList ∧
      (rehashSent t m newHtbl newSize).sAnchor = t.sAnchor ∧
      (rehashSent t m newHtbl newSize).defaultIcmAddr = t.defaultIcmAddr ∧
      LinkTo (rehashSent t m newHtbl newSize) a m ∧
      ∀ u, u ≠ a → u ≠ newHtbl → (rehashSent t m newHtbl newSize).htbl u = t.htbl u := by
  obtain ⟨hhit, hcopy, hnext, hpointing, hmiss⟩ := link
  unfold rehashSent drRuleRehashHtbl
  dsimp only
  rw [hpointing]
  have hna' := hna.symm
  refine ⟨rfl, rfl, rfl, rfl, rfl, ⟨?_, ?_, ?_, ?_, ?_⟩, fun u ha hu => ?_⟩
  all_goals simp_all [NicTbl.point, Ste.setHitAddr, drRuleSendUpdateList, handleOneSteInUpdateList]

end Links

/-! ### Runs -/

/-- Each table in use has a chunk of its own. -/
structure Distinct (t : NicTbl) : Prop where
  sNeE : ∀ x ∈ t.matcherList, ∀ y ∈ t.matcherList, (t.matcher x).sHtbl ≠ (t.matcher y).eAnchor
  sInj : ∀ x ∈ t.matcherList, ∀ y ∈ t.matcherList,
    (t.matcher x).sHtbl = (t.matcher y).sHtbl → x = y
  eInj : ∀ x ∈ t.matcherList, ∀ y ∈ t.matcherList,
    (t.matcher x).eAnchor = (t.matcher y).eAnchor → x = y
  sNe : ∀ x ∈ t.matcherList, (t.matcher x).sHtbl ≠ t.sAnchor
  eNe : ∀ x ∈ t.matcherList, (t.matcher x).eAnchor ≠ t.sAnchor

/-- The invariant: the list is sorted and linked up, and its end leads to the default address. -/
structure Inv (t : NicTbl) : Prop where
  nodup : t.nicMatcherList.Nodup
  sub : ∀ m ∈ t.nicMatcherList, m ∈ t.matcherList
  sorted : t.nicMatcherList.Pairwise fun x y => (t.matcher x).prio ≤ (t.matcher y).prio
  distinct : Distinct t
  linked : Linked t t.sAnchor t.nicMatcherList
  ends : (t.htbl (lastAnchor t t.sAnchor t.nicMatcherList)).hw = .miss t.defaultIcmAddr

/-- The STE behind the last link has no next table. -/
def Tail (t : NicTbl) : Prop :=
  (t.htbl (lastAnchor t t.sAnchor t.nicMatcherList)).nextHtbl = none

section Steps

variable {t t' : NicTbl} {m a : ℕ} {l l₁ l₂ : List ℕ}

theorem Inv.of_frame (inv : Inv t) (hm : ∀ x ∈ t.nicMatcherList, t'.matcher x = t.matcher x)
    (hs : ∀ x ∈ t.nicMatcherList, t'.htbl (t.matcher x).sHtbl = t.htbl (t.matcher x).sHtbl)
    (he : ∀ x ∈ t.nicMatcherList, t'.htbl (t.matcher x).eAnchor = t.htbl (t.matcher x).eAnchor)
    (ha : t'.htbl t.sAnchor = t.htbl t.sAnchor) (hl : t'.nicMatcherList = t.nicMatcherList)
    (hsub : ∀ m ∈ t.nicMatcherList, m ∈ t'.matcherList) (hd : Distinct t')
    (hanchor : t'.sAnchor = t.sAnchor) (hdef : t'.defaultIcmAddr = t.defaultIcmAddr) :
    Inv t' ∧ (Tail t → Tail t') := by
  have hlast : lastAnchor t' t.sAnchor t.nicMatcherList =
      lastAnchor t t.sAnchor t.nicMatcherList :=
    lastAnchor_congr fun x hx => by rw [hm x hx]
  have hend : t'.htbl (lastAnchor t t.sAnchor t.nicMatcherList) =
      t.htbl (lastAnchor t t.sAnchor t.nicMatcherList) := by
    rcases lastAnchor_cases (t := t) t.nicMatcherList t.sAnchor with ⟨heq, -⟩ | ⟨l₀, p, hl₀, heq⟩
    · rw [heq, ha]
    · rw [heq]
      exact he p (by rw [hl₀]; simp)
  refine ⟨⟨hl ▸ inv.nodup, ?_, ?_, hd, ?_, ?_⟩, ?_⟩
  · rw [hl]
    exact hsub
  · rw [hl]
    refine inv.sorted.imp_of_mem fun hx hy h => ?_
    rw [hm _ hx, hm _ hy]
    exact h
  · rw [hl, hanchor]
    exact inv.linked.frame hm hs (fun _ => ha) fun x hx => he x (dropLast_subset _ hx)
  · rw [hl, hanchor, hdef, hlast, hend]
    exact inv.ends
  · unfold Tail
    rw [hl, hanchor, hlast, hend]
    exact id

/-- STEP: a matcher with new tables. -/
theorem Inv.create (inv : Inv t) {prio sHtbl eAnchor : ℕ} (hm : m ∉ t.matcherList)
    (hse : sHtbl ≠ eAnchor) (hs : Unused t sHtbl) (he : Unused t eAnchor) :
    Inv (drMatcherInitNic t m prio sHtbl eAnchor) ∧
      (Tail t → Tail (drMatcherInitNic t m prio sHtbl eAnchor)) := by
  have hmatcher : ∀ x ∈ t.matcherList,
      (drMatcherInitNic t m prio sHtbl eAnchor).matcher x = t.matcher x := by
    intro x hx
    refine update_of_ne ?_ ..
    rintro rfl
    exact hm hx
  have hself : (drMatcherInitNic t m prio sHtbl eAnchor).matcher m = ⟨prio, sHtbl, eAnchor⟩ :=
    update_self ..
  have hhtbl : ∀ u, u ≠ sHtbl → u ≠ eAnchor →
      (drMatcherInitNic t m prio sHtbl eAnchor).htbl u = t.htbl u := by
    intro u hus hue
    change (((t.modify eAnchor fun _ => newHtbl).modify sHtbl fun _ => newHtbl).htbl u) = _
    simp [hus, hue]
  have hold : ∀ x ∈ m :: t.matcherList, x ≠ m → x ∈ t.matcherList := fun x hx hne =>
    (mem_cons.mp hx).resolve_left hne
  refine inv.of_frame (fun x hx => hmatcher x (inv.sub x hx)) (fun x hx => ?_) (fun x hx => ?_)
    (hhtbl _ hs.1.symm he.1.symm) rfl (fun x hx => mem_cons_of_mem m (inv.sub x hx)) ?_ rfl rfl
  · exact hhtbl _ (hs.2 x (inv.sub x hx)).1.symm (he.2 x (inv.sub x hx)).1.symm
  · exact hhtbl _ (hs.2 x (inv.sub x hx)).2.symm (he.2 x (inv.sub x hx)).2.symm
  · refine ⟨fun x hx y hy => ?_, fun x hx y hy heq => ?_, fun x hx y hy heq => ?_,
      fun x hx => ?_, fun x hx => ?_⟩
    · by_cases hxm : x = m <;> by_cases hym : y = m
      · rw [hxm, hym, hself]
        exact hse
      · rw [hxm, hself, hmatcher y (hold y hy hym)]
        exact (hs.2 y (hold y hy hym)).2
      · rw [hym, hself, hmatcher x (hold x hx hxm)]
        exact (he.2 x (hold x hx hxm)).1.symm
      · rw [hmatcher x (hold x hx hxm), hmatcher y (hold y hy hym)]
        exact inv.distinct.sNeE x (hold x hx hxm) y (hold y hy hym)
    · by_cases hxm : x = m <;> by_cases hym : y = m
      · rw [hxm, hym]
      · rw [hxm, hself, hmatcher y (hold y hy hym)] at heq
        exact absurd heq (hs.2 y (hold y hy hym)).1
      · rw [hym, hself, hmatcher x (hold x hx hxm)] at heq
        exact absurd heq.symm (hs.2 x (hold x hx hxm)).1
      · rw [hmatcher x (hold x hx hxm), hmatcher y (hold y hy hym)] at heq
        exact inv.distinct.sInj x (hold x hx hxm) y (hold y hy hym) heq
    · by_cases hxm : x = m <;> by_cases hym : y = m
      · rw [hxm, hym]
      · rw [hxm, hself, hmatcher y (hold y hy hym)] at heq
        exact absurd heq (he.2 y (hold y hy hym)).2
      · rw [hym, hself, hmatcher x (hold x hx hxm)] at heq
        exact absurd heq.symm (he.2 x (hold x hx hxm)).2
      · rw [hmatcher x (hold x hx hxm), hmatcher y (hold y hy hym)] at heq
        exact inv.distinct.eInj x (hold x hx hxm) y (hold y hy hym) heq
    · by_cases hxm : x = m
      · rw [hxm, hself]
        exact hs.1
      · rw [hmatcher x (hold x hx hxm)]
        exact inv.distinct.sNe x (hold x hx hxm)
    · by_cases hxm : x = m
      · rw [hxm, hself]
        exact he.1
      · rw [hmatcher x (hold x hx hxm)]
        exact inv.distinct.eNe x (hold x hx hxm)

theorem Distinct.sublist (hd : Distinct t) (hm : t'.matcher = t.matcher)
    (hl : ∀ x ∈ t'.matcherList, x ∈ t.matcherList) (ha : t'.sAnchor = t.sAnchor) :
    Distinct t' := by
  refine ⟨?_, ?_, ?_, ?_, ?_⟩
  all_goals rw [hm]
  · exact fun x hx y hy => hd.sNeE x (hl x hx) y (hl y hy)
  · exact fun x hx y hy => hd.sInj x (hl x hx) y (hl y hy)
  · exact fun x hx y hy => hd.eInj x (hl x hx) y (hl y hy)
  · rw [ha]
    exact fun x hx => hd.sNe x (hl x hx)
  · rw [ha]
    exact fun x hx => hd.eNe x (hl x hx)

theorem Inv.destroy (inv : Inv t) (hm : m ∉ t.nicMatcherList) :
    Inv { t with matcherList := t.matcherList.erase m } ∧
      (Tail t → Tail { t with matcherList := t.matcherList.erase m }) := by
  refine inv.of_frame (fun x _ => rfl) (fun x _ => rfl) (fun x _ => rfl) rfl rfl (fun x hx => ?_)
    (inv.distinct.sublist rfl (fun x hx => List.mem_of_mem_erase hx) rfl) rfl rfl
  refine (List.mem_erase_of_ne ?_).mpr (inv.sub x hx)
  rintro rfl
  exact hm hx

/-- The anchor in front of a place in the list is that of the table or an end anchor. -/
theorem anchor_ne (inv : Inv t) (hl : ∀ x ∈ l₁, x ∈ t.matcherList) :
    (∀ x ∈ t.matcherList, (t.matcher x).sHtbl ≠ lastAnchor t t.sAnchor l₁) ∧
      ∀ x ∈ t.matcherList, l₁.getLast? ≠ some x →
        (t.matcher x).eAnchor ≠ lastAnchor t t.sAnchor l₁ := by
  rcases lastAnchor_cases (t := t) l₁ t.sAnchor with ⟨heq, -⟩ | ⟨l₀, p, rfl, heq⟩
  · rw [heq]
    exact ⟨inv.distinct.sNe, fun x hx _ => inv.distinct.eNe x hx⟩
  · have hp := hl p (by simp)
    rw [heq]
    refine ⟨fun x hx => inv.distinct.sNeE x hx p hp, fun x hx hne h => hne ?_⟩
    rw [List.getLast?_concat, inv.distinct.eInj x hx p hp h]

theorem not_last {x : ℕ} (hnd : l.Nodup) (hx : x ∈ l.dropLast) : l.getLast? ≠ some x := by
  intro hlast
  rcases eq_nil_or_concat l with rfl | ⟨l₀, p, rfl⟩
  · cases hx
  · rw [concat_eq_append] at hx hlast hnd
    rw [List.getLast?_concat] at hlast
    rw [List.dropLast_concat] at hx
    cases hlast
    exact (nodup_append'.mp hnd).2.2 hx (List.mem_singleton_self _)

/-- FRAME: around the place where a matcher is put in or taken out, the links before it and behind the
    next matcher stay. -/
theorem splice_frame (inv : Inv t) (hm : m ∈ t.matcherList)
    (hl : ∀ x ∈ l₁ ++ l₂, x ∈ t.matcherList) (hnd : (l₁ ++ l₂).Nodup) (hml : m ∉ l₁ ++ l₂)
    (hmatcher : t'.matcher = t.matcher)
    (hframe : ∀ u, u ≠ lastAnchor t t.sAnchor l₁ → u ≠ (t.matcher m).sHtbl →
      u ≠ (t.matcher m).eAnchor → (∀ n, l₂.head? = some n → u ≠ (t.matcher n).sHtbl) →
        t'.htbl u = t.htbl u) :
    (Linked t t.sAnchor l₁ → Linked t' t.sAnchor l₁) ∧
      ∀ n l₃, l₂ = n :: l₃ → Linked t (t.matcher n).eAnchor l₃ →
        Linked t' (t.matcher n).eAnchor l₃ ∧ t'.htbl (lastAnchor t (t.matcher n).eAnchor l₃) =
          t.htbl (lastAnchor t (t.matcher n).eAnchor l₃) := by
  obtain ⟨hsA, heA⟩ := @anchor_ne _ l₁ inv fun x hx => hl x (mem_append_left _ hx)
  have hne : ∀ x ∈ l₁ ++ l₂, x ≠ m := by
    rintro x hx rfl
    exact hml hx
  have hhead : ∀ n, l₂.head? = some n → n ∈ l₂ := fun n hn => List.mem_of_head? hn
  obtain ⟨-, hnd₂, hdisj⟩ := nodup_append'.mp hnd
  have hd := inv.distinct
  -- a start table that is not that of the next matcher
  have hs : ∀ x ∈ l₁ ++ l₂, (∀ n, l₂.head? = some n → x ≠ n) →
      t'.htbl (t.matcher x).sHtbl = t.htbl (t.matcher x).sHtbl := by
    intro x hx hn
    refine hframe _ (hsA x (hl x hx)) (fun h => hne x hx (hd.sInj x (hl x hx) m hm h))
      (hd.sNeE x (hl x hx) m hm) fun n hn' h => hn n hn' ?_
    exact hd.sInj x (hl x hx) n (hl n (mem_append_right _ (hhead n hn'))) h
  -- an end anchor that is not that of the matcher before
  have he : ∀ x ∈ l₁ ++ l₂, l₁.getLast? ≠ some x →
      t'.htbl (t.matcher x).eAnchor = t.htbl (t.matcher x).eAnchor := by
    intro x hx hn
    refine hframe _ (heA x (hl x hx) hn) (hd.sNeE m hm x (hl x hx)).symm
      (fun h => hne x hx (hd.eInj x (hl x hx) m hm h)) fun n hn' => ?_
    exact (hd.sNeE n (hl n (mem_append_right _ (hhead n hn'))) x (hl x hx)).symm
  have he₂ : ∀ x ∈ l₂, t'.htbl (t.matcher x).eAnchor = t.htbl (t.matcher x).eAnchor := by
    intro x hx
    refine he x (mem_append_right _ hx) fun hlast => ?_
    exact hdisj (List.mem_of_getLast? hlast) hx
  constructor
  · refine Linked.frame (fun x _ => by rw [hmatcher]) (fun x hx => ?_) (fun hne₁ => ?_) fun x hx => ?_
    · refine hs x (mem_append_left _ hx) ?_
      rintro n hn rfl
      exact hdisj hx (hhead x hn)
    · refine hframe _ ?_ (hd.sNe m hm).symm (hd.eNe m hm).symm fun n hn => ?_
      · rcases lastAnchor_cases (t := t) l₁ t.sAnchor with ⟨-, hnil⟩ | ⟨l₀, p, rfl, heq⟩
        · exact absurd hnil hne₁
        · rw [heq]
          exact (hd.eNe p (hl p (by simp))).symm
      · exact (hd.sNe n (hl n (mem_append_right _ (hhead n hn)))).symm
    · exact he x (mem_append_left _ (dropLast_subset _ hx)) (not_last (nodup_append'.mp hnd).1 hx)
  · rintro n l₃ rfl hlinked
    obtain ⟨hn, -⟩ := nodup_cons.mp hnd₂
    constructor
    · refine hlinked.frame (fun x _ => by rw [hmatcher]) (fun x hx => ?_)
        (fun _ => he₂ n mem_cons_self)
        fun x hx => he₂ x (mem_cons_of_mem n (dropLast_subset _ hx))
      refine hs x (mem_append_right _ (mem_cons_of_mem n hx)) ?_
      rintro n' hn' rfl
      cases hn'
      exact hn hx
    · rcases lastAnchor_cases (t := t) l₃ (t.matcher n).eAnchor with ⟨heq, -⟩ | ⟨l₀, q, rfl, heq⟩
      · rw [heq]
        exact he₂ n mem_cons_self
      · rw [heq]
        exact he₂ q (by simp)

/-- What `mlx5dr_matcher_add_to_tbl_nic` finds and how it puts the matcher on the list. -/
theorem add_split (hnd : t.nicMatcherList.Nodup) (hm : m ∉ t.nicMatcherList) : ∃ l₁ l₂,
    t.nicMatcherList = l₁ ++ l₂ ∧ (∀ x ∈ l₁, (t.matcher x).prio < (t.matcher m).prio) ∧
      (∀ n ∈ l₂.head?, (t.matcher m).prio ≤ (t.matcher n).prio) ∧
      ∀ posts t', drNicMatcherConnect t m l₂.head? l₁.getLast? posts = (t', true) →
        t'.nicMatcherList = t.nicMatcherList →
          mlx5drMatcherAddToTblNic t m posts = ({ t' with nicMatcherList := l₁ ++ m :: l₂ }, true) := by
  obtain ⟨l₁, l₂, hl, hlt, hle, hfind⟩ := findNext_split t (t.matcher m).prio t.nicMatcherList true
  refine ⟨l₁, l₂, hl, hlt, hle, fun posts t' hconnect hlist => ?_⟩
  unfold mlx5drMatcherAddToTblNic
  rw [if_neg hm, hfind]
  dsimp only
  rw [hl] at hlist hnd ⊢
  have hprev : (if (true && l₁.isEmpty) = true then none else match l₂.head? with
      | some n => listPrev n (l₁ ++ l₂)
      | none => (l₁ ++ l₂).getLast?) = l₁.getLast? := by
    rcases eq_nil_or_concat l₁ with rfl | ⟨l₀, p, rfl⟩
    · rfl
    · rw [concat_eq_append, if_neg (by simp)]
      cases l₂ with
      | nil => simp
      | cons n l₂ =>
        rw [concat_eq_append] at hnd
        exact listPrev_split hnd
  rw [hprev, hconnect]
  dsimp only
  rw [hlist]
  rcases eq_nil_or_concat l₁ with rfl | ⟨l₀, p, rfl⟩
  · cases l₂ with
    | nil => rfl
    | cons n l₂ => simp [insertBefore]
  · rw [concat_eq_append] at hnd ⊢
    have hp : p ∉ l₀ := by
      intro hp
      exact (nodup_append'.mp (nodup_append'.mp hnd).1).2.2 hp (List.mem_singleton_self p)
    rw [List.getLast?_concat]
    dsimp only
    rw [List.append_assoc, List.append_assoc, List.singleton_append, List.singleton_append,
      insertAfter_split hp]

theorem LinkTo.congr (link : LinkTo t a m) (hhtbl : t'.htbl = t.htbl)
    (hmatcher : t'.matcher = t.matcher) : LinkTo t' a m := by
  obtain ⟨hhit, hcopy, hnext, hpointing, hmiss⟩ := link
  constructor
  all_goals rwa [hhtbl, ← hmatcher] at *

/-- STEP: the part `l₂` of the list behind the anchor `b` is linked to the anchor `a` instead. -/
theorem Inv.splice {a b : ℕ} (inv : Inv t) (t' : NicTbl) (hm : m ∈ t.matcherList)
    (hsub : ∀ x ∈ l₁ ++ l₂, x ∈ t.matcherList) (hnd : (l₁ ++ l₂).Nodup) (hml : m ∉ l₁ ++ l₂)
    (hlinked₁ : Linked t t.sAnchor l₁) (hlinked₂ : Linked t b l₂)
    (hbefore : lastAnchor t t.sAnchor t.nicMatcherList = lastAnchor t b l₂)
    (same : SameList t { t' with nicMatcherList := t.nicMatcherList })
    (hframe : ∀ u, u ≠ lastAnchor t t.sAnchor l₁ → u ≠ (t.matcher m).sHtbl →
      u ≠ (t.matcher m).eAnchor → (∀ n, l₂.head? = some n → u ≠ (t.matcher n).sHtbl) →
        t'.htbl u = t.htbl u) (hlinkn : ∀ n, l₂.head? = some n → LinkTo t' a n)
    (hend : l₂ = [] → (t'.htbl a).hw = .miss t.defaultIcmAddr) (hnodup : t'.nicMatcherList.Nodup)
    (hall : ∀ x ∈ t'.nicMatcherList, x ∈ t.matcherList)
    (hsorted : t'.nicMatcherList.Pairwise fun x y => (t.matcher x).prio ≤ (t.matcher y).prio)
    (hlinked : Linked t' t.sAnchor l₁ → Linked t' a l₂ → Linked t' t.sAnchor t'.nicMatcherList)
    (hafter : lastAnchor t t.sAnchor t'.nicMatcherList = lastAnchor t a l₂) :
    Inv t' ∧ ((l₂ = [] → (t'.htbl a).nextHtbl = none) → Tail t → Tail t') := by
  obtain ⟨hmatcher, hlist, -, hanchor, hdef⟩ := same
  dsimp only at hmatcher hlist hanchor hdef
  obtain ⟨hkeep₁, hkeep₂⟩ := splice_frame inv hm hsub hnd hml hmatcher hframe
  have hbehind : Linked t' a l₂ ∧ (l₂ = [] ∨
      t'.htbl (lastAnchor t a l₂) = t.htbl (lastAnchor t b l₂)) := by
    cases l₂ with
    | nil => exact ⟨trivial, .inl rfl⟩
    | cons n l₃ =>
      obtain ⟨hlinked₃, heq⟩ := hkeep₂ n l₃ rfl hlinked₂.2
      refine ⟨⟨hlinkn n rfl, ?_⟩, .inr heq⟩
      rwa [hmatcher]
  have hlast : lastAnchor t' t'.sAnchor t'.nicMatcherList = lastAnchor t a l₂ := by
    rw [lastAnchor_congr (t := t) fun x _ => by rw [hmatcher], hanchor, hafter]
  have hends := inv.ends
  rw [hbefore] at hends
  refine ⟨⟨hnodup, fun x hx => hlist ▸ hall x hx, by rwa [hmatcher], ?_, ?_, ?_⟩,
    fun hcond htail => ?_⟩
  · exact inv.distinct.sublist hmatcher (fun x hx => hlist ▸ hx) hanchor
  · rw [hanchor]
    exact hlinked (hkeep₁ hlinked₁) hbehind.1
  · rw [hlast, hdef]
    rcases hbehind.2 with rfl | heq
    · exact hend rfl
    · rw [heq]
      exact hends
  · unfold Tail at htail ⊢
    rw [hbefore] at htail
    rw [hlast]
    rcases hbehind.2 with rfl | heq
    · exact hcond rfl
    · rw [heq]
      exact htail

/-- STEP: a matcher is put on the list. -/
theorem Inv.add (inv : Inv t) (hm : m ∈ t.matcherList) :
    Inv (mlx5drMatcherAddToTblNic t m ⟨true, true, true⟩).1 ∧
      (((∀ x ∈ t.nicMatcherList, (t.matcher x).prio < (t.matcher m).prio) →
        m ∉ t.nicMatcherList → (t.htbl (t.matcher m).eAnchor).nextHtbl = none) →
          Tail t → Tail (mlx5drMatcherAddToTblNic t m ⟨true, true, true⟩).1) := by
  by_cases hin : m ∈ t.nicMatcherList
  · unfold mlx5drMatcherAddToTblNic
    rw [if_pos hin]
    exact ⟨inv, fun _ => id⟩
  obtain ⟨l₁, l₂, hl, hlt, hle, hadd⟩ := add_split inv.nodup hin
  have hnd := hl ▸ inv.nodup
  have hml : m ∉ l₁ ++ l₂ := hl ▸ hin
  have hsub : ∀ x ∈ l₁ ++ l₂, x ∈ t.matcherList := hl ▸ inv.sub
  obtain ⟨hlinked₁, hlinked₂⟩ := linked_append.mp (hl ▸ inv.linked)
  have hd := inv.distinct
  obtain ⟨hsA, heA⟩ := @anchor_ne _ l₁ inv fun x hx => hsub x (mem_append_left _ hx)
  have hprev : prevAnchor t l₁.getLast? = lastAnchor t t.sAnchor l₁ := prevAnchor_getLast
  have hmlast : l₁.getLast? ≠ some m := fun h => hml (mem_append_left _ (List.mem_of_getLast? h))
  have hnext : ∀ n, l₂.head? = some n → (t.matcher n).sHtbl ≠ (t.matcher m).eAnchor ∧
      (t.matcher n).sHtbl ≠ (t.matcher m).sHtbl ∧
      (t.matcher n).sHtbl ≠ prevAnchor t l₁.getLast? ∧
      (t.htbl (t.matcher n).sHtbl).hw = .miss (t.matcher n).eAnchor := by
    intro n hn
    obtain ⟨l₃, rfl⟩ := List.head?_eq_some_iff.mp hn
    have hn' := hsub n (by simp)
    refine ⟨hd.sNeE n hn' m hm, fun h => ?_, hprev ▸ hsA n hn', hlinked₂.1.miss⟩
    obtain rfl := hd.sInj n hn' m hm h
    exact hml (by simp)
  obtain ⟨t₁, hconnect, ⟨hmatcher₁, hlist₁, hnic₁, hanchor₁, hdef₁⟩, hlink₁, hlinkn₁, hend₁,
    hframe₁⟩ := connect_spec (hd.sNeE m hm m hm) (hprev ▸ (heA m hm hmlast).symm)
      (hprev ▸ (hsA m hm).symm) hnext
  rw [hadd _ t₁ hconnect hnic₁]
  rw [hprev] at hlink₁ hframe₁
  have hperm : (l₁ ++ m :: l₂).Perm (m :: (l₁ ++ l₂)) := perm_middle
  have hlast : ∀ a, lastAnchor t a (l₁ ++ m :: l₂) = lastAnchor t (t.matcher m).eAnchor l₂ :=
    fun a => lastAnchor_append
  refine And.imp_right (fun htail hcond => htail fun h => ?_) (inv.splice
    (a := (t.matcher m).eAnchor) { t₁ with nicMatcherList := l₁ ++ m :: l₂ } hm hsub hnd hml
    hlinked₁ hlinked₂ (by rw [hl, lastAnchor_append]) ⟨hmatcher₁, hlist₁, rfl, hanchor₁, hdef₁⟩
    hframe₁ (fun n hn => (hlinkn₁ n hn).congr rfl rfl)
    (fun h => (hend₁ (by rw [h]; rfl)).1) (hperm.nodup_iff.mpr (nodup_cons.mpr ⟨hml, hnd⟩))
    (fun x hx => ?_) ?_ (fun h₁ h₂ => linked_append.mpr ⟨h₁, ?_⟩) (hlast _))
  · rcases mem_cons.mp (hperm.mem_iff.mp hx) with rfl | hx
    · exact hm
    · exact hsub x hx
  · have hsorted := List.pairwise_append.mp (hl ▸ inv.sorted)
    have hafter : ∀ y ∈ l₂, (t.matcher m).prio ≤ (t.matcher y).prio := by
      intro y hy
      obtain ⟨n, l₃, rfl⟩ := List.exists_cons_of_ne_nil (List.ne_nil_of_mem hy)
      rcases mem_cons.mp hy with rfl | hy
      · exact hle _ rfl
      · exact (hle n rfl).trans ((List.pairwise_cons.mp hsorted.2.1).1 y hy)
    refine List.pairwise_append.mpr ⟨hsorted.1, List.pairwise_cons.mpr ⟨hafter, hsorted.2.1⟩,
      fun x hx y hy => ?_⟩
    rcases mem_cons.mp hy with rfl | hy
    · exact (hlt x hx).le
    · exact hsorted.2.2 x hx y hy
  · rw [lastAnchor_congr (t := t) fun x _ => by rw [← hmatcher₁]]
    refine ⟨hlink₁.congr rfl rfl, ?_⟩
    change Linked _ (t₁.matcher m).eAnchor l₂
    rwa [congrFun hmatcher₁ m]
  · refine (hend₁ (by rw [h]; rfl)).2.trans (hcond (fun x hx => hlt x ?_) hin)
    rwa [hl, h, List.append_nil] at hx

/-- STEP: a matcher is taken off the list. -/
theorem Inv.remove (inv : Inv t) (m : ℕ) :
    Inv (mlx5drMatcherRemoveFromTblNic t m true).1 ∧
      (Tail t → Tail (mlx5drMatcherRemoveFromTblNic t m true).1) := by
  unfold mlx5drMatcherRemoveFromTblNic
  by_cases hin : m ∉ t.nicMatcherList
  · rw [if_pos hin]
    exact ⟨inv, id⟩
  rw [if_neg hin]
  obtain ⟨l₁, l₂, hl⟩ := List.append_of_mem (not_not.mp hin)
  have hnd := hl ▸ inv.nodup
  have hperm : (l₁ ++ m :: l₂).Perm (m :: (l₁ ++ l₂)) := perm_middle
  obtain ⟨hml, hnd'⟩ := nodup_cons.mp (hperm.nodup_iff.mp hnd)
  have hm₁ : m ∉ l₁ := fun h => hml (mem_append_left _ h)
  have hsub : ∀ x ∈ l₁ ++ l₂, x ∈ t.matcherList := fun x hx =>
    inv.sub x (hl ▸ hperm.mem_iff.mpr (mem_cons_of_mem m hx))
  have hm : m ∈ t.matcherList := inv.sub m (not_not.mp hin)
  obtain ⟨hlinked₁, -, hlinked₂⟩ := linked_append.mp (hl ▸ inv.linked)
  obtain ⟨hsA, -⟩ := @anchor_ne _ l₁ inv fun x hx => hsub x (mem_append_left _ hx)
  have hprev : prevAnchor t l₁.getLast? = lastAnchor t t.sAnchor l₁ := prevAnchor_getLast
  rw [hl, listNext_split hm₁, listPrev_split hnd]
  have hnext : ∀ n, l₂.head? = some n → (t.matcher n).sHtbl ≠ prevAnchor t l₁.getLast? ∧
      (t.htbl (t.matcher n).sHtbl).hw = .miss (t.matcher n).eAnchor := by
    intro n hn
    obtain ⟨l₃, rfl⟩ := List.head?_eq_some_iff.mp hn
    exact ⟨hprev ▸ hsA n (hsub n (by simp)), hlinked₂.1.miss⟩
  obtain ⟨t₁, hdisconnect, ⟨hmatcher₁, hlist₁, hnic₁, hanchor₁, hdef₁⟩, hlinkn₁, hend₁, hframe₁⟩ :=
    disconnect_spec hnext
  rw [hdisconnect]
  dsimp only
  rw [hprev] at hlinkn₁ hend₁ hframe₁
  have herase : t₁.nicMatcherList.erase m = l₁ ++ l₂ := by
    rw [hnic₁, hl, List.erase_append_right _ hm₁, List.erase_cons_head]
  rw [herase]
  have hsublist : (l₁ ++ l₂).Sublist (l₁ ++ m :: l₂) :=
    (List.sublist_cons_self m l₂).append_left l₁
  refine And.imp_right (fun htail => htail fun h => (hend₁ (by rw [h]; rfl)).2) (inv.splice
    (a := lastAnchor t t.sAnchor l₁) { t₁ with nicMatcherList := l₁ ++ l₂ } hm hsub hnd' hml
    hlinked₁ hlinked₂ (by rw [hl, lastAnchor_append]; rfl) ⟨hmatcher₁, hlist₁, rfl, hanchor₁, hdef₁⟩
    (fun u hA _ _ hn => hframe₁ u hA hn) (fun n hn => (hlinkn₁ n hn).congr rfl rfl)
    (fun h => (hend₁ (by rw [h]; rfl)).1) hnd' hsub ((hl ▸ inv.sorted).sublist hsublist)
    (fun h₁ h₂ => linked_append.mpr ⟨h₁, ?_⟩) lastAnchor_append)
  rwa [lastAnchor_congr (t := t) fun x _ => by rw [← hmatcher₁]]

theorem Distinct.rehash (hd : Distinct t) {newHtbl : ℕ} (hnew : Unused t newHtbl)
    (hmatcher : t'.matcher = update t.matcher m { t.matcher m with sHtbl := newHtbl })
    (hlist : t'.matcherList = t.matcherList) (hanchor : t'.sAnchor = t.sAnchor) :
    Distinct t' := by
  have he : ∀ x, (t'.matcher x).eAnchor = (t.matcher x).eAnchor := by
    intro x
    rw [hmatcher]
    by_cases hx : x = m
    · rw [hx, update_self]
    · rw [update_of_ne hx]
  have hs : ∀ x, x ≠ m → (t'.matcher x).sHtbl = (t.matcher x).sHtbl := by
    intro x hx
    rw [hmatcher, update_of_ne hx]
  have hsm : (t'.matcher m).sHtbl = newHtbl := by rw [hmatcher, update_self]
  refine ⟨?_, ?_, ?_, ?_, ?_⟩
  all_goals rw [hlist]
  · intro x hx y hy
    rw [he]
    by_cases hxm : x = m
    · rw [hxm, hsm]
      exact (hnew.2 y hy).2
    · rw [hs x hxm]
      exact hd.sNeE x hx y hy
  · intro x hx y hy heq
    by_cases hxm : x = m <;> by_cases hym : y = m
    · rw [hxm, hym]
    · rw [hxm, hsm, hs y hym] at heq
      exact absurd heq (hnew.2 y hy).1
    · rw [hym, hsm, hs x hxm] at heq
      exact absurd heq.symm (hnew.2 x hx).1
    · rw [hs x hxm, hs y hym] at heq
      exact hd.sInj x hx y hy heq
  · intro x hx y hy
    rw [he, he]
    exact hd.eInj x hx y hy
  · intro x hx
    rw [hanchor]
    by_cases hxm : x = m
    · rw [hxm, hsm]
      exact hnew.1
    · rw [hs x hxm]
      exact hd.sNe x hx
  · intro x hx
    rw [he, hanchor]
    exact hd.eNe x hx

/-- STEP: the start table of a matcher is replaced. -/
theorem Inv.rehash (inv : Inv t) {newHtbl : ℕ} (hin : m ∈ t.nicMatcherList)
    (hnew : Unused t newHtbl) (newSize : ℕ) :
    Inv (rehashSent t m newHtbl newSize) ∧
      (Tail t → Tail (rehashSent t m newHtbl newSize)) := by
  obtain ⟨l₁, l₂, hl⟩ := List.append_of_mem hin
  obtain ⟨hlinked₁, link, hlinked₂⟩ := linked_append.mp (hl ▸ inv.linked)
  have hperm : (l₁ ++ m :: l₂).Perm (m :: (l₁ ++ l₂)) := perm_middle
  obtain ⟨hml, hnd⟩ := nodup_cons.mp (hperm.nodup_iff.mp (hl ▸ inv.nodup))
  have hsub : ∀ x ∈ l₁ ++ l₂, x ∈ t.matcherList := fun x hx =>
    inv.sub x (hl ▸ hperm.mem_iff.mpr (mem_cons_of_mem m hx))
  have hm := inv.sub m hin
  have hd := inv.distinct
  obtain ⟨hsA, heA⟩ := @anchor_ne _ l₁ inv fun x hx => hsub x (mem_append_left _ hx)
  have hmlast : l₁.getLast? ≠ some m := fun h => hml (mem_append_left _ (List.mem_of_getLast? h))
  have hnewA : newHtbl ≠ lastAnchor t t.sAnchor l₁ := by
    rcases lastAnchor_cases (t := t) l₁ t.sAnchor with ⟨heq, -⟩ | ⟨l₀, p, rfl, heq⟩
    · rw [heq]
      exact hnew.1
    · rw [heq]
      exact (hnew.2 p (hsub p (by simp))).2
  obtain ⟨hmatcher, hlist, hnic, hanchor, hdef, hlink, hframe⟩ :=
    @rehash_spec _ _ _ _ newSize link hnewA
  generalize rehashSent t m newHtbl newSize = t' at *
  have hother : ∀ x ∈ l₁ ++ l₂, t'.matcher x = t.matcher x := by
    intro x hx
    rw [hmatcher, update_of_ne]
    rintro rfl
    exact hml hx
  have he : ∀ x, (t'.matcher x).eAnchor = (t.matcher x).eAnchor := by
    intro x
    rw [hmatcher]
    by_cases hx : x = m
    · rw [hx, update_self]
    · rw [update_of_ne hx]
  have hprio : ∀ x, (t'.matcher x).prio = (t.matcher x).prio := by
    intro x
    rw [hmatcher]
    by_cases hx : x = m
    · rw [hx, update_self]
    · rw [update_of_ne hx]
  have hkeep : ∀ x ∈ l₁ ++ l₂, t'.htbl (t.matcher x).sHtbl = t.htbl (t.matcher x).sHtbl :=
    fun x hx => hframe _ (hsA x (hsub x hx)) (hnew.2 x (hsub x hx)).1.symm
  have hkeepe : ∀ x ∈ t.matcherList, l₁.getLast? ≠ some x →
      t'.htbl (t.matcher x).eAnchor = t.htbl (t.matcher x).eAnchor :=
    fun x hx hn => hframe _ (heA x hx hn) (hnew.2 x hx).2.symm
  -- the anchors behind the matcher are not the one before it
  have hbehind : ∀ x ∈ l₂, l₁.getLast? ≠ some x := fun x hx hlast =>
    (nodup_append'.mp hnd).2.2 (List.mem_of_getLast? hlast) hx
  have hlast : lastAnchor t' t'.sAnchor t'.nicMatcherList =
      lastAnchor t t.sAnchor t.nicMatcherList := by
    rw [hnic, hanchor, lastAnchor_congr fun x _ => he x]
  have hend : t'.htbl (lastAnchor t t.sAnchor t.nicMatcherList) =
      t.htbl (lastAnchor t t.sAnchor t.nicMatcherList) := by
    rw [hl, lastAnchor_append]
    change t'.htbl (lastAnchor t (t.matcher m).eAnchor l₂) =
      t.htbl (lastAnchor t (t.matcher m).eAnchor l₂)
    rcases lastAnchor_cases (t := t) l₂ (t.matcher m).eAnchor with ⟨heq, rfl⟩ | ⟨l₀, q, rfl, heq⟩
    · rw [heq]
      exact hkeepe m hm hmlast
    · rw [heq]
      exact hkeepe q (hsub q (by simp)) (hbehind q (by simp))
  refine ⟨⟨hnic ▸ inv.nodup, fun x hx => hlist ▸ inv.sub x (hnic ▸ hx), ?_, ?_, ?_, ?_⟩, ?_⟩
  · rw [hnic]
    refine inv.sorted.imp fun {x y} h => ?_
    rw [hprio, hprio]
    exact h
  · exact hd.rehash hnew hmatcher hlist hanchor
  · rw [hnic, hanchor, hl]
    refine linked_append.mpr ⟨?_, ?_⟩
    · refine hlinked₁.frame (fun x hx => hother x (mem_append_left _ hx))
        (fun x hx => hkeep x (mem_append_left _ hx)) (fun hne => ?_) fun x hx => ?_
      · rcases lastAnchor_cases (t := t) l₁ t.sAnchor with ⟨-, hnil⟩ | ⟨l₀, p, rfl, heq⟩
        · exact absurd hnil hne
        · refine hframe _ ?_ hnew.1.symm
          rw [heq]
          exact (hd.eNe p (hsub p (by simp))).symm
      · exact hkeepe x (hsub x (mem_append_left _ (dropLast_subset _ hx)))
          (not_last (nodup_append'.mp hnd).1 hx)
    · rw [lastAnchor_congr fun x _ => he x]
      refine ⟨hlink, ?_⟩
      rw [he]
      refine hlinked₂.frame (fun x hx => hother x (mem_append_right _ hx))
        (fun x hx => hkeep x (mem_append_right _ hx)) (fun _ => hkeepe m hm hmlast) fun x hx => ?_
      have hx' := dropLast_subset _ hx
      exact hkeepe x (hsub x (mem_append_right _ hx')) (hbehind x hx')
  · rw [hlast, hend, hdef]
    exact inv.ends
  · unfold Tail
    rw [hlast, hend]
    exact id

end Steps

/-! ### The chain -/

/-- The path of hardware from an anchor: through the start table and the end anchor of each matcher, and
    then to the default address. -/
def HwPath (t : NicTbl) : ℕ → List ℕ → Prop
  | a, [] => (t.htbl a).hw = .miss t.defaultIcmAddr
  | a, m :: l =>
    (t.htbl a).hw = .hit (t.matcher m).sHtbl (t.htbl (t.matcher m).sHtbl).numOfEntries ∧
      (t.htbl (t.matcher m).sHtbl).hw = .miss (t.matcher m).eAnchor ∧
      HwPath t (t.matcher m).eAnchor l

/-- `next_htbl` and `pointing_ste` of each link from an anchor to a matcher. -/
def SwLinks (t : NicTbl) : ℕ → List ℕ → Prop
  | _, [] => True
  | a, m :: l => (t.htbl a).nextHtbl = some (t.matcher m).sHtbl ∧
    (t.htbl (t.matcher m).sHtbl).pointingSte = some a ∧ SwLinks t (t.matcher m).eAnchor l

/-- The list is sorted, hardware goes through its matchers in its order, and the links of software to
    matchers are those of hardware. -/
structure Chained (t : NicTbl) : Prop where
  nodup : t.nicMatcherList.Nodup
  sorted : t.nicMatcherList.Pairwise fun x y => (t.matcher x).prio ≤ (t.matcher y).prio
  path : HwPath t t.sAnchor t.nicMatcherList
  links : SwLinks t t.sAnchor t.nicMatcherList

/-- All links of software are those of hardware: where hardware goes to the default address there is no
    next table. -/
def Agrees (t : NicTbl) : Prop := Chained t ∧ Tail t

/-- No matcher is put at the end of the list whose end anchor still has the next table of the time when
    it was on the list before. -/
def fresh (w : World) (a : Act) : Prop :=
  ok w a ∧ match a with
    | .add m _ => (∀ x ∈ w.tbl.nicMatcherList, (w.tbl.matcher x).prio < (w.tbl.matcher m).prio) →
      m ∉ w.tbl.nicMatcherList → (w.tbl.htbl (w.tbl.matcher m).eAnchor).nextHtbl = none
    | _ => True

instance (t : NicTbl) : Decidable (Tail t) := inferInstanceAs (Decidable (_ = none))

instance (w : World) : ∀ a, Decidable (fresh w a)
  | .add .. => inferInstanceAs (Decidable (_ ∧ (_ → _ → _)))
  | .create .. | .destroy _ | .remove .. | .rehash .. | .send | .free =>
    inferInstanceAs (Decidable (_ ∧ True))

section Chain

variable {t : NicTbl} {sAnchor defaultIcmAddr : ℕ}

theorem Linked.chain : ∀ {l : List ℕ} {a : ℕ}, Linked t a l →
    (t.htbl (lastAnchor t a l)).hw = .miss t.defaultIcmAddr → HwPath t a l ∧ SwLinks t a l
  | [], _, _, h => ⟨h, trivial⟩
  | m :: l, a, ⟨link, linked⟩, h => by
    obtain ⟨hpath, hlinks⟩ := linked.chain (l := l) h
    exact ⟨⟨link.hit, link.miss, hpath⟩, link.next, link.pointing, hlinks⟩

theorem Inv.chained (inv : Inv t) : Chained t := by
  obtain ⟨hpath, hlinks⟩ := inv.linked.chain inv.ends
  exact ⟨inv.nodup, inv.sorted, hpath, hlinks⟩

theorem start_inv : Inv (start sAnchor defaultIcmAddr) ∧ Tail (start sAnchor defaultIcmAddr) := by
  have hself : (start sAnchor defaultIcmAddr).htbl sAnchor =
      ⟨1, none, none, .miss defaultIcmAddr, .miss defaultIcmAddr⟩ := by
    simp [start]
  refine ⟨⟨List.nodup_nil, ?_, List.Pairwise.nil, ⟨?_, ?_, ?_, ?_, ?_⟩, trivial, ?_⟩, ?_⟩
  · exact fun x hx => (by cases hx)
  · exact fun x hx => (by cases hx)
  · exact fun x hx => (by cases hx)
  · exact fun x hx => (by cases hx)
  · exact fun x hx => (by cases hx)
  · exact fun x hx => (by cases hx)
  · change ((start sAnchor defaultIcmAddr).htbl sAnchor).hw = _
    rw [hself]
    rfl
  · change ((start sAnchor defaultIcmAddr).htbl sAnchor).nextHtbl = none
    rw [hself]

/-- The table when the queue has been sent. -/
def World.sent (w : World) : NicTbl := drRuleSendUpdateList w.tbl w.sendSteList

theorem World.sent_of_nil {w : World} (h : w.sendSteList = []) : w.sent = w.tbl := by
  unfold World.sent
  rw [h]
  rfl

/-- STEP: the invariant is kept, and the end where the matcher is fresh. -/
theorem Inv.step {w : World} (inv : Inv w.sent) (a : Act) (h : ok w a) :
    Inv (step w a).sent ∧ (fresh w a → Tail w.sent → Tail (DrMatcher.step w a).sent) := by
  obtain ⟨t, l⟩ := w
  cases a with
  | create m prio sHtbl eAnchor =>
    obtain ⟨rfl, hm, hse, hs, he⟩ := h
    have hstep := @Inv.create _ _ inv prio _ _ hm hse hs he
    exact ⟨hstep.1, fun _ => hstep.2⟩
  | destroy m =>
    obtain ⟨rfl, hm⟩ := h
    have hstep := Inv.destroy inv hm
    exact ⟨hstep.1, fun _ => hstep.2⟩
  | add m posts =>
    obtain ⟨rfl, hm, rfl⟩ := h
    have hstep := Inv.add inv hm
    exact ⟨hstep.1, fun hfresh => hstep.2 hfresh.2⟩
  | remove m postOk =>
    obtain ⟨rfl, rfl⟩ := h
    have hstep := Inv.remove inv m
    exact ⟨hstep.1, fun _ => hstep.2⟩
  | rehash m newHtbl newSize allocOk copyOk =>
    obtain ⟨rfl, hm, hnew, hcopy⟩ := h
    cases allocOk with
    | false => exact ⟨inv, fun _ => id⟩
    | true =>
      obtain rfl : copyOk = true := hcopy rfl
      have hstep := Inv.rehash inv hm hnew newSize
      exact ⟨hstep.1, fun _ => hstep.2⟩
  | send => exact ⟨inv, fun _ => id⟩
  | free =>
    obtain rfl : l = [] := h
    exact ⟨inv, fun _ => id⟩

/-- `dr_table_init_nic`, and no rule that is being inserted. -/
def init (sAnchor defaultIcmAddr : ℕ) : World := ⟨start sAnchor defaultIcmAddr, []⟩

/-- RUN: in every state reached. -/
theorem reach_inv {w : World} (h : Reach step ok (init sAnchor defaultIcmAddr) w) : Inv w.sent :=
  @Reach.invariant _ _ _ _ _ _ (fun w => Inv w.sent) h start_inv.1
    fun _ a hok inv => (inv.step a hok).1

/-- CORRECT: as long as every matcher put at the end of the list is fresh, whenever no rule is being
    inserted the list is sorted, hardware goes through its matchers in its order, and all links of
    software are those of hardware. In any run only the link behind the last matcher can differ. -/
theorem matcher_chain {w : World} (h : Reach step fresh (init sAnchor defaultIcmAddr) w) :
    (w.sendSteList = [] → Agrees w.tbl) ∧
      ∀ w', Reach step ok (init sAnchor defaultIcmAddr) w' → w'.sendSteList = [] →
        Chained w'.tbl := by
  refine ⟨fun hnil => ?_, fun w' h' hnil => ?_⟩
  · have hrun : Inv w.sent ∧ Tail w.sent :=
      @Reach.invariant _ _ _ _ _ _ (fun w => Inv w.sent ∧ Tail w.sent) h start_inv
        fun _ a hok ⟨inv, tail⟩ => ⟨(inv.step a hok.1).1, (inv.step a hok.1).2 hok tail⟩
    rw [World.sent_of_nil hnil] at hrun
    exact ⟨hrun.1.chained, hrun.2⟩
  · have inv := reach_inv h'
    rw [World.sent_of_nil hnil] at inv
    exact inv.chained

end Chain

/-- Matchers are put in the middle and at the end, a rule rehashes one, the first one is taken off. -/
theorem matcher_chain_two : Agrees ([Act.create 0 5 10 11, .create 1 7 12 13, .create 2 5 14 15,
    .add 0 ⟨true, true, true⟩, .add 1 ⟨true, true, true⟩, .add 2 ⟨true, true, true⟩,
    .rehash 0 16 8 true true, .send, .remove 2 true].foldl step (init 1 99)).tbl :=
  (@matcher_chain 1 99 _ (Reach.start.runs (by decide))).1 (by decide)

/-- The first of two matchers is taken off, then the second one, and the first one is put back: hardware
    goes from its end anchor to the default address, but its next table is still that of the second
    one. -/
def staleActs : List Act := [.create 0 5 10 11, .create 1 7 12 13, .add 0 ⟨true, true, true⟩,
  .add 1 ⟨true, true, true⟩, .remove 0 true, .remove 1 true, .add 0 ⟨true, true, true⟩]

/-- A rule rehashes the start table and then fails: hardware keeps the old table. -/
def droppedActs : List Act := [.create 0 5 10 11, .add 0 ⟨true, true, true⟩,
  .rehash 0 16 8 true true, .free]

theorem matcher_chain_stale :
    (∃ w, Reach step ok (init 1 99) w ∧
      (w.tbl.htbl (w.tbl.matcher 0).eAnchor).hw = .miss 99 ∧
      (w.tbl.htbl (w.tbl.matcher 0).eAnchor).nextHtbl = some (w.tbl.matcher 1).sHtbl ∧
      w.tbl.nicMatcherList = [0] ∧ w.sendSteList = [] ∧ ¬ Agrees w.tbl) ∧
    ∃ w, Reach step (fun w a => ok w a ∨ a = .free) (init 1 99) w ∧
      (w.tbl.htbl 1).hw = .hit 10 1 ∧ (w.tbl.htbl 1).nextHtbl = some 16 ∧
      (w.tbl.matcher 0).sHtbl = 16 ∧ w.sendSteList = [] ∧ ¬ Agrees w.tbl := by
  refine ⟨⟨_, Reach.start.runs (l := staleActs) (by decide), by decide, by decide, by decide, rfl,
      fun h => absurd h.2 (by decide)⟩,
    ⟨_, Reach.start.runs (l := droppedActs) (by decide), by decide, by decide, by decide, rfl,
      fun h => absurd h.1.path.1 (by decide)⟩⟩

end RdmaDriver.DrMatcher
