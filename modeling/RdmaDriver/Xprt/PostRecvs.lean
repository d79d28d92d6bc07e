import Mathlib.Data.Fintype.Basic
import RdmaDriver.Schemes.Run
import RdmaDriver.Schemes.Tally

/-! @src net/sunrpc/xprtrdma/verbs.c, rpc_rdma.c, backchannel.c, frwr_ops.c |
    name:Refilling the Receive Queue | scheme:run | family:resource-pool

    The client keeps Receives posted. A refill takes reps from the free list, or allocates them,
    chains them and posts the chain; what is not posted goes back to the free list. A completed rep
    is put back, or attached to the request that it answers, or that is made for the reverse-direction
    call in it, until that is put.

        free --> chain of a call --> posted --> handled --> request
          ^------------+                |          |           |
          +-----------------------------+----------+-----------+

    `re_receiving` counts the calls in the critical section: a call that finds another there leaves
    at once. Two of the exits leave without the decrement, and two exits of the reply handler leave
    the rep in no place. -/

namespace RdmaDriver.PostRecvs
open Schemes Function
open List (count_nil foldl)

/-! ### Code -/

def RPCRDMA_MAX_RECV_BATCH : ℤ := 7

/-- Where a thread is in `rpcrdma_post_recvs`: not there; at the head of the loop; at
    `ib_post_recv`; at the decrement of `re_receiving`; at the addition to `re_receive_count`. A
    chain is named by its reps, the one that was added last first. -/
inductive Call where
  | idle
  | build (needed : ℤ) (temp : Bool) (chain : List ℕ) (count : ℤ)
  | post (chain : List ℕ) (count : ℤ)
  | leave (count : ℤ)
  | account (count : ℤ)
  deriving DecidableEq

/-- The reps that a call has chained and not posted. -/
def Call.chain : Call → List ℕ
  | .build _ _ chain _ => chain
  | .post chain _ => chain
  | _ => []

/-- The endpoint, the buffer pool, and who has which rep: `τ` are the threads, `ρ` the requests, and
    a rep is named by its address. `handled` are the reps whose completion is being handled. -/
structure State (τ ρ : Type) where
  reReceiveCount : ℤ
  reReceiving : ℤ
  rbFreeReps : List ℕ
  rbAllReps : List ℕ
  rrTemp : ℕ → Bool
  posted : List ℕ
  handled : List ℕ
  rlReply : ρ → Option ℕ
  call : τ → Call

variable {τ ρ : Type}

section Code

variable [DecidableEq τ] [DecidableEq ρ]

/-- Thread `t` goes on at `c`. -/
def State.goto (s : State τ ρ) (t : τ) (c : Call) : State τ ρ :=
  { s with call := update s.call t c }

/-- `rpcrdma_rep_put`. -/
def repPut (s : State τ ρ) (rep : ℕ) : State τ ρ := { s with rbFreeReps := rep :: s.rbFreeReps }

/-- The checks before the loop. A second call leaves with `re_receiving` incremented. -/
def begin (s : State τ ρ) (t : τ) (needed : ℤ) (temp : Bool) : State τ ρ :=
  if s.reReceiveCount > needed then s.goto t (.account 0)
  else
    let needed := needed - s.reReceiveCount
    let needed := if temp then needed else needed + RPCRDMA_MAX_RECV_BATCH
    let s := { s with reReceiving := s.reReceiving + 1 }
    if s.reReceiving > 1 then s.goto t (.account 0) else s.goto t (.build needed temp [] 0)

/-- Behind the loop: `if (!wr) goto out`. -/
def leaveLoop (s : State τ ρ) (t : τ) (chain : List ℕ) (count : ℤ) : State τ ρ :=
  if chain = [] then s.goto t (.account count) else s.goto t (.post chain count)

/-- The rest of a turn with a rep: it is mapped and chained, or put back. -/
def chainRep (s : State τ ρ) (t : τ) (needed : ℤ) (temp : Bool) (chain : List ℕ) (count : ℤ)
    (rep : ℕ) (mapped : Bool) : State τ ρ :=
  if mapped then s.goto t (.build (needed - 1) temp (rep :: chain) (count + 1))
  else leaveLoop (repPut s rep) t chain count

/-- A turn of the loop: `created` is the outcome of `rpcrdma_rep_create`, `mapped` that of
    `rpcrdma_regbuf_dma_map`. -/
def turn (s : State τ ρ) (t : τ) (needed : ℤ) (temp : Bool) (chain : List ℕ) (count : ℤ)
    (created : Option ℕ) (mapped : Bool) : State τ ρ :=
  if needed = 0 then leaveLoop s t chain count
  else match s.rbFreeReps with
    | rep :: free =>
      let s := { s with rbFreeReps := free }
      -- `rpcrdma_rep_destroy`, `continue`
      if s.rrTemp rep then { s with rbAllReps := s.rbAllReps.erase rep }
      else chainRep s t needed temp chain count rep mapped
    | [] => match created with
      | some rep =>
        chainRep { s with
          rbAllReps := rep :: s.rbAllReps, rrTemp := update s.rrTemp rep temp }
          t needed temp chain count rep mapped
      | none => leaveLoop s t chain count

/-- `ib_post_recv`; `bad` is the position of `bad_wr` in the chain, if it fails. -/
def postRecv (s : State τ ρ) (t : τ) (chain : List ℕ) (count : ℤ) : Option ℕ → State τ ρ
  | none => { s with posted := chain ++ s.posted }.goto t (.leave count)
  | some bad =>
    let s := { s with posted := chain.take bad ++ s.posted }
    ((chain.drop bad).foldl repPut s).goto t (.leave (count - (chain.drop bad).length))

/-- What happens next: a thread goes on in `rpcrdma_post_recvs`; a Receive completes; a handled rep
    is put back, or attached to a request, whose older reply is put, or holds a reverse-direction
    call, for which there is a request or not; a request puts its reply, or is unpinned. -/
inductive Event (τ ρ : Type) where
  | begin (t : τ) (needed : ℤ) (temp : Bool)
  | turn (t : τ) (created : Option ℕ) (mapped : Bool)
  | post (t : τ) (bad : Option ℕ)
  | leave (t : τ)
  | account (t : τ)
  | complete (rep : ℕ) (success : Bool)
  | put (rep : ℕ)
  | attach (rep : ℕ) (req : ρ)
  | bcall (rep : ℕ) (req : Option ρ)
  | replyPut (req : ρ)
  | unpin (req : ρ)

/-- A rep is put if there is one. -/
def replyPut (s : State τ ρ) (req : ρ) : State τ ρ :=
  match s.rlReply req with
  | none => s
  | some rep => { repPut s rep with rlReply := update s.rlReply req none }

def step (s : State τ ρ) : Event τ ρ → State τ ρ
  | .begin t needed temp => begin s t needed temp
  | .turn t created mapped =>
    match s.call t with
    | .build needed temp chain count => turn s t needed temp chain count created mapped
    | _ => s
  | .post t bad =>
    match s.call t with
    | .post chain count => postRecv s t chain count bad
    | _ => s
  | .leave t =>
    match s.call t with
    | .leave count => { s with reReceiving := s.reReceiving - 1 }.goto t (.account count)
    | _ => s
  | .account t =>
    match s.call t with
    | .account count =>
      { s with reReceiveCount := s.reReceiveCount + count }.goto t .idle
    | _ => s
  | .complete rep success =>
    let s := { s with
      reReceiveCount := s.reReceiveCount - 1, posted := s.posted.erase rep }
    if success then { s with handled := rep :: s.handled } else repPut s rep
  | .put rep => repPut { s with handled := s.handled.erase rep } rep
  | .attach rep req =>
    let s := replyPut { s with handled := s.handled.erase rep } req
    { s with rlReply := update s.rlReply req (some rep) }
  | .bcall rep req =>
    let s := { s with handled := s.handled.erase rep }
    match req with
    | some req => { s with rlReply := update s.rlReply req (some rep) }
    -- the call is cut short, or `out_overflow`
    | none => s
  | .replyPut req => replyPut s req
  -- `frwr_unmap_async` cannot post, or `frwr_wc_localinv_done` fails: `rpcrdma_unpin_rqst`
  | .unpin req => { s with rlReply := update s.rlReply req none }

/-- A call begins in a thread that is in none, a new rep has an address of its own, a chain is cut
    at one of its WRs, what completes or is handled was posted or has completed, and the request for
    a reverse-direction call is a free or a new one. -/
def ok (s : State τ ρ) : Event τ ρ → Prop
  | .begin t _ _ => s.call t = .idle
  | .turn _ created _ => ∀ rep ∈ created, rep ∉ s.rbAllReps
  | .post t bad => ∀ k ∈ bad, k < (s.call t).chain.length
  | .complete rep _ => rep ∈ s.posted
  | .put rep => rep ∈ s.handled
  | .attach rep _ => rep ∈ s.handled
  | .bcall rep req => rep ∈ s.handled ∧ ∀ q ∈ req, s.rlReply q = none
  | _ => True

/-! ### What is promised -/

/-- What a call has posted and not yet added to `re_receive_count`. -/
def Call.owed : Call → ℤ
  | .leave count => count
  | .account count => count
  | _ => 0

/-- A call in the critical section is one. -/
def Call.inside : Call → ℤ
  | .build .. => 1
  | .post .. => 1
  | .leave _ => 1
  | _ => 0

variable [Fintype τ] [Fintype ρ]

/-- How often a rep occurs: in the free list, in a chain, among the posted and the handled ones, and
    as the reply of a request. -/
def places (s : State τ ρ) (rep : ℕ) : ℕ :=
  s.rbFreeReps.count rep + ∑ t, (s.call t).chain.count rep + s.posted.count rep +
    s.handled.count rep + ∑ req, (s.rlReply req).toList.count rep

/-- Every rep is in one place; what is posted is counted, or will be by a call in progress. -/
structure Kept (s : State τ ρ) : Prop where
  nodup : s.rbAllReps.Nodup
  places : ∀ rep, places s rep = s.rbAllReps.count rep
  count : s.reReceiveCount + ∑ t, (s.call t).owed = s.posted.length

/-- Every call in the critical section is counted once. -/
def Receiving (s : State τ ρ) : Prop := s.reReceiving = ∑ t, (s.call t).inside

/-- A turn ends the loop of a call that has chained nothing: it needs no more, or a rep is not to be
    had, or not mapped. -/
def StopsEmpty (s : State τ ρ) (created : Option ℕ) (mapped : Bool) : Call → Prop
  | .build needed _ [] _ => needed = 0 ∨ s.rbFreeReps = [] ∧ created = none ∨
      (∀ rep ∈ s.rbFreeReps.head?, s.rrTemp rep = false) ∧ mapped = false
  | _ => False

/-- The exits that do not decrement or that lose a rep are not taken: no call enters while another
    is in the critical section, none leaves the loop with nothing chained, a reverse-direction call
    gets a request, and no reply is unpinned. -/
def fine (s : State τ ρ) : Event τ ρ → Prop
  | .begin _ needed _ => s.reReceiveCount ≤ needed → s.reReceiving = 0
  | .turn t created mapped => ¬ StopsEmpty s created mapped (s.call t)
  | .bcall _ req => req ≠ none
  | .unpin _ => False
  | _ => True

/-- What a transport starts with: nothing is posted, no call is in progress. -/
structure Start (s : State τ ρ) : Prop where
  nodup : s.rbAllReps.Nodup
  places : ∀ rep, PostRecvs.places s rep = s.rbAllReps.count rep
  reReceiveCount : s.reReceiveCount = 0
  reReceiving : s.reReceiving = 0
  posted : s.posted = []
  call : ∀ t, s.call t = .idle

end Code

/-! ### Places and counts -/

section Counts

variable {r : ℕ} {l : List ℕ}

theorem count_cons_add (r : ℕ) (l : List ℕ) (rep : ℕ) :
    (r :: l).count rep = [r].count rep + l.count rep :=
  @List.count_append _ _ rep [r] l

theorem count_erase_add (h : r ∈ l) (rep : ℕ) :
    (l.erase r).count rep + [r].count rep = l.count rep := by
  rw [(List.perm_cons_erase h).count_eq rep, count_cons_add r (l.erase r), Nat.add_comm]

/-- Reps that are put change the free list only. -/
theorem foldl_repPut_other (l : List ℕ) (s : State τ ρ) : (l.foldl repPut s).call = s.call ∧
    (l.foldl repPut s).rbAllReps = s.rbAllReps ∧
    (l.foldl repPut s).reReceiveCount = s.reReceiveCount ∧
    (l.foldl repPut s).posted = s.posted ∧ (l.foldl repPut s).reReceiving = s.reReceiving := by
  induction l generalizing s with
  | nil => exact ⟨rfl, rfl, rfl, rfl, rfl⟩
  | cons r l ih => exact ih (repPut s r)

/-- A chain that goes is one that is cut behind its end. -/
theorem postRecv_none [DecidableEq τ] (s : State τ ρ) (t : τ) (chain : List ℕ) (count : ℤ) :
    postRecv s t chain count none = postRecv s t chain count (some chain.length) := by
  simp [postRecv]

theorem replyPut_reply [DecidableEq ρ] (s : State τ ρ) (req : ρ) :
    (replyPut s req).rlReply req = none := by
  unfold replyPut
  cases hreply : s.rlReply req with
  | none => exact hreply
  | some rep => exact update_self _ _ _

/-- A call counts what it has chained. -/
def Call.Chained : Call → Prop
  | .build _ _ chain count => count = chain.length
  | .post chain count => count = chain.length
  | _ => True

theorem chained_goto {s : State τ ρ} {t : τ} {c : Call} [DecidableEq τ]
    (h : ∀ u, (s.call u).Chained) (hc : c.Chained) (u : τ) :
    ((s.goto t c).call u).Chained := by
  by_cases hu : u = t
  · subst hu
    change (update s.call u c u).Chained
    rwa [update_self]
  · change (update s.call t c u).Chained
    rw [update_of_ne hu]
    exact h u

variable [Fintype τ]

theorem owed_goto [DecidableEq τ] (s : State τ ρ) (t : τ) (c : Call) :
    ∑ u, ((s.goto t c).call u).owed + (s.call t).owed = ∑ u, (s.call u).owed + c.owed :=
  sum_update Call.owed s.call t c

theorem inside_goto [DecidableEq τ] (s : State τ ρ) (t : τ) (c : Call) :
    ∑ u, ((s.goto t c).call u).inside + (s.call t).inside = ∑ u, (s.call u).inside + c.inside :=
  sum_update Call.inside s.call t c

variable [Fintype ρ]

theorem places_goto [DecidableEq τ] (s : State τ ρ) (t : τ) (c : Call) (rep : ℕ) :
    places (s.goto t c) rep + (s.call t).chain.count rep = places s rep + c.chain.count rep := by
  have hsum := sum_update (fun c : Call => c.chain.count rep) s.call t c
  simp only [places, State.goto]
  omega

theorem places_repPut (s : State τ ρ) (r rep : ℕ) :
    places (repPut s r) rep = places s rep + [r].count rep := by
  simp only [places, repPut]
  rw [count_cons_add r s.rbFreeReps]
  omega

theorem places_foldl_repPut (l : List ℕ) (s : State τ ρ) (rep : ℕ) :
    places (l.foldl repPut s) rep = places s rep + l.count rep := by
  induction l generalizing s with
  | nil => rfl
  | cons r l ih => rw [List.foldl_cons, ih, places_repPut, count_cons_add r l, Nat.add_assoc]

/-- A request takes another reply. -/
theorem places_reply [DecidableEq ρ] (s : State τ ρ) (req : ρ) (o : Option ℕ) (r : ℕ) :
    places { s with rlReply := update s.rlReply req o } r +
      (s.rlReply req).toList.count r = places s r + o.toList.count r := by
  have h1 := sum_update (fun o : Option ℕ => o.toList.count r) s.rlReply req o
  simp only [places]
  omega

end Counts

/-! ### Places are kept -/

section Places

variable [Fintype τ] [Fintype ρ] {s : State τ ρ} {t : τ} {req : ρ} {c : Call} {rep : ℕ}
  {hand hand' chain : List ℕ} {needed count : ℤ} {temp : Bool}

/-- INVARIANT: the reps are in their places, but for those in hand. -/
structure Inv (hand : List ℕ) (s : State τ ρ) : Prop where
  nodup : s.rbAllReps.Nodup
  places : ∀ rep, places s rep + hand.count rep = s.rbAllReps.count rep
  count : s.reReceiveCount + ∑ t, (s.call t).owed = s.posted.length
  chained : ∀ t, (s.call t).Chained

theorem Start.inv (h : Start s) : Inv [] s := { h with
  count := by simp [h.reReceiveCount, h.posted, h.call, Call.owed]
  chained t := by
    rw [h.call t]
    trivial }

theorem Inv.putRep (h : Inv (rep :: hand) s) : Inv hand (repPut s rep) := { h with
  places r := by
    have h1 := h.places r
    rw [places_repPut, Nat.add_assoc, ← count_cons_add]
    exact h1 }

/-- STEP: a Receive completes. -/
theorem Inv.complete (h : Inv [] s) (hmem : rep ∈ s.posted) : Inv [rep] { s with
    reReceiveCount := s.reReceiveCount - 1, posted := s.posted.erase rep } := { h with
  places r := by
    have h1 := h.places r
    have h2 := count_erase_add hmem r
    simp only [PostRecvs.places, count_nil] at h1 ⊢
    omega
  count := by
    have h1 := h.count
    have h2 := List.length_erase_add_one hmem
    change s.reReceiveCount - 1 + ∑ t, (s.call t).owed = ((s.posted.erase rep).length : ℤ)
    omega }

theorem Inv.takeHandled (h : Inv [] s) (hmem : rep ∈ s.handled) :
    Inv [rep] { s with handled := s.handled.erase rep } := by
  refine { h with places := fun r => ?_ }
  have h1 := h.places r
  have h2 := count_erase_add hmem r
  simp only [PostRecvs.places, count_nil] at h1 ⊢
  omega

section Replies

variable [DecidableEq ρ]

theorem Inv.replyPut (h : Inv hand s) (req : ρ) : Inv hand (replyPut s req) := by
  unfold PostRecvs.replyPut
  cases hreply : s.rlReply req with
  | none => exact h
  | some rep =>
    have hput : Inv (rep :: hand) { s with rlReply := update s.rlReply req none } := by
      refine { h with places := fun r => ?_ }
      have h1 := h.places r
      have h2 := places_reply s req none r
      rw [hreply] at h2
      change _ + [rep].count r = _ + 0 at h2
      rw [count_cons_add rep hand]
      change _ = s.rbAllReps.count r
      omega
    exact hput.putRep

theorem Inv.attach (h : Inv [rep] s) (hnone : s.rlReply req = none) :
    Inv [] { s with rlReply := update s.rlReply req (some rep) } := by
  refine { h with places := fun r => ?_ }
  have h1 := h.places r
  have h2 := places_reply s req (some rep) r
  rw [hnone] at h2
  change _ + 0 = _ + [rep].count r at h2
  change _ + 0 = s.rbAllReps.count r
  omega

end Replies

variable [DecidableEq τ]

theorem Inv.goto (h : Inv hand s)
    (hchain : ∀ rep, c.chain.count rep + hand'.count rep =
      (s.call t).chain.count rep + hand.count rep)
    (howed : c.owed = (s.call t).owed) (hc : c.Chained) : Inv hand' (s.goto t c) where
  nodup := h.nodup
  places rep := by
    have h1 := h.places rep
    have h2 := places_goto s t c rep
    have h3 := hchain rep
    change PostRecvs.places (s.goto t c) rep + _ = s.rbAllReps.count rep
    omega
  count := by
    have h1 := h.count
    have h2 := owed_goto s t c
    change s.reReceiveCount + _ = (s.posted.length : ℤ)
    omega
  chained := chained_goto h.chained hc

theorem Inv.leaveLoop (h : Inv [] s) (hcall : s.call t = .build needed temp chain count) :
    Inv [] (leaveLoop s t chain count) := by
  have hcount : count = chain.length := by
    have := h.chained t
    rwa [hcall] at this
  unfold PostRecvs.leaveLoop
  split_ifs with hnil
  · refine h.goto (fun rep => ?_) ?_ trivial
    · rw [hcall, hnil]
      rfl
    · rw [hcall, hcount, hnil]
      rfl
  · refine h.goto (fun rep => ?_) ?_ hcount
    · rw [hcall]
      rfl
    · rw [hcall]
      rfl

theorem Inv.chainRep (h : Inv [rep] s) (hcall : s.call t = .build needed temp chain count)
    (mapped : Bool) : Inv [] (chainRep s t needed temp chain count rep mapped) := by
  have hcount : count = chain.length := by
    have := h.chained t
    rwa [hcall] at this
  unfold PostRecvs.chainRep
  split_ifs
  · refine h.goto (fun r => ?_) ?_ ?_
    · rw [hcall]
      change (rep :: chain).count r + 0 = chain.count r + [rep].count r
      rw [count_cons_add rep chain, Nat.add_zero, Nat.add_comm]
    · rw [hcall]
      rfl
    · change count + 1 = ((rep :: chain).length : ℤ)
      rw [hcount, List.length_cons]
      rfl
  · exact h.putRep.leaveLoop hcall

/-- STEP: a turn of the loop. -/
theorem Inv.turn (h : Inv [] s) (hcall : s.call t = .build needed temp chain count)
    {created : Option ℕ} (hnew : ∀ rep ∈ created, rep ∉ s.rbAllReps) (mapped : Bool) :
    Inv [] (turn s t needed temp chain count created mapped) := by
  unfold PostRecvs.turn
  split_ifs with h0
  · exact h.leaveLoop hcall
  cases hfree : s.rbFreeReps with
  | cons rep free =>
    have htake : Inv [rep] { s with rbFreeReps := free } := by
      refine { h with places := fun r => ?_ }
      have h1 := h.places r
      simp only [PostRecvs.places, hfree, count_nil] at h1 ⊢
      rw [count_cons_add rep free] at h1
      omega
    dsimp only
    split_ifs with htemp
    · -- a rep that is destroyed was a rep of the transport
      have hmem : rep ∈ s.rbAllReps := by
        have h1 : _ + [rep].count rep = s.rbAllReps.count rep := htake.places rep
        rw [List.count_singleton_self] at h1
        exact List.count_pos_iff.mp (by omega)
      refine ⟨h.nodup.erase rep, fun r => ?_, h.count, h.chained⟩
      have h1 := htake.places r
      have h2 := count_erase_add hmem r
      simp only [PostRecvs.places, count_nil] at h1 ⊢
      omega
    · exact htake.chainRep hcall mapped
  | nil =>
    cases created with
    | none => exact h.leaveLoop hcall
    | some rep =>
      have hmake : Inv [rep] { s with
          rbAllReps := rep :: s.rbAllReps, rrTemp := update s.rrTemp rep temp } := by
        refine ⟨List.nodup_cons.mpr ⟨hnew rep rfl, h.nodup⟩, fun r => ?_, h.count, h.chained⟩
        have h1 := h.places r
        change PostRecvs.places s r + _ = (rep :: s.rbAllReps).count r
        rw [count_cons_add rep s.rbAllReps]
        rw [count_nil] at h1
        omega
      have hres := hmake.chainRep hcall mapped
      rw [hfree] at hres
      exact hres

/-- STEP: the chain is posted, or as much of it as goes. -/
theorem Inv.post (h : Inv [] s) (hcall : s.call t = .post chain count) (bad : ℕ) :
    Inv [] (postRecv s t chain count (some bad)) := by
  have hcount : count = chain.length := by
    have := h.chained t
    rwa [hcall] at this
  obtain ⟨hc, ha, hn, hp, -⟩ :=
    foldl_repPut_other (chain.drop bad) { s with posted := chain.take bad ++ s.posted }
  have hsplit : (chain.take bad).length + (chain.drop bad).length = chain.length := by
    rw [← List.length_append, List.take_append_drop]
  unfold postRecv
  dsimp only
  refine ⟨?_, fun r => ?_, ?_, fun u => ?_⟩
  · rw [State.goto, ha]
    exact h.nodup
  · have h1 := h.places r
    have h2 := places_goto ((chain.drop bad).foldl repPut
      { s with posted := chain.take bad ++ s.posted }) t
      (.leave (count - (chain.drop bad).length)) r
    have h3 : (chain.take bad).count r + (chain.drop bad).count r = chain.count r := by
      rw [← List.count_append, List.take_append_drop]
    rw [hc, places_foldl_repPut] at h2
    change _ = (foldl repPut _ _).rbAllReps.count r
    rw [ha]
    rw [hcall] at h2
    simp only [PostRecvs.places, Call.chain, List.count_append, count_nil] at h1 h2 ⊢
    omega
  · have h1 := h.count
    have h2 := owed_goto ((chain.drop bad).foldl repPut
      { s with posted := chain.take bad ++ s.posted }) t (.leave (count - (chain.drop bad).length))
    rw [hc] at h2
    change (foldl repPut _ _).reReceiveCount + _ =
      ((foldl repPut _ _).posted.length : ℤ)
    rw [hn, hp]
    dsimp only at h2 ⊢
    rw [hcall] at h2
    change _ + (0 : ℤ) = _ + (count - (chain.drop bad).length) at h2
    rw [List.length_append]
    omega
  · refine @chained_goto _ _ _ t (.leave _) _ (fun u => ?_) trivial u
    rw [hc]
    exact h.chained u

theorem Inv.begin (h : Inv [] s) (hidle : s.call t = .idle) (needed : ℤ) (temp : Bool) :
    Inv [] (begin s t needed temp) := by
  have hinc : Inv [] { s with reReceiving := s.reReceiving + 1 } :=
    { h with }
  unfold PostRecvs.begin
  dsimp only
  split_ifs
  all_goals
    first
    | exact h.goto (fun rep => by rw [hidle]; rfl) (by rw [hidle]; rfl) trivial
    | exact hinc.goto (fun rep => by rw [hidle]; rfl) (by rw [hidle]; rfl) trivial
    | exact hinc.goto (fun rep => by rw [hidle]; rfl) (by rw [hidle]; rfl) rfl

/-- STEP: what was posted is added to `re_receive_count`. -/
theorem Inv.account (h : Inv [] s) (hcall : s.call t = .account count) :
    Inv [] ({ s with reReceiveCount := s.reReceiveCount + count }.goto t .idle) := by
  refine ⟨h.nodup, fun r => ?_, ?_, fun u => ?_⟩
  · have h1 := h.places r
    have h2 := places_goto s t .idle r
    rw [hcall] at h2
    exact (congrArg (· + 0) h2).trans h1
  · have h1 := h.count
    have h2 := owed_goto s t .idle
    rw [hcall] at h2
    change _ + count = _ + (0 : ℤ) at h2
    change s.reReceiveCount + count + ∑ u, ((s.goto t .idle).call u).owed = (s.posted.length : ℤ)
    omega
  · exact @chained_goto _ _ s t .idle _ h.chained trivial u

/-- STEP: whatever happens next, if no rep is lost. -/
theorem Inv.step [DecidableEq ρ] (h : Inv [] s) {e : Event τ ρ} (he : ok s e)
    (hfine : fine s e) : Inv [] (step s e) := by
  cases e with
  | begin t needed temp => exact h.begin he needed temp
  | turn t created mapped =>
    simp only [PostRecvs.step]
    split
    · next hcall => exact h.turn hcall he mapped
    · exact h
  | post t bad =>
    simp only [PostRecvs.step]
    split
    · next hcall =>
      cases bad with
      | none =>
        rw [postRecv_none]
        exact h.post hcall _
      | some bad => exact h.post hcall bad
    · exact h
  | leave t =>
    simp only [PostRecvs.step]
    split
    · next count hcall =>
      have hdec : Inv [] { s with reReceiving := s.reReceiving - 1 } :=
        { h with }
      exact hdec.goto (fun rep => by rw [hcall]; rfl) (by rw [hcall]; rfl) trivial
    · exact h
  | account t =>
    simp only [PostRecvs.step]
    split
    · next hcall => exact h.account hcall
    · exact h
  | complete rep success =>
    have hdone := h.complete he
    simp only [PostRecvs.step]
    split_ifs
    · refine { hdone with places := fun r => ?_ }
      have h1 := hdone.places r
      simp only [PostRecvs.places, count_nil] at h1 ⊢
      rw [count_cons_add rep s.handled]
      omega
    · exact hdone.putRep
  | put rep => exact (h.takeHandled he).putRep
  | attach rep req =>
    have hput := (h.takeHandled he).replyPut req
    exact hput.attach (replyPut_reply _ req)
  | bcall rep req =>
    cases req with
    | none => exact absurd rfl hfine
    | some req => exact (h.takeHandled he.1).attach (he.2 req rfl)
  | replyPut req => exact h.replyPut req
  | unpin req => exact hfine.elim

end Places

/-! ### The critical section -/

section Critical

variable [Fintype τ] {s : State τ ρ} {t : τ} {c : Call} {chain : List ℕ} {needed count : ℤ}
  {temp : Bool}

theorem Start.receiving [Fintype ρ] (h : Start s) : Receiving s := by
  simp [Receiving, h.reReceiving, h.call, Call.inside]

section
variable (h : Receiving s)
include h

theorem Receiving.replyPut [DecidableEq ρ] (req : ρ) : Receiving (replyPut s req) := by
  unfold PostRecvs.replyPut
  cases s.rlReply req with
  | none => exact h
  | some rep => exact h

variable [DecidableEq τ]

theorem Receiving.goto (hc : c.inside = (s.call t).inside) : Receiving (s.goto t c) := by
  have hsum := inside_goto s t c
  change s.reReceiving = ∑ u, ((s.goto t c).call u).inside
  rw [h]
  omega

theorem Receiving.leaveLoop (hcall : s.call t = .build needed temp chain count)
    (hchain : chain ≠ []) : Receiving (leaveLoop s t chain count) := by
  unfold PostRecvs.leaveLoop
  rw [if_neg hchain]
  exact h.goto (by rw [hcall]; rfl)

theorem Receiving.chainRep (hcall : s.call t = .build needed temp chain count)
    (rep : ℕ) {mapped : Bool} (hchain : mapped = false → chain ≠ []) :
    Receiving (chainRep s t needed temp chain count rep mapped) := by
  unfold PostRecvs.chainRep
  split_ifs with hmapped
  · exact h.goto (by rw [hcall]; rfl)
  · have hput : Receiving (repPut s rep) := h
    exact hput.leaveLoop hcall (hchain (Bool.eq_false_of_not_eq_true hmapped))

/-- STEP: a turn stays in the critical section, unless it stops with nothing chained. -/
theorem Receiving.turn (hcall : s.call t = .build needed temp chain count)
    {created : Option ℕ} {mapped : Bool}
    (hfine : ¬ StopsEmpty s created mapped (s.call t)) :
    Receiving (turn s t needed temp chain count created mapped) := by
  have hstop : chain = [] → ¬ (needed = 0 ∨ s.rbFreeReps = [] ∧ created = none ∨
      (∀ rep ∈ s.rbFreeReps.head?, s.rrTemp rep = false) ∧ mapped = false) := by
    rintro rfl
    rwa [hcall] at hfine
  unfold PostRecvs.turn
  split_ifs with h0
  · exact h.leaveLoop hcall fun hnil => hstop hnil (.inl h0)
  cases hfree : s.rbFreeReps with
  | cons rep free =>
    have htake : Receiving { s with rbFreeReps := free } := h
    dsimp only
    split_ifs with htemp
    · exact htake
    · refine htake.chainRep hcall rep fun hmapped hnil => hstop hnil (.inr (.inr ⟨?_, hmapped⟩))
      simpa [hfree] using htemp
  | nil =>
    cases created with
    | none => exact h.leaveLoop hcall fun hnil => hstop hnil (.inr (.inl ⟨hfree, rfl⟩))
    | some rep =>
      have hmake : Receiving { s with
        rbFreeReps := [], rbAllReps := rep :: s.rbAllReps, rrTemp := update s.rrTemp rep temp } := h
      exact hmake.chainRep hcall rep fun hmapped hnil =>
        hstop hnil (.inr (.inr ⟨by simp [hfree], hmapped⟩))

/-- A call enters the critical section. -/
theorem Receiving.enter (hidle : s.call t = .idle) (hc : c.inside = 1) :
    Receiving ({ s with reReceiving := s.reReceiving + 1 }.goto t c) := by
  have hsum := inside_goto s t c
  rw [hidle] at hsum
  change _ + (0 : ℤ) = _ at hsum
  change s.reReceiving + 1 = ∑ u, ((s.goto t c).call u).inside
  rw [h]
  omega

theorem Receiving.post (hcall : s.call t = .post chain count) (bad : ℕ) :
    Receiving (postRecv s t chain count (some bad)) := by
  obtain ⟨hc, -, -, -, hr⟩ :=
    foldl_repPut_other (chain.drop bad) { s with posted := chain.take bad ++ s.posted }
  have hput : Receiving ((chain.drop bad).foldl repPut
      { s with posted := chain.take bad ++ s.posted }) := by
    rw [Receiving, hr, hc]
    exact h
  exact hput.goto (by rw [hc, hcall]; rfl)

/-- STEP: whatever happens next, if it does not leave without the decrement. -/
theorem Receiving.step [Fintype ρ] [DecidableEq ρ] {e : Event τ ρ} (he : ok s e)
    (hfine : fine s e) : Receiving (step s e) := by
  cases e with
  | begin t needed temp =>
    simp only [PostRecvs.step, PostRecvs.begin]
    have hidle : s.call t = .idle := he
    split_ifs with hcount hbusy
    · exact h.goto (by rw [hidle]; rfl)
    · have := hfine (not_lt.mp hcount)
      omega
    all_goals exact h.enter hidle rfl
  | turn t created mapped =>
    simp only [PostRecvs.step]
    split
    · next needed temp chain count hcall =>
      exact h.turn hcall hfine
    · exact h
  | post t bad =>
    simp only [PostRecvs.step]
    split
    · next chain count hcall =>
      cases bad with
      | none =>
        rw [postRecv_none]
        exact h.post hcall _
      | some bad => exact h.post hcall bad
    · exact h
  | leave t =>
    simp only [PostRecvs.step]
    split
    · next count hcall =>
      have hsum := inside_goto s t (.account count)
      rw [hcall] at hsum
      change _ + 1 = _ + (0 : ℤ) at hsum
      change s.reReceiving - 1 = ∑ u, ((s.goto t (.account count)).call u).inside
      rw [h]
      omega
    · exact h
  | account t =>
    simp only [PostRecvs.step]
    split
    · next count hcall =>
      have hadd : Receiving { s with reReceiveCount := s.reReceiveCount + count } := h
      exact hadd.goto (by rw [hcall]; rfl)
    · exact h
  | complete rep success =>
    simp only [PostRecvs.step]
    split_ifs
    · exact h
    · exact h
  | put rep => exact h
  | attach rep req =>
    have htake : Receiving { s with handled := s.handled.erase rep } := h
    exact htake.replyPut req
  | bcall rep req =>
    cases req with
    | none => exact h
    | some req => exact h
  | replyPut req => exact h.replyPut req
  | unpin req => exact h

end

end Critical

/-! ### Runs -/

section Runs

variable [Fintype τ] [Fintype ρ] [DecidableEq τ] [DecidableEq ρ]

/-- No call is in progress. -/
def Quiet (s : State τ ρ) : Prop := ∀ t, s.call t = .idle

/-- What is promised of a state: every rep is in one place, what is posted is counted (or will be by
    a call in progress), `re_receiving` counts the calls in the critical section; and when no call
    is in progress both counters are back, and a call that needs Receives enters the loop. -/
structure Promised (s : State τ ρ) : Prop where
  places : ∀ rep ∈ s.rbAllReps, places s rep = 1
  count : s.reReceiveCount + ∑ t, (s.call t).owed = s.posted.length
  receiving : s.reReceiving = ∑ t, (s.call t).inside
  quietCount : Quiet s → s.reReceiveCount = s.posted.length
  quietReceiving : Quiet s → s.reReceiving = 0
  refills : Quiet s → ∀ t needed temp, s.reReceiveCount ≤ needed →
    ∃ more, (step s (.begin t needed temp)).call t = .build more temp [] 0

/-- RUN: places and counts are kept in every run that loses no rep. -/
theorem Inv.run {s₀ s : State τ ρ} (h₀ : Start s₀)
    (h : Reach PostRecvs.step (fun s e => ok s e ∧ fine s e) s₀ s) : Inv [] s :=
  h.invariant h₀.inv fun _ _ hok hinv => hinv.step hok.1 hok.2

/-- RUN: the critical section is counted in every run that takes neither of the two exits. -/
theorem Receiving.run {s₀ s : State τ ρ} (h₀ : Start s₀)
    (h : Reach PostRecvs.step (fun s e => ok s e ∧ fine s e) s₀ s) : Receiving s :=
  h.invariant h₀.receiving fun _ _ hok hrec => hrec.step hok.1 hok.2

/-- CORRECT only in part: in a run in which no call enters the critical section of another, none
    leaves the loop with nothing chained, every reverse-direction call gets a request and no reply is
    unpinned, everything promised holds in every state. -/
theorem post_recvs (s₀ s : State τ ρ) (h₀ : Start s₀)
    (h : Reach step (fun s e => ok s e ∧ fine s e) s₀ s) : Promised s := by
  have hinv := Inv.run h₀ h
  have hrec := Receiving.run h₀ h
  have hquiet : Quiet s → s.reReceiving = 0 := by
    intro hq
    rw [hrec]
    simp [hq _, Call.inside]
  refine ⟨fun rep hrep => ?_, hinv.count, hrec, fun hq => ?_, hquiet,
    fun hq t needed temp hle => ?_⟩
  · have hplaces : places s rep = s.rbAllReps.count rep := hinv.places rep
    rw [hplaces]
    exact List.count_eq_one_of_mem hinv.nodup hrep
  · have hcount := hinv.count
    simpa [hq _, Call.owed] using hcount
  · have h0 := hquiet hq
    simp only [step, begin]
    rw [if_neg (by omega), if_neg (by omega)]
    exact ⟨_, update_self _ _ _⟩

end Runs

instance (s : State τ ρ) : ∀ e, Decidable (ok s e)
  | .begin t _ _ => inferInstanceAs (Decidable (s.call t = .idle))
  | .turn _ created _ => inferInstanceAs (Decidable (∀ rep ∈ created, rep ∉ s.rbAllReps))
  | .post t bad => inferInstanceAs (Decidable (∀ k ∈ bad, k < (s.call t).chain.length))
  | .complete rep _ => inferInstanceAs (Decidable (rep ∈ s.posted))
  | .put rep | .attach rep _ => inferInstanceAs (Decidable (rep ∈ s.handled))
  | .bcall rep req =>
    inferInstanceAs (Decidable (rep ∈ s.handled ∧ ∀ q ∈ req, s.rlReply q = none))
  | .leave _ | .account _ | .replyPut _ | .unpin _ => instDecidableTrue

instance (s : State τ ρ) (created : Option ℕ) (mapped : Bool) :
    ∀ c, Decidable (StopsEmpty s created mapped c)
  | .build needed _ [] _ => inferInstanceAs (Decidable (needed = 0 ∨ s.rbFreeReps = [] ∧
      created = none ∨ (∀ rep ∈ s.rbFreeReps.head?, s.rrTemp rep = false) ∧ mapped = false))
  | .build _ _ (_ :: _) _ | .idle | .post .. | .leave _ | .account _ => instDecidableFalse

instance [DecidableEq ρ] (s : State τ ρ) : ∀ e, Decidable (fine s e)
  | .begin _ needed _ => inferInstanceAs (Decidable (s.reReceiveCount ≤ needed → s.reReceiving = 0))
  | .turn t created mapped => inferInstanceAs (Decidable (¬ StopsEmpty s created mapped (s.call t)))
  | .bcall _ req => inferInstanceAs (Decidable (req ≠ none))
  | .unpin _ => instDecidableFalse
  | .post .. | .leave _ | .account _ | .complete .. | .put _ | .attach .. | .replyPut _ =>
    instDecidableTrue

/-- Two threads and two requests, no rep yet. -/
def noReps : State Bool Bool :=
  ⟨0, 0, [], [], fun _ => false, [], [], fun _ => none, fun _ => .idle⟩

theorem noReps_start : Start noReps := ⟨List.nodup_nil, fun _ => rfl, rfl, rfl, rfl, fun _ => rfl⟩

/-- The transport has connected: one temporary Receive was posted, and has completed. -/
def connected : State Bool Bool :=
  [Event.begin false 1 true, .turn false (some 7) true, .turn false none true, .post false none,
    .leave false, .account false, .complete 7 true].foldl step noReps

theorem connected_reach : Reach step (fun s e => ok s e ∧ fine s e) noReps connected :=
  Reach.start.runs (by decide)

/-- A refill whose second rep is not mapped; a reply is attached; a refill from the free list whose
    last rep cannot be had and whose chain is cut, beside a call that finds enough posted; and a
    reverse-direction call. -/
theorem post_recvs_demo : Promised ([Event.begin false 1 false, .turn false (some 8) true,
    .turn false (some 9) false, .post false none, .leave false, .account false, .attach 7 true,
    .begin false 1 false, .turn false none true, .begin true 0 false, .turn false (some 10) true,
    .account true, .turn false none true, .post false (some 1), .leave false, .account false,
    .complete 8 true, .bcall 8 (some false), .replyPut true, .complete 10 false].foldl step
    connected) :=
  post_recvs noReps _ noReps_start (connected_reach.runs (by decide))

/-- BROKEN: the refill behind the first reply gets no rep, nothing is chained, and `re_receiving`
    stays incremented: a later call with a rep at hand leaves at once. And a reverse-direction call
    for which there is no request takes its rep out of every place. -/
theorem post_recvs_broken :
    (let s := [Event.begin false 1 false, .turn false none true, .account false, .put 7].foldl step
        connected
     Reach step ok noReps s ∧ Quiet s ∧ ¬ Promised s ∧ s.rbFreeReps = [7] ∧
      (step s (.begin false 1 false)).call false = .account 0) ∧
    (let s := step connected (.bcall 7 none)
     Reach step ok noReps s ∧ Quiet s ∧ s.reReceiving = 0 ∧ ¬ Promised s) := by
  have hreach := connected_reach.mono fun s e (hok : ok s e ∧ fine s e) => hok.1
  refine ⟨⟨hreach.runs (by decide), fun t => ?_, fun h => ?_, rfl, rfl⟩,
    hreach.next (by decide), fun t => ?_, rfl, fun h => ?_⟩
  · cases t <;> rfl
  · have hrec := h.quietReceiving (by intro t; cases t <;> rfl)
    revert hrec
    decide
  · cases t <;> rfl
  · have hplaces := h.places 7 (by decide)
    revert hplaces
    decide

end RdmaDriver.PostRecvs
