import RdmaDriver.Mlx5.CqRing

/-! @src drivers/infiniband/hw/mlx5/cq.c | name:CQ resize, and how it fails | scheme:ring |
    family:failure atomicity

    A resize allocates a new buffer, tells firmware with MODIFY_CQ, and under the lock copies what
    is pending and installs the buffer. It can stop at each of these:

        kzalloc - fragments - in - MODIFY_CQ - copy -> installed
           |          |        |       |        |
         NULL     dangling   NULL    NULL    still there, with the new `ibcq.cqe`

    While the command runs, hardware writes CQEs and polls consume them; a poll that meets the
    RESIZE_CQ entry installs the buffer itself. -/

namespace RdmaDriver.Mlx5CqResize
open Mlx5Cq

/-- A kernel CQ. `dangling` says that `resize_buf` points to memory that was freed; `resize_buf` of
    the ring is `none` then. -/
structure Cq where
  ring : Ring
  dangling : Bool

/-- What the allocators and firmware do; `during` is what hardware and polls do to the CQ while the
    command runs. -/
structure Env where
  cqResize : Bool
  logMaxCqSz : ℕ
  kzalloc : Bool
  fragBuf : ℕ → Option CqBuf
  inAlloc : Bool
  modifyCq : Bool
  during : Ring → Ring

/-- How a resize ended. -/
inductive Exit where
  | refused (e : Errno)
  | same
  | failed (e : Errno)
  | notCopied
  | installed
  | byPoll
  deriving DecidableEq

/-- The new buffer is in use. -/
def Exit.installs : Exit → Bool
  | .installed => true
  | .byPoll => true
  | _ => false

/-- What a resize leaves: the CQ, and the ring as hardware and polls left it. -/
structure Outcome where
  cq : Cq
  seen : Ring
  exit : Exit

/-- `resize_kernel`. -/
def resizeKernel (env : Env) (cq : Cq) (entries cqeSize : ℕ) : Cq × Option Errno :=
  if env.kzalloc = false then
    (⟨{ cq.ring with resizeBuf := none }, false⟩, some .enomem)
  else
    match env.fragBuf entries with
    | none => (⟨{ cq.ring with resizeBuf := none }, true⟩, some .enomem)
    | some buf =>
      (⟨{ cq.ring with resizeBuf := some (Mlx5Cq.resizeKernel buf entries cqeSize) }, false⟩, none)

/-- The error path `ex_resize` of a kernel CQ. -/
def exResize (cq : Cq) : Cq := ⟨{ cq.ring with resizeBuf := none }, false⟩

/-- The locked section: `copy_resize_cqes`, and the new buffer where that works. -/
def resizeLocked (cq : Ring) (entries : ℕ) : Outcome :=
  match cq.resizeBuf with
  | none => ⟨⟨{ cq with cqe := entries - 1 }, false⟩, cq, .byPoll⟩
  | some new =>
    match copyResizeCqes cq new with
    | .error _ => ⟨⟨{ cq with cqe := entries - 1 }, false⟩, cq, .notCopied⟩
    | .ok (new, cons) =>
      ⟨⟨{ cq with buf := new, resizeBuf := none, consIndex := cons, cqe := entries - 1 }, false⟩,
        cq, .installed⟩

/-- `mlx5_ib_resize_cq` for a kernel CQ. -/
def mlx5IbResizeCq (env : Env) (cq : Cq) (entries : ℕ) : Outcome :=
  if env.cqResize = false then ⟨cq, cq.ring, .refused .enosys⟩
  else if entries < 1 ∨ entries > 2 ^ env.logMaxCqSz then ⟨cq, cq.ring, .refused .einval⟩
  else
    let entries := roundupPowOfTwo (entries + 1)
    if entries > 2 ^ env.logMaxCqSz + 1 then ⟨cq, cq.ring, .refused .einval⟩
    else if entries = cq.ring.cqe + 1 then ⟨cq, cq.ring, .same⟩
    else
      match resizeKernel env cq entries 64 with
      | (cq', some e) => ⟨cq', cq.ring, .failed e⟩
      | (cq', none) =>
        if env.inAlloc = false then ⟨exResize cq', cq.ring, .failed .enomem⟩
        else
          let ring := env.during cq'.ring
          if env.modifyCq = false then ⟨exResize ⟨ring, false⟩, ring, .failed .einval⟩
          else resizeLocked ring entries

/-- The ring is a power of two, and the mask is that of its buffer. -/
def Sized (r : Ring) : Prop := (∃ b, r.cqe + 1 = 2 ^ b) ∧ r.buf.nent = r.cqe + 1

/-- What hardware and polls do: they keep the sizes, and the new buffer is there unless a poll
    installs it. A command that fails makes no RESIZE_CQ entry. -/
structure Polls (env : Env) : Prop where
  cqe : ∀ r, (env.during r).cqe = r.cqe
  nent : ∀ r, (env.during r).resizeBuf ≠ none → (env.during r).buf.nent = r.buf.nent
  fails : env.modifyCq = false → ∀ r, (env.during r).resizeBuf = r.resizeBuf

/-- A resize that does not install the new buffer leaves the buffer, its size and the consumer index
    as hardware and polls left them, and `resize_buf` NULL or allocated. -/
def Unchanged (cq : Cq) (o : Outcome) : Prop :=
  o.exit.installs = false → o.cq.ring.buf = o.seen.buf ∧ o.cq.ring.cqe = cq.ring.cqe ∧
      o.cq.ring.consIndex = o.seen.consIndex ∧ Sized o.cq.ring ∧ o.cq.dangling = false

/-- From the consumer index on the CQEs are software's, up to a RESIZE_CQ entry within one lap, and
    the new buffer has CQEs of the same size. -/
def Copyable (r : Ring) : Prop :=
  ∀ new ∈ r.resizeBuf, r.buf.cqeSize = new.cqeSize ∧ ∃ m ≤ r.cqe, Pending r m

/-- The state in which the locked section finds the ring. -/
def locked (env : Env) (cq : Cq) (entries : ℕ) (buf : CqBuf) : Ring :=
  env.during { cq.ring with resizeBuf := some (Mlx5Cq.resizeKernel buf entries 64) }

/-- Where the resize gets to the allocations, the fragments are allocated after the structure was,
    and where it gets to the lock the pending CQEs can be copied. -/
def Gets (env : Env) (cq : Cq) (entries : ℕ) : Prop :=
  env.cqResize = true → 1 ≤ entries → entries ≤ 2 ^ env.logMaxCqSz →
    roundupPowOfTwo (entries + 1) ≤ 2 ^ env.logMaxCqSz + 1 →
    roundupPowOfTwo (entries + 1) ≠ cq.ring.cqe + 1 → env.kzalloc = true →
    ∃ buf, env.fragBuf (roundupPowOfTwo (entries + 1)) = some buf ∧
      (env.inAlloc = true → env.modifyCq = true →
        Copyable (locked env cq (roundupPowOfTwo (entries + 1)) buf))

/-! ### When the pending CQEs can be copied -/

/-- The loop of `copy_resize_cqes` ends at RESIZE_CQ exactly when that comes before the start does
    again. -/
theorem copyLoop_ok_iff (cq : Ring) (start : ℕ) : ∀ fuel i new,
    (∃ r, copyLoop cq start fuel i (i &&& cq.cqe) new = .ok r) ↔
      ∃ m < fuel, (cq.buf.mem ((i + m) &&& cq.cqe)).opcode = RESIZE_CQ ∧
        ∀ j < m, (cq.buf.mem ((i + j) &&& cq.cqe)).opcode ≠ RESIZE_CQ ∧
          getSwCqe cq (i + j + 1) = some ((i + j + 1) &&& cq.cqe) ∧ (i + j + 1) &&& cq.cqe ≠ start
  | 0, i, new => by
    refine ⟨fun ⟨r, h⟩ => ?_, fun ⟨m, hm, _⟩ => absurd hm (Nat.not_lt_zero m)⟩
    cases h
  | fuel + 1, i, new => by
    rw [copyLoop]
    by_cases hop : (cq.buf.mem (i &&& cq.cqe)).opcode = RESIZE_CQ
    · rw [if_pos hop]
      refine ⟨fun _ => ⟨0, Nat.succ_pos _, hop, fun j hj => absurd hj (Nat.not_lt_zero j)⟩,
        fun _ => ⟨_, rfl⟩⟩
    · rw [if_neg hop]
      have hget : getSwCqe cq (i + 1) = none ∨ getSwCqe cq (i + 1) = some ((i + 1) &&& cq.cqe) := by
        unfold getSwCqe
        simp only
        split_ifs
        · exact .inr rfl
        · exact .inl rfl
      have hzero : ∀ {m : ℕ}, (cq.buf.mem ((i + m) &&& cq.cqe)).opcode = RESIZE_CQ → 0 < m := by
        intro m hm
        rcases Nat.eq_zero_or_pos m with rfl | hpos
        · exact absurd hm hop
        · exact hpos
      rcases hget with hnone | hsome
      · simp only [hnone]
        constructor
        · rintro ⟨r, h⟩
          cases h
        · rintro ⟨m, -, hm, hall⟩
          have h0 := (hall 0 (hzero hm)).2.1
          rw [Nat.add_zero, hnone] at h0
          cases h0
      · simp only [hsome]
        split_ifs with hs
        · constructor
          · rintro ⟨r, h⟩
            cases h
          · rintro ⟨m, -, hm, hall⟩
            exact absurd hs (hall 0 (hzero hm)).2.2
        · rw [copyLoop_ok_iff cq start fuel (i + 1)]
          constructor
          · rintro ⟨m, hm, hres, hall⟩
            refine ⟨m + 1, Nat.succ_lt_succ hm, ?_, fun j hj => ?_⟩
            · rwa [show i + (m + 1) = i + 1 + m by omega]
            · rcases j with - | j
              · exact ⟨hop, hsome, hs⟩
              · have hj := hall j (by omega)
                rwa [show i + (j + 1) = i + 1 + j by omega]
          · rintro ⟨m, hm, hres, hall⟩
            obtain ⟨m, rfl⟩ := Nat.exists_eq_add_of_lt (hzero hres)
            rw [Nat.zero_add] at hm hres hall
            refine ⟨m, by omega, ?_, fun j hj => ?_⟩
            · rwa [show i + 1 + m = i + (m + 1) by omega]
            · have hj := hall (j + 1) (by omega)
              rwa [show i + (j + 1) = i + 1 + j by omega] at hj

/-- A CQE is delivered where its slot is software's. -/
theorem swCqe_iff {r : Ring} {n : ℕ} {p : Cqe → Prop} :
    (∃ c, swCqe r n = some c ∧ p c) ↔
      getSwCqe r n = some (n &&& r.cqe) ∧ p (r.buf.mem (n &&& r.cqe)) := by
  constructor
  · rintro ⟨c, hc, hp⟩
    obtain ⟨hget, hmem, -⟩ := swCqe_some hc
    rw [hmem]
    exact ⟨hget, hp⟩
  · rintro ⟨hget, hp⟩
    refine ⟨_, ?_, hp⟩
    unfold swCqe
    rw [hget, Option.map_some]

theorem pending_iff {r : Ring} {m : ℕ} : Pending r m ↔
    (∀ j < m, getSwCqe r (r.consIndex + j) = some ((r.consIndex + j) &&& r.cqe) ∧
      (r.buf.mem ((r.consIndex + j) &&& r.cqe)).opcode ≠ RESIZE_CQ) ∧
    getSwCqe r (r.consIndex + m) = some ((r.consIndex + m) &&& r.cqe) ∧
      (r.buf.mem ((r.consIndex + m) &&& r.cqe)).opcode = RESIZE_CQ := by
  unfold Pending
  rw [swCqe_iff (p := fun c => c.opcode = RESIZE_CQ)]
  refine and_congr_left fun _ => forall_congr' fun j => imp_congr_right fun _ => ?_
  exact swCqe_iff (p := fun c => c.opcode ≠ RESIZE_CQ)

/-- Within one lap the start does not come again. -/
theorem slot_ne_start {b n j : ℕ} (hj : 0 < j) (hlt : j < 2 ^ b) :
    (n + j) &&& (2 ^ b - 1) ≠ n &&& (2 ^ b - 1) := by
  rw [Nat.and_two_pow_sub_one_eq_mod, Nat.and_two_pow_sub_one_eq_mod]
  intro he
  have hd : 2 ^ b ∣ n + j - n := Nat.dvd_of_mod_eq_zero (Nat.sub_mod_eq_zero_of_mod_eq he)
  rw [Nat.add_sub_cancel_left] at hd
  exact absurd (Nat.le_of_dvd hj hd) (Nat.not_le.mpr hlt)

/-- `copy_resize_cqes` works exactly on a ring that can be copied. -/
theorem copyResizeCqes_ok_iff {r : Ring} {new : CqBuf} (hs : ∃ b, r.cqe + 1 = 2 ^ b) :
    (∃ x, copyResizeCqes r new = .ok x) ↔
      r.buf.cqeSize = new.cqeSize ∧ ∃ m ≤ r.cqe, Pending r m := by
  obtain ⟨b, hb⟩ := hs
  have hmask : r.cqe = 2 ^ b - 1 := by omega
  have hfirst : ∀ {m : ℕ}, Pending r m →
      getSwCqe r r.consIndex = some (r.consIndex &&& r.cqe) := by
    intro m hp
    obtain ⟨hall, hlast, -⟩ := pending_iff.mp hp
    rcases Nat.eq_zero_or_pos m with rfl | hpos
    · exact hlast
    · exact (hall 0 hpos).1
  have hloop : (∃ x, copyLoop r (r.consIndex &&& r.cqe) (r.cqe + 1) r.consIndex
      (r.consIndex &&& r.cqe) new = .ok x) ∧
        getSwCqe r r.consIndex = some (r.consIndex &&& r.cqe) ↔ ∃ m ≤ r.cqe, Pending r m := by
    rw [copyLoop_ok_iff]
    constructor
    · rintro ⟨⟨m, hm, hres, hall⟩, hget⟩
      have hsw : ∀ j ≤ m, getSwCqe r (r.consIndex + j) = some ((r.consIndex + j) &&& r.cqe) := by
        intro j hj
        rcases j with - | j
        · exact hget
        · exact (hall j (by omega)).2.1
      refine ⟨m, by omega, pending_iff.mpr ⟨fun j hj => ⟨hsw j hj.le, (hall j hj).1⟩,
        hsw m le_rfl, hres⟩⟩
    · rintro ⟨m, hm, hp⟩
      obtain ⟨hall, hlast, hres⟩ := pending_iff.mp hp
      have hsw : ∀ j ≤ m, getSwCqe r (r.consIndex + j) = some ((r.consIndex + j) &&& r.cqe) := by
        intro j hj
        rcases hj.lt_or_eq with hlt | rfl
        · exact (hall j hlt).1
        · exact hlast
      refine ⟨⟨m, by omega, hres, fun j hj => ⟨(hall j hj).2, hsw (j + 1) hj, ?_⟩⟩, hfirst hp⟩
      rw [hmask, Nat.add_assoc]
      exact slot_ne_start (Nat.succ_pos j) (by omega)
  rw [← hloop]
  unfold copyResizeCqes
  by_cases hsz : r.buf.cqeSize = new.cqeSize
  · rw [if_neg (by rw [hsz]; exact fun h => h rfl)]
    have hget : getSwCqe r r.consIndex = none ∨
        getSwCqe r r.consIndex = some (r.consIndex &&& r.cqe) := by
      unfold getSwCqe
      simp only
      split_ifs
      · exact .inr rfl
      · exact .inl rfl
    rcases hget with hnone | hsome
    · rw [hnone]
      simp
    · rw [hsome]
      simp only [hsz]
      cases hl : copyLoop r (r.consIndex &&& r.cqe) (r.cqe + 1) r.consIndex
          (r.consIndex &&& r.cqe) new with
      | error e => simp
      | ok x => simp
  · rw [if_pos hsz]
    simp [hsz]

/-! ### What a failed resize leaves -/

section Failure
variable {env : Env} {cq : Cq} {entries : ℕ}

/-- Where the resize gets as far as the allocations. -/
structure Asked (env : Env) (cq : Cq) (entries : ℕ) : Prop where
  cqResize : env.cqResize = true
  pos : 1 ≤ entries
  le : entries ≤ 2 ^ env.logMaxCqSz
  round : roundupPowOfTwo (entries + 1) ≤ 2 ^ env.logMaxCqSz + 1
  ne : roundupPowOfTwo (entries + 1) ≠ cq.ring.cqe + 1

/-- The rest of `mlx5_ib_resize_cq`. -/
theorem resize_asked (h : Asked env cq entries) : mlx5IbResizeCq env cq entries =
    match resizeKernel env cq (roundupPowOfTwo (entries + 1)) 64 with
    | (cq', some e) => ⟨cq', cq.ring, .failed e⟩
    | (cq', none) =>
      if env.inAlloc = false then ⟨exResize cq', cq.ring, .failed .enomem⟩
      else
        let ring := env.during cq'.ring
        if env.modifyCq = false then ⟨exResize ⟨ring, false⟩, ring, .failed .einval⟩
        else resizeLocked ring (roundupPowOfTwo (entries + 1)) := by
  have h₁ := h.pos
  have h₂ := h.le
  have h₃ := h.round
  unfold mlx5IbResizeCq
  rw [if_neg (by rw [h.cqResize]; decide), if_neg (by omega)]
  simp only
  rw [if_neg (by omega), if_neg h.ne]

/-- A resize that does not get to the allocations changes nothing. -/
theorem resize_not_asked (h : ¬Asked env cq entries) :
    ∃ e, mlx5IbResizeCq env cq entries = ⟨cq, cq.ring, e⟩ ∧ e.installs = false := by
  unfold mlx5IbResizeCq
  by_cases h₁ : env.cqResize = false
  · rw [if_pos h₁]
    exact ⟨_, rfl, rfl⟩
  · rw [if_neg h₁]
    by_cases h₂ : entries < 1 ∨ entries > 2 ^ env.logMaxCqSz
    · rw [if_pos h₂]
      exact ⟨_, rfl, rfl⟩
    · rw [if_neg h₂]
      by_cases h₃ : roundupPowOfTwo (entries + 1) > 2 ^ env.logMaxCqSz + 1
      · rw [if_pos h₃]
        exact ⟨_, rfl, rfl⟩
      · rw [if_neg h₃]
        by_cases h₄ : roundupPowOfTwo (entries + 1) = cq.ring.cqe + 1
        · rw [if_pos h₄]
          exact ⟨_, rfl, rfl⟩
        · exact absurd ⟨by simpa using h₁, by omega, by omega, by omega, h₄⟩ h

/-- The locked section installs the buffer, or it finds that it is, or it leaves the old one with
    the new size. -/
theorem resizeLocked_unchanged_iff {r : Ring} {n : ℕ} (hs : r.resizeBuf ≠ none → Sized r)
    (hn : n ≠ r.cqe + 1) (hpos : 0 < n) (hc : r.cqe = cq.ring.cqe) :
    Unchanged cq (resizeLocked r n) ↔ Copyable r := by
  unfold resizeLocked
  cases hb : r.resizeBuf with
  | none =>
    refine iff_of_true (fun h => by cases h) fun new hnew => ?_
    rw [hb] at hnew
    cases hnew
  | some new =>
    have hiff : Copyable r ↔ ∃ x, copyResizeCqes r new = .ok x := by
      rw [copyResizeCqes_ok_iff (hs (by rw [hb]; exact fun h => by cases h)).1]
      refine ⟨fun h => h new hb, fun h x hx => ?_⟩
      rw [hb] at hx
      obtain rfl := Option.some.inj hx
      exact h
    rw [hiff]
    simp only
    cases hcopy : copyResizeCqes r new with
    | error e =>
      refine iff_of_false (fun h => ?_) fun ⟨x, hx⟩ => by cases hx
      obtain ⟨-, hcqe, -⟩ := h rfl
      simp only at hcqe
      omega
    | ok x =>
      exact iff_of_true (fun h => by cases h) ⟨_, rfl⟩

/-- CORRECT: a resize that does not install the new buffer leaves the CQ as it was exactly when it
    did not stop at the fragments of the new buffer and the pending CQEs could be copied. -/
theorem resize_failure_atomic_iff (he : Polls env) (hs : Sized cq.ring) (hd : cq.dangling = false) :
    Unchanged cq (mlx5IbResizeCq env cq entries) ↔ Gets env cq entries := by
  by_cases h : Asked env cq entries
  · rw [resize_asked h]
    set n := roundupPowOfTwo (entries + 1) with hn
    have hgets : Gets env cq entries ↔ (env.kzalloc = true → ∃ buf, env.fragBuf n = some buf ∧
        (env.inAlloc = true → env.modifyCq = true → Copyable (locked env cq n buf))) := by
      exact ⟨fun hg => hg h.cqResize h.pos h.le h.round h.ne, fun hg _ _ _ _ _ => hg⟩
    rw [hgets]
    unfold resizeKernel
    cases hk : env.kzalloc with
    | false =>
      exact iff_of_true (fun _ => ⟨rfl, rfl, rfl, hs, rfl⟩) fun hf => by cases hf
    | true =>
      simp only [true_implies]
      cases hf : env.fragBuf n with
      | none =>
        refine iff_of_false (fun hu => ?_) fun ⟨buf, hbuf, _⟩ => by cases hbuf
        have hdang := (hu rfl).2.2.2.2
        cases hdang
      | some buf =>
        have hex : (∃ b, some buf = some b ∧ (env.inAlloc = true → env.modifyCq = true →
            Copyable (locked env cq n b))) ↔ (env.inAlloc = true → env.modifyCq = true →
            Copyable (locked env cq n buf)) := by
          constructor
          · rintro ⟨b, hb, hc⟩
            obtain rfl := Option.some.inj hb
            exact hc
          · exact fun hc => ⟨buf, rfl, hc⟩
        rw [hex]
        cases hin : env.inAlloc with
        | false =>
          exact iff_of_true (fun _ => ⟨rfl, rfl, rfl, hs, rfl⟩) fun hf => by cases hf
        | true =>
          simp only [true_implies]
          have hcqe := he.cqe { cq.ring with resizeBuf := some (Mlx5Cq.resizeKernel buf n 64) }
          have hnent := he.nent { cq.ring with resizeBuf := some (Mlx5Cq.resizeKernel buf n 64) }
          cases hm : env.modifyCq with
          | false =>
            have hbuf := he.fails hm
              { cq.ring with resizeBuf := some (Mlx5Cq.resizeKernel buf n 64) }
            have hnent := hnent (by rw [hbuf]; exact fun h => by cases h)
            simp only
            refine iff_of_true (fun _ => ⟨rfl, hcqe, rfl, ⟨?_, ?_⟩, rfl⟩) fun hf => by cases hf
            · exact hcqe.symm ▸ hs.1
            · exact (hnent.trans hs.2).trans (congrArg (· + 1) hcqe.symm)
          | true =>
            simp only [true_implies]
            have hle := le_roundupPowOfTwo (entries + 1)
            refine resizeLocked_unchanged_iff (r := locked env cq n buf) (fun hne => ⟨?_, ?_⟩) ?_
              (by omega) hcqe
            · exact hcqe.symm ▸ hs.1
            · exact ((hnent hne).trans hs.2).trans (congrArg (· + 1) hcqe.symm)
            · have hne := h.ne
              have hcqe : (locked env cq n buf).cqe = cq.ring.cqe := hcqe
              rwa [hcqe]
  · obtain ⟨e, hres, hinst⟩ := resize_not_asked h
    rw [hres]
    refine iff_of_true (fun _ => ⟨rfl, rfl, rfl, hs, hd⟩) fun h₁ h₂ h₃ h₄ h₅ => ?_
    exact absurd ⟨h₁, h₂, h₃, h₄, h₅⟩ h

end Failure

/-- A CQ of four entries with nothing in it. -/
def idleCq : Cq := ⟨smallRing 0 fun _ => plainCqe INVALID 0 0, false⟩

theorem idleCq_sized : Sized idleCq.ring := ⟨⟨2, rfl⟩, rfl⟩

/-- A device that refuses the command. -/
def refusing : Env := ⟨true, 22, true, fun n => some ⟨1, 64, n, fun _ => plainCqe REQ 0 0⟩, true,
  false, fun r => r⟩

/-- A device where the command works and nothing happens while it runs. -/
def quiet : Env := { refusing with modifyCq := true }

/-- No memory for the fragments of the new buffer. -/
def noFragments : Env := { quiet with fragBuf := fun _ => none }

theorem refusing_polls : Polls refusing := ⟨fun _ => rfl, fun _ _ => rfl, fun _ _ => rfl⟩

theorem resize_failure_atomic_demo : Unchanged idleCq (mlx5IbResizeCq refusing idleCq 7) :=
  (resize_failure_atomic_iff refusing_polls idleCq_sized rfl).mpr fun _ _ _ _ _ _ =>
    ⟨_, rfl, fun _ h => by cases h⟩

/-- BROKEN: without fragments `resize_buf` is left dangling, and without a RESIZE_CQ entry the old
    buffer of four entries is left with the size of the new one. -/
theorem resize_failure_atomic_broken :
    (Sized idleCq.ring ∧ idleCq.dangling = false) ∧
    (¬Unchanged idleCq (mlx5IbResizeCq noFragments idleCq 7) ∧
      (mlx5IbResizeCq noFragments idleCq 7).cq.dangling = true) ∧
    ¬Unchanged idleCq (mlx5IbResizeCq quiet idleCq 7) ∧
      (mlx5IbResizeCq quiet idleCq 7).cq.ring.cqe = 7 ∧
      (mlx5IbResizeCq quiet idleCq 7).cq.ring.buf.nent = 4 := by
  refine ⟨⟨idleCq_sized, rfl⟩, ⟨fun h => ?_, by decide +kernel⟩, fun h => ?_, by decide +kernel,
    by decide +kernel⟩
  · have hd := (h (by decide +kernel)).2.2.2.2
    revert hd
    decide +kernel
  · have hc := (h (by decide +kernel)).2.1
    revert hc
    decide +kernel

end RdmaDriver.Mlx5CqResize
