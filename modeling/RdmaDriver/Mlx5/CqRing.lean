import Mathlib.Data.Nat.Bitwise
import RdmaDriver.Basic

/-! @src drivers/infiniband/hw/mlx5/cq.c | name:Completion queue ring and its resize | scheme:ring

    A CQ is a ring of CQEs read at a free-running consumer index `n`. Slot `n & (nent - 1)` belongs
    to software when its opcode is valid and its ownership bit equals bit `nent` of `n`, so every
    lap flips the bit that means "yours". A resize makes firmware write a RESIZE_CQ entry into the
    old ring and continue in a new one; the driver then copies the entries before it into the new
    ring, one index later, because the RESIZE_CQ entry itself is consumed.

        old ring:  cons > c₀ c₁ … cₘ₋₁ RESIZE
        new ring:  cons+1 > c₀ c₁ … cₘ₋₁ (hardware continues here) -/

namespace RdmaDriver.Mlx5Cq
open Function

/-- `struct mlx5_cqe64`, as host values. The error and signature-error layouts overlay the same
    bytes; their own fields are kept apart, and each is only read under its own opcode. -/
structure Cqe where
  opOwn : ℕ
  wqeCounter : ℕ
  sopDropQpn : ℕ
  byteCnt : ℕ
  srqn : ℕ
  immediate : ℕ
  flagsRqpn : ℕ
  mlPath : ℕ
  slid : ℕ
  hdsIpExt : ℕ
  l4L3HdrType : ℕ
  vlanInfo : ℕ
  syndrome : ℕ
  vendorErrSynd : ℕ
  sigSyndrome : ℕ
  expectedTransSig : ℕ
  actualTransSig : ℕ
  expectedReftag : ℕ
  actualReftag : ℕ
  mkey : ℕ
  errOffset : ℕ
  deriving DecidableEq

/-- `get_cqe_opcode`. -/
def Cqe.opcode (c : Cqe) : ℕ := c.opOwn / 16

/-- The ownership bit, `op_own & MLX5_CQE_OWNER_MASK`. -/
def Cqe.owner (c : Cqe) : ℕ := c.opOwn % 2

/-- A CQE without its ownership bit. -/
def Cqe.contents (c : Cqe) : Cqe := { c with opOwn := c.opOwn / 2 * 2 }

theorem Cqe.contents_contents (c : Cqe) : c.contents.contents = c.contents := by
  simp only [Cqe.contents]
  congr 1
  omega

/-- CQE opcodes (`MLX5_CQE_*`). -/
def REQ : ℕ := 0
def RESP_WR_IMM : ℕ := 1
def RESP_SEND : ℕ := 2
def RESP_SEND_IMM : ℕ := 3
def RESP_SEND_INV : ℕ := 4
def RESIZE_CQ : ℕ := 5
def SIG_ERR : ℕ := 12
def REQ_ERR : ℕ := 13
def RESP_ERR : ℕ := 14
def INVALID : ℕ := 15

/-- `struct mlx5_ib_cq_buf`. `mem` is the buffer by CQE index; an index from `nent` on is memory
    that is not part of the ring. `id` tells one allocation from another. -/
structure CqBuf where
  id : ℕ
  cqeSize : ℕ
  nent : ℕ
  mem : ℕ → Cqe

/-- The ring part of `struct mlx5_ib_cq`: `cqe` is `ibcq.cqe` (ring size minus one), `cons_index`
    a free-running 32-bit counter, `ciDb` the consumer index last told to hardware. -/
structure Ring where
  cqe : ℕ
  cqeSz : ℕ
  consIndex : ℕ
  ciDb : ℕ
  buf : CqBuf
  resizeBuf : Option CqBuf

/-- `sw_ownership_bit`: the ownership bit that means "software" on the lap of counter `n`. -/
def swOwnershipBit (n nent : ℕ) : ℕ := if n &&& nent = 0 then 0 else 1

/-- `get_sw_cqe`: the index of the slot read at counter `n`, if software owns it. -/
def getSwCqe (cq : Ring) (n : ℕ) : Option ℕ :=
  let c := cq.buf.mem (n &&& cq.cqe)
  if c.opcode ≠ INVALID ∧ c.owner = swOwnershipBit n (cq.cqe + 1) then some (n &&& cq.cqe)
  else none

/-- The CQE that `get_sw_cqe` delivers at counter `n`. -/
def swCqe (cq : Ring) (n : ℕ) : Option Cqe := (getSwCqe cq n).map cq.buf.mem

/-- `init_cq_frag_buf`. -/
def initCqFragBuf (buf : CqBuf) : CqBuf :=
  { buf with mem := fun i =>
      if i < buf.nent then { buf.mem i with opOwn := INVALID * 16 } else buf.mem i }

/-- Copy one CQE to index `i + 1` of the new ring and set the ownership bit for it. -/
def copyCqe (new : CqBuf) (i : ℕ) (c : Cqe) : CqBuf :=
  let dcqe := { c with opOwn := c.opOwn / 2 * 2 + swOwnershipBit (i + 1) new.nent }
  { new with mem := update new.mem ((i + 1) &&& new.nent) dcqe }

/-- The loop of `copy_resize_cqes`, at counter `i` with software-owned slot `scqe`. A turn moves to
    the next slot, and the loop gives up when it is back at `start_cqe`, so the ring size bounds
    the number of turns. Only the low bits of `i` are read, so it is left unbounded. -/
def copyLoop (cq : Ring) (startCqe : ℕ) : ℕ → ℕ → ℕ → CqBuf → Except Errno CqBuf
  | 0, _, _, _ => .error .enomem
  | fuel + 1, i, scqe, new =>
    if (cq.buf.mem scqe).opcode = RESIZE_CQ then .ok new
    else
      let new := copyCqe new i (cq.buf.mem scqe)
      match getSwCqe cq (i + 1) with
      | none => .error .einval
      | some scqe' =>
        if scqe' = startCqe then .error .enomem
        else copyLoop cq startCqe fuel (i + 1) scqe' new

/-- `copy_resize_cqes`: the new ring and the consumer index to use with it. -/
def copyResizeCqes (cq : Ring) (new : CqBuf) : Except Errno (CqBuf × ℕ) :=
  if cq.buf.cqeSize ≠ new.cqeSize then .error .einval
  else match getSwCqe cq cq.consIndex with
  | none => .error .einval
  | some scqe =>
    match copyLoop cq scqe (cq.cqe + 1) cq.consIndex scqe new with
    | .error e => .error e
    | .ok new => .ok (new, toU 32 (cq.consIndex + 1 : ℕ))

/-- The locked section that ends the kernel path of `mlx5_ib_resize_cq`. -/
def resizeLocked (cq : Ring) (entries : ℕ) : Ring :=
  match cq.resizeBuf with
  | none => { cq with cqe := entries - 1 }
  | some new =>
    match copyResizeCqes cq new with
    | .error _ => { cq with cqe := entries - 1 }
    | .ok (new, cons) =>
      { cq with buf := new, resizeBuf := none, consIndex := cons, cqe := entries - 1 }

/-- `resize_kernel`: the freshly allocated memory `buf` becomes an empty ring of `entries` CQEs. -/
def resizeKernel (buf : CqBuf) (entries cqeSize : ℕ) : CqBuf :=
  initCqFragBuf { buf with cqeSize := cqeSize, nent := entries }

/-- What the kernel path of `mlx5_ib_resize_cq` depends on besides the CQ: capabilities, the new
    buffer's allocation, and the MODIFY_CQ command, whose effect includes everything hardware and
    concurrent polls do to the CQ until the lock is taken. -/
structure ResizeEnv where
  cqResize : Bool
  logMaxCqSz : ℕ
  alloc : ℕ → Option CqBuf
  inAlloc : Bool
  modifyCq : Ring → Except Errno Ring

/-- `mlx5_ib_resize_cq` for a kernel CQ. -/
def resizeCq (env : ResizeEnv) (cq : Ring) (entries : ℕ) : Except Errno Ring :=
  if !env.cqResize then .error .enosys
  else if entries < 1 ∨ entries > 2 ^ env.logMaxCqSz then .error .einval
  else
    let entries := roundupPowOfTwo (entries + 1)
    if entries > 2 ^ env.logMaxCqSz + 1 then .error .einval
    else if entries = cq.cqe + 1 then .ok cq
    else match env.alloc entries with
    | none => .error .enomem
    | some buf =>
      if !env.inAlloc then .error .enomem
      else match env.modifyCq { cq with resizeBuf := some (resizeKernel buf entries 64) } with
      | .error e => .error e
      | .ok cq => .ok (resizeLocked cq entries)

/-! ### What a resize delivers -/

/-- `m` software-owned CQEs stand between the consumer index and the RESIZE_CQ entry. -/
def Pending (cq : Ring) (m : ℕ) : Prop :=
  (∀ j < m, ∃ c, swCqe cq (cq.consIndex + j) = some c ∧ c.opcode ≠ RESIZE_CQ) ∧
    ∃ c, swCqe cq (cq.consIndex + m) = some c ∧ c.opcode = RESIZE_CQ

/-- The new ring delivers, from its consumer index on, the `m` CQEs that preceded RESIZE_CQ in the
    old ring, and then nothing. -/
def Delivers (old new : Ring) (m : ℕ) : Prop :=
  (∀ j < m, (swCqe new (new.consIndex + j)).map Cqe.contents =
      (swCqe old (old.consIndex + j)).map Cqe.contents) ∧ swCqe new (new.consIndex + m) = none

theorem swCqe_some {cq : Ring} {n : ℕ} {c : Cqe} (h : swCqe cq n = some c) :
    getSwCqe cq n = some (n &&& cq.cqe) ∧ cq.buf.mem (n &&& cq.cqe) = c ∧ c.opcode ≠ INVALID := by
  simp only [swCqe, getSwCqe] at h ⊢
  split at h
  · rename_i hc
    simp only [Option.map_some, Option.some.injEq] at h
    rw [if_pos hc]
    exact ⟨rfl, h, h ▸ hc.1⟩
  · simp at h

/-- A valid slot with the ownership bit of this lap is delivered. -/
theorem swCqe_eq_some {cq : Ring} {n : ℕ} {c : Cqe} (hmem : cq.buf.mem (n &&& cq.cqe) = c)
    (hop : c.opcode ≠ INVALID) (how : c.owner = swOwnershipBit n (cq.cqe + 1)) :
    swCqe cq n = some c := by
  simp only [swCqe, getSwCqe, hmem]
  rw [if_pos ⟨hop, how⟩, Option.map_some, hmem]

/-- A slot with an invalid opcode is not delivered. -/
theorem swCqe_none_of_invalid {cq : Ring} {n : ℕ}
    (h : (cq.buf.mem (n &&& cq.cqe)).opcode = INVALID) : swCqe cq n = none := by
  simp only [swCqe, getSwCqe]
  rw [if_neg]
  · rfl
  · rintro ⟨hne, -⟩
    exact hne h

/-- The new ring after the first `m` CQEs at counters `i, i+1, …` were copied. -/
def copied (cq : Ring) (new : CqBuf) : ℕ → ℕ → CqBuf
  | _, 0 => new
  | i, m + 1 => copied cq (copyCqe new i (cq.buf.mem (i &&& cq.cqe))) (i + 1) m

/-- Every copy goes to index `0` or to index `nent`: no other slot of the new ring is written. -/
theorem copied_mem (cq : Ring) {b k : ℕ} (hk : k ≠ 0) (hb : k < 2 ^ b) :
    ∀ m i new, new.nent = 2 ^ b → (copied cq new i m).mem k = new.mem k
  | 0, _, _, _ => rfl
  | m + 1, i, new, hn => by
      have hrec := copied_mem cq hk hb m (i + 1) (copyCqe new i (cq.buf.mem (i &&& cq.cqe))) hn
      rw [copied, hrec]
      have hne : k ≠ (i + 1) &&& new.nent := by
        rw [hn, Nat.and_two_pow]
        cases (i + 1).testBit b <;> simp <;> omega
      exact update_of_ne hne _ _

/-- The copy loop, run over `m` pending CQEs, reaches RESIZE_CQ with all of them copied. -/
theorem copyLoop_pending (cq : Ring) (start : ℕ) : ∀ m i fuel new r,
    (∀ j < m, ∃ c, swCqe cq (i + j) = some c ∧ c.opcode ≠ RESIZE_CQ) →
    (∃ c, swCqe cq (i + m) = some c ∧ c.opcode = RESIZE_CQ) →
    copyLoop cq start fuel i (i &&& cq.cqe) new = .ok r → r = copied cq new i m
  | 0, i, fuel, new, r, _, hres, h => by
      obtain ⟨c, hc, hop⟩ := hres
      obtain ⟨-, hmem, -⟩ := swCqe_some hc
      rw [Nat.add_zero] at hmem
      cases fuel with
      | zero => cases h
      | succ fuel =>
        rw [copyLoop, hmem, if_pos hop] at h
        cases h
        rfl
  | m + 1, i, fuel, new, r, hpend, hres, h => by
      obtain ⟨c, hc, hop⟩ := hpend 0 (by omega)
      obtain ⟨-, hmem, -⟩ := swCqe_some hc
      rw [Nat.add_zero] at hmem
      have hnext : getSwCqe cq (i + 1) = some ((i + 1) &&& cq.cqe) := by
        rcases m with - | m
        · obtain ⟨c', hc', -⟩ := hres
          exact (swCqe_some hc').1
        · obtain ⟨c', hc', -⟩ := hpend 1 (by omega)
          exact (swCqe_some hc').1
      cases fuel with
      | zero => cases h
      | succ fuel =>
        rw [copyLoop, hmem, if_neg hop] at h
        simp only [hnext] at h
        split at h
        · cases h
        · rw [copied]
          refine copyLoop_pending cq start m (i + 1) fuel _ r ?_ ?_ (by rw [hmem]; exact h)
          · intro j hj
            have hx := hpend (j + 1) (by omega)
            rwa [show i + (j + 1) = i + 1 + j by omega] at hx
          · rwa [show i + (m + 1) = i + 1 + m by omega] at hres

/-- `copy_resize_cqes` copies the pending CQEs and moves the consumer index by one. -/
theorem copyResizeCqes_ok {cq : Ring} {new : CqBuf} {m : ℕ} {r : CqBuf × ℕ}
    (hp : Pending cq m) (h : copyResizeCqes cq new = .ok r) :
    r = (copied cq new cq.consIndex m, toU 32 (cq.consIndex + 1 : ℕ)) := by
  unfold copyResizeCqes at h
  split at h
  · cases h
  have hfirst : getSwCqe cq cq.consIndex = some (cq.consIndex &&& cq.cqe) := by
    rcases m with - | m
    · obtain ⟨-, c, hc, -⟩ := hp
      exact (swCqe_some hc).1
    · obtain ⟨c, hc, -⟩ := hp.1 0 (by omega)
      exact (swCqe_some hc).1
  rw [hfirst] at h
  simp only at h
  cases hl : copyLoop cq (cq.consIndex &&& cq.cqe) (cq.cqe + 1) cq.consIndex
      (cq.consIndex &&& cq.cqe) new with
  | error e =>
    rw [hl] at h
    cases h
  | ok new' =>
    rw [hl] at h
    cases h
    rw [copyLoop_pending cq _ m _ _ _ _ hp.1 hp.2 hl]

/-! ### Index arithmetic of the two rings -/

/-- Truncating the consumer index to 32 bits keeps the bits that a ring reads. -/
theorem toU32_add_mod {k : ℕ} (hk : k ≤ 32) (x j : ℕ) : (toU 32 x + j) % 2 ^ k = (x + j) % 2 ^ k := by
  have hx : toU 32 x = x % 2 ^ 32 := by
    unfold toU
    exact_mod_cast Int.toNat_natCast (x % 2 ^ 32)
  rw [hx, Nat.add_mod, Nat.mod_mod_of_dvd _ (Nat.pow_dvd_pow 2 hk), ← Nat.add_mod]

/-- A counter is on lap and slot zero exactly when both of its ring fields are zero. -/
theorem mod_two_mul_two_pow (n b : ℕ) :
    n % (2 * 2 ^ b) = 0 ↔ n % 2 ^ b = 0 ∧ n &&& 2 ^ b = 0 := by
  rw [Nat.mul_comm, Nat.mod_mul, Nat.and_two_pow, Nat.testBit_eq_decide_div_mod_eq]
  rcases Nat.mod_two_eq_zero_or_one (n / 2 ^ b) with h | h
  · simp
  · simp

/-- On the next lap, a slot that software owned is not its own. -/
theorem getSwCqe_lap {r : Ring} {b n : ℕ} (hb : r.cqe + 1 = 2 ^ b)
    (h : (getSwCqe r n).isSome = true) : getSwCqe r (n + 2 ^ b) = none := by
  have hcqe : r.cqe = 2 ^ b - 1 := by omega
  have hslot : (n + 2 ^ b) &&& r.cqe = n &&& r.cqe := by
    rw [hcqe, Nat.and_two_pow_sub_one_eq_mod, Nat.and_two_pow_sub_one_eq_mod, Nat.add_mod_right]
  have hflip : swOwnershipBit (n + 2 ^ b) (2 ^ b) ≠ swOwnershipBit n (2 ^ b) := by
    have hbit : (n + 2 ^ b).testBit b = !n.testBit b := by
      rw [Nat.add_comm, Nat.testBit_two_pow_add_eq]
    simp only [swOwnershipBit, Nat.and_two_pow, hbit]
    cases n.testBit b <;> simp
  simp only [getSwCqe, hslot, hb] at h ⊢
  split at h
  · rename_i hown
    rw [if_neg]
    rintro ⟨-, hown'⟩
    exact hflip (hown'.symm.trans hown.2)
  · cases h

/-- The ring reads only the low bits of a counter: its slot and its lap. -/
theorem getSwCqe_congr {r : Ring} {b n n' : ℕ} (hb : r.cqe + 1 = 2 ^ b)
    (h : n % 2 ^ (b + 1) = n' % 2 ^ (b + 1)) : getSwCqe r n = getSwCqe r n' := by
  have hcqe : r.cqe = 2 ^ b - 1 := by omega
  have hslot : n &&& r.cqe = n' &&& r.cqe := by
    rw [hcqe, Nat.and_two_pow_sub_one_eq_mod, Nat.and_two_pow_sub_one_eq_mod,
      ← Nat.mod_mod_of_dvd _ (Nat.pow_dvd_pow 2 (Nat.le_succ b)), h,
      Nat.mod_mod_of_dvd _ (Nat.pow_dvd_pow 2 (Nat.le_succ b))]
  have hlap : swOwnershipBit n (2 ^ b) = swOwnershipBit n' (2 ^ b) := by
    have hbit : n.testBit b = n'.testBit b := by
      have h₁ := Nat.testBit_mod_two_pow n (b + 1) b
      have h₂ := Nat.testBit_mod_two_pow n' (b + 1) b
      rw [h, h₂] at h₁
      simpa using h₁.symm
    simp only [swOwnershipBit, Nat.and_two_pow, hbit]
  simp only [getSwCqe, hslot, hb, hlap]

section Resized

variable {cq : Ring} {new : CqBuf} {b m : ℕ}

/-- The ring that `mlx5_ib_resize_cq` leaves after a successful copy of `m` CQEs. -/
def resized (cq : Ring) (new : CqBuf) (entries m : ℕ) : Ring :=
  { cq with
    buf := copied cq new cq.consIndex m, resizeBuf := none
    consIndex := toU 32 (cq.consIndex + 1 : ℕ), cqe := entries - 1 }

/-- Slot and counter of the `j`-th read from the new ring. -/
theorem resized_slot (hb : b ≤ 31) (j : ℕ) :
    ((resized cq new (2 ^ b) m).consIndex + j) &&& (resized cq new (2 ^ b) m).cqe
      = (cq.consIndex + 1 + j) % 2 ^ b := by
  simp only [resized]
  rw [Nat.and_two_pow_sub_one_eq_mod]
  exact_mod_cast toU32_add_mod (by omega) (cq.consIndex + 1) j

/-- A slot other than slot zero is never delivered from the new ring. -/
theorem resized_none (hb : b ≤ 31) (hn : new.nent = 2 ^ b)
    (hinv : ∀ k < 2 ^ b, (new.mem k).opcode = INVALID) {j : ℕ}
    (hj : (cq.consIndex + 1 + j) % 2 ^ b ≠ 0) :
    swCqe (resized cq new (2 ^ b) m) ((resized cq new (2 ^ b) m).consIndex + j) = none := by
  have hlt := Nat.mod_lt (cq.consIndex + 1 + j) (Nat.two_pow_pos b)
  apply swCqe_none_of_invalid
  rw [resized_slot hb]
  show ((copied cq new cq.consIndex m).mem _).opcode = INVALID
  rw [copied_mem cq hj hlt m cq.consIndex new hn]
  exact hinv _ hlt

/-- One CQE copied to slot zero on an even lap is delivered. -/
theorem resized_one (hb : b ≤ 31) (hn : new.nent = 2 ^ b) {c : Cqe}
    (hc : swCqe cq cq.consIndex = some c) (h0 : (cq.consIndex + 1) % (2 * 2 ^ b) = 0) :
    swCqe (resized cq new (2 ^ b) 1) ((resized cq new (2 ^ b) 1).consIndex + 0)
      = some c.contents := by
  obtain ⟨hslot, hlap⟩ := (mod_two_mul_two_pow _ _).mp h0
  obtain ⟨-, hmem, hop⟩ := swCqe_some hc
  apply swCqe_eq_some
  · rw [resized_slot hb, Nat.add_zero, hslot]
    show (copyCqe new cq.consIndex (cq.buf.mem (cq.consIndex &&& cq.cqe))).mem 0 = _
    simp only [copyCqe, hn, hlap, update_self, hmem, swOwnershipBit, if_true, Nat.add_zero,
      Cqe.contents]
  · simp only [Cqe.opcode, Cqe.contents] at hop ⊢
    omega
  · have h32 := toU32_add_mod (k := b + 1) (by omega) (cq.consIndex + 1) 0
    rw [Nat.add_zero (cq.consIndex + 1), pow_succ', h0] at h32
    have hbit := ((mod_two_mul_two_pow _ _).mp h32).2
    show c.opOwn / 2 * 2 % 2 = swOwnershipBit (toU 32 (cq.consIndex + 1 : ℕ) + 0) (2 ^ b - 1 + 1)
    rw [swOwnershipBit, Nat.sub_add_cancel Nat.one_le_two_pow, if_pos hbit]
    omega

/-- The resized ring delivers the pending CQEs exactly when there are none, or a single one whose
    new counter is slot zero of an even lap. -/
theorem resized_delivers_iff (hb1 : 1 ≤ b) (hb : b ≤ 31) (hn : new.nent = 2 ^ b)
    (hinv : ∀ k < 2 ^ b, (new.mem k).opcode = INVALID) (hp : Pending cq m) :
    Delivers cq (resized cq new (2 ^ b) m) m ↔
      m = 0 ∨ m = 1 ∧ (cq.consIndex + 1) % (2 * 2 ^ b) = 0 := by
  have h2 : 2 ≤ 2 ^ b := by
    calc 2 = 2 ^ 1 := rfl
      _ ≤ 2 ^ b := Nat.pow_le_pow_right (by norm_num) hb1
  -- a pending CQE is some CQE, so an empty slot of the new ring cannot match it
  have hsome : ∀ j < m, Delivers cq (resized cq new (2 ^ b) m) m →
      swCqe (resized cq new (2 ^ b) m) ((resized cq new (2 ^ b) m).consIndex + j) ≠ none := by
    intro j hj hd hnone
    obtain ⟨c, hc, -⟩ := hp.1 j hj
    have hx := hd.1 j hj
    rw [hnone, hc] at hx
    simp at hx
  constructor
  · intro hd
    rcases m with - | m
    · exact Or.inl rfl
    right
    have hzero : (cq.consIndex + 1) % 2 ^ b = 0 := by
      by_contra hne
      exact hsome 0 (by omega) hd (resized_none hb hn hinv (by simpa using hne))
    have hm : m = 0 := by
      by_contra hm
      refine hsome 1 (by omega) hd (resized_none hb hn hinv ?_)
      rw [Nat.add_mod, hzero, Nat.zero_add, Nat.mod_mod, Nat.mod_eq_of_lt (by omega)]
      omega
    subst hm
    refine ⟨rfl, (mod_two_mul_two_pow _ _).mpr ⟨hzero, ?_⟩⟩
    by_contra hlap
    refine hsome 0 (by omega) hd (swCqe_none_of_invalid ?_)
    rw [resized_slot hb, Nat.add_zero, hzero]
    show ((copyCqe new cq.consIndex _).mem 0).opcode = INVALID
    simp only [copyCqe, hn]
    rw [update_of_ne (Ne.symm hlap)]
    exact hinv 0 (by omega)
  · rintro (rfl | ⟨rfl, h0⟩)
    · refine ⟨by simp, swCqe_none_of_invalid ?_⟩
      rw [resized_slot hb]
      exact hinv _ (Nat.mod_lt _ (Nat.two_pow_pos b))
    · obtain ⟨c, hc, -⟩ := hp.1 0 (by omega)
      rw [Nat.add_zero] at hc
      refine ⟨?_, resized_none hb hn hinv ?_⟩
      · intro j hj
        obtain rfl : j = 0 := by omega
        rw [resized_one hb hn hc h0, Nat.add_zero, hc, Option.map_some, Option.map_some,
          Cqe.contents_contents]
      · have hslot := ((mod_two_mul_two_pow _ _).mp h0).1
        rw [Nat.add_mod, hslot, Nat.zero_add, Nat.mod_mod, Nat.mod_eq_of_lt (by omega)]
        omega

end Resized

theorem resizeKernel_invalid (buf : CqBuf) (entries : ℕ) :
    ∀ k < entries, ((resizeKernel buf entries 64).mem k).opcode = INVALID := by
  intro k hk
  simp only [resizeKernel, initCqFragBuf]
  rw [if_pos hk]
  simp [Cqe.opcode]

/-- The kernel path, once its command has returned with the new buffer still in place. -/
theorem resizeCq_ok {env : ResizeEnv} {cq cq₁ cq' : Ring} {entries : ℕ} {buf : CqBuf}
    (hne : roundupPowOfTwo (entries + 1) ≠ cq.cqe + 1)
    (halloc : env.alloc (roundupPowOfTwo (entries + 1)) = some buf)
    (hmod : env.modifyCq { cq with
      resizeBuf := some (resizeKernel buf (roundupPowOfTwo (entries + 1)) 64) } = .ok cq₁)
    (hret : resizeCq env cq entries = .ok cq') :
    1 ≤ entries ∧ cq' = resizeLocked cq₁ (roundupPowOfTwo (entries + 1)) := by
  simp only [resizeCq] at hret
  split at hret
  · cases hret
  split at hret
  · cases hret
  split at hret
  · cases hret
  rw [halloc] at hret
  simp only at hret
  split at hret
  · cases hret
  rw [hmod] at hret
  cases hret
  exact ⟨by omega, rfl⟩

/-- CORRECT only in part: a resize whose copy succeeded delivers exactly the CQEs that preceded
    RESIZE_CQ if and only if there were none of them, or one whose new counter is slot zero of an
    even lap; the copy masks the new index with `nent`, not with `nent - 1`. -/
theorem resize_delivers_iff (env : ResizeEnv) (cq cq₁ cq' : Ring) (entries m : ℕ) (buf : CqBuf)
    (r : CqBuf × ℕ) (hint : roundupPowOfTwo (entries + 1) < 2 ^ 31)
    (hne : roundupPowOfTwo (entries + 1) ≠ cq.cqe + 1)
    (halloc : env.alloc (roundupPowOfTwo (entries + 1)) = some buf)
    (hmod : env.modifyCq { cq with
      resizeBuf := some (resizeKernel buf (roundupPowOfTwo (entries + 1)) 64) } = .ok cq₁)
    (hkeep : cq₁.resizeBuf = some (resizeKernel buf (roundupPowOfTwo (entries + 1)) 64))
    (hpend : Pending cq₁ m)
    (hcopy : copyResizeCqes cq₁ (resizeKernel buf (roundupPowOfTwo (entries + 1)) 64) = .ok r)
    (hret : resizeCq env cq entries = .ok cq') :
    Delivers cq₁ cq' m ↔
      m = 0 ∨ m = 1 ∧ (cq₁.consIndex + 1) % (2 * roundupPowOfTwo (entries + 1)) = 0 := by
  obtain ⟨hentries, hcq'⟩ := resizeCq_ok hne halloc hmod hret
  rw [resizeLocked, hkeep] at hcq'
  simp only at hcq'
  rw [hcopy, copyResizeCqes_ok hpend hcopy] at hcq'
  obtain ⟨b, hb⟩ := exists_roundupPowOfTwo (entries + 1)
  have hle := le_roundupPowOfTwo (entries + 1)
  rw [hb] at hint hle hcq' ⊢
  have hb31 : b < 31 := (Nat.pow_lt_pow_iff_right (by norm_num)).mp hint
  have hb1 : 1 ≤ b := by
    rcases b with - | b
    · simp at hle
      omega
    · omega
  have hinv := resizeKernel_invalid buf (2 ^ b)
  have hiff := resized_delivers_iff hb1 (by omega) rfl hinv hpend
  rw [hcq']
  exact hiff

/-! ### Two resizes of a four-entry CQ to eight entries -/

/-- A CQE of QP 1 with the given opcode and ownership bit. -/
def plainCqe (opcode owner wqeCounter : ℕ) : Cqe :=
  ⟨opcode * 16 + owner, wqeCounter, 1, 0, 0, 0, 0, 0, 0, 0, 0, 0, 0, 0, 0, 0, 0, 0, 0, 0, 0⟩

/-- A four-entry CQ with the given consumer index and memory. -/
def smallRing (consIndex : ℕ) (mem : ℕ → Cqe) : Ring :=
  ⟨3, 64, consIndex, 0, ⟨0, 64, 4, mem⟩, none⟩

/-- A device on which every step of the resize succeeds. -/
def smallEnv : ResizeEnv where
  cqResize := true
  logMaxCqSz := 22
  alloc := fun n => some ⟨1, 64, n, fun _ => plainCqe REQ 0 0⟩
  inAlloc := true
  modifyCq := fun cq => .ok cq

/-- The CQ of `smallRing` when the resize takes the lock. -/
def smallLocked (consIndex : ℕ) (mem : ℕ → Cqe) : Ring :=
  { smallRing consIndex mem with
    resizeBuf := some (resizeKernel ⟨1, 64, 8, fun _ => plainCqe REQ 0 0⟩ 8 64) }

/-- Consumer index 0: one pending completion, then RESIZE_CQ. -/
def pendingAtZero : ℕ → Cqe
  | 0 => plainCqe REQ 0 7
  | 1 => plainCqe RESIZE_CQ 0 0
  | _ => plainCqe INVALID 0 0

/-- Consumer index 15: one pending completion in slot 3, then RESIZE_CQ in slot 0 of the next lap. -/
def pendingAtFifteen : ℕ → Cqe
  | 0 => plainCqe RESIZE_CQ 0 0
  | 3 => plainCqe REQ 1 7
  | _ => plainCqe INVALID 0 0

theorem pending_of_one {cq : Ring} {c d : Cqe} (h₀ : swCqe cq cq.consIndex = some c)
    (hc : c.opcode ≠ RESIZE_CQ) (h₁ : swCqe cq (cq.consIndex + 1) = some d)
    (hd : d.opcode = RESIZE_CQ) : Pending cq 1 := by
  refine ⟨?_, d, h₁, hd⟩
  intro j hj
  obtain rfl : j = 0 := by omega
  exact ⟨c, h₀, hc⟩

/-- The completion pending at consumer index 0 is lost. -/
theorem resize_loses_pending :
    ∃ cq' r, resizeCq smallEnv (smallRing 0 pendingAtZero) 7 = .ok cq' ∧
      copyResizeCqes (smallLocked 0 pendingAtZero)
        (resizeKernel ⟨1, 64, 8, fun _ => plainCqe REQ 0 0⟩ 8 64) = .ok r ∧
      Pending (smallLocked 0 pendingAtZero) 1 ∧
      ¬ Delivers (smallLocked 0 pendingAtZero) cq' 1 := by
  refine ⟨_, _, rfl, rfl, pending_of_one rfl (by decide) rfl (by decide), ?_⟩
  rintro ⟨hd, -⟩
  have h0 := hd 0 (by decide)
  revert h0
  decide

/-- The completion pending at consumer index 15 is delivered. -/
theorem resize_delivers_at_fifteen :
    ∃ cq', resizeCq smallEnv (smallRing 15 pendingAtFifteen) 7 = .ok cq' ∧
      Delivers (smallLocked 15 pendingAtFifteen) cq' 1 :=
  ⟨_, rfl, (resize_delivers_iff smallEnv (smallRing 15 pendingAtFifteen)
    (smallLocked 15 pendingAtFifteen) _ 7 1 ⟨1, 64, 8, fun _ => plainCqe REQ 0 0⟩ _ (by decide)
    (by decide) rfl rfl rfl (pending_of_one rfl (by decide) rfl (by decide)) rfl rfl).mpr
    (Or.inr ⟨rfl, by decide⟩)⟩

end RdmaDriver.Mlx5Cq
