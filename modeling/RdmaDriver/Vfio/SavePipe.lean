import RdmaDriver.Vfio.SaveFile

/-! @src drivers/vfio/pci/mlx5/main.c, cmd.c | name:Chunk pipeline | scheme:run | family:ownership

    While firmware has a chunk somebody has to ask for it. The duty goes round:

        in flight - callback, room -> work queued - work -> in flight
            |                            ▴
            ╰- callback, both full -> size pending - read_done

    and each of them relies on where the buffer of the other slot is. -/

namespace RdmaDriver.SaveFile
open RdmaDriver.Schemes RdmaDriver.MigBuf Function
open RdmaDriver.DeviceState (MigfState)
open Prod (ext fst snd)

variable {m m' : Migf} {hand : List ℕ} {a b i k : ℕ}

/-- The saves in flight: in firmware, or failed and not yet cleaned up. -/
def Migf.inFlight (m : Migf) : ℕ := m.outstanding + m.cleanups

/-- The save works that are queued. -/
def Migf.works (m : Migf) : ℕ := (m.saveWork 0).isSome.toNat + (m.saveWork 1).isSome.toNat

/-- `next_required_umem_size` waits for a chunk to be read. -/
def Migf.pending (m : Migf) : ℕ := if m.nextRequiredUmemSize = 0 then 0 else 1

/-- The chunk data buffers in `buf_list`. -/
def Migf.readyChunks (m : Migf) : ℕ :=
  m.bufList.countP fun b => !(m.heap b).dmaNone && decide ((m.heap b).stopCopyChunkNum ≠ 0)

/-- The data buffers of slot `k` in `buf_list`. -/
def Migf.readyAt (m : Migf) (k : ℕ) : ℕ := m.bufList.countP fun b => m.tag b = (false, k + 1)

/-- The data buffer of slot `k` is in the slot or in `buf_list`. -/
def Migf.Has (m : Migf) (k : ℕ) : Prop := (m.buf k).isSome = true ∨ 0 < m.readyAt k

/-- In the list there is at most one data buffer of a chunk. -/
theorem Owns.readyAt_le (h : Owns hand m) (k : ℕ) : m.readyAt k ≤ 1 := by
  have hnd := h.list_nodup
  have hlive : ∀ c ∈ m.bufList, m.live c = true := fun c hc => h.live_of_list hc
  unfold Migf.readyAt
  generalize m.bufList = l at hnd hlive ⊢
  induction l with
  | nil => exact Nat.zero_le _
  | cons c l ih =>
    obtain ⟨hc, hl⟩ := List.nodup_cons.1 hnd
    have ih := ih hl fun d hd => hlive d (List.mem_cons_of_mem _ hd)
    rw [List.countP_cons]
    by_cases ht : m.tag c = (false, k + 1)
    · have hz : l.countP (fun b => m.tag b = (false, k + 1)) = 0 := by
        refine List.countP_eq_zero.2 fun d hd htd => ?_
        have htd : m.tag d = (false, k + 1) := by simpa using htd
        have hne : c ≠ d := by rintro rfl; exact hc hd
        have := h.uniq c d (hlive c (List.mem_cons_self ..)) (hlive d (List.mem_cons_of_mem _ hd))
          hne (ht.trans htd.symm)
        have hsnd := congrArg snd ht
        simp only [Migf.tag] at hsnd
        omega
      simp [hz, ht]
    · simpa [ht] using ih

theorem Owns.readyChunks_eq (h : Owns hand m) : m.readyChunks = m.readyAt 0 + m.readyAt 1 := by
  have hchunk : ∀ c ∈ m.bufList, (m.heap c).stopCopyChunkNum ≤ 2 :=
    fun c hc => (h.chunk c (h.live_of_list hc)).1
  unfold Migf.readyChunks Migf.readyAt
  generalize m.bufList = l at hchunk ⊢
  induction l with
  | nil => rfl
  | cons c l ih =>
    have ih := ih fun d hd => hchunk d (List.mem_cons_of_mem _ hd)
    have hc := hchunk c (List.mem_cons_self ..)
    simp only [List.countP_cons, Migf.tag, Prod.mk.injEq] at ih ⊢
    rw [ih]
    have : (m.heap c).stopCopyChunkNum = 0 ∨ (m.heap c).stopCopyChunkNum = 1 ∨
        (m.heap c).stopCopyChunkNum = 2 := by omega
    cases hd : (m.heap c).dmaNone <;> rcases this with h | h | h <;> simp [h] <;> omega

theorem readyAt_congr (hlist : m'.bufList = m.bufList) (htag : ∀ c ∈ m.bufList, m'.tag c = m.tag c)
    (k : ℕ) : m'.readyAt k = m.readyAt k := by
  unfold Migf.readyAt
  rw [hlist]
  exact List.countP_congr fun c hc => by rw [htag c hc]

/-- What the list gains or loses counts for its chunk. -/
theorem readyAt_append (hlist : m'.bufList = m.bufList ++ [b])
    (htag : ∀ c ∈ m.bufList, m'.tag c = m.tag c) (k : ℕ) :
    m'.readyAt k = m.readyAt k + if m'.tag b = (false, k + 1) then 1 else 0 := by
  unfold Migf.readyAt
  rw [hlist, List.countP_append, List.countP_singleton]
  congr 1
  · exact List.countP_congr fun c hc => by rw [htag c hc]
  · simp

theorem readyAt_erase (hb : b ∈ m.bufList) (k : ℕ) :
    { m with bufList := m.bufList.erase b }.readyAt k +
      (if m.tag b = (false, k + 1) then 1 else 0) = m.readyAt k := by
  have hp := (List.perm_cons_erase hb).countP_eq (fun b => decide (m.tag b = (false, k + 1)))
  rw [List.countP_cons] at hp
  unfold Migf.readyAt
  simp only [decide_eq_true_eq] at hp
  exact hp.symm

/-- PIPELINE: whoever starts the next save is in one place, and the buffers it needs are where it
    looks for them. -/
structure Pipe (m : Migf) : Prop where
  mode : m.chunkMode = true
  owns : Owns [] m
  save : m.saveComp + m.inFlight = 1
  refs : m.filpRefs = 1 + m.inFlight + m.works
  ready : m.numReadyChunks = m.readyChunks
  one : m.inFlight + m.works + m.pending ≤ 1
  idle : m.fwNext = false → m.works + m.pending = 0
  token : m.fwNext = true → m.state ≠ .error → m.inFlight + m.works + m.pending = 1
  phase : m.fwNext = true → m.phase = .stopCopy
  flag : m.inFlight ≠ 0 → m.async.stopCopyChunk = m.fwNext
  plain : m.inFlight ≠ 0 → m.fwNext = false → (m.heap m.async.buf).stopCopyChunkNum = 0
  chunk : m.inFlight ≠ 0 → m.fwNext = true →
    ∃ k < 2, m.tag m.async.buf = (false, k + 1) ∧ m.Has (1 - k)
  work : ∀ k, (m.saveWork k).isSome = true → k < 2 ∧ (m.buf k).isSome = true ∧ m.Has (1 - k)
  both : m.nextRequiredUmemSize ≠ 0 → 0 < m.readyAt 0 ∧ 0 < m.readyAt 1
  slots : m.phase = .preCopy →
    (m.buf 0).isSome = true ∧ (m.buf 1).isSome = true ∨ m.state = .error ∧ m.inFlight = 0
  new : m.phase = .new → m.inFlight = 0 ∧ (m.state = .none ∨ m.state = .error) ∧
    (m.buf 0).isSome = true ∧ (m.buf 1).isSome = true

/-- STEP: the file is marked. -/
theorem Pipe.markErr (h : Pipe m) : Pipe (mlx5vfMarkErr m) := by
  refine { h with
    owns := { h.owns with }
    token := fun _ hne => absurd rfl hne
    slots := fun hp => (h.slots hp).imp_right fun hr => ⟨rfl, hr.2⟩
    new := fun hp => ⟨(h.new hp).1, .inr rfl, (h.new hp).2.2⟩ }

/-- STEP: a buffer is read; its tag stays. -/
theorem Pipe.setHeap (h : Pipe m) (heap : ℕ → Buf)
    (hdma : ∀ c, (heap c).dmaNone = (m.heap c).dmaNone)
    (hchunk : ∀ c, (heap c).stopCopyChunkNum = (m.heap c).stopCopyChunkNum) :
    Pipe { m with heap := heap } := by
  have htag : ∀ c, ({ m with heap := heap } : Migf).tag c = m.tag c :=
    fun c => ext (hdma c) (hchunk c)
  have hat : ∀ k, ({ m with heap := heap } : Migf).readyAt k = m.readyAt k :=
    readyAt_congr rfl fun c _ => htag c
  have hhas : ∀ k, ({ m with heap := heap } : Migf).Has k ↔ m.Has k := fun k => by
    rw [Migf.Has, Migf.Has, hat]
  have hown : Owns [] { m with heap := heap } :=
    h.owns.congr (fun _ => rfl) rfl rfl rfl rfl rfl rfl rfl rfl htag
  refine { h with
    owns := hown
    ready := ?_
    plain := fun hf hn => (hchunk _).trans (h.plain hf hn)
    chunk := fun hf hn => ?_
    work := fun k hk => ?_
    both := fun hn => ?_ }
  · rw [hown.readyChunks_eq, hat, hat, ← h.owns.readyChunks_eq]
    exact h.ready
  · obtain ⟨k, hk, ht, hh⟩ := h.chunk hf hn
    exact ⟨k, hk, (htag _).trans ht, (hhas _).2 hh⟩
  · obtain ⟨hk2, hb, hh⟩ := h.work k hk
    exact ⟨hk2, hb, (hhas _).2 hh⟩
  · rw [hat, hat]
    exact h.both hn

/-- The file while its callback runs: the two records are at the end of `buf_list`. -/
def landed (m : Migf) (image : List ℕ) : Migf :=
  addRecord (addRecord { m with outstanding := 0, cleanups := 0 } m.async.headerBuf
    (headerBytes image.length TAG_MANDATORY TAG_FW_DATA)) m.async.buf image

theorem Pipe.land (h : Pipe m) (ho : m.outstanding ≠ 0) (image : List ℕ) :
    Owns [] (landed m image) ∧ (∀ c, (landed m image).tag c = m.tag c) ∧
      ∀ k, (landed m image).readyAt k =
        m.readyAt k + if m.tag m.async.buf = (false, k + 1) then 1 else 0 := by
  have hf : m.inFlight ≠ 0 := by unfold Migf.inFlight; omega
  obtain ⟨hdb, hdx⟩ := h.owns.flying hf
  have hland : Owns [m.async.headerBuf, m.async.buf] { m with outstanding := 0, cleanups := 0 } :=
    (h.owns.land hf rfl).perm fun c => by simp only [count_cons_inSlot, List.count_nil]; omega
  have htag₁ : ∀ c, (addRecord { m with outstanding := 0, cleanups := 0 } m.async.headerBuf
      (headerBytes image.length TAG_MANDATORY TAG_FW_DATA)).tag c = m.tag c := by
    intro c
    rcases eq_or_ne c m.async.headerBuf with rfl | hne
    · simp [Migf.tag, addRecord, Migf.setBuf]
    · simp [Migf.tag, addRecord, Migf.setBuf, hne]
  have htag₂ : ∀ c, (landed m image).tag c = m.tag c := by
    intro c
    refine Eq.trans ?_ (htag₁ c)
    rcases eq_or_ne c m.async.buf with rfl | hne
    · simp [Migf.tag, landed, addRecord, Migf.setBuf]
    · simp [Migf.tag, landed, addRecord, Migf.setBuf, hne]
  refine ⟨(hland.enlist _).enlist _, htag₂, fun k => ?_⟩
  have h₁ := @readyAt_append { m with outstanding := 0, cleanups := 0 }
    (addRecord { m with outstanding := 0, cleanups := 0 } m.async.headerBuf
      (headerBytes image.length TAG_MANDATORY TAG_FW_DATA)) m.async.headerBuf rfl
    (fun c _ => htag₁ c) k
  have h₂ := @readyAt_append (addRecord { m with outstanding := 0, cleanups := 0 }
    m.async.headerBuf (headerBytes image.length TAG_MANDATORY TAG_FW_DATA))
    (landed m image) m.async.buf rfl (fun c _ => (htag₂ c).trans (htag₁ c).symm) k
  have hx : m.tag m.async.headerBuf ≠ (false, k + 1) := by
    intro ht
    have := congrArg fst ht
    simp [Migf.tag, hdx] at this
  rw [htag₁, if_neg hx] at h₁
  rw [h₂, htag₂, h₁]
  rfl

/-- What a callback does, beside the records: it counts the chunk, and passes on the next one if
    there is one. -/
theorem mlx5vfSaveCallback_eq (h : Pipe m) (ho : m.outstanding ≠ 0) (image : List ℕ)
    (nextRequired : ℕ) {chunk next : ℕ} (hchunk : (m.heap m.async.buf).stopCopyChunkNum = chunk)
    (hnext : (if chunk ≠ 0 then nextRequired else 0) = next) :
    ∃ pre, mlx5vfSaveCallback m image nextRequired = { landed m image with
      numReadyChunks := if chunk ≠ 0 then m.numReadyChunks + 1 else m.numReadyChunks
      nextRequiredUmemSize := if next ≠ 0 ∧ MAX_NUM_CHUNKS ≤ m.numReadyChunks + 1 then next
        else m.nextRequiredUmemSize
      saveWork := if next ≠ 0 ∧ ¬ MAX_NUM_CHUNKS ≤ m.numReadyChunks + 1 then
          update m.saveWork (chunk % MAX_NUM_CHUNKS) (some next) else m.saveWork
      preCopyInitialBytes := pre
      state := if m.async.stopCopyChunk = true ∧ next = 0 then .complete
        else if m.state ≠ .preCopy ∧ m.async.stopCopyChunk = false then .preCopy else m.state
      filpRefs := m.filpRefs - if next ≠ 0 ∧ ¬ MAX_NUM_CHUNKS ≤ m.numReadyChunks + 1 then 0 else 1
      saveComp := m.saveComp + 1
      fwNext := if m.async.stopCopyChunk then decide (next ≠ 0) else m.fwNext
      images := m.images ++ [image] } := by
  have hone : m.outstanding = 1 ∧ m.cleanups = 0 := by
    have := h.save
    unfold Migf.inFlight at this
    omega
  have hrefs : m.filpRefs ≠ 0 := by
    have := h.refs
    omega
  have hfull : (decide (chunk ≠ 0 ∧ next ≠ 0 ∧
      (if chunk ≠ 0 then m.numReadyChunks + 1 else m.numReadyChunks) ≥ MAX_NUM_CHUNKS)) =
      decide (next ≠ 0 ∧ MAX_NUM_CHUNKS ≤ m.numReadyChunks + 1) := by
    rcases eq_or_ne chunk 0 with rfl | hc
    · simp [← hnext]
    · simp [hc]
  have hrec : addRecord (addRecord m m.async.headerBuf
      (headerBytes image.length TAG_MANDATORY TAG_FW_DATA)) m.async.buf image =
      { landed m image with outstanding := m.outstanding, cleanups := m.cleanups } := rfl
  obtain ⟨h₁, h₂, h₃, h₄, h₅, h₆, h₇, h₈, h₉, h₁₀⟩ : (landed m image).state = m.state ∧
      (landed m image).numReadyChunks = m.numReadyChunks ∧
      (landed m image).nextRequiredUmemSize = m.nextRequiredUmemSize ∧
      (landed m image).saveWork = m.saveWork ∧ (landed m image).filpRefs = m.filpRefs ∧
      (landed m image).saveComp = m.saveComp ∧ (landed m image).fwNext = m.fwNext ∧
      (landed m image).images = m.images ∧ (landed m image).outstanding = 0 ∧
      (landed m image).cleanups = 0 := ⟨rfl, rfl, rfl, rfl, rfl, rfl, rfl, rfl, rfl, rfl⟩
  simp only [mlx5vfSaveCallback, if_neg ho, hchunk, hnext, hrec]
  generalize landed m image = g at *
  rw [h₁, h₂, h₃, h₇, h₈, h₉, h₁₀, hfull, hone.1, hone.2]
  refine ⟨if m.state ≠ .preCopy ∧ m.async.stopCopyChunk = false then
    g.preCopyInitialBytes + HEADER_SIZE + image.length else g.preCopyInitialBytes, ?_⟩
  simp only [decide_eq_true_eq, decide_eq_false_iff_not, Bool.and_eq_true, Bool.not_eq_true']
  by_cases hf : next ≠ 0 ∧ ¬ MAX_NUM_CHUNKS ≤ m.numReadyChunks + 1
  · have hf' : next ≠ 0 ∧ ¬ (next ≠ 0 ∧ MAX_NUM_CHUNKS ≤ m.numReadyChunks + 1) :=
      ⟨hf.1, fun hn => hf.2 hn.2⟩
    rw [if_pos hf', if_pos hf, if_pos hf]
    simp only [h₄, h₅, h₆]
    rfl
  · have hf' : ¬ (next ≠ 0 ∧ ¬ (next ≠ 0 ∧ MAX_NUM_CHUNKS ≤ m.numReadyChunks + 1)) :=
      fun hn => hf ⟨hn.1, fun hle => hn.2 ⟨hn.1, hle⟩⟩
    rw [if_neg hf', if_neg hf, if_neg hf]
    simp only [mlx5vfSaveCallbackComplete, h₄, h₅, h₆]

/-- While a save is in flight no work is queued and nothing is pending. -/
theorem Pipe.alone (h : Pipe m) (hf : m.inFlight ≠ 0) :
    (∀ k, m.saveWork k = none) ∧ m.nextRequiredUmemSize = 0 := by
  have hone := h.one
  constructor
  · intro k
    by_contra hne
    have hs : (m.saveWork k).isSome = true := Option.ne_none_iff_isSome.1 hne
    obtain ⟨hk, -⟩ := h.work k hs
    have : 0 < m.works := by
      unfold Migf.works
      obtain rfl | rfl : k = 0 ∨ k = 1 := by omega
      all_goals
        rw [hs, Bool.toNat_true]
        omega
    omega
  · by_contra hne
    rw [Migf.pending, if_neg hne] at hone
    omega

theorem works_none (h : ∀ k, m.saveWork k = none) : m.works = 0 := by simp [Migf.works, h]

theorem works_update (h : ∀ k, m.saveWork k = none) (hk : k < 2) (v : ℕ) :
    { m with saveWork := update m.saveWork k (some v) }.works = 1 := by
  obtain rfl | rfl : k = 0 ∨ k = 1 := by omega
  all_goals simp [Migf.works, h]

/-- STEP: the callback of a save that is not of stop-copy. -/
theorem Pipe.callback_plain (h : Pipe m) (ho : m.outstanding ≠ 0) (hfw : m.fwNext = false)
    (image : List ℕ) (nextRequired : ℕ) : Pipe (mlx5vfSaveCallback m image nextRequired) := by
  have hf : m.inFlight ≠ 0 := by unfold Migf.inFlight; omega
  obtain ⟨hw, hn⟩ := h.alone hf
  have hplain := h.plain hf hfw
  have hflag := h.flag hf
  rw [hfw] at hflag
  obtain ⟨hown, htag, hat⟩ := h.land ho image
  have hat : ∀ k, (landed m image).readyAt k = m.readyAt k := by
    intro k
    rw [hat, if_neg, Nat.add_zero]
    intro ht
    have := congrArg snd ht
    simp only [Migf.tag] at this
    omega
  obtain ⟨pre, heq⟩ := mlx5vfSaveCallback_eq h ho image nextRequired hplain (if_neg (by simp))
  rw [heq]
  simp only [hflag]
  have hready : (landed m image).readyChunks = m.readyChunks := by
    rw [hown.readyChunks_eq, hat, hat, ← h.owns.readyChunks_eq]
  have hsave := h.save
  have hrefs := h.refs
  refine {
    mode := h.mode
    owns := { hown with }
    save := ?_
    refs := ?_
    ready := h.ready.trans hready.symm
    one := ?_
    idle := fun _ => h.idle hfw
    token := fun hne => absurd (hfw.symm.trans hne) (by decide)
    phase := fun hne => absurd (hfw.symm.trans hne) (by decide)
    flag := fun hne => absurd rfl hne
    plain := fun hne => absurd rfl hne
    chunk := fun hne => absurd rfl hne
    work := fun k hk => absurd hk (by simp [hw])
    both := fun hne => absurd hn hne
    slots := fun hp => ?_
    new := fun hp => absurd (h.new hp).1 hf }
  · change m.saveComp + 1 + 0 = 1
    omega
  · change m.filpRefs - 1 = 1 + 0 + m.works
    omega
  · change 0 + m.works + m.pending ≤ 1
    have := h.one
    omega
  · rcases h.slots hp with hs | ⟨-, h0⟩
    · exact .inl hs
    · exact absurd h0 hf

/-- STEP: the callback of a chunk. -/
theorem Pipe.callback_chunk (h : Pipe m) (ho : m.outstanding ≠ 0) (hfw : m.fwNext = true)
    (image : List ℕ) (nextRequired : ℕ) : Pipe (mlx5vfSaveCallback m image nextRequired) := by
  have hf : m.inFlight ≠ 0 := by unfold Migf.inFlight; omega
  obtain ⟨hw, hn⟩ := h.alone hf
  obtain ⟨k, hk, htagb, hother⟩ := h.chunk hf hfw
  have hchunk : (m.heap m.async.buf).stopCopyChunkNum = k + 1 := congrArg snd htagb
  have hflag := (h.flag hf).trans hfw
  have hphase := h.phase hfw
  obtain ⟨hown, htag, hat⟩ := h.land ho image
  have hatk : (landed m image).readyAt k = m.readyAt k + 1 := by rw [hat, if_pos htagb]
  have hatj : (landed m image).readyAt (1 - k) = m.readyAt (1 - k) := by
    rw [hat, if_neg, Nat.add_zero]
    rw [htagb]
    simp only [Prod.mk.injEq]
    omega
  have hsum : (landed m image).readyChunks = m.readyChunks + 1 := by
    rw [hown.readyChunks_eq, h.owns.readyChunks_eq]
    obtain rfl | rfl : k = 0 ∨ k = 1 := by omega
    · simp only [Nat.sub_zero] at hatj
      omega
    · simp only [Nat.sub_self] at hatj
      omega
  obtain ⟨pre, heq⟩ := mlx5vfSaveCallback_eq h ho image nextRequired hchunk
    (if_pos (Nat.succ_ne_zero k))
  rw [heq]
  simp only [ne_eq, hflag, hn, MAX_NUM_CHUNKS]
  have hsave := h.save
  have hrefs := h.refs
  have hwork := works_none hw
  have hready := h.ready
  have hother' : nextRequired ≠ 0 → ¬ 2 ≤ m.numReadyChunks + 1 → (m.buf (1 - k)).isSome = true := by
    intro _ hfull
    rcases hother with hs | hr
    · exact hs
    · exfalso
      have := h.owns.readyChunks_eq
      obtain rfl | rfl : k = 0 ∨ k = 1 := by omega
      · simp only [Nat.sub_zero] at hr
        omega
      · simp only [Nat.sub_self] at hr
        omega
  have hmod : (k + 1) % 2 = 1 - k := by omega
  have hphase' : ¬ (m.phase = .new ∨ m.phase = .preCopy) := by simp [hphase]
  rw [hmod]
  rcases eq_or_ne nextRequired 0 with rfl | hnext
  · -- the last chunk: nobody has to start a save
    simp only
    refine {
      mode := h.mode
      owns := { hown with }
      save := (?_ : m.saveComp + 1 + 0 = 1)
      refs := (?_ : m.filpRefs - 1 = 1 + 0 + m.works)
      ready := (congrArg (· + 1) hready).trans hsum.symm
      one := (?_ : 0 + m.works + 0 ≤ 1)
      idle := fun _ => (?_ : m.works + 0 = 0)
      token := fun hne => absurd hne (by simp)
      phase := fun hne => absurd hne (by simp)
      flag := fun hne => absurd rfl hne
      plain := fun hne => absurd rfl hne
      chunk := fun hne => absurd rfl hne
      work := fun k hk => absurd hk (by simp [hw])
      both := fun hne => absurd rfl hne
      slots := fun hp => absurd (.inr hp) hphase'
      new := fun hp => absurd (.inl hp) hphase' }
    all_goals omega
  by_cases hfull : 2 ≤ m.numReadyChunks + 1
  · -- both chunks are in the list: the reader has to
    simp only [hnext, hfull]
    have hboth : 0 < (landed m image).readyAt 0 ∧ 0 < (landed m image).readyAt 1 := by
      have h₀ := hown.readyAt_le 0
      have h₁ := hown.readyAt_le 1
      have := hown.readyChunks_eq
      omega
    refine {
      mode := h.mode
      owns := { hown with }
      save := (?_ : m.saveComp + 1 + 0 = 1)
      refs := (?_ : m.filpRefs - 1 = 1 + 0 + m.works)
      ready := (congrArg (· + 1) hready).trans hsum.symm
      one := ?_
      idle := fun hne => absurd hne.symm Bool.false_ne_true
      token := fun _ _ => ?_
      phase := fun _ => hphase
      flag := fun hne => absurd rfl hne
      plain := fun hne => absurd rfl hne
      chunk := fun hne => absurd rfl hne
      work := fun k hk => absurd hk (by simp [hw])
      both := fun _ => hboth
      slots := fun hp => absurd (.inr hp) hphase'
      new := fun hp => absurd (.inl hp) hphase' }
    · omega
    · omega
    · change 0 + m.works + (if nextRequired = 0 then 0 else 1) ≤ 1
      rw [if_neg hnext]
      omega
    · change 0 + m.works + (if nextRequired = 0 then 0 else 1) = 1
      rw [if_neg hnext]
      omega
  · -- the other slot has its buffer: the work has to
    simp only [hnext, hfull]
    have hslot := hother' hnext hfull
    have hwork := works_update hw (by omega : 1 - k < 2) nextRequired
    refine {
      mode := h.mode
      owns := { hown with }
      save := (?_ : m.saveComp + 1 + 0 = 1)
      refs := (?_ : m.filpRefs - 0 = 1 + 0 + _)
      ready := (congrArg (· + 1) hready).trans hsum.symm
      one := (?_ : 0 + _ + 0 ≤ 1)
      idle := fun hne => absurd hne.symm Bool.false_ne_true
      token := fun _ _ => (?_ : 0 + _ + 0 = 1)
      phase := fun _ => hphase
      flag := fun hne => absurd rfl hne
      plain := fun hne => absurd rfl hne
      chunk := fun hne => absurd rfl hne
      work := fun j hj => ?_
      both := fun hne => absurd rfl hne
      slots := fun hp => absurd (.inr hp) hphase'
      new := fun hp => absurd (.inl hp) hphase' }
    · omega
    · exact (by omega : m.filpRefs - 0 = 2).trans (congrArg (1 + 0 + ·) hwork).symm
    · exact ((Nat.zero_add _).trans hwork).le
    · exact (Nat.zero_add _).trans hwork
    · rcases eq_or_ne j (1 - k) with rfl | hne
      · refine ⟨by omega, hslot, .inr ?_⟩
        have hkk : 1 - (1 - k) = k := by omega
        rw [hkk]
        exact hatk ▸ Nat.succ_pos _
      · simp [hne, hw] at hj

/-- STEP: a callback. -/
theorem Pipe.callback (h : Pipe m) (image : List ℕ) (nextRequired : ℕ) :
    Pipe (mlx5vfSaveCallback m image nextRequired) := by
  by_cases ho : m.outstanding = 0
  · rwa [mlx5vfSaveCallback, if_pos ho]
  · cases hfw : m.fwNext with
    | false => exact h.callback_plain ho hfw image nextRequired
    | true => exact h.callback_chunk ho hfw image nextRequired


/-- STEP: a save fails; the buffers stay with it until the cleanup. -/
theorem Pipe.failed (h : Pipe m) : Pipe (saveFailed m) := by
  by_cases ho : m.outstanding = 0
  · rwa [saveFailed, if_pos ho]
  rw [saveFailed, if_neg ho]
  have hin : m.outstanding - 1 + (m.cleanups + 1) = m.inFlight := by
    unfold Migf.inFlight
    omega
  have hf : m.inFlight ≠ 0 := by unfold Migf.inFlight; omega
  have hfly : Migf.flying { m with
      outstanding := m.outstanding - 1, cleanups := m.cleanups + 1 } = m.flying := by
    rw [Migf.flying_some hf]
    exact Migf.flying_some (hin.trans_ne hf)
  have hown : Owns [] { m with outstanding := m.outstanding - 1, cleanups := m.cleanups + 1 } :=
    h.owns.congr (fun b => by simp only [Migf.places, hfly]) rfl rfl rfl rfl rfl hin rfl rfl
      fun _ => rfl
  refine { h with
    owns := hown
    save := (congrArg (m.saveComp + ·) hin).trans h.save
    refs := h.refs.trans (congrArg (1 + · + m.works) hin).symm
    one := (congrArg (· + m.works + m.pending) hin).trans_le h.one
    token := fun hn he => (congrArg (· + m.works + m.pending) hin).trans (h.token hn he)
    flag := fun _ => h.flag hf
    plain := fun _ => h.plain hf
    chunk := fun _ => h.chunk hf
    slots := fun hp => (h.slots hp).imp_right fun hs => absurd hs.2 hf
    new := fun hp => absurd (h.new hp).1 hf }

/-- STEP: the cleanup of a failed save puts its buffers back, and the file is in error. -/
theorem Pipe.cleanup (h : Pipe m) (badRes : Bool) : Pipe (mlx5vfMigFileCleanupCb m badRes) := by
  by_cases hc : m.cleanups = 0
  · rwa [mlx5vfMigFileCleanupCb, if_pos hc]
  have hf : m.inFlight ≠ 0 := by unfold Migf.inFlight; omega
  obtain ⟨hw, hn⟩ := h.alone hf
  have hsave := h.save
  have hin : m.cleanups = 1 ∧ m.outstanding = 0 ∧ m.saveComp = 0 := by
    unfold Migf.inFlight at hsave
    omega
  have hflag := h.flag hf
  have hrefs := h.refs
  have hwork := works_none hw
  have hsame : ({ m with cleanups := m.cleanups - 1 } : Migf) =
      { m with outstanding := 0, cleanups := 0 } := by
    rw [hin.1]
    exact congrArg (fun o => ({ m with outstanding := o, cleanups := 0 } : Migf)) hin.2.1
  have hland := h.owns.land hf (o := 0) (c := 0) rfl
  have hput := hland.put.put
  rw [mlx5vfMigFileCleanupCb, if_neg hc, hsame]
  have htag : ∀ c ∈ m.bufList, (mlx5vfPutDataBuffer (mlx5vfPutDataBuffer
      { m with outstanding := 0, cleanups := 0 } m.async.buf) m.async.headerBuf).tag c =
        m.tag c := by
    intro c hcl
    have hne : c ≠ m.async.buf ∧ c ≠ m.async.headerBuf := by
      have hb := (not_in_places hland.nowhere.1).2.2.2.1
      have hx := (not_in_places hland.put.nowhere.1).2.2.2.1
      exact ⟨by rintro rfl; exact hb hcl, by rintro rfl; exact hx hcl⟩
    simp [Migf.tag, mlx5vfPutDataBuffer, Migf.setBuf, hne]
  have hat := @readyAt_congr m (mlx5vfPutDataBuffer (mlx5vfPutDataBuffer
    { m with outstanding := 0, cleanups := 0 } m.async.buf) m.async.headerBuf) rfl htag
  have hready := hput.readyChunks_eq
  rw [hat, hat, ← h.owns.readyChunks_eq] at hready
  refine { h with
    owns := { hput with }
    save := (?_ : m.saveComp + 1 + 0 = 1)
    refs := (?_ : m.filpRefs - 1 = 1 + 0 + m.works)
    ready := h.ready.trans hready.symm
    one := (?_ : 0 + m.works + m.pending ≤ 1)
    token := fun hne he => absurd ?_ he
    flag := fun hne => absurd rfl hne
    plain := fun hne => absurd rfl hne
    chunk := fun hne => absurd rfl hne
    work := fun k hk => absurd (hw k) (Option.isSome_iff_ne_none.1 hk)
    both := fun hne => absurd hn hne
    slots := fun hp => ?_
    new := fun hp => absurd (h.new hp).1 hf }
  · omega
  · unfold Migf.inFlight at hrefs
    omega
  · have := h.one
    omega
  · have hne : m.fwNext = true := hne
    simp [mlx5vfSaveCallbackComplete, mlx5vfPutDataBuffer, Migf.setBuf, hflag, hne]
  · rcases h.slots hp with hs | ⟨-, h0⟩
    · exact .inl hs
    · exact absurd h0 hf

/-- QUIET: nobody is going to start a save. -/
theorem Pipe.quiet (mode : m.chunkMode = true) (owns : Owns [] m) (save : m.saveComp = 1)
    (hf : m.inFlight = 0) (refs : m.filpRefs = 1) (hw : ∀ k, m.saveWork k = none)
    (hn : m.nextRequiredUmemSize = 0) (ready : m.numReadyChunks = m.readyChunks)
    (fw : m.fwNext = true → m.state = .error ∧ m.phase = .stopCopy)
    (slots : m.phase = .preCopy →
      (m.buf 0).isSome = true ∧ (m.buf 1).isSome = true ∨ m.state = .error)
    (new : m.phase = .new → (m.state = .none ∨ m.state = .error) ∧
      (m.buf 0).isSome = true ∧ (m.buf 1).isSome = true) : Pipe m := by
  have hworks := works_none hw
  have hpend : m.pending = 0 := if_pos hn
  exact {
    mode := mode
    owns := owns
    save := by omega
    refs := by omega
    ready := ready
    one := by omega
    idle := fun _ => by omega
    token := fun hfw hne => absurd (fw hfw).1 hne
    phase := fun hfw => (fw hfw).2
    flag := fun hne => absurd hf hne
    plain := fun hne => absurd hf hne
    chunk := fun hne => absurd hf hne
    work := fun k hk => absurd (hw k) (Option.isSome_iff_ne_none.1 hk)
    both := fun hne => absurd hn hne
    slots := fun hp => (slots hp).imp_right fun hs => ⟨hs, hf⟩
    new := fun hp => ⟨hf, new hp⟩ }

/-- FLOWN: a save has just gone out. -/
theorem Pipe.flown (mode : m.chunkMode = true) (owns : Owns [] m) (save : m.saveComp = 0)
    (hf : m.inFlight = 1) (refs : m.filpRefs = 2) (hw : ∀ k, m.saveWork k = none)
    (hn : m.nextRequiredUmemSize = 0) (ready : m.numReadyChunks = m.readyChunks)
    (flag : m.async.stopCopyChunk = m.fwNext)
    (plain : m.fwNext = false → (m.heap m.async.buf).stopCopyChunkNum = 0)
    (chunk : m.fwNext = true → m.phase = .stopCopy ∧
      ∃ k < 2, m.tag m.async.buf = (false, k + 1) ∧ m.Has (1 - k))
    (slots : m.phase = .preCopy → (m.buf 0).isSome = true ∧ (m.buf 1).isSome = true)
    (new : m.phase ≠ .new) : Pipe m := by
  have hworks := works_none hw
  have hpend : m.pending = 0 := if_pos hn
  exact {
    mode := mode
    owns := owns
    save := by omega
    refs := by omega
    ready := ready
    one := by omega
    idle := fun _ => by omega
    token := fun _ _ => by omega
    phase := fun hfw => (chunk hfw).1
    flag := fun _ => flag
    plain := fun _ => plain
    chunk := fun _ hfw => (chunk hfw).2
    work := fun k hk => absurd (hw k) (Option.isSome_iff_ne_none.1 hk)
    both := fun hne => absurd hn hne
    slots := fun hp => .inl (slots hp)
    new := fun hp => absurd hp new }

theorem tag_of_heap (hheap : m'.heap b = m.heap b) : m'.tag b = m.tag b := by
  rw [Migf.tag, hheap]
  rfl

theorem readyAt_of_heap (hlist : m'.bufList = m.bufList)
    (hheap : ∀ c ∈ m.bufList, m'.heap c = m.heap c) (k : ℕ) : m'.readyAt k = m.readyAt k :=
  readyAt_congr hlist (fun c hc => tag_of_heap (hheap c hc)) k

theorem readyChunks_of_heap (h : Owns hand m) {hand' : List ℕ} (h' : Owns hand' m')
    (hlist : m'.bufList = m.bufList) (hheap : ∀ c ∈ m.bufList, m'.heap c = m.heap c) :
    m'.readyChunks = m.readyChunks := by
  rw [h'.readyChunks_eq, h.readyChunks_eq, readyAt_of_heap hlist hheap, readyAt_of_heap hlist hheap]

/-- With a work queued nothing else is going on. -/
theorem Pipe.work_alone (h : Pipe m) (hk : (m.saveWork k).isSome = true) :
    (∀ j, update m.saveWork k none j = none) ∧ m.inFlight = 0 ∧
      m.nextRequiredUmemSize = 0 ∧ m.fwNext = true ∧ m.works = 1 := by
  obtain ⟨hk2, -⟩ := h.work k hk
  have hone := h.one
  have hworks : (m.saveWork k).isSome.toNat + (m.saveWork (1 - k)).isSome.toNat = m.works := by
    obtain rfl | rfl : k = 0 ∨ k = 1 := by omega
    · rfl
    · exact Nat.add_comm _ _
  rw [hk, Bool.toNat_true] at hworks
  have hfw : m.fwNext = true := by
    by_contra hne
    have := h.idle (by simpa using hne)
    omega
  have hpend : m.nextRequiredUmemSize = 0 := by
    by_contra hne
    rw [Migf.pending, if_neg hne] at hone
    omega
  refine ⟨fun j => ?_, by omega, hpend, hfw, by omega⟩
  rcases eq_or_ne j k with rfl | hne
  · exact update_self ..
  · rw [update_of_ne hne]
    by_contra hj
    have hj : (m.saveWork j).isSome = true := Option.ne_none_iff_isSome.1 hj
    obtain ⟨hj2, -⟩ := h.work j hj
    obtain rfl : j = 1 - k := by omega
    rw [hj, Bool.toNat_true] at hworks
    omega

/-- What the work and `mlx5vf_pci_save_device_inc_data` do alike: they save into the buffer of a
    slot. -/
def saveNext (m : Migf) (index length : ℕ) (alloc : Option Alloc) (env : SaveEnv) : Migf × Bool :=
  match mlx5vfMigFileGetStopCopyBuf m index length alloc with
  | (m, none) => (mlx5vfMarkErr m, false)
  | (m, some b) =>
    match mlx5vfCmdSaveVhcaState m b true false env with
    | (m, true) => (m, true)
    | (m, false) => (mlx5vfMarkErr (mlx5vfPutDataBuffer m b), false)

/-- What comes of it. -/
inductive NextResult (index : ℕ) (m : Migf) : Migf × Bool → Prop
  | issued (heap : ℕ → Buf) (live : ℕ → Bool) (fresh : ℕ) (header : ℕ → Option ℕ)
      (avail : List ℕ) (b x : ℕ) (hlist : ∀ c ∈ m.bufList, heap c = m.heap c)
      (htag : (heap b).dmaNone = false ∧ (heap b).stopCopyChunkNum = m.slotChunk index)
      (hown : Owns [] { m with
        heap := heap, live := live, fresh := fresh, bufHeader := header, availList := avail
        buf := update m.buf index none, saveComp := 0, state := .saveStopCopyChunk
        async := ⟨b, x, true⟩, outstanding := m.outstanding + 1, filpRefs := m.filpRefs + 1 }) :
      NextResult index m ({ m with
        heap := heap, live := live, fresh := fresh, bufHeader := header, availList := avail
        buf := update m.buf index none, saveComp := 0, state := .saveStopCopyChunk
        async := ⟨b, x, true⟩, outstanding := m.outstanding + 1
        filpRefs := m.filpRefs + 1 }, true)
  | failed (heap : ℕ → Buf) (live : ℕ → Bool) (fresh : ℕ) (header : ℕ → Option ℕ)
      (avail : List ℕ) (hlist : ∀ c ∈ m.bufList, heap c = m.heap c)
      (hown : Owns [] { m with
        heap := heap, live := live, fresh := fresh, bufHeader := header, availList := avail
        buf := update m.buf index none, state := .error }) :
      NextResult index m ({ m with
        heap := heap, live := live, fresh := fresh, bufHeader := header, availList := avail
        buf := update m.buf index none, state := .error }, false)

theorem saveNext_spec (h : Owns [] m) {index : ℕ} (length : ℕ) (alloc : Option Alloc)
    (env : SaveEnv) (hslot : (m.buf index).isSome = true) (hf : m.inFlight = 0)
    (hsave : m.saveComp = 1) : NextResult index m (saveNext m index length alloc env) := by
  obtain ⟨hown, heq, hheap, htag⟩ := mlx5vfMigFileGetStopCopyBuf_spec h length alloc hslot
  unfold saveNext
  generalize mlx5vfMigFileGetStopCopyBuf m index length alloc = g at hown heq hheap htag ⊢
  obtain ⟨g, o⟩ := g
  obtain ⟨heap, live, fresh, avail, rfl⟩ : ∃ heap live fresh avail, g = { m with
      buf := update m.buf index none
      heap := heap, live := live, fresh := fresh, availList := avail } := ⟨_, _, _, _, heq⟩
  cases o with
  | none => exact .failed heap live fresh m.bufHeader avail hheap { hown with }
  | some b =>
    have htagb := htag b rfl
    have hdma : (heap b).dmaNone = false := congrArg fst htagb
    have hres := mlx5vfCmdSaveVhcaState_spec hown hdma hf hsave true false env
    have hstop : ∀ s, stopCopyChunk s true false = true := by simp [stopCopyChunk]
    rw [hstop] at hres
    dsimp only
    generalize mlx5vfCmdSaveVhcaState _ b true false env = r at hres ⊢
    cases hres with
    | issued heap' live' fresh' header avail' x hlist hb hsent =>
      refine .issued heap' live' fresh' header avail' b x
        (fun c hc => (hlist c hc).trans (hheap c hc)) ⟨?_, ?_⟩ hsent
      · exact (congrArg Buf.dmaNone hb).trans hdma
      · exact (congrArg Buf.stopCopyChunkNum hb).trans (congrArg snd htagb)
    | failed heap' live' fresh' header avail' state hlist hb hkept =>
      have hput := hkept.put
      refine .failed _ live' fresh' header _ (fun c hc => ?_) { hput with }
      have hne : c ≠ b := by
        rintro rfl
        exact (not_in_places hkept.nowhere.1).2.2.2.1 hc
      exact (update_of_ne hne _ _).trans ((hlist c hc).trans (hheap c hc))

theorem mlx5vfMigFileSaveWork_eq {index required : ℕ} (hs : m.saveWork index = some required)
    (alloc : Option Alloc) (env : SaveEnv) : mlx5vfMigFileSaveWork m index alloc env =
      if m.state = .error then
        { m with
          saveWork := update m.saveWork index none
          filpRefs := m.filpRefs - 1 }
      else
        let r := saveNext { m with saveWork := update m.saveWork index none } index
          required alloc env
        { r.1 with filpRefs := r.1.filpRefs - 1 } := by
  simp only [mlx5vfMigFileSaveWork, hs, saveNext]
  split_ifs
  · rfl
  · generalize mlx5vfMigFileGetStopCopyBuf _ index required alloc = g
    obtain ⟨g, _ | b⟩ := g
    · rfl
    · dsimp only
      generalize mlx5vfCmdSaveVhcaState g b true false env = r
      obtain ⟨r, _ | _⟩ := r <;> rfl

/-- STEP: the save work finds the buffer of its slot, and saves the chunk into it. -/
theorem Pipe.saveWork (h : Pipe m) (index : ℕ) (alloc : Option Alloc) (env : SaveEnv) :
    Pipe (mlx5vfMigFileSaveWork m index alloc env) := by
  cases hs : m.saveWork index with
  | none => rwa [mlx5vfMigFileSaveWork, hs]
  | some required =>
    have hsome : (m.saveWork index).isSome = true := by rw [hs]; rfl
    obtain ⟨hk, hslot, hother⟩ := h.work index hsome
    obtain ⟨hw, hf, hn, hfw, hone⟩ := h.work_alone hsome
    have hphase := h.phase hfw
    have hphase' : ¬ (m.phase = .new ∨ m.phase = .preCopy) := by simp [hphase]
    have hsave : m.saveComp = 1 := by
      have := h.save
      omega
    have hrefs : m.filpRefs = 2 := by
      have := h.refs
      omega
    have hown : Owns [] { m with saveWork := update m.saveWork index none } :=
      { h.owns with }
    have hnext := saveNext_spec hown required alloc env hslot hf hsave
    rw [mlx5vfMigFileSaveWork_eq hs]
    split_ifs with he
    · refine Pipe.quiet h.mode { hown with } hsave hf ?_ hw hn h.ready (fun _ => ⟨he, hphase⟩)
        (fun hp => absurd (.inr hp) hphase') (fun hp => absurd (.inl hp) hphase')
      exact congrArg (· - 1) hrefs
    · generalize saveNext _ index required alloc env = r at hnext ⊢
      cases hnext with
      | issued heap live fresh header avail b x hlist htag hsent =>
        have hready := readyChunks_of_heap h.owns hsent rfl hlist
        have hout : m.outstanding + 1 + m.cleanups = 1 := by
          unfold Migf.inFlight at hf
          omega
        refine Pipe.flown h.mode { hsent with } rfl hout
          (congrArg (· + 1 - 1) hrefs) hw hn (h.ready.trans hready.symm) hfw.symm
          (fun hne => absurd (hfw.symm.trans hne) (by decide))
          (fun _ => ⟨hphase, index, hk, ext htag.1 (htag.2.trans ?_), ?_⟩)
          (fun hp => absurd (.inr hp) hphase') (fun hp => absurd (.inl hp) hphase')
        · exact if_pos h.mode
        · rcases hother with hslot | hat
          · left
            change (update m.buf index none (1 - index)).isSome = true
            rwa [update_of_ne (by omega)]
          · right
            refine hat.trans_eq (Eq.symm (readyAt_of_heap ?_ ?_ _))
            · rfl
            · exact hlist
      | failed heap live fresh header avail hlist hkept =>
        have hready := readyChunks_of_heap h.owns hkept rfl hlist
        exact Pipe.quiet h.mode { hkept with } hsave hf (congrArg (· - 1) hrefs) hw hn
          (h.ready.trans hready.symm) (fun _ => ⟨rfl, hphase⟩) (fun hp => absurd (.inr hp) hphase')
          (fun hp => absurd (.inl hp) hphase')

/-- IDLE: no save is active, none is going to be, and firmware has no chunk. -/
structure Idle (hand : List ℕ) (m : Migf) : Prop where
  mode : m.chunkMode = true
  owns : Owns hand m
  save : m.saveComp = 1
  flight : m.inFlight = 0
  refs : m.filpRefs = 1
  work : ∀ k, m.saveWork k = none
  next : m.nextRequiredUmemSize = 0
  ready : m.numReadyChunks = m.readyChunks
  fw : m.fwNext = false

theorem Pipe.idle_of (h : Pipe m) (hfw : m.fwNext = false) (hsave : m.saveComp ≠ 0) :
    Idle [] m := by
  have hs := h.save
  have hr := h.refs
  have hi := h.idle hfw
  have hf : m.inFlight = 0 := by omega
  refine ⟨h.mode, h.owns, by omega, hf, by omega, fun k => ?_, ?_, h.ready, hfw⟩
  · by_contra hne
    have := h.work_alone (Option.isSome_iff_ne_none.2 hne)
    rw [hfw] at this
    exact absurd this.2.2.2.1 (by decide)
  · by_contra hne
    rw [Migf.pending, if_neg hne] at hi
    omega

theorem Idle.pipe (h : Idle [] m)
    (slots : m.phase = .preCopy →
      (m.buf 0).isSome = true ∧ (m.buf 1).isSome = true ∨ m.state = .error)
    (new : m.phase = .new → (m.state = .none ∨ m.state = .error) ∧
      (m.buf 0).isSome = true ∧ (m.buf 1).isSome = true) : Pipe m :=
  Pipe.quiet h.mode h.owns h.save h.flight h.refs h.work h.next h.ready
    (fun hne => absurd (h.fw.symm.trans hne) (by decide)) slots new

/-- SENT: a save of the buffer in hand, of a chunk or not. -/
theorem Idle.sent (h : Idle [b] m) {chunk : Bool} (hres : SaveResult [] b chunk m (m', true))
    {ph : Phase} (hph : ph ≠ .new) (hphc : chunk = true → ph = .stopCopy ∧ ∃ k < 2,
      m.tag b = (false, k + 1) ∧ (m.buf (1 - k)).isSome = true)
    (hplain : chunk = false → (m.heap b).stopCopyChunkNum = 0)
    (hslots : ph = .preCopy → (m.buf 0).isSome = true ∧ (m.buf 1).isSome = true) :
    Pipe { m' with phase := ph, fwNext := chunk } := by
  cases hres with
  | issued heap live fresh header avail x hlist hb hsent =>
    have hready := readyChunks_of_heap h.owns hsent rfl hlist
    have hout : m.outstanding + 1 + m.cleanups = 1 := by
      have := h.flight
      unfold Migf.inFlight at this
      omega
    refine Pipe.flown h.mode { hsent with } rfl hout (congrArg (· + 1) h.refs) h.work h.next
      (h.ready.trans hready.symm) rfl (fun hc => ?_) (fun hc => ?_) hslots hph
    · exact (congrArg Buf.stopCopyChunkNum hb).trans (hplain hc)
    · obtain ⟨hp, k, hk, ht, hs⟩ := hphc hc
      exact ⟨hp, k, hk, (tag_of_heap hb).trans ht, .inl hs⟩

/-- KEPT: a save that was not issued leaves the buffer in hand. -/
theorem Idle.kept (h : Idle [b] m) {chunk : Bool} (hres : SaveResult [] b chunk m (m', false)) :
    Idle [b] m' ∧ m'.buf = m.buf ∧ m'.phase = m.phase := by
  cases hres with
  | failed heap live fresh header avail state hlist hb hkept =>
    have hready := readyChunks_of_heap h.owns hkept rfl hlist
    exact ⟨{ h with owns := hkept, ready := h.ready.trans hready.symm }, rfl, rfl⟩

theorem Idle.put (h : Idle (b :: hand) m) : Idle hand (mlx5vfPutDataBuffer m b) := by
  have hput := h.owns.put
  have hready := readyChunks_of_heap h.owns hput rfl fun c hc => ?_
  · exact { h with owns := hput, ready := h.ready.trans hready.symm }
  · refine update_of_ne ?_ _ _
    rintro rfl
    exact (not_in_places h.owns.nowhere.1).2.2.2.1 hc

theorem Idle.free (h : Idle (b :: hand) m) : Idle hand (mlx5vfFreeDataBuffer m b) :=
  { h with
    owns := h.owns.free
    ready := h.ready.trans (readyChunks_of_heap h.owns h.owns.free rfl fun _ _ => rfl).symm }

theorem Idle.get (h : Idle hand m) (length : ℕ) (dmaNone : Bool) (alloc : Option Alloc) :
    Idle ((mlx5vfGetDataBuffer m length dmaNone alloc).2.toList ++ hand)
        (mlx5vfGetDataBuffer m length dmaNone alloc).1 ∧
      Keeps m (mlx5vfGetDataBuffer m length dmaNone alloc).1 := by
  obtain ⟨hown, hkeep, -⟩ := mlx5vfGetDataBuffer_spec h.owns length dmaNone alloc
  have hready := readyChunks_of_heap h.owns hown (by rw [hkeep.eq])
    fun c hc => hkeep.heap c (h.owns.live_of_list hc)
  rw [hkeep.eq] at hready hown ⊢
  exact ⟨{ h with owns := hown, ready := h.ready.trans hready.symm }, ⟨rfl, hkeep.heap, hkeep.new⟩⟩

theorem Idle.alloc (h : Idle hand m) (length : ℕ) (dmaNone : Bool) (al : Alloc) :
    Idle (m.fresh :: hand) (mlx5vfAllocDataBuffer m length dmaNone (some al)).1 := by
  have hown := h.owns.alloc length dmaNone al
  have hready := readyChunks_of_heap h.owns hown rfl fun c hc => ?_
  · exact { h with owns := hown, ready := h.ready.trans hready.symm }
  · have := h.owns.fresh c (h.owns.live_of_list hc)
    exact update_of_ne (by omega) _ _

/-- STEP: the ioctl saves an increment. -/
theorem Pipe.ioctl (h : Pipe m) (incLength : ℕ) (alloc : Option Alloc) (env : SaveEnv) :
    Pipe (mlx5vfPrecopyIoctl m incLength alloc env) := by
  unfold mlx5vfPrecopyIoctl
  split_ifs with hgo hnothing
  · exact h
  · exact h
  simp only [not_or, not_not] at hgo
  obtain ⟨hphase, hsave, herr⟩ := hgo
  have hfw : m.fwNext = false := by
    by_contra hne
    have := h.phase (by simpa using hne)
    rw [hphase] at this
    exact absurd this (by decide)
  have hslots := (h.slots hphase).resolve_right fun hr => herr hr.1
  obtain ⟨hidle, hkeep⟩ := (h.idle_of hfw hsave).get incLength false alloc
  have htag := (mlx5vfGetDataBuffer_spec h.owns incLength false alloc).2.2
  generalize mlx5vfGetDataBuffer m incLength false alloc = g at hidle hkeep htag ⊢
  obtain ⟨g, o⟩ := g
  simp only at hidle hkeep htag ⊢
  have hbuf : g.buf = m.buf := by rw [hkeep.eq]
  have hph : g.phase = .preCopy := by rw [hkeep.eq]; exact hphase
  rw [← hbuf] at hslots
  cases o with
  | none => exact (hidle.pipe (fun _ => .inl hslots) fun hp => by simp [hph] at hp).markErr
  | some b =>
    have htagb := htag b rfl
    have hres := mlx5vfCmdSaveVhcaState_spec hidle.owns (congrArg fst htagb) hidle.flight
      hidle.save true true env
    have hstop : ∀ s, stopCopyChunk s true true = false := by simp [stopCopyChunk]
    rw [hstop] at hres
    dsimp only
    generalize mlx5vfCmdSaveVhcaState g b true true env = r at hres ⊢
    obtain ⟨r, _ | _⟩ := r
    · obtain ⟨hkept, hb, hp⟩ := hidle.kept hres
      rw [← hb] at hslots
      have hput : Idle [] (mlx5vfPutDataBuffer (mlx5vfMarkErr r) b) :=
        Idle.put { hkept with owns := { hkept.owns with } }
      exact hput.pipe (fun _ => .inl hslots) fun _ => ⟨.inr rfl, hslots⟩
    · have hsent : Pipe { r with phase := .preCopy, fwNext := false } :=
        hidle.sent hres (by decide) (fun hc => absurd hc (by decide))
          (fun _ => congrArg snd htagb) fun _ => hslots
      have hr : ({ r with phase := .preCopy, fwNext := false } : Migf) = r := by
        have h₁ : r.phase = .preCopy := by cases hres; exact hph
        have h₂ : r.fwNext = false := by cases hres; exact hidle.fw
        rw [← h₁, ← h₂]
      rw [← hr]
      exact hsent

theorem mlx5vfPciSaveDeviceIncData_eq
    (hgo : ¬ (m.phase ≠ .preCopy ∨ m.saveComp = 0 ∨ m.state = .error)) (length : ℕ)
    (alloc : Option Alloc) (env : SaveEnv) :
    mlx5vfPciSaveDeviceIncData m (some length) alloc env = match saveNext m 0 length alloc env with
      | (m, true) => { m with phase := .stopCopy, fwNext := true }
      | (m, false) => m := by
  simp only [mlx5vfPciSaveDeviceIncData, if_neg hgo, saveNext]
  generalize mlx5vfMigFileGetStopCopyBuf m 0 length alloc = g
  obtain ⟨g, _ | b⟩ := g
  · rfl
  · dsimp only
    generalize mlx5vfCmdSaveVhcaState g b true false env = r
    obtain ⟨r, _ | _⟩ := r <;> rfl

section
variable (h : Pipe m)
include h

/-- STEP: the stop-copy save, after pre-copy. -/
theorem Pipe.incData (query : Option ℕ) (alloc : Option Alloc) (env : SaveEnv) :
    Pipe (mlx5vfPciSaveDeviceIncData m query alloc env) := by
  by_cases hgo : m.phase ≠ .preCopy ∨ m.saveComp = 0 ∨ m.state = .error
  · simpa only [mlx5vfPciSaveDeviceIncData, if_pos hgo] using h
  cases query with
  | none =>
    simpa only [mlx5vfPciSaveDeviceIncData, if_neg hgo] using h.markErr
  | some length =>
    rw [mlx5vfPciSaveDeviceIncData_eq hgo]
    simp only [not_or, not_not] at hgo
    obtain ⟨hphase, hsave, herr⟩ := hgo
    have hfw : m.fwNext = false := by
      by_contra hne
      have := h.phase (by simpa using hne)
      rw [hphase] at this
      exact absurd this (by decide)
    have hslots := (h.slots hphase).resolve_right fun hr => herr hr.1
    have hidle := h.idle_of hfw hsave
    have hnext := saveNext_spec h.owns length alloc env hslots.1 hidle.flight hidle.save
    generalize saveNext m 0 length alloc env = r at hnext ⊢
    cases hnext with
    | issued heap live fresh header avail b x hlist htag hsent =>
      have hready := readyChunks_of_heap h.owns hsent rfl hlist
      have hout : m.outstanding + 1 + m.cleanups = 1 := by
        have := hidle.flight
        unfold Migf.inFlight at this
        omega
      rw [Migf.slotChunk, if_pos h.mode] at htag
      refine Pipe.flown h.mode { hsent with } rfl hout (congrArg (· + 1) hidle.refs) hidle.work
        hidle.next (h.ready.trans hready.symm) rfl (fun hc => absurd hc.symm Bool.false_ne_true)
        (fun _ => ⟨rfl, 0, by decide, ext htag.1 htag.2, .inl ?_⟩)
        (fun hc => absurd hc (show Phase.stopCopy ≠ Phase.preCopy by decide))
        (show Phase.stopCopy ≠ Phase.new by decide)
      exact hslots.2
    | failed heap live fresh header avail hlist hkept =>
      have hready := readyChunks_of_heap h.owns hkept rfl hlist
      exact Pipe.quiet h.mode hkept hidle.save hidle.flight hidle.refs hidle.work hidle.next
        (h.ready.trans hready.symm) (fun hne => absurd (hfw.symm.trans hne) (by decide))
        (fun _ => .inr rfl) (fun hp => absurd (hphase.symm.trans hp) (by decide))

/-- STEP: the first save. -/
theorem Pipe.saveDeviceData (track : Bool) (alloc : Option Alloc) (env : SaveEnv) :
    Pipe (SaveFile.saveDeviceData m track alloc env) := by
  by_cases hnew : m.phase ≠ .new
  · rwa [SaveFile.saveDeviceData, if_pos hnew]
  have hgo := hnew
  simp only [not_not] at hnew
  obtain ⟨hf, hst, hslots⟩ := h.new hnew
  have hfw : m.fwNext = false := by
    by_contra hne
    have := h.phase (by simpa using hne)
    rw [hnew] at this
    exact absurd this (by decide)
  have hsave : m.saveComp ≠ 0 := by
    have := h.save
    omega
  have hidle := h.idle_of hfw hsave
  have hst' : m.state ≠ .preCopy ∧ m.state ≠ .preCopyError := by
    rcases hst with hs | hs <;> simp [hs]
  have hdead : ∀ g : Migf, Idle [] g → Pipe { g with phase := .dead } := fun g hg =>
    Idle.pipe { hg with owns := { hg.owns with } }
      (fun hp => absurd hp (show Phase.dead ≠ Phase.preCopy by decide))
      fun hp => absurd hp (show Phase.dead ≠ Phase.new by decide)
  have hlast : ∀ (g : Migf) (b : ℕ) (chunk : Bool), Idle [b] g →
      SaveResult [] b chunk g (mlx5vfCmdSaveVhcaState g b false (!chunk) env) →
      ∀ ph : Phase, ph ≠ .new → (chunk = true → ph = .stopCopy ∧ ∃ k < 2, g.tag b = (false, k + 1) ∧
        (g.buf (1 - k)).isSome = true) → (chunk = false → (g.heap b).stopCopyChunkNum = 0) →
      (ph = .preCopy → (g.buf 0).isSome = true ∧ (g.buf 1).isSome = true) →
      Pipe (match mlx5vfCmdSaveVhcaState g b false (!chunk) env with
        | (m, true) => { m with phase := ph, fwNext := chunk }
        | (m, false) => { mlx5vfFreeDataBuffer m b with phase := .dead }) := by
    intro g b chunk hg hres ph hph hphc hplain hs
    generalize mlx5vfCmdSaveVhcaState g b false (!chunk) env = r at hres ⊢
    obtain ⟨r, _ | _⟩ := r
    · exact hdead _ (hg.kept hres).1.free
    · exact hg.sent hres hph hphc hplain hs
  cases track with
  | true =>
    simp only [SaveFile.saveDeviceData, if_neg hgo]
    cases alloc with
    | none => exact hdead m hidle
    | some al =>
      have hbuf := hidle.alloc ((m.buf 0).elim 0 fun b => (m.heap b).allocatedLength) false al
      have hdma : ((mlx5vfAllocDataBuffer m ((m.buf 0).elim 0 fun b => (m.heap b).allocatedLength)
          false (some al)).1.heap m.fresh).dmaNone = false ∧
          ((mlx5vfAllocDataBuffer m ((m.buf 0).elim 0 fun b => (m.heap b).allocatedLength)
          false (some al)).1.heap m.fresh).stopCopyChunkNum = 0 := by
        simp [mlx5vfAllocDataBuffer, newBuf]
      have hres := mlx5vfCmdSaveVhcaState_spec hbuf.owns hdma.1 hbuf.flight hbuf.save false true env
      exact hlast _ m.fresh false hbuf hres .preCopy (by decide) (fun hc => absurd hc (by decide))
        (fun _ => hdma.2)
        fun _ => hslots
  | false =>
    simp only [SaveFile.saveDeviceData, if_neg hgo]
    obtain ⟨b, hb⟩ := Option.isSome_iff_exists.1 hslots.1
    obtain ⟨-, htag⟩ := h.owns.slots 0 b hb
    rw [Migf.slotChunk, if_pos h.mode] at htag
    have hbuf : Idle [b] { m with buf := update m.buf 0 none } :=
      { hidle with
        owns := h.owns.takeSlot (k := false) hb
        ready := h.ready.trans
          (readyChunks_of_heap h.owns (h.owns.takeSlot (k := false) hb) rfl fun _ _ => rfl).symm }
    have hres := mlx5vfCmdSaveVhcaState_spec hbuf.owns (congrArg fst htag) hbuf.flight
      hbuf.save false false env
    have hstop : stopCopyChunk m.state false false = true := by
      simp [stopCopyChunk, hst']
    rw [hstop] at hres
    rw [hb]
    refine hlast _ b true hbuf hres .stopCopy (by decide) (fun _ => ⟨rfl, 0, by decide, htag, ?_⟩)
      (fun hc => absurd hc (by decide)) fun hc => absurd hc (by decide)
    exact hslots.2

/-- A buffer that is not a chunk's leaves the list: the pipeline does not see it. -/
theorem Pipe.unlisted (hb : b ∈ m.bufList) (hplain : ∀ k, m.tag b ≠ (false, k + 1))
    (header : ℕ → Option ℕ) (avail : List ℕ) (hown : Owns [] { m with
      bufList := m.bufList.erase b, bufHeader := header, availList := avail }) :
    Pipe { m with bufList := m.bufList.erase b, bufHeader := header, availList := avail } := by
  have hat : ∀ k, Migf.readyAt { m with
      bufList := m.bufList.erase b, bufHeader := header, availList := avail } k = m.readyAt k := by
    intro k
    have := readyAt_erase hb k
    rwa [if_neg (hplain k), Nat.add_zero] at this
  refine { h with
    owns := hown
    ready := ?_
    chunk := fun hf hn => ?_
    work := fun k hk => ?_
    both := fun hn => ?_ }
  · rw [hown.readyChunks_eq, hat, hat, ← h.owns.readyChunks_eq]
    exact h.ready
  · obtain ⟨k, hk, ht, hh⟩ := h.chunk hf hn
    refine ⟨k, hk, ht, hh.imp_right fun hr => ?_⟩
    rwa [hat]
  · obtain ⟨hk2, hs, hh⟩ := h.work k hk
    refine ⟨hk2, hs, hh.imp_right fun hr => ?_⟩
    rwa [hat]
  · rw [hat, hat]
    exact h.both hn

/-- The data buffer of a chunk goes from the list to its slot; the other chunk stays where it is. -/
theorem Pipe.unlist_chunk (hb : b ∈ m.bufList) (htag : m.tag b = (false, k + 1)) :
    Owns [] { m with buf := update m.buf k (some b), bufList := m.bufList.erase b } ∧
      k < 2 ∧ m.readyAt k = 1 ∧ (∀ j, j ≠ k → Migf.readyAt
        { m with buf := update m.buf k (some b), bufList := m.bufList.erase b } j = m.readyAt j) ∧
      Migf.readyChunks
        { m with buf := update m.buf k (some b), bufList := m.bufList.erase b } + 1 =
          m.readyChunks := by
  have hown : Owns []
      { m with buf := update m.buf k (some b), bufList := m.bufList.erase b } :=
    (h.owns.unlist hb).storeSlot (k := false) htag
  have hk : k < 2 := (Owns.mode_of_chunk h.owns (h.owns.live_of_list hb) (congrArg snd htag)).2
  have hat := readyAt_erase hb k
  rw [if_pos htag] at hat
  have hle := h.owns.readyAt_le k
  have hj : ∀ j, j ≠ k → Migf.readyAt
      { m with buf := update m.buf k (some b), bufList := m.bufList.erase b } j = m.readyAt j := by
    intro j hne
    have := readyAt_erase hb j
    rwa [if_neg, Nat.add_zero] at this
    rw [htag]
    simp only [Prod.mk.injEq]
    omega
  have hself : Migf.readyAt
      { m with buf := update m.buf k (some b), bufList := m.bufList.erase b } k + 1 =
        m.readyAt k := hat
  refine ⟨hown, hk, by omega, hj, ?_⟩
  rw [hown.readyChunks_eq, h.owns.readyChunks_eq]
  obtain rfl | rfl : k = 0 ∨ k = 1 := by omega
  · have := hj 1 (by decide)
    omega
  · have := hj 0 (by decide)
    omega

/-- STEP: a buffer of `buf_list` is read to its end. -/
theorem Pipe.readDone (hb : b ∈ m.bufList) : Pipe (mlx5vfBufReadDone m b) := by
  have hun := h.owns.unlist hb
  unfold mlx5vfBufReadDone
  cases hc : (m.heap b).stopCopyChunkNum with
  | zero =>
    rw [if_neg (by simp)]
    refine h.unlisted hb (fun k ht => ?_) m.bufHeader _ (hun.toAvail hc)
    have := congrArg snd ht
    simp only [Migf.tag] at this
    omega
  | succ k =>
    rw [if_pos (by simp)]
    cases hd : (m.heap b).dmaNone with
    | true =>
      refine h.unlisted hb (fun j ht => ?_) _ m.availList (hun.storeSlot (k := true) (ext hd hc))
      have := congrArg fst ht
      simp [Migf.tag, hd] at this
    | false =>
      obtain ⟨hown, hk, hone, hat, hready⟩ := h.unlist_chunk hb (ext hd hc)
      have hhas : ∀ j, m.Has j → Migf.Has
          { m with buf := update m.buf k (some b), bufList := m.bufList.erase b } j := by
        intro j hj
        rcases eq_or_ne j k with rfl | hne
        · left
          simp
        · rcases hj with hs | hr
          · left
            simpa [hne] using hs
          · right
            rwa [hat j hne]
      have hslots : ∀ j, (m.buf j).isSome = true → (update m.buf k (some b) j).isSome = true := by
        intro j hj
        rcases eq_or_ne j k with rfl | hne
        · simp
        · simpa [hne] using hj
      have hnum : m.numReadyChunks - 1 = Migf.readyChunks
          { m with buf := update m.buf k (some b), bufList := m.bufList.erase b } := by
        have := h.ready
        omega
      by_cases hn : m.nextRequiredUmemSize = 0
      · simp only [hn]
        have hpend : m.pending = 0 := if_pos hn
        have hone := h.one
        have hidle := h.idle
        have htoken := h.token
        exact { h with
          owns := { hown with }
          ready := hnum
          one := (by omega : m.inFlight + m.works + 0 ≤ 1)
          idle := fun hfw => (by have := hidle hfw; omega : m.works + 0 = 0)
          token := fun hfw he => (by have := htoken hfw he; omega : m.inFlight + m.works + 0 = 1)
          chunk := fun hf hfw => by
            obtain ⟨j, hj, ht, hh⟩ := h.chunk hf hfw
            exact ⟨j, hj, ht, hhas _ hh⟩
          work := fun j hj => by
            obtain ⟨hj2, hs, hh⟩ := h.work j hj
            exact ⟨hj2, hslots j hs, hhas _ hh⟩
          both := fun hne => absurd rfl hne
          slots := fun hp => (h.slots hp).imp_left fun hs => ⟨hslots 0 hs.1, hslots 1 hs.2⟩
          new := fun hp => by
            obtain ⟨hf, hst, h0, h1⟩ := h.new hp
            exact ⟨hf, hst, hslots 0 h0, hslots 1 h1⟩ }
      · -- the chunk that waited gets the slot that has become free
        simp only [hn, ne_eq, mlx5vfMigFileSetSaveWork]
        have hpend : m.pending = 1 := if_neg hn
        have hone := h.one
        have hfw : m.fwNext = true := by
          by_contra hne
          have := h.idle (by simpa using hne)
          omega
        have hphase := h.phase hfw
        have hw : ∀ j, m.saveWork j = none := by
          intro j
          by_contra hne
          have := (h.work_alone (Option.isSome_iff_ne_none.2 hne)).2.2.1
          exact hn this
        have hwork := works_update hw hk m.nextRequiredUmemSize
        have hf : m.inFlight = 0 := by omega
        have hrefs := h.refs
        refine { h with
          owns := { hown with }
          refs := ?_
          ready := hnum
          one := ?_
          idle := fun hne => absurd (hfw.symm.trans hne) (by decide)
          token := fun _ _ => ?_
          phase := fun _ => hphase
          flag := fun hne => absurd hf hne
          plain := fun hne => absurd hf hne
          chunk := fun hne => absurd hf hne
          work := fun j hj => ?_
          both := fun hne => absurd rfl hne
          slots := fun hp => absurd (hphase.symm.trans hp) (by decide)
          new := fun hp => absurd (hphase.symm.trans hp) (by decide) }
        · exact (by omega : m.filpRefs + 1 = 1 + m.inFlight + 1).trans
            (congrArg (1 + m.inFlight + ·) hwork).symm
        · exact ((congrArg₂ (fun x y => x + y + 0) hf hwork).trans rfl).le
        · exact (congrArg₂ (fun x y => x + y + 0) hf hwork).trans rfl
        · rcases eq_or_ne j k with rfl | hne
          · refine ⟨hk, by simp, .inr ?_⟩
            have hother : 0 < m.readyAt (1 - j) := by
              obtain ⟨h0, h1⟩ := h.both hn
              obtain rfl | rfl : j = 0 ∨ j = 1 := by omega
              · exact h1
              · exact h0
            exact hother.trans_eq (hat (1 - j) (by omega)).symm
          · simp [hne, hw] at hj

theorem Pipe.endRead (ret : ReadRet) : Pipe (SaveFile.endRead m ret) :=
  { h with owns := { h.owns with } }

/-- STEP: a read starts. -/
theorem Pipe.readStart (len : ℕ) (nonblock : Bool) : Pipe (SaveFile.readStart m len nonblock) := by
  unfold SaveFile.readStart
  cases m.reader with
  | some r => exact h
  | none =>
    dsimp only
    split_ifs
    · exact h
    · exact h.endRead _
    · exact { h with owns := { h.owns with } }

/-- STEP: a turn of the read loop. -/
theorem Pipe.readTurn : Pipe (SaveFile.readTurn m) := by
  unfold SaveFile.readTurn
  cases m.reader with
  | none => exact h
  | some r =>
    dsimp only
    split_ifs with hlen
    · exact h.endRead _
    unfold mlx5vfGetDataBuffFromPos
    cases hl : m.bufList with
    | nil =>
      dsimp only
      split_ifs
      · exact h.endRead _
      · exact h.endRead _
      · exact h.endRead _
    | cons b l =>
      dsimp only
      split_ifs with hin
      · dsimp only
        cases hr : mlx5vfBufRead (m.heap b) m.fPos r.len with
        | none => exact h.endRead _
        | some p =>
          obtain ⟨bytes, x⟩ := p
          have hsame := readLoop_same _ _ _ _ _ _ hr
          have hx : x.dmaNone = (m.heap b).dmaNone ∧
              x.stopCopyChunkNum = (m.heap b).stopCopyChunkNum := by
            rw [hsame]
            exact ⟨rfl, rfl⟩
          have hread : Pipe { m with heap := update m.heap b x } := by
            refine h.setHeap _ (fun c => ?_) fun c => ?_
            · rcases eq_or_ne c b with rfl | hne
              · simpa using hx.1
              · simp [hne]
            · rcases eq_or_ne c b with rfl | hne
              · simpa using hx.2
              · simp [hne]
          have hread' : ∀ pos rd, Pipe { m with
              heap := update m.heap b x, fPos := pos, reader := rd } :=
            fun _ _ => { hread with owns := { hread.owns with } }
          dsimp only
          split_ifs
          · refine Pipe.readDone (hread' _ _) ?_
            rw [hl]
            exact List.mem_cons_self ..
          · exact hread' _ _
      · exact h.markErr.endRead _

theorem Pipe.step : ∀ e : Ev, Pipe (SaveFile.step m e)
  | .saveDeviceData track alloc env => h.saveDeviceData track alloc env
  | .ioctl incLength alloc env => h.ioctl incLength alloc env
  | .incData query alloc env => h.incData query alloc env
  | .callback image nextRequired => h.callback image nextRequired
  | .failed => h.failed
  | .cleanup badRes => h.cleanup badRes
  | .work index alloc env => h.saveWork index alloc env
  | .readStart len nonblock => h.readStart len nonblock
  | .readTurn => h.readTurn
  | .markErr => h.markErr

end

/-- RUN: the pipeline holds in every state of every run. -/
theorem pipe_of_reach {m₀ : Migf} (h : Reach step ok m₀ m) (h₀ : Pipe m₀) : Pipe m :=
  h.invariant h₀ fun _ e _ hp => hp.step e

theorem mlx5vfGetDataBuffer_nil (h : m.availList = []) (length : ℕ) (dmaNone : Bool)
    (alloc : Option Alloc) :
    mlx5vfGetDataBuffer m length dmaNone alloc = mlx5vfAllocDataBuffer m length dmaNone alloc := by
  have hm : ({ m with availList := [] } : Migf) = m := by rw [← h]
  simp [mlx5vfGetDataBuffer, h, scanAvail, hm]

/-- A turn of the loop, with nothing in `avail_list`: two new buffers get the slot's chunk. -/
theorem prepChunk_spec (ha : m.availList = []) (hmode : m.chunkMode = true) {size : ℕ}
    {data header : Option Alloc} (h : prepChunk m size i data header = some m') :
    m' = { m with
      heap := m'.heap
      live := update (update m.live m.fresh true) (m.fresh + 1) true
      fresh := m.fresh + 2
      buf := update m.buf i (some m.fresh)
      bufHeader := update m.bufHeader i (some (m.fresh + 1)) } ∧
      m'.tag m.fresh = (false, i + 1) ∧ m'.tag (m.fresh + 1) = (true, i + 1) ∧
      ∀ c < m.fresh, m'.tag c = m.tag c := by
  unfold prepChunk at h
  rw [mlx5vfGetDataBuffer_nil ha] at h
  cases data with
  | none => simp [mlx5vfAllocDataBuffer] at h
  | some data =>
    simp only [mlx5vfAllocDataBuffer] at h
    rw [mlx5vfGetDataBuffer_nil] at h
    case h => exact ha
    cases header with
    | none => simp [mlx5vfAllocDataBuffer] at h
    | some header =>
      simp only [mlx5vfAllocDataBuffer, hmode, if_true, Option.some.injEq] at h
      subst h
      refine ⟨by rw [← hmode]; rfl, ?_, ?_, fun c hc => ?_⟩
      · simp [Migf.tag, Migf.setBuf, newBuf]
      · simp [Migf.tag, Migf.setBuf, newBuf]
      · have h₁ : c ≠ m.fresh := by omega
        have h₂ : c ≠ m.fresh + 1 := by omega
        simp [Migf.tag, Migf.setBuf, h₁, h₂]

/-- Both slots filled, and nothing else: every buffer is where it is for. -/
theorem owns_of_slots (hmode : m.chunkMode = true) (hfresh : m.fresh = 4)
    (hlive : ∀ b, m.live b = decide (b < 4)) (hbuf₀ : m.buf 0 = some 0) (hbuf₁ : m.buf 1 = some 2)
    (hbuf : ∀ i ≥ 2, m.buf i = none) (hhead₀ : m.bufHeader 0 = some 1)
    (hhead₁ : m.bufHeader 1 = some 3) (hhead : ∀ i ≥ 2, m.bufHeader i = none)
    (hlist : m.bufList = []) (havail : m.availList = []) (hf : m.inFlight = 0)
    (h₀ : m.tag 0 = (false, 1)) (h₁ : m.tag 1 = (true, 1)) (h₂ : m.tag 2 = (false, 2))
    (h₃ : m.tag 3 = (true, 2)) : Owns [] m := by
  have hchunk : ∀ i, m.slotChunk i = i + 1 := fun i => by rw [Migf.slotChunk, hmode, if_pos rfl]
  have hcases : ∀ b, m.live b = true → b = 0 ∨ b = 1 ∨ b = 2 ∨ b = 3 := by
    intro b hb
    rw [hlive, decide_eq_true_eq] at hb
    omega
  have hnum : ∀ b, (m.heap b).stopCopyChunkNum = (m.tag b).2 := fun _ => rfl
  refine ⟨fun b => ?_, fun b hb => ?_, fun i b hb => ?_, fun i b hb => ?_, ?_,
    fun hne => absurd hf hne, fun a b ha hb hne ht => ?_, fun b hb => ⟨?_, fun hm => ?_⟩⟩
  · simp only [Migf.places, hbuf₀, hbuf₁, hhead₀, hhead₁, Migf.flying_none hf, hlist, havail,
      inSlot_some, hlive]
    by_cases hb : b < 4
    · obtain rfl | rfl | rfl | rfl : b = 0 ∨ b = 1 ∨ b = 2 ∨ b = 3 := by omega
      all_goals rfl
    · rw [decide_eq_false hb, if_neg, if_neg, if_neg, if_neg]
      · rfl
      all_goals omega
  · rcases hcases b hb with rfl | rfl | rfl | rfl <;> omega
  · rw [hchunk]
    rcases Nat.lt_or_ge i 2 with hi | hi
    · obtain rfl | rfl : i = 0 ∨ i = 1 := by omega
      · obtain rfl := Option.some.inj (hbuf₀.symm.trans hb)
        exact ⟨hi, h₀⟩
      · obtain rfl := Option.some.inj (hbuf₁.symm.trans hb)
        exact ⟨hi, h₂⟩
    · rw [hbuf i hi] at hb
      cases hb
  · rw [hchunk]
    rcases Nat.lt_or_ge i 2 with hi | hi
    · obtain rfl | rfl : i = 0 ∨ i = 1 := by omega
      · obtain rfl := Option.some.inj (hhead₀.symm.trans hb)
        exact ⟨hi, h₁⟩
      · obtain rfl := Option.some.inj (hhead₁.symm.trans hb)
        exact ⟨hi, h₃⟩
    · rw [hhead i hi] at hb
      cases hb
  · rw [havail]
    exact fun b hb => absurd hb List.not_mem_nil
  · exfalso
    rcases hcases a ha with rfl | rfl | rfl | rfl <;>
      rcases hcases b hb with rfl | rfl | rfl | rfl <;> simp [h₀, h₁, h₂, h₃] at ht hne
  · rw [hnum]
    rcases hcases b hb with rfl | rfl | rfl | rfl <;> simp [h₀, h₁, h₂, h₃]
  · rw [hmode] at hm
    exact absurd hm (by decide)

/-- A record that is not a chunk's goes to the list. -/
theorem Idle.enlist (h : Idle (b :: hand) m) (hdma : (m.heap b).dmaNone = true) (l : List ℕ) :
    Idle hand (addRecord m b l) := by
  have hown := h.owns.enlist l
  have htag : ∀ c, (addRecord m b l).tag c = m.tag c := by
    intro c
    rcases eq_or_ne c b with rfl | hne
    · simp [Migf.tag, addRecord, Migf.setBuf]
    · simp [Migf.tag, addRecord, Migf.setBuf, hne]
  have hat : ∀ k, (addRecord m b l).readyAt k = m.readyAt k := by
    intro k
    rw [readyAt_append (m := m) rfl (fun c _ => htag c), htag, if_neg, Nat.add_zero]
    intro ht
    have := congrArg fst ht
    simp [Migf.tag, hdma] at this
  refine { h with owns := hown, ready := h.ready.trans ?_ }
  rw [hown.readyChunks_eq, hat, hat, ← h.owns.readyChunks_eq]

theorem mlx5vfAddStopCopyHeader_spec (h : Idle [] m) (hphase : m.phase = .new)
    (hstate : m.state = .none) (hslots : (m.buf 0).isSome = true ∧ (m.buf 1).isSome = true)
    {track : Bool} {alloc : Option Alloc}
    (hr : mlx5vfAddStopCopyHeader m track alloc = some m') : Pipe m' := by
  unfold mlx5vfAddStopCopyHeader at hr
  obtain ⟨hidle, hkeep⟩ := h.get (HEADER_SIZE + STOP_COPY_DATA_SIZE) true alloc
  have htag := (mlx5vfGetDataBuffer_spec h.owns (HEADER_SIZE + STOP_COPY_DATA_SIZE) true alloc).2.2
  generalize mlx5vfGetDataBuffer m (HEADER_SIZE + STOP_COPY_DATA_SIZE) true alloc = g
    at hidle hkeep htag hr
  obtain ⟨g, _ | b⟩ := g
  · cases hr
  · dsimp only at hidle hkeep htag hr
    have hdma := congrArg fst (htag b rfl)
    have hrec := fun l => Idle.enlist hidle hdma l
    have hbuf : g.buf = m.buf ∧ g.phase = .new ∧ g.state = .none := by
      rw [hkeep.eq]
      exact ⟨rfl, hphase, hstate⟩
    obtain ⟨hbuf, hph, hst⟩ := hbuf
    rw [← hbuf] at hslots
    cases track with
    | true =>
      cases hr
      have := hrec (stopCopyRecord ((g.buf 0).elim 0 fun b => (g.heap b).allocatedLength))
      exact Idle.pipe { this with owns := { this.owns with } }
        (fun hp => absurd (hph.symm.trans hp) (by decide)) fun _ => ⟨.inl hst, hslots⟩
    | false =>
      cases hr
      exact (hrec _).pipe (fun hp => absurd (hph.symm.trans hp) (by decide))
        fun _ => ⟨.inl hst, hslots⟩

/-- START: `mlx5vf_prep_stop_copy` sets the pipeline up. -/
theorem mlx5vfPrepStopCopy_spec {heap : ℕ → Buf} {stateSize fullSize : ℕ} {track : Bool}
    {allocs : ℕ → Option Alloc}
    (h : mlx5vfPrepStopCopy (Migf.empty true heap) stateSize fullSize track allocs = some m) :
    Pipe m := by
  simp only [mlx5vfPrepStopCopy, Option.bind_eq_bind, Option.bind_eq_some_iff] at h
  obtain ⟨m₁, h₁, h⟩ := h
  obtain ⟨heq₁, ht₀, ht₁, -⟩ := prepChunk_spec rfl rfl h₁
  generalize m₁.heap = heap₁ at heq₁
  subst heq₁
  rw [if_pos (show (Migf.empty true heap).chunkMode = true from rfl), Option.bind_eq_some_iff] at h
  obtain ⟨m₂, h₂, h⟩ := h
  obtain ⟨heq₂, ht₂, ht₃, hkeep⟩ := prepChunk_spec rfl rfl h₂
  have ht₀ := (hkeep 0 (show 0 < 2 by decide)).trans ht₀
  have ht₁ := (hkeep 1 (show 1 < 2 by decide)).trans ht₁
  generalize m₂.heap = heap₂ at heq₂
  subst heq₂
  have hlive : ∀ b : ℕ, update (update (update (update
      (fun _ => false) 0 true) 1 true) 2 true) 3 true b = decide (b < 4) := by
    intro b
    by_cases hb : b < 4
    · obtain rfl | rfl | rfl | rfl : b = 0 ∨ b = 1 ∨ b = 2 ∨ b = 3 := by omega
      all_goals rfl
    · rw [decide_eq_false hb]
      simp [show b ≠ 0 by omega, show b ≠ 1 by omega, show b ≠ 2 by omega, show b ≠ 3 by omega]
  have hslot : ∀ (x y : ℕ), ∀ i ≥ 2, update (update
      (fun _ : ℕ => (none : Option ℕ)) 0 (some x)) 1 (some y) i = none := by
    intro x y i hi
    simp [show i ≠ 0 by omega, show i ≠ 1 by omega]
  have hown := owns_of_slots rfl rfl hlive rfl rfl (hslot 0 2) rfl rfl (hslot 1 3) rfl rfl rfl
    ht₀ ht₁ ht₂ ht₃
  exact mlx5vfAddStopCopyHeader_spec
    ⟨rfl, hown, rfl, rfl, rfl, fun _ => rfl, rfl, rfl, rfl⟩ rfl rfl ⟨rfl, rfl⟩ h

/-! ### The end of the data -/

theorem mlx5vfGetDataBuffer_state (m : Migf) (length : ℕ) (dmaNone : Bool) (alloc : Option Alloc) :
    (mlx5vfGetDataBuffer m length dmaNone alloc).1.state = m.state := by
  unfold mlx5vfGetDataBuffer
  generalize scanAvail m.heap length dmaNone m.availList = sc
  obtain ⟨kept, free, found⟩ := sc
  cases found with
  | some b =>
    obtain ⟨live, heq, -⟩ := freeAll_eq free { m with availList := kept }
    dsimp only
    rw [heq]
  | none =>
    cases alloc with
    | none =>
      obtain ⟨live, heq, -⟩ := freeAll_eq free { m with availList := kept }
      dsimp only [mlx5vfAllocDataBuffer]
      rw [heq]
    | some al =>
      obtain ⟨live, heq, -⟩ := freeAll_eq free
        (mlx5vfAllocDataBuffer { m with availList := kept } length dmaNone (some al)).1
      dsimp only [mlx5vfAllocDataBuffer] at heq ⊢
      rw [heq]

theorem saveHeader_state (m : Migf) (chunk : Bool) (idx : ℕ) (alloc : Option Alloc) :
    (saveHeader m chunk idx alloc).1.state = m.state := by
  unfold saveHeader
  cases chunk with
  | true =>
    simp only
    cases m.bufHeader idx with
    | some x => rfl
    | none => exact mlx5vfGetDataBuffer_state ..
  | false => exact mlx5vfGetDataBuffer_state ..

/-- A save leaves the state as it is, or says that a chunk is being saved. -/
theorem mlx5vfCmdSaveVhcaState_state (m : Migf) (b : ℕ) (inc track : Bool) (env : SaveEnv) :
    (mlx5vfCmdSaveVhcaState m b inc track env).1.state = m.state ∨
      (mlx5vfCmdSaveVhcaState m b inc track env).1.state = .saveStopCopyChunk := by
  by_cases hw : env.waits = false ∨ m.saveComp = 0
  · rw [mlx5vfCmdSaveVhcaState, if_pos hw]
    exact .inl rfl
  have hw' := not_or.1 hw
  cases ho : env.out with
  | false =>
    left
    simp only [mlx5vfCmdSaveVhcaState, if_neg hw, ho, if_true]
  | true =>
    rw [mlx5vfCmdSaveVhcaState_eq m b inc track env (by simpa using hw'.1) hw'.2 ho]
    have hs := saveHeader_state { m with saveComp := m.saveComp - 1 }
      (stopCopyChunk m.state inc track) ((m.heap b).stopCopyChunkNum - 1) env.header
    generalize saveHeader _ _ _ env.header = p at hs ⊢
    generalize stopCopyChunk m.state inc track = chunk
    obtain ⟨g, _ | x⟩ := p
    · exact .inl hs
    · cases chunk <;> cases env.exec
      · exact .inl hs
      · exact .inl hs
      · exact .inr rfl
      · exact .inr rfl

theorem mlx5vfMigFileGetStopCopyBuf_state (m : Migf) (index length : ℕ) (alloc : Option Alloc) :
    (mlx5vfMigFileGetStopCopyBuf m index length alloc).1.state = m.state := by
  unfold mlx5vfMigFileGetStopCopyBuf
  cases m.buf index with
  | none => rfl
  | some b =>
    dsimp only
    split_ifs
    · rfl
    · have hs := mlx5vfGetDataBuffer_state (mlx5vfPutDataBuffer
        { m with buf := update m.buf index none } b) length false alloc
      generalize mlx5vfGetDataBuffer _ length false alloc = g at hs ⊢
      obtain ⟨g, _ | x⟩ := g <;> exact hs

theorem saveNext_state (index length : ℕ) (alloc : Option Alloc) (env : SaveEnv)
    (hne : m.state ≠ .complete) : (saveNext m index length alloc env).1.state ≠ .complete := by
  have hs := mlx5vfMigFileGetStopCopyBuf_state m index length alloc
  unfold saveNext
  generalize mlx5vfMigFileGetStopCopyBuf m index length alloc = g at hs ⊢
  obtain ⟨g, _ | b⟩ := g
  · nofun
  · have hc := mlx5vfCmdSaveVhcaState_state g b true false env
    dsimp only at hs ⊢
    generalize mlx5vfCmdSaveVhcaState g b true false env = r at hc ⊢
    obtain ⟨r, _ | _⟩ := r
    · nofun
    · rcases hc with hc | hc
      · rw [hc, hs]
        exact hne
      · rw [hc]
        decide

theorem saveDeviceData_state (track : Bool) (alloc : Option Alloc) (env : SaveEnv)
    (hne : m.state ≠ .complete) : (saveDeviceData m track alloc env).state ≠ .complete := by
  have hsave : ∀ (g : Migf) (b : ℕ), g.state = m.state →
      (mlx5vfCmdSaveVhcaState g b false track env).1.state ≠ .complete := by
    intro g b hg
    rcases mlx5vfCmdSaveVhcaState_state g b false track env with hs | hs
    · rwa [hs, hg]
    · rw [hs]
      decide
  have hmatch : ∀ (g : Migf) (b : ℕ) (ph : Phase) (fw : Bool), g.state = m.state →
      (match mlx5vfCmdSaveVhcaState g b false track env with
        | (m, true) => { m with phase := ph, fwNext := fw }
        | (m, false) => { mlx5vfFreeDataBuffer m b with phase := .dead }).state ≠ .complete := by
    intro g b ph fw hg
    have hs := hsave g b hg
    generalize mlx5vfCmdSaveVhcaState g b false track env = r at hs ⊢
    obtain ⟨r, _ | _⟩ := r <;> exact hs
  unfold saveDeviceData
  split_ifs with hp ht
  · exact hne
  · cases alloc with
    | none => exact hne
    | some al => exact hmatch (mlx5vfAllocDataBuffer m _ false (some al)).1 m.fresh _ _ rfl
  · dsimp only
    cases m.buf 0 with
    | none => exact hne
    | some b => exact hmatch { m with buf := update m.buf 0 none } b _ _ rfl

theorem mlx5vfPrecopyIoctl_state (incLength : ℕ) (alloc : Option Alloc) (env : SaveEnv)
    (hne : m.state ≠ .complete) : (mlx5vfPrecopyIoctl m incLength alloc env).state ≠ .complete := by
  unfold mlx5vfPrecopyIoctl
  split_ifs
  · exact hne
  · exact hne
  have hs := mlx5vfGetDataBuffer_state m incLength false alloc
  generalize mlx5vfGetDataBuffer m incLength false alloc = g at hs ⊢
  obtain ⟨g, _ | b⟩ := g
  · nofun
  · have hc := mlx5vfCmdSaveVhcaState_state g b true true env
    dsimp only at hs ⊢
    generalize mlx5vfCmdSaveVhcaState g b true true env = r at hc ⊢
    obtain ⟨r, _ | _⟩ := r
    · nofun
    · rcases hc with hc | hc
      · rw [hc, hs]
        exact hne
      · rw [hc]
        decide

theorem mlx5vfBufReadDone_state (m : Migf) (b : ℕ) : (mlx5vfBufReadDone m b).state = m.state := by
  unfold mlx5vfBufReadDone
  dsimp only
  split_ifs <;> rfl

theorem readTurn_state (m : Migf) : (readTurn m).state = m.state ∨ (readTurn m).state = .error := by
  unfold readTurn
  cases m.reader with
  | none => exact .inl rfl
  | some r =>
    dsimp only
    split_ifs
    · exact .inl rfl
    unfold mlx5vfGetDataBuffFromPos
    cases m.bufList with
    | nil =>
      dsimp only
      split_ifs <;> exact .inl rfl
    | cons b l =>
      dsimp only
      by_cases hin : (m.heap b).startPos ≤ m.fPos ∧ m.fPos < (m.heap b).startPos + (m.heap b).length
      · rw [if_pos hin]
        dsimp only
        cases mlx5vfBufRead (m.heap b) m.fPos r.len with
        | none => exact .inl rfl
        | some p =>
          left
          dsimp only
          split_ifs
          · exact mlx5vfBufReadDone_state ..
          · rfl
      · rw [if_neg hin]
        exact .inr rfl

/-- COMPLETE: only the callback of the last chunk completes the file, with the chunk at the end of
    `buf_list`. -/
theorem Pipe.complete (h : Pipe m) {e : Ev} (hc : (SaveFile.step m e).state = .complete)
    (hne : m.state ≠ .complete) : m.fwNext = true ∧ m.inFlight = 1 ∧
      (SaveFile.step m e).inFlight = 0 ∧ (SaveFile.step m e).fwNext = false ∧
      (SaveFile.step m e).bufList = m.bufList ++ [m.async.headerBuf, m.async.buf] := by
  have hsame : ∀ {m' : Migf}, m'.state = m.state ∨ m'.state = .error → m'.state ≠ .complete := by
    rintro m' (hs | hs)
    · rwa [hs]
    · rw [hs]
      decide
  cases e with
  | saveDeviceData track alloc env => exact absurd hc (saveDeviceData_state track alloc env hne)
  | ioctl incLength alloc env => exact absurd hc (mlx5vfPrecopyIoctl_state incLength alloc env hne)
  | incData query alloc env =>
    refine absurd hc ?_
    change (mlx5vfPciSaveDeviceIncData m query alloc env).state ≠ .complete
    by_cases hgo : m.phase ≠ .preCopy ∨ m.saveComp = 0 ∨ m.state = .error
    · simpa only [mlx5vfPciSaveDeviceIncData, if_pos hgo] using hne
    · cases query with
      | none => simp [mlx5vfPciSaveDeviceIncData, if_neg hgo, mlx5vfMarkErr]
      | some length =>
        rw [mlx5vfPciSaveDeviceIncData_eq hgo]
        have hs := saveNext_state 0 length alloc env hne
        generalize saveNext m 0 length alloc env = r at hs ⊢
        obtain ⟨r, _ | _⟩ := r <;> exact hs
  | work index alloc env =>
    refine absurd hc ?_
    change (mlx5vfMigFileSaveWork m index alloc env).state ≠ .complete
    cases hs : m.saveWork index with
    | none => simpa only [mlx5vfMigFileSaveWork, hs] using hne
    | some required =>
      rw [mlx5vfMigFileSaveWork_eq hs]
      split_ifs
      · exact hne
      · exact saveNext_state (m := { m with saveWork := update m.saveWork index none })
          index required alloc env hne
  | failed =>
    refine absurd hc (hsame (.inl ?_))
    change (saveFailed m).state = _
    unfold saveFailed
    split_ifs <;> rfl
  | cleanup badRes =>
    refine absurd hc ?_
    change (mlx5vfMigFileCleanupCb m badRes).state ≠ .complete
    unfold mlx5vfMigFileCleanupCb
    split_ifs
    · exact hne
    · simp only [mlx5vfSaveCallbackComplete]
      split_ifs <;> decide
  | readStart len nonblock =>
    refine absurd hc (hsame (.inl ?_))
    change (SaveFile.readStart m len nonblock).state = _
    unfold SaveFile.readStart
    cases m.reader with
    | some r => rfl
    | none =>
      split_ifs <;> rfl
  | readTurn => exact absurd hc (hsame (readTurn_state m))
  | markErr => exact absurd hc (hsame (.inr rfl))
  | callback image nextRequired =>
    change (mlx5vfSaveCallback m image nextRequired).state = _ at hc
    by_cases ho : m.outstanding = 0
    · rw [mlx5vfSaveCallback, if_pos ho] at hc
      exact absurd hc hne
    have hf : m.inFlight ≠ 0 := by unfold Migf.inFlight; omega
    have hone := h.one
    obtain ⟨pre, heq⟩ := mlx5vfSaveCallback_eq h ho image nextRequired rfl rfl
    change m.fwNext = true ∧ m.inFlight = 1 ∧
      (mlx5vfSaveCallback m image nextRequired).inFlight = 0 ∧
      (mlx5vfSaveCallback m image nextRequired).fwNext = false ∧
      (mlx5vfSaveCallback m image nextRequired).bufList = _
    rw [heq] at hc ⊢
    generalize (if (m.heap m.async.buf).stopCopyChunkNum ≠ 0 then nextRequired else 0) = next
      at hc ⊢
    by_cases hlast : m.async.stopCopyChunk = true ∧ next = 0
    · refine ⟨(h.flag hf).symm.trans hlast.1, by omega, rfl, ?_, ?_⟩
      · simp [hlast.1, hlast.2]
      · simp [landed, addRecord, Migf.setBuf]
    · simp only at hc
      split_ifs at hc
      exact absurd hc hne

/-- CORRECT: in every state of every run from a prepared file in chunk mode, each buffer is in one
    place; the ready chunks are counted; one save at most is active, with its completion and its
    file reference; while firmware has a chunk and the file is not in error, one of a save in
    flight, a queued work and a waiting size is to start the next; a work finds its buffer; and the
    file completes with its last chunk in `buf_list`. -/
theorem save_pipeline {heap : ℕ → Buf} {stateSize fullSize : ℕ} {track : Bool}
    {allocs : ℕ → Option Alloc} {m₀ : Migf}
    (hprep : mlx5vfPrepStopCopy (Migf.empty true heap) stateSize fullSize track allocs = some m₀)
    (h : Reach step ok m₀ m) :
    (∀ b, m.places b = (m.live b).toNat) ∧
      (m.numReadyChunks = m.readyChunks ∧ m.numReadyChunks ≤ MAX_NUM_CHUNKS) ∧
      (m.inFlight ≤ 1 ∧ m.saveComp = 1 - m.inFlight ∧ m.filpRefs = 1 + m.inFlight + m.works) ∧
      (m.inFlight + m.works + m.pending ≤ 1 ∧
        (m.fwNext = true → m.state ≠ .error → m.inFlight + m.works + m.pending = 1)) ∧
      (∀ i, (m.saveWork i).isSome = true → (m.buf i).isSome = true) ∧
      ∀ e, (step m e).state = .complete → m.state ≠ .complete →
        m.fwNext = true ∧ (step m e).fwNext = false ∧ m.inFlight = 1 ∧ (step m e).inFlight = 0 ∧
          (step m e).bufList = m.bufList ++ [m.async.headerBuf, m.async.buf] := by
  have hpipe := pipe_of_reach h (mlx5vfPrepStopCopy_spec hprep)
  have hsave := hpipe.save
  have hle : m.numReadyChunks ≤ MAX_NUM_CHUNKS := by
    have h₀ := hpipe.owns.readyAt_le 0
    have h₁ := hpipe.owns.readyAt_le 1
    rw [hpipe.ready, hpipe.owns.readyChunks_eq, MAX_NUM_CHUNKS]
    omega
  refine ⟨fun b => hpipe.owns.places b, ⟨hpipe.ready, hle⟩, ⟨by omega, by omega, hpipe.refs⟩,
    ⟨hpipe.one, hpipe.token⟩, fun i hi => (hpipe.work i hi).2.1, fun e hc hne => ?_⟩
  obtain ⟨hfw, hin, hin', hfw', hlist⟩ := hpipe.complete hc hne
  exact ⟨hfw, hfw', hin, hin', hlist⟩

instance (m : Migf) : (e : Ev) → Decidable (ok m e)
  | .callback image _ =>
    inferInstanceAs (Decidable (image.length ≤ (m.heap m.async.buf).allocatedLength))
  | .saveDeviceData .. | .ioctl .. | .incData .. | .failed | .cleanup _ | .work .. | .readStart ..
  | .readTurn | .markErr => instDecidableTrue

/-- A file with two pages for each chunk. -/
def demoFile : Migf :=
  (mlx5vfPrepStopCopy (Migf.empty true fun _ => newBuf false 0 ⟨[], fun _ => 0⟩) 8000 1 false
    fun _ => some ⟨[1], fun _ => 0⟩).getD (Migf.empty true fun _ => newBuf false 0 ⟨[], fun _ => 0⟩)

theorem demoFile_prep :
    mlx5vfPrepStopCopy (Migf.empty true fun _ => newBuf false 0 ⟨[], fun _ => 0⟩) 8000 1 false
      (fun _ => some ⟨[1], fun _ => 0⟩) = some demoFile := rfl

/-- Both chunks are ready and the reader has taken the first, so that the third may be saved. -/
def demoRun : List Ev :=
  [.saveDeviceData false none ⟨true, true, none, true⟩, .callback [1, 2, 3] 5000,
    .work 1 none ⟨true, true, none, true⟩, .callback [4, 5] 9000, .readStart 75 false, .readTurn,
    .readTurn, .readTurn]

theorem save_pipeline_demo :
    (demoRun.foldl step demoFile).saveWork 0 = some 9000 ∧
      ((demoRun.foldl step demoFile).saveWork 0).isSome = true ∧
      ((demoRun.foldl step demoFile).buf 0).isSome = true ∧
      (demoRun.foldl step demoFile).inFlight + (demoRun.foldl step demoFile).works +
        (demoRun.foldl step demoFile).pending = 1 := by
  have hrun : Runs step ok demoFile demoRun := by decide +kernel
  have h := save_pipeline demoFile_prep (Reach.start.runs hrun)
  have hwork : ((demoRun.foldl step demoFile).saveWork 0).isSome = true := by decide +kernel
  exact ⟨by decide +kernel, hwork, h.2.2.2.2.1 0 hwork,
    h.2.2.2.1.2 (by decide +kernel) (by decide +kernel)⟩

/-- The work cannot issue its save: firmware has a chunk, and nobody will ask for it. -/
def brokenRun : List Ev :=
  [.saveDeviceData false none ⟨true, true, none, true⟩, .callback [1, 2, 3] 5000,
    .work 1 none ⟨true, true, none, false⟩]

theorem save_pipeline_broken :
    mlx5vfPrepStopCopy (Migf.empty true fun _ => newBuf false 0 ⟨[], fun _ => 0⟩) 8000 1 false
      (fun _ => some ⟨[1], fun _ => 0⟩) = some demoFile ∧ Runs step ok demoFile brokenRun ∧
    (brokenRun.foldl step demoFile).fwNext = true ∧
    (brokenRun.foldl step demoFile).state = .error ∧
    (brokenRun.foldl step demoFile).inFlight = 0 ∧ (brokenRun.foldl step demoFile).works = 0 ∧
    (brokenRun.foldl step demoFile).pending = 0 :=
  ⟨rfl, by decide +kernel⟩

end RdmaDriver.SaveFile
