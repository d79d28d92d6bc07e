import RdmaDriver.Flow.Chains

/-! @src mlx5/core/lib/fs_chains.c | name:gets and puts of chain tables | scheme:run | family:refcount

    A get of a level takes a reference on its table and, through the gets of the levels below that it
    makes first, on each of theirs, with a multiplicity. A put gives all of them back. In between, and
    where a get fails, the references of the other gets hold their tables.

        level          0   1   2   3
        get level 3    4   2   1   1
        get level 1    1   1                                                               -/

namespace RdmaDriver.FsChains
open Schemes

/-- The references that the gets of all levels below one take on a level. -/
def prevRefs : ℕ → ℕ → ℕ
  | 0, _ => 0
  | level + 1, l => prevRefs level l + (prevRefs level l + if l = level then 1 else 0)

/-- The one reference of a level itself. -/
def one (level l : ℕ) : ℕ := if l = level then 1 else 0

/-- The references that a get of a level takes on a level. -/
def getRefs (level l : ℕ) : ℕ := prevRefs level l + one level l

/-- More references in one priority of one chain. -/
def addAt (R : ℕ → ℕ → ℕ → ℕ) (c p : ℕ) (f : ℕ → ℕ) : ℕ → ℕ → ℕ → ℕ :=
  fun c' p' l => R c' p' l + if c' = c ∧ p' = p then f l else 0

/-- The keys with references. -/
def Pos (R : ℕ → ℕ → ℕ → ℕ) : ℕ → ℕ → ℕ → Prop := fun c p l => 0 < R c p l

/-- Who has a reference in a priority has one on its level 0. -/
def Based (R : ℕ → ℕ → ℕ → ℕ) : Prop := ∀ c p l, 0 < R c p l → 0 < R c p 0

/-- The entries are those with references. -/
structure Inv (a : Attr) (s : State) (R : ℕ → ℕ → ℕ → ℕ) : Prop where
  core : Core a s R (Pos R)
  based : Based R
  bound : ∀ c p l, R c p l < 2 ^ 32

/-- What gets and puts in one priority do while the references `R` are held: their entries stay, and
    `miss_rules` has room for the priority before if that is needed. -/
structure Moved (a : Attr) (R : ℕ → ℕ → ℕ → ℕ) (c p : ℕ) (s s' : State) (R' : ℕ → ℕ → ℕ → ℕ) :
    Prop where
  stable : Stable (Pos R) s s'
  bounds : (R c p 0 = 0 → Room (Pos R) c p) → s'.inBounds = s.inBounds
  inv : Inv a s' R'

section Refs

variable {a : Attr} {e : Env} {fail : ℕ → Bool} {s s' s'' : State}
  {R R₁ R₂ : ℕ → ℕ → ℕ → ℕ} {P Q : ℕ → ℕ → ℕ → Prop} {c p lv : ℕ} {f g : ℕ → ℕ}

@[simp] theorem addAt_self (R : ℕ → ℕ → ℕ → ℕ) (c p : ℕ) (f : ℕ → ℕ) (l : ℕ) :
    addAt R c p f c p l = R c p l + f l := by
  simp [addAt]

theorem addAt_other {c' p' : ℕ} (h : ¬ (c' = c ∧ p' = p)) (l : ℕ) :
    addAt R c p f c' p' l = R c' p' l := by
  simp [addAt, h]

theorem addAt_addAt : addAt (addAt R c p f) c p g = addAt R c p fun l => f l + g l := by
  funext c' p' l
  simp only [addAt]
  split_ifs <;> omega

theorem addAt_zero : (addAt R c p fun _ => 0) = R := by
  funext c' p' l
  simp [addAt]

theorem le_addAt (c' p' l : ℕ) : R c' p' l ≤ addAt R c p f c' p' l := Nat.le_add_right _ _

theorem prevRefs_succ (level : ℕ) :
    prevRefs (level + 1) = fun l => prevRefs level l + getRefs level l := rfl

/-- All levels below one get a reference. -/
theorem prevRefs_pos {level l : ℕ} : 0 < prevRefs level l ↔ l < level := by
  induction level with
  | zero => simp [prevRefs]
  | succ level ih =>
    unfold prevRefs
    split_ifs with h
    · omega
    · omega

theorem getRefs_pos {level l : ℕ} : 0 < getRefs level l ↔ l ≤ level := by
  have h := @prevRefs_pos level l
  unfold getRefs one
  split_ifs <;> omega

theorem Based.addAt_prevRefs (h : Based R) (level : ℕ) : Based (addAt R c p (prevRefs level)) := by
  intro c' p' l hpos
  unfold addAt at hpos ⊢
  have hR := h c' p' l
  have hl := @prevRefs_pos level l
  have h₀ := @prevRefs_pos level 0
  split_ifs at hpos ⊢ with hkey <;> omega

theorem Room.congr (h : ∀ q < p, ∀ l, P c q l ↔ Q c q l) (room : Room P c p) : Room Q c p := by
  intro q hq hnone l hQ
  refine room q hq (fun q' hlt hlt' l' hP => ?_) l ((h q hq l).mpr hQ)
  exact hnone q' hlt hlt' l' ((h q' hlt' l').mp hP)

/-- The priorities before one do not see its references. -/
theorem room_addAt : Room (Pos (addAt R c p f)) c p ↔ Room (Pos R) c p := by
  have h : ∀ q < p, ∀ l, Pos (addAt R c p f) c q l ↔ Pos R c q l := by
    intro q hq l
    unfold Pos
    rw [addAt_other (by omega)]
  exact ⟨Room.congr h, Room.congr fun q hq l => (h q hq l).symm⟩

theorem Moved.trans (h : Moved a R c p s s' R₁) (h' : Moved a (addAt R c p f) c p s' s'' R₂) :
    Moved a R c p s s'' R₂ := by
  refine ⟨h.stable.trans (h'.stable.mono fun c' p' l hpos => hpos.trans_le (le_addAt c' p' l)),
    fun room => ?_, h'.inv⟩
  refine (h'.bounds fun hzero => room_addAt.mpr (room ?_)).trans (h.bounds room)
  rw [addAt_self] at hzero
  omega

/-- One more reference was held meanwhile. -/
theorem Moved.weaken (h : Moved a (addAt R c p f) c p s s' R₁) : Moved a R c p s s' R₁ := by
  refine ⟨h.stable.mono fun c' p' l hpos => hpos.trans_le (le_addAt c' p' l), fun room => ?_, h.inv⟩
  refine h.bounds fun hzero => room_addAt.mpr (room ?_)
  rw [addAt_self] at hzero
  omega

theorem Moved.then (h : Moved a R c p s s' R₁) (h' : Moved a R c p s' s'' R₂) :
    Moved a R c p s s'' R₂ :=
  ⟨h.stable.trans h'.stable, fun room => (h'.bounds room).trans (h.bounds room), h'.inv⟩

theorem Moved.refl (inv : Inv a s R₁) : Moved a R c p s s R₁ :=
  ⟨Stable.refl _ s, fun _ => rfl, inv⟩

/-- The lookup finds the entries. -/
theorem Core.lookup (core : Core a s R P) (c p lv : ℕ) :
    (P c p lv ∧ ∃ x ∈ s.prios c, x.prio = p ∧ x.level = lv ∧ s.lookup c p lv = some x) ∨
      (¬ P c p lv ∧ s.lookup c p lv = none) := by
  rcases hfind : (s.prios c).find? fun x => x.hasKey p lv with _ | x
  · refine .inr ⟨fun hP => ?_, hfind⟩
    obtain ⟨x, hx, hkey⟩ := (core.mem c p lv).mp hP
    have hnone := List.find?_eq_none.mp hfind x hx
    simp [Prio.hasKey, hkey] at hnone
  · have hx := List.mem_of_find?_eq_some hfind
    have hkey := List.find?_some hfind
    simp only [Prio.hasKey, Bool.and_eq_true, decide_eq_true_eq] at hkey
    exact .inl ⟨(core.mem c p lv).mpr ⟨x, hx, hkey⟩, x, hx, hkey.1, hkey.2, hfind⟩

/-- What was asked for does not matter, nor do numbers of tables that were skipped. -/
theorem Core.skip (core : Core a s R P) {t n : ℕ} {b : Bool} (hn : s.next ≤ n) :
    Core a { s with tick := t, inBounds := b, next := n } R P := { core with
  fresh := fun c x hx => (core.fresh c x hx).trans_le hn }

/-- The references after one get of one level, without those below. -/
theorem Inv.addAt_one (inv : Inv a s R) (hz : lv ≠ 0 → 0 < R c p 0) (hb : R c p lv + 1 < 2 ^ 32)
    (core : Core a s' (addAt R c p (one lv)) (Pos (addAt R c p (one lv)))) :
    Inv a s' (addAt R c p (one lv)) := by
  refine ⟨core, fun c' p' l hpos => ?_, fun c' p' l => ?_⟩
  · have hR := inv.based c' p' l
    by_cases hkey : c' = c ∧ p' = p
    · obtain ⟨rfl, rfl⟩ := hkey
      rw [addAt_self] at hpos ⊢
      unfold one at hpos ⊢
      by_cases hlv : lv = 0
      · rw [if_pos hlv.symm]
        omega
      · exact Nat.add_pos_left (hz hlv) _
    · rw [addAt_other hkey] at hpos ⊢
      exact hR hpos
  · have hR := inv.bound c' p' l
    by_cases hkey : c' = c ∧ p' = p
    · obtain ⟨rfl, rfl⟩ := hkey
      rw [addAt_self, one]
      split_ifs with hl
      · rw [hl]
        exact hb
      · exact hR
    · rw [addAt_other hkey]
      exact hR

/-- Where a reference is held, one more does not add a key; otherwise it adds one. -/
theorem pos_addAt_one : Pos (addAt R c p (one lv)) =
    fun c' p' l => Pos R c' p' l ∨ (c' = c ∧ p' = p ∧ l = lv) := by
  funext c' p' l
  unfold Pos addAt one
  refine propext ⟨fun h => ?_, fun h => ?_⟩
  · by_cases hkey : c' = c ∧ p' = p ∧ l = lv
    · exact .inr hkey
    · refine .inl ?_
      split_ifs at h with h₁ h₂
      · exact absurd ⟨h₁.1, h₁.2, h₂⟩ hkey
      · exact h
      · exact h
  · rcases h with h | ⟨rfl, rfl, rfl⟩
    · omega
    · simp

theorem addAt_one_key : addAt R c p (one lv) c p lv = R c p lv + 1 := by
  rw [addAt_self, one, if_pos rfl]

theorem addAt_one_other {c' p' l : ℕ} (h : ¬ (c' = c ∧ p' = p ∧ l = lv)) :
    addAt R c p (one lv) c' p' l = R c' p' l := by
  unfold addAt one
  split_ifs with h₁ h₂
  · exact absurd ⟨h₁.1, h₁.2, h₂⟩ h
  · rfl
  · rfl

/-- STEP: the reference of an entry that is there is counted. -/
theorem Core.count (core : Core a s R (Pos (addAt R c p (one lv))))
    (hb : R c p lv + 1 < 2 ^ 32) :
    Core a (s.modifyRef c p lv incRef) (addAt R c p (one lv)) (Pos (addAt R c p (one lv))) ∧
      Stable (Pos R) s (s.modifyRef c p lv incRef) ∧
      (s.modifyRef c p lv incRef).inBounds = s.inBounds := by
  have hP : Pos (addAt R c p (one lv)) c p lv := by
    unfold Pos
    rw [addAt_one_key]
    omega
  obtain ⟨hcore, hstable, hbounds, -⟩ := @Core.modifyRef _ _ _ _ _ _ _ incRef (addAt R c p (one lv))
    core hP (by rw [addAt_one_key, incRef, Nat.mod_eq_of_lt hb]) fun c' p' l h => addAt_one_other h
  exact ⟨hcore, hstable.mono fun c' p' l hpos => hpos.trans_le (le_addAt c' p' l), hbounds⟩

/-- STEP: the part of a get under the lock. -/
theorem getOne_spec (inv : Inv a s R) (hz : lv ≠ 0 → 0 < R c p 0) (hb : R c p lv + 1 < 2 ^ 32) :
    ∃ s' ok, getOne a e s c p lv = (s', ok) ∧
      Moved a R c p s s' (if ok then addAt R c p (one lv) else R) := by
  unfold getOne
  rcases inv.core.lookup c p lv with ⟨hP, x, -, -, -, hx⟩ | ⟨hP, hx⟩
  · rw [hx]
    refine ⟨_, true, rfl, ?_⟩
    have hcore : Core a s R (Pos (addAt R c p (one lv))) := by
      have hpos : Pos (addAt R c p (one lv)) = Pos R := by
        rw [pos_addAt_one]
        funext c' p' l
        refine propext (or_iff_left_of_imp ?_)
        rintro ⟨rfl, rfl, rfl⟩
        exact hP
      rw [hpos]
      exact inv.core
    obtain ⟨hcore', hstable, hbounds⟩ := hcore.count hb
    exact ⟨hstable, fun _ => hbounds, inv.addAt_one hz hb hcore'⟩
  · rw [hx]
    have hR : R c p lv = 0 := Nat.eq_zero_of_not_pos hP
    obtain ⟨t, b, hroom, ⟨n, hn, hres⟩ | ⟨s₁, hres, hb₁, hstable₁, hcore₁⟩⟩ :=
      @Core.create _ e.create _ _ _ _ _ _ inv.core hP hz hR
    · rw [hres]
      refine ⟨_, false, rfl, ⟨Stable.refl _ s, fun room => hroom ?_, inv.core.skip hn, inv.based,
        inv.bound⟩⟩
      rintro rfl
      exact room hR
    · rw [hres]
      refine ⟨_, true, rfl, ?_⟩
      rw [← pos_addAt_one] at hcore₁
      obtain ⟨hcore', hstable, hbounds⟩ := hcore₁.count hb
      refine ⟨hstable₁.trans hstable, fun room => ?_, inv.addAt_one hz hb hcore'⟩
      refine hbounds.trans (hb₁.trans (hroom ?_))
      rintro rfl
      exact room hR

/-- STEP: the part of a put under the lock. -/
theorem putOne_spec (hfail : ∀ n, fail n = false) (hbased : Based R)
    (inv : Inv a s (addAt R c p (one lv))) : Moved a R c p s (putOne fail s c p lv) R := by
  have hbound : ∀ c' p' l, R c' p' l < 2 ^ 32 := fun c' p' l =>
    (le_addAt c' p' l).trans_lt (inv.bound c' p' l)
  have hP : Pos (addAt R c p (one lv)) c p lv := by
    unfold Pos
    rw [addAt_one_key]
    omega
  obtain ⟨hcore, hstable, hbounds, -⟩ := @Core.modifyRef _ _ _ _ _ _ _ decRef R inv.core hP
    (by
      have hlt := hbound c p lv
      rw [addAt_one_key, decRef]
      have hsum : R c p lv + 1 + (2 ^ 32 - 1) = R c p lv + 2 ^ 32 := by omega
      rw [hsum, Nat.add_mod_right, Nat.mod_eq_of_lt hlt])
    fun c' p' l h => (addAt_one_other h).symm
  have hstable' : Stable (Pos R) s (s.modifyRef c p lv decRef) :=
    hstable.mono fun c' p' l hpos => hpos.trans_le (le_addAt c' p' l)
  unfold putOne
  dsimp only
  generalize s.modifyRef c p lv decRef = s₁ at *
  rcases hcore.lookup c p lv with ⟨-, x, hxin, hxp, hxl, hx⟩ | ⟨hno, -⟩
  · rw [hx]
    have href : x.ref = R c p lv := by rw [hcore.ref c x hxin, hxp, hxl]
    dsimp only
    rw [href]
    by_cases hzero : R c p lv = 0
    · rw [if_pos hzero]
      obtain ⟨hcore', hstable₁, hbounds₁⟩ := hcore.destroy hfail hP fun hlv l hpos => by
        subst hlv
        by_contra hl
        have hpos' := @addAt_one_other R c p 0 c p l fun h => hl h.2.2
        unfold Pos at hpos
        rw [hpos'] at hpos
        have hbase := hbased c p l hpos
        omega
      have hpos : (fun c' p' l => Pos (addAt R c p (one lv)) c' p' l ∧
          ¬ (c' = c ∧ p' = p ∧ l = lv)) = Pos R := by
        rw [pos_addAt_one]
        funext c' p' l
        refine propext ⟨fun h => h.1.resolve_right h.2, fun h => ⟨.inl h, ?_⟩⟩
        rintro ⟨rfl, rfl, rfl⟩
        unfold Pos at h
        omega
      rw [hpos] at hcore'
      refine ⟨hstable'.trans (hstable₁.mono fun c' p' l h => ?_), fun room => ?_,
        ⟨hcore', hbased, hbound⟩⟩
      · rintro ⟨rfl, rfl, rfl⟩
        unfold Pos at h
        omega
      · refine (hbounds₁ ?_).trans hbounds
        rintro rfl
        exact room_addAt.mpr (room hzero)
    · rw [if_neg hzero]
      have hpos : Pos (addAt R c p (one lv)) = Pos R := by
        rw [pos_addAt_one]
        funext c' p' l
        refine propext (or_iff_left_of_imp ?_)
        rintro ⟨rfl, rfl, rfl⟩
        exact Nat.pos_of_ne_zero hzero
      rw [hpos] at hcore
      exact ⟨hstable', fun _ => hbounds, ⟨hcore, hbased, hbound⟩⟩
  · exact absurd hP hno

/-- A put of one level, given what the puts of all levels below do. -/
theorem putAt_spec (hfail : ∀ n, fail n = false) (hbased : Based R) {puts : State → State}
    (hputs : ∀ s, Inv a s (addAt R c p (prevRefs lv)) → Moved a R c p s (puts s) R)
    (inv : Inv a s (addAt R c p (getRefs lv))) :
    Moved a R c p s (putAt fail c p lv puts s) R := by
  have hsplit : addAt R c p (getRefs lv) = addAt (addAt R c p (prevRefs lv)) c p (one lv) :=
    addAt_addAt.symm
  have hP : Pos (addAt R c p (getRefs lv)) c p lv := by
    unfold Pos
    rw [addAt_self]
    have hpos := getRefs_pos.mpr (le_refl lv)
    omega
  unfold putAt
  rcases inv.core.lookup c p lv with ⟨-, x, -, -, -, hx⟩ | ⟨hno, -⟩
  · rw [hx]
    rw [hsplit] at inv
    have hone := putOne_spec hfail (hbased.addAt_prevRefs lv) inv
    exact hone.weaken.then (hputs _ hone.inv)
  · exact absurd hP hno

/-- RUN: the puts of all levels below one give back what their gets took. -/
theorem putPrevs_spec (hfail : ∀ n, fail n = false) :
    ∀ (level : ℕ) (R : ℕ → ℕ → ℕ → ℕ) (s : State), Based R →
      Inv a s (addAt R c p (prevRefs level)) → Moved a R c p s (putPrevs fail c p level s) R
  | 0, R, s, _, inv => by
    have hzero : addAt R c p (prevRefs 0) = R := addAt_zero
    rw [hzero] at inv
    exact Moved.refl inv
  | level + 1, R, s, hbased, inv => by
    have hsplit : addAt R c p (prevRefs (level + 1)) =
        addAt (addAt R c p (prevRefs level)) c p (getRefs level) := by
      rw [prevRefs_succ, addAt_addAt]
    rw [hsplit] at inv
    have hbased' := hbased.addAt_prevRefs (c := c) (p := p) level
    have hput := putAt_spec hfail hbased' (fun s => putPrevs_spec hfail level _ s hbased') inv
    exact hput.weaken.then (putPrevs_spec hfail level R _ hbased hput.inv)

/-- RUN: a put gives back what a get took. -/
theorem put_spec (hfail : ∀ n, fail n = false) (hbased : Based R)
    (inv : Inv a s (addAt R c p (getRefs lv))) :
    Moved a R c p s (mlx5ChainsPutTable fail s c p lv) R :=
  putAt_spec hfail hbased (fun s => putPrevs_spec hfail lv R s hbased) inv

/-- A get of one level, given what the gets of all levels below do. -/
theorem getAt_spec (hfail : ∀ n, e.destroy n = false) {gets : State → State × Bool}
    (hgets : ∃ s' ok, gets s = (s', ok) ∧
      Moved a R c p s s' (if ok then addAt R c p (prevRefs lv) else R))
    (hb : ∀ l, R c p l + getRefs lv l < 2 ^ 32) (inv : Inv a s R) :
    ∃ s' ft, getAt a e c p lv gets s = (s', ft) ∧
      Moved a R c p s s' (if ft.isSome then addAt R c p (getRefs lv) else R) ∧
      ∀ n, ft = some n → ∃ x ∈ s'.prios c, x.prio = p ∧ x.level = lv ∧ x.ft = n := by
  have hsplit : addAt R c p (getRefs lv) = addAt (addAt R c p (prevRefs lv)) c p (one lv) :=
    addAt_addAt.symm
  unfold getAt
  split_ifs with hadm
  · exact ⟨s, none, rfl, Moved.refl inv, fun n h => (by cases h)⟩
  obtain ⟨s₁, ok, hres, hmoved⟩ := hgets
  rw [hres]
  cases ok with
  | false => exact ⟨s₁, none, rfl, hmoved, fun n h => (by cases h)⟩
  | true =>
    rw [if_pos rfl] at hmoved
    obtain ⟨s₂, ok, hone, hmoved₂⟩ := @getOne_spec _ e _ _ _ _ lv hmoved.inv
      (fun hlv => by
        have hpos := (@prevRefs_pos lv 0).mpr (by omega)
        rw [addAt_self]
        omega)
      (by
        have hlt := hb lv
        rw [getRefs, one, if_pos rfl] at hlt
        rw [addAt_self]
        omega)
    dsimp only
    rw [hone]
    cases ok with
    | false =>
      rw [if_neg (by simp)] at hmoved₂
      have hback := putPrevs_spec hfail lv R s₂ inv.based hmoved₂.inv
      exact ⟨_, none, rfl, (hmoved.trans hmoved₂).then hback, fun n h => (by cases h)⟩
    | true =>
      rw [if_pos rfl, ← hsplit] at hmoved₂
      have hP : Pos (addAt R c p (getRefs lv)) c p lv := by
        unfold Pos
        rw [addAt_self]
        have hpos := getRefs_pos.mpr (le_refl lv)
        omega
      rcases hmoved₂.inv.core.lookup c p lv with ⟨-, x, hxin, hxp, hxl, hx⟩ | ⟨hno, -⟩
      · dsimp only
        rw [hx]
        refine ⟨s₂, some x.ft, rfl, hmoved.trans hmoved₂, fun n h => ?_⟩
        cases h
        exact ⟨x, hxin, hxp, hxl, rfl⟩
      · exact absurd hP hno

/-- RUN: the gets of all levels below one take their references, or none. -/
theorem getPrevs_spec (hfail : ∀ n, e.destroy n = false) :
    ∀ (level : ℕ) (R : ℕ → ℕ → ℕ → ℕ) (s : State), (∀ l, R c p l + prevRefs level l < 2 ^ 32) →
      Inv a s R → ∃ s' ok, getPrevs a e c p level s = (s', ok) ∧
        Moved a R c p s s' (if ok then addAt R c p (prevRefs level) else R)
  | 0, R, s, _, inv => by
    have hzero : addAt R c p (prevRefs 0) = R := addAt_zero
    refine ⟨s, true, rfl, ?_⟩
    rw [if_pos rfl, hzero]
    exact Moved.refl inv
  | level + 1, R, s, hb, inv => by
    have hsplit : addAt R c p (prevRefs (level + 1)) =
        addAt (addAt R c p (prevRefs level)) c p (getRefs level) := by
      rw [prevRefs_succ, addAt_addAt]
    have hb' : ∀ l, R c p l + (prevRefs level l + getRefs level l) < 2 ^ 32 := hb
    obtain ⟨s₁, ok, hres, hmoved⟩ := getPrevs_spec hfail level R s
      (fun l => by
        have hlt := hb' l
        omega) inv
    unfold getPrevs
    rw [hres]
    cases ok with
    | false => exact ⟨s₁, false, rfl, hmoved⟩
    | true =>
      obtain ⟨s₂, ft, hget, hmoved₂, -⟩ := @getAt_spec _ _ _ _ _ _ level hfail _
        (getPrevs_spec hfail level (addAt R c p (prevRefs level)) s₁
          (fun l => by
            have hlt := hb' l
            have hle : prevRefs level l ≤ getRefs level l := Nat.le_add_right _ _
            rw [addAt_self]
            omega) hmoved.inv)
        (fun l => by
          rw [addAt_self, Nat.add_assoc]
          exact hb' l) hmoved.inv
      dsimp only
      rw [hget]
      cases ft with
      | none =>
        have hback := putPrevs_spec hfail level R s₂ inv.based hmoved₂.inv
        exact ⟨_, false, rfl, (hmoved.trans hmoved₂).then hback⟩
      | some ft =>
        rw [Option.isSome_some, if_pos rfl, ← hsplit] at hmoved₂
        exact ⟨s₂, true, rfl, hmoved.trans hmoved₂⟩

/-- RUN: a get takes its references and those of all levels below, or none. -/
theorem get_spec (hfail : ∀ n, e.destroy n = false) (hb : ∀ l, R c p l + getRefs lv l < 2 ^ 32)
    (inv : Inv a s R) :
    ∃ s' ft, mlx5ChainsGetTable a e s c p lv = (s', ft) ∧
      Moved a R c p s s' (if ft.isSome then addAt R c p (getRefs lv) else R) ∧
      ∀ n, ft = some n → ∃ x ∈ s'.prios c, x.prio = p ∧ x.level = lv ∧ x.ft = n :=
  getAt_spec hfail
    (getPrevs_spec hfail lv R s
      (fun l => (Nat.add_le_add_left (Nat.le_add_right _ _) _).trans_lt (hb l)) inv) hb inv

/-! ### A state is known by its references -/

/-- There is one next priority. -/
theorem IsNext.unique {chainEnd prio ft ft' : ℕ} {l : List Prio} (hs : l.Pairwise Prio.Below)
    (h : IsNext chainEnd l prio ft) (h' : IsNext chainEnd l prio ft') : ft = ft' := by
  rcases h with ⟨x, hx, hxl, hlt, hmin, rfl⟩ | ⟨hmax, rfl⟩ <;>
    rcases h' with ⟨y, hy, hyl, hlt', hmin', rfl⟩ | ⟨hmax', rfl⟩
  · have hle := hmin y hy hlt'
    have hle' := hmin' x hx hlt
    rw [eq_of_key hs hx hy (by omega) (by omega)]
  · have hle := hmax' x hx
    omega
  · have hle := hmax y hy
    omega
  · rfl

/-- Two sorted lists with the same entries are the same. -/
theorem sorted_ext {l l' : List Prio} (hs : l.Pairwise Prio.Below) (hs' : l'.Pairwise Prio.Below)
    (h : ∀ x, x ∈ l ↔ x ∈ l') : l = l' := by
  have hperm : l.Perm l' :=
    (List.perm_ext_iff_of_nodup (nodup_of_sorted hs) (nodup_of_sorted hs')).mpr h
  refine hperm.eq_of_pairwise (fun x y _ _ hxy hyx => ?_) hs hs'
  unfold Prio.Below at hxy hyx
  omega

/-- When all entries stay and hold the same references, nothing has changed. -/
theorem Inv.same (inv : Inv a s R) (inv' : Inv a s' R) (h : Stable (Pos R) s s') :
    s'.chain = s.chain ∧ s'.table = s.table ∧ s'.group = s.group ∧ s'.rules = s.rules := by
  have hfwd : ∀ d, SameShape (s.prios d) (s'.prios d) := fun d x hx =>
    h d x hx ((inv.core.mem d x.prio x.level).mpr ⟨x, hx, rfl, rfl⟩)
  have hback : ∀ d, SameShape (s'.prios d) (s.prios d) := by
    intro d y hy
    obtain ⟨x, hx, hxp, hxl⟩ := (inv.core.mem d y.prio y.level).mp
      ((inv'.core.mem d y.prio y.level).mpr ⟨y, hy, rfl, rfl⟩)
    obtain ⟨z, hz, hzp, hzl, hzf⟩ := hfwd d x hx
    obtain rfl := eq_of_key (inv'.core.listOk d).sorted hz hy (hzp.trans hxp) (hzl.trans hxl)
    exact ⟨x, hx, hxp, hxl, hzf.symm⟩
  -- an entry is the one that has its key in the other list
  have hentry : ∀ d x y, x ∈ s.prios d → y ∈ s'.prios d → y.prio = x.prio → y.level = x.level →
      y.ft = x.ft → y = x := by
    intro d x y hx hy hp hl hf
    have hr : y.ref = x.ref := by rw [inv'.core.ref d y hy, inv.core.ref d x hx, hp, hl]
    obtain ⟨hnx, hmx⟩ := (inv.core.listOk d).leads x hx
    obtain ⟨hny, hmy⟩ := (inv'.core.listOk d).leads y hy
    have hn : y.nextFt = x.nextFt := by
      rw [hp] at hny
      exact hny.unique (inv'.core.listOk d).sorted (hnx.congr (hfwd d) (hback d))
    cases x
    cases y
    simp only at hp hl hf hr hn hmx hmy
    subst hp hl hf hr hn hmx hmy
    rfl
  have hprios : ∀ d, s'.prios d = s.prios d := by
    intro d
    refine sorted_ext (inv'.core.listOk d).sorted (inv.core.listOk d).sorted fun x =>
      ⟨fun hx => ?_, fun hx => ?_⟩
    · obtain ⟨y, hy, hp, hl, hf⟩ := hback d x hx
      exact hentry d y x hy hx hp.symm hl.symm hf.symm ▸ hy
    · obtain ⟨y, hy, hp, hl, hf⟩ := hfwd d x hx
      exact hentry d x y hx hy hp hl hf ▸ hy
  have htable : s'.table = s.table := by
    funext ft
    refine Bool.eq_iff_iff.mpr ?_
    rw [inv'.core.table, inv.core.table]
    simp only [hprios]
  refine ⟨?_, htable, ?_, ?_⟩
  · funext d
    have hok := inv.core.chainOk d
    have hok' := inv'.core.chainOk d
    have hd := hprios d
    unfold State.prios at hd
    rcases hcs : s.chain d with _ | cs <;> rcases hcs' : s'.chain d with _ | cs'
    · rfl
    · rw [hcs, hcs'] at hd
      exact absurd hd (hok' cs' hcs').2
    · rw [hcs, hcs'] at hd
      exact absurd hd.symm (hok cs hcs).2
    · rw [hcs, hcs'] at hd
      have href := (hok cs hcs).1
      have href' := (hok' cs' hcs').1
      cases cs
      cases cs'
      simp only at hd href href'
      subst hd
      rw [href, href']
  · rw [inv'.core.group, htable, inv.core.group]
  · funext ft
    by_cases hft : s.table ft = true
    · obtain ⟨d, x, hx, rfl⟩ := (inv.core.table ft).mp hft
      rw [inv.core.rules d x hx, inv'.core.rules d x (by rwa [hprios])]
    · have hft' : s.table ft = false := by simpa using hft
      rw [inv.core.norules ft hft', inv'.core.norules ft (by rwa [htable])]

end Refs

/-! ### Runs -/

/-- The calls, with what fails in them. -/
inductive Call where
  | get (chain prio level : ℕ) (e : Env)
  | put (chain prio level : ℕ) (fail : ℕ → Bool)

/-- The chains, and the keys of all gets that did not fail and of all puts. -/
structure World where
  chains : State
  gets : List (ℕ × ℕ × ℕ)
  puts : List (ℕ × ℕ × ℕ)

/-- `mlx5_chains_init`: no chain, and tables are new ones. -/
def Attr.init (a : Attr) : State where
  chain := fun _ => none
  table := fun _ => false
  group := fun _ => false
  rules := fun _ => []
  next := max a.chainsDefaultFt a.chainsEndFt + 1
  tick := 0
  inBounds := true

def Attr.start (a : Attr) : World := ⟨a.init, [], []⟩

def World.step (a : Attr) (w : World) : Call → World
  | .get chain prio level e =>
    match mlx5ChainsGetTable a e w.chains chain prio level with
    | (s, none) => { w with chains := s }
    | (s, some _) => { w with chains := s, gets := (chain, prio, level) :: w.gets }
  | .put chain prio level fail =>
    { w with
      chains := mlx5ChainsPutTable fail w.chains chain prio level
      puts := (chain, prio, level) :: w.puts }

/-- A put is of a table that was got more often than put. -/
def Matching (w : World) : Call → Prop
  | .get .. => True
  | .put chain prio level _ => w.puts.count (chain, prio, level) < w.gets.count (chain, prio, level)

instance (w : World) : ∀ k, Decidable (Matching w k)
  | .get .. => instDecidableTrue
  | .put .. => Nat.decLt _ _

/-- The references that some gets take, those of the levels below included. -/
def held : List (ℕ × ℕ × ℕ) → ℕ → ℕ → ℕ → ℕ
  | [] => fun _ _ _ => 0
  | (c, p, level) :: gets => addAt (held gets) c p (getRefs level)

/-- A chain has an entry for a priority and level. -/
def State.has (s : State) (chain prio level : ℕ) : Prop :=
  ∃ e ∈ s.prios chain, e.prio = prio ∧ e.level = level

/-- The condition on a call: no rule fails while an entry is destroyed; where a level 0 entry comes or
    goes, the priority before it has no more levels than `miss_rules` has room for; and no reference
    count gets as large as an `int`. -/
def Fits (w : World) : Call → Prop
  | .get chain prio level e => (∀ n, e.destroy n = false) ∧
      (¬ w.chains.has chain prio 0 → Room w.chains.has chain prio) ∧
      ∀ l, held w.gets chain prio l - held w.puts chain prio l + getRefs level l < 2 ^ 32
  | .put chain prio level fail => (∀ n, fail n = false) ∧
      (held w.gets chain prio 0 = held ((chain, prio, level) :: w.puts) chain prio 0 →
        Room w.chains.has chain prio)

section World

variable {a : Attr} {e : Env} {w : World} {k : Call} {c p lv : ℕ} {R : ℕ → ℕ → ℕ → ℕ}
  {gets gets' : List (ℕ × ℕ × ℕ)}

theorem held_cons : held ((c, p, lv) :: gets) = addAt (held gets) c p (getRefs lv) := rfl

theorem held_eq_sum (gets : List (ℕ × ℕ × ℕ)) (c p l : ℕ) :
    held gets c p l =
      (gets.map fun k => if c = k.1 ∧ p = k.2.1 then getRefs k.2.2 l else 0).sum := by
  induction gets with
  | nil => rfl
  | cons k gets ih =>
    obtain ⟨c', p', level⟩ := k
    rw [List.map_cons, List.sum_cons, ← ih, Nat.add_comm]
    rfl

theorem held_append : held (gets ++ gets') c p lv = held gets c p lv + held gets' c p lv := by
  simp only [held_eq_sum, List.map_append, List.sum_append]

theorem held_perm (h : gets.Perm gets') : held gets = held gets' := by
  funext c p l
  simp only [held_eq_sum]
  exact (h.map _).sum_nat

/-- A table has a reference when a get of its level, or of one above, was not put. -/
theorem held_pos {l : ℕ} : 0 < held gets c p l ↔ ∃ level, (c, p, level) ∈ gets ∧ l ≤ level := by
  induction gets with
  | nil => simp [held]
  | cons k gets ih =>
    obtain ⟨c', p', level'⟩ := k
    have hg := @getRefs_pos level' l
    unfold held addAt
    constructor
    · intro h
      by_cases hpos : 0 < held gets c p l
      · obtain ⟨level, hmem, hle⟩ := ih.mp hpos
        exact ⟨level, List.mem_cons_of_mem _ hmem, hle⟩
      · split_ifs at h with hkey
        · obtain ⟨rfl, rfl⟩ := hkey
          exact ⟨level', List.mem_cons_self, hg.mp (by omega)⟩
        · exact absurd h hpos
    · rintro ⟨level, hmem, hle⟩
      rcases List.mem_cons.mp hmem with heq | hmem
      · cases heq
        rw [if_pos ⟨rfl, rfl⟩]
        omega
      · exact Nat.add_pos_left (ih.mpr ⟨level, hmem, hle⟩) _

/-- The references are those of the gets that were not put. -/
def Held (a : Attr) (w : World) : Prop :=
  w.chains.inBounds = true ∧ ∃ rest, w.gets.Perm (w.puts ++ rest) ∧ Inv a w.chains (held rest)

theorem Inv.init (a : Attr) : Inv a a.init (held []) := by
  have hnone : ∀ c, a.init.prios c = [] := fun c => rfl
  refine ⟨⟨fun c cs h => (by cases h), fun c => ?_, fun c p l => ?_, fun c x hx => ?_,
    fun c x hx => ?_, fun c x hx => ?_, fun ft => ?_, rfl, fun c x hx => ?_, fun ft _ => rfl⟩,
    fun c p l h => h, fun c p l => ?_⟩
  · rw [hnone]
    exact ⟨.nil, by simp, by simp⟩
  · rw [hnone]
    simp [Pos, held]
  · cases hx
  · cases hx
  · cases hx
  · simp only [hnone]
    simp [Attr.init]
  · cases hx
  · simp [held]

/-- The entries of the state are those with references. -/
theorem Inv.has_iff {s : State} (inv : Inv a s R) (c p l : ℕ) : s.has c p l ↔ 0 < R c p l :=
  (inv.core.mem c p l).symm

/-- STEP: a get keeps the references true; where it fails nothing has changed. -/
theorem Held.get (h : Held a w) (hfits : Fits w (.get c p lv e)) :
    Held a (w.step a (.get c p lv e)) ∧ ((mlx5ChainsGetTable a e w.chains c p lv).2 = none →
        ∀ s, s = (mlx5ChainsGetTable a e w.chains c p lv).1 → s.chain = w.chains.chain ∧
          s.table = w.chains.table ∧ s.group = w.chains.group ∧ s.rules = w.chains.rules) := by
  obtain ⟨hin, rest, hperm, inv⟩ := h
  obtain ⟨hfail, hroom, hb⟩ := hfits
  have hsum : ∀ l, held w.gets c p l - held w.puts c p l = held rest c p l := by
    intro l
    rw [held_perm hperm, held_append]
    omega
  obtain ⟨s, ft, hres, hmoved, -⟩ := @get_spec _ _ _ _ _ _ lv hfail
    (fun l => by
      rw [← hsum l]
      exact hb l) inv
  have hbounds : s.inBounds = true := by
    refine (hmoved.bounds fun hzero => Room.congr (fun q _ l => inv.has_iff c q l) ?_).trans hin
    refine hroom fun hhas => ?_
    have hpos := (inv.has_iff c p 0).mp hhas
    omega
  unfold World.step
  dsimp only
  rw [hres]
  cases ft with
  | none =>
    exact ⟨⟨hbounds, rest, hperm, hmoved.inv⟩,
      fun _ s' hs' => hs' ▸ inv.same hmoved.inv hmoved.stable⟩
  | some ft =>
    refine ⟨⟨hbounds, (c, p, lv) :: rest, ?_, hmoved.inv⟩, fun h => (by cases h)⟩
    exact (hperm.cons _).trans List.perm_middle.symm

/-- STEP: a put gives back the references of its get. -/
theorem Held.put {fail : ℕ → Bool} (h : Held a w) (hmatch : Matching w (.put c p lv fail))
    (hfits : Fits w (.put c p lv fail)) : Held a (w.step a (.put c p lv fail)) := by
  obtain ⟨hin, rest, hperm, inv⟩ := h
  obtain ⟨hfail, hroom⟩ := hfits
  have hmem : (c, p, lv) ∈ rest := by
    have hlt : w.puts.count (c, p, lv) < w.gets.count (c, p, lv) := hmatch
    rw [hperm.count_eq, List.count_append] at hlt
    exact List.count_pos_iff.mp (by omega)
  have hrest : held rest = addAt (held (rest.erase (c, p, lv))) c p (getRefs lv) :=
    held_perm (List.perm_cons_erase hmem)
  have hbased : Based (held (rest.erase (c, p, lv))) := by
    intro c' p' l hpos
    obtain ⟨level, hmem', -⟩ := held_pos.mp hpos
    exact held_pos.mpr ⟨level, hmem', Nat.zero_le _⟩
  have hinv := inv
  rw [hrest] at hinv
  have hmoved := put_spec hfail hbased hinv
  refine ⟨(hmoved.bounds fun hzero =>
    (@room_addAt (held (rest.erase (c, p, lv))) c p (getRefs lv)).mp ?_).trans hin,
    rest.erase (c, p, lv), ?_, hmoved.inv⟩
  · rw [← hrest]
    refine Room.congr (fun q _ l => inv.has_iff c q l) (hroom ?_)
    rw [held_perm hperm, held_append, hrest, held_cons, addAt_self, addAt_self, hzero]
    omega
  · refine hperm.trans ?_
    refine ((List.perm_cons_erase hmem).append_left w.puts).trans ?_
    exact List.perm_middle

/-- STEP: every call keeps the references true. -/
theorem Held.step (h : Held a w) (hmatch : Matching w k) (hfits : Fits w k) : Held a (w.step a k) := by
  cases k with
  | get c p lv e => exact (h.get hfits).1
  | put c p lv fail => exact h.put hmatch hfits

/-- CORRECT: in every run of gets and matching puts, with any creations that fail, in which no call
    breaks the condition, all chains are sorted, each table has one miss rule, to the level 0 table of
    the next priority or to the end of the chain; `miss_rules` is not indexed past its end; a table is
    there exactly while it was got more often than put; and a get that fails leaves all as it was. -/
theorem chain_tables (a : Attr)
    (h : Reach (World.step a) (fun w k => Matching w k ∧ Fits w k) a.start w) :
    (∀ c, (w.chains.prios c).Pairwise Prio.Below) ∧
      (∀ c, ∀ x ∈ w.chains.prios c,
        IsNext (a.chainEnd c) (w.chains.prios c) x.prio x.nextFt ∧
          w.chains.rules x.ft = [x.nextFt]) ∧
      w.chains.inBounds = true ∧
      (∀ c p l, w.chains.has c p l ↔ held w.puts c p l < held w.gets c p l) ∧
      (∀ ft, w.chains.table ft = true ↔ ∃ c, ∃ x ∈ w.chains.prios c, x.ft = ft) ∧
      ∀ c p l e, Fits w (.get c p l e) → (mlx5ChainsGetTable a e w.chains c p l).2 = none →
        ∀ s, s = (mlx5ChainsGetTable a e w.chains c p l).1 → s.chain = w.chains.chain ∧
          s.table = w.chains.table ∧ s.group = w.chains.group ∧ s.rules = w.chains.rules := by
  have hheld : Held a w := @Reach.invariant _ _ _ _ _ _ (fun w => Held a w) h
    ⟨rfl, [], List.Perm.refl _, Inv.init a⟩ fun w k hok hw => hw.step hok.1 hok.2
  obtain ⟨hin, rest, hperm, inv⟩ := hheld
  refine ⟨fun c => (inv.core.listOk c).sorted, fun c x hx => ?_, hin, fun c p l => ?_,
    inv.core.table, fun c p l e hfits => (Held.get ⟨hin, rest, hperm, inv⟩ hfits).2⟩
  · obtain ⟨hnext, hrule⟩ := (inv.core.listOk c).leads x hx
    exact ⟨hnext, by rw [inv.core.rules c x hx, hrule]⟩
  · rw [inv.has_iff, held_perm hperm, held_append]
    omega

end World

/-- Chains where tables ignore levels, with any number of them. -/
def wide : Attr := ⟨true, true, true, 0, 1⟩

/-- Nothing fails. -/
def calm : Env := ⟨fun _ => false, fun _ => false⟩

/-- The chains after a get of one priority and one of the next. -/
def twoPrios : World := [Call.get 1 1 0 calm, .get 1 2 0 calm].foldl (World.step wide) wide.start

theorem twoPrios_reach :
    Reach (World.step wide) (fun w k => Matching w k ∧ Fits w k) wide.start twoPrios := by
  have hrefs : ∀ l n, n ≤ 5 → n + getRefs 0 l < 2 ^ 32 := by
    intro l n hn
    unfold getRefs prevRefs one
    split_ifs <;> omega
  refine Reach.start.runs ⟨⟨trivial, fun _ => rfl, fun _ q _ _ l hhas => ?_, fun l => ?_⟩,
    ⟨trivial, fun _ => rfl, fun _ q _ _ l hhas => ?_, fun l => ?_⟩, trivial⟩
  · obtain ⟨x, hx, -⟩ := hhas
    cases hx
  · exact hrefs l 0 (by omega)
  · obtain ⟨x, hx, -, rfl⟩ := hhas
    have hall : ∀ x ∈ (wide.start.step wide (.get 1 1 0 calm)).chains.prios 1, x.level = 0 := by decide
    rw [hall x hx]
    decide
  · exact hrefs l 0 (by omega)

theorem chain_tables_two : (∀ x ∈ twoPrios.chains.prios 1,
      IsNext (wide.chainEnd 1) (twoPrios.chains.prios 1) x.prio x.nextFt) ∧
    twoPrios.chains.inBounds = true ∧ twoPrios.chains.has 1 2 0 :=
  have h := chain_tables wide twoPrios_reach
  ⟨fun x hx => (h.2.1 1 x hx).1, h.2.2.1, (h.2.2.2.1 1 2 0).mpr (by decide)⟩

/-- Four levels of one priority are more than `miss_rules` has room for; and a rule that fails while an
    entry is destroyed leaves the priority before it with rules to a table that is gone. -/
theorem chain_tables_broken :
    (∃ w, Reach (World.step wide) Matching wide.start w ∧ w.chains.inBounds = false) ∧
      ∃ w, Reach (World.step wide) Matching wide.start w ∧ ∃ x ∈ w.chains.prios 1,
        w.chains.rules x.ft = [x.nextFt] ∧ w.chains.table x.nextFt = false ∧
          x.nextFt ≠ wide.chainEnd 1 :=
  ⟨⟨[Call.get 1 1 3 calm, .get 1 2 0 calm].foldl (World.step wide) wide.start,
      Reach.start.runs (by decide), by decide⟩,
    ⟨[Call.get 1 1 0 calm, .get 1 2 0 calm, .put 1 2 0 fun _ => true].foldl (World.step wide)
        wide.start, Reach.start.runs (by decide), by decide⟩⟩

end RdmaDriver.FsChains
