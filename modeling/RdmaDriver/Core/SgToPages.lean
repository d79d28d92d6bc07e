import RdmaDriver.Basic
import RdmaDriver.Schemes.PageVec

/-! @src drivers/infiniband/core/verbs.c | name:Page vector | scheme:segments | family:translation

    `ib_sg_to_pages` turns the largest prefix of a DMA-mapped sg list into a page vector, one
    `set_page` call of the driver per page. An element is taken if it starts a new page behind the
    end of one, or continues the element before it byte by byte.

        element i-1        element i
        +--------+         +------…      both ends on a page boundary: new page
        +-----++------…                  contiguous: go on with the next page
        +-----+   +---…                  gap: stop -/

namespace RdmaDriver.SgPages
open Schemes

/-- `EINVAL` and `ENOMEM`, where an `int` is both a count and an error. -/
def EINVAL : ℤ := 22
def ENOMEM : ℤ := 12

section Code

variable {δ : Type} (setPage : δ → ℕ → Option δ) (pageSize : ℕ)

/-- The `do` loop of `ib_sg_to_pages`, entered at its start; `none` if it ran to its end, else the
    `prev_addr` at which `set_page` failed. It ends at the latest when `set_page` fails. -/
def pageLoop (endDmaAddr : ℕ) : ℕ → δ → ℕ → ℕ → δ × Option ℕ
  | 0, mr, _, prevAddr => (mr, some prevAddr)
  | fuel + 1, mr, pageAddr, prevAddr =>
    match setPage mr pageAddr with
    | none => (mr, some prevAddr)
    | some mr =>
      let prevAddr := pageAddr
      let pageAddr := toU 64 (pageAddr + pageSize : ℕ)
      if pageAddr < endDmaAddr then pageLoop endDmaAddr fuel mr pageAddr prevAddr
      else (mr, none)

/-- The pages of one element; an element that is coalesced with the last enters at `next_page`. -/
def elemPages (coalesce : Bool) (endDmaAddr fuel : ℕ) (mr : δ) (pageAddr dmaAddr : ℕ) :
    δ × Option ℕ :=
  if coalesce then
    let pageAddr := toU 64 (pageAddr + pageSize : ℕ)
    if pageAddr < endDmaAddr then
      pageLoop setPage pageSize endDmaAddr fuel mr pageAddr dmaAddr
    else (mr, none)
  else pageLoop setPage pageSize endDmaAddr fuel mr pageAddr dmaAddr

/-- What `ib_sg_to_pages` leaves behind: the length of the MR, the page vector of the driver, the
    offset for `*sg_offset_p` and the return value. -/
structure Mapped (δ : Type) where
  length : ℕ
  mr : δ
  sgOffset : ℕ
  n : ℤ

/-- The loop of `ib_sg_to_pages` over the elements. -/
def sgLoop (fuel : ℕ) : List Seg → ℕ → ℕ → ℕ → ℕ → ℕ → δ → Mapped δ
  | [], i, _, _, _, length, mr => ⟨length, mr, 0, i⟩
  | sg :: sgl, i, sgOffset, lastEndDmaAddr, lastPageOff, length, mr =>
    let dmaAddr := toU 64 (sg.addr + sgOffset : ℕ)
    let dmaLen := toU 32 ((sg.len : ℤ) - sgOffset)
    let endDmaAddr := toU 64 (dmaAddr + dmaLen : ℕ)
    let pageAddr := dmaAddr / pageSize * pageSize
    let unaligned := decide (i ≠ 0 ∧ (lastPageOff ≠ 0 ∨ pageAddr ≠ dmaAddr))
    if unaligned ∧ lastEndDmaAddr ≠ dmaAddr then ⟨length, mr, 0, i⟩
    else
      match elemPages setPage pageSize unaligned endDmaAddr fuel mr pageAddr dmaAddr with
      | (mr, some prevAddr) =>
        let sgOffset := toU 32 ((prevAddr : ℤ) - sg.addr)
        ⟨toU 64 (length + ((prevAddr : ℤ) - dmaAddr)), mr, sgOffset,
          if i ≠ 0 ∨ sgOffset ≠ 0 then i else -ENOMEM⟩
      | (mr, none) =>
        sgLoop fuel sgl (i + 1) 0 endDmaAddr (endDmaAddr % pageSize)
          (toU 64 (length + dmaLen : ℕ)) mr

/-- `ib_sg_to_pages`; the MR by its `iova`, its `length` and the driver's page vector. The offset
    pointer may be NULL. -/
def ibSgToPages (fuel iova length : ℕ) (mr : δ) (sgl : List Seg) (sgOffsetP : Option ℕ) :
    ℕ × Mapped δ × Option ℕ :=
  let sgOffset := sgOffsetP.getD 0
  match sgl with
  | [] => (iova, ⟨length, mr, sgOffset, -EINVAL⟩, sgOffsetP)
  | sg :: _ =>
    if sgOffset > sg.len then (iova, ⟨length, mr, sgOffset, -EINVAL⟩, sgOffsetP)
    else
      let r := sgLoop setPage pageSize fuel sgl 0 sgOffset 0 0 0 mr
      (toU 64 (sg.addr + sgOffset : ℕ), r, sgOffsetP.map fun _ => r.sgOffset)

end Code

/-! ### Where the page vector ends -/

/-- How a list fares: all of it in so many pages, a gap, or a vector that is full at an offset into
    one of the elements. -/
inductive Outcome where | all (pages : ℕ) | gap | full (off : ℕ)
  deriving DecidableEq

/-- An element that starts at `a` can follow one that ends at `b`. -/
def Follows (ps a : ℕ) : Option ℕ → Prop
  | none => True
  | some b => b = a ∨ b % ps = 0 ∧ a % ps = 0

instance (ps a : ℕ) : ∀ last, Decidable (Follows ps a last)
  | none => instDecidableTrue
  | some _ => inferInstanceAs (Decidable (_ ∨ _))

/-- The number of the first page that an element at `a` adds. -/
def firstNew (ps a : ℕ) : Option ℕ → ℕ
  | none => a / ps
  | some b => if b % ps = 0 then a / ps else a / ps + 1

/-- The outcome for the elements behind one that ended at `last`, with `used` of `cap` pages. -/
def outcome (ps cap : ℕ) : List Seg → ℕ → Option ℕ → ℕ → Outcome
  | [], _, _, used => .all used
  | sg :: sgl, off, last, used =>
    let f := firstNew ps (sg.addr + off) last
    let e := pageEnd ps (sg.addr + sg.len)
    if ¬ Follows ps (sg.addr + off) last then .gap
    else if used + (e - f) ≤ cap then
      outcome ps cap sgl 0 (some (sg.addr + sg.len)) (used + (e - f))
    else
      .full (if used = cap then off else toU 32 (((f + (cap - used) - 1) * ps : ℕ) - (sg.addr : ℤ)))

/-- The offset that the outcome leaves in `*sg_offset_p`. -/
def Outcome.offset : Outcome → ℕ
  | .full off => off
  | _ => 0

theorem outcome_offset_lt {ps cap : ℕ} (sgl : List Seg) : ∀ (off : ℕ) (last : Option ℕ) (used : ℕ),
    off < 2 ^ 32 → (outcome ps cap sgl off last used).offset < 2 ^ 32 := by
  induction sgl with
  | nil => exact fun _ _ _ _ => Nat.two_pow_pos 32
  | cons sg sgl ih =>
    intro off last used hoff
    rw [outcome]
    split
    · exact Nat.two_pow_pos 32
    · split
      · exact ih _ _ _ (Nat.two_pow_pos 32)
      · simp only [Outcome.offset]
        split
        · exact hoff
        · unfold toU
          omega

/-! ### The loops -/

/-- What the driver's `set_page` does: it appends a page to the vector, up to `cap` pages. -/
structure Setter {δ : Type} (setPage : δ → ℕ → Option δ) (Good : δ → List ℕ → Prop) (cap : ℕ) :
    Prop where
  push : ∀ {mr pv} a, Good mr pv → pv.length < cap →
    ∃ mr', setPage mr a = some mr' ∧ Good mr' (pv ++ [a])
  full : ∀ {mr pv} a, Good mr pv → pv.length = cap → setPage mr a = none

section Spec

variable {δ : Type} {setPage : δ → ℕ → Option δ} {Good : δ → List ℕ → Prop} {ps cap e : ℕ}

section
variable (hs : Setter setPage Good cap) (hps : 0 < ps) (he : pageEnd ps e * ps < 2 ^ 64)
include hs hps he

/-- TURN: while there is room, a turn appends its page and goes on to the next one. -/
theorem pageLoop_turn (fuel f prev : ℕ) {mr : δ} {pv : List ℕ} (hg : Good mr pv)
    (hroom : pv.length < cap) (hf : f < pageEnd ps e) :
    ∃ mr', Good mr' (pv ++ [f * ps]) ∧ pageLoop setPage ps e (fuel + 1) mr (f * ps) prev =
      if f + 1 < pageEnd ps e then pageLoop setPage ps e fuel mr' ((f + 1) * ps) (f * ps)
      else (mr', none) := by
  obtain ⟨mr', hset, hg'⟩ := hs.push (f * ps) hg hroom
  have hnext : toU 64 (f * ps + ps : ℕ) = (f + 1) * ps := by
    rw [Nat.succ_mul]
    refine toU_of_lt (lt_of_le_of_lt ?_ he)
    rw [← Nat.succ_mul]
    exact Nat.mul_le_mul_right _ hf
  refine ⟨mr', hg', ?_⟩
  simp only [pageLoop, hset, hnext, lt_pageEnd_iff hps]

/-- The `do` loop appends the pages up to the end of the element, or as many as fit. -/
theorem pageLoop_spec (n : ℕ) : ∀ (fuel f : ℕ) (mr : δ) (pv : List ℕ) (prev : ℕ),
    Good mr pv → pv.length ≤ cap → cap - pv.length < fuel → f + (n + 1) = pageEnd ps e →
    (pv.length + (n + 1) ≤ cap → ∃ mr', pageLoop setPage ps e fuel mr (f * ps) prev = (mr', none) ∧
      Good mr' (pv ++ pagesFrom ps f (n + 1))) ∧
    (cap < pv.length + (n + 1) → ∃ mr', pageLoop setPage ps e fuel mr (f * ps) prev =
      (mr', some (if pv.length = cap then prev else (f + (cap - pv.length) - 1) * ps)) ∧
      Good mr' (pv ++ pagesFrom ps f (cap - pv.length))) := by
  induction n with
  | zero =>
    intro fuel f mr pv prev hg hcap hfuel hf
    obtain ⟨fuel, rfl⟩ : ∃ k, fuel = k + 1 := ⟨fuel - 1, by omega⟩
    refine ⟨fun hfit => ?_, fun hfull => ?_⟩
    · obtain ⟨mr', hg', hloop⟩ := pageLoop_turn hs hps he fuel f prev hg (by omega) (by omega)
      exact ⟨mr', by rw [hloop, if_neg (by omega)], by rwa [pagesFrom_succ, pagesFrom_zero]⟩
    · have hlen : pv.length = cap := by omega
      exact ⟨mr, by simp only [pageLoop, hs.full _ hg hlen, hlen, if_true], by simpa [hlen] using hg⟩
  | succ n ih =>
    intro fuel f mr pv prev hg hcap hfuel hf
    obtain ⟨fuel, rfl⟩ : ∃ k, fuel = k + 1 := ⟨fuel - 1, by omega⟩
    rcases Nat.eq_or_lt_of_le hcap with hlen | hroom
    · refine ⟨fun hfit => by omega, fun _ => ⟨mr, ?_, by simpa [hlen] using hg⟩⟩
      simp only [pageLoop, hs.full _ hg hlen, hlen, if_true]
    · obtain ⟨mr', hg', hloop⟩ := pageLoop_turn hs hps he fuel f prev hg hroom (by omega)
      have hlen' : (pv ++ [f * ps]).length = pv.length + 1 := by simp
      obtain ⟨hall, hstop⟩ := ih fuel (f + 1) mr' (pv ++ [f * ps]) (f * ps) hg' (by omega)
        (by omega) (by omega)
      rw [hloop, if_pos (by omega)]
      refine ⟨fun hfit => ?_, fun hfull => ?_⟩
      · obtain ⟨mr'', heq, hg''⟩ := hall (by omega)
        exact ⟨mr'', heq, by rw [pagesFrom_succ]; simpa using hg''⟩
      · obtain ⟨mr'', heq, hg''⟩ := hstop (by omega)
        refine ⟨mr'', heq.trans ?_, ?_⟩
        · rw [hlen', if_neg (by omega : pv.length ≠ cap)]
          by_cases hlast : pv.length + 1 = cap
          · rw [if_pos hlast, show f + (cap - pv.length) - 1 = f by omega]
          · rw [if_neg hlast, show f + 1 + (cap - (pv.length + 1)) - 1 =
              f + (cap - pv.length) - 1 by omega]
        · rw [show cap - pv.length = cap - (pv.length + 1) + 1 by omega, pagesFrom_succ]
          simpa using hg''

/-- The pages of one element, whichever way the loop is entered. -/
theorem elemPages_spec {fuel a f : ℕ} {coalesce : Bool} {mr : δ} {pv : List ℕ}
    (hg : Good mr pv) (hcap : pv.length ≤ cap) (hfuel : cap < fuel) (ha : a < e)
    (hf : f = a / ps + if coalesce then 1 else 0) : (pv.length + (pageEnd ps e - f) ≤ cap →
      ∃ mr', elemPages setPage ps coalesce e fuel mr (a / ps * ps) a = (mr', none) ∧
        Good mr' (pv ++ pagesFrom ps f (pageEnd ps e - f))) ∧
    (cap < pv.length + (pageEnd ps e - f) →
      ∃ mr', elemPages setPage ps coalesce e fuel mr (a / ps * ps) a =
        (mr', some (if pv.length = cap then a else (f + (cap - pv.length) - 1) * ps)) ∧
        Good mr' (pv ++ pagesFrom ps f (cap - pv.length))) := by
  have hlt : a / ps < pageEnd ps e :=
    (lt_pageEnd_iff hps).mpr (lt_of_le_of_lt (Nat.div_mul_le_self a ps) ha)
  have hloop := pageLoop_spec hs hps he
  cases coalesce with
  | false =>
    obtain rfl : f = a / ps := hf
    obtain ⟨n, hn⟩ : ∃ n, pageEnd ps e - a / ps = n + 1 := ⟨pageEnd ps e - a / ps - 1, by omega⟩
    rw [hn]
    exact hloop n fuel (a / ps) mr pv a hg hcap (by omega) (by omega)
  | true =>
    obtain rfl : f = a / ps + 1 := hf
    have hnext : toU 64 (a / ps * ps + ps : ℕ) = (a / ps + 1) * ps := by
      rw [Nat.succ_mul]
      refine toU_of_lt (lt_of_le_of_lt ?_ he)
      rw [← Nat.succ_mul]
      exact Nat.mul_le_mul_right _ hlt
    simp only [elemPages, if_true, hnext, ← lt_pageEnd_iff hps]
    rcases Nat.lt_or_ge (a / ps + 1) (pageEnd ps e) with hmore | hend
    · obtain ⟨n, hn⟩ : ∃ n, pageEnd ps e - (a / ps + 1) = n + 1 :=
        ⟨pageEnd ps e - (a / ps + 1) - 1, by omega⟩
      rw [if_pos hmore, hn]
      exact hloop n fuel (a / ps + 1) mr pv a hg hcap (by omega) (by omega)
    · rw [if_neg (by omega), show pageEnd ps e - (a / ps + 1) = 0 by omega]
      exact ⟨fun _ => ⟨mr, rfl, by simpa using hg⟩, fun hfull => by omega⟩

end

/-- An element that no arithmetic of the loops wraps around on. -/
structure Small (ps : ℕ) (sg : Seg) : Prop where
  len : sg.len < 2 ^ 32
  pos : 0 < sg.len
  addr : pageEnd ps (sg.addr + sg.len) * ps < 2 ^ 64

theorem Small.end_lt (hps : 0 < ps) {sg : Seg} (h : Small ps sg) : sg.addr + sg.len < 2 ^ 64 :=
  lt_of_le_of_lt ((pageEnd_le_iff hps).mp le_rfl) h.addr

/-- The bytes so far end at `last`, in the last page of the vector or at the end of it. -/
def Ends (ps o : ℕ) (segs : List Seg) (pv : List ℕ) : Option ℕ → Prop
  | none => segs = [] ∧ pv = []
  | some b => segs ≠ [] ∧ (o + total segs) % ps = b % ps ∧
    (b % ps ≠ 0 → pv[(o + total segs) / ps]? = some (b / ps * ps))

/-- An element that can follow starts in the same place of a page at which the bytes so far end, and
    the pages it shares with them are counted by `firstNew`. -/
theorem Ends.follows {o a : ℕ} {segs : List Seg} {pv : List ℕ} {last : Option ℕ} (hps : 0 < ps)
    (hcov : Covers ps o segs pv) (hends : Ends ps o segs pv last) (hfol : Follows ps a last)
    (hstart : last = none → o = a % ps) :
    (o + total segs) % ps = a % ps ∧
    (pv.length = (o + total segs) / ps ∨ pv.length = (o + total segs) / ps + 1 ∧
      pv[(o + total segs) / ps]? = some (a / ps * ps)) ∧
    firstNew ps a last = a / ps + (pv.length - (o + total segs) / ps) := by
  cases last with
  | none =>
    obtain ⟨rfl, rfl⟩ := hends
    obtain rfl := hstart rfl
    have hlt := Nat.div_eq_of_lt (Nat.mod_lt a hps)
    simp [firstNew]
  | some b =>
    obtain ⟨hne, hmod, hpage⟩ := hends
    have hcount := hcov.count hne
    have hdiv := Nat.div_add_mod' (o + total segs) ps
    have hlt := Nat.mod_lt (o + total segs) hps
    by_cases hb : b % ps = 0
    · have ha : a % ps = 0 := by
        rcases hfol with rfl | h
        · exact hb
        · exact h.2
      have hlen : pv.length = (o + total segs) / ps := by
        rw [hcount]
        exact Nat.div_eq_of_lt_le (by omega) (by rw [Nat.succ_mul]; omega)
      exact ⟨by omega, .inl hlen, by rw [firstNew, if_pos hb, hlen, Nat.sub_self, Nat.add_zero]⟩
    · obtain rfl : b = a := hfol.resolve_right fun h => hb h.1
      have hlen : pv.length = (o + total segs) / ps + 1 := by
        rw [hcount]
        exact Nat.div_eq_of_lt_le (by rw [Nat.succ_mul]; omega) (by
          rw [Nat.succ_mul, Nat.succ_mul]; omega)
      refine ⟨hmod, .inr ⟨hlen, hpage hb⟩, ?_⟩
      rw [firstNew, if_neg hb, hlen]
      omega

/-- STEP: the pages from `firstNew` on bring the vector to the end of the element. -/
theorem Ends.snoc {o a l : ℕ} {segs : List Seg} {pv : List ℕ} {last : Option ℕ} (hps : 0 < ps)
    (hcov : Covers ps o segs pv) (hends : Ends ps o segs pv last) (hfol : Follows ps a last)
    (hstart : last = none → o = a % ps) (hl : 0 < l) {pv' : List ℕ}
    (hpv : pv' =
      pv ++ pagesFrom ps (firstNew ps a last) (pageEnd ps (a + l) - firstNew ps a last)) :
    Covers ps o (segs ++ [⟨a, l⟩]) pv' ∧ Ends ps o (segs ++ [⟨a, l⟩]) pv' (some (a + l)) := by
  obtain ⟨hmod, hshare, hfirst⟩ := hends.follows hps hcov hfol hstart
  have hshift := pageEnd_shift hps (l := l) hmod
  have hcov' := hcov.snoc hps rfl hmod hl hshare
  rw [← hfirst, show pageEnd ps (o + total segs + l) - pv.length =
    pageEnd ps (a + l) - firstNew ps a last by omega, ← hpv] at hcov'
  have htotal : o + total (segs ++ [⟨a, l⟩]) = o + total segs + l := by
    simp only [total_append, total_cons, total_nil]
    omega
  refine ⟨hcov', by simp, ?_, fun hne => ?_⟩
  · rw [htotal]
    exact Nat.ModEq.add_right _ hmod
  · rw [htotal]
    exact hcov'.last hps hmod hl hne

/-- The tests of the code on the element before and this one. -/
theorem unaligned_spec {i le lo a : ℕ} {last : Option ℕ} (hi : last = none ↔ i = 0)
    (hlast : ∀ b, last = some b → le = b ∧ lo = b % ps) :
    let unaligned := decide (i ≠ 0 ∧ (lo ≠ 0 ∨ a / ps * ps ≠ a))
    (unaligned = true ∧ le ≠ a ↔ ¬ Follows ps a last) ∧
      (Follows ps a last → firstNew ps a last = a / ps + if unaligned = true then 1 else 0) := by
  have halign : a / ps * ps ≠ a ↔ a % ps ≠ 0 := by
    have := Nat.div_add_mod' a ps
    omega
  cases last with
  | none =>
    obtain rfl : i = 0 := hi.mp rfl
    simp [Follows, firstNew]
  | some b =>
    obtain ⟨rfl, rfl⟩ := hlast b rfl
    have hi0 : i ≠ 0 := fun h => Option.some_ne_none le (hi.mpr h)
    simp only [decide_eq_true_eq, Follows, firstNew]
    refine ⟨by omega, fun hfol => ?_⟩
    by_cases hb : le % ps = 0
    · rw [if_pos hb, if_neg (by
        rcases hfol with rfl | h
        · omega
        · omega)]
      rfl
    · rw [if_neg hb, if_pos ⟨hi0, .inl hb⟩]

/-- RUN: the loop over the elements ends as `outcome` says, and if it takes all of them the vector
    holds their bytes. -/
theorem sgLoop_spec (hs : Setter setPage Good cap) (hps : 0 < ps) {fuel o : ℕ} (hfuel : cap < fuel)
    (sgl : List Seg) : ∀ (i off le lo len : ℕ) (last : Option ℕ) (mr : δ) (pv : List ℕ)
    (segs : List Seg), Good mr pv → pv.length ≤ cap → Covers ps o segs pv → Ends ps o segs pv last →
    (last = none ↔ i = 0) → (∀ b, last = some b → le = b ∧ lo = b % ps) →
    (∀ sg ∈ sgl.head?, off < sg.len ∧ (last = none → o = (sg.addr + off) % ps)) →
    (∀ sg ∈ sgl, Small ps sg) → len + total sgl < 2 ^ 64 →
    match outcome ps cap sgl off last pv.length with
    | .all used => ∃ mr' pv', sgLoop setPage ps fuel sgl i off le lo len mr =
          ⟨len + total (skip off sgl), mr', 0, (i + sgl.length : ℕ)⟩ ∧ Good mr' pv' ∧
        pv'.length = used ∧ used ≤ cap ∧ Covers ps o (segs ++ skip off sgl) pv'
    | r => (sgLoop setPage ps fuel sgl i off le lo len mr).sgOffset = r.offset ∧
        (sgLoop setPage ps fuel sgl i off le lo len mr).n < (i + sgl.length : ℕ) := by
  induction sgl with
  | nil =>
    intro i off le lo len last mr pv segs hg hcap hcov _ _ _ _ _ _
    exact ⟨mr, pv, rfl, hg, rfl, hcap, by simpa [skip] using hcov⟩
  | cons sg sgl ih =>
    intro i off le lo len last mr pv segs hg hcap hcov hends hi hlast hhead hsmall hlen
    obtain ⟨hoff, hstart⟩ := hhead sg rfl
    have hsg := hsmall sg (List.mem_cons_self ..)
    have hend := hsg.end_lt hps
    have hl32 := hsg.len
    have haddr : toU 64 (sg.addr + off : ℕ) = sg.addr + off := toU_of_lt (by omega)
    have hdlen : toU 32 ((sg.len : ℤ) - off) = sg.len - off := toU_sub hsg.len hoff.le
    have hdend : toU 64 (sg.addr + off + (sg.len - off) : ℕ) = sg.addr + sg.len := by
      rw [show sg.addr + off + (sg.len - off) = sg.addr + sg.len by omega]
      exact toU_of_lt hend
    obtain ⟨hgap, hnew⟩ := unaligned_spec (a := sg.addr + off) hi hlast
    simp only [outcome, sgLoop, haddr, hdlen, hdend]
    by_cases hfol : Follows ps (sg.addr + off) last
    · rw [if_neg (not_not.mpr hfol), if_neg (fun h => hgap.mp h hfol)]
      obtain ⟨hall, hstop⟩ := elemPages_spec hs hps hsg.addr hg hcap hfuel
        (by omega : sg.addr + off < sg.addr + sg.len) (hnew hfol)
      have hal : sg.addr + off + (sg.len - off) = sg.addr + sg.len := by omega
      by_cases hfit : pv.length + (pageEnd ps (sg.addr + sg.len) -
          firstNew ps (sg.addr + off) last) ≤ cap
      · obtain ⟨mr', heq, hg'⟩ := hall hfit
        obtain ⟨hcov', hends'⟩ := hends.snoc hps hcov hfol hstart (by omega : 0 < sg.len - off)
          (by rw [hal])
        have hcount : toU 64 (len + (sg.len - off) : ℕ) = len + (sg.len - off) := by
          refine toU_of_lt ?_
          rw [total_cons] at hlen
          omega
        have hrest := ih (i + 1) 0 (sg.addr + sg.len) ((sg.addr + sg.len) % ps)
          (len + (sg.len - off)) (some (sg.addr + sg.len)) mr' _ _ hg' (by simpa using hfit) hcov'
          (hal ▸ hends') (by simp) (by rintro b ⟨⟩; exact ⟨rfl, rfl⟩)
          (fun s hs' => ⟨(hsmall s (List.mem_cons_of_mem _ (List.mem_of_mem_head? hs'))).pos,
            fun h => absurd h (Option.some_ne_none _)⟩)
          (fun s hs' => hsmall s (List.mem_cons_of_mem _ hs'))
          (by rw [total_cons] at hlen; omega)
        rw [List.length_append, pagesFrom_length, skip_zero, List.append_assoc] at hrest
        simp only [if_pos hfit, heq, hcount, skip, total_cons, List.length_cons]
        rw [show i + (sgl.length + 1) = i + 1 + sgl.length by omega, ← Nat.add_assoc len]
        exact hrest
      · obtain ⟨mr', heq, -⟩ := hstop (by omega)
        rw [if_neg hfit, heq]
        refine ⟨?_, ?_⟩
        · simp only
          split_ifs with hfull
          · rw [Nat.cast_add, add_sub_cancel_left]
            exact toU_of_lt (by omega)
          · rfl
        · simp only [List.length_cons, ENOMEM]
          split_ifs <;> omega
    · rw [if_pos hfol, if_pos (hgap.mpr hfol)]
      refine ⟨rfl, ?_⟩
      simp only [List.length_cons]
      omega

/-- CORRECT: from its start offset on, the list is in the page vector, or the call stops short of
    the end of the list and leaves the offset of `outcome` behind. -/
theorem ibSgToPages_spec (hs : Setter setPage Good cap) (hps : 0 < ps) {fuel iova length : ℕ}
    (hfuel : cap < fuel) {mr : δ} (hg : Good mr []) {sg : Seg} {sgl : List Seg} {p : Option ℕ}
    (hoff : p.getD 0 < sg.len) (hsmall : ∀ s ∈ sg :: sgl, Small ps s)
    (hlen : total (sg :: sgl) < 2 ^ 64) :
    match outcome ps cap (sg :: sgl) (p.getD 0) none 0 with
    | .all used => ∃ mr' pv', ibSgToPages setPage ps fuel iova length mr (sg :: sgl) p =
          (sg.addr + p.getD 0, ⟨total (skip (p.getD 0) (sg :: sgl)), mr', 0, (sg :: sgl).length⟩,
            p.map fun _ => 0) ∧ Good mr' pv' ∧ pv'.length = used ∧ used ≤ cap ∧
        Covers ps ((sg.addr + p.getD 0) % ps) (skip (p.getD 0) (sg :: sgl)) pv'
    | r => ∃ iova' m, ibSgToPages setPage ps fuel iova length mr (sg :: sgl) p =
        (iova', m, p.map fun _ => r.offset) ∧ m.n < (sg :: sgl).length := by
  have hsg := hsmall sg (List.mem_cons_self ..)
  have hend := hsg.end_lt hps
  have haddr : toU 64 (sg.addr + p.getD 0 : ℕ) = sg.addr + p.getD 0 := toU_of_lt (by omega)
  have hrun := sgLoop_spec hs hps hfuel (sg :: sgl) 0 (p.getD 0) 0 0 0 none mr [] [] hg
    (Nat.zero_le _) ⟨fun x hx => absurd hx (Nat.not_lt_zero x), fun h => absurd rfl h,
      fun p hp => absurd hp List.not_mem_nil⟩ ⟨rfl, rfl⟩
    (by simp) (by simp) (by rintro s ⟨⟩; exact ⟨hoff, fun _ => rfl⟩) hsmall (by omega)
  simp only [Nat.zero_add] at hrun
  simp only [ibSgToPages, if_neg (by omega : ¬ p.getD 0 > sg.len), haddr]
  revert hrun
  cases outcome ps cap (sg :: sgl) (p.getD 0) none 0 with
  | all used =>
    rintro ⟨mr', pv', heq, hg', hrest⟩
    exact ⟨mr', pv', by rw [heq], hg', hrest⟩
  | gap =>
    rintro ⟨hoff', hn⟩
    exact ⟨_, _, by rw [hoff'], hn⟩
  | full off =>
    rintro ⟨hoff', hn⟩
    exact ⟨_, _, by rw [hoff'], hn⟩

end Spec

end RdmaDriver.SgPages
