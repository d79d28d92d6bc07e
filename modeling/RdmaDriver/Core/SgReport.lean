import Mathlib.Data.List.Chain
import RdmaDriver.Core.SgToPages

/-! @src drivers/infiniband/core/verbs.c | name:What ib_sg_to_pages reports | scheme:segments |
    family:translation

    `ib_sg_to_pages` returns the element `n` at which it stops and leaves in `*sg_offset_p` the
    offset `o` of the first byte of that element that is not mapped. It stops behind the last
    element, at a gap, or at a page that does not fit any more; it then goes back to the start of
    the last page that it could set. If that is the only page and the list starts inside of it, it
    goes back to a byte that lies before the list.

        pages      | set          | set          | full
        element          +------------------------------…
                   ↑ only one page set           ↑ more: the start of the last one
                   wraps to 2⁶⁴ - …                                              -/

namespace RdmaDriver.SgPages
open Schemes

/-- The list has no gap. -/
def GapFree (ps : ℕ) (sgl : List Seg) : Prop :=
  sgl.IsChain fun s t => Follows ps t.addr (some (s.addr + s.len))

/-- What is reported is what is mapped: the number of bytes up to byte `o` of element `n`, which are
    found through the page vector from offset `iova mod ps` on, with nothing behind a gap. -/
structure Exact (ps off : ℕ) (sgl : List Seg) (iova length o n : ℕ) (pv : List ℕ) : Prop where
  count : n ≤ sgl.length
  offset : o = 0 ∨ ∃ sg, sgl[n]? = some sg ∧ o < sg.len
  lengthEq : length + off = total (sgl.take n) + o
  bytes : ∀ x < length, pageByte ps pv (iova % ps + x) = byteAt sgl (off + x)
  gap : GapFree ps (sgl.take (if o = 0 then n else n + 1))
  pages : ∀ p ∈ pv, ∃ d s rest, sgl = d ++ s :: rest ∧ GapFree ps (d ++ [s]) ∧
    s.addr < p + ps ∧ p < s.addr + s.len

/-- The one page that fits is not enough for the first element, which starts inside of it, and the
    page does not start where the element does. -/
def Spills (ps cap off : ℕ) (sg : Seg) : Prop :=
  cap = 1 ∧ (sg.addr + off) % ps ≠ 0 ∧ (sg.addr + off) / ps + 1 < pageEnd ps (sg.addr + sg.len) ∧
    (sg.addr + off) / ps * ps ≠ sg.addr

instance (ps cap off : ℕ) (sg : Seg) : Decidable (Spills ps cap off sg) :=
  inferInstanceAs (Decidable (_ ∧ _ ∧ _ ∧ _))

/-! ### The loop between two elements -/

/-- A page of the vector holds a byte of an element that no gap separates from the first. -/
def Touched (ps : ℕ) (whole : List Seg) (p : ℕ) : Prop :=
  ∃ d s rest, whole = d ++ s :: rest ∧ GapFree ps (d ++ [s]) ∧ s.addr < p + ps ∧ p < s.addr + s.len

/-- The elements `done` are mapped as `segs`, the others are not; `off` is where the next starts. -/
structure At (ps o off₀ : ℕ) (whole done sgl : List Seg) (off : ℕ) (last : Option ℕ)
    (segs : List Seg) (pv : List ℕ) : Prop where
  split : whole = done ++ sgl
  left : skip off₀ whole = segs ++ skip off sgl
  count : total segs + off₀ = total done + off
  covers : Covers ps o segs pv
  ends : Ends ps o segs pv last
  first : last = none ↔ done = []
  behind : ∀ b, last = some b → off = 0 ∧ ∃ d s, done = d ++ [s] ∧ b = s.addr + s.len
  start : last = none → ∀ sg ∈ sgl.head?, o = (sg.addr + off) % ps
  gap : GapFree ps done
  pages : ∀ p ∈ pv, Touched ps whole p

section Loop

variable {ps cap o off₀ off iova f : ℕ} {whole done sgl segs : List Seg} {sg : Seg}
  {last : Option ℕ} {pv : List ℕ}

/-- The next element joins those before it. -/
theorem At.gap_snoc (h : At ps o off₀ whole done (sg :: sgl) off last segs pv)
    (hfol : Follows ps (sg.addr + off) last) : GapFree ps (done ++ [sg]) := by
  refine List.isChain_append.mpr ⟨h.gap, List.isChain_singleton _, fun x hx y hy => ?_⟩
  obtain rfl : sg = y := Option.some.inj hy
  cases last with
  | none =>
    rw [h.first.mp rfl] at hx
    exact absurd hx (by simp)
  | some b =>
    obtain ⟨rfl, d, s, rfl, rfl⟩ := h.behind b rfl
    rw [List.getLast?_concat] at hx
    obtain rfl : s = x := Option.some.inj hx
    exact hfol

section
variable (hps : 0 < ps) (h : At ps o off₀ whole done (sg :: sgl) off last segs pv)
  (hfol : Follows ps (sg.addr + off) last)
include hps h hfol

/-- The pages from `firstNew` on that belong to an element touch it. -/
theorem At.touched {n : ℕ} (hf : (sg.addr + off) / ps ≤ f)
    (hn : f + n ≤ pageEnd ps (sg.addr + sg.len)) :
    ∀ p ∈ pv ++ pagesFrom ps f n, Touched ps whole p := by
  intro p hp
  rcases List.mem_append.mp hp with hp | hp
  · exact h.pages p hp
  · obtain ⟨j, hj, rfl⟩ := List.mem_map.mp hp
    have hj' := List.mem_range.mp hj
    refine ⟨done, sg, sgl, h.split, h.gap_snoc hfol, ?_, (lt_pageEnd_iff hps).mp (by omega)⟩
    have hdm := Nat.div_add_mod' (sg.addr + off) ps
    have hlt := Nat.mod_lt (sg.addr + off) hps
    have hle : (sg.addr + off) / ps * ps ≤ (f + j) * ps := Nat.mul_le_mul_right ps (by omega)
    omega

theorem At.firstNew_le : (sg.addr + off) / ps ≤ firstNew ps (sg.addr + off) last := by
  obtain ⟨-, -, hfirst⟩ := h.ends.follows hps h.covers hfol fun hl => h.start hl sg rfl
  omega

/-- STEP: an element that fits is mapped. -/
theorem At.next (hoff : off < sg.len) (hf : f = firstNew ps (sg.addr + off) last) :
    At ps o off₀ whole (done ++ [sg]) sgl 0 (some (sg.addr + sg.len))
      (segs ++ [⟨sg.addr + off, sg.len - off⟩])
      (pv ++ pagesFrom ps f (pageEnd ps (sg.addr + sg.len) - f)) := by
  have hal : sg.addr + off + (sg.len - off) = sg.addr + sg.len := by omega
  have hle := h.firstNew_le hps hfol
  obtain ⟨hcov, hends⟩ := h.ends.snoc hps h.covers hfol (fun hl => h.start hl sg rfl)
    (by omega : 0 < sg.len - off) (by rw [hal, ← hf])
  rw [hal] at hends
  constructor
  · rw [h.split, List.append_assoc, List.singleton_append]
  · rw [h.left, List.append_assoc, skip_zero]
    rfl
  · have := h.count
    simp only [total_append, total_cons]
    omega
  · exact hcov
  · exact hends
  · simp
  · rintro b ⟨⟩
    exact ⟨rfl, done, sg, rfl, rfl⟩
  · exact fun hno => absurd hno (Option.some_ne_none _)
  · exact h.gap_snoc hfol
  · rcases Nat.lt_or_ge (pageEnd ps (sg.addr + sg.len)) f with hlt | hge
    · rw [show pageEnd ps (sg.addr + sg.len) - f = 0 by omega, pagesFrom_zero, List.append_nil]
      exact h.pages
    · exact h.touched hps hfol (hf ▸ hle) (by omega)

end

/-- Between two elements, what is reported is what is mapped. -/
theorem At.exact (hhead : ∀ s ∈ whole.head?, off₀ < s.len)
    (h : At ps (iova % ps) off₀ whole done sgl 0 last segs pv) :
    Exact ps off₀ whole iova (total segs) 0 done.length pv := by
  have htake : whole.take done.length = done := by rw [h.split, List.take_left]
  refine ⟨?_, .inl rfl, ?_, fun x hx => ?_, ?_, h.pages⟩
  · rw [h.split, List.length_append]
    omega
  · rw [htake, h.count]
  · rw [← byteAt_skip hhead, h.left, byteAt_append_left hx]
    exact h.covers.bytes x hx
  · rw [if_pos rfl, htake]
    exact h.gap

/-- STOP: where a page could not be set, the bytes up to `prev`, the start of the last page that
    could, are what is reported. -/
theorem At.stop (hps : 0 < ps) (hhead : ∀ s ∈ whole.head?, off₀ < s.len)
    (h : At ps (iova % ps) off₀ whole done (sg :: sgl) off last segs pv)
    (hfol : Follows ps (sg.addr + off) last) (hoff : off < sg.len)
    (hf : f = firstNew ps (sg.addr + off) last) (hcap : pv.length ≤ cap)
    (hfull : cap < pv.length + (pageEnd ps (sg.addr + sg.len) - f)) {l : ℕ}
    (hprev : (if pv.length = cap then sg.addr + off else (f + (cap - pv.length) - 1) * ps) =
      sg.addr + off + l) :
    off + l < sg.len ∧ Exact ps off₀ whole iova (total segs + l) (off + l) done.length
      (pv ++ pagesFrom ps f (cap - pv.length)) := by
  have hle := h.firstNew_le hps hfol
  have hlt : off + l < sg.len := by
    split_ifs at hprev with hroom
    · omega
    · have hlast : (f + (cap - pv.length) - 1) * ps < sg.addr + sg.len :=
        (lt_pageEnd_iff hps).mp (by omega)
      omega
  have hget : whole[done.length]? = some sg := by
    rw [h.split, List.getElem?_append_right le_rfl, Nat.sub_self]
    rfl
  have htake : whole.take done.length = done := by rw [h.split, List.take_left]
  refine ⟨hlt, ?_, .inr ⟨sg, hget, hlt⟩, ?_, fun x hx => ?_, ?_, ?_⟩
  · rw [h.split, List.length_append]
    omega
  · rw [htake]
    have := h.count
    omega
  · rw [← byteAt_skip hhead, h.left, skip, byteAt_cut (by simp only; omega) hx]
    rcases Nat.eq_zero_or_pos l with rfl | hl
    · rw [byteAt_append_left (by simpa using hx)]
      exact h.covers.bytes_append (by simpa using hx)
    · -- all pages but the last hold the bytes up to its start
      have hroom : pv.length ≠ cap := fun heq => by
        rw [if_pos heq] at hprev
        omega
      rw [if_neg hroom] at hprev
      obtain ⟨n, hn⟩ : ∃ n, cap - pv.length = n + 1 := ⟨cap - pv.length - 1, by omega⟩
      rw [hn, ← Nat.add_assoc, Nat.add_sub_cancel] at hprev
      obtain ⟨hcov, -⟩ := h.ends.snoc hps h.covers hfol (fun hl' => h.start hl' sg rfl) hl
        (by rw [← hf, ← hprev, pageEnd_mul hps, Nat.add_sub_cancel_left])
      rw [hn, pagesFrom_snoc, ← List.append_assoc]
      exact hcov.bytes_append (by simpa [total_append] using hx)
  · split_ifs with h0
    · rw [htake]
      exact h.gap
    · rw [h.split, List.take_append, List.take_of_length_le (by omega),
        show done.length + 1 - done.length = 1 by omega]
      exact h.gap_snoc hfol
  · exact h.touched hps hfol (hf ▸ hle) (by omega)

end Loop

section Run

variable {δ : Type} {setPage : δ → ℕ → Option δ} {Good : δ → List ℕ → Prop}
  {ps cap off₀ iova : ℕ} {whole : List Seg}

/-- The arithmetic of one turn for an element that does not wrap around. -/
theorem turn_eq (hps : 0 < ps) {sg : Seg} (hsg : Small ps sg) {off : ℕ} (hoff : off < sg.len) :
    toU 64 (sg.addr + off : ℕ) = sg.addr + off ∧ toU 32 ((sg.len : ℤ) - off) = sg.len - off ∧
      toU 64 (sg.addr + off + (sg.len - off) : ℕ) = sg.addr + sg.len := by
  have hend := hsg.end_lt hps
  refine ⟨toU_of_lt (by omega), toU_sub hsg.len hoff.le, ?_⟩
  rw [show sg.addr + off + (sg.len - off) = sg.addr + sg.len by omega]
  exact toU_of_lt hend

/-- The offset and the length that are reported where a page could not be set. -/
theorem stop_eq {addr off l len : ℕ} (hoff : off + l < 2 ^ 32) (hlen : len + l < 2 ^ 64) :
    toU 32 (((addr + off + l : ℕ) : ℤ) - addr) = off + l ∧
      toU 64 (len + (((addr + off + l : ℕ) : ℤ) - (addr + off : ℕ))) = len + l := by
  constructor
  · rw [show ((addr + off + l : ℕ) : ℤ) - addr = (off + l : ℕ) by push_cast; ring]
    exact toU_of_lt hoff
  · rw [show (len : ℤ) + (((addr + off + l : ℕ) : ℤ) - (addr + off : ℕ)) = (len + l : ℕ) by
      push_cast; ring]
    exact toU_of_lt hlen

/-- From the second element on the last page that could be set does not start before the element. -/
theorem stop_ge (hps : 0 < ps) {a b k : ℕ} (hfol : Follows ps a (some b)) (hk : 0 < k) :
    a ≤ (firstNew ps a (some b) + k - 1) * ps := by
  have hdm := Nat.div_add_mod' a ps
  have hlt := Nat.mod_lt a hps
  obtain ⟨m, rfl⟩ := Nat.exists_eq_add_of_le' hk
  by_cases hb : b % ps = 0
  · have ha : a % ps = 0 := by
      rcases hfol with rfl | h
      · exact hb
      · exact h.2
    have hle : a / ps * ps ≤ (a / ps + m) * ps := Nat.mul_le_mul_right ps (Nat.le_add_right _ _)
    rw [firstNew, if_pos hb, ← Nat.add_assoc, Nat.add_sub_cancel]
    omega
  · have hle : (a / ps + 1) * ps ≤ (a / ps + 1 + m) * ps :=
      Nat.mul_le_mul_right ps (Nat.le_add_right _ _)
    rw [firstNew, if_neg hb, ← Nat.add_assoc, Nat.add_sub_cancel]
    rw [Nat.succ_mul] at hle
    omega

/-- RUN: from the second element on, what is reported is what is mapped. -/
theorem sgLoop_exact (hs : Setter setPage Good cap) (hps : 0 < ps) {fuel : ℕ} (hfuel : cap < fuel)
    (hhead : ∀ s ∈ whole.head?, off₀ < s.len) (sgl : List Seg) : ∀ (done : List Seg) (le lo : ℕ)
    (b : ℕ) (mr : δ) (pv : List ℕ) (segs : List Seg), Good mr pv → pv.length ≤ cap →
    At ps (iova % ps) off₀ whole done sgl 0 (some b) segs pv → le = b ∧ lo = b % ps →
    (∀ sg ∈ sgl, Small ps sg) → total segs + total sgl < 2 ^ 64 →
    let r := sgLoop setPage ps fuel sgl done.length 0 le lo (total segs) mr
    ∃ pv' n, Good r.mr pv' ∧ r.n = (n : ℕ) ∧
      Exact ps off₀ whole iova r.length r.sgOffset n pv' := by
  induction sgl with
  | nil =>
    intro done le lo b mr pv segs hg _ hat _ _ _
    exact ⟨pv, done.length, hg, rfl, hat.exact hhead⟩
  | cons sg sgl ih =>
    intro done le lo b mr pv segs hg hcap hat hlast hsmall htotal
    have hne : done ≠ [] := fun hnil => Option.some_ne_none b (hat.first.mpr hnil)
    have hi : some b = none ↔ done.length = 0 := by simp [hne]
    have hsg := hsmall sg List.mem_cons_self
    obtain ⟨haddr, hdlen, hdend⟩ := turn_eq hps hsg hsg.pos
    obtain ⟨hgap, hnew⟩ := @unaligned_spec ps done.length le lo (sg.addr + 0) _ hi
      (by rintro _ ⟨⟩; exact hlast)
    rw [total_cons] at htotal
    simp only [sgLoop, haddr, hdlen, hdend]
    by_cases hfol : Follows ps (sg.addr + 0) (some b)
    · rw [if_neg fun h => hgap.mp h hfol]
      obtain ⟨hall, hstop⟩ := elemPages_spec hs hps hsg.addr hg hcap hfuel
        (by have := hsg.pos; omega : sg.addr + 0 < sg.addr + sg.len) (hnew hfol)
      by_cases hfit : pv.length + (pageEnd ps (sg.addr + sg.len) -
          firstNew ps (sg.addr + 0) (some b)) ≤ cap
      · obtain ⟨mr', heq, hg'⟩ := hall hfit
        have hcount : toU 64 (total segs + (sg.len - 0) : ℕ) =
            total (segs ++ [⟨sg.addr + 0, sg.len - 0⟩]) := by
          rw [total_append, total_cons, total_nil, Nat.add_zero]
          exact toU_of_lt (by omega)
        have hrest := ih (done ++ [sg]) (sg.addr + sg.len) ((sg.addr + sg.len) % ps)
          (sg.addr + sg.len) mr' _ _ hg' (by simpa using hfit) (hat.next hps hfol hsg.pos rfl)
          ⟨rfl, rfl⟩ (fun s hs' => hsmall s (List.mem_cons_of_mem _ hs'))
          (by simp only [total_append, total_cons, total_nil]; omega)
        rw [List.length_append, List.length_singleton, ← hcount] at hrest
        simp only [heq]
        exact hrest
      · obtain ⟨mr', heq, hg'⟩ := hstop (by omega)
        obtain ⟨l, hl⟩ : ∃ l, (if pv.length = cap then sg.addr + 0 else
            (firstNew ps (sg.addr + 0) (some b) + (cap - pv.length) - 1) * ps) =
              sg.addr + 0 + l := by
          have hge := stop_ge hps hfol (k := cap - pv.length)
          split_ifs with hroom
          · exact ⟨0, rfl⟩
          · exact Nat.exists_eq_add_of_le (hge (by omega))
        obtain ⟨hlt, hexact⟩ := hat.stop hps hhead hfol hsg.pos rfl hcap (by omega) hl
        obtain ⟨hoff', hlen'⟩ := @stop_eq sg.addr 0 l (total segs) (by have := hsg.len; omega)
          (by omega)
        simp only [heq, hl, hoff', hlen']
        exact ⟨_, done.length, hg', if_pos (.inl (by simpa using hne)), hexact⟩
    · rw [if_pos (hgap.mpr hfol)]
      exact ⟨pv, done.length, hg, rfl, hat.exact hhead⟩

/-- Before the first element. -/
theorem at_first {sg : Seg} {sgl : List Seg} {off : ℕ} (ho : iova = sg.addr + off) :
    At ps (iova % ps) off (sg :: sgl) [] (sg :: sgl) off none [] [] := by
  constructor
  · rfl
  · rfl
  · rfl
  · exact ⟨fun x hx => absurd hx (Nat.not_lt_zero x), fun h => absurd rfl h,
      fun p hp => absurd hp List.not_mem_nil⟩
  · exact ⟨rfl, rfl⟩
  · simp
  · intro b hb
    cases hb
  · rintro - s ⟨⟩
    rw [ho]
  · exact .nil
  · exact fun p hp => absurd hp List.not_mem_nil

/-- FIRST: where a page of the first element could not be set, what is reported is what is mapped,
    unless the element spills over its one page. -/
theorem first_stop (hps : 0 < ps) (hps32 : ps < 2 ^ 32) {sg : Seg} {sgl : List Seg} {off : ℕ}
    (hoff : off < sg.len) (hsg : Small ps sg) (ho : iova = sg.addr + off)
    (hfull : cap < pageEnd ps (sg.addr + sg.len) - (sg.addr + off) / ps) :
    let prev := if 0 = cap then sg.addr + off else ((sg.addr + off) / ps + cap - 1) * ps
    let o := toU 32 ((prev : ℤ) - sg.addr)
    (o ≠ 0 → Exact ps off (sg :: sgl) iova (toU 64 ((0 : ℕ) + ((prev : ℤ) - (sg.addr + off : ℕ)))) o
      0 (pagesFrom ps ((sg.addr + off) / ps) cap)) ↔ ¬ Spills ps cap off sg := by
  intro prev o
  have hdm := Nat.div_add_mod' (sg.addr + off) ps
  have hlt := Nat.mod_lt (sg.addr + off) hps
  have hl32 := hsg.len
  by_cases hge : sg.addr + off ≤ prev
  · obtain ⟨l, hl⟩ := Nat.exists_eq_add_of_le hge
    obtain ⟨hin, hexact⟩ := (@at_first ps iova sg sgl off ho).stop (f := (sg.addr + off) / ps) hps
      (by rintro s ⟨⟩; exact hoff) trivial hoff rfl (Nat.zero_le _) (by simpa using hfull) hl
    obtain ⟨hoff', hlen'⟩ := @stop_eq sg.addr off l 0 (by omega) (by omega)
    refine ⟨fun _ hspill => ?_, fun _ _ => ?_⟩
    · have hprev : prev = (sg.addr + off) / ps * ps := by
        simp only [prev, hspill.1]
        rfl
      have := hspill.2.1
      omega
    · simp only [o, hl, hoff', hlen']
      simpa using hexact
  · -- one page is set, and the element starts inside of it
    have hcap : cap = 1 := by
      rcases Nat.lt_trichotomy cap 1 with h0 | h1 | h2
      · obtain rfl : cap = 0 := by omega
        exact absurd le_rfl hge
      · exact h1
      · obtain ⟨k, rfl⟩ := Nat.exists_eq_add_of_le' h2
        have hle : ((sg.addr + off) / ps + 1) * ps ≤ ((sg.addr + off) / ps + (k + 1)) * ps :=
          Nat.mul_le_mul_right ps (by omega)
        rw [Nat.succ_mul] at hle
        have hprev : prev = ((sg.addr + off) / ps + (k + 1)) * ps := if_neg (by omega)
        omega
    have hprev : prev = (sg.addr + off) / ps * ps := by
      simp only [prev, hcap]
      rfl
    have hspill : Spills ps cap off sg ↔ prev ≠ sg.addr := by
      unfold Spills
      omega
    have ho0 : o ≠ 0 ↔ prev ≠ sg.addr := by
      simp only [o, toU]
      omega
    rw [hspill, ho0, not_not]
    refine ⟨fun himp => ?_, fun heq hne => absurd heq hne⟩
    by_contra hne
    have hlen := (himp hne).lengthEq
    simp only [List.take_zero, total_nil, toU, o] at hlen
    omega

/-- The return value for a stop in the first element: a count unless the offset is 0. -/
theorem first_ret {o : ℕ} {P : ℕ → Prop} :
    (0 ≤ (if False ∨ ¬ o = 0 then ((0 : ℕ) : ℤ) else -ENOMEM) →
      P (if False ∨ ¬ o = 0 then ((0 : ℕ) : ℤ) else -ENOMEM).toNat) ↔ (o ≠ 0 → P 0) := by
  by_cases ho : o = 0
  · rw [if_neg (by simpa using ho)]
    exact ⟨fun _ hne => absurd ho hne, fun _ hn => absurd hn (by decide)⟩
  · rw [if_pos (.inr ho)]
    exact ⟨fun h _ => h le_rfl, fun h _ => h ho⟩

/-- CORRECT: the prefix of the list that is reported, up to byte `*sg_offset_p` of element `n`, is
    what the page vector maps, if and only if the first element does not spill over the one page
    that could be set. -/
theorem sg_to_pages_exact (hs : Setter setPage Good cap) (hps : 0 < ps) (hps32 : ps < 2 ^ 32)
    {fuel iova length : ℕ} (hfuel : cap < fuel) {mr : δ} (hg : Good mr []) {sg : Seg}
    {sgl : List Seg} {p : Option ℕ} (hoff : p.getD 0 < sg.len)
    (hsmall : ∀ s ∈ sg :: sgl, Small ps s)
    (hlen : total (sg :: sgl) < 2 ^ 64) :
    let r := ibSgToPages setPage ps fuel iova length mr (sg :: sgl) p
    r.1 = sg.addr + p.getD 0 ∧ r.2.2 = p.map (fun _ => r.2.1.sgOffset) ∧
    ∃ pv, Good r.2.1.mr pv ∧
      ((0 ≤ r.2.1.n →
        Exact ps (p.getD 0) (sg :: sgl) r.1 r.2.1.length r.2.1.sgOffset r.2.1.n.toNat pv) ↔
      ¬ Spills ps cap (p.getD 0) sg) := by
  have hsg := hsmall sg List.mem_cons_self
  obtain ⟨haddr, hdlen, hdend⟩ := turn_eq hps hsg hoff
  simp only [ibSgToPages, if_neg (by omega : ¬ p.getD 0 > sg.len), haddr]
  refine ⟨trivial, trivial, ?_⟩
  have hpos : sg.addr + p.getD 0 < sg.addr + sg.len := by omega
  obtain ⟨hall, hstop⟩ := elemPages_spec hs hps hsg.addr hg (Nat.zero_le _) hfuel hpos
    (show (sg.addr + p.getD 0) / ps =
      (sg.addr + p.getD 0) / ps + if false = true then 1 else 0 from rfl)
  simp only [sgLoop, haddr, hdlen, hdend, ne_eq, not_true_eq_false, false_and, decide_false,
    Bool.false_eq_true, if_false, List.length_nil, Nat.zero_add] at hall hstop ⊢
  have hat := @at_first ps _ sg sgl (p.getD 0) rfl
  by_cases hfit : pageEnd ps (sg.addr + sg.len) - (sg.addr + p.getD 0) / ps ≤ cap
  · obtain ⟨mr', heq, hg'⟩ := hall hfit
    have hrun := sgLoop_exact hs hps hfuel (by rintro s ⟨⟩; exact hoff) sgl [sg]
      (sg.addr + sg.len) ((sg.addr + sg.len) % ps) (sg.addr + sg.len) mr' _ _ hg'
      (by simpa using hfit) (hat.next hps trivial hoff rfl) ⟨rfl, rfl⟩
      (fun s hs' => hsmall s (List.mem_cons_of_mem _ hs'))
      (by rw [total_cons] at hlen; simp only [List.nil_append, total_cons, total_nil]; omega)
    have hcount : toU 64 ((sg.len - p.getD 0 : ℕ) : ℤ) =
        total ([] ++ [⟨sg.addr + p.getD 0, sg.len - p.getD 0⟩]) := by
      exact toU_of_lt (by have := hsg.len; omega)
    rw [← hcount] at hrun
    obtain ⟨pv, n, hg'', hn, hexact⟩ := hrun
    simp only [heq]
    refine ⟨pv, hg'', fun _ hspill => ?_, fun _ _ => ?_⟩
    · have h1 := hspill.1
      have h2 := hspill.2.2.1
      omega
    · simp only [List.length_singleton] at hn hexact
      rw [hn]
      exact hexact
  · obtain ⟨mr', heq, hg'⟩ := hstop (by omega)
    have hfirst := @first_stop ps cap _ hps hps32 sg sgl _ hoff hsg rfl (by omega)
    simp only [heq]
    refine ⟨_, hg', Iff.trans ?_ hfirst⟩
    generalize (if 0 = cap then sg.addr + p.getD 0
      else ((sg.addr + p.getD 0) / ps + cap - 1) * ps) = prev
    exact @first_ret (toU 32 ((prev : ℤ) - sg.addr)) (Exact ps _ (sg :: sgl) _ _ _ · _)

end Run

/-- A driver that keeps up to `cap` page addresses. -/
def vecSetPage (cap : ℕ) (pv : List ℕ) (a : ℕ) : Option (List ℕ) :=
  if pv.length < cap then some (pv ++ [a]) else none

theorem vec_setter (cap : ℕ) : Setter (vecSetPage cap) (fun mr pv => mr = pv) cap where
  push := by
    rintro mr pv a rfl hlt
    exact ⟨_, if_pos hlt, rfl⟩
  full := by
    rintro mr pv a rfl hlen
    exact if_neg (by omega)

/-- Two elements and three pages: the second element is cut at the start of the last page. -/
theorem sg_to_pages_exact_demo :
    let r := ibSgToPages (vecSetPage 3) 4096 4 0 0 [] [⟨4352, 7936⟩, ⟨20480, 12288⟩] (some 16)
    r = (4368, ⟨7920, [4096, 8192, 20480], 0, 1⟩, some 0) ∧
      Exact 4096 16 [⟨4352, 7936⟩, ⟨20480, 12288⟩] 4368 7920 0 1 [4096, 8192, 20480] := by
  have hr : ibSgToPages (vecSetPage 3) 4096 4 0 0 [] [⟨4352, 7936⟩, ⟨20480, 12288⟩] (some 16) =
      (4368, ⟨7920, [4096, 8192, 20480], 0, 1⟩, some 0) := by rfl
  obtain ⟨-, -, pv, hg, hiff⟩ := @sg_to_pages_exact _ _ _ 4096 3 (vec_setter 3) (by decide)
    (by decide) 4 0 0 (by decide) [] rfl ⟨4352, 7936⟩ [⟨20480, 12288⟩] (some 16) (by decide)
    (by simp only [List.mem_cons, List.not_mem_nil, or_false, forall_eq_or_imp, forall_eq]
        exact ⟨⟨by decide, by decide, by decide⟩, ⟨by decide, by decide, by decide⟩⟩) (by decide)
  obtain rfl : [4096, 8192, 20480] = pv := hg
  exact ⟨hr, hiff.mpr (by decide) (by decide)⟩

/-- BROKEN: one page is set for an element that starts inside of it; the length is 2⁶⁴ - 256. -/
theorem sg_to_pages_exact_broken : ¬ ∀ (cap k off : ℕ) (sg : Seg) (sgl : List Seg), off < sg.len →
    (∀ s ∈ sg :: sgl, Small (2 ^ k) s) → total (sg :: sgl) < 2 ^ 64 →
    let r := ibSgToPages (vecSetPage cap) (2 ^ k) (cap + 1) 0 0 [] (sg :: sgl) (some off)
    0 ≤ r.2.1.n → Exact (2 ^ k) off (sg :: sgl) r.1 r.2.1.length r.2.1.sgOffset r.2.1.n.toNat
      r.2.1.mr := by
  intro hall
  have hexact := hall 1 12 0 ⟨4352, 8192⟩ [] (by decide)
    (by rintro s hs
        rw [List.mem_singleton.mp hs]
        exact ⟨by decide, by decide, by decide⟩) (by decide) (by decide +kernel)
  exact absurd hexact.lengthEq (by decide +kernel)

end RdmaDriver.SgPages
