import RdmaDriver.Basic
import RdmaDriver.Schemes.LeastOut

/-! @src drivers/vfio/pci/mlx5/cmd.c | name:Tracked ranges | scheme:least out | family:interval

    The ranges of IOVAs whose dirty pages are to be tracked, in an interval tree of disjoint nodes,
    here the list of its nodes in order. For a device that takes fewer of them each round makes one
    node of the two neighbours with the smallest gap:

        [a₀ b₀]   [a₁ b₁] [a₂ b₂]     [a₃ b₃]
        [a₀ b₀]   [a₁        b₂]      [a₃ b₃]     a₂ is removed, a₁ keeps its key -/

namespace RdmaDriver.TrackRanges
open RdmaDriver.Schemes List
open Relation (ReflTransGen)

/-- `struct interval_tree_node`: a range and its last address. -/
structure Node where
  start : ℕ
  last : ℕ
  deriving DecidableEq

def ULONG_MAX : ℕ := 2 ^ 64 - 1

def currGap (prev curr : Node) : ℕ := toU 64 ((curr.start : ℤ) - prev.last)

/-- The scan of one round: `prev`, `min_gap`, and the two nodes to combine. -/
def scan : Option Node → ℕ → Option (Node × Node) → List Node → Option (Node × Node)
  | _, _, comb, [] => comb
  | none, minGap, comb, curr :: l => scan (some curr) minGap comb l
  | some prev, minGap, comb, curr :: l =>
    if currGap prev curr < minGap then scan (some curr) (currGap prev curr) (some (prev, curr)) l
    else scan (some curr) minGap comb l

/-- `comb_start->last = comb_end->last`, and `comb_end` is removed. -/
def combine (combStart combEnd : Node) (l : List Node) : List Node :=
  (l.replace combStart { combStart with last := combEnd.last }).erase combEnd

/-- The rounds that are left; `none` where no round yet has found two nodes. -/
def combineRounds : ℕ → Option (Node × Node) → List Node → Option (List Node)
  | 0, _, l => some l
  | n + 1, comb, l =>
    (scan none ULONG_MAX comb l).bind fun c => combineRounds n (some c) (combine c.1 c.2 l)

/-- The walk of the shortcut behind `comb_start`: every node is removed, the last address stays. -/
def walkLast : ℕ → List Node → ℕ
  | last, [] => last
  | _, curr :: l => walkLast curr.last l

def combineRanges (l : List Node) (curNodes reqNodes : ℕ) : Option (List Node) :=
  if reqNodes = 1 then
    match l with
    | [] => none
    | combStart :: l => some [{ combStart with last := walkLast combStart.last l }]
  else combineRounds (curNodes - reqNodes) none l

/-- The nodes of a tree of disjoint ranges, in order. -/
structure Tree (l : List Node) : Prop where
  disjoint : l.Pairwise fun a b => a.last < b.start
  ranges : ∀ r ∈ l, r.start ≤ r.last ∧ r.last < 2 ^ 64

/-- Two neighbours become one. -/
inductive Merge : List Node → List Node → Prop where
  | pair (l₁ : List Node) (a b : Node) (l₂ : List Node) :
    Merge (l₁ ++ a :: b :: l₂) (l₁ ++ { a with last := b.last } :: l₂)

/-- What merging neighbours makes of `l`, in as many steps as one likes. -/
abbrev Merges : List Node → List Node → Prop := ReflTransGen Merge

/-- The tracked length. -/
def total (l : List Node) : ℕ := (l.map fun r => r.last + 1 - r.start).sum

def gaps : List Node → List ℕ
  | a :: b :: l => (b.start - a.last) :: gaps (b :: l)
  | _ => []

theorem gaps_cons_congr {a b : Node} (h : a.last = b.last) : ∀ l, gaps (a :: l) = gaps (b :: l)
  | [] => rfl
  | c :: l => by rw [gaps, gaps, h]

variable {l m n : List Node}

/-- A merge takes its gap out. -/
theorem gaps_merge (a b : Node) (l₂ : List Node) : ∀ l₁ : List Node,
    (gaps (l₁ ++ a :: b :: l₂)).Perm
      ((b.start - a.last) :: gaps (l₁ ++ { a with last := b.last } :: l₂))
  | [] => .of_eq (congrArg (_ :: ·) (@gaps_cons_congr b ⟨a.start, b.last⟩ rfl l₂))
  | [_] => ((gaps_merge a b l₂ []).cons _).trans (.swap ..)
  | _ :: y :: l₁ => ((gaps_merge a b l₂ (y :: l₁)).cons _).trans (.swap ..)

theorem length_gaps : ∀ {l : List Node}, l ≠ [] → (gaps l).length + 1 = l.length
  | [_], _ => rfl
  | _ :: b :: l, _ => congrArg (· + 1) (length_gaps (cons_ne_nil b l))

theorem Tree.tail {a : Node} (h : Tree (a :: l)) : Tree l :=
  ⟨h.disjoint.of_cons, fun r hr => h.ranges r (mem_cons_of_mem a hr)⟩

/-- What merging comes to: the tracked length grows by the gaps that are taken out, each but for the
    one address it shares with the node before it. -/
structure Merged (l m : List Node) : Prop where
  tree : Tree m
  cover : ∀ r ∈ l, ∃ q ∈ m, q.start ≤ r.start ∧ r.last ≤ q.last
  chosen : (gaps m : Multiset ℕ) ≤ gaps l
  weight : total m + (gaps m).sum + l.length = total l + (gaps l).sum + m.length

theorem Merged.trans (h : Merged l m) (h' : Merged m n) : Merged l n := by
  refine ⟨h'.tree, fun r hr => ?_, h'.chosen.trans h.chosen, ?_⟩
  · obtain ⟨q, hq, hs, hl⟩ := h.cover r hr
    obtain ⟨q', hq', hs', hl'⟩ := h'.cover q hq
    exact ⟨q', hq', hs'.trans hs, hl.trans hl'⟩
  · have := h.weight
    have := h'.weight
    omega

theorem Merge.length_succ (h : Merge l m) : m.length + 1 = l.length := by
  obtain ⟨l₁, a, b, l₂⟩ := h
  simp [Nat.add_assoc]

/-- STEP: two neighbours of a tree. -/
theorem Merge.merged (h : Merge l m) (tree : Tree l) : Merged l m := by
  obtain ⟨l₁, a, b, l₂⟩ := h
  have hgaps := gaps_merge a b l₂ l₁
  obtain ⟨hd, hr⟩ := tree
  simp only [pairwise_append, pairwise_cons, mem_cons, mem_append] at hd hr
  obtain ⟨hd₁, ⟨ha, hb, hd₂⟩, hd₁₂⟩ := hd
  have hab := ha b (.inl rfl)
  have hra := hr a (.inr (.inl rfl))
  have hrb := hr b (.inr (.inr (.inl rfl)))
  refine ⟨⟨?_, ?_⟩, fun r hmem => ?_, ?_, ?_⟩
  · simp only [pairwise_append, pairwise_cons, forall_mem_cons]
    exact ⟨hd₁, ⟨hb, hd₂⟩, fun x hx =>
      ⟨hd₁₂ x hx a (.inl rfl), fun y hy => hd₁₂ x hx y (.inr (.inr hy))⟩⟩
  · refine forall_mem_append.mpr ⟨fun r h => hr r (.inl h), forall_mem_cons.mpr ⟨?_, fun r h =>
      hr r (.inr (.inr (.inr h)))⟩⟩
    dsimp only
    omega
  · have hmid : (⟨a.start, b.last⟩ : Node) ∈ l₁ ++ { a with last := b.last } :: l₂ := by simp
    simp only [mem_append, mem_cons] at hmem
    rcases hmem with h | rfl | rfl | h
    · exact ⟨r, mem_append_left _ h, le_rfl, le_rfl⟩
    · exact ⟨_, hmid, le_rfl, by dsimp only; omega⟩
    · exact ⟨_, hmid, by dsimp only; omega, le_rfl⟩
    · exact ⟨r, by simp [h], le_rfl, le_rfl⟩
  · exact Multiset.coe_le.mpr ((sublist_cons_self ..).subperm.trans hgaps.symm.subperm)
  · have hsum := hgaps.sum_eq
    simp only [total, map_append, map_cons, sum_append, sum_cons, length_append,
      length_cons] at hsum ⊢
    omega

/-- RUN: any number of merges. -/
theorem Merges.merged (h : Merges l m) (tree : Tree l) : Merged l m := by
  induction h with
  | refl => exact ⟨tree, fun r hr => ⟨r, hr, le_rfl, le_rfl⟩, le_rfl, rfl⟩
  | tail _ hstep ih => exact ih.trans (hstep.merged ih.tree)

theorem scan_spec : ∀ {l : List Node} {prev : Node} (minGap : ℕ) (comb : Option (Node × Node)),
    Tree (prev :: l) →
    (scan (some prev) minGap comb l = comb ∧ ∀ g ∈ gaps (prev :: l), minGap ≤ g) ∨
    ∃ l₁ a b l₂, prev :: l = l₁ ++ a :: b :: l₂ ∧ scan (some prev) minGap comb l = some (a, b) ∧
      b.start - a.last < minGap ∧ ∀ g ∈ gaps (prev :: l), b.start - a.last ≤ g
  | [], _, _, _, _ => .inl ⟨rfl, nofun⟩
  | curr :: l, prev, minGap, comb, tree => by
    have hcurr := tree.ranges curr (by simp)
    have hgap : currGap prev curr = curr.start - prev.last :=
      toU_sub (by omega) ((pairwise_cons.mp tree.disjoint).1 curr mem_cons_self).le
    rw [scan, gaps, hgap]
    split_ifs with hlt
    · right
      rcases scan_spec (curr.start - prev.last) (some (prev, curr)) tree.tail with
        ⟨hs, hle⟩ | ⟨l₁, a, b, l₂, heq, hs, hless, hle⟩
      · exact ⟨[], prev, curr, l, rfl, hs, hlt, forall_mem_cons.mpr ⟨le_rfl, hle⟩⟩
      · exact ⟨prev :: l₁, a, b, l₂, congrArg _ heq, hs, hless.trans hlt,
          forall_mem_cons.mpr ⟨hless.le, hle⟩⟩
    · rcases scan_spec minGap comb tree.tail with
        ⟨hs, hle⟩ | ⟨l₁, a, b, l₂, heq, hs, hless, hle⟩
      · exact .inl ⟨hs, forall_mem_cons.mpr ⟨Nat.le_of_not_lt hlt, hle⟩⟩
      · exact .inr ⟨prev :: l₁, a, b, l₂, congrArg _ heq, hs, hless,
          forall_mem_cons.mpr ⟨by omega, hle⟩⟩

/-- Of three nodes two have a gap below `ULONG_MAX`: a round finds the least gap. -/
theorem scan_least (comb : Option (Node × Node)) (tree : Tree l)
    (hlen : 3 ≤ l.length) : ∃ l₁ a b l₂, l = l₁ ++ a :: b :: l₂ ∧
      scan none ULONG_MAX comb l = some (a, b) ∧ ∀ g ∈ gaps l, b.start - a.last ≤ g := by
  match l, hlen with
  | p :: c :: d :: l, _ =>
    rcases scan_spec ULONG_MAX comb tree with ⟨-, hle⟩ | ⟨l₁, a, b, l₂, heq, hs, -, hle⟩
    · have hfirst := hle (c.start - p.last) mem_cons_self
      have hcd := (pairwise_cons.mp tree.tail.disjoint).1 d mem_cons_self
      have hc := tree.ranges c (by simp)
      have hd := tree.ranges d (by simp)
      unfold ULONG_MAX at hfirst
      omega
    · exact ⟨l₁, a, b, l₂, heq, hs, hle⟩

theorem combine_eq {l₁ l₂ : List Node} {a b : Node} (tree : Tree (l₁ ++ a :: b :: l₂)) :
    combine a b (l₁ ++ a :: b :: l₂) = l₁ ++ { a with last := b.last } :: l₂ := by
  obtain ⟨-, hcons, hout⟩ := pairwise_append.mp tree.disjoint
  have hab := (pairwise_cons.mp hcons).1 b mem_cons_self
  have hra := tree.ranges a (by simp)
  have hout : ∀ x ∈ a :: b :: l₂, x ∉ l₁ := fun x hx h => by
    have hlt := hout x h x hx
    have hrx := tree.ranges x (by simp [h])
    omega
  unfold combine
  rw [replace_append_right (hout a (by simp)), replace_cons_self,
    erase_append_right _ (hout b (by simp)), erase_cons_tail, erase_cons_head]
  simp only [beq_iff_eq]
  intro h
  have hstart := congrArg Node.start h
  dsimp only at hstart
  omega

/-- RUN: every round merges the two nodes with the least gap. -/
theorem combineRounds_spec : ∀ {n : ℕ} {l : List Node} (comb : Option (Node × Node)), Tree l →
    n + 2 ≤ l.length → ∃ r, combineRounds n comb l = some r ∧ Merges l r ∧
      r.length + n = l.length ∧ Best (gaps l) (gaps r)
  | 0, l, _, _, _ => ⟨l, rfl, .refl, rfl, Best.refl _⟩
  | n + 1, l, comb, tree, hlen => by
    obtain ⟨l₁, a, b, l₂, rfl, hs, hle⟩ := scan_least comb tree (by omega)
    have hmerge := Merge.pair l₁ a b l₂
    have htree := (hmerge.merged tree).tree
    have hlength := hmerge.length_succ
    obtain ⟨r, hr, hmerges, hcount, hbest⟩ := @combineRounds_spec n _ (some (a, b)) htree (by omega)
    have hgaps := Multiset.coe_eq_coe.mpr (gaps_merge a b l₂ l₁)
    refine ⟨r, ?_, .head hmerge hmerges, by omega, ?_⟩
    · rw [combineRounds, hs, Option.bind_some, combine_eq tree, hr]
    · rw [hgaps, ← Multiset.cons_coe]
      refine hbest.takeLeast (fun y hy => hle y ?_) (hmerges.merged htree).chosen
      exact Multiset.mem_coe.mp (hgaps ▸ Multiset.mem_cons_of_mem hy)

theorem walkLast_merges : ∀ (a : Node) (l : List Node),
    Merges (a :: l) [{ a with last := walkLast a.last l }]
  | _, [] => .refl
  | a, b :: l => .head (Merge.pair [] a b l) (walkLast_merges { a with last := b.last } l)

/-- `r` is the best way to merge neighbours of `l` down to `req` ranges. -/
structure Combined (l : List Node) (req : ℕ) (r : List Node) : Prop where
  length : r.length = req
  disjoint : r.Pairwise fun a b => a.last < b.start
  cover : ∀ x ∈ l, ∃ q ∈ r, q.start ≤ x.start ∧ x.last ≤ q.last
  merges : Merges l r
  least : ∀ m, Merges l m → m.length = req → total r ≤ total m

/-- CORRECT: of more than `req` disjoint ranges `combine_ranges` leaves `req`, made by merging
    neighbours, disjoint, in order and covering; and no other way to do so tracks less. -/
theorem combine_ranges {l : List Node} {req : ℕ} (tree : Tree l) (hreq : 1 ≤ req)
    (hlen : req < l.length) :
    ∃ r, combineRanges l l.length req = some r ∧ Combined l req r := by
  have hrun : ∃ r, combineRanges l l.length req = some r ∧ Merges l r ∧ r.length = req ∧
      Best (gaps l) (gaps r) := by
    unfold combineRanges
    split_ifs with hone
    · obtain _ | ⟨a, l⟩ := l
      · exact absurd hlen (Nat.not_lt_zero _)
      · refine ⟨_, rfl, walkLast_merges a l, hone.symm, fun s _ hc => ?_⟩
        rw [Multiset.card_eq_zero.mp hc]
        exact Nat.zero_le _
    · obtain ⟨r, hr, hmerges, hcount, hbest⟩ := combineRounds_spec none tree
        (by omega : l.length - req + 2 ≤ _)
      exact ⟨r, hr, hmerges, by omega, hbest⟩
  obtain ⟨r, hr, hmerges, hcount, hbest⟩ := hrun
  obtain ⟨htree, hcover, -, hweight⟩ := hmerges.merged tree
  refine ⟨r, hr, hcount, htree.disjoint, hcover, hmerges, fun m hm hmlen => ?_⟩
  obtain ⟨-, -, hchosen, hmweight⟩ := hm.merged tree
  have hcard := @length_gaps r (ne_nil_of_length_pos (by omega))
  have hmcard := @length_gaps m (ne_nil_of_length_pos (by omega))
  have hsum := hbest _ hchosen (by simp only [Multiset.coe_card]; omega)
  simp only [Multiset.sum_coe] at hsum
  omega

def demoRanges : List Node := [⟨0, 1⟩, ⟨9, 9⟩, ⟨12, 15⟩]

theorem combine_ranges_demo :
    ∃ r, combineRanges demoRanges 3 2 = some r ∧ Combined demoRanges 2 r :=
  combine_ranges ⟨by decide, by decide⟩ (by decide) (by decide)

end RdmaDriver.TrackRanges
