import Mathlib.Algebra.Order.Ring.Int
import Mathlib.Data.List.Basic
import Mathlib.Data.Tree.Basic

/-! Binary search trees whose comparison may err. A search walks down by the sign that `cmp` gives
    to each node it meets, positive for a node above what it looks for; `ord` is the sign the node
    really has. Where the two agree on the path, the search ends at the first node that is not below,
    and a new leaf lands between the nodes below and those above, whatever `cmp` says of all the
    others. -/

namespace RdmaDriver.Schemes.SearchTree

variable {α : Type*}

/-- The nodes of a tree from left to right. -/
def inorder : BinaryTree α → List α
  | .nil => []
  | .node a l r => inorder l ++ a :: inorder r

/-- The search: the node that compares equal, else the last node above that it met. -/
def ceiling (cmp : α → ℤ) : BinaryTree α → Option α → α ⊕ Option α
  | .nil, above => .inr above
  | .node a l r, above =>
    if 0 < cmp a then ceiling cmp l (some a)
    else if cmp a < 0 then ceiling cmp r above
    else .inl a

/-- A new leaf at the place where the search ends; none if it meets a node that compares equal. -/
def link (cmp : α → ℤ) (x : α) : BinaryTree α → Option (BinaryTree α)
  | .nil => some (.node x .nil .nil)
  | .node a l r =>
    if 0 < cmp a then (link cmp x l).map fun l => .node a l r
    else if cmp a < 0 then (link cmp x r).map fun r => .node a l r
    else none

/-- What holds of every node that the search meets. -/
def OnPath (cmp : α → ℤ) (P : α → Prop) : BinaryTree α → Prop
  | .nil => True
  | .node a l r => P a ∧ (0 < cmp a → OnPath cmp P l) ∧ (cmp a < 0 → OnPath cmp P r)

instance OnPath.decidable (cmp : α → ℤ) (P : α → Prop) [DecidablePred P] :
    ∀ t, Decidable (OnPath cmp P t)
  | .nil => instDecidableTrue
  | .node a l r =>
    have := OnPath.decidable cmp P l
    have := OnPath.decidable cmp P r
    inferInstanceAs (Decidable (P a ∧ (0 < cmp a → OnPath cmp P l) ∧ (cmp a < 0 → OnPath cmp P r)))

/-- The two have the same sign. -/
def SameSign (x y : ℤ) : Prop := (0 < x ↔ 0 < y) ∧ (x < 0 ↔ y < 0)

variable {cmp ord : α → ℤ} {P Q : α → Prop} {t t' : BinaryTree α} {x : α}

theorem OnPath.mono (h : OnPath cmp P t) (hPQ : ∀ a ∈ inorder t, P a → Q a) : OnPath cmp Q t := by
  induction t with
  | nil => trivial
  | node a l r ihl ihr =>
    obtain ⟨ha, hl, hr⟩ := h
    refine ⟨hPQ a (by simp [inorder]) ha, fun hpos => ihl (hl hpos) fun b hb => ?_,
      fun hneg => ihr (hr hneg) fun b hb => ?_⟩
    · exact hPQ b (by simp [inorder, hb])
    · exact hPQ b (by simp [inorder, hb])

/-- The nodes are sorted as seen from what is looked for: whatever stands before a node that is not
    above is below. -/
def Sorted (ord : α → ℤ) (l : List α) : Prop := l.Pairwise fun a b => ord b ≤ 0 → ord a < 0

theorem Sorted.node {a : α} {l r : BinaryTree α} (h : Sorted ord (inorder (.node a l r))) :
    Sorted ord (inorder l) ∧ Sorted ord (inorder r) ∧
      (ord a ≤ 0 → ∀ b ∈ inorder l, ord b < 0) ∧ (0 ≤ ord a → ∀ b ∈ inorder r, 0 < ord b) := by
  obtain ⟨hl, hr, hcross⟩ := List.pairwise_append.mp h
  obtain ⟨har, hr⟩ := List.pairwise_cons.mp hr
  refine ⟨hl, hr, fun ha b hb => hcross b hb a List.mem_cons_self ha, fun ha b hb => ?_⟩
  by_contra hle
  exact absurd (har b hb (not_lt.mp hle)) (not_lt.mpr ha)

/-- CEILING: the search ends at the first node that is not below. -/
theorem ceiling_eq (hs : Sorted ord (inorder t))
    (hp : OnPath cmp (fun a => SameSign (cmp a) (ord a)) t) : ∀ above : Option α,
    ceiling cmp t above = match (inorder t).find? fun a => decide (0 ≤ ord a) with
      | some a => if ord a = 0 then .inl a else .inr (some a)
      | none => .inr above := by
  induction t with
  | nil => exact fun _ => rfl
  | node a l r ihl ihr =>
    intro above
    obtain ⟨hl, hr, hbelow, habove⟩ := hs.node
    obtain ⟨⟨hpos, hneg⟩, hpl, hpr⟩ := hp
    rw [inorder, List.find?_append, List.find?_cons]
    have hskip : ord a ≤ 0 → (inorder l).find? (fun b => decide (0 ≤ ord b)) = none := fun ha =>
      List.find?_eq_none.mpr fun b hb => by simpa using hbelow ha b hb
    rcases lt_trichotomy (ord a) 0 with hlt | heq | hgt
    · rw [ceiling, if_neg (fun h => by have := hpos.mp h; omega), if_pos (hneg.mpr hlt),
        ihr hr (hpr (hneg.mpr hlt)), hskip hlt.le, decide_eq_false (not_le.mpr hlt)]
      rfl
    · rw [ceiling, if_neg (fun h => by have := hpos.mp h; omega),
        if_neg (fun h => by have := hneg.mp h; omega), hskip heq.le, decide_eq_true heq.ge]
      exact (if_pos heq).symm
    · rw [ceiling, if_pos (hpos.mpr hgt), ihl hl (hpl (hpos.mpr hgt)), decide_eq_true hgt.le]
      cases (inorder l).find? fun b => decide (0 ≤ ord b) with
      | none => exact (if_neg hgt.ne').symm
      | some b => rfl

/-- LINK: a leaf is refused only if the tree has a node that is equal. -/
theorem link_none (hp : OnPath cmp (fun a => SameSign (cmp a) (ord a)) t)
    (h : link cmp x t = none) : ∃ a ∈ inorder t, ord a = 0 := by
  induction t with
  | nil => cases h
  | node a l r ihl ihr =>
    obtain ⟨⟨hpos, hneg⟩, hpl, hpr⟩ := hp
    rw [link] at h
    by_cases hgt : 0 < cmp a
    · rw [if_pos hgt, Option.map_eq_none_iff] at h
      obtain ⟨b, hb, h0⟩ := ihl (hpl hgt) h
      exact ⟨b, by simp [inorder, hb], h0⟩
    · by_cases hlt : cmp a < 0
      · rw [if_neg hgt, if_pos hlt, Option.map_eq_none_iff] at h
        obtain ⟨b, hb, h0⟩ := ihr (hpr hlt) h
        exact ⟨b, by simp [inorder, hb], h0⟩
      · refine ⟨a, by simp [inorder], ?_⟩
        omega

/-- LINK: the new leaf stands behind the nodes below it and before those above. -/
theorem link_some (hs : Sorted ord (inorder t))
    (hp : OnPath cmp (fun a => SameSign (cmp a) (ord a)) t) (h : link cmp x t = some t') :
    ∃ before after, inorder t = before ++ after ∧ inorder t' = before ++ x :: after ∧
      (∀ a ∈ before, ord a < 0) ∧ ∀ a ∈ after, 0 < ord a := by
  induction t generalizing t' with
  | nil =>
    cases h
    exact ⟨[], [], rfl, rfl, by simp, by simp⟩
  | node a l r ihl ihr =>
    obtain ⟨hl, hr, hbelow, habove⟩ := hs.node
    obtain ⟨⟨hpos, hneg⟩, hpl, hpr⟩ := hp
    rw [link] at h
    by_cases hgt : 0 < cmp a
    · rw [if_pos hgt] at h
      obtain ⟨l', hlink, rfl⟩ := Option.map_eq_some_iff.mp h
      obtain ⟨before, after, heq, heq', hb, ha⟩ := ihl hl (hpl hgt) hlink
      refine ⟨before, after ++ a :: inorder r, by simp [inorder, heq], by simp [inorder, heq'],
        hb, ?_⟩
      have hpos' := hpos.mp hgt
      intro b hmem
      rcases List.mem_append.mp hmem with hmem | hmem
      · exact ha b hmem
      · rcases List.mem_cons.mp hmem with rfl | hmem
        · exact hpos'
        · exact habove hpos'.le b hmem
    · by_cases hlt : cmp a < 0
      · rw [if_neg hgt, if_pos hlt] at h
        obtain ⟨r', hlink, rfl⟩ := Option.map_eq_some_iff.mp h
        obtain ⟨before, after, heq, heq', hb, ha⟩ := ihr hr (hpr hlt) hlink
        refine ⟨inorder l ++ a :: before, after, by simp [inorder, heq],
          by simp [inorder, heq'], ?_, ha⟩
        have hneg' := hneg.mp hlt
        intro b hmem
        rcases List.mem_append.mp hmem with hmem | hmem
        · exact hbelow hneg'.le b hmem
        · rcases List.mem_cons.mp hmem with rfl | hmem
          · exact hneg'
          · exact hb b hmem
      · rw [if_neg hgt, if_neg hlt] at h
        cases h

end RdmaDriver.Schemes.SearchTree
