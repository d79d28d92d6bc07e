import Mathlib.Data.List.Basic
import Mathlib.Logic.Function.Basic

/-! Singly linked structures held in a table. `next` is the link stored at each node; `Trail next a
    l b` says that the walk from `a` visits exactly the nodes `l`, in order, before it arrives at
    `b`. Free lists and completion chains are trails whose node list has no repetition. -/

namespace RdmaDriver.Schemes
open Function

variable {ι : Type*} {next next' : ι → ι} {a b c x : ι} {l l₁ l₂ : List ι}

/-- The walk along `next` from `a` visits the nodes `l` and then stands at `b`. -/
def Trail (next : ι → ι) : ι → List ι → ι → Prop
  | a, [], b => a = b
  | a, x :: l, b => a = x ∧ Trail next (next x) l b

@[simp] theorem trail_nil : Trail next a [] b ↔ a = b := Iff.rfl

@[simp] theorem trail_cons : Trail next a (x :: l) b ↔ a = x ∧ Trail next (next x) l b := Iff.rfl

/-- A walk only depends on the links of the nodes it visits. -/
theorem Trail.congr : ∀ {l : List ι} {a b : ι}, Trail next a l b →
    (∀ x ∈ l, next' x = next x) → Trail next' a l b
  | [], _, _, h, _ => h
  | x :: l, _, _, ⟨ha, hl⟩, he => by
      refine ⟨ha, ?_⟩
      rw [he x (List.mem_cons_self ..)]
      exact hl.congr fun y hy => he y (List.mem_cons_of_mem _ hy)

theorem trail_append : ∀ {l₁ : List ι} {a : ι},
    Trail next a (l₁ ++ l₂) b ↔ ∃ c, Trail next a l₁ c ∧ Trail next c l₂ b
  | [], a => by simp
  | x :: l₁, a => by
      have hrec := fun y => @trail_append l₁ y
      simp only [List.cons_append, trail_cons, hrec]
      constructor
      · rintro ⟨ha, c, h₁, h₂⟩
        exact ⟨c, ⟨ha, h₁⟩, h₂⟩
      · rintro ⟨c, ⟨ha, h₁⟩, h₂⟩
        exact ⟨ha, c, h₁, h₂⟩

/-- Following one more link extends the walk by the node it left. -/
theorem Trail.snoc (h : Trail next a l b) : Trail next a (l ++ [b]) (next b) :=
  trail_append.mpr ⟨b, h, rfl, rfl⟩

/-- Writing the link of a node off the walk leaves the walk as it is. -/
theorem Trail.update [DecidableEq ι] (h : Trail next a l b) (hx : x ∉ l) :
    Trail (Function.update next x c) a l b := by
  refine h.congr fun y hy => ?_
  rw [update_of_ne]
  rintro rfl
  exact hx hy

/-- APPEND RULE: linking the end of the walk to `c` makes the walk end at `c`. -/
theorem Trail.link [DecidableEq ι] (h : Trail next a l b) (hb : b ∉ l) :
    Trail (Function.update next b c) a (l ++ [b]) c := by
  have hs := (h.update (c := c) hb).snoc
  rwa [update_self] at hs

end RdmaDriver.Schemes
