import Mathlib.Logic.Relation

/-! Runs of a labelled machine. A machine is a total step function `step : σ → α → σ`; everything
    the environment decides (which call is made, what hardware answers, which allocation fails) is
    part of the label. `ok s a` says that label `a` may be taken in state `s`. An invariant is shown
    once for one step and then holds in every state of every run. -/

namespace RdmaDriver.Schemes

variable {σ α : Type*} {step : σ → α → σ} {ok ok' : σ → α → Prop} {s₀ s : σ}

/-- The states reached from `s₀` by steps that `ok` admits. -/
inductive Reach (step : σ → α → σ) (ok : σ → α → Prop) (s₀ : σ) : σ → Prop where
  | start : Reach step ok s₀ s₀
  | next {s : σ} {a : α} : Reach step ok s₀ s → ok s a → Reach step ok s₀ (step s a)

/-- INVARIANT RULE: what holds initially and is kept by every admitted step holds in every state of
    every run. -/
theorem Reach.invariant {Inv : σ → Prop} (h : Reach step ok s₀ s) (h₀ : Inv s₀)
    (hstep : ∀ s a, ok s a → Inv s → Inv (step s a)) : Inv s := by
  induction h with
  | start => exact h₀
  | next _ hok ih => exact hstep _ _ hok ih

/-- A run of a stricter guard is a run of a weaker one. -/
theorem Reach.mono (h : Reach step ok s₀ s) (hle : ∀ s a, ok s a → ok' s a) :
    Reach step ok' s₀ s := by
  induction h with
  | start => exact .start
  | next _ hok ih => exact .next ih (hle _ _ hok)

/-- Every label of the list is admitted in the state in which it is taken. -/
def Runs (step : σ → α → σ) (ok : σ → α → Prop) : σ → List α → Prop
  | _, [] => True
  | s, a :: l => ok s a ∧ Runs step ok (step s a) l

instance Runs.decidable [∀ s a, Decidable (ok s a)] : ∀ s l, Decidable (Runs step ok s l)
  | _, [] => instDecidableTrue
  | s, a :: l => @instDecidableAnd _ _ _ (Runs.decidable (step s a) l)

/-- Two guards that admit the labels admit them together. -/
theorem Runs.and : ∀ {l : List α} {s : σ}, Runs step ok s l → Runs step ok' s l →
    Runs step (fun s a => ok s a ∧ ok' s a) s l
  | [], _, _, _ => trivial
  | _ :: _, _, ⟨h, hl⟩, ⟨h', hl'⟩ => ⟨⟨h, h'⟩, hl.and hl'⟩

/-- A list of admitted labels leads from a reached state to a reached state. -/
theorem Reach.runs : ∀ {l : List α} {s : σ}, Reach step ok s₀ s → Runs step ok s l →
    Reach step ok s₀ (l.foldl step s)
  | [], _, h, _ => h
  | _ :: _, _, h, ⟨ha, hl⟩ => (h.next ha).runs hl

end RdmaDriver.Schemes
