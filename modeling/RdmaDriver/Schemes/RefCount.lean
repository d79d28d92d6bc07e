import Mathlib.Data.List.Count
import Mathlib.Data.List.Nodup
import Mathlib.Logic.Function.Basic

/-! Reference counts. Objects are named by keys; a key is held by the fields of some records and,
    once or more, by others. The count of a key is right when it is the number of its holders:

        count k = base k + ▪▪▪   (the fields that name k)

    What a program does to a field changes the count as it changes the field, or moves the name from
    one field to another. -/

namespace RdmaDriver.Schemes
open Function

variable {κ σ : Type*} [DecidableEq κ]

/-- Each key is counted once for each field that names it, besides `base`. -/
def Counts (count base : κ → ℕ) (fields : List σ) (own : σ → Option κ) : Prop :=
  ∀ k, count k = base k + fields.countP fun f => own f = some k

variable {count base : κ → ℕ} {fields : List σ} {own : σ → Option κ} {f g : σ} {k : κ}

/-- A key that a field names is counted. -/
theorem Counts.pos (h : Counts count base fields own) (hf : f ∈ fields) (ho : own f = some k) :
    base k < count k := by
  have hk := h k
  have : 0 < fields.countP fun i => own i = some k :=
    List.countP_pos_iff.2 ⟨f, hf, by simpa using ho⟩
  omega

/-- New fields name nothing. -/
theorem Counts.append (h : Counts count base fields own) {l : List σ} (hl : ∀ f ∈ l, own f = none) :
    Counts count base (fields ++ l) own := by
  intro i
  have hz : (l.countP fun f => own f = some i) = 0 := by
    refine List.countP_eq_zero.2 fun f hf => ?_
    rw [hl f hf]
    simp
  rw [List.countP_append, hz]
  exact h i

variable [DecidableEq σ]

/-- A field that changes counts for its new key instead of its old one. -/
theorem countP_update (own : σ → Option κ) (v : Option κ) (k : κ) :
    ∀ {fields : List σ}, fields.Nodup → f ∈ fields →
    (fields.countP fun i => update own f v i = some k) + (if own f = some k then 1 else 0) =
      (fields.countP fun i => own i = some k) + if v = some k then 1 else 0
  | a :: l, hnd, hm => by
    obtain ⟨ha, hl⟩ := List.nodup_cons.1 hnd
    rw [List.countP_cons, List.countP_cons]
    rcases eq_or_ne a f with rfl | hne
    · have hsame : (l.countP fun i => update own a v i = some k) =
          l.countP fun i => own i = some k := by
        refine List.countP_congr fun i hi => ?_
        have hia : i ≠ a := by
          rintro rfl
          exact ha hi
        rw [update_of_ne hia]
      rw [hsame, update_self]
      simp only [decide_eq_true_eq]
      omega
    · have ih := countP_update own v k hl ((List.mem_cons.1 hm).resolve_left (Ne.symm hne))
      rw [update_of_ne hne]
      omega

section
variable (h : Counts count base fields own) (hnd : fields.Nodup) (hf : f ∈ fields)
include h hnd hf

/-- TAKE: a field takes a reference. -/
theorem Counts.take (hn : own f = none) (k : κ) : Counts (update count k (count k + 1)) base fields
      (update own f (some k)) := by
  intro i
  have hup := countP_update own (some k) i hnd hf
  have hi := h i
  rw [hn, if_neg (by simp)] at hup
  rcases eq_or_ne i k with rfl | hne
  · rw [update_self]
    rw [if_pos rfl] at hup
    omega
  · rw [update_of_ne hne]
    rw [if_neg (by simpa using Ne.symm hne)] at hup
    omega

/-- DROP: a field gives its reference up. -/
theorem Counts.drop (ho : own f = some k) :
    Counts (update count k (count k - 1)) base fields (update own f none) := by
  intro i
  have hup := countP_update own none i hnd hf
  have hi := h i
  rw [ho] at hup
  rcases eq_or_ne i k with rfl | hne
  · rw [update_self]
    rw [if_pos rfl, if_neg (by simp)] at hup
    omega
  · rw [update_of_ne hne]
    rw [if_neg (by simpa using Ne.symm hne), if_neg (by simp)] at hup
    omega

/-- MOVE: a reference goes from one field to another that has none. -/
theorem Counts.move (hg : g ∈ fields) (hne : f ≠ g) (hn : own f = none) :
    Counts count base fields (update (update own f (own g)) g none) := by
  intro i
  have h₁ := countP_update own (own g) i hnd hf
  have h₂ := countP_update (update own f (own g)) none i hnd hg
  have hi := h i
  rw [update_of_ne hne.symm, if_neg (by simp : (none : Option κ) ≠ some i)] at h₂
  rw [hn, if_neg (by simp : (none : Option κ) ≠ some i)] at h₁
  omega

end

end RdmaDriver.Schemes
