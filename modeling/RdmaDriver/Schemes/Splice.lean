import Mathlib.Data.List.Basic
import Mathlib.Data.List.Nodup
import Mathlib.Data.List.Sort
import Mathlib.Order.Basic
import Mathlib.Tactic.Tauto

/-! Linked lists kept in the order of a key. A new element is put behind the last element with a
    smaller key, which is found by a scan from the end; an element whose key is there already has no
    place. -/

namespace RdmaDriver.Schemes

variable {α β : Type*} [LinearOrder β] (key : α → β)

/-- The keys increase strictly. -/
def Increasing (l : List α) : Prop := l.Pairwise fun x y => key x < key y

/-- The scan for the place of `n`, along the reversed list. -/
def lastBelow (n : β) : List α → Option α
  | [] => none
  | x :: l => if key x < n then some x else if n = key x then none else lastBelow n l

/-- Put `x` behind `p`. -/
def insertAfter [DecidableEq α] (p x : α) : List α → List α
  | [] => []
  | y :: l => if y = p then y :: x :: l else y :: insertAfter p x l

/-- The list from `x` on. -/
def fromElem [DecidableEq α] (x : α) (l : List α) : List α := l.dropWhile (· ≠ x)

variable {key}

theorem lastBelow_split {n : β} {p : α} {l : List α} (h : lastBelow key n l.reverse = some p) :
    ∃ a b, l = a ++ p :: b ∧ key p < n ∧ ∀ x ∈ b, n < key x := by
  -- the scanned elements `b` come off the end one by one
  have scan : ∀ r : List α, lastBelow key n r = some p →
      ∃ b a, r = b ++ p :: a ∧ key p < n ∧ ∀ x ∈ b, n < key x := by
    intro r
    induction r with
    | nil => intro h; cases h
    | cons y r ih =>
      intro h
      unfold lastBelow at h
      split_ifs at h with hlt heq
      · cases h
        exact ⟨[], r, rfl, hlt, by simp⟩
      · obtain ⟨b, a, rfl, hp, hb⟩ := ih h
        refine ⟨y :: b, a, rfl, hp, ?_⟩
        intro x hx
        rcases List.mem_cons.mp hx with rfl | hx
        · exact lt_of_le_of_ne (not_lt.mp hlt) heq
        · exact hb x hx
  obtain ⟨b, a, hr, hp, hb⟩ := scan _ h
  refine ⟨a.reverse, b.reverse, ?_, hp, fun x hx => hb x (List.mem_reverse.mp hx)⟩
  have hl := congrArg List.reverse hr
  simpa using hl

theorem insertAfter_split [DecidableEq α] {p x : α} {a b : List α} (h : p ∉ a) :
    insertAfter p x (a ++ p :: b) = a ++ p :: x :: b := by
  induction a with
  | nil => simp [insertAfter]
  | cons y a ih =>
    rw [List.mem_cons, not_or] at h
    rw [List.cons_append, insertAfter, if_neg (Ne.symm h.1), ih h.2, List.cons_append]

theorem mem_splice {x p y : α} {a b : List α} :
    x ∈ a ++ p :: y :: b ↔ x = y ∨ x ∈ a ++ p :: b := by
  simp only [List.mem_append, List.mem_cons]
  tauto

theorem fromElem_split [DecidableEq α] {x : α} {a b : List α} (h : x ∉ a) :
    fromElem x (a ++ x :: b) = x :: b := by
  unfold fromElem
  induction a with
  | nil => simp
  | cons y a ih =>
    rw [List.mem_cons, not_or] at h
    rw [List.cons_append, List.dropWhile_cons_of_pos (by simpa using Ne.symm h.1)]
    exact ih h.2

theorem Increasing.nodup {l : List α} (h : Increasing key l) : l.Nodup :=
  h.imp fun hlt heq => (ne_of_lt hlt) (congrArg key heq)

/-- One element for each key. -/
theorem Increasing.inj {l : List α} (h : Increasing key l) {x y : α} (hx : x ∈ l) (hy : y ∈ l)
    (hxy : key x = key y) : x = y := by
  have hmap : (l.map key).Nodup := List.pairwise_map.mpr (h.imp ne_of_lt)
  exact List.inj_on_of_nodup_map hmap hx hy hxy

/-- A key between its neighbours keeps the order. -/
theorem Increasing.insert {a b : List α} {p x : α} (h : Increasing key (a ++ p :: b))
    (hp : key p < key x) (hb : ∀ y ∈ b, key x < key y) : Increasing key (a ++ p :: x :: b) := by
  unfold Increasing at h ⊢
  rw [List.pairwise_append, List.pairwise_cons] at h ⊢
  obtain ⟨ha, ⟨hpb, hbb⟩, hab⟩ := h
  refine ⟨ha, ⟨?_, List.pairwise_cons.mpr ⟨hb, hbb⟩⟩, ?_⟩
  · intro y hy
    rcases List.mem_cons.mp hy with rfl | hy
    · exact hp
    · exact hpb y hy
  · intro y hy z hz
    rcases List.mem_cons.mp hz with rfl | hz
    · exact hab y hy _ List.mem_cons_self
    · rcases List.mem_cons.mp hz with rfl | hz
      · exact lt_trans (hab y hy p List.mem_cons_self) hp
      · exact hab y hy z (List.mem_cons_of_mem _ hz)

end RdmaDriver.Schemes
