import Mathlib.Data.List.Basic
import Mathlib.Data.List.Nodup

/-! Ordered trees whose nodes are known by their addresses: the number of a node among the children of
    its parent, in front of the address of the parent. A search for the closest leaf that has something
    goes through the siblings on one side of a node, then through those of its parent, and so on up to
    the root; it finds the first that has something of all leaves on that side of the node. -/

namespace RdmaDriver.Schemes

/-- An ordered tree with data at its leaves. -/
inductive OTree (α : Type*) where
  | leaf (a : α)
  | node (children : List (OTree α))

namespace OTree

variable {α β : Type*}

/-- The children of a tree. -/
def children : OTree α → List (OTree α)
  | .leaf _ => []
  | .node cs => cs

/-- The children of the node at an address, in a tree with the children `cs` at its root. -/
def childrenAt (cs : List (OTree α)) : List ℕ → List (OTree α)
  | [] => cs
  | i :: parent => match (childrenAt cs parent)[i]? with
    | some t => t.children
    | none => []

/-- The data of the leaf at an address. -/
def leafAt (cs : List (OTree α)) : List ℕ → Option α
  | [] => none
  | i :: parent => match (childrenAt cs parent)[i]? with
    | some (.leaf a) => some a
    | _ => none

mutual
/-- The leaves of a tree, in order. -/
def leaves (addr : List ℕ) : OTree α → List (List ℕ)
  | .leaf _ => [addr]
  | .node cs => leavesIn addr 0 cs

/-- The leaves of trees that are children at an address, from number `i` on. -/
def leavesIn (addr : List ℕ) (i : ℕ) : List (OTree α) → List (List ℕ)
  | [] => []
  | t :: ts => leaves (i :: addr) t ++ leavesIn addr (i + 1) ts
end

mutual
/-- The first leaf of a tree that has something, from the one or from the other end. -/
def closest (f : List ℕ → Option β) (reverse : Bool) (addr : List ℕ) : OTree α → Option β
  | .leaf _ => f addr
  | .node cs => closestIn f reverse addr 0 cs

def closestIn (f : List ℕ → Option β) (reverse : Bool) (addr : List ℕ) (i : ℕ) :
    List (OTree α) → Option β
  | [] => none
  | t :: ts =>
    if reverse then (closestIn f reverse addr (i + 1) ts).or (closest f reverse (i :: addr) t)
    else (closest f reverse (i :: addr) t).or (closestIn f reverse addr (i + 1) ts)
end

/-- The search from a node: through its siblings after it, or before it, and up. -/
def climb (f : List ℕ → Option β) (reverse : Bool) (cs : List (OTree α)) : List ℕ → Option β
  | [] => none
  | i :: parent =>
    (if reverse then closestIn f true parent 0 ((childrenAt cs parent).take i)
      else closestIn f false parent (i + 1) ((childrenAt cs parent).drop (i + 1))).or
      (climb f reverse cs parent)

/-- All leaves after a node, and before it. -/
def after (cs : List (OTree α)) : List ℕ → List (List ℕ)
  | [] => []
  | i :: parent =>
    leavesIn parent (i + 1) ((childrenAt cs parent).drop (i + 1)) ++ after cs parent

def before (cs : List (OTree α)) : List ℕ → List (List ℕ)
  | [] => []
  | i :: parent => before cs parent ++ leavesIn parent 0 ((childrenAt cs parent).take i)

/-- The leaves of the tree. -/
def order (cs : List (OTree α)) : List (List ℕ) := leavesIn [] 0 cs

mutual
theorem closest_false (f : List ℕ → Option β) (addr : List ℕ) :
    ∀ t : OTree α, closest f false addr t = (leaves addr t).findSome? f
  | .leaf a => by simp [closest, leaves]
  | .node cs => by
    unfold closest leaves
    exact closestIn_false f addr 0 cs

theorem closestIn_false (f : List ℕ → Option β) (addr : List ℕ) :
    ∀ (i : ℕ) (ts : List (OTree α)), closestIn f false addr i ts = (leavesIn addr i ts).findSome? f
  | i, [] => rfl
  | i, t :: ts => by
    unfold closestIn leavesIn
    rw [if_neg (by simp), closest_false f (i :: addr) t, closestIn_false f addr (i + 1) ts,
      List.findSome?_append]
end

mutual
theorem closest_true (f : List ℕ → Option β) (addr : List ℕ) :
    ∀ t : OTree α, closest f true addr t = (leaves addr t).reverse.findSome? f
  | .leaf a => by simp [closest, leaves]
  | .node cs => by
    unfold closest leaves
    exact closestIn_true f addr 0 cs

theorem closestIn_true (f : List ℕ → Option β) (addr : List ℕ) :
    ∀ (i : ℕ) (ts : List (OTree α)),
      closestIn f true addr i ts = (leavesIn addr i ts).reverse.findSome? f
  | i, [] => rfl
  | i, t :: ts => by
    unfold closestIn leavesIn
    rw [if_pos rfl, closest_true f (i :: addr) t, closestIn_true f addr (i + 1) ts,
      List.reverse_append, List.findSome?_append]
end

/-- The search forward finds the first of all leaves after a node. -/
theorem climb_false (f : List ℕ → Option β) (cs : List (OTree α)) :
    ∀ addr : List ℕ, climb f false cs addr = (after cs addr).findSome? f
  | [] => rfl
  | i :: parent => by
    unfold climb after
    rw [if_neg (by simp), closestIn_false, climb_false f cs parent, List.findSome?_append]

/-- The search backward finds the last of all leaves before a node. -/
theorem climb_true (f : List ℕ → Option β) (cs : List (OTree α)) :
    ∀ addr : List ℕ, climb f true cs addr = (before cs addr).reverse.findSome? f
  | [] => rfl
  | i :: parent => by
    unfold climb before
    rw [if_pos rfl, closestIn_true, climb_true f cs parent, List.reverse_append,
      List.findSome?_append]

theorem leavesIn_append (addr : List ℕ) : ∀ (i : ℕ) (ts ts' : List (OTree α)),
    leavesIn addr i (ts ++ ts') = leavesIn addr i ts ++ leavesIn addr (i + ts.length) ts'
  | i, [], ts' => by simp [leavesIn]
  | i, t :: ts, ts' => by
    rw [List.cons_append, leavesIn, leavesIn, leavesIn_append addr (i + 1) ts ts', List.append_assoc,
      List.length_cons, Nat.add_right_comm, Nat.add_assoc]

/-- The leaves of the tree around those below a node. -/
theorem order_split (cs : List (OTree α)) : ∀ addr : List ℕ, addr ≠ [] →
    ∀ t, (∃ i parent, addr = i :: parent ∧ (childrenAt cs parent)[i]? = some t) →
      order cs = before cs addr ++ leaves addr t ++ after cs addr
  | [], h, _, _ => absurd rfl h
  | i :: parent, _, t, hex => by
    obtain ⟨i', parent', heq, ht⟩ := hex
    cases heq
    have hlt : i < (childrenAt cs parent).length := by
      by_contra hge
      rw [List.getElem?_eq_none (by omega)] at ht
      cases ht
    have hcs : childrenAt cs parent =
        (childrenAt cs parent).take i ++ t :: (childrenAt cs parent).drop (i + 1) := by
      rw [List.getElem?_eq_getElem hlt] at ht
      cases ht
      rw [← List.drop_eq_getElem_cons hlt, List.take_append_drop]
    have hleaves : leavesIn parent 0 (childrenAt cs parent) =
        leavesIn parent 0 ((childrenAt cs parent).take i) ++ leaves (i :: parent) t ++
          leavesIn parent (i + 1) ((childrenAt cs parent).drop (i + 1)) := by
      conv_lhs => rw [hcs]
      rw [leavesIn_append, leavesIn, List.length_take, Nat.zero_add, Nat.min_eq_left (Nat.le_of_lt hlt),
        List.append_assoc]
    unfold before after
    cases parent with
    | nil =>
      change order cs = ([] ++ _) ++ _ ++ (_ ++ [])
      rw [List.nil_append, List.append_nil]
      exact hleaves
    | cons j up =>
      -- the children of the parent are those of a node
      have hparent : ∃ t', (childrenAt cs up)[j]? = some t' ∧
          t'.children = childrenAt cs (j :: up) := by
        rw [childrenAt] at hlt
        rw [childrenAt]
        rcases hj : (childrenAt cs up)[j]? with _ | t'
        · rw [hj] at hlt
          simp at hlt
        · exact ⟨t', rfl, rfl⟩
      obtain ⟨t', ht', hchildren⟩ := hparent
      rw [order_split cs (j :: up) (by simp) t' ⟨j, up, rfl, ht'⟩]
      have hnode : leaves (j :: up) t' = leavesIn (j :: up) 0 (childrenAt cs (j :: up)) := by
        cases t' with
        | leaf a =>
          rw [← hchildren] at hlt
          simp [children] at hlt
        | node ts =>
          rw [← hchildren]
          rfl
      rw [hnode, hleaves]
      simp only [List.append_assoc]

/-- The leaves of the tree around one of them. -/
theorem order_leaf {cs : List (OTree α)} {addr : List ℕ} {a : α} (h : leafAt cs addr = some a) :
    order cs = before cs addr ++ addr :: after cs addr := by
  cases addr with
  | nil => cases h
  | cons i parent =>
    rw [leafAt] at h
    rcases ht : (childrenAt cs parent)[i]? with _ | t
    · rw [ht] at h
      cases h
    · rw [ht] at h
      cases t with
      | node ts => cases h
      | leaf a' =>
        have hsplit := order_split cs (i :: parent) (by simp) _ ⟨i, parent, rfl, ht⟩
        rw [hsplit, leaves, List.append_assoc, List.singleton_append]

mutual
/-- The leaves below a node have its address as a suffix. -/
theorem suffix_of_mem_leaves {x : List ℕ} (addr : List ℕ) :
    ∀ t : OTree α, x ∈ leaves addr t → addr <:+ x
  | .leaf a, h => by
    unfold leaves at h
    exact List.mem_singleton.mp h ▸ List.suffix_rfl
  | .node cs, h => by
    unfold leaves at h
    obtain ⟨j, -, hj⟩ := suffix_of_mem_leavesIn addr 0 cs h
    exact (List.suffix_cons j addr).trans hj

theorem suffix_of_mem_leavesIn {x : List ℕ} (addr : List ℕ) :
    ∀ (i : ℕ) (ts : List (OTree α)), x ∈ leavesIn addr i ts → ∃ j, i ≤ j ∧ (j :: addr) <:+ x
  | i, [], h => by cases h
  | i, t :: ts, h => by
    unfold leavesIn at h
    rcases List.mem_append.mp h with h | h
    · exact ⟨i, Nat.le_refl i, suffix_of_mem_leaves (i :: addr) t h⟩
    · obtain ⟨j, hj, hsuf⟩ := suffix_of_mem_leavesIn addr (i + 1) ts h
      exact ⟨j, by omega, hsuf⟩
end

/-- Two suffixes of one length are the same. -/
theorem suffix_inj {x : List ℕ} {i j : ℕ} {addr : List ℕ} (h : (i :: addr) <:+ x)
    (h' : (j :: addr) <:+ x) : i = j := by
  have heq := (List.suffix_of_suffix_length_le h h' (Nat.le_refl _)).eq_of_length rfl
  exact (List.cons.inj heq).1

/-- What is after a node is not below it. -/
theorem not_suffix_of_mem_after {cs : List (OTree α)} {x : List ℕ} :
    ∀ addr : List ℕ, x ∈ after cs addr → ¬ addr <:+ x
  | [], h, _ => by cases h
  | i :: parent, h, hsuf => by
    unfold after at h
    rcases List.mem_append.mp h with h | h
    · obtain ⟨j, hj, hsuf'⟩ := suffix_of_mem_leavesIn parent _ _ h
      have heq := suffix_inj hsuf hsuf'
      omega
    · exact not_suffix_of_mem_after parent h ((List.suffix_cons i parent).trans hsuf)

mutual
theorem nodup_leaves (addr : List ℕ) : ∀ t : OTree α, (leaves addr t).Nodup
  | .leaf a => by simp [leaves]
  | .node cs => by
    unfold leaves
    exact nodup_leavesIn addr 0 cs

theorem nodup_leavesIn (addr : List ℕ) : ∀ (i : ℕ) (ts : List (OTree α)), (leavesIn addr i ts).Nodup
  | i, [] => List.nodup_nil
  | i, t :: ts => by
    unfold leavesIn
    refine List.nodup_append'.mpr ⟨nodup_leaves (i :: addr) t, nodup_leavesIn addr (i + 1) ts, ?_⟩
    intro x hx hx'
    obtain ⟨j, hj, hsuf⟩ := suffix_of_mem_leavesIn addr (i + 1) ts hx'
    have heq := suffix_inj (suffix_of_mem_leaves (i :: addr) t hx) hsuf
    omega
end

/-- What is after the parent is after the node. -/
theorem after_suffix (cs : List (OTree α)) (i : ℕ) (parent : List ℕ) :
    after cs parent <:+ after cs (i :: parent) := List.suffix_append _ _

end OTree

end RdmaDriver.Schemes
