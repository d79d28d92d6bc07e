import Mathlib.Algebra.Ring.Nat
import Mathlib.Data.List.Perm.Basic
import RdmaDriver.Mlx5.MkeyCache
import RdmaDriver.Schemes.Run
import RdmaDriver.Schemes.SearchTree

/-! @src drivers/infiniband/hw/mlx5/mr.c | name:Mkey cache tree | scheme:search tree | family:lookup

    The entries of the mkey cache hang in a red-black tree, ordered by ats, access mode, access
    flags and, last, the number of descriptors. A request takes the entry of exactly its key or else
    the next larger one, if that differs in the number of descriptors alone and is not too large.
    The comparison takes differences of unsigned fields as `int`: it is right while the first fields
    that differ do so by less than 2³¹, and the bound on the size is computed in 32 bits.

        key      - cmp > 0: remember, left - cmp < 0: right -> exact | closest above
        closest  - same ats, mode, flags, ndescs ≤ max (2 * requested, 4) -> entry | NULL

    `rb_insert_color` is a parameter of each insertion: it keeps the order of the nodes. -/

namespace RdmaDriver.MkeyTree
open Schemes SearchTree Mlx5Mkey

/-- `struct mlx5_cache_ent`, of which the tree looks at the key. -/
structure CacheEnt where
  ent : ℕ
  rbKey : RbKey
  deriving DecidableEq

/-- The tree under `cache->rb_root`. -/
abbrev RbRoot := BinaryTree CacheEnt

/-- `MLX5_MR_CACHE_PERSISTENT_ENTRY_MIN_DESCS`. -/
def MLX5_MR_CACHE_PERSISTENT_ENTRY_MIN_DESCS : ℕ := 4

/-- `mlx5_cache_ent_insert`. -/
def mlx5CacheEntInsert (rbInsertColor : RbRoot → RbRoot) (root : RbRoot) (ent : CacheEnt) :
    RbRoot × Option Errno :=
  match link (fun cur => cacheEntKeyCmp cur.rbKey ent.rbKey) ent root with
  | none => (root, some .eexist)
  | some root => (rbInsertColor root, none)

/-- `mkey_cache_ent_from_rb_key`. -/
def mkeyCacheEntFromRbKey (root : RbRoot) (rbKey : RbKey) : Option CacheEnt :=
  match ceiling (fun cur => cacheEntKeyCmp cur.rbKey rbKey) root none with
  | .inl cur => some cur
  | .inr none => none
  | .inr (some smallest) =>
    let ndescsLimit :=
      max (toU 32 (rbKey.ndescs * 2 : ℕ)) MLX5_MR_CACHE_PERSISTENT_ENTRY_MIN_DESCS
    if smallest.rbKey.accessMode = rbKey.accessMode ∧
        smallest.rbKey.accessFlags = rbKey.accessFlags ∧ smallest.rbKey.ats = rbKey.ats ∧
        smallest.rbKey.ndescs ≤ ndescsLimit then some smallest
    else none

/-! ### What the tree is for -/

/-- The widths of the fields. -/
structure Valid (k : RbKey) : Prop where
  ats : k.ats < 2
  accessMode : k.accessMode < 2 ^ 32
  accessFlags : k.accessFlags < 2 ^ 32
  ndescs : k.ndescs < 2 ^ 32

/-- Equal ats, access mode and access flags. -/
def Alike (k key : RbKey) : Prop :=
  k.ats = key.ats ∧ k.accessMode = key.accessMode ∧ k.accessFlags = key.accessFlags

instance (k key : RbKey) : Decidable (Alike k key) :=
  inferInstanceAs (Decidable (_ ∧ _ ∧ _))

/-- The entry a request asks for: of all that are alike and large enough the smallest, if it is not
    too large. -/
def Suits (ents : List CacheEnt) (key : RbKey) (e : CacheEnt) : Prop :=
  e ∈ ents ∧ Alike e.rbKey key ∧ key.ndescs ≤ e.rbKey.ndescs ∧
    (∀ e' ∈ ents, Alike e'.rbKey key → key.ndescs ≤ e'.rbKey.ndescs →
      e.rbKey.ndescs ≤ e'.rbKey.ndescs) ∧
    e.rbKey.ndescs ≤ max (2 * key.ndescs) MLX5_MR_CACHE_PERSISTENT_ENTRY_MIN_DESCS

/-- The answer to a request: that entry, or none where there is no such entry. -/
def Answers (ents : List CacheEnt) (key : RbKey) : Option CacheEnt → Prop
  | some e => Suits ents key e
  | none => ∀ e, ¬ Suits ents key e

/-! ### Runs -/

/-- An insertion, with the rebalancing that follows it. -/
structure Insert where
  ent : CacheEnt
  rbInsertColor : RbRoot → RbRoot

def step (root : RbRoot) (a : Insert) : RbRoot :=
  (mlx5CacheEntInsert a.rbInsertColor root a.ent).1

/-- The key fits its fields and the rebalancing keeps the order of the nodes. -/
def Sane (_ : RbRoot) (a : Insert) : Prop :=
  Valid a.ent.rbKey ∧ ∀ root, inorder (a.rbInsertColor root) = inorder root

/-- The difference of two unsigned fields fits an `int`. -/
def Fits (x y : ℕ) : Prop := -2 ^ 31 ≤ (x : ℤ) - y ∧ (x : ℤ) - y < 2 ^ 31

instance (x y : ℕ) : Decidable (Fits x y) := inferInstanceAs (Decidable (_ ∧ _))

/-- The first fields in which the keys differ do so by an `int`. -/
def Near (cur key : RbKey) : Prop :=
  cur.ats ≠ key.ats ∨ Fits cur.accessMode key.accessMode ∧
    (cur.accessMode ≠ key.accessMode ∨ Fits cur.accessFlags key.accessFlags ∧
      (cur.accessFlags ≠ key.accessFlags ∨ Fits cur.ndescs key.ndescs))

instance (cur key : RbKey) : Decidable (Near cur key) := inferInstanceAs (Decidable (_ ∨ _))

/-- Every entry that the key is compared with is near to it. -/
def NearPath (root : RbRoot) (key : RbKey) : Prop :=
  OnPath (fun cur => cacheEntKeyCmp cur.rbKey key) (fun cur => Near cur.rbKey key) root

/-- An insertion that compares its key with near ones only. -/
def Ok (root : RbRoot) (a : Insert) : Prop := Sane root a ∧ NearPath root a.ent.rbKey

/-- The bound on the size does not matter or does not wrap: fewer than 2³¹ descriptors are asked
    for, or there is an entry of exactly the key, or none that is alike and larger. -/
def NoWrap (ents : List CacheEnt) (key : RbKey) : Prop :=
  key.ndescs < 2 ^ 31 ∨ (∃ e ∈ ents, e.rbKey = key) ∨
    ∀ e ∈ ents, Alike e.rbKey key → e.rbKey.ndescs ≤ key.ndescs

/-! ### The order of the keys -/

/-- The keys in their order, as numbers. -/
def rank (k : RbKey) : ℕ :=
  2 ^ 96 * k.ats + 2 ^ 64 * k.accessMode + 2 ^ 32 * k.accessFlags + k.ndescs

section Order

variable {k key : RbKey}

theorem rank_inj (hk : Valid k) (hkey : Valid key) (h : rank k = rank key) : k = key := by
  obtain ⟨h1, h2, h3, h4⟩ := hk
  obtain ⟨h1', h2', h3', h4'⟩ := hkey
  obtain ⟨a, m, f, n⟩ := k
  obtain ⟨a', m', f', n'⟩ := key
  simp only [rank] at h h1 h2 h3 h4 h1' h2' h3' h4'
  rw [RbKey.mk.injEq]
  omega

theorem toInt_fits {x y : ℕ} (h : Fits x y) : toInt ((x : ℤ) - y) = (x : ℤ) - y := by
  obtain ⟨h1, h2⟩ := h
  unfold toInt
  omega

/-- The comparison of near keys tells their order. -/
theorem cmp_sign (hk : Valid k) (hkey : Valid key) (h : Near k key) :
    SameSign (cacheEntKeyCmp k key) ((rank k : ℤ) - rank key) := by
  obtain ⟨h1, h2, h3, h4⟩ := hk
  obtain ⟨h1', h2', h3', h4'⟩ := hkey
  simp only [cacheEntKeyCmp, rank, SameSign]
  by_cases hats : k.ats = key.ats
  · obtain ⟨hmode, h⟩ := h.resolve_left (not_not.mpr hats)
    rw [if_neg (by omega), toInt_fits hmode]
    by_cases hm : k.accessMode = key.accessMode
    · obtain ⟨hflags, h⟩ := h.resolve_left (not_not.mpr hm)
      rw [if_neg (by omega), toInt_fits hflags]
      by_cases hf : k.accessFlags = key.accessFlags
      · rw [if_neg (by omega), toInt_fits (h.resolve_left (not_not.mpr hf))]
        omega
      · rw [if_pos (by omega)]
        omega
    · rw [if_pos (by omega)]
      omega
  · rw [if_pos (by omega)]
    omega

end Order

/-! ### The tree stays sorted -/

/-- How a key lies to an entry. -/
def ordTo (key : RbKey) (cur : CacheEnt) : ℤ := (rank cur.rbKey : ℤ) - rank key

/-- The entries stand in the order of their keys. -/
structure Inv (root : RbRoot) : Prop where
  sorted : (inorder root).Pairwise fun a b => rank a.rbKey < rank b.rbKey
  valid : ∀ e ∈ inorder root, Valid e.rbKey

section Steps

variable {root : RbRoot} {key : RbKey} {a : Insert}

theorem Inv.sorted_to (h : Inv root) (key : RbKey) : Sorted (ordTo key) (inorder root) :=
  h.sorted.imp fun {x y} hlt hle => by
    unfold ordTo at *
    omega

theorem Inv.agree (h : Inv root) (hkey : Valid key) (hp : NearPath root key) :
    OnPath (fun cur => cacheEntKeyCmp cur.rbKey key)
      (fun cur => SameSign (cacheEntKeyCmp cur.rbKey key) (ordTo key cur)) root :=
  hp.mono fun e he hnear => cmp_sign (h.valid e he) hkey hnear

/-- An insertion adds its entry, or finds one of the same key. -/
theorem insert_spec (h : Inv root) (hok : Ok root a) :
    ((mlx5CacheEntInsert a.rbInsertColor root a.ent).2 = some .eexist ∧ step root a = root ∧
      ∃ e ∈ inorder root, e.rbKey = a.ent.rbKey) ∨
    ((mlx5CacheEntInsert a.rbInsertColor root a.ent).2 = none ∧
      ∃ before after, inorder root = before ++ after ∧
        inorder (step root a) = before ++ a.ent :: after ∧
        (∀ e ∈ before, rank e.rbKey < rank a.ent.rbKey) ∧
        ∀ e ∈ after, rank a.ent.rbKey < rank e.rbKey) := by
  obtain ⟨⟨hvalid, hcolor⟩, hpath⟩ := hok
  have hagree := h.agree hvalid hpath
  unfold step mlx5CacheEntInsert
  cases hlink : link (fun cur => cacheEntKeyCmp cur.rbKey a.ent.rbKey) a.ent root with
  | none =>
    obtain ⟨e, he, h0⟩ := link_none hagree hlink
    refine .inl ⟨rfl, rfl, e, he, rank_inj (h.valid e he) hvalid ?_⟩
    unfold ordTo at h0
    omega
  | some root' =>
    obtain ⟨before, after, heq, heq', hb, ha⟩ := link_some (h.sorted_to _) hagree hlink
    refine .inr ⟨rfl, before, after, heq, (hcolor root').trans heq', fun e he => ?_, fun e he => ?_⟩
    · have := hb e he
      unfold ordTo at this
      omega
    · have := ha e he
      unfold ordTo at this
      omega

/-- STEP: an insertion keeps the entries sorted. -/
theorem inv_step (hok : Ok root a) (h : Inv root) : Inv (step root a) := by
  rcases insert_spec h hok with ⟨-, hsame, -⟩ | ⟨-, before, after, heq, heq', hb, ha⟩
  · rwa [hsame]
  · obtain ⟨hsorted, hvalid⟩ := h
    rw [heq] at hsorted hvalid
    obtain ⟨hbefore, hafter, hcross⟩ := List.pairwise_append.mp hsorted
    constructor
    · rw [heq', List.pairwise_append, List.pairwise_cons]
      refine ⟨hbefore, ⟨ha, hafter⟩, fun x hx y hy => ?_⟩
      rcases List.mem_cons.mp hy with rfl | hy
      · exact hb x hx
      · exact hcross x hx y hy
    · rw [heq']
      intro e he
      rcases List.mem_append.mp he with he | he
      · exact hvalid e (List.mem_append_left _ he)
      · rcases List.mem_cons.mp he with rfl | he
        · exact hok.1.1
        · exact hvalid e (List.mem_append_right _ he)

/-- RUN: the entries are sorted in every reachable tree. -/
theorem inv_of_reach (h : Reach step Ok .nil root) : Inv root :=
  h.invariant ⟨List.Pairwise.nil, fun _ he => absurd he List.not_mem_nil⟩
    fun _ _ hok hinv => inv_step hok hinv

theorem Inv.distinct (h : Inv root) : (inorder root).Pairwise fun a b => a.rbKey ≠ b.rbKey :=
  h.sorted.imp fun hlt heq => absurd hlt (by rw [heq]; exact lt_irrefl _)

end Steps

/-! ### Requests -/

section Requests

variable {root : RbRoot} {key : RbKey}

/-- The first entry that is not below the request, as the search sees it. -/
inductive First (root : RbRoot) (key : RbKey) : Option CacheEnt → Prop where
  | below (h : ∀ e ∈ inorder root, rank e.rbKey < rank key) : First root key none
  | found {e : CacheEnt} (he : e ∈ inorder root) (hle : rank key ≤ rank e.rbKey)
      (hmin : ∀ e' ∈ inorder root, rank key ≤ rank e'.rbKey → rank e.rbKey ≤ rank e'.rbKey) :
      First root key (some e)

theorem Inv.first (h : Inv root) :
    First root key ((inorder root).find? fun a => decide (0 ≤ ordTo key a)) := by
  cases hfind : (inorder root).find? fun a => decide (0 ≤ ordTo key a) with
  | none =>
    refine .below fun e he => ?_
    have hno := List.find?_eq_none.mp hfind e he
    simp only [decide_eq_true_eq] at hno
    unfold ordTo at hno
    omega
  | some e =>
    obtain ⟨hp, before, after, heq, hbefore⟩ := List.find?_eq_some_iff_append.mp hfind
    have hsorted := h.sorted
    rw [heq, List.pairwise_append, List.pairwise_cons] at hsorted
    simp only [decide_eq_true_eq, Bool.not_eq_true', decide_eq_false_iff_not] at hp hbefore
    unfold ordTo at hp hbefore
    refine .found (by rw [heq]; simp) (by omega) fun e' he' hle => ?_
    rw [heq] at he'
    rcases List.mem_append.mp he' with he' | he'
    · have := hbefore e' he'
      omega
    · rcases List.mem_cons.mp he' with rfl | he'
      · exact le_rfl
      · exact (hsorted.2.1.1 e' he').le

/-- The search in terms of the first entry that is not below. -/
theorem Inv.lookup_eq (h : Inv root) (hkey : Valid key) (hp : NearPath root key) :
    mkeyCacheEntFromRbKey root key =
      match (inorder root).find? fun a => decide (0 ≤ ordTo key a) with
      | none => none
      | some e =>
        if e.rbKey = key then some e
        else if Alike e.rbKey key ∧ e.rbKey.ndescs ≤
            max (toU 32 (key.ndescs * 2 : ℕ)) MLX5_MR_CACHE_PERSISTENT_ENTRY_MIN_DESCS then some e
        else none := by
  have hfirst := @Inv.first root key h
  rw [mkeyCacheEntFromRbKey, ceiling_eq (h.sorted_to key) (h.agree hkey hp)]
  cases hfind : (inorder root).find? fun a => decide (0 ≤ ordTo key a) with
  | none => rfl
  | some e =>
    rw [hfind] at hfirst
    cases hfirst with
    | found he =>
      by_cases hexact : e.rbKey = key
      · have h0 : ordTo key e = 0 := by rw [ordTo, hexact, sub_self]
        simp only [if_pos h0, if_pos hexact]
      · have h0 : ordTo key e ≠ 0 := fun h0 =>
          hexact (rank_inj (h.valid e he) hkey (by unfold ordTo at h0; omega))
        simp only [if_neg h0, if_neg hexact]
        refine if_congr ⟨?_, ?_⟩ rfl rfl
        · rintro ⟨hmode, hflags, hats, hle⟩
          exact ⟨⟨hats, hmode, hflags⟩, hle⟩
        · rintro ⟨⟨hats, hmode, hflags⟩, hle⟩
          exact ⟨hmode, hflags, hats, hle⟩

end Requests

section Answers

variable {root : RbRoot} {key : RbKey} {e e' : CacheEnt}

/-- Alike keys lie as their numbers of descriptors do. -/
theorem rank_alike {k k' : RbKey} (h : Alike k k') : rank k ≤ rank k' ↔ k.ndescs ≤ k'.ndescs := by
  obtain ⟨hats, hmode, hflags⟩ := h
  unfold rank
  rw [hats, hmode, hflags]
  omega

theorem Alike.flip {k : RbKey} (h : Alike k key) : Alike key k :=
  ⟨h.1.symm, h.2.1.symm, h.2.2.symm⟩

/-- A key between two alike keys is alike. -/
theorem alike_between {k k' key : RbKey} (hk : Valid k) (hk' : Valid k') (hkey : Valid key)
    (h : Alike k' key) (hlo : rank key ≤ rank k) (hhi : rank k ≤ rank k') : Alike k key := by
  obtain ⟨-, h2, h3, h4⟩ := hk
  obtain ⟨-, h2', h3', h4'⟩ := hk'
  obtain ⟨-, h2'', h3'', h4''⟩ := hkey
  obtain ⟨hats, hmode, hflags⟩ := h
  unfold rank at hlo hhi
  unfold Alike
  omega

/-- No entry below the request suits it. -/
theorem not_suits_below (h : ∀ e ∈ inorder root, Alike e.rbKey key → rank e.rbKey < rank key) :
    ∀ e, ¬ Suits (inorder root) key e := by
  rintro e ⟨he, halike, hge, -, -⟩
  have hlt := h e he halike
  have hle := (rank_alike halike.flip).mpr hge
  omega

/-- An entry of exactly the key suits. -/
theorem suits_exact (he : e ∈ inorder root) (hexact : e.rbKey = key) :
    Suits (inorder root) key e := by
  subst hexact
  exact ⟨he, ⟨rfl, rfl, rfl⟩, le_rfl, fun _ _ _ hle => hle, le_max_of_le_left (by omega)⟩

theorem smallest_le (halike : Alike e.rbKey key)
    (hmin : ∀ e' ∈ inorder root, rank key ≤ rank e'.rbKey → rank e.rbKey ≤ rank e'.rbKey)
    (he' : e' ∈ inorder root) (halike' : Alike e'.rbKey key)
    (hge : key.ndescs ≤ e'.rbKey.ndescs) : e.rbKey.ndescs ≤ e'.rbKey.ndescs := by
  have hsymm : Alike key e'.rbKey := halike'.flip
  refine (rank_alike ?_).mp (hmin e' he' ((rank_alike hsymm).mpr hge))
  exact ⟨halike.1.trans hsymm.1, halike.2.1.trans hsymm.2.1, halike.2.2.trans hsymm.2.2⟩

/-- The first entry above the request is, if alike, the smallest that is large enough. -/
theorem suits_first (he : e ∈ inorder root) (halike : Alike e.rbKey key)
    (hle : rank key ≤ rank e.rbKey)
    (hmin : ∀ e' ∈ inorder root, rank key ≤ rank e'.rbKey → rank e.rbKey ≤ rank e'.rbKey) :
    Suits (inorder root) key e ↔
      e.rbKey.ndescs ≤ max (2 * key.ndescs) MLX5_MR_CACHE_PERSISTENT_ENTRY_MIN_DESCS :=
  ⟨fun h => h.2.2.2.2, fun hlim => ⟨he, halike, (rank_alike halike.flip).mp hle,
    fun _ he' halike' hge => smallest_le halike hmin he' halike' hge, hlim⟩⟩

/-- Where the first entry above the request is not alike, no entry suits. -/
theorem not_suits_first (h : Inv root) (hkey : Valid key) (he : e ∈ inorder root)
    (hno : ¬ Alike e.rbKey key) (hle : rank key ≤ rank e.rbKey)
    (hmin : ∀ e' ∈ inorder root, rank key ≤ rank e'.rbKey → rank e.rbKey ≤ rank e'.rbKey) :
    ∀ e' ∈ inorder root, Alike e'.rbKey key → rank e'.rbKey < rank key := by
  intro e' he' halike
  by_contra hge
  exact hno (alike_between (h.valid e he) (h.valid e' he') hkey halike hle
    (hmin e' he' (not_lt.mp hge)))

/-- The 32-bit bound, for a request that the bound is for. -/
theorem limit_wrap {n m : ℕ} (hn : n < 2 ^ 32) (hm : m < 2 ^ 32) (hlt : n < m) :
    (m ≤ max (toU 32 (n * 2 : ℕ)) MLX5_MR_CACHE_PERSISTENT_ENTRY_MIN_DESCS ↔
      m ≤ max (2 * n) MLX5_MR_CACHE_PERSISTENT_ENTRY_MIN_DESCS) ↔ n < 2 ^ 31 := by
  unfold toU MLX5_MR_CACHE_PERSISTENT_ENTRY_MIN_DESCS
  omega

/-- STEP: a request compared with near entries gets its answer unless the bound wraps. -/
theorem answers_iff (h : Inv root) (hkey : Valid key) (hp : NearPath root key) :
    Answers (inorder root) key (mkeyCacheEntFromRbKey root key) ↔ NoWrap (inorder root) key := by
  rw [h.lookup_eq hkey hp]
  have hfirst := @Inv.first root key h
  cases hfind : (inorder root).find? fun a => decide (0 ≤ ordTo key a) with
  | none =>
    rw [hfind] at hfirst
    cases hfirst with
    | below hall =>
      refine ⟨fun _ => .inr (.inr fun e he halike => ?_), fun _ =>
        not_suits_below fun e he _ => hall e he⟩
      exact (rank_alike halike).mp (hall e he).le
  | some e =>
    rw [hfind] at hfirst
    cases hfirst with
    | found he hle hmin =>
      by_cases hexact : e.rbKey = key
      · simp only [if_pos hexact]
        exact ⟨fun _ => .inr (.inl ⟨e, he, hexact⟩), fun _ => suits_exact he hexact⟩
      · simp only [if_neg hexact]
        by_cases halike : Alike e.rbKey key
        · have hge := (rank_alike halike.flip).mp hle
          have hne : e.rbKey.ndescs ≠ key.ndescs := fun hn => hexact
            (rank_inj (h.valid e he) hkey (Nat.le_antisymm ((rank_alike halike).mpr hn.le) hle))
          have hlt : key.ndescs < e.rbKey.ndescs := by omega
          have hwrap := limit_wrap hkey.ndescs (h.valid e he).ndescs hlt
          have hsuits := suits_first he halike hle hmin
          -- neither of the two other ways out of the condition is open
          have hcond : NoWrap (inorder root) key ↔ key.ndescs < 2 ^ 31 := by
            refine ⟨fun hnw => ?_, .inl⟩
            rcases hnw with hsmall | ⟨e', he', rfl⟩ | hall
            · exact hsmall
            · have hmin' := hmin e' he' le_rfl
              exact absurd (rank_inj (h.valid e he) hkey (Nat.le_antisymm hmin' hle)) hexact
            · have := hall e he halike
              omega
          rw [hcond, ← hwrap, ← hsuits]
          by_cases hlim : e.rbKey.ndescs ≤ max (toU 32 (key.ndescs * 2 : ℕ))
              MLX5_MR_CACHE_PERSISTENT_ENTRY_MIN_DESCS
          · rw [if_pos ⟨halike, hlim⟩]
            exact (iff_true_left hlim).symm
          · rw [if_neg fun hand => hlim hand.2]
            refine ⟨fun hnone => iff_of_false hlim (hnone e), fun hiff e' hs' => ?_⟩
            exact hlim (hiff.mpr (hsuits.mpr
              ((smallest_le halike hmin hs'.1 hs'.2.1 hs'.2.2.1).trans hs'.2.2.2.2)))
        · have hnone := not_suits_first h hkey he halike hle hmin
          rw [if_neg fun hand => halike hand.1]
          refine ⟨fun _ => .inr (.inr fun e' he' halike' => ?_), fun _ => not_suits_below hnone⟩
          exact (rank_alike halike').mp (hnone e' he' halike').le

end Answers

/-- CORRECT: in every tree that insertions build, in any order, while each key is compared with near
    ones only, no two entries have equal keys and an insertion fails only for a key that is there;
    and a request that is compared with near keys gets the entry it asks for, or none where there is
    no such entry, if and only if the 32-bit bound on the size does not wrap for it. -/
theorem mkey_lookup {root : RbRoot} (h : Reach step Ok .nil root) :
    (inorder root).Pairwise (fun a b => a.rbKey ≠ b.rbKey) ∧
    (∀ a, Ok root a →
      let r := mlx5CacheEntInsert a.rbInsertColor root a.ent
      (r.2 = none ∧ (inorder r.1).Perm (a.ent :: inorder root)) ∨
        (r.2 = some .eexist ∧ r.1 = root ∧ ∃ e ∈ inorder root, e.rbKey = a.ent.rbKey)) ∧
    ∀ key, Valid key → NearPath root key →
      (Answers (inorder root) key (mkeyCacheEntFromRbKey root key) ↔
        NoWrap (inorder root) key) := by
  have hinv := inv_of_reach h
  refine ⟨hinv.distinct, fun a hok => ?_, fun key hkey hp => answers_iff hinv hkey hp⟩
  rcases insert_spec hinv hok with hsame | ⟨hrc, before, after, heq, heq', -, -⟩
  · exact .inr hsame
  · refine .inl ⟨hrc, ?_⟩
    rw [heq]
    exact (List.Perm.of_eq heq').trans List.perm_middle

/-- The smallest persistent entry, for translation tables (`MLX5_MKC_ACCESS_MODE_MTT`). -/
def smallEnt : CacheEnt := ⟨0, ⟨0, 1, 0, 4⟩⟩

/-- A tree of two entries: of 4 and of 16 descriptors. -/
def twoEnts : RbRoot := .node smallEnt .nil (.node ⟨1, ⟨0, 1, 0, 16⟩⟩ .nil .nil)

/-- Two insertions and a request for 9 descriptors, which the entry of 16 serves. -/
theorem mkey_lookup_demo : mkeyCacheEntFromRbKey twoEnts ⟨0, 1, 0, 9⟩ = some ⟨1, ⟨0, 1, 0, 16⟩⟩ ∧
    Answers (inorder twoEnts) ⟨0, 1, 0, 9⟩ (mkeyCacheEntFromRbKey twoEnts ⟨0, 1, 0, 9⟩) := by
  have hsmall : Ok .nil ⟨smallEnt, id⟩ :=
    ⟨⟨⟨by decide, by decide, by decide, by decide⟩, fun _ => rfl⟩, trivial⟩
  have hnext : Ok (step .nil ⟨smallEnt, id⟩) ⟨⟨1, ⟨0, 1, 0, 16⟩⟩, id⟩ :=
    ⟨⟨⟨by decide, by decide, by decide, by decide⟩, fun _ => rfl⟩,
      by unfold NearPath; decide +kernel⟩
  have hreach : Reach step Ok .nil twoEnts := (Reach.start.next hsmall).next hnext
  have hnear : NearPath twoEnts ⟨0, 1, 0, 9⟩ := by unfold NearPath; decide +kernel
  refine ⟨by decide +kernel, ?_⟩
  exact ((mkey_lookup hreach).2.2 _ ⟨by decide, by decide, by decide, by decide⟩ hnear).mpr
    (.inl (by decide))

/-- BROKEN: beside a persistent entry, an entry of 4 descriptors with access flags of its own serves
    a request for 2³¹ + 8. -/
theorem mkey_lookup_broken : ¬ ∀ root, Reach step Sane .nil root → ∀ key, Valid key →
    Answers (inorder root) key (mkeyCacheEntFromRbKey root key) := by
  intro hall
  have hsmall : Sane .nil ⟨smallEnt, id⟩ :=
    ⟨⟨by decide, by decide, by decide, by decide⟩, fun _ => rfl⟩
  have hown : Sane (step .nil ⟨smallEnt, id⟩) ⟨⟨1, ⟨0, 1, 1, 4⟩⟩, id⟩ :=
    ⟨⟨by decide, by decide, by decide, by decide⟩, fun _ => rfl⟩
  have hans := hall _ ((Reach.start.next hsmall).next hown) ⟨0, 1, 1, 2 ^ 31 + 8⟩
    ⟨by decide, by decide, by decide, by decide⟩
  exact absurd hans.2.2.1 (by decide)

end RdmaDriver.MkeyTree
