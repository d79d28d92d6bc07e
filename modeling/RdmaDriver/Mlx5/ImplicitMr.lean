import RdmaDriver.Mlx5.UpdateXlt
import RdmaDriver.Schemes.Run
import RdmaDriver.Schemes.Tally

/-! @src drivers/infiniband/hw/mlx5/odp.c | name:implicit ODP MR | scheme:run | family:interleaving

    An implicit ODP region covers the whole address space. A page fault creates a child region for
    each GiB that it touches, puts it into `implicit_children` and names it in the parent's table
    (KSM). An invalidation that empties a child takes it out of `implicit_children`; a work waits for
    those that still use it, rewrites the parent's table and destroys the child's mkey.

        fault       loop -> create -> publish -> store -> real -> deref -> loop … out -> update
        invalidate  xa_erase, queue_work
        work        queued -> waiting -> update -> updated -> dereged -> done

    `implicit_children` changes without the mutex under which the table is written, so a step is
    what no one else can see the inside of: an access to `implicit_children` or to a counter, a read
    of one entry for the table, a post of those read so far. UMR posts succeed. What the pages of a
    child do is in `OdpMr`; here `pagefault_real_mr` returns what it is told to. -/

namespace RdmaDriver.ImplicitMr
open Schemes UpdateXlt Function
open Finset (range sum_nonneg)

def MLX5_IMR_MTT_SHIFT : ℕ := 30
def MLX5_IMR_MTT_SIZE : ℕ := 2 ^ MLX5_IMR_MTT_SHIFT

/-- `sizeof(struct mlx5_klm)`. -/
def sizeofKlm : ℕ := 16

/-- What is fixed: the capability `mem_page_fault` and the size of the parent's table. -/
structure Dev where
  memPageFault : Bool
  ksmEntries : ℕ
  fits : ksmEntries * MLX5_IMR_MTT_SIZE < 2 ^ 64

/-- Where a page fault is: about to begin a round, in `implicit_get_child_mr`, before and after
    `pagefault_real_mr`, at the label `out`, under `umem_mutex`, and back. -/
inductive Pc where
  | loop
  | create
  | publish (mr : ℕ)
  | store (mr : ℕ)
  | real (mtt : ℕ)
  | deref (mtt : ℕ) (ret : Except Errno ℕ)
  | out (ret : Except Errno ℕ)
  | update (ret : Except Errno ℕ)
  | done (ret : Except Errno ℕ)

/-- A call of `pagefault_real_mr` that succeeded. -/
structure Piece where
  mtt : ℕ
  userVa : ℕ
  len : ℕ
  deriving DecidableEq

/-- The variables of `pagefault_implicit_mr`; the last three fields are history: the range it was called
    for, and its successful calls of `pagefault_real_mr`. -/
structure Fault where
  userVa : ℕ
  bcnt : ℕ
  updStartIdx : ℕ
  updLen : ℕ
  npages : ℕ
  pc : Pc
  start : ℕ
  stop : ℕ
  pieces : List Piece

def Fault.idx (f : Fault) : ℕ := f.userVa / MLX5_IMR_MTT_SIZE

/-- A child region: its `usecount`, whether pages of it are mapped, whether its mkey is destroyed, and
    (history) the fault that created it. -/
structure Child where
  idx : ℕ
  usecount : ℤ
  mapped : Bool
  destroyed : Bool
  creator : ℕ
  deriving DecidableEq

/-- Where `free_implicit_child_mr_work` is. -/
inductive WorkPc where
  | queued | waiting | update | updated | dereged | done
  deriving DecidableEq

structure Work where
  mr : ℕ
  pc : WorkPc
  deriving DecidableEq

inductive Owner where
  | fault (t : ℕ)
  | work (w : ℕ)
  deriving DecidableEq

/-- `mlx5r_umr_update_xlt` under `umem_mutex`: entries below `lo` are posted, those below `next` are
    read into the buffer, those below `stop` are still to be read. -/
structure Update where
  owner : Owner
  lo : ℕ
  next : ℕ
  stop : ℕ
  buf : ℕ → Option ℕ

/-- The implicit region: `implicit_children`, its children, page faults and works by number, its table,
    the holder of `umem_mutex` and `usecount`. -/
structure Imr where
  implicitChildren : ℕ → Option ℕ
  child : ℕ → Child
  nchild : ℕ
  fault : ℕ → Fault
  nfault : ℕ
  work : ℕ → Work
  nwork : ℕ
  ksm : ℕ → Option ℕ
  umemMutex : Option Update
  usecount : ℤ

def Imr.init : Imr :=
  ⟨fun _ => none, fun _ => ⟨0, 0, false, true, 0⟩, 0, fun _ => ⟨0, 0, 0, 0, 0, .done (.ok 0), 0, 0, []⟩,
    0, fun _ => ⟨0, .done⟩, 0, fun _ => none, none, 1⟩

namespace Imr
variable (s : Imr)

def setFault (t : ℕ) (f : Fault) : Imr := { s with fault := update s.fault t f }
def setChild (c : ℕ) (m : Child) : Imr := { s with child := update s.child c m }
def setWork (w : ℕ) (x : Work) : Imr := { s with work := update s.work w x }
def setSlot (i : ℕ) (c : Option ℕ) : Imr :=
  { s with implicitChildren := update s.implicitChildren i c }

/-- `refcount_inc`, `refcount_dec` of a child's mkey. -/
def addChild (c : ℕ) (n : ℤ) : Imr :=
  s.setChild c { s.child c with usecount := (s.child c).usecount + n }

/-- `mlx5_ib_dereg_mr` of a child. -/
def dereg (c : ℕ) : Imr := s.setChild c { s.child c with destroyed := true }

end Imr

/-! ### Code -/

/-- The beginning of `pagefault_implicit_mr`. -/
def faultStart (dev : Dev) (userVa bcnt : ℕ) : Fault :=
  let endIdx := toU 64 ((userVa : ℤ) + bcnt - 1) / MLX5_IMR_MTT_SIZE
  let size := dev.ksmEntries * MLX5_IMR_MTT_SIZE
  ⟨userVa, bcnt, endIdx + 1, 0, 0,
    if size ≤ userVa ∨ size - userVa < bcnt then .done (.error .efault) else .loop,
    userVa, userVa + bcnt, []⟩

/-- The range of the table that the fault has to rewrite, with a child made or adopted. -/
def Fault.created (f : Fault) : Fault :=
  let updStartIdx := min f.updStartIdx f.idx
  { f with updStartIdx, updLen := f.idx - updStartIdx + 1 }

def Fault.at (f : Fault) (pc : Pc) : Fault := { f with pc }

/-- The head of the loop: is there more, and is there a child. -/
def faultLoop (s : Imr) (t : ℕ) : Imr :=
  let f := s.fault t
  if f.bcnt = 0 then s.setFault t (f.at (.out (.ok f.npages)))
  else match s.implicitChildren f.idx with
    | none => s.setFault t (f.at .create)
    | some mtt => (s.addChild mtt 1).setFault t (f.at (.real mtt))

/-- `implicit_get_child_mr` up to the UMR of the child; `err` is what fails. -/
def childCreate (s : Imr) (t : ℕ) (err : Option Errno) : Imr :=
  let f := s.fault t
  match err with
  | some e => s.setFault t (f.at (.out (.error e)))
  | none => ({ s with nchild := s.nchild + 1 }.setChild s.nchild ⟨f.idx, 2, false, false, t⟩).setFault t
      (f.at (.publish s.nchild))

/-- `__xa_cmpxchg`: the child is put into the slot, or another one was faster, or there is no memory. -/
def childPublish (dev : Dev) (s : Imr) (t mr : ℕ) (err : Option Errno) : Imr :=
  let f := s.fault t
  match s.implicitChildren f.idx with
  | some ret => ((s.addChild ret 1).dereg mr).setFault t (f.created.at (.real ret))
  | none => match err with
    | some e => (s.dereg mr).setFault t (f.at (.out (.error e)))
    | none =>
      let s := s.setSlot f.idx (some mr)
      if dev.memPageFault then s.setFault t (f.at (.store mr))
      else s.setFault t (f.created.at (.real mr))

/-- `xa_store` into `odp_mkeys`. -/
def childStore (s : Imr) (t mr : ℕ) (err : Option Errno) : Imr :=
  let f := s.fault t
  match err with
  | none => s.setFault t (f.created.at (.real mr))
  | some e => ((s.setSlot f.idx none).dereg mr).setFault t (f.at (.out (.error e)))

/-- `pagefault_real_mr` on the child. -/
def faultReal (s : Imr) (t mtt : ℕ) (ret : Except Errno ℕ) (mapped : Bool) : Imr :=
  (s.setChild mtt { s.child mtt with mapped := (s.child mtt).mapped || mapped }).setFault t
    ((s.fault t).at (.deref mtt ret))

/-- How much of the range lies in the child. -/
def Fault.len (f : Fault) (m : Child) : ℕ :=
  min (toU 64 (f.userVa + f.bcnt : ℕ)) ((m.idx + 1) * MLX5_IMR_MTT_SIZE) - f.userVa

/-- `mlx5r_deref_odp_mkey` and the end of a round. -/
def faultDeref (s : Imr) (t mtt : ℕ) (ret : Except Errno ℕ) : Imr :=
  let f := s.fault t
  let s := s.addChild mtt (-1)
  match ret with
  | .error e => s.setFault t (f.at (.out (.error e)))
  | .ok n =>
    let len := f.len (s.child mtt)
    s.setFault t { f with
      userVa := f.userVa + len
      bcnt := f.bcnt - len
      npages := f.npages + n
      pc := .loop
      pieces := ⟨mtt, f.userVa, len⟩ :: f.pieces }

/-- `mutex_lock` and the range of the table that the UMR rewrites. -/
def lockUpdate (s : Imr) (owner : Owner) (idx n : ℕ) : Imr :=
  let pageAlign := MLX5_UMR_FLEX_ALIGNMENT / sizeofKlm
  let lo := idx - idx % pageAlign
  { s with umemMutex := some ⟨owner, lo, lo, lo + align (n + idx % pageAlign) pageAlign,
      fun _ => none⟩ }

/-- The label `out`. -/
def faultOut (s : Imr) (t : ℕ) (ret : Except Errno ℕ) : Imr :=
  let f := s.fault t
  if f.updLen = 0 then s.setFault t (f.at (.done ret))
  else (lockUpdate s (.fault t) f.updStartIdx f.updLen).setFault t (f.at (.update ret))

/-- `populate_klm` reads one entry. -/
def updateRead (s : Imr) (u : Update) : Imr :=
  { s with umemMutex := some { u with
      next := u.next + 1
      buf := update u.buf u.next (s.implicitChildren u.next) } }

/-- A post of the entries read so far. -/
def updatePost (s : Imr) (u : Update) : Imr :=
  { s with
    ksm := fun i => if u.lo ≤ i ∧ i < u.next then u.buf i else s.ksm i
    umemMutex := some { u with lo := u.next } }

/-- `mutex_unlock`. -/
def updateUnlock (s : Imr) (u : Update) : Imr :=
  let s := { s with umemMutex := none }
  match u.owner with
  | .work w => s.setWork w { s.work w with pc := .updated }
  | .fault t => match (s.fault t).pc with
    | .update ret => s.setFault t ((s.fault t).at (.done ret))
    | _ => s

/-- `destroy_unused_implicit_child_mr`. -/
def destroyUnusedImplicitChildMr (s : Imr) (mr : ℕ) : Imr :=
  if s.usecount = 0 then s
  else { s.setSlot (s.child mr).idx none with
    usecount := s.usecount + 1
    work := update s.work s.nwork ⟨mr, .queued⟩
    nwork := s.nwork + 1 }

/-- The invalidation of a child's pages; `empties` says that no page is left. -/
def invalidate (s : Imr) (mr : ℕ) (empties : Bool) : Imr :=
  if (s.child mr).mapped ∧ empties then
    destroyUnusedImplicitChildMr (s.setChild mr { s.child mr with mapped := false }) mr
  else s

/-- `free_implicit_child_mr_work`, step by step. -/
def freeImplicitChildMrWork (s : Imr) (w : ℕ) : Imr :=
  let x := s.work w
  match x.pc with
  | .queued => (s.addChild x.mr (-1)).setWork w { x with pc := .waiting }
  | .waiting => (lockUpdate s (.work w) (s.child x.mr).idx 1).setWork w { x with pc := .update }
  | .updated => (s.dereg x.mr).setWork w { x with pc := .dereged }
  | .dereged => { s with usecount := s.usecount - 1 }.setWork w { x with pc := .done }
  | .update | .done => s

/-! ### Runs and what holds of them -/

/-- A step of a page fault by its number, of the holder of `umem_mutex`, of a notifier or of a work. What
    fails and what `pagefault_real_mr` does is part of it. -/
inductive Op where
  | fault (userVa bcnt : ℕ)
  | loop (t : ℕ)
  | create (t : ℕ) (err : Option Errno)
  | publish (t : ℕ) (err : Option Errno)
  | store (t : ℕ) (err : Option Errno)
  | real (t : ℕ) (ret : Except Errno ℕ) (mapped : Bool)
  | deref (t : ℕ)
  | out (t : ℕ)
  | read
  | post
  | unlock
  | invalidate (mr : ℕ) (empties : Bool)
  | work (w : ℕ)

def step (dev : Dev) (s : Imr) : Op → Imr
  | .fault userVa bcnt =>
    { s with nfault := s.nfault + 1 }.setFault s.nfault (faultStart dev userVa bcnt)
  | .loop t => match (s.fault t).pc with
    | .loop => faultLoop s t
    | _ => s
  | .create t err => match (s.fault t).pc with
    | .create => childCreate s t err
    | _ => s
  | .publish t err => match (s.fault t).pc with
    | .publish mr => childPublish dev s t mr err
    | _ => s
  | .store t err => match (s.fault t).pc with
    | .store mr => childStore s t mr err
    | _ => s
  | .real t ret mapped => match (s.fault t).pc with
    | .real mtt => faultReal s t mtt ret mapped
    | _ => s
  | .deref t => match (s.fault t).pc with
    | .deref mtt ret => faultDeref s t mtt ret
    | _ => s
  | .out t => match (s.fault t).pc with
    | .out ret => faultOut s t ret
    | _ => s
  | .read => match s.umemMutex with
    | some u => updateRead s u
    | none => s
  | .post => match s.umemMutex with
    | some u => updatePost s u
    | none => s
  | .unlock => match s.umemMutex with
    | some u => updateUnlock s u
    | none => s
  | .invalidate mr empties => invalidate s mr empties
  | .work w => freeImplicitChildMrWork s w

/-- When a step can be taken: the mutex is free, the counter is zero, the update has come so far; only a
    child that is there is invalidated. -/
def ok (s : Imr) : Op → Prop
  | .fault userVa bcnt => userVa < 2 ^ 64 ∧ bcnt < 2 ^ 64
  | .out t => (s.fault t).updLen = 0 ∨ s.umemMutex = none
  | .read => ∀ u, s.umemMutex = some u → u.next < u.stop
  | .unlock => ∀ u, s.umemMutex = some u → u.lo = u.stop ∧ u.next = u.stop
  | .invalidate mr _ => mr < s.nchild ∧ (s.child mr).destroyed = false
  | .work w => w < s.nwork ∧ ((s.work w).pc = .waiting →
      (s.child (s.work w).mr).usecount = 0 ∧ s.umemMutex = none)
  | _ => True

/-- What the table will have for an index once the entries read so far are posted. -/
def Imr.view (s : Imr) (i : ℕ) : Option ℕ :=
  match s.umemMutex with
  | some u => if u.lo ≤ i ∧ i < u.next then u.buf i else s.ksm i
  | none => s.ksm i

/-- When a step does what it should: an invalidation empties no child that is out of `implicit_children`
    already; and `xa_store` fails only for a child that is still there and that no one else has seen,
    neither a fault nor an update of the table. -/
def Meets (s : Imr) : Op → Prop
  | .store t (some _) => ∀ mr, (s.fault t).pc = .store mr →
      s.implicitChildren (s.fault t).idx = some mr ∧ (s.child mr).usecount = 2 ∧
      s.view (s.fault t).idx ≠ some mr ∧ s.ksm (s.fault t).idx ≠ some mr
  | .invalidate mr true => (s.child mr).mapped = true →
      s.implicitChildren (s.child mr).idx = some mr
  | _ => True

/-- How many references to a child a page fault has: both of one that is not yet published. -/
def Pc.refs (c : ℕ) : Pc → ℤ
  | .publish mr => if mr = c then 2 else 0
  | .store mr => if mr = c then 1 else 0
  | .real mtt => if mtt = c then 1 else 0
  | .deref mtt _ => if mtt = c then 1 else 0
  | _ => 0

/-- A work that has not started has the reference of `implicit_children`. -/
def Work.refs (c : ℕ) (x : Work) : ℤ := if x.mr = c ∧ x.pc = .queued then 1 else 0

/-- A work that has not finished has a reference to the parent. -/
def Work.parentRefs (x : Work) : ℤ := if x.pc = .done then 0 else 1

open Finset in
/-- The references to a child that are held. -/
def Imr.refs (s : Imr) (c : ℕ) : ℤ :=
  ∑ t ∈ range s.nfault, (s.fault t).pc.refs c + ∑ w ∈ range s.nwork, (s.work w).refs c +
    if s.implicitChildren (s.child c).idx = some c then 1 else 0

/-- What should hold in every state. -/
structure Sound (s : Imr) : Prop where
  slot : ∀ i c, s.implicitChildren i = some c →
    c < s.nchild ∧ (s.child c).idx = i ∧ (s.child c).destroyed = false
  ksm : ∀ i c, s.ksm i = some c → c < s.nchild ∧ (s.child c).idx = i ∧ (s.child c).destroyed = false
  named : ∀ i c ret, s.implicitChildren i = some c →
    (s.fault (s.child c).creator).pc = .done ret → s.ksm i = some c
  held : ∀ t c, (s.fault t).pc.refs c ≠ 0 → (s.child c).destroyed = false
  childRefs : ∀ c < s.nchild, (s.child c).destroyed = false → (s.child c).usecount = s.refs c
  works : ∀ w < s.nwork, ∀ x < s.nwork, (s.work w).mr = (s.work x).mr → w = x
  parentRefs : s.usecount = 1 + ∑ w ∈ range s.nwork, (s.work w).parentRefs
  covered : ∀ t n, (s.fault t).pc = .done (.ok n) →
    ∀ x, (s.fault t).start ≤ x → x < (s.fault t).stop → ∃ p ∈ (s.fault t).pieces,
      p.userVa ≤ x ∧ x < p.userVa + p.len ∧ (s.child p.mtt).idx = x / MLX5_IMR_MTT_SIZE

/-! ### References -/

theorem Pc.refs_nonneg (pc : Pc) (c : ℕ) : 0 ≤ pc.refs c := by
  cases pc <;> simp only [Pc.refs, le_refl] <;> split <;> decide

theorem Work.refs_nonneg (x : Work) (c : ℕ) : 0 ≤ x.refs c := by
  unfold Work.refs
  split <;> decide

section Refs
variable {s r : Imr} {t w c : ℕ}

open Finset in
/-- One fault holds more or fewer references. -/
theorem refs_fault {f : Fault} (ht : t < s.nfault) (hf : r.fault = update s.fault t f)
    (hn : r.nfault = s.nfault) (c : ℕ) :
    ∑ k ∈ range r.nfault, (r.fault k).pc.refs c =
      ∑ k ∈ range s.nfault, (s.fault k).pc.refs c + (f.pc.refs c - (s.fault t).pc.refs c) := by
  rw [hn, hf]
  have h := sum_change (f := fun k => (update s.fault t f k).pc.refs c)
    (g := fun k => (s.fault k).pc.refs c) ht fun k hk => by simp only [update_of_ne hk]
  simpa only [update_self] using h

open Finset in
/-- One work goes on. -/
theorem sum_work {x : Work} (hw : w < s.nwork) (hx : r.work = update s.work w x)
    (hn : r.nwork = s.nwork) (g : Work → ℤ) :
    ∑ k ∈ range r.nwork, g (r.work k) =
      ∑ k ∈ range s.nwork, g (s.work k) + (g x - g (s.work w)) := by
  rw [hn, hx]
  have h := sum_change (f := fun k => g (update s.work w x k)) (g := fun k => g (s.work k)) hw
    fun k hk => by simp only [update_of_ne hk]
  simpa only [update_self] using h

open Finset in
/-- One work more. -/
theorem sum_work_new (x : Work) (g : Work → ℤ) :
    ∑ w ∈ range (s.nwork + 1), g (update s.work s.nwork x w) =
      ∑ w ∈ range s.nwork, g (s.work w) + g x := by
  rw [sum_range_succ, update_self]
  refine congrArg (· + g x) (sum_congr rfl fun w hw => ?_)
  rw [update_of_ne (mem_range.mp hw).ne]

end Refs

/-! ### Invariants -/

def Pc.Active : Pc → Prop
  | .update _ | .done _ => False
  | _ => True

/-- The part of the table that the fault has to rewrite. -/
def Fault.Range (f : Fault) (i : ℕ) : Prop := f.updStartIdx ≤ i ∧ i < f.updStartIdx + f.updLen

/-- The fault will still rewrite the entry. -/
def Pending (s : Imr) (t i : ℕ) : Prop :=
  (∃ mr, (s.fault t).pc = .store mr ∧ i = (s.fault t).idx) ∨ (s.fault t).Range i ∧
    ((s.fault t).pc.Active ∨ ∃ u, s.umemMutex = some u ∧ u.owner = .fault t ∧ u.next ≤ i ∧ i < u.stop)

/-- The table names the child, or will do with the next post. -/
def Named (s : Imr) (i c : ℕ) : Prop :=
  s.ksm i = some c ∨ ∃ u, s.umemMutex = some u ∧ u.lo ≤ i ∧ i < u.next ∧ u.buf i = some c

/-- What a page fault has done so far. -/
structure Local (s : Imr) (f : Fault) : Prop where
  total : f.pc = .done (.error .efault) ∨ f.userVa + f.bcnt = f.stop ∧ f.stop < 2 ^ 64
  pieces : ∀ x, f.start ≤ x → x < f.userVa → ∃ p ∈ f.pieces, p.userVa ≤ x ∧
    x < p.userVa + p.len ∧ p.mtt < s.nchild ∧ (s.child p.mtt).idx = x / MLX5_IMR_MTT_SIZE
  upd : f.updLen ≠ 0 → f.updStartIdx + f.updLen ≤ f.idx + 1
  finished : ∀ n, f.pc = .out (.ok n) ∨ f.pc = .update (.ok n) ∨ f.pc = .done (.ok n) → f.bcnt = 0

structure Inv (s : Imr) : Prop where
  slot : ∀ i c, s.implicitChildren i = some c →
    c < s.nchild ∧ (s.child c).idx = i ∧ (s.child c).destroyed = false
  creator : ∀ c < s.nchild, (s.child c).creator < s.nfault
  started : ∀ t, (∀ ret, (s.fault t).pc ≠ .done ret) → t < s.nfault
  held : ∀ t c, (s.fault t).pc.refs c ≠ 0 →
    c < s.nchild ∧ (s.child c).destroyed = false ∧ (s.child c).idx = (s.fault t).idx
  fresh : ∀ t c, (s.fault t).pc = .publish c → (s.child c).creator = t ∧
    s.implicitChildren (s.child c).idx ≠ some c ∧ (∀ w < s.nwork, (s.work w).mr ≠ c) ∧
    ∀ t', t' ≠ t → (s.fault t').pc.refs c = 0
  stored : ∀ t c, (s.fault t).pc = .store c → (s.child c).creator = t
  work : ∀ w < s.nwork, (s.work w).mr < s.nchild ∧
    s.implicitChildren (s.child (s.work w).mr).idx ≠ some (s.work w).mr
  once : ∀ w < s.nwork, ∀ x < s.nwork, (s.work w).mr = (s.work x).mr → w = x
  idle : ∀ w < s.nwork, (s.work w).pc ≠ .queued → (s.work w).pc ≠ .waiting →
    ∀ t, (s.fault t).pc.refs (s.work w).mr = 0
  childRefs : ∀ c < s.nchild, (s.child c).destroyed = false → (s.child c).usecount = s.refs c
  parentRefs : s.usecount = 1 + ∑ w ∈ range s.nwork, (s.work w).parentRefs
  named : ∀ i c, Named s i c → c < s.nchild ∧ (s.child c).idx = i ∧ (s.child c).destroyed = false ∧
    (∀ t, (s.fault t).pc ≠ .publish c) ∧ ∀ w < s.nwork, (s.work w).mr = c →
      (s.work w).pc = .queued ∨ (s.work w).pc = .waiting ∨ (s.work w).pc = .update
  lock : ∀ u, s.umemMutex = some u → u.lo ≤ u.next ∧ u.next ≤ u.stop ∧ match u.owner with
    | .fault t => ∃ ret, (s.fault t).pc = .update ret
    | .work w => w < s.nwork ∧ (s.work w).pc = .update ∧
      (s.child (s.work w).mr).idx < u.stop ∧ ((s.child (s.work w).mr).idx < u.next →
        ¬ s.view (s.child (s.work w).mr).idx = some (s.work w).mr)
  updating : ∀ t ret, (s.fault t).pc = .update ret → ∃ u, s.umemMutex = some u ∧ u.owner = .fault t
  updateWork : ∀ w < s.nwork, (s.work w).pc = .update → ∃ u, s.umemMutex = some u ∧ u.owner = .work w
  pending : ∀ i c, s.implicitChildren i = some c → Pending s (s.child c).creator i ∨
    s.view i = some c ∧ (s.ksm i = some c ∨
      ∃ u, s.umemMutex = some u ∧ u.owner = .fault (s.child c).creator)
  faults : ∀ t, Local s (s.fault t)

section Steps
variable {s s' : Imr} {t : ℕ}

theorem Local.congr {f : Fault} (h : Local s f) (hn : s.nchild ≤ s'.nchild)
    (hidx : ∀ c < s.nchild, (s'.child c).idx = (s.child c).idx) : Local s' f := { h with
  pieces x h₁ h₂ := by
    obtain ⟨p, hp, ha, hb, hc, hi⟩ := h.pieces x h₁ h₂
    exact ⟨p, hp, ha, hb, by omega, (hidx _ hc).trans hi⟩ }

/-- A slot is emptied. -/
theorem slot_cleared {sl : ℕ → Option ℕ} {i j c : ℕ} :
    update sl j none i = some c ↔ i ≠ j ∧ sl i = some c := by
  rcases eq_or_ne i j with rfl | hne
  · rw [update_self]
    exact ⟨nofun, fun h => absurd rfl h.1⟩
  · rw [update_of_ne hne, and_iff_right hne]

theorem slot_other {sl : ℕ → Option ℕ} {i j c mr : ℕ} (hs : sl j = some mr) (hne : c ≠ mr) :
    update sl j none i = some c ↔ sl i = some c := by
  refine slot_cleared.trans (and_iff_right_of_imp fun hi heq => hne ?_)
  rw [heq, hs] at hi
  exact (Option.some.inj hi).symm

theorem Inv.not_published (h : Inv s) {i c : ℕ} (hs : s.implicitChildren i = some c) (t : ℕ) :
    (s.fault t).pc ≠ .publish c := by
  intro hp
  have := (h.slot i c hs).2.1
  exact (h.fresh t c hp).2.1 (this ▸ hs)

theorem Inv.no_work (h : Inv s) {i c : ℕ} (hs : s.implicitChildren i = some c) :
    ∀ w < s.nwork, (s.work w).mr ≠ c := by
  rintro w hw rfl
  have := (h.slot i _ hs).2.1
  exact (h.work w hw).2 (this ▸ hs)

/-- What a page fault does in a step: it may put a child that it has made into its slot or take it out,
    create one, destroy one that no one else knows, and take and drop references. -/
structure Turn (s : Imr) (t : ℕ) (f : Fault) (m : ℕ → Child) (sl : ℕ → Option ℕ) (n nf : ℕ) :
    Prop where
  nchild : s.nchild ≤ n
  nfault : s.nfault ≤ nf
  started : t < nf
  sum : ∀ c, ∑ k ∈ range nf, (update s.fault t f k).pc.refs c =
    ∑ k ∈ range s.nfault, (s.fault k).pc.refs c + (f.pc.refs c - (s.fault t).pc.refs c)
  left : ∀ ret, (s.fault t).pc ≠ .update ret
  enters : ∀ ret, f.pc ≠ .update ret
  keep : ∀ c < s.nchild, (m c).idx = (s.child c).idx ∧ (m c).creator = (s.child c).creator
  new : ∀ c, s.nchild ≤ c → c < n → (m c).creator = t ∧ (m c).usecount = f.pc.refs c
  slot : ∀ i c, sl i = some c → s.implicitChildren i = some c ∨ c < s.nchild ∧
    (s.child c).idx = i ∧ (s.fault t).pc = .publish c ∧ f.pc.Active ∧
      ((f.pc = .store c ∧ i = f.idx) ∨ f.Range i)
  destroyed : ∀ c < s.nchild, (m c).destroyed = (s.child c).destroyed ∨ (m c).destroyed = true ∧
    f.pc.refs c = 0 ∧ (∀ t', t' ≠ t → (s.fault t').pc.refs c = 0) ∧
      ¬ Named s (s.child c).idx c ∧ sl (s.child c).idx ≠ some c
  usecount : ∀ c < s.nchild, (m c).destroyed = false →
    (m c).usecount + (if s.implicitChildren (s.child c).idx = some c then 1 else 0) =
      (s.child c).usecount + (f.pc.refs c - (s.fault t).pc.refs c) +
        if sl (s.child c).idx = some c then 1 else 0
  held : ∀ c, f.pc.refs c ≠ 0 → c < n ∧ (m c).destroyed = false ∧ (m c).idx = f.idx ∧
    ((s.fault t).pc.refs c ≠ 0 ∨ s.implicitChildren (s.child c).idx = some c ∨ s.nchild ≤ c)
  publish : ∀ c, f.pc = .publish c → s.nchild ≤ c
  store : ∀ c, f.pc = .store c → (s.fault t).pc = .publish c
  ranged : ∀ i c, sl i = some c → (s.child c).creator = t → ((s.fault t).Range i ∨
    (∃ mr, (s.fault t).pc = .store mr) ∧ i = (s.fault t).idx) → f.Range i ∧ f.pc.Active
  locals : Local s f

theorem refs_of_publish {c : ℕ} (hp : (s.fault t).pc = .publish c) : (s.fault t).pc.refs c ≠ 0 := by
  rw [hp, Pc.refs, if_pos rfl]
  decide

section Turn
variable {f : Fault} {m : ℕ → Child} {sl : ℕ → Option ℕ} {n nf c : ℕ}

/-- A new child is in no fault, no work and no slot. -/
theorem Inv.refs_new (h : Inv s) (hc : s.nchild ≤ c) (t : ℕ) : (s.fault t).pc.refs c = 0 := by
  by_contra hr
  exact absurd (h.held t c hr).1 (by omega)

variable (h : Inv s) (tr : Turn s t f m sl n nf)
include tr

theorem Turn.vacant (hs : s.implicitChildren (s.child c).idx ≠ some c)
    (hp : (s.fault t).pc ≠ .publish c) : sl (s.child c).idx ≠ some c := fun hi =>
  (tr.slot _ _ hi).elim hs fun hi => hp hi.2.2.1

/-- What a fault, the table or a slot knows is not destroyed. -/
theorem Turn.alive (hc : c < s.nchild) (hcase : f.pc.refs c ≠ 0 ∨
      (∃ t', t' ≠ t ∧ (s.fault t').pc.refs c ≠ 0) ∨ Named s (s.child c).idx c ∨
        sl (s.child c).idx = some c) : (m c).destroyed = (s.child c).destroyed := by
  refine (tr.destroyed c hc).resolve_right ?_
  rintro ⟨-, hr, hother, hnamed, hslot⟩
  rcases hcase with h₁ | ⟨t', hne, h₁⟩ | h₁ | h₁
  · exact h₁ hr
  · exact h₁ (hother t' hne)
  · exact hnamed h₁
  · exact hslot h₁

/-- The fault gets no reference to a child that only another fault or a started work has. -/
theorem Turn.refs_zero (hc : c < s.nchild) (hs : s.implicitChildren (s.child c).idx ≠ some c)
    (h0 : (s.fault t).pc.refs c = 0) : f.pc.refs c = 0 := by
  by_contra hr
  rcases (tr.held c hr).2.2.2 with h₁ | h₁ | h₁
  · exact h₁ h0
  · exact hs h₁
  · omega

include h

/-- A slot that is full was so before, or has the child that the fault had to publish. -/
theorem Turn.slotted {i : ℕ} (hi : sl i = some c) :
    c < s.nchild ∧ (s.child c).idx = i ∧ (s.child c).destroyed = false := by
  rcases tr.slot i c hi with hs | ⟨hc, hci, hp, -⟩
  · exact h.slot i c hs
  · exact ⟨hc, hci, (h.held t c (refs_of_publish hp)).2.1⟩

theorem Turn.held_step (t' : ℕ) (hr : (update s.fault t f t').pc.refs c ≠ 0) :
    c < n ∧ (m c).destroyed = false ∧ (m c).idx = (update s.fault t f t').idx := by
  rcases eq_or_ne t' t with rfl | hne
  · rw [update_self] at hr ⊢
    obtain ⟨hc, hd, hi, -⟩ := tr.held c hr
    exact ⟨hc, hd, hi⟩
  · rw [update_of_ne hne] at hr ⊢
    obtain ⟨hc, hd, hi⟩ := h.held t' c hr
    exact ⟨hc.trans_le tr.nchild, (tr.alive hc (.inr (.inl ⟨t', hne, hr⟩))).trans hd,
      (tr.keep c hc).1.trans hi⟩

theorem Turn.fresh_step (t' : ℕ) (hp : (update s.fault t f t').pc = .publish c) :
    (m c).creator = t' ∧ sl (m c).idx ≠ some c ∧ (∀ w < s.nwork, (s.work w).mr ≠ c) ∧
      ∀ t'', t'' ≠ t' → (update s.fault t f t'').pc.refs c = 0 := by
  rcases eq_or_ne t' t with rfl | hne
  · -- the child is new
    rw [update_self] at hp
    have hge := tr.publish c hp
    have hc := (tr.held c (by rw [hp, Pc.refs, if_pos rfl]; decide)).1
    refine ⟨(tr.new c hge hc).1, fun hi => absurd (tr.slotted h hi).1 (by omega), ?_,
      fun t'' hne => by rw [update_of_ne hne, h.refs_new hge]⟩
    rintro w hw rfl
    exact absurd (h.work w hw).1 (by omega)
  · rw [update_of_ne hne] at hp
    obtain ⟨hcr, hs, hw, ho⟩ := h.fresh t' c hp
    have hc := (h.held _ _ (refs_of_publish hp)).1
    have hnt : (s.fault t).pc ≠ .publish c := fun hpt => refs_of_publish hpt (ho t hne.symm)
    refine ⟨(tr.keep c hc).2.trans hcr, ?_, hw, fun t'' hne' => ?_⟩
    · rw [(tr.keep c hc).1]
      exact tr.vacant hs hnt
    · rcases eq_or_ne t'' t with rfl | hne''
      · rw [update_self]
        exact tr.refs_zero hc hs (ho t'' hne')
      · rw [update_of_ne hne'']
        exact ho t'' hne'

open Finset in
theorem Turn.childRefs_step (hc : c < n) (hd : (m c).destroyed = false) : (m c).usecount =
    ∑ k ∈ range nf, (update s.fault t f k).pc.refs c + ∑ w ∈ range s.nwork, (s.work w).refs c +
      if sl (m c).idx = some c then 1 else 0 := by
  rw [tr.sum]
  rcases Nat.lt_or_ge c s.nchild with hlt | hge
  · have hd' : (s.child c).destroyed = false := by
      rcases tr.destroyed c hlt with heq | ⟨htrue, -⟩
      · exact heq.symm.trans hd
      · exact absurd (hd.symm.trans htrue) Bool.false_ne_true
    have hold := h.childRefs c hlt hd'
    have := tr.usecount c hlt hd
    unfold Imr.refs at hold
    rw [(tr.keep c hlt).1]
    omega
  · have hworks : ∑ w ∈ range s.nwork, (s.work w).refs c = 0 := sum_eq_zero fun w hw =>
      if_neg fun hx => absurd (h.work w (mem_range.mp hw)).1 (by omega)
    rw [sum_eq_zero fun t' _ => h.refs_new hge t', h.refs_new hge, hworks,
      if_neg fun hi => absurd (tr.slotted h hi).1 (by omega), (tr.new c hge hc).2]
    omega

/-- A child in its slot that the table does not yet name is still to be written by its creator. -/
theorem Turn.pending_step {r : Imr} (hf : r.fault = update s.fault t f)
    (hu : r.umemMutex = s.umemMutex) {i : ℕ} (hi : sl i = some c) (hs : s.implicitChildren i = some c →
      Pending s (s.child c).creator i) : Pending r (s.child c).creator i := by
  rcases tr.slot i c hi with hold | ⟨-, -, hp, hact, hpend⟩
  · have hpend := hs hold
    unfold Pending at hpend ⊢
    rw [hf, hu]
    rcases eq_or_ne (s.child c).creator t with heq | hne
    · rw [heq] at hpend ⊢
      rw [update_self]
      have hgo := tr.ranged i c hi heq (hpend.elim (fun ⟨mr, hst, hi'⟩ => .inr ⟨⟨mr, hst⟩, hi'⟩)
        fun hr => .inl hr.1)
      exact .inr ⟨hgo.1, .inl hgo.2⟩
    · rw [update_of_ne hne]
      exact hpend
  · unfold Pending
    rw [(h.fresh t c hp).1, hf, update_self]
    exact hpend.imp (fun hst => ⟨c, hst⟩) fun hr => ⟨hr, .inl hact⟩

/-- STEP: a page fault goes on. -/
theorem Inv.turn : Inv { s with implicitChildren := sl, child := m, nchild := n, nfault := nf,
                                fault := update s.fault t f } := by
  have hself : update s.fault t f t = f := update_self ..
  have hother : ∀ t', t' ≠ t → update s.fault t f t' = s.fault t' := fun t' hne =>
    update_of_ne hne ..
  constructor
  · intro i c hi
    obtain ⟨hc, hci, hd⟩ := tr.slotted h hi
    exact ⟨hc.trans_le tr.nchild, (tr.keep c hc).1.trans hci,
      (tr.alive hc (.inr (.inr (.inr (hci ▸ hi))))).trans hd⟩
  · intro c hc
    rcases Nat.lt_or_ge c s.nchild with hlt | hge
    · exact ((tr.keep c hlt).2.symm ▸ h.creator c hlt).trans_le tr.nfault
    · exact (tr.new c hge hc).1.symm ▸ tr.started
  · intro t' hd
    rcases eq_or_ne t' t with rfl | hne
    · exact tr.started
    · simp only [hother t' hne] at hd
      exact (h.started t' hd).trans_le tr.nfault
  · exact fun t' _ => tr.held_step h t'
  · exact fun t' _ => tr.fresh_step h t'
  · intro t' c hp
    rcases eq_or_ne t' t with rfl | hne
    · simp only [hself] at hp
      have hpt := tr.store c hp
      exact (tr.keep c (h.held _ _ (refs_of_publish hpt)).1).2.trans (h.fresh t' c hpt).1
    · simp only [hother t' hne] at hp
      have hc := (h.held t' c (by rw [hp, Pc.refs, if_pos rfl]; decide)).1
      exact (tr.keep c hc).2.trans (h.stored t' c hp)
  · intro w hw
    obtain ⟨hc, hs⟩ := h.work w hw
    refine ⟨hc.trans_le tr.nchild, ?_⟩
    rw [(tr.keep _ hc).1]
    exact tr.vacant hs fun hp => (h.fresh t _ hp).2.2.1 w hw rfl
  · exact h.once
  · intro w hw hq hwt t'
    obtain ⟨hc, hs⟩ := h.work w hw
    rcases eq_or_ne t' t with rfl | hne
    · simp only [hself]
      exact tr.refs_zero hc hs (h.idle w hw hq hwt t')
    · simp only [hother t' hne]
      exact h.idle w hw hq hwt t'
  · exact fun c hc hd => tr.childRefs_step h hc hd
  · exact h.parentRefs
  · intro i c hnm
    obtain ⟨hc, hi, hd, hp, hw⟩ := h.named i c hnm
    refine ⟨hc.trans_le tr.nchild, (tr.keep c hc).1.trans hi,
      (tr.alive hc (.inr (.inr (.inl (hi ▸ hnm))))).trans hd, fun t' => ?_, hw⟩
    rcases eq_or_ne t' t with rfl | hne
    · simp only [hself]
      exact fun hp' => absurd (tr.publish c hp') (by omega)
    · simp only [hother t' hne]
      exact hp t'
  · intro u hu
    obtain ⟨h₁, h₂, h₃⟩ := h.lock u hu
    refine ⟨h₁, h₂, ?_⟩
    cases ho : u.owner with
    | fault t' =>
      rw [ho] at h₃
      obtain ⟨ret, hp⟩ := h₃
      have hne : t' ≠ t := by
        rintro rfl
        exact tr.left ret hp
      exact ⟨ret, by simp only [hother t' hne]; exact hp⟩
    | work w =>
      rw [ho] at h₃
      dsimp only
      rw [(tr.keep _ (h.work w h₃.1).1).1]
      exact h₃
  · intro t' ret hp
    rcases eq_or_ne t' t with rfl | hne
    · simp only [hself] at hp
      exact absurd hp (tr.enters ret)
    · simp only [hother t' hne] at hp
      exact h.updating t' ret hp
  · exact h.updateWork
  · intro i c hi
    rw [(tr.keep c (tr.slotted h hi).1).2]
    by_cases hset : s.implicitChildren i = some c ∧ ¬ Pending s (s.child c).creator i
    · exact .inr ((h.pending i c hset.1).resolve_left hset.2)
    · exact .inl (tr.pending_step h (by rfl) (by rfl) hi fun hs => not_not.mp fun hp => hset ⟨hs, hp⟩)
  · intro t'
    rcases eq_or_ne t' t with rfl | hne
    · simp only [hself]
      exact tr.locals.congr tr.nchild fun c hc => (tr.keep c hc).1
    · simp only [hother t' hne]
      exact (h.faults t').congr tr.nchild fun c hc => (tr.keep c hc).1

end Turn

/-- STEP: a page fault goes on and keeps, takes or drops references. -/
theorem Inv.move (h : Inv s) {f : Fault} {m : ℕ → Child}
    (ht : ∀ ret, (s.fault t).pc ≠ .done ret) (htu : ∀ ret, (s.fault t).pc ≠ .update ret)
    (hfp : ∀ c, f.pc ≠ .publish c) (hfs : ∀ c, f.pc ≠ .store c) (hfu : ∀ ret, f.pc ≠ .update ret)
    (hidx : ∀ c, (m c).idx = (s.child c).idx) (hcre : ∀ c, (m c).creator = (s.child c).creator)
    (hdes : ∀ c, (m c).destroyed = (s.child c).destroyed ∨ (m c).destroyed = true ∧
      (s.fault t).pc = .publish c ∧ f.pc.refs c = 0)
    (huse : ∀ c, (m c).destroyed = false →
      (m c).usecount = (s.child c).usecount + (f.pc.refs c - (s.fault t).pc.refs c))
    (hrefs : ∀ c, f.pc.refs c ≠ 0 →
      (s.fault t).pc.refs c ≠ 0 ∨ s.implicitChildren (s.child c).idx = some c)
    (hat : ∀ c, f.pc.refs c ≠ 0 → (s.child c).idx = f.idx)
    (hrange : ∀ i, ((s.fault t).Range i ∨ (∃ mr, (s.fault t).pc = .store mr) ∧ i = (s.fault t).idx) →
      f.Range i ∧ f.pc.Active)
    (hlocal : Local s f) :
    Inv { s with child := m, fault := update s.fault t f } := by
  have hgone : ∀ c < s.nchild, (m c).destroyed = (s.child c).destroyed ∨ (m c).destroyed = true ∧
      f.pc.refs c = 0 ∧ (∀ t', t' ≠ t → (s.fault t').pc.refs c = 0) ∧
        ¬ Named s (s.child c).idx c ∧ s.implicitChildren (s.child c).idx ≠ some c := by
    intro c _
    refine (hdes c).imp id fun ⟨hd, hp, hr⟩ => ?_
    obtain ⟨-, hs, -, ho⟩ := h.fresh t c hp
    exact ⟨hd, hr, ho, fun hnm => (h.named _ c hnm).2.2.2.1 t hp, hs⟩
  refine h.turn ⟨le_refl _, le_refl _, h.started t ht,
    refs_fault (r := { s with fault := update s.fault t f }) (h.started t ht) rfl rfl, htu, hfu,
    fun c _ => ⟨hidx c, hcre c⟩, fun c h₁ h₂ => absurd h₂ (by omega), fun _ _ => .inl, hgone,
    fun c _ hd => by rw [huse c hd], fun c hr => ?_, fun c hp => absurd hp (hfp c),
    fun c hp => absurd hp (hfs c), fun i _ _ _ => hrange i, hlocal⟩
  have hd : (m c).destroyed = (s.child c).destroyed := (hdes c).resolve_right fun hd => hr hd.2.2
  have hold : c < s.nchild ∧ (s.child c).destroyed = false := (hrefs c hr).elim
    (fun h0 => ⟨(h.held t c h0).1, (h.held t c h0).2.1⟩)
    fun hs => ⟨(h.slot _ c hs).1, (h.slot _ c hs).2.2⟩
  exact ⟨hold.1, hd.trans hold.2, (hidx c).trans (hat c hr), (hrefs c hr).imp id .inl⟩

/-! ### Steps of a page fault -/

section Child
variable (s : Imr) (c k : ℕ) (n : ℤ)

theorem addChild_child : (s.addChild c n).child k =
    { s.child k with usecount := (s.child k).usecount + if c = k then n else 0 } := by
  unfold Imr.addChild Imr.setChild
  rcases eq_or_ne k c with rfl | h
  · simp
  · simp [update_of_ne h, h.symm]

theorem dereg_child : (s.dereg c).child k =
    { s.child k with destroyed := if k = c then true else (s.child k).destroyed } := by
  unfold Imr.dereg Imr.setChild
  rcases eq_or_ne k c with rfl | h
  · simp
  · simp [h]

@[simp] theorem addChild_idx : ((s.addChild c n).child k).idx = (s.child k).idx := by
  rw [addChild_child]

@[simp] theorem addChild_creator : ((s.addChild c n).child k).creator = (s.child k).creator := by
  rw [addChild_child]

@[simp] theorem addChild_destroyed :
    ((s.addChild c n).child k).destroyed = (s.child k).destroyed := by
  rw [addChild_child]

@[simp] theorem addChild_usecount :
    ((s.addChild c n).child k).usecount = (s.child k).usecount + if c = k then n else 0 := by
  rw [addChild_child]

@[simp] theorem dereg_idx : ((s.dereg c).child k).idx = (s.child k).idx := by
  rw [dereg_child]

@[simp] theorem dereg_creator : ((s.dereg c).child k).creator = (s.child k).creator := by
  rw [dereg_child]

@[simp] theorem dereg_usecount : ((s.dereg c).child k).usecount = (s.child k).usecount := by
  rw [dereg_child]

@[simp] theorem dereg_destroyed :
    ((s.dereg c).child k).destroyed = if k = c then true else (s.child k).destroyed := by
  rw [dereg_child]

end Child

/-- The fault's variables stay, and it goes on to another place. -/
theorem Local.at {f : Fault} (h : Local s f) (hpc : ∀ ret, f.pc ≠ .done ret) {pc : Pc}
    (hf : ∀ n, pc = .out (.ok n) ∨ pc = .update (.ok n) ∨ pc = .done (.ok n) → f.bcnt = 0) :
    Local s (f.at pc) :=
  ⟨.inr (h.total.resolve_left (hpc _)), h.pieces, h.upd, hf⟩

/-- The range that is to be rewritten takes in the new child. -/
theorem Local.created {f : Fault} (h : Local s f) : Local s f.created := by
  refine { h with upd := fun _ => ?_ }
  change min f.updStartIdx f.idx + (f.idx - min f.updStartIdx f.idx + 1) ≤ f.idx + 1
  omega

theorem Fault.range_created {f : Fault} (h : Local s f) {i : ℕ} (hi : f.Range i ∨ i = f.idx) :
    f.created.Range i := by
  change min f.updStartIdx f.idx ≤ i ∧
    i < min f.updStartIdx f.idx + (f.idx - min f.updStartIdx f.idx + 1)
  rcases hi with ⟨h₁, h₂⟩ | rfl
  · have := h.upd (by omega)
    omega
  · omega

/-- A fault that is not at `xa_store` has to rewrite only its range. -/
theorem Fault.ranged {f : Fault} {i : ℕ} (hns : ∀ mr, f.pc ≠ .store mr)
    (hi : f.Range i ∨ (∃ mr, f.pc = .store mr) ∧ i = f.idx) : f.Range i :=
  hi.elim id fun ⟨⟨mr, hs⟩, _⟩ => absurd hs (hns mr)

theorem Pc.of_refs {pc : Pc} (h0 : ∀ c, pc.refs c = 0) (c : ℕ) : pc ≠ .publish c ∧ pc ≠ .store c := by
  constructor <;> rintro rfl <;> have := h0 c <;> simp [Pc.refs] at this

/-- STEP: a fault without a child goes on to where it has none. -/
theorem Inv.leave (h : Inv s) {pc : Pc} (hnd : ∀ ret, (s.fault t).pc ≠ .done ret)
    (hnu : ∀ ret, (s.fault t).pc ≠ .update ret) (h0 : ∀ c, (s.fault t).pc.refs c = 0)
    (hpc : ∀ c, pc.refs c = 0) (hup : ∀ ret, pc ≠ .update ret)
    (hact : pc.Active ∨ (s.fault t).updLen = 0) (hlocal : Local s ((s.fault t).at pc)) :
    Inv (s.setFault t ((s.fault t).at pc)) := by
  refine h.move hnd hnu (fun c => (Pc.of_refs hpc c).1) (fun c => (Pc.of_refs hpc c).2) hup
    (fun _ => rfl) (fun _ => rfl) (fun _ => .inl rfl) (fun c _ => ?_) (fun c hc => absurd (hpc c) hc)
    (fun c hc => absurd (hpc c) hc) (fun i hi => ?_) hlocal
  · rw [h0]
    simp [Fault.at, hpc]
  · have hr := Fault.ranged (fun mr => (Pc.of_refs h0 mr).2) hi
    exact ⟨hr, hact.resolve_right fun hz => absurd hr.2 (by rw [hz]; exact hr.1.not_gt)⟩

/-- STEP: the head of the loop. -/
theorem Inv.loop (h : Inv s) (hp : (s.fault t).pc = .loop) : Inv (faultLoop s t) := by
  have hloc := h.faults t
  have hnd : ∀ ret, (s.fault t).pc ≠ .done ret := fun ret => hp ▸ nofun
  have hnu : ∀ ret, (s.fault t).pc ≠ .update ret := fun ret => hp ▸ nofun
  have hr0 : ∀ c, (s.fault t).pc.refs c = 0 := fun c => by rw [hp]; rfl
  unfold faultLoop
  dsimp only
  split
  · rename_i hb
    exact h.leave hnd hnu hr0 (fun _ => rfl) nofun (.inl trivial) (hloc.at hnd fun _ _ => hb)
  · cases hs : s.implicitChildren (s.fault t).idx with
    | none =>
      exact h.leave hnd hnu hr0 (fun _ => rfl) nofun (.inl trivial) (hloc.at hnd nofun)
    | some mtt =>
      obtain ⟨-, hi, -⟩ := h.slot _ mtt hs
      have hc : ∀ c, ((s.fault t).at (.real mtt)).pc.refs c ≠ 0 → c = mtt := by
        intro c hc
        by_contra hne
        exact hc (if_neg (Ne.symm hne))
      refine h.move (f := (s.fault t).at (.real mtt)) (m := (s.addChild mtt 1).child) hnd hnu nofun
        nofun nofun (fun k => by simp) (fun k => by simp) (fun k => .inl (by simp)) (fun k _ => ?_)
        (fun k hk => ?_) (fun k hk => ?_)
        (fun i hi => ⟨Fault.ranged (f := s.fault t) (fun mr => hp ▸ nofun) hi, trivial⟩)
        (hloc.at hnd nofun)
      · rw [hr0, addChild_usecount]
        simp [Fault.at, Pc.refs]
      · rw [hc k hk, hi]
        exact .inr hs
      · rw [hc k hk, hi]
        rfl

/-- STEP: no child can be made. -/
theorem Inv.create_fail (h : Inv s) (hp : (s.fault t).pc = .create) (e : Errno) :
    Inv (childCreate s t (some e)) :=
  have hnd : ∀ ret, (s.fault t).pc ≠ .done ret := fun ret => hp ▸ nofun
  h.leave hnd (fun ret => hp ▸ nofun) (fun c => by rw [hp]; rfl) (fun _ => rfl) nofun (.inl trivial)
    ((h.faults t).at hnd nofun)

/-- The references of a fault that has one child. -/
theorem refs_publish (mr c : ℕ) : (Pc.publish mr).refs c = if mr = c then 2 else 0 := rfl

theorem refs_store (mr c : ℕ) : (Pc.store mr).refs c = if mr = c then 1 else 0 := rfl

theorem refs_deref (mtt c : ℕ) (ret : Except Errno ℕ) :
    (Pc.deref mtt ret).refs c = if mtt = c then 1 else 0 := rfl

/-- STEP: another fault was faster, its child is used and the own one destroyed. -/
theorem Inv.adopt (h : Inv s) {mr ret : ℕ} (hp : (s.fault t).pc = .publish mr)
    (hs : s.implicitChildren (s.fault t).idx = some ret) :
    Inv (((s.addChild ret 1).dereg mr).setFault t ((s.fault t).created.at (.real ret))) := by
  have hnd : ∀ ret, (s.fault t).pc ≠ .done ret := fun ret => hp ▸ nofun
  obtain ⟨hret, hi, -⟩ := h.slot _ ret hs
  obtain ⟨-, -, hmi⟩ := h.held t mr (by rw [hp, refs_publish, if_pos rfl]; decide)
  have hne : ret ≠ mr := by
    rintro rfl
    exact (h.fresh t ret hp).2.1 (hmi ▸ hs)
  have hc : ∀ c, (Pc.real ret).refs c ≠ 0 → c = ret := by
    intro c hc
    by_contra hne
    exact hc (if_neg (Ne.symm hne))
  refine h.move (f := (s.fault t).created.at (.real ret)) (m := ((s.addChild ret 1).dereg mr).child) hnd
    (fun ret => hp ▸ nofun) nofun nofun nofun (fun k => by simp) (fun k => by simp)
    (fun k => ?_) (fun k hk => ?_) (fun k hk => ?_) (fun k hk => ?_) (fun i hi => ?_)
    ((h.faults t).created.at hnd nofun)
  · rcases eq_or_ne k mr with rfl | hk
    · exact .inr ⟨by simp, hp, if_neg hne⟩
    · exact .inl (by simp [hk])
  · have hkm : k ≠ mr := by
      rintro rfl
      simp at hk
    rw [hp, dereg_usecount, addChild_usecount, refs_publish, if_neg hkm.symm]
    simp [Fault.at, Pc.refs]
  · rw [hc k hk, hi]
    exact .inr hs
  · rw [hc k hk, hi]
    rfl
  · refine ⟨Fault.range_created (h.faults t) (hi.imp id fun hst => ?_), trivial⟩
    exact hst.2

/-- STEP: there is no memory for the slot. -/
theorem Inv.publish_fail (h : Inv s) {mr : ℕ} (hp : (s.fault t).pc = .publish mr) (e : Errno) :
    Inv ((s.dereg mr).setFault t ((s.fault t).at (.out (.error e)))) := by
  have hnd : ∀ ret, (s.fault t).pc ≠ .done ret := fun ret => hp ▸ nofun
  refine h.move (m := (s.dereg mr).child) hnd (fun ret => hp ▸ nofun) nofun nofun nofun
    (fun k => by simp) (fun k => by simp) (fun k => ?_) (fun k hk => ?_) (fun k hk => absurd rfl hk)
    (fun k hk => absurd rfl hk)
    (fun i hi => ⟨Fault.ranged (f := s.fault t) (fun mr => hp ▸ nofun) hi, trivial⟩)
    ((h.faults t).at hnd nofun)
  · rcases eq_or_ne k mr with rfl | hk
    · exact .inr ⟨by simp, hp, rfl⟩
    · exact .inl (by simp [hk])
  · have hkm : k ≠ mr := by
      rintro rfl
      simp at hk
    rw [hp, dereg_usecount, refs_publish, if_neg hkm.symm]
    simp [Fault.at, Pc.refs]

/-- STEP: the child is published. -/
theorem Inv.published (h : Inv s) {mr : ℕ} (hp : (s.fault t).pc = .publish mr)
    (hs : s.implicitChildren (s.fault t).idx = none) {f : Fault} (hact : f.pc.Active)
    (hfi : f.idx = (s.fault t).idx) (hrefs : ∀ c, f.pc.refs c = if mr = c then 1 else 0)
    (hst : ∀ c, f.pc = .store c → c = mr) (hnp : ∀ c, f.pc ≠ .publish c)
    (hrange : ∀ i, (s.fault t).Range i → f.Range i)
    (hpend : f.pc = .store mr ∨ f.Range (s.fault t).idx) (hlocal : Local s f) :
    Inv ((s.setSlot (s.fault t).idx (some mr)).setFault t f) := by
  obtain ⟨hmr, hmd, hmi⟩ := h.held t mr (by rw [hp, refs_publish, if_pos rfl]; decide)
  have hnd : ∀ ret, (s.fault t).pc ≠ .done ret := fun ret => hp ▸ nofun
  have hfu : ∀ ret, f.pc ≠ .update ret := fun ret hu => by rw [hu] at hact; exact hact
  have hslot : ∀ i c, update s.implicitChildren (s.fault t).idx (some mr) i = some c →
      i = (s.fault t).idx ∧ c = mr ∨ i ≠ (s.fault t).idx ∧ s.implicitChildren i = some c := by
    intro i c hi
    rcases eq_or_ne i (s.fault t).idx with rfl | hne
    · rw [update_self] at hi
      exact .inl ⟨rfl, (Option.some.inj hi).symm⟩
    · rw [update_of_ne hne] at hi
      exact .inr ⟨hne, hi⟩
  show Inv { s with
    implicitChildren := update s.implicitChildren (s.fault t).idx (some mr)
    fault := update s.fault t f }
  refine h.turn ⟨le_refl _, le_refl _, h.started t hnd,
    refs_fault (r := { s with fault := update s.fault t f }) (h.started t hnd) rfl rfl,
    fun ret => hp ▸ nofun, hfu, fun c _ => ⟨rfl, rfl⟩,
    fun c h₁ h₂ => absurd h₂ (by omega), fun i c hi => ?_, fun _ _ => .inl rfl, fun c _ _ => ?_,
    fun c hr => ?_, fun c hpc => absurd hpc (hnp c), fun c hpc => by rw [hst c hpc, hp],
    fun i c _ _ hi => ⟨hrange i (Fault.ranged (fun mr => hp ▸ nofun) hi), hact⟩, hlocal⟩
  · rcases hslot i c hi with ⟨rfl, rfl⟩ | ⟨-, hi⟩
    · exact .inr ⟨hmr, hmi, hp, hact, hpend.imp (fun hst => ⟨hst, hfi.symm⟩) id⟩
    · exact .inl hi
  · rw [hrefs, hp, refs_publish]
    rcases eq_or_ne c mr with rfl | hne
    · rw [hmi, update_self, hs]
      simp
    · have hind : (update s.implicitChildren (s.fault t).idx (some mr) (s.child c).idx =
          some c) ↔ s.implicitChildren (s.child c).idx = some c := by
        refine ⟨fun hi => (hslot _ c hi).elim (fun h => absurd h.2 hne) (·.2), fun hi => ?_⟩
        rw [update_of_ne, hi]
        intro heq
        rw [heq, hs] at hi
        cases hi
      simp only [hind]
      omega
  · obtain rfl : c = mr := by
      by_contra hne
      exact hr ((hrefs c).trans (if_neg (Ne.symm hne)))
    exact ⟨hmr, hmd, hmi.trans hfi.symm, .inl (by rw [hp, refs_publish, if_pos rfl]; decide)⟩

/-- STEP: the child's mkey is stored for page faults on it. -/
theorem Inv.stored_ok (h : Inv s) {mr : ℕ} (hp : (s.fault t).pc = .store mr) :
    Inv (childStore s t mr none) := by
  have hnd : ∀ ret, (s.fault t).pc ≠ .done ret := fun ret => hp ▸ nofun
  have hc : ∀ c, (Pc.real mr).refs c ≠ 0 → (s.fault t).pc.refs c ≠ 0 := by
    intro c hc
    rw [hp]
    exact hc
  refine h.move hnd (fun ret => hp ▸ nofun) nofun nofun nofun (fun _ => rfl)
    (fun _ => rfl) (fun _ => .inl rfl) (fun c _ => ?_) (fun c hk => .inl (hc c hk))
    (fun c hk => (h.held t c (hc c hk)).2.2) (fun i hi => ?_) ((h.faults t).created.at hnd nofun)
  · rw [hp]
    simp [Fault.at, Pc.refs]
  · exact ⟨Fault.range_created (h.faults t) (hi.imp id (·.2)), trivial⟩

open Finset in
/-- A child with two references, of `implicit_children` and of the fault that made it, is held by no
    other fault. -/
theorem Inv.alone (h : Inv s) {mr : ℕ} (hp : (s.fault t).pc = .store mr)
    (hs : s.implicitChildren (s.fault t).idx = some mr) (hu : (s.child mr).usecount = 2) :
    ∀ t', t' ≠ t → (s.fault t').pc.refs mr = 0 := by
  intro t' hne
  by_contra hr
  have hlt : t' < s.nfault := h.started t' fun ret hd => hr (by rw [hd]; rfl)
  have ht : t < s.nfault := h.started t fun ret => hp ▸ nofun
  obtain ⟨hmr, hmi, hmd⟩ := h.slot _ mr hs
  have hrefs := h.childRefs mr hmr hmd
  unfold Imr.refs at hrefs
  rw [hu, hmi, if_pos hs] at hrefs
  have hworks : 0 ≤ ∑ w ∈ range s.nwork, (s.work w).refs mr :=
    sum_nonneg fun w _ => Work.refs_nonneg ..
  have hsum := sum_change (f := fun k => if k = t then 0 else (s.fault k).pc.refs mr)
    (g := fun k => (s.fault k).pc.refs mr) ht fun k hk => if_neg hk
  rw [hp, refs_store, if_pos rfl] at hsum
  have hle : (if t' = t then 0 else (s.fault t').pc.refs mr) ≤
      ∑ k ∈ range s.nfault, (if k = t then 0 else (s.fault k).pc.refs mr) := by
    refine single_le_sum (f := fun k => if k = t then 0 else (s.fault k).pc.refs mr) (fun k _ => ?_)
      (mem_range.mpr hlt)
    split
    · exact le_refl _
    · exact Pc.refs_nonneg ..
  have hpos := Pc.refs_nonneg (s.fault t').pc mr
  omega

/-- STEP: `xa_store` fails, and no one else has seen the child. -/
theorem Inv.store_fail (h : Inv s) {mr : ℕ} (hp : (s.fault t).pc = .store mr) (e : Errno)
    (hs : s.implicitChildren (s.fault t).idx = some mr) (hu : (s.child mr).usecount = 2)
    (hv : s.view (s.fault t).idx ≠ some mr) (hk : s.ksm (s.fault t).idx ≠ some mr) :
    Inv (childStore s t mr (some e)) := by
  obtain ⟨hmr, hmi, hmd⟩ := h.slot _ mr hs
  have halone := h.alone hp hs hu
  have hlocal : Local s ((s.fault t).at (.out (.error e))) :=
    (h.faults t).at (fun ret => hp ▸ nofun) nofun
  have hnd : ∀ ret, (s.fault t).pc ≠ .done ret := fun ret => hp ▸ nofun
  have hslot : ∀ i c, update s.implicitChildren (s.fault t).idx none i = some c →
      i ≠ (s.fault t).idx ∧ s.implicitChildren i = some c := fun _ _ => slot_cleared.mp
  have hnamed : ¬ Named s (s.child mr).idx mr := by
    rw [hmi]
    rintro (hn | ⟨u, hu', h₁, h₂, hb⟩)
    · exact hk hn
    · refine hv ?_
      unfold Imr.view
      rw [show s.umemMutex = some u from hu']
      exact (if_pos ⟨h₁, h₂⟩).trans hb
  show Inv { s with
    implicitChildren := update s.implicitChildren (s.fault t).idx none
    child := (s.dereg mr).child
    fault := update s.fault t ((s.fault t).at (.out (.error e))) }
  refine h.turn ⟨le_refl _, le_refl _, h.started t hnd,
    refs_fault (r := s.setFault t ((s.fault t).at (.out (.error e)))) (h.started t hnd) rfl rfl,
    fun ret => hp ▸ nofun, nofun, fun c _ => ⟨dereg_idx .., dereg_creator ..⟩,
    fun c h₁ h₂ => absurd h₂ (by omega), fun i c hi => .inl (hslot i c hi).2, fun c _ => ?_,
    fun c _ hd => ?_, fun c hr => absurd rfl hr, nofun, nofun, fun i c hi _ hr => ?_, hlocal⟩
  · rcases eq_or_ne c mr with rfl | hne
    · exact .inr ⟨by simp, rfl, halone, hnamed, fun hi => (hslot _ _ hi).1 hmi⟩
    · exact .inl (by simp [hne])
  · have hcm : c ≠ mr := by
      rintro rfl
      simp at hd
    simp only [slot_other hs hcm, dereg_usecount, hp, Fault.at, Pc.refs]
    omega
  · exact hr.elim (fun hr => ⟨hr, trivial⟩) fun ⟨_, hi'⟩ => absurd hi' (hslot i c hi).1

/-- STEP: `pagefault_real_mr` on the child. -/
theorem Inv.real (h : Inv s) {mtt : ℕ} (hp : (s.fault t).pc = .real mtt) (ret : Except Errno ℕ)
    (mapped : Bool) : Inv (faultReal s t mtt ret mapped) := by
  have hnd : ∀ ret, (s.fault t).pc ≠ .done ret := fun ret => hp ▸ nofun
  have hchild : ∀ k, let m := (faultReal s t mtt ret mapped).child k
      m.idx = (s.child k).idx ∧ m.creator = (s.child k).creator ∧
      m.destroyed = (s.child k).destroyed ∧ m.usecount = (s.child k).usecount := by
    intro k
    unfold faultReal Imr.setChild Imr.setFault
    rcases eq_or_ne k mtt with rfl | hk
    · simp
    · simp [update_of_ne hk]
  have hrefs : ∀ c, (Pc.deref mtt ret).refs c = (s.fault t).pc.refs c := fun c => by rw [hp]; rfl
  refine h.move hnd (fun ret => hp ▸ nofun) nofun nofun nofun (fun k => (hchild k).1)
    (fun k => (hchild k).2.1) (fun k => .inl (hchild k).2.2.1) (fun k _ => ?_) (fun k hk => .inl ?_)
    (fun k hk => (h.held t k ?_).2.2)
    (fun i hi => ⟨Fault.ranged (f := s.fault t) (fun mr => hp ▸ nofun) hi, trivial⟩)
    ((h.faults t).at hnd nofun)
  · refine (hchild k).2.2.2.trans ?_
    simp [Fault.at, hrefs]
  · exact hrefs k ▸ hk
  · exact hrefs k ▸ hk

/-- What is left of the range begins in the child's GiB, and the piece ends there or with the range. -/
theorem Fault.len_spec {f : Fault} {m : Child} (hf : f.userVa + f.bcnt < 2 ^ 64)
    (hm : m.idx = f.idx) : f.userVa + f.len m ≤ f.userVa + f.bcnt ∧
      f.userVa + f.len m ≤ (f.idx + 1) * MLX5_IMR_MTT_SIZE := by
  have hlt : f.userVa < (f.idx + 1) * MLX5_IMR_MTT_SIZE := by
    rw [Nat.succ_mul]
    exact Nat.lt_div_mul_add (by decide)
  unfold Fault.len
  rw [toU_of_lt hf, hm]
  omega

/-- STEP: the child is released, and the fault goes on behind it or stops. -/
theorem Inv.deref (h : Inv s) {mtt : ℕ} {ret : Except Errno ℕ} (hp : (s.fault t).pc = .deref mtt ret) :
    Inv (faultDeref s t mtt ret) := by
  have hnd : ∀ ret, (s.fault t).pc ≠ .done ret := fun ret => hp ▸ nofun
  have hnu : ∀ ret, (s.fault t).pc ≠ .update ret := fun ret => hp ▸ nofun
  have hns : ∀ mr, (s.fault t).pc ≠ .store mr := fun ret => hp ▸ nofun
  have hloc := h.faults t
  obtain ⟨hmn, -, hmi⟩ := h.held t mtt (by rw [hp, refs_deref, if_pos rfl]; decide)
  have huse : ∀ k, ((s.addChild mtt (-1)).child k).usecount =
      (s.child k).usecount + (0 - (s.fault t).pc.refs k) := by
    intro k
    rw [addChild_usecount, hp, refs_deref]
    split <;> omega
  cases ret with
  | error e =>
    exact h.move (m := (s.addChild mtt (-1)).child) hnd hnu nofun nofun nofun (fun k => by simp)
      (fun k => by simp) (fun k => .inl (by simp)) (fun k _ => huse k) (fun k hk => absurd rfl hk)
      (fun k hk => absurd rfl hk) (fun i hi => ⟨Fault.ranged (f := s.fault t) hns hi, trivial⟩)
      (hloc.at hnd nofun)
  | ok n =>
    obtain ⟨htot, hstop⟩ := hloc.total.resolve_left (hnd _)
    have hidx : ((s.addChild mtt (-1)).child mtt).idx = (s.fault t).idx := by rw [addChild_idx, hmi]
    obtain ⟨hle, hchild⟩ := Fault.len_spec (htot ▸ hstop) hidx
    refine h.move (m := (s.addChild mtt (-1)).child) hnd hnu nofun nofun nofun (fun k => by simp)
      (fun k => by simp) (fun k => .inl (by simp)) (fun k _ => huse k) (fun k hk => absurd rfl hk)
      (fun k hk => absurd rfl hk) (fun i hi => ⟨Fault.ranged (f := s.fault t) hns hi, trivial⟩)
      ⟨.inr ⟨?_, hstop⟩, fun x h₁ h₂ => ?_, fun hu => ?_, nofun⟩
    · dsimp only
      omega
    · dsimp only at h₁ h₂ ⊢
      rcases Nat.lt_or_ge x (s.fault t).userVa with hlt | hge
      · obtain ⟨p, hpm, hrest⟩ := hloc.pieces x h₁ hlt
        exact ⟨p, List.mem_cons_of_mem _ hpm, hrest⟩
      · refine ⟨_, List.mem_cons_self .., hge, h₂, hmn, hmi.trans ?_⟩
        have hlow : (s.fault t).idx * MLX5_IMR_MTT_SIZE ≤ (s.fault t).userVa :=
          Nat.div_mul_le_self ..
        exact (Nat.div_eq_of_lt_le (by omega) (by omega)).symm
    · have hmono : (s.fault t).idx ≤
          ((s.fault t).userVa + (s.fault t).len ((s.addChild mtt (-1)).child mtt)) /
            MLX5_IMR_MTT_SIZE := Nat.div_le_div_right (by omega)
      have := hloc.upd hu
      exact this.trans (Nat.succ_le_succ hmono)

/-- STEP: the fault has made no child and returns. -/
theorem Inv.out_done (h : Inv s) {ret : Except Errno ℕ} (hp : (s.fault t).pc = .out ret)
    (hu : (s.fault t).updLen = 0) : Inv (s.setFault t ((s.fault t).at (.done ret))) := by
  have hnd : ∀ ret, (s.fault t).pc ≠ .done ret := fun ret => hp ▸ nofun
  have hloc := h.faults t
  refine h.leave hnd (fun ret => hp ▸ nofun) (fun c => by rw [hp]; rfl) (fun _ => rfl) nofun (.inr hu)
    (hloc.at hnd ?_)
  rintro n (hn | hn | hn)
  · cases hn
  · cases hn
  · cases hn
    exact hloc.finished n (.inl hp)

open Finset in
/-- STEP: a new page fault. -/
theorem Inv.start (h : Inv s) {f : Fault} (hr : ∀ c, f.pc.refs c = 0) (hfu : ∀ ret, f.pc ≠ .update ret)
    (hlocal : Local s f) : Inv ({ s with nfault := s.nfault + 1 }.setFault s.nfault f) := by
  have hold : ∃ ret, (s.fault s.nfault).pc = .done ret := by
    by_contra hd
    exact absurd (h.started s.nfault fun ret hp => hd ⟨ret, hp⟩) (lt_irrefl _)
  obtain ⟨ret₀, hold⟩ := hold
  have hsum : ∀ c, ∑ k ∈ range (s.nfault + 1), (update s.fault s.nfault f k).pc.refs c =
      ∑ k ∈ range s.nfault, (s.fault k).pc.refs c + (f.pc.refs c - (s.fault s.nfault).pc.refs c) := by
    intro c
    rw [sum_range_succ, update_self, hold, hr]
    refine congrArg₂ (· + ·) (sum_congr rfl fun k hk => ?_) rfl
    rw [update_of_ne (mem_range.mp hk).ne]
  refine h.turn ⟨le_refl _, Nat.le_succ _, Nat.lt_succ_self _, hsum,
    fun ret => by rw [hold]; exact nofun, hfu, fun c _ => ⟨rfl, rfl⟩,
    fun c h₁ h₂ => absurd h₁ (Nat.not_le.mpr h₂), fun _ _ => .inl, fun _ _ => .inl rfl,
    fun c _ _ => by rw [hr, hold]; simp [Pc.refs], fun c hne => absurd (hr c) hne,
    fun c hp => absurd (hr c) ?_, fun c hp => absurd (hr c) ?_,
    fun i c hi heq => absurd heq (h.creator c (h.slot i c hi).1).ne, hlocal⟩
  · rw [hp, refs_publish, if_pos rfl]
    decide
  · rw [hp, refs_store, if_pos rfl]
    decide

/-- STEP: a child has been made and is not yet published. -/
theorem Inv.create_ok (h : Inv s) (hp : (s.fault t).pc = .create) : Inv (childCreate s t none) := by
  have hnd : ∀ ret, (s.fault t).pc ≠ .done ret := fun ret => hp ▸ nofun
  have htn := h.started t hnd
  have hlocal : Local s ((s.fault t).at (.publish s.nchild)) := (h.faults t).at hnd nofun
  generalize hm : (⟨(s.fault t).idx, 2, false, false, t⟩ : Child) = m
  have hnew : update s.child s.nchild m s.nchild = m := update_self ..
  have hold : ∀ c < s.nchild, update s.child s.nchild m c = s.child c := fun c hc =>
    update_of_ne hc.ne ..
  have hc : ∀ c, (Pc.publish s.nchild).refs c ≠ 0 → c = s.nchild := fun c hr => by
    by_contra hne
    exact hr (if_neg (Ne.symm hne))
  unfold childCreate
  dsimp only
  rw [hm]
  show Inv { s with
    nchild := s.nchild + 1
    child := update s.child s.nchild m
    fault := update s.fault t ((s.fault t).at (.publish s.nchild)) }
  refine h.turn ⟨Nat.le_succ _, le_refl _, htn,
    refs_fault (r := s.setFault t ((s.fault t).at (.publish s.nchild))) htn rfl rfl,
    fun ret => hp ▸ nofun, nofun, fun c hc => by rw [hold c hc]; exact ⟨rfl, rfl⟩,
    fun c h₁ h₂ => ?_, fun _ _ => .inl, fun c hc => .inl (by rw [hold c hc]), fun c hlt _ => ?_,
    fun c hr => ?_, fun c hpc => ?_, nofun,
    fun i c _ _ hi => ⟨Fault.ranged (f := s.fault t) (fun mr => hp ▸ nofun) hi, trivial⟩, hlocal⟩
  · obtain rfl : c = s.nchild := by omega
    rw [hnew, ← hm]
    exact ⟨rfl, (if_pos rfl).symm⟩
  · rw [hold c hlt, hp]
    simp [Fault.at, Pc.refs, hlt.ne']
  · obtain rfl := hc c hr
    rw [hnew, ← hm]
    exact ⟨Nat.lt_succ_self _, rfl, rfl, .inr (.inr (le_refl _))⟩
  · cases hpc
    exact le_refl _

/-! ### Updates of the table -/

/-- The fault and work fields that the references depend on are those of `s`. -/
structure SameRefs (s s' : Imr) : Prop where
  slots : s'.implicitChildren = s.implicitChildren
  child : s'.child = s.child
  nchild : s'.nchild = s.nchild
  nfault : s'.nfault = s.nfault
  nwork : s'.nwork = s.nwork
  usecount : s'.usecount = s.usecount
  refs : ∀ t c, (s'.fault t).pc.refs c = (s.fault t).pc.refs c
  publish : ∀ t c, (s'.fault t).pc = .publish c ↔ (s.fault t).pc = .publish c
  store : ∀ t c, (s'.fault t).pc = .store c ↔ (s.fault t).pc = .store c
  idx : ∀ t, (s'.fault t).idx = (s.fault t).idx
  started : ∀ t, t < s.nfault ∨ (s'.fault t).pc = (s.fault t).pc
  mr : ∀ w, (s'.work w).mr = (s.work w).mr
  works : ∀ w c, (s'.work w).refs c = (s.work w).refs c
  parents : ∀ w, (s'.work w).parentRefs = (s.work w).parentRefs

theorem SameRefs.refl_mutex (u : Option Update) (ksm : ℕ → Option ℕ) :
    SameRefs s { s with umemMutex := u, ksm := ksm } :=
  ⟨rfl, rfl, rfl, rfl, rfl, rfl, fun _ _ => rfl, fun _ _ => Iff.rfl, fun _ _ => Iff.rfl, fun _ => rfl,
    fun _ => .inr rfl, fun _ => rfl, fun _ _ => rfl, fun _ => rfl⟩

/-- A fault without references goes on to where it has none. -/
theorem SameRefs.at (u : Option Update) {pc : Pc} (ht : t < s.nfault)
    (h₁ : ∀ c, (s.fault t).pc.refs c = 0) (h₂ : ∀ c, pc.refs c = 0) :
    SameRefs s ({ s with umemMutex := u }.setFault t ((s.fault t).at pc)) := by
  have hall : ∀ t', t' = t ∨ ({ s with umemMutex := u }.setFault t ((s.fault t).at pc)).fault t' =
      s.fault t' := fun t' => (eq_or_ne t' t).imp id fun hne => update_of_ne hne ..
  have hself : ({ s with umemMutex := u }.setFault t ((s.fault t).at pc)).fault t =
      (s.fault t).at pc := update_self ..
  refine ⟨rfl, rfl, rfl, rfl, rfl, rfl, fun t' c => ?_, fun t' c => ?_, fun t' c => ?_, fun t' => ?_,
    fun t' => ?_, fun _ => rfl, fun _ _ => rfl, fun _ => rfl⟩ <;> rcases hall t' with rfl | heq
  · rw [hself]
    exact (h₂ c).trans (h₁ c).symm
  · rw [heq]
  · rw [hself]
    exact iff_of_false (Pc.of_refs h₂ c).1 (Pc.of_refs h₁ c).1
  · rw [heq]
  · rw [hself]
    exact iff_of_false (Pc.of_refs h₂ c).2 (Pc.of_refs h₁ c).2
  · rw [heq]
  · rw [hself]
    rfl
  · rw [heq]
  · exact .inl ht
  · exact .inr (by rw [heq])

/-- A work that has left the queue goes on before it ends. -/
theorem SameRefs.work (u : Option Update) {w : ℕ} {pc : WorkPc} (h₁ : (s.work w).pc ≠ .queued)
    (h₂ : (s.work w).pc ≠ .done) (h₃ : pc ≠ .queued) (h₄ : pc ≠ .done) :
    SameRefs s ({ s with umemMutex := u }.setWork w { s.work w with pc := pc }) := by
  refine ⟨rfl, rfl, rfl, rfl, rfl, rfl, fun _ _ => rfl, fun _ _ => Iff.rfl, fun _ _ => Iff.rfl,
    fun _ => rfl, fun _ => .inr rfl, fun x => ?_, fun x c => ?_, fun x => ?_⟩ <;>
    rcases eq_or_ne x w with rfl | hne
  · simp [Imr.setWork]
  · simp [Imr.setWork, update_of_ne hne]
  · simp [Imr.setWork, Work.refs, h₁, h₃]
  · simp [Imr.setWork, update_of_ne hne]
  · simp [Imr.setWork, Work.parentRefs, h₂, h₄]
  · simp [Imr.setWork, update_of_ne hne]

/-- STEP: the mutex, the table, and who waits for the mutex change. -/
theorem Inv.relock (h : Inv s) (hs : SameRefs s s')
    (hidle : ∀ w < s.nwork, (s'.work w).pc ≠ .queued → (s'.work w).pc ≠ .waiting →
      ∀ t, (s.fault t).pc.refs (s.work w).mr = 0)
    (hnamed : ∀ i c, Named s' i c → Named s i c)
    (hworks : ∀ w < s.nwork, ∀ i, Named s' i (s.work w).mr →
      (s'.work w).pc = .queued ∨ (s'.work w).pc = .waiting ∨ (s'.work w).pc = .update)
    (hlock : ∀ u, s'.umemMutex = some u → u.lo ≤ u.next ∧ u.next ≤ u.stop ∧ match u.owner with
      | .fault t => ∃ ret, (s'.fault t).pc = .update ret
      | .work w => w < s.nwork ∧ (s'.work w).pc = .update ∧
        (s.child (s.work w).mr).idx < u.stop ∧ ((s.child (s.work w).mr).idx < u.next →
          ¬ s'.view (s.child (s.work w).mr).idx = some (s.work w).mr))
    (hupdate : ∀ t ret, (s'.fault t).pc = .update ret →
      ∃ u, s'.umemMutex = some u ∧ u.owner = .fault t)
    (hupdateWork : ∀ w < s.nwork, (s'.work w).pc = .update →
      ∃ u, s'.umemMutex = some u ∧ u.owner = .work w)
    (hpending : ∀ i c, s.implicitChildren i = some c → Pending s' (s.child c).creator i ∨
      s'.view i = some c ∧ (s'.ksm i = some c ∨
        ∃ u, s'.umemMutex = some u ∧ u.owner = .fault (s.child c).creator))
    (hfaults : ∀ t, Local s (s'.fault t)) : Inv s' := by
  obtain ⟨hic, hch, hnc, hnf, hnw, huse, hrefs, hpub, hsto, hidx, hstart, hmr, hwr, hpar⟩ := hs
  constructor
  · rw [hic, hch, hnc]
    exact h.slot
  · rw [hch, hnc, hnf]
    exact h.creator
  · intro t hd
    rw [hnf]
    exact (hstart t).elim id fun heq => h.started t fun ret => heq ▸ hd ret
  · intro t c hr
    rw [hrefs] at hr
    rw [hnc, hch, hidx]
    exact h.held t c hr
  · intro t c hp
    obtain ⟨h₁, h₂, h₃, h₄⟩ := h.fresh t c ((hpub t c).mp hp)
    rw [hch, hic, hnw]
    exact ⟨h₁, h₂, fun w hw => by rw [hmr]; exact h₃ w hw, fun t' hne => (hrefs t' c).trans (h₄ t' hne)⟩
  · intro t c hp
    rw [hch]
    exact h.stored t c ((hsto t c).mp hp)
  · intro w hw
    rw [hnw] at hw
    rw [hmr, hnc, hch, hic]
    exact h.work w hw
  · rw [hnw]
    intro w hw x hx heq
    rw [hmr, hmr] at heq
    exact h.once w hw x hx heq
  · intro w hw hq hwt t
    rw [hnw] at hw
    rw [hmr, hrefs]
    exact hidle w hw hq hwt t
  · intro c hc hd
    rw [hnc] at hc
    rw [hch] at hd ⊢
    unfold Imr.refs
    rw [hnf, hnw, hic, hch]
    simp only [hrefs, hwr]
    exact h.childRefs c hc hd
  · rw [huse, hnw]
    simp only [hpar]
    exact h.parentRefs
  · intro i c hn
    obtain ⟨h₁, h₂, h₃, h₄, h₅⟩ := h.named i c (hnamed i c hn)
    rw [hnc, hch, hnw]
    refine ⟨h₁, h₂, h₃, fun t hp => h₄ t ((hpub t c).mp hp), fun w hw heq => ?_⟩
    rw [hmr] at heq
    exact hworks w hw i (heq ▸ hn)
  · intro u hu
    obtain ⟨h₁, h₂, h₃⟩ := hlock u hu
    refine ⟨h₁, h₂, ?_⟩
    cases ho : u.owner with
    | fault t =>
      rw [ho] at h₃
      exact h₃
    | work w =>
      rw [ho] at h₃
      dsimp only
      rw [hnw, hmr, hch]
      exact h₃
  · exact hupdate
  · rw [hnw]
    exact hupdateWork
  · rw [hic, hch]
    exact hpending
  · exact fun t => (hfaults t).congr (by rw [hnc]) fun c _ => by rw [hch]

theorem view_some {u : Update} (hu : s.umemMutex = some u) (i : ℕ) :
    s.view i = if u.lo ≤ i ∧ i < u.next then u.buf i else s.ksm i := by
  rw [Imr.view, hu]

theorem view_none (hu : s.umemMutex = none) (i : ℕ) : s.view i = s.ksm i := by
  rw [Imr.view, hu]

/-- The mutex has one holder. -/
theorem owner_eq {u : Update} {o : Owner} (hu : s.umemMutex = some u)
    (h : ∃ u', s.umemMutex = some u' ∧ u'.owner = o) : u.owner = o := by
  obtain ⟨u', hu', ho⟩ := h
  rw [Option.some.inj (hu.symm.trans hu'), ho]

/-- STEP: an entry is read. -/
theorem Inv.read (h : Inv s) {u : Update} (hu : s.umemMutex = some u) (hlt : u.next < u.stop) :
    Inv (updateRead s u) := by
  obtain ⟨h₁, h₂, h₃⟩ := h.lock u hu
  have hview : ∀ i, (updateRead s u).view i =
      if i = u.next then s.implicitChildren i else s.view i := by
    intro i
    rw [view_some rfl, view_some hu]
    dsimp only
    rcases eq_or_ne i u.next with rfl | hne
    · rw [if_pos ⟨h₁, Nat.lt_succ_self _⟩, if_pos rfl, update_self]
    · rw [update_of_ne hne, if_neg hne]
      exact if_congr ⟨fun h => ⟨h.1, by omega⟩, fun h => ⟨h.1, by omega⟩⟩ rfl rfl
  have hnamed : ∀ i c, Named (updateRead s u) i c → Named s i c ∨ s.implicitChildren i = some c := by
    rintro i c (hk | ⟨u', hu', ha, hb, hc⟩)
    · exact .inl (.inl hk)
    · cases hu'
      dsimp only at ha hb hc
      rcases eq_or_ne i u.next with rfl | hne
      · rw [update_self] at hc
        exact .inr hc
      · rw [update_of_ne hne] at hc
        exact .inl (.inr ⟨u, hu, ha, by omega, hc⟩)
  show Inv { s with umemMutex := some { u with
    next := u.next + 1
    buf := update u.buf u.next (s.implicitChildren u.next) } }
  constructor
  · exact h.slot
  · exact h.creator
  · exact h.started
  · exact h.held
  · exact h.fresh
  · exact h.stored
  · exact h.work
  · exact h.once
  · exact h.idle
  · exact h.childRefs
  · exact h.parentRefs
  · intro i c hn
    rcases hnamed i c hn with hn | hs
    · exact h.named i c hn
    · obtain ⟨hc, hi, hd⟩ := h.slot i c hs
      exact ⟨hc, hi, hd, h.not_published hs, fun w hw heq => absurd heq (h.no_work hs w hw)⟩
  · rintro u' hu'
    cases hu'
    refine ⟨Nat.le_succ_of_le h₁, hlt, ?_⟩
    cases ho : u.owner with
    | fault t =>
      rw [ho] at h₃
      exact h₃
    | work w =>
      rw [ho] at h₃
      obtain ⟨hw, hp, hst, hvw⟩ := h₃
      refine ⟨hw, hp, hst, fun hnx => ?_⟩
      change ¬ (updateRead s u).view _ = _
      rw [hview]
      split
      · exact (h.work w hw).2
      · rename_i hne
        have hnx : (s.child (s.work w).mr).idx < u.next + 1 := hnx
        have hne : (s.child (s.work w).mr).idx ≠ u.next := hne
        exact hvw (by omega)
  · exact fun t ret hp => ⟨_, rfl, (owner_eq hu (h.updating t ret hp) :)⟩
  · exact fun w hw hp => ⟨_, rfl, (owner_eq hu (h.updateWork w hw hp) :)⟩
  · intro i c hs
    change Pending _ (s.child c).creator i ∨ (updateRead s u).view i = some c ∧ _
    rw [hview]
    rcases h.pending i c hs with hpend | ⟨hv, hk⟩
    · rcases hpend with hst | ⟨hr, hact | ⟨u', hu', ho, hn, hst⟩⟩
      · exact .inl (.inl hst)
      · exact .inl (.inr ⟨hr, .inl hact⟩)
      · cases hu.symm.trans hu'
        rcases eq_or_ne i u.next with rfl | hne
        · exact .inr ⟨by rw [if_pos rfl]; exact hs, .inr ⟨_, rfl, ho⟩⟩
        · exact .inl (.inr ⟨hr, .inr ⟨_, rfl, ho, by dsimp only; omega, hst⟩⟩)
    · refine .inr ⟨?_, hk.imp id fun ho => ⟨_, rfl, (owner_eq hu ho :)⟩⟩
      split
      · exact hs
      · exact hv
  · exact fun t => (h.faults t).congr (le_refl _) fun _ _ => rfl

/-- STEP: the entries read so far are posted. -/
theorem Inv.post (h : Inv s) {u : Update} (hu : s.umemMutex = some u) : Inv (updatePost s u) := by
  obtain ⟨h₁, h₂, h₃⟩ := h.lock u hu
  have hksm : ∀ i, (updatePost s u).ksm i = s.view i := fun i => (view_some hu i).symm
  have hview : ∀ i, (updatePost s u).view i = s.view i := by
    intro i
    rw [view_some rfl, ← hksm]
    exact if_neg fun hi => absurd (hi.1.trans_lt hi.2) (lt_irrefl _)
  have hnamed : ∀ i c, Named (updatePost s u) i c → Named s i c := by
    rintro i c (hk | ⟨u', hu', ha, hb, hc⟩)
    · rw [hksm, view_some hu] at hk
      split at hk
      · rename_i hi
        exact .inr ⟨u, hu, hi.1, hi.2, hk⟩
      · exact .inl hk
    · cases hu'
      exact absurd (ha.trans_lt hb) (lt_irrefl _)
  refine h.relock (.refl_mutex ..) h.idle hnamed
    (fun w hw i hn => (h.named i _ (hnamed i _ hn)).2.2.2.2 w hw rfl) ?_
    (fun t ret hp => ⟨_, rfl, (owner_eq hu (h.updating t ret hp) :)⟩)
    (fun w hw hp => ⟨_, rfl, (owner_eq hu (h.updateWork w hw hp) :)⟩) (fun i c hs => ?_) h.faults
  · rintro u' hu'
    cases hu'
    refine ⟨le_refl _, h₂, ?_⟩
    cases ho : u.owner with
    | fault t =>
      rw [ho] at h₃
      exact h₃
    | work w =>
      rw [ho] at h₃
      obtain ⟨hw, hp, hst, hvw⟩ := h₃
      refine ⟨hw, hp, hst, fun hnx => ?_⟩
      rw [hview]
      exact hvw hnx
  · rcases h.pending i c hs with hpend | ⟨hv, hk⟩
    · rcases hpend with hst | ⟨hr, hact | ⟨u', hu', ho, hn, hst⟩⟩
      · exact .inl (.inl hst)
      · exact .inl (.inr ⟨hr, .inl hact⟩)
      · cases hu.symm.trans hu'
        exact .inl (.inr ⟨hr, .inr ⟨_, rfl, ho, hn, hst⟩⟩)
    · exact .inr ⟨(hview i).trans hv, .inl ((hksm i).trans hv)⟩

/-- The entries asked for are rewritten. -/
theorem lockUpdate_range {o : Owner} {idx n i : ℕ} {u : Update}
    (hu : (lockUpdate s o idx n).umemMutex = some u) (h₁ : idx ≤ i) (h₂ : i < idx + n) :
    u.next ≤ i ∧ i < u.stop := by
  cases hu
  exact Window.of_mem (by decide : 0 < sizeofKlm) (by decide : MLX5_UMR_FLEX_ALIGNMENT = 4 * sizeofKlm)
    h₁ h₂

/-- Nothing is read yet. -/
theorem lockUpdate_named {o : Owner} {idx n i c : ℕ} (h : Named (lockUpdate s o idx n) i c) :
    s.ksm i = some c := by
  rcases h with hk | ⟨u, hu, ha, hb, -⟩
  · exact hk
  · cases hu
    exact absurd (ha.trans_lt hb) (lt_irrefl _)

theorem lockUpdate_view (o : Owner) (idx n i : ℕ) : (lockUpdate s o idx n).view i = s.ksm i := by
  exact if_neg fun hi => absurd (hi.1.trans_lt hi.2) (lt_irrefl _)

/-- STEP: the fault takes the mutex. -/
theorem Inv.out_lock (h : Inv s) {ret : Except Errno ℕ} (hp : (s.fault t).pc = .out ret)
    (hu : s.umemMutex = none) :
    Inv ((lockUpdate s (.fault t) (s.fault t).updStartIdx (s.fault t).updLen).setFault t
      ((s.fault t).at (.update ret))) := by
  have hnd : ∀ ret, (s.fault t).pc ≠ .done ret := fun ret => hp ▸ nofun
  have hother : ∀ t', t' ≠ t → update s.fault t ((s.fault t).at (.update ret)) t' =
      s.fault t' := fun t' hne => update_of_ne hne ..
  have hself : update s.fault t ((s.fault t).at (.update ret)) t =
      (s.fault t).at (.update ret) := update_self ..
  have hnou : ∀ {P : Update → Prop}, ¬ ∃ u, s.umemMutex = some u ∧ P u := by
    rintro P ⟨u, hu', -⟩
    rw [hu] at hu'
    cases hu'
  refine h.relock (.at _ (h.started t hnd) (fun c => by rw [hp]; rfl) fun _ => rfl) h.idle
    (fun i c hn => .inl (lockUpdate_named hn))
    (fun w hw i hn => (h.named i _ (.inl (lockUpdate_named hn))).2.2.2.2 w hw rfl)
    ?_ (fun t' ret' hp' => ?_) (fun w hw hp' => absurd (h.updateWork w hw hp') hnou)
    (fun i c hs => ?_) (fun t' => ?_)
  · rintro u hu'
    cases hu'
    exact ⟨le_refl _, Nat.le_add_right .., ret, by simp only [Imr.setFault, lockUpdate, hself]; rfl⟩
  · rcases eq_or_ne t' t with rfl | hne
    · exact ⟨_, rfl, rfl⟩
    · simp only [Imr.setFault, lockUpdate, hother t' hne] at hp'
      exact absurd (h.updating t' ret' hp') hnou
  · rcases h.pending i c hs with hpend | ⟨hv, hk⟩
    · left
      rcases eq_or_ne (s.child c).creator t with heq | hnt
      · rw [heq] at hpend ⊢
        rcases hpend with ⟨mr, hst, -⟩ | ⟨hr, -⟩
        · rw [hp] at hst
          cases hst
        · refine .inr ⟨?_, .inr ⟨_, rfl, rfl, lockUpdate_range (s := s) rfl hr.1 hr.2⟩⟩
          simp only [Imr.setFault, lockUpdate, hself]
          exact hr
      · unfold Pending at hpend ⊢
        simp only [Imr.setFault, lockUpdate, hother _ hnt]
        exact hpend.imp id fun ⟨hr, ha⟩ => ⟨hr, ha.imp id fun hu' => absurd hu' hnou⟩
    · rw [view_none hu] at hv
      exact .inr ⟨(lockUpdate_view ..).trans hv, .inl hv⟩
  · rcases eq_or_ne t' t with rfl | hne
    · simp only [Imr.setFault, lockUpdate, hself]
      refine (h.faults t').at hnd fun n hn => ?_
      rcases hn with hn | hn | hn <;> cases hn
      exact (h.faults t').finished n (.inl hp)
    · simp only [Imr.setFault, lockUpdate, hother t' hne]
      exact h.faults t'

/-- STEP: the fault gives the mutex back and returns. -/
theorem Inv.unlock_fault (h : Inv s) {u : Update} (hu : s.umemMutex = some u)
    (hlo : u.lo = u.stop) (hnx : u.next = u.stop) (ho : u.owner = .fault t) {ret : Except Errno ℕ}
    (hp : (s.fault t).pc = .update ret) :
    Inv ({ s with umemMutex := none }.setFault t ((s.fault t).at (.done ret))) := by
  have hnd : ∀ ret, (s.fault t).pc ≠ .done ret := fun ret => hp ▸ nofun
  have hother : ∀ t', t' ≠ t → update s.fault t ((s.fault t).at (.done ret)) t' =
      s.fault t' := fun t' hne => update_of_ne hne ..
  have hself : update s.fault t ((s.fault t).at (.done ret)) t =
      (s.fault t).at (.done ret) := update_self ..
  have hview : ∀ i, s.view i = s.ksm i := fun i => by
    rw [view_some hu, if_neg (by omega)]
  refine h.relock (.at _ (h.started t hnd) (fun c => by rw [hp]; rfl) fun _ => rfl) h.idle
    (fun i c hn => ?_) (fun w hw i hn => ?_) (fun u hu' => by cases hu') (fun t' ret' hp' => ?_)
    (fun w hw hp' => ?_) (fun i c hs => ?_) (fun t' => ?_)
  · exact .inl (hn.elim id fun ⟨u', hu', _⟩ => nomatch hu')
  · have hk : s.ksm i = some (s.work w).mr := hn.elim id fun ⟨u', hu', _⟩ => nomatch hu'
    exact (h.named i _ (.inl hk)).2.2.2.2 w hw rfl
  · rcases eq_or_ne t' t with rfl | hne
    · simp only [Imr.setFault, hself] at hp'
      cases hp'
    · simp only [Imr.setFault, hother t' hne] at hp'
      cases ho.symm.trans (owner_eq hu (h.updating t' ret' hp'))
      exact absurd rfl hne
  · cases ho.symm.trans (owner_eq hu (h.updateWork w hw hp'))
  · rcases h.pending i c hs with hpend | ⟨hv, -⟩
    · left
      rcases hpend with ⟨mr, hst, hi⟩ | ⟨hr, hact | ⟨u', hu', ho', hn, hst⟩⟩
      · have hne : (s.child c).creator ≠ t := by
          intro heq
          rw [heq, hp] at hst
          cases hst
        refine .inl ⟨mr, ?_, ?_⟩
        · simp only [Imr.setFault, hother _ hne]
          exact hst
        · simp only [Imr.setFault, hother _ hne]
          exact hi
      · have hne : (s.child c).creator ≠ t := by
          intro heq
          rw [heq, hp] at hact
          exact hact
        refine .inr ⟨?_, .inl ?_⟩
        · simp only [Imr.setFault, hother _ hne]
          exact hr
        · simp only [Imr.setFault, hother _ hne]
          exact hact
      · cases hu.symm.trans hu'
        omega
    · rw [hview] at hv
      exact .inr ⟨hv, .inl hv⟩
  · rcases eq_or_ne t' t with rfl | hne
    · simp only [Imr.setFault, hself]
      refine (h.faults t').at hnd fun n hn => ?_
      rcases hn with hn | hn | hn
      · cases hn
      · cases hn
      · cases hn
        exact (h.faults t').finished n (.inr (.inl hp))
    · simp only [Imr.setFault, hother t' hne]
      exact h.faults t'

/-! ### The deferred free -/

section Work
variable {w : ℕ}

/-- STEP: the work takes the mutex. -/
theorem Inv.work_lock (h : Inv s) (hw : w < s.nwork) (hp : (s.work w).pc = .waiting)
    (huse : (s.child (s.work w).mr).usecount = 0) (hu : s.umemMutex = none) :
    Inv ((lockUpdate s (.work w) (s.child (s.work w).mr).idx 1).setWork w
      { s.work w with pc := .update }) := by
  have hother : ∀ x, x ≠ w → update s.work w { s.work w with pc := .update } x = s.work x :=
    fun x hne => update_of_ne hne ..
  have hself : update s.work w { s.work w with pc := .update } w =
      { s.work w with pc := .update } := update_self ..
  have hnou : ∀ {P : Update → Prop}, ¬ ∃ u, s.umemMutex = some u ∧ P u := by
    rintro P ⟨u, hu', -⟩
    rw [hu] at hu'
    cases hu'
  have hnone : ∀ t, (s.fault t).pc.refs (s.work w).mr = 0 := by
    intro t
    by_contra hr
    obtain ⟨hc, hd, -⟩ := h.held t _ hr
    have hlt := h.started t fun ret hd => hr (by rw [hd]; rfl)
    have hrefs := h.childRefs _ hc hd
    have hf : 0 ≤ ∑ k ∈ range s.nfault, (s.fault k).pc.refs (s.work w).mr :=
      sum_nonneg fun k _ => Pc.refs_nonneg ..
    have hx : 0 ≤ ∑ k ∈ range s.nwork, (s.work k).refs (s.work w).mr :=
      sum_nonneg fun k _ => Work.refs_nonneg ..
    rw [huse, Imr.refs, if_neg (h.work w hw).2] at hrefs
    exact hr (eq_zero_of_sum (f := fun k => (s.fault k).pc.refs (s.work w).mr)
      (fun k => Pc.refs_nonneg ..) (by omega) hlt)
  refine h.relock (.work _ (by rw [hp]; decide) (by rw [hp]; decide) (by decide) (by decide))
    (fun x hx hq hwt => ?_) (fun i c hn => .inl (lockUpdate_named hn)) (fun x hx i hn => ?_) ?_
    (fun t ret hp' => absurd (h.updating t ret hp') hnou) (fun x hx hp' => ?_) (fun i c hs => ?_) h.faults
  · rcases eq_or_ne x w with rfl | hne
    · exact hnone
    · simp only [Imr.setWork, lockUpdate, hother x hne] at hq hwt
      exact h.idle x hx hq hwt
  · rcases eq_or_ne x w with rfl | hne
    · exact .inr (.inr (by simp only [Imr.setWork, lockUpdate, hself]))
    · simp only [Imr.setWork, lockUpdate, hother x hne]
      exact (h.named i _ (.inl (lockUpdate_named hn))).2.2.2.2 x hx rfl
  · rintro u hu'
    cases hu'
    obtain ⟨h₁, h₂⟩ := lockUpdate_range (s := s) (o := .work w) (n := 1) rfl
      (le_refl (s.child (s.work w).mr).idx) (Nat.lt_succ_self _)
    refine ⟨le_refl _, Nat.le_add_right .., hw, by simp only [Imr.setWork, lockUpdate, hself], h₂,
      fun hlt => absurd h₁ (Nat.not_le.mpr hlt)⟩
  · rcases eq_or_ne x w with rfl | hne
    · exact ⟨_, rfl, rfl⟩
    · simp only [Imr.setWork, lockUpdate, hother x hne] at hp'
      exact absurd (h.updateWork x hx hp') hnou
  · rcases h.pending i c hs with hpend | ⟨hv, -⟩
    · exact .inl (hpend.imp id fun ⟨hr, ha⟩ => ⟨hr, ha.imp id fun hu' => absurd hu' hnou⟩)
    · rw [view_none hu] at hv
      exact .inr ⟨(lockUpdate_view ..).trans hv, .inl hv⟩

/-- STEP: the work gives the mutex back. -/
theorem Inv.unlock_work (h : Inv s) {u : Update} (hu : s.umemMutex = some u)
    (hlo : u.lo = u.stop) (hnx : u.next = u.stop) (ho : u.owner = .work w) :
    Inv ({ s with umemMutex := none }.setWork w { s.work w with pc := .updated }) := by
  obtain ⟨-, -, h₃⟩ := h.lock u hu
  rw [ho] at h₃
  obtain ⟨hw, hp, hst, hvw⟩ := h₃
  have hother : ∀ x, x ≠ w → update s.work w { s.work w with pc := .updated } x =
      s.work x := fun x hne => update_of_ne hne ..
  have hself : update s.work w { s.work w with pc := .updated } w =
      { s.work w with pc := .updated } := update_self ..
  have hview : ∀ i, s.view i = s.ksm i := fun i => by
    rw [view_some hu, if_neg (by omega)]
  refine h.relock (.work _ (by rw [hp]; decide) (by rw [hp]; decide) (by decide) (by decide))
    (fun x hx hq hwt => ?_) (fun i c hn => .inl (hn.elim id fun ⟨u', hu', _⟩ => nomatch hu'))
    (fun x hx i hn => ?_) (fun u hu' => by cases hu') (fun t ret hp' => ?_) (fun x hx hp' => ?_)
    (fun i c hs => ?_) h.faults
  · rcases eq_or_ne x w with rfl | hne
    · exact h.idle x hx (by rw [hp]; decide) (by rw [hp]; decide)
    · simp only [Imr.setWork, hother x hne] at hq hwt
      exact h.idle x hx hq hwt
  · have hk : s.ksm i = some (s.work x).mr := hn.elim id fun ⟨u', hu', _⟩ => nomatch hu'
    obtain ⟨-, hi, -, -, hworks⟩ := h.named i _ (.inl hk)
    rcases eq_or_ne x w with rfl | hne
    · refine absurd ?_ (hvw (by omega))
      rw [hview, hi]
      exact hk
    · simp only [Imr.setWork, hother x hne]
      exact hworks x hx rfl
  · cases ho.symm.trans (owner_eq hu (h.updating t ret hp'))
  · rcases eq_or_ne x w with rfl | hne
    · simp only [Imr.setWork, hself] at hp'
      cases hp'
    · simp only [Imr.setWork, hother x hne] at hp'
      cases ho.symm.trans (owner_eq hu (h.updateWork x hx hp'))
      exact absurd rfl hne
  · rcases h.pending i c hs with hpend | ⟨hv, -⟩
    · rcases hpend with hst' | ⟨hr, hact | ⟨u', hu', ho', -⟩⟩
      · exact .inl (.inl hst')
      · exact .inl (.inr ⟨hr, .inl hact⟩)
      · cases hu.symm.trans hu'
        cases ho.symm.trans ho'
    · rw [hview] at hv
      exact .inr ⟨hv, .inl hv⟩

/-- STEP: the work goes on outside the mutex: it drops the reference of `implicit_children`, destroys the
    child, or drops the reference to the parent. -/
theorem Inv.work_move (h : Inv s) (hw : w < s.nwork) {x : Work} {m : ℕ → Child} {n : ℤ}
    (hmr : x.mr = (s.work w).mr) (hpu : (s.work w).pc ≠ .update) (hxu : x.pc ≠ .update)
    (hq : x.pc ≠ .queued ∧ (x.pc = .waiting ∨ (s.work w).pc ≠ .queued ∧ (s.work w).pc ≠ .waiting))
    (hidx : ∀ c, (m c).idx = (s.child c).idx) (hcre : ∀ c, (m c).creator = (s.child c).creator)
    (hdes : ∀ c, (m c).destroyed = (s.child c).destroyed ∨
      c = (s.work w).mr ∧ (s.work w).pc = .updated ∧ (m c).destroyed = true)
    (huse : ∀ c, (m c).usecount = (s.child c).usecount + (x.refs c - (s.work w).refs c))
    (hn : n = s.usecount + (x.parentRefs - (s.work w).parentRefs)) :
    Inv { s with child := m, work := update s.work w x, usecount := n } := by
  have hother : ∀ y, y ≠ w → update s.work w x y = s.work y := fun y hne =>
    update_of_ne hne ..
  have hsame : ∀ y, (update s.work w x y).mr = (s.work y).mr := by
    intro y
    rcases eq_or_ne y w with rfl | hne
    · rw [update_self, hmr]
    · rw [hother y hne]
  have hkept : ∀ c, (∀ y < s.nwork, (s.work y).mr = c → (s.work y).pc ≠ .updated) →
      (m c).destroyed = (s.child c).destroyed := fun c hc =>
    (hdes c).resolve_right fun hd => hc w hw hd.1.symm hd.2.1
  constructor
  · intro i c hs
    obtain ⟨hc, hi, hd⟩ := h.slot i c hs
    exact ⟨hc, (hidx c).trans hi, (hkept c fun y hy heq => absurd heq (h.no_work hs y hy)).trans hd⟩
  · exact fun c hc => (hcre c).symm ▸ h.creator c hc
  · exact h.started
  · intro t c hr
    obtain ⟨hc, hd, hi⟩ := h.held t c hr
    refine ⟨hc, (hkept c fun y hy heq hp => hr ?_).trans hd, (hidx c).trans hi⟩
    rw [← heq]
    exact h.idle y hy (by rw [hp]; decide) (by rw [hp]; decide) t
  · intro t c hp
    obtain ⟨h₁, h₂, h₃, h₄⟩ := h.fresh t c hp
    refine ⟨(hcre c).trans h₁, ?_, fun y hy => ?_, h₄⟩
    · dsimp only
      rwa [hidx]
    · dsimp only
      rw [hsame]
      exact h₃ y hy
  · exact fun t c hp => (hcre c).trans (h.stored t c hp)
  · intro y hy
    rw [hsame, hidx]
    exact h.work y hy
  · intro y hy z hz heq
    rw [hsame, hsame] at heq
    exact h.once y hy z hz heq
  · intro y hy hq' hwt t
    rw [hsame]
    rcases eq_or_ne y w with rfl | hne
    · simp only [update_self] at hq' hwt
      obtain ⟨h₁, h₂⟩ := hq.2.resolve_left hwt
      exact h.idle y hy h₁ h₂ t
    · simp only [hother y hne] at hq' hwt
      exact h.idle y hy hq' hwt t
  · intro c hc hd
    have hd' : (s.child c).destroyed = false := by
      rcases hdes c with heq | ⟨-, -, htrue⟩
      · exact heq.symm.trans hd
      · exact absurd (hd.symm.trans htrue) Bool.false_ne_true
    have hsum := sum_work (r := { s with child := m, work := update s.work w x, usecount := n })
      hw rfl rfl (fun y => y.refs c)
    have hold := h.childRefs c hc hd'
    unfold Imr.refs at hold ⊢
    rw [hsum]
    dsimp only
    rw [huse, hidx, hold]
    omega
  · have hsum := sum_work (r := { s with child := m, work := update s.work w x, usecount := n })
      hw rfl rfl Work.parentRefs
    rw [hsum]
    have := h.parentRefs
    dsimp only
    omega
  · intro i c hnm
    obtain ⟨hc, hi, hd, hnp, hworks⟩ := h.named i c hnm
    refine ⟨hc, (hidx c).trans hi, (hkept c fun y hy heq hp => ?_).trans hd, hnp, fun y hy heq => ?_⟩
    · have := hworks y hy heq
      rw [hp] at this
      simp at this
    · dsimp only at heq
      rw [hsame] at heq
      rcases eq_or_ne y w with rfl | hne
      · simp only [update_self]
        rcases hq.2 with hwt | ⟨h₁, h₂⟩
        · exact .inr (.inl hwt)
        · rcases hworks y hy heq with hp | hp | hp
          · exact absurd hp h₁
          · exact absurd hp h₂
          · exact absurd hp hpu
      · simp only [hother y hne]
        exact hworks y hy heq
  · intro u hu
    obtain ⟨h₁, h₂, h₃⟩ := h.lock u hu
    refine ⟨h₁, h₂, ?_⟩
    cases ho : u.owner with
    | fault t =>
      rw [ho] at h₃
      exact h₃
    | work y =>
      rw [ho] at h₃
      obtain ⟨hy, hp, hst, hvw⟩ := h₃
      have hne : y ≠ w := by
        rintro rfl
        exact hpu hp
      dsimp only
      rw [hsame, hidx, hother y hne]
      exact ⟨hy, hp, hst, hvw⟩
  · exact h.updating
  · intro y hy hp
    rcases eq_or_ne y w with rfl | hne
    · simp only [update_self] at hp
      exact absurd hp hxu
    · simp only [hother y hne] at hp
      exact h.updateWork y hy hp
  · intro i c hs
    rw [hcre]
    exact h.pending i c hs
  · exact fun t => (h.faults t).congr (le_refl _) fun c _ => hidx c

/-- STEP: the work of a child, whatever it does next. -/
theorem Inv.work_step (h : Inv s) (hok : ok s (.work w)) : Inv (freeImplicitChildMrWork s w) := by
  obtain ⟨hw, hwait⟩ := hok
  unfold freeImplicitChildMrWork
  dsimp only
  split
  · rename_i hp
    refine h.work_move (x := { s.work w with pc := .waiting })
      (m := (s.addChild (s.work w).mr (-1)).child) (n := s.usecount) hw rfl (by rw [hp]; decide)
      nofun ⟨nofun, .inl rfl⟩ (fun c => by simp) (fun c => by simp) (fun c => .inl (by simp))
      (fun c => ?_) ?_
    · rw [addChild_usecount]
      simp [Work.refs, hp]
      split <;> omega
    · simp [Work.parentRefs, hp]
  · rename_i hp
    exact h.work_lock hw hp (hwait hp).1 (hwait hp).2
  · rename_i hp
    refine h.work_move (x := { s.work w with pc := .dereged }) (m := (s.dereg (s.work w).mr).child)
      (n := s.usecount) hw rfl (by rw [hp]; decide) nofun
      ⟨nofun, .inr ⟨by rw [hp]; decide, by rw [hp]; decide⟩⟩ (fun c => by simp) (fun c => by simp)
      (fun c => ?_) (fun c => ?_) ?_
    · rcases eq_or_ne c (s.work w).mr with rfl | hne
      · exact .inr ⟨rfl, hp, by simp⟩
      · exact .inl (by simp [hne])
    · simp [Work.refs, hp]
    · simp [Work.parentRefs, hp]
  · rename_i hp
    refine h.work_move (x := { s.work w with pc := .done }) (m := s.child) (n := s.usecount - 1) hw rfl
      (by rw [hp]; decide) nofun ⟨nofun, .inr ⟨by rw [hp]; decide, by rw [hp]; decide⟩⟩
      (fun c => rfl) (fun c => rfl) (fun c => .inl rfl) (fun c => ?_) ?_
    · simp [Work.refs, hp]
    · simp [Work.parentRefs, hp]
      omega
  · exact h
  · exact h

open Finset in
/-- STEP: an invalidation empties a child that is in its slot. -/
theorem Inv.destroy (h : Inv s) {mr : ℕ} {m : ℕ → Child}
    (hs : s.implicitChildren (s.child mr).idx = some mr)
    (hm : ∀ c, (m c).idx = (s.child c).idx ∧ (m c).creator = (s.child c).creator ∧
      (m c).destroyed = (s.child c).destroyed ∧ (m c).usecount = (s.child c).usecount) :
    Inv { s with
      implicitChildren := update s.implicitChildren (s.child mr).idx none
      child := m
      usecount := s.usecount + 1
      work := update s.work s.nwork ⟨mr, .queued⟩
      nwork := s.nwork + 1 } := by
  obtain ⟨hmr, -, -⟩ := h.slot _ mr hs
  have hidx : ∀ c, (m c).idx = (s.child c).idx := fun c => (hm c).1
  have hother : ∀ w < s.nwork, update s.work s.nwork ⟨mr, .queued⟩ w = s.work w :=
    fun w hw => update_of_ne hw.ne ..
  have hself : update s.work s.nwork (⟨mr, .queued⟩ : Work) s.nwork = ⟨mr, .queued⟩ :=
    update_self ..
  have hno := h.no_work hs
  have hslot : ∀ i c, update s.implicitChildren (s.child mr).idx none i = some c →
      i ≠ (s.child mr).idx ∧ s.implicitChildren i = some c := fun _ _ => slot_cleared.mp
  constructor
  · intro i c hi
    obtain ⟨hc, hci, hcd⟩ := h.slot i c (hslot i c hi).2
    exact ⟨hc, (hidx c).trans hci, (hm c).2.2.1.trans hcd⟩
  · exact fun c hc => (hm c).2.1.symm ▸ h.creator c hc
  · exact h.started
  · intro t c hr
    obtain ⟨hc, hd, hi⟩ := h.held t c hr
    exact ⟨hc, (hm c).2.2.1.trans hd, (hidx c).trans hi⟩
  · intro t c hp
    obtain ⟨h₁, h₂, h₃, h₄⟩ := h.fresh t c hp
    refine ⟨(hm c).2.1.trans h₁, fun hi => ?_, fun w hw => ?_, h₄⟩
    · dsimp only at hi
      rw [hidx] at hi
      exact h₂ (hslot _ c hi).2
    · dsimp only
      rcases Nat.lt_succ_iff_lt_or_eq.mp hw with hlt | rfl
      · rw [hother w hlt]
        exact h₃ w hlt
      · rw [hself]
        rintro rfl
        exact h₂ hs
  · exact fun t c hp => (hm c).2.1.trans (h.stored t c hp)
  · intro w hw
    dsimp only
    rw [hidx]
    rcases Nat.lt_succ_iff_lt_or_eq.mp hw with hlt | rfl
    · rw [hother w hlt]
      exact ⟨(h.work w hlt).1, fun hi => (h.work w hlt).2 (hslot _ _ hi).2⟩
    · rw [hself]
      exact ⟨hmr, fun hi => (hslot _ _ hi).1 rfl⟩
  · intro w hw x hx heq
    dsimp only at heq
    rcases Nat.lt_succ_iff_lt_or_eq.mp hw with hlt | rfl <;>
      rcases Nat.lt_succ_iff_lt_or_eq.mp hx with hlt' | rfl
    · rw [hother w hlt, hother x hlt'] at heq
      exact h.once w hlt x hlt' heq
    · rw [hother w hlt, hself] at heq
      exact absurd heq (hno w hlt)
    · rw [hother x hlt', hself] at heq
      exact absurd heq.symm (hno x hlt')
    · rfl
  · intro w hw hq hwt t
    dsimp only at hq hwt ⊢
    rcases Nat.lt_succ_iff_lt_or_eq.mp hw with hlt | rfl
    · rw [hother w hlt] at hq hwt ⊢
      exact h.idle w hlt hq hwt t
    · rw [hself] at hq
      exact absurd rfl hq
  · intro c hc hd
    have hold := h.childRefs c hc ((hm c).2.2.1.symm.trans hd)
    have hnew : Work.refs c ⟨mr, .queued⟩ = if mr = c then 1 else 0 := by simp [Work.refs]
    unfold Imr.refs at hold ⊢
    rw [sum_work_new _ (Work.refs c), hnew, hidx, (hm c).2.2.2, hold]
    rcases eq_or_ne c mr with rfl | hne
    · have hgone := mt (hslot (s.child c).idx c) fun hi => hi.1 rfl
      rw [if_pos hs, if_pos rfl]
      simp only [if_neg hgone]
      omega
    · simp only [slot_other hs hne, if_neg hne.symm]
      omega
  · have hsum := sum_work_new (s := s) ⟨mr, .queued⟩ Work.parentRefs
    have hnew : Work.parentRefs ⟨mr, .queued⟩ = 1 := rfl
    have := h.parentRefs
    dsimp only
    omega
  · intro i c hnm
    obtain ⟨hc, hi, hd, hnp, hworks⟩ := h.named i c hnm
    refine ⟨hc, (hidx c).trans hi, (hm c).2.2.1.trans hd, hnp, fun w hw heq => ?_⟩
    dsimp only at heq ⊢
    rcases Nat.lt_succ_iff_lt_or_eq.mp hw with hlt | rfl
    · rw [hother w hlt] at heq ⊢
      exact hworks w hlt heq
    · rw [hself]
      exact .inl rfl
  · intro u hu
    obtain ⟨h₁, h₂, h₃⟩ := h.lock u hu
    refine ⟨h₁, h₂, ?_⟩
    cases ho : u.owner with
    | fault t =>
      rw [ho] at h₃
      exact h₃
    | work w =>
      rw [ho] at h₃
      dsimp only
      rw [hother w h₃.1, hidx]
      exact ⟨Nat.lt_succ_of_lt h₃.1, h₃.2⟩
  · exact h.updating
  · intro w hw hp
    dsimp only at hp
    rcases Nat.lt_succ_iff_lt_or_eq.mp hw with hlt | rfl
    · rw [hother w hlt] at hp
      exact h.updateWork w hlt hp
    · rw [hself] at hp
      cases hp
  · intro i c hi
    rw [(hm c).2.1]
    exact h.pending i c (hslot i c hi).2
  · exact fun t => (h.faults t).congr (le_refl _) fun c _ => hidx c

end Work

/-! ### Every step -/

section
variable (h : Inv s)
include h

theorem Inv.usecount_pos : s.usecount ≠ 0 := by
  have hsum : 0 ≤ ∑ w ∈ range s.nwork, (s.work w).parentRefs :=
    sum_nonneg fun w _ => by unfold Work.parentRefs; split <;> decide
  have := h.parentRefs
  omega

/-- STEP: pages of a child are invalidated. -/
theorem Inv.invalidate {mr : ℕ} {empties : Bool} (hm : Meets s (.invalidate mr empties)) :
    Inv (invalidate s mr empties) := by
  unfold ImplicitMr.invalidate
  split
  · rename_i hempty
    obtain ⟨hmapped, rfl⟩ := hempty
    have hchild : ∀ c, (update s.child mr { s.child mr with mapped := false } c).idx =
          (s.child c).idx ∧
        (update s.child mr { s.child mr with mapped := false } c).creator =
          (s.child c).creator ∧
        (update s.child mr { s.child mr with mapped := false } c).destroyed =
          (s.child c).destroyed ∧
        (update s.child mr { s.child mr with mapped := false } c).usecount =
          (s.child c).usecount := by
      intro c
      rcases eq_or_ne c mr with rfl | hne
      · simp only [update_self, and_self]
      · simp only [update_of_ne hne, and_self]
    have hdest := h.destroy (hm hmapped) hchild
    simp only [destroyUnusedImplicitChildMr, Imr.setChild, update_self, if_neg h.usecount_pos]
    exact hdest
  · exact h

/-- STEP: `__xa_cmpxchg`, whatever it finds. -/
theorem Inv.publish (dev : Dev) {mr : ℕ} (hp : (s.fault t).pc = .publish mr)
    (err : Option Errno) : Inv (childPublish dev s t mr err) := by
  have hnd : ∀ ret, (s.fault t).pc ≠ .done ret := fun ret => hp ▸ nofun
  unfold childPublish
  dsimp only
  split
  · rename_i ret hs
    exact h.adopt hp hs
  · rename_i hs
    split
    · rename_i e
      exact h.publish_fail hp e
    · split
      · refine h.published hp hs trivial rfl (fun c => rfl) (fun c hc => ?_) (fun c => nofun)
          (fun i hi => hi) (.inl rfl) ((h.faults t).at hnd fun n hn => ?_)
        · exact (Pc.store.inj hc).symm
        · exact hn.elim nofun fun hn => hn.elim nofun nofun
      · refine h.published hp hs trivial rfl (fun c => rfl) (fun c => nofun) (fun c => nofun)
          (fun i hi => Fault.range_created (h.faults t) (.inl hi))
          (.inr (Fault.range_created (h.faults t) (.inr rfl)))
          ((h.faults t).created.at hnd fun n hn => ?_)
        exact hn.elim nofun fun hn => hn.elim nofun nofun

/-- STEP: `mutex_unlock`, whoever has the mutex. -/
theorem Inv.unlock {u : Update} (hu : s.umemMutex = some u) (hlo : u.lo = u.stop)
    (hnx : u.next = u.stop) : Inv (updateUnlock s u) := by
  unfold updateUnlock
  cases ho : u.owner with
  | work w => exact h.unlock_work hu hlo hnx ho
  | fault t =>
    have := (h.lock u hu).2.2
    rw [ho] at this
    obtain ⟨ret, hp⟩ := this
    simp only [hp]
    exact h.unlock_fault hu hlo hnx ho hp

/-- STEP: a page fault begins; what it is asked for ends inside the region, or it has failed. -/
theorem Inv.begin (dev : Dev) {userVa bcnt : ℕ} :
    Inv ({ s with nfault := s.nfault + 1 }.setFault s.nfault (faultStart dev userVa bcnt)) := by
  have hfits := dev.fits
  unfold faultStart
  dsimp only
  split
  · refine h.start (fun c => rfl) (fun ret => nofun)
      ⟨.inl rfl, fun x h₁ h₂ => by dsimp only at h₁ h₂; omega, fun hu => absurd rfl hu, fun n hn => ?_⟩
    exact hn.elim nofun fun hn => hn.elim nofun nofun
  · refine h.start (fun c => rfl) (fun ret => nofun)
      ⟨.inr ⟨rfl, by dsimp only; omega⟩, fun x h₁ h₂ => by dsimp only at h₁ h₂; omega,
        fun hu => absurd rfl hu, fun n hn => ?_⟩
    exact hn.elim nofun fun hn => hn.elim nofun nofun

/-- STEP: every admitted step keeps the invariant. -/
theorem Inv.step (dev : Dev) {op : Op} (hok : ok s op) (hm : Meets s op) :
    Inv (ImplicitMr.step dev s op) := by
  cases op with
  | fault userVa bcnt => exact h.begin dev
  | loop t =>
    simp only [ImplicitMr.step]
    split
    · rename_i hp
      exact h.loop hp
    · exact h
  | create t err =>
    simp only [ImplicitMr.step]
    split
    · rename_i hp
      cases err with
      | none => exact h.create_ok hp
      | some e => exact h.create_fail hp e
    · exact h
  | publish t err =>
    simp only [ImplicitMr.step]
    split
    · rename_i mr hp
      exact h.publish dev hp err
    · exact h
  | store t err =>
    simp only [ImplicitMr.step]
    split
    · rename_i mr hp
      cases err with
      | none => exact h.stored_ok hp
      | some e =>
        obtain ⟨hs, hu, hv, hk⟩ := hm mr hp
        exact h.store_fail hp e hs hu hv hk
    · exact h
  | real t ret mapped =>
    simp only [ImplicitMr.step]
    split
    · rename_i mtt hp
      exact h.real hp ret mapped
    · exact h
  | deref t =>
    simp only [ImplicitMr.step]
    split
    · rename_i mtt ret hp
      exact h.deref hp
    · exact h
  | out t =>
    simp only [ImplicitMr.step]
    split
    · rename_i ret hp
      unfold faultOut
      dsimp only
      split
      · rename_i hlen
        exact h.out_done hp hlen
      · rename_i hlen
        exact h.out_lock hp (hok.resolve_left hlen)
    · exact h
  | read =>
    simp only [ImplicitMr.step]
    split
    · rename_i u hu
      exact h.read hu (hok u hu)
    · exact h
  | post =>
    simp only [ImplicitMr.step]
    split
    · rename_i u hu
      exact h.post hu
    · exact h
  | unlock =>
    simp only [ImplicitMr.step]
    split
    · rename_i u hu
      exact h.unlock hu (hok u hu).1 (hok u hu).2
    · exact h
  | invalidate mr empties => exact h.invalidate hm
  | work w => exact h.work_step hok

end

theorem inv_init : Inv Imr.init where
  slot := fun _ _ h => nomatch h
  creator := fun _ h => absurd h (Nat.not_lt_zero _)
  started := fun _ h => absurd rfl (h _)
  held := fun _ _ h => absurd rfl h
  fresh := fun _ _ h => nomatch h
  stored := fun _ _ h => nomatch h
  work := fun _ h => absurd h (Nat.not_lt_zero _)
  once := fun _ h => absurd h (Nat.not_lt_zero _)
  idle := fun _ h => absurd h (Nat.not_lt_zero _)
  childRefs := fun _ h => absurd h (Nat.not_lt_zero _)
  parentRefs := rfl
  named := fun _ _ h => h.elim nofun fun ⟨_, hu, _⟩ => nomatch hu
  lock := fun _ h => nomatch h
  updating := fun _ _ h => nomatch h
  updateWork := fun _ h => absurd h (Nat.not_lt_zero _)
  pending := fun _ _ h => nomatch h
  faults := fun _ => ⟨.inr ⟨rfl, Nat.two_pow_pos 64⟩, fun _ _ h₂ => absurd h₂ (Nat.not_lt_zero _),
    fun h => absurd rfl h, fun _ _ => rfl⟩

theorem Inv.sound (h : Inv s) : Sound s := { h with
  ksm i c hk := by
    obtain ⟨hc, hi, hd, -⟩ := h.named i c (.inl hk)
    exact ⟨hc, hi, hd⟩
  named i c ret hs hp := by
    have hupd : ¬ ∃ u, s.umemMutex = some u ∧ u.owner = .fault (s.child c).creator := by
      rintro ⟨u, hu, ho⟩
      have := (h.lock u hu).2.2
      rw [ho] at this
      obtain ⟨ret', hp'⟩ := this
      cases hp.symm.trans hp'
    rcases h.pending i c hs with hpend | ⟨-, hk⟩
    · rcases hpend with ⟨mr, hst, -⟩ | ⟨-, hact | ⟨u, hu, ho, -⟩⟩
      · cases hp.symm.trans hst
      · rw [hp] at hact
        exact hact.elim
      · exact absurd ⟨u, hu, ho⟩ hupd
    · exact hk.resolve_right hupd
  held t c hr := (h.held t c hr).2.1
  works := h.once
  covered t n hp x h₁ h₂ := by
    have htot := (h.faults t).total.resolve_left (hp ▸ nofun)
    have hb := (h.faults t).finished n (.inr (.inr hp))
    obtain ⟨p, hpm, ha, hb, -, hi⟩ := (h.faults t).pieces x h₁ (by omega)
    exact ⟨p, hpm, ha, hb, hi⟩ }

end Steps

/-- A region of 4 GiB on a device without `mem_page_fault`. -/
def demoDev : Dev := ⟨false, 4, by decide⟩

/-- A fault creates a child and names it; an invalidation empties the child, and it is freed. -/
def demoOps : List Op :=
  [.fault 0x1000 0x1000, .loop 0, .create 0 none, .publish 0 none, .real 0 (.ok 1) true, .deref 0,
    .loop 0, .out 0, .read, .read, .read, .read, .post, .unlock, .invalidate 0 true, .work 0, .work 0]

instance ok.decidable (s : Imr) : ∀ op, Decidable (ok s op)
  | .fault .. => instDecidableAnd
  | .out .. => @instDecidableOr _ _ _ (decidable_of_iff _ Option.isNone_iff_eq_none)
  | .read => inferInstanceAs (Decidable (∀ u ∈ s.umemMutex, u.next < u.stop))
  | .unlock => inferInstanceAs (Decidable (∀ u ∈ s.umemMutex, u.lo = u.stop ∧ u.next = u.stop))
  | .invalidate .. => instDecidableAnd
  | .work .. => @instDecidableAnd _ _ _ (@instDecidableForall _ _ _
      (@instDecidableAnd _ _ _ (decidable_of_iff _ Option.isNone_iff_eq_none)))
  | .loop _ | .create .. | .publish .. | .store .. | .real .. | .deref _ | .post => instDecidableTrue

/-- A second fault still uses the child when the first invalidation empties it, maps pages of it again,
    and a second invalidation empties it once more. -/
def twiceOps : List Op :=
  [.fault 0x1000 0x1000, .loop 0, .create 0 none, .publish 0 none, .real 0 (.ok 1) true, .deref 0,
    .fault 0x1000 0x1000, .loop 1, .invalidate 0 true, .real 1 (.ok 1) true, .invalidate 0 true]

end RdmaDriver.ImplicitMr
