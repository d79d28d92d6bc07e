import Mathlib.Data.Nat.Notation
import Mathlib.Tactic.Common
import RdmaDriver.Schemes.Run

/-! @src drivers/vfio/pci/mlx5/main.c | name:VF migration state | scheme:run |
    family:state-machine

    `mlx5vf_pci_set_device_state` walks the path of arcs that `vfio_mig_get_next_state` computes,
    one `mlx5vf_pci_step_device_state_locked` a turn, under the state mutex. An AER reset that finds
    the mutex taken only sets `deferred_reset`; whoever holds the mutex looks at the flag when it
    lets go:

        lock - loop - arc - loop - arc - … - unlock? - deferred: RUNNING, files off - unlock? - free
                       ╰ suspend - save_inc_data            ╰------------- again --------╯
                       ╰ query - save - disable_fds

    Each command, each look at the flag and each reset is a step of its own, and the environment
    says which commands succeed. -/

namespace RdmaDriver.DeviceState
open RdmaDriver.Schemes

/-- `enum vfio_device_mig_state`. -/
inductive MigState where
  | error | stop | running | stopCopy | resuming | runningP2p | preCopy | preCopyP2p
  deriving DecidableEq

/-- `enum mlx5_vf_migf_state`, with the zero a new file starts from. -/
inductive MigfState where
  | none | error | preCopyError | preCopy | saveStopCopyChunk | complete
  deriving DecidableEq

/-- A `struct mlx5_vf_migration_file`: which file it is, and its state. -/
structure Migf where
  filp : ℕ
  state : MigfState
  deriving DecidableEq

/-- The migration part of `struct mlx5vf_pci_core_device`. Beside the driver's fields stand the two
    directions the device is suspended in, how many migration files were ever opened and which of
    them `mlx5vf_disable_fd` has shut. -/
structure Mvdev where
  migState : MigState
  savingMigf : Option Migf
  resumingMigf : Option Migf
  deferredReset : Bool
  initiator : Bool
  responder : Bool
  opened : ℕ
  disabled : List ℕ
  oops : Bool
  deriving DecidableEq

/-- `mlx5vf_disable_fds`: both files are shut, cleaned and dropped. -/
def mlx5vfDisableFds (d : Mvdev) : Mvdev :=
  { d with
    savingMigf := none
    resumingMigf := none
    disabled := (d.resumingMigf.toList ++ d.savingMigf.toList).map Migf.filp ++ d.disabled }

/-- The file that `mlx5vf_pci_save_device_data` hands back, kept as `saving_migf`. -/
def openSaving (d : Mvdev) : Mvdev :=
  { d with savingMigf := some ⟨d.opened, .none⟩, opened := d.opened + 1 }

/-- The file that `mlx5vf_pci_resume_device_data` hands back, kept as `resuming_migf`. -/
def openResuming (d : Mvdev) : Mvdev :=
  { d with resumingMigf := some ⟨d.opened, .none⟩, opened := d.opened + 1 }

/-- The saving file's `state` is written. -/
def setSaving (st : MigfState) (d : Mvdev) : Mvdev :=
  { d with savingMigf := d.savingMigf.map fun m => { m with state := st } }

/-- What an arc comes to: it is done, with or without a file, it failed, or more commands follow. -/
inductive Arc where
  | done (d : Mvdev) (filp : Option ℕ)
  | fail (d : Mvdev)
  | incData (d : Mvdev)
  | cleanup (d : Mvdev)

/-- `mlx5vf_pci_step_device_state_locked` up to its first command or allocation, which succeeds if
    `ok`. -/
def mlx5vfPciStepDeviceStateLocked (d : Mvdev) (new : MigState) (ok : Bool) : Arc :=
  match d.migState, new with
  | .runningP2p, .stop => if ok then .done { d with responder := true } none else .fail d
  | .stop, .runningP2p => if ok then .done { d with responder := false } none else .fail d
  | .running, .runningP2p | .preCopy, .preCopyP2p =>
    if ok then .done { d with initiator := true } none else .fail d
  | .runningP2p, .running | .preCopyP2p, .preCopy =>
    if ok then .done { d with initiator := false } none else .fail d
  | .stop, .stopCopy => if ok then .done (openSaving d) (some d.opened) else .fail d
  | .stopCopy, .stop => .done (mlx5vfDisableFds d) none
  | .preCopy, .running | .preCopyP2p, .runningP2p => if ok then .cleanup d else .fail d
  | .stop, .resuming => if ok then .done (openResuming d) (some d.opened) else .fail d
  | .resuming, .stop => .done (mlx5vfDisableFds d) none
  | .running, .preCopy | .runningP2p, .preCopyP2p =>
    if ok then .done (openSaving d) (some d.opened) else .fail d
  | .preCopyP2p, .stopCopy => if ok then .incData { d with responder := true } else .fail d
  -- vfio_mig_get_next_state() does not use arcs other than the above
  | _, _ => .fail d

/-- `mlx5vf_pci_save_device_inc_data`; `ok`: its query, buffer and save command all succeed. -/
def mlx5vfPciSaveDeviceIncData (d : Mvdev) (ok : Bool) : Arc :=
  match d.savingMigf with
  | none => .fail { d with oops := true }
  | some m =>
    if m.state = .error then .fail d
    else if ok then .done d none
    else .fail (setSaving .error d)

/-- What a call hands back: NULL, a file, an error. -/
inductive Res where
  | null
  | file (filp : ℕ)
  | err
  deriving DecidableEq

/-- Where the holder of the state mutex stands. -/
inductive Phase where
  /-- at the test of the `while` -/
  | loop
  /-- the responder is suspended, `mlx5vf_pci_save_device_inc_data` is next -/
  | incData (next : MigState)
  /-- the query of a pre-copy cleanup succeeded, buffer and save command are next -/
  | cleanup (next : MigState)
  /-- the cleanup's save was issued, `mlx5vf_disable_fds` is next -/
  | cleaned (next : MigState)
  /-- in `mlx5vf_state_mutex_unlock`, at `again` -/
  | unlock
  /-- `deferred_reset` was cleared, the state is not yet set -/
  | unlocking
  deriving DecidableEq

/-- A holder of the state mutex: the state it was called for (none: it does not change the state),
    the state after its last completed arc, what it will return, and whether it saw a reset. -/
structure Holder where
  newState : Option MigState
  last : MigState
  res : Res
  reset : Bool
  phase : Phase
  deriving DecidableEq

/-- A released mutex: who held it, and the device at that moment. -/
structure Ret where
  held : Holder
  after : Mvdev
  deriving DecidableEq

/-- The device, the holder of its mutex, and every release so far. -/
structure Sys where
  dev : Mvdev
  holder : Option Holder
  log : List Ret
  deriving DecidableEq

/-- A device in RUNNING, as `mlx5vf_pci_open_device` leaves it. -/
def Sys.start : Sys :=
  ⟨⟨.running, none, none, false, false, false, 0, [], false⟩, none, []⟩

/-- The steps. -/
inductive Ev where
  /-- `mlx5vf_pci_set_device_state` gets the mutex -/
  | setDeviceState (new : MigState)
  /-- some other function of the driver gets the mutex -/
  | lock
  /-- the body of the `while`; `ok`: the arc's first command succeeds -/
  | loop (ok : Bool)
  /-- `mlx5vf_pci_save_device_inc_data` -/
  | incData (ok : Bool)
  /-- buffer and save command of a pre-copy cleanup -/
  | cleanup (ok : Bool)
  /-- `mlx5vf_disable_fds` of a pre-copy cleanup, once the save has completed -/
  | disable
  /-- a save callback, its work, an ioctl or a close of the file writes the file's state -/
  | migf (st : MigfState)
  /-- the next piece of `mlx5vf_state_mutex_unlock` -/
  | unlock
  /-- the device is reset, `mlx5vf_pci_aer_reset_done` runs -/
  | reset
  deriving DecidableEq

section
variable (nextState : MigState → MigState → Option MigState)

/-- The arc to `next` came to `a`. -/
def afterArc (s : Sys) (h : Holder) (next : MigState) : Arc → Sys
  | .fail d => { s with dev := d, holder := some { h with res := .err, phase := .unlock } }
  | .incData d => { s with dev := d, holder := some { h with phase := .incData next } }
  | .cleanup d => { s with dev := d, holder := some { h with phase := .cleanup next } }
  | .done d filp =>
    let d := { d with migState := next }
    match filp with
    | none =>
      { s with dev := d, holder := some { h with last := next, res := .null, phase := .loop } }
    | some f =>
      -- WARN_ON(res && new_state != mvdev->mig_state)
      if h.newState = some next then
        { s with dev := d, holder := some { h with last := next, res := .file f, phase := .loop } }
      else
        { s with dev := d, holder := some { h with last := next, res := .err, phase := .unlock } }

/-- One turn of the `while` in `mlx5vf_pci_set_device_state`. -/
def loopStep (s : Sys) (h : Holder) (ok : Bool) : Sys :=
  match h.newState with
  | none => { s with holder := some { h with phase := .unlock } }
  | some new =>
    if new = s.dev.migState then { s with holder := some { h with phase := .unlock } }
    else
      match nextState s.dev.migState new with
      | none => { s with holder := some { h with res := .err, phase := .unlock } }
      | some next => afterArc s h next (mlx5vfPciStepDeviceStateLocked s.dev next ok)

/-- The buffer and the save command of a pre-copy cleanup. -/
def cleanupStep (s : Sys) (h : Holder) (next : MigState) (ok : Bool) : Sys :=
  match s.dev.savingMigf with
  | none => afterArc s h next (.fail { s.dev with oops := true })
  | some _ =>
    if ok then { s with holder := some { h with phase := .cleaned next } }
    else afterArc s h next (.fail s.dev)

/-- The end of a pre-copy cleanup: `-EIO` if the file was in error when it was disabled. -/
def disableStep (s : Sys) (h : Holder) (next : MigState) : Sys :=
  match s.dev.savingMigf with
  | none => afterArc s h next (.fail { mlx5vfDisableFds s.dev with oops := true })
  | some m =>
    if m.state = .error then afterArc s h next (.fail (mlx5vfDisableFds s.dev))
    else afterArc s h next (.done (mlx5vfDisableFds s.dev) none)

/-- The two pieces of `mlx5vf_state_mutex_unlock`: the look at the flag, which also lets go of the
    mutex when it is clear, and the handling of a deferred reset. -/
def mlx5vfStateMutexUnlock (s : Sys) (h : Holder) : Sys :=
  match h.phase with
  | .unlock =>
    if s.dev.deferredReset then
      { s with
        dev := { s.dev with deferredReset := false }
        holder := some { h with phase := .unlocking } }
    else { s with holder := none, log := ⟨h, s.dev⟩ :: s.log }
  | .unlocking =>
    { s with
      dev := mlx5vfDisableFds { s.dev with migState := .running }
      holder := some { h with reset := true, phase := .unlock } }
  | _ => s

/-- The device comes out of a reset with nothing suspended; `mlx5vf_pci_aer_reset_done` sets the
    flag and, if the mutex is free, goes through the unlock itself. -/
def mlx5vfPciAerResetDone (s : Sys) : Sys :=
  { s with
    dev := { s.dev with deferredReset := true, initiator := false, responder := false }
    holder := match s.holder with
      | none => some ⟨none, s.dev.migState, .null, false, .unlock⟩
      | some h => some h }

/-- A step; one that is not possible where the holder stands does nothing. -/
def step (s : Sys) : Ev → Sys
  | .setDeviceState new =>
    match s.holder with
    | none => { s with holder := some ⟨some new, s.dev.migState, .null, false, .loop⟩ }
    | some _ => s
  | .lock =>
    match s.holder with
    | none => { s with holder := some ⟨none, s.dev.migState, .null, false, .unlock⟩ }
    | some _ => s
  | .loop ok =>
    match s.holder with
    | some h => if h.phase = .loop then loopStep nextState s h ok else s
    | none => s
  | .incData ok =>
    match s.holder with
    | some h =>
      match h.phase with
      | .incData next => afterArc s h next (mlx5vfPciSaveDeviceIncData s.dev ok)
      | _ => s
    | none => s
  | .cleanup ok =>
    match s.holder with
    | some h =>
      match h.phase with
      | .cleanup next => cleanupStep s h next ok
      | _ => s
    | none => s
  | .disable =>
    match s.holder with
    | some h =>
      match h.phase with
      | .cleaned next => disableStep s h next
      | _ => s
    | none => s
  | .migf st => { s with dev := setSaving st s.dev }
  | .unlock =>
    match s.holder with
    | some h => mlx5vfStateMutexUnlock s h
    | none => s
  | .reset => mlx5vfPciAerResetDone s

end

/-- The directions a state prescribes to be suspended: initiator, responder. -/
def prescribed : MigState → Bool × Bool
  | .running | .preCopy => (false, false)
  | .runningP2p | .preCopyP2p => (true, false)
  | .stop | .stopCopy | .resuming | .error => (true, true)

/-- The directions the device is suspended in. -/
def Mvdev.suspended (d : Mvdev) : Bool × Bool := (d.initiator, d.responder)

/-- Each file is there exactly in its states. -/
structure Files (d : Mvdev) : Prop where
  saving : d.savingMigf.isSome ↔ d.migState ∈ [.preCopy, .preCopyP2p, .stopCopy]
  resuming : d.resumingMigf.isSome ↔ d.migState = .resuming

/-- Every file that was opened is shut, but for the two the driver holds. -/
def Shut (d : Mvdev) : Prop :=
  ∀ f < d.opened, f ∈ d.disabled ∨ f ∈ d.savingMigf.map Migf.filp ∨ f ∈ d.resumingMigf.map Migf.filp

/-- The driver's and the device's idea of the state agree. -/
structure Settled (d : Mvdev) : Prop where
  files : Files d
  shut : Shut d
  suspended : d.suspended = prescribed d.migState

/-- What a release of the mutex must come to. -/
structure Ret.Good (r : Ret) : Prop where
  settled : Settled r.after
  /-- a reset that was seen brought RUNNING, with both files off -/
  reset : r.held.reset = true →
    r.after.migState = .running ∧ r.after.savingMigf = none ∧ r.after.resumingMigf = none
  /-- otherwise the state is that of the last arc that completed -/
  last : r.held.reset = false → r.after.migState = r.held.last
  /-- a call that did not fail completed its path -/
  succeeded : ∀ new ∈ r.held.newState, r.held.res ≠ .err → r.held.last = new
  /-- a file is returned for the arc that ends the path, and it is that arc's file -/
  fd : ∀ f, r.held.res = .file f → r.held.newState = some r.held.last ∧ f + 1 = r.after.opened ∧
    (r.held.reset = false → f ∈ r.after.savingMigf.map Migf.filp ∨
      f ∈ r.after.resumingMigf.map Migf.filp)

/-- The arcs that suspend a direction. -/
def isSuspend : MigState → MigState → Bool
  | .runningP2p, .stop | .running, .runningP2p | .preCopy, .preCopyP2p | .preCopyP2p, .stopCopy =>
    true
  | _, _ => false

/-- The arc that the holder, at the test of the `while`, is about to take. -/
def nextArc (nextState : MigState → MigState → Option MigState) (s : Sys) : Option MigState := do
  let h ← s.holder
  let new ← h.newState
  if h.phase = .loop ∧ new ≠ s.dev.migState then nextState s.dev.migState new else none

/-- The condition on a step: no suspend succeeds on a device whose reset is still to be handled; and
    unless a reset is to be handled, `mlx5vf_pci_save_device_inc_data` does not fail once the
    responder is suspended, and a pre-copy cleanup does not find the file in error. -/
def Meets (nextState : MigState → MigState → Option MigState) (s : Sys) : Ev → Prop
  | .loop ok => (nextArc nextState s).any (isSuspend s.dev.migState) = true → ok = true →
    s.dev.deferredReset = false
  | .incData ok => s.holder.map Holder.phase = some (.incData .stopCopy) →
    s.dev.deferredReset = true ∨ ok = true ∧ s.dev.savingMigf.map Migf.state ≠ some .error
  | .disable =>
    s.holder.map Holder.phase ∈ [some (.cleaned .running), some (.cleaned .runningP2p)] →
    s.dev.deferredReset = true ∨ s.dev.savingMigf.map Migf.state ≠ some .error
  | _ => True

instance (nextState) (s : Sys) : ∀ e, Decidable (Meets nextState s e)
  | .loop _ | .incData _ | .disable => by unfold Meets; infer_instance
  | .setDeviceState _ | .lock | .cleanup _ | .migf _ | .unlock | .reset => instDecidableTrue

/-- What is suspended while arcs are walked: nothing once the device was reset. -/
def Dirs (d : Mvdev) (given : Bool × Bool) : Prop :=
  d.suspended = if d.deferredReset then (false, false) else given

/-- What holds of the mutex's holder, by where it stands. -/
def Holder.At (d : Mvdev) (h : Holder) : Prop :=
  match h.phase with
  | .loop => Files d ∧ Dirs d (prescribed d.migState) ∧ h.reset = false
  | .incData next => Files d ∧ Dirs d (true, true) ∧ h.reset = false ∧
    d.migState = .preCopyP2p ∧ next = .stopCopy
  | .cleanup next | .cleaned next => Files d ∧ Dirs d (prescribed d.migState) ∧ h.reset = false ∧
    (d.migState = .preCopy ∧ next = .running ∨ d.migState = .preCopyP2p ∧ next = .runningP2p)
  | .unlock => (d.deferredReset = false → Files d) ∧ Dirs d (prescribed d.migState) ∧
    ∀ new ∈ h.newState, h.res ≠ .err → h.last = new
  | .unlocking => d.suspended = (false, false) ∧ ∀ new ∈ h.newState, h.res ≠ .err → h.last = new

/-- What holds of the mutex's holder wherever it stands. -/
structure Held (d : Mvdev) (h : Holder) : Prop where
  place : h.At d
  reset : h.reset = true → d.migState = .running ∧ d.savingMigf = none ∧ d.resumingMigf = none
  last : h.reset = false → d.migState = h.last
  fd : ∀ f, h.res = .file f → h.newState = some h.last ∧ f + 1 = d.opened ∧
    (h.reset = false → f ∈ d.savingMigf.map Migf.filp ∨ f ∈ d.resumingMigf.map Migf.filp)

/-- The invariant. -/
structure Inv (s : Sys) : Prop where
  oops : s.dev.oops = false
  shut : Shut s.dev
  free : s.holder = none → s.dev.deferredReset = false ∧ Settled s.dev
  held : ∀ h, s.holder = some h → Held s.dev h
  log : ∀ r ∈ s.log, r.Good

variable {nextState : MigState → MigState → Option MigState} {s : Sys} {d d' : Mvdev} {h : Holder}
  {next : MigState}

theorem Files.disable (hm : d.migState ∉ [.preCopy, .preCopyP2p, .stopCopy, .resuming]) :
    Files (mlx5vfDisableFds d) := by
  simp only [List.mem_cons, not_or] at hm
  exact ⟨by simp [mlx5vfDisableFds, hm], by simp [mlx5vfDisableFds, hm]⟩

/-- Disabling shuts the two files the driver lets go of. -/
theorem Shut.disable (hs : Shut d) : Shut (mlx5vfDisableFds d) := by
  intro f hf
  left
  rcases hs f hf with hd | hd | hd
  · simp [mlx5vfDisableFds, hd]
  · obtain ⟨m, hm, rfl⟩ := Option.map_eq_some_iff.1 hd
    simp [mlx5vfDisableFds, hm]
  · obtain ⟨m, hm, rfl⟩ := Option.map_eq_some_iff.1 hd
    simp [mlx5vfDisableFds, hm]

/-- No file is lost when a saving file is opened where there was none. -/
theorem Shut.openSaving (hs : Shut d) (hn : d.savingMigf = none) : Shut (openSaving d) := by
  intro f hf
  have hf' : f < d.opened + 1 := hf
  rcases Nat.lt_succ_iff_lt_or_eq.1 hf' with hf' | rfl
  · have := hs f hf'
    simp only [hn, Option.map_none, Option.not_mem_none, false_or] at this
    exact this.imp id .inr
  · exact .inr (.inl (by simp [DeviceState.openSaving]))

theorem Shut.openResuming (hs : Shut d) (hn : d.resumingMigf = none) : Shut (openResuming d) := by
  intro f hf
  have hf' : f < d.opened + 1 := hf
  rcases Nat.lt_succ_iff_lt_or_eq.1 hf' with hf' | rfl
  · have := hs f hf'
    simp only [hn, Option.map_none, Option.not_mem_none, or_false] at this
    exact this.imp id .inl
  · exact .inr (.inr (by simp [DeviceState.openResuming]))

@[simp] theorem setSaving_filp (st : MigfState) (d : Mvdev) :
    (setSaving st d).savingMigf.map Migf.filp = d.savingMigf.map Migf.filp := by
  simp [setSaving, Function.comp_def]

theorem Files.setSaving (st : MigfState) (hf : Files d) : Files (setSaving st d) :=
  ⟨by simpa [DeviceState.setSaving] using hf.saving, hf.resuming⟩

theorem Shut.setSaving (st : MigfState) (hs : Shut d) : Shut (setSaving st d) := by
  intro f hf
  have := hs f hf
  rwa [← setSaving_filp st d] at this

/-- What an arc to `next` may come to. -/
def Arc.Ok (d : Mvdev) (next : MigState) : Arc → Prop
  | .done d' filp => Files { d' with migState := next } ∧ Dirs d' (prescribed next) ∧ Shut d' ∧
    d'.oops = false ∧ ∀ f ∈ filp, f + 1 = d'.opened ∧
      (f ∈ d'.savingMigf.map Migf.filp ∨ f ∈ d'.resumingMigf.map Migf.filp)
  | .fail d' => d'.migState = d.migState ∧ (d'.deferredReset = false → Files d') ∧
    Dirs d' (prescribed d'.migState) ∧ Shut d' ∧ d'.oops = false
  | .incData d' => d' = { d with responder := true } ∧ Dirs d' (true, true) ∧
    d.migState = .preCopyP2p ∧ next = .stopCopy
  | .cleanup d' => d' = d ∧ Dirs d (prescribed d.migState) ∧
    (d.migState = .preCopy ∧ next = .running ∨ d.migState = .preCopyP2p ∧ next = .runningP2p)

theorem Arc.ok_fail (hf : Files d) (hd : Dirs d (prescribed d.migState)) (hs : Shut d)
    (ho : d.oops = false) : (Arc.fail d).Ok d next :=
  ⟨rfl, fun _ => hf, hd, hs, ho⟩

theorem not_held (hf : Files d) (hm : d.migState ∉ [.preCopy, .preCopyP2p, .stopCopy]) :
    d.savingMigf = none := by
  have : ¬ d.savingMigf.isSome := fun h => hm (hf.saving.1 h)
  simpa using this

theorem not_resuming (hf : Files d) (hm : d.migState ≠ .resuming) : d.resumingMigf = none := by
  have : ¬ d.resumingMigf.isSome := fun h => hm (hf.resuming.1 h)
  simpa using this

/-- An arc that only suspends or resumes, between two states that hold the same files. -/
theorem Arc.ok_direct (i r : Bool) (hf : Files d) (hs : Shut d) (ho : d.oops = false)
    (hsave : d.migState ∈ [.preCopy, .preCopyP2p, .stopCopy] ↔
      next ∈ [.preCopy, .preCopyP2p, .stopCopy])
    (hres : d.migState = .resuming ↔ next = .resuming)
    (hd : (i, r) = if d.deferredReset then (false, false) else prescribed next) :
    (Arc.done { d with initiator := i, responder := r } none).Ok d next :=
  ⟨⟨hf.saving.trans hsave, hf.resuming.trans hres⟩, hd, hs, ho, nofun⟩

theorem Arc.ok_save (hf : Files d) (hd : Dirs d (prescribed next)) (hs : Shut d)
    (ho : d.oops = false) (hm : d.migState ∉ [.preCopy, .preCopyP2p, .stopCopy, .resuming])
    (hn : next ∈ [.preCopy, .preCopyP2p, .stopCopy]) :
    (Arc.done (openSaving d) (some d.opened)).Ok d next := by
  have hs' := not_held hf fun h => hm (by simp only [List.mem_cons] at h ⊢; tauto)
  have hr' := not_resuming hf fun h => hm (by simp [h])
  have hn' : next ≠ .resuming := by rintro rfl; simp at hn
  refine ⟨⟨?_, ?_⟩, hd, hs.openSaving hs', ho, ?_⟩
  · simpa [openSaving] using hn
  · simpa [openSaving, hr'] using hn'
  · rintro f ⟨⟩
    exact ⟨rfl, .inl rfl⟩

theorem Arc.ok_resume (hf : Files d) (hd : Dirs d (prescribed .resuming)) (hs : Shut d)
    (ho : d.oops = false) (hm : d.migState ∉ [.preCopy, .preCopyP2p, .stopCopy, .resuming]) :
    (Arc.done (openResuming d) (some d.opened)).Ok d .resuming := by
  have hs' := not_held hf fun h => hm (by simp only [List.mem_cons] at h ⊢; tauto)
  have hr' := not_resuming hf fun h => hm (by simp [h])
  refine ⟨⟨?_, ?_⟩, hd, hs.openResuming hr', ho, ?_⟩
  · simp [openResuming, hs']
  · simp [openResuming]
  · rintro f ⟨⟩
    exact ⟨rfl, .inr rfl⟩

theorem Arc.ok_disable (hd : Dirs d (prescribed next)) (hs : Shut d)
    (ho : d.oops = false) (hn : next ∉ [.preCopy, .preCopyP2p, .stopCopy, .resuming]) :
    (Arc.done (mlx5vfDisableFds d) none).Ok d next := by
  simp only [List.mem_cons, not_or] at hn
  refine ⟨⟨?_, ?_⟩, hd, hs.disable, ho, nofun⟩
  · simp [mlx5vfDisableFds, hn]
  · simp [mlx5vfDisableFds, hn]

/-- STEP: an arc suspends, opens or shuts what its target prescribes, if no suspend succeeds while a
    reset is pending. -/
theorem stepDeviceStateLocked_ok (ok : Bool) (hf : Files d) (hd : Dirs d (prescribed d.migState))
    (hs : Shut d) (ho : d.oops = false)
    (hr : isSuspend d.migState next = true → ok = true → d.deferredReset = false) :
    (mlx5vfPciStepDeviceStateLocked d next ok).Ok d next := by
  have hfail : (Arc.fail d).Ok d next := Arc.ok_fail hf hd hs ho
  have hi : d.initiator = (if d.deferredReset then (false, false) else prescribed d.migState).1 :=
    congrArg Prod.fst hd
  have hp : d.responder = (if d.deferredReset then (false, false) else prescribed d.migState).2 :=
    congrArg Prod.snd hd
  have hgo : ∀ {a : Arc}, (ok = true → a.Ok d next) → (if ok then a else .fail d).Ok d next := by
    intro a ha
    cases ok with
    | false => exact hfail
    | true => exact ha rfl
  unfold mlx5vfPciStepDeviceStateLocked
  split <;> rename_i hm <;> simp only [hm, isSuspend, forall_const] at hr hi hp
  -- suspend the responder, resume it
  · refine hgo fun hok => Arc.ok_direct _ _ hf hs ho (by simp [hm]) (by simp [hm]) ?_
    simp [hi, hr hok, prescribed]
  · refine hgo fun hok => Arc.ok_direct _ _ hf hs ho (by simp [hm]) (by simp [hm]) ?_
    cases h : d.deferredReset <;> simp [hi, h, prescribed]
  -- suspend the initiator, resume it
  · refine hgo fun hok => Arc.ok_direct _ _ hf hs ho (by simp [hm]) (by simp [hm]) ?_
    simp [hp, hr hok, prescribed]
  · refine hgo fun hok => Arc.ok_direct _ _ hf hs ho (by simp [hm]) (by simp [hm]) ?_
    simp [hp, hr hok, prescribed]
  · refine hgo fun hok => Arc.ok_direct _ _ hf hs ho (by simp [hm]) (by simp [hm]) ?_
    cases h : d.deferredReset <;> simp [hp, h, prescribed]
  · refine hgo fun hok => Arc.ok_direct _ _ hf hs ho (by simp [hm]) (by simp [hm]) ?_
    cases h : d.deferredReset <;> simp [hp, h, prescribed]
  -- open, shut or clean up a file: both states prescribe the same directions
  · exact hgo fun _ => Arc.ok_save hf (by simpa [hm, prescribed] using hd) hs ho (by simp [hm])
      (by simp)
  · exact Arc.ok_disable (by simpa [hm, prescribed] using hd) hs ho (by simp)
  · exact hgo fun _ => ⟨rfl, hd, .inl ⟨hm, rfl⟩⟩
  · exact hgo fun _ => ⟨rfl, hd, .inr ⟨hm, rfl⟩⟩
  · exact hgo fun _ => Arc.ok_resume hf (by simpa [hm, prescribed] using hd) hs ho (by simp [hm])
  · exact Arc.ok_disable (by simpa [hm, prescribed] using hd) hs ho (by simp)
  · exact hgo fun _ => Arc.ok_save hf (by simpa [hm, prescribed] using hd) hs ho (by simp [hm])
      (by simp)
  · exact hgo fun _ => Arc.ok_save hf (by simpa [hm, prescribed] using hd) hs ho (by simp [hm])
      (by simp)
  -- the responder is suspended ahead of the final save
  · refine hgo fun hok => ⟨rfl, ?_, hm, rfl⟩
    simp [Dirs, Mvdev.suspended, hi, hr hok, prescribed]
  · exact hfail

/-- The invariant of a system whose mutex is held. -/
theorem Inv.of_held (ho : d.oops = false) (hs : Shut d) (hh : Held d h)
    (hl : ∀ r ∈ s.log, r.Good) : Inv ⟨d, some h, s.log⟩ :=
  ⟨ho, hs, nofun, by rintro _ ⟨⟩; exact hh, hl⟩

/-- A `Shut` device stays so when only its state changes. -/
theorem Shut.setState (hs : Shut d) : Shut { d with migState := next } := hs

section
variable (hi : Inv s) (hh : s.holder = some h)
include hi hh

/-- STEP: what an arc may come to keeps the invariant. -/
theorem Inv.afterArc (hr : h.reset = false) {a : Arc} (ha : a.Ok s.dev next) (hf : Files s.dev) :
    Inv (afterArc s h next a) := by
  have hheld := hi.held h hh
  cases a with
  | fail d =>
    obtain ⟨hm, hf, hd, hs, ho⟩ := ha
    exact .of_held ho hs ⟨⟨hf, hd, fun _ _ h => absurd rfl h⟩, by simp [hr],
      fun _ => hm.trans (hheld.last hr), nofun⟩ hi.log
  | incData d =>
    obtain ⟨rfl, hd, hm, rfl⟩ := ha
    exact .of_held hi.oops hi.shut ⟨⟨⟨hf.saving, hf.resuming⟩, hd, hr, hm, rfl⟩, by simp [hr],
      hheld.last, hheld.fd⟩ hi.log
  | cleanup d =>
    obtain ⟨rfl, hd, hm⟩ := ha
    exact .of_held hi.oops hi.shut ⟨⟨hf, hd, hr, hm⟩, by simp [hr], hheld.last, hheld.fd⟩ hi.log
  | done d filp =>
    obtain ⟨hf, hd, hs, ho, hfd⟩ := ha
    cases filp with
    | none =>
      exact .of_held ho hs.setState ⟨⟨hf, hd, hr⟩, by simp [hr], fun _ => rfl, nofun⟩ hi.log
    | some f =>
      simp only [DeviceState.afterArc]
      split
      · next hnew =>
        refine .of_held ho hs.setState ⟨⟨hf, hd, hr⟩, by simp [hr], fun _ => rfl, ?_⟩ hi.log
        rintro _ ⟨⟩
        exact ⟨hnew, (hfd f rfl).1, fun _ => (hfd f rfl).2⟩
      · exact .of_held ho hs.setState ⟨⟨fun _ => hf, hd, fun _ _ h => absurd rfl h⟩, by simp [hr],
          fun _ => rfl, nofun⟩ hi.log

/-- STEP: a turn of the `while`. -/
theorem Inv.loop (hp : h.phase = .loop) (ok : Bool)
    (hm : Meets nextState s (.loop ok)) : Inv (loopStep nextState s h ok) := by
  have hheld := hi.held h hh
  obtain ⟨hf, hd, hr⟩ : Files s.dev ∧ Dirs s.dev (prescribed s.dev.migState) ∧ h.reset = false := by
    simpa [Holder.At, hp] using hheld.place
  -- leaving the loop with `res`, which is an error or follows the last arc of the path
  have hout : ∀ res, (res = .err ∨ res = h.res ∧ ∀ new ∈ h.newState, new = s.dev.migState) →
      Inv { s with holder := some { h with res := res, phase := .unlock } } := by
    intro res hres
    refine .of_held hi.oops hi.shut ⟨⟨fun _ => hf, hd, ?_⟩, by simp [hr], hheld.last, ?_⟩ hi.log
    · rintro new hnew hne
      obtain rfl | ⟨rfl, hnew'⟩ := hres
      · exact absurd rfl hne
      · exact (hheld.last hr).symm.trans (hnew' new hnew).symm
    · intro f hf
      obtain rfl | ⟨rfl, -⟩ := hres
      · exact absurd hf nofun
      · exact hheld.fd f hf
  unfold loopStep
  split
  · next hnew => exact hout h.res (.inr ⟨rfl, by simp [hnew]⟩)
  · next new hnew =>
    split
    · next he => exact hout h.res (.inr ⟨rfl, by simp [hnew, he]⟩)
    · next he =>
      split
      · exact hout .err (.inl rfl)
      · next n hnext =>
        refine hi.afterArc hh hr (stepDeviceStateLocked_ok ok hf hd hi.shut hi.oops ?_) hf
        intro hsus hok
        refine hm ?_ hok
        simp [nextArc, hh, hnew, hp, he, hnext, hsus]

/-- STEP: `mlx5vf_pci_save_device_inc_data`, which must not fail once the responder is suspended. -/
theorem Inv.incData (hp : h.phase = .incData next) (ok : Bool)
    (hm : Meets nextState s (.incData ok)) :
    Inv (DeviceState.afterArc s h next (mlx5vfPciSaveDeviceIncData s.dev ok)) := by
  obtain ⟨hf, hd, hr, hst, rfl⟩ : Files s.dev ∧ Dirs s.dev (true, true) ∧ h.reset = false ∧
      s.dev.migState = .preCopyP2p ∧ next = .stopCopy := by
    simpa [Holder.At, hp] using (hi.held h hh).place
  refine hi.afterArc hh hr ?_ hf
  obtain ⟨m, hsav⟩ := Option.isSome_iff_exists.1 (hf.saving.2 (by simp [hst]))
  have hgood := hm (by simp [hh, hp])
  simp only [hsav, Option.map_some, ne_eq, Option.some.injEq] at hgood
  -- a pending reset has cleared the directions, so failing is harmless then
  have hfail : s.dev.deferredReset = true → Dirs s.dev (prescribed s.dev.migState) := by
    intro hdef
    simpa [Dirs, hdef] using hd
  simp only [mlx5vfPciSaveDeviceIncData, hsav]
  split
  · next he =>
    exact ⟨rfl, fun _ => hf, hfail (hgood.resolve_right fun h => h.2 he), hi.shut, hi.oops⟩
  · split
    · refine ⟨⟨?_, ?_⟩, hd, hi.shut, hi.oops, nofun⟩
      · simp [hsav]
      · simpa [hst] using hf.resuming
    · next hok =>
      exact ⟨rfl, fun _ => hf.setSaving _, hfail (hgood.resolve_right fun h => hok h.1),
        hi.shut.setSaving _, hi.oops⟩

/-- STEP: the buffer and the save command of a pre-copy cleanup. -/
theorem Inv.cleanup (hp : h.phase = .cleanup next) (ok : Bool) : Inv (cleanupStep s h next ok) := by
  have hheld := hi.held h hh
  obtain ⟨hf, hd, hr, hst⟩ : Files s.dev ∧ Dirs s.dev (prescribed s.dev.migState) ∧
      h.reset = false ∧ (s.dev.migState = .preCopy ∧ next = .running ∨
        s.dev.migState = .preCopyP2p ∧ next = .runningP2p) := by
    simpa [Holder.At, hp] using hheld.place
  obtain ⟨m, hsav⟩ := Option.isSome_iff_exists.1
    (hf.saving.2 (by rcases hst with h | h <;> simp [h.1]))
  simp only [cleanupStep, hsav]
  split
  · exact .of_held hi.oops hi.shut ⟨⟨hf, hd, hr, hst⟩, by simp [hr], hheld.last, hheld.fd⟩ hi.log
  · exact hi.afterArc hh hr (Arc.ok_fail hf hd hi.shut hi.oops) hf

/-- STEP: the end of a pre-copy cleanup, which must not find the file in error. -/
theorem Inv.disable (hp : h.phase = .cleaned next)
    (hm : Meets nextState s .disable) : Inv (disableStep s h next) := by
  obtain ⟨hf, hd, hr, hst⟩ : Files s.dev ∧ Dirs s.dev (prescribed s.dev.migState) ∧
      h.reset = false ∧ (s.dev.migState = .preCopy ∧ next = .running ∨
        s.dev.migState = .preCopyP2p ∧ next = .runningP2p) := by
    simpa [Holder.At, hp] using (hi.held h hh).place
  obtain ⟨m, hsav⟩ := Option.isSome_iff_exists.1
    (hf.saving.2 (by rcases hst with h | h <;> simp [h.1]))
  have hgood := hm (by rcases hst with h | h <;> simp [hh, hp, h.2])
  simp only [hsav, Option.map_some, ne_eq, Option.some.injEq] at hgood
  have hsame : prescribed s.dev.migState = prescribed next := by
    rcases hst with h | h <;> rw [h.1, h.2] <;> rfl
  simp only [disableStep, hsav]
  split
  · next he =>
    have hdef := hgood.resolve_right fun h => h he
    exact hi.afterArc hh hr
      ⟨rfl, fun h => absurd (hdef.symm.trans h) nofun, hd, hi.shut.disable, hi.oops⟩ hf
  · exact hi.afterArc hh hr (Arc.ok_disable (hsame ▸ hd) hi.shut hi.oops
      (by rcases hst with h | h <;> simp [h.2])) hf

/-- STEP: a piece of `mlx5vf_state_mutex_unlock`. The mutex is let go of only with the flag clear,
    and a handled reset leaves RUNNING with both files shut. -/
theorem Inv.unlock : Inv (mlx5vfStateMutexUnlock s h) := by
  have hheld := hi.held h hh
  unfold mlx5vfStateMutexUnlock
  split
  · next hp =>
    obtain ⟨hf, hd, hend⟩ : (s.dev.deferredReset = false → Files s.dev) ∧
        Dirs s.dev (prescribed s.dev.migState) ∧
        ∀ new ∈ h.newState, h.res ≠ .err → h.last = new := by
      simpa [Holder.At, hp] using hheld.place
    split
    · next hdef =>
      refine .of_held hi.oops hi.shut { hheld with place := ⟨?_, hend⟩ } hi.log
      simpa [Dirs, hdef, Mvdev.suspended] using hd
    · next hdef =>
      have hdef : s.dev.deferredReset = false := by simpa using hdef
      have hset : Settled s.dev := ⟨hf hdef, hi.shut, by simpa [Dirs, hdef] using hd⟩
      refine ⟨hi.oops, hi.shut, fun _ => ⟨hdef, hset⟩, by simp, ?_⟩
      rintro r hr
      rcases List.mem_cons.1 hr with rfl | hr
      · exact ⟨hset, hheld.reset, hheld.last, hend, hheld.fd⟩
      · exact hi.log r hr
  · next hp =>
    obtain ⟨hd, hend⟩ : s.dev.suspended = (false, false) ∧
        ∀ new ∈ h.newState, h.res ≠ .err → h.last = new := by
      simpa [Holder.At, hp] using hheld.place
    refine .of_held hi.oops hi.shut.setState.disable
      ⟨⟨fun _ => .disable (by simp), ?_, hend⟩, fun _ => ⟨rfl, rfl, rfl⟩, by simp, ?_⟩ hi.log
    · change s.dev.suspended = _
      simp [hd, prescribed, mlx5vfDisableFds]
    · exact fun f hf => ⟨(hheld.fd f hf).1, (hheld.fd f hf).2.1, nofun⟩
  · exact hi

end

/-- What is suspended after a reset: nothing, with the flag set. -/
theorem Holder.At.reset (ha : h.At d) :
    h.At { d with deferredReset := true, initiator := false, responder := false } := by
  unfold Holder.At at ha ⊢
  split at ha
  · exact ⟨⟨ha.1.saving, ha.1.resuming⟩, rfl, ha.2.2⟩
  · exact ⟨⟨ha.1.saving, ha.1.resuming⟩, rfl, ha.2.2⟩
  · exact ⟨⟨ha.1.saving, ha.1.resuming⟩, rfl, ha.2.2⟩
  · exact ⟨⟨ha.1.saving, ha.1.resuming⟩, rfl, ha.2.2⟩
  · exact ⟨nofun, rfl, ha.2.2⟩
  · exact ⟨rfl, ha.2⟩

/-- STEP: an AER reset, with the mutex taken or free. -/
theorem Inv.reset (hi : Inv s) : Inv (mlx5vfPciAerResetDone s) := by
  refine ⟨hi.oops, hi.shut, ?_, ?_, hi.log⟩
  · cases hs : s.holder <;> simp [mlx5vfPciAerResetDone, hs]
  · intro h hh
    simp only [mlx5vfPciAerResetDone] at hh ⊢
    split at hh
    · cases hh
      exact ⟨⟨nofun, rfl, nofun⟩, nofun, fun _ => rfl, nofun⟩
    · next h' hs =>
      have hheld := hi.held h' hs
      cases hh
      exact { hheld with place := hheld.place.reset }

/-- STEP: writing the file's state changes nothing the state machine relies on. -/
theorem Inv.migf (hi : Inv s) (st : MigfState) : Inv { s with dev := setSaving st s.dev } := by
  have hfiles : ∀ {d}, Files d → Files (setSaving st d) := fun hf => hf.setSaving st
  refine ⟨hi.oops, hi.shut.setSaving st, ?_, ?_, hi.log⟩
  · intro hh
    have ⟨hd, hset⟩ := hi.free hh
    exact ⟨hd, hset.files.setSaving st, hset.shut.setSaving st, hset.suspended⟩
  · intro h hh
    have hheld := hi.held h hh
    refine ⟨?_, fun hr => ?_, hheld.last, ?_⟩
    · have ha := hheld.place
      unfold Holder.At at ha ⊢
      split at ha
      · exact ⟨hfiles ha.1, ha.2⟩
      · exact ⟨hfiles ha.1, ha.2⟩
      · exact ⟨hfiles ha.1, ha.2⟩
      · exact ⟨hfiles ha.1, ha.2⟩
      · exact ⟨fun hd => hfiles (ha.1 hd), ha.2⟩
      · exact ha
    · obtain ⟨hm, hsav, hres⟩ := hheld.reset hr
      exact ⟨hm, by simp [setSaving, hsav], hres⟩
    · intro f hf
      have := hheld.fd f hf
      rwa [← setSaving_filp st s.dev] at this

/-- STEP: every step that meets the condition keeps the invariant. -/
theorem Inv.step (hi : Inv s) {e : Ev} (hm : Meets nextState s e) :
    Inv (DeviceState.step nextState s e) := by
  have hlock : ∀ new ph, s.holder = none → Holder.At s.dev ⟨new, s.dev.migState, .null, false, ph⟩ →
      Inv { s with holder := some ⟨new, s.dev.migState, .null, false, ph⟩ } := by
    intro new ph _ hat
    exact .of_held hi.oops hi.shut ⟨hat, nofun, fun _ => rfl, nofun⟩ hi.log
  have hdirs : s.holder = none → Files s.dev ∧ Dirs s.dev (prescribed s.dev.migState) := by
    intro hh
    obtain ⟨hd, hset⟩ := hi.free hh
    exact ⟨hset.files, by simpa [Dirs, hd] using hset.suspended⟩
  cases e with
  | setDeviceState new =>
    simp only [DeviceState.step]
    split
    · next hh => exact hlock _ _ hh ⟨(hdirs hh).1, (hdirs hh).2, rfl⟩
    · exact hi
  | lock =>
    simp only [DeviceState.step]
    split
    · next hh => exact hlock _ _ hh ⟨fun _ => (hdirs hh).1, (hdirs hh).2, nofun⟩
    · exact hi
  | loop ok =>
    simp only [DeviceState.step]
    split
    · next h hh =>
      split
      · next hp => exact hi.loop hh hp ok hm
      · exact hi
    · exact hi
  | incData ok =>
    simp only [DeviceState.step]
    split
    · next h hh =>
      split
      · next next hp => exact hi.incData hh hp ok hm
      · exact hi
    · exact hi
  | cleanup ok =>
    simp only [DeviceState.step]
    split
    · next h hh =>
      split
      · next next hp => exact hi.cleanup hh hp ok
      · exact hi
    · exact hi
  | disable =>
    simp only [DeviceState.step]
    split
    · next h hh =>
      split
      · next next hp => exact hi.disable hh hp hm
      · exact hi
    · exact hi
  | migf st => exact hi.migf st
  | unlock =>
    simp only [DeviceState.step]
    split
    · next h hh => exact hi.unlock hh
    · exact hi
  | reset => exact hi.reset

theorem inv_start : Inv Sys.start where
  oops := rfl
  shut := nofun
  free _ := ⟨rfl, ⟨by simp [Sys.start], by simp [Sys.start]⟩, nofun, rfl⟩
  held := by simp [Sys.start]
  log := by simp [Sys.start]

/-- RUN: the invariant holds in every state of every run whose steps meet the condition. -/
theorem Inv.reach (h : Reach (DeviceState.step nextState) (Meets nextState) Sys.start s) : Inv s :=
  h.invariant inv_start fun _ _ hm hi => hi.step hm

/-- CORRECT: whichever path of arcs is computed, whichever commands fail and wherever resets come,
    in a run whose steps meet the condition: with no operation in progress the files are those of
    the state, every other file is shut and the suspended directions are the prescribed ones; and
    every release of the mutex was good. -/
theorem device_state (h : Reach (DeviceState.step nextState) (Meets nextState) Sys.start s) :
    (s.holder = none → Settled s.dev) ∧ (∀ r ∈ s.log, r.Good) ∧ s.dev.oops = false :=
  have hi := Inv.reach h
  ⟨fun hh => (hi.free hh).2, hi.log, hi.oops⟩

/-- The paths of a device with peer-to-peer and pre-copy states; no path leads to or from ERROR, or
    from STOP_COPY into pre-copy. -/
def demoNext : MigState → MigState → Option MigState
  | .error, _ | _, .error => none
  | .stop, .stop => some .stop
  | .stop, .stopCopy => some .stopCopy
  | .stop, .resuming => some .resuming
  | .stop, _ => some .runningP2p
  | .running, .running => some .running
  | .running, .preCopy => some .preCopy
  | .running, _ => some .runningP2p
  | .preCopy, .preCopy => some .preCopy
  | .preCopy, .preCopyP2p | .preCopy, .stopCopy => some .preCopyP2p
  | .preCopy, _ => some .running
  | .preCopyP2p, .preCopyP2p => some .preCopyP2p
  | .preCopyP2p, .preCopy => some .preCopy
  | .preCopyP2p, .stopCopy => some .stopCopy
  | .preCopyP2p, _ => some .runningP2p
  | .stopCopy, .stopCopy => some .stopCopy
  | .stopCopy, .preCopy | .stopCopy, .preCopyP2p => none
  | .stopCopy, _ => some .stop
  | .resuming, .resuming => some .resuming
  | .resuming, _ => some .stop
  | .runningP2p, .runningP2p => some .runningP2p
  | .runningP2p, .running | .runningP2p, .preCopy => some .running
  | .runningP2p, .preCopyP2p => some .preCopyP2p
  | .runningP2p, _ => some .stop

/-- RUNNING to PRE_COPY; on to STOP_COPY; to STOP and RESUMING; and a call to RUNNING, in whose
    midst the device is reset. -/
def demoRun : List Ev :=
  [.setDeviceState .preCopy, .loop true, .loop true, .unlock,
   .migf .preCopy, .setDeviceState .stopCopy, .loop true, .loop true, .incData true, .loop true,
   .unlock, .setDeviceState .resuming, .loop true, .loop true, .loop true, .unlock,
   .setDeviceState .running, .loop true, .reset, .loop true, .loop true, .loop true, .unlock,
   .unlock, .unlock]

theorem device_state_demo :
    let s := demoRun.foldl (step demoNext) Sys.start
    Settled s.dev ∧ s.log.length = 4 ∧ ∀ r ∈ s.log, r.Good :=
  have hrun : Runs (step demoNext) (Meets demoNext) Sys.start demoRun := by decide +kernel
  have h := device_state (Reach.start.runs hrun)
  ⟨h.1 (by decide +kernel), by decide +kernel, h.2.1⟩

/-- PRE_COPY_P2P to STOP_COPY, where the final query fails once the responder is suspended. -/
def incDataFails : List Ev :=
  [.setDeviceState .preCopyP2p, .loop true, .loop true, .loop true, .unlock, .migf .preCopy,
   .setDeviceState .stopCopy, .loop true, .incData false, .unlock]

/-- PRE_COPY back to RUNNING, where the saving file has gone into error. -/
def cleanupInError : List Ev :=
  [.setDeviceState .preCopy, .loop true, .loop true, .unlock, .migf .preCopy,
   .setDeviceState .running, .loop true, .cleanup true, .migf .error, .disable, .unlock]

/-- RUNNING to STOP, with a reset after the first arc. -/
def suspendAfterReset : List Ev :=
  [.setDeviceState .stop, .loop true, .reset, .loop true, .loop true, .unlock, .unlock, .unlock]

/-- A call that fails behind its suspend leaves the responder suspended in PRE_COPY_P2P; one that
    finds the file in error leaves PRE_COPY without its file; and a suspend that succeeds between a
    reset and its handling leaves the device suspended in RUNNING. -/
theorem device_state_broken :
    (let s := incDataFails.foldl (step demoNext) Sys.start
     s.holder = none ∧ s.dev.migState = .preCopyP2p ∧ s.dev.suspended = (true, true) ∧
      ¬ Settled s.dev) ∧
    (let s := cleanupInError.foldl (step demoNext) Sys.start
     s.holder = none ∧ s.dev.migState = .preCopy ∧ s.dev.savingMigf = none ∧ ¬ Settled s.dev) ∧
    (let s := suspendAfterReset.foldl (step demoNext) Sys.start
     s.holder = none ∧ s.dev.migState = .running ∧ s.dev.suspended = (false, true) ∧
      ¬ Settled s.dev) :=
  ⟨⟨by decide +kernel, by decide +kernel, by decide +kernel,
      fun h => absurd h.suspended (by decide +kernel)⟩,
    ⟨by decide +kernel, by decide +kernel, by decide +kernel,
      fun h => absurd (h.files.saving.2 (by decide +kernel)) (by decide +kernel)⟩,
    ⟨by decide +kernel, by decide +kernel, by decide +kernel,
      fun h => absurd h.suspended (by decide +kernel)⟩⟩

end RdmaDriver.DeviceState
