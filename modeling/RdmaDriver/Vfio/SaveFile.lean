import RdmaDriver.Basic
import RdmaDriver.Schemes.Run
import RdmaDriver.Vfio.DeviceState
import RdmaDriver.Vfio.MigBuf

/-! @src drivers/vfio/pci/mlx5/main.c, cmd.c | name:Saving file | scheme:run | family:ownership

    A saving file hands its buffers round. In chunk mode two pairs of buffers carry the chunks in
    turn, and whoever sees that there is room for the next chunk starts its save:

        buf[k] - save -> in flight - callback -> buf_list - read -> buf[k]
                              | room: queue work for the other chunk
                              ╰ full: next_required_umem_size - read_done -> queue work for k

    Other buffers go back to `avail_list`, from where `mlx5vf_get_data_buffer` takes them again. A
    step is a callback, a work, a call from the state machine, or a turn of the read loop; which
    allocation, command and wait succeeds is in its label. -/

namespace RdmaDriver.SaveFile
open RdmaDriver.Schemes RdmaDriver.MigBuf Function
open RdmaDriver.DeviceState (MigfState)
open List (count_append count_nil count_pos_iff mem_cons mem_cons_self)
open Prod (ext fst snd)

def MAX_NUM_CHUNKS : ℕ := 2

/-- `sizeof(struct mlx5_vf_migration_header)`, `sizeof(struct
    mlx5_vf_migration_tag_stop_copy_data)`. -/
def HEADER_SIZE : ℕ := 16
def STOP_COPY_DATA_SIZE : ℕ := 8

/-- `cpu_to_le32`, `cpu_to_le64`, as bytes in memory. -/
def leBytes (n v : ℕ) : List ℕ := (List.range n).map fun i => v / 256 ^ i % 256

/-- `enum mlx5_vf_migf_header_flags`, `enum mlx5_vf_migf_header_tag`. -/
def TAG_MANDATORY : ℕ := 0
def TAG_OPTIONAL : ℕ := 1
def TAG_FW_DATA : ℕ := 0
def TAG_STOP_COPY_SIZE : ℕ := 1

/-- `struct mlx5_vf_migration_header`, as it lies in memory. -/
def headerBytes (recordSize flags tag : ℕ) : List ℕ :=
  leBytes 8 recordSize ++ leBytes 4 flags ++ leBytes 4 tag

/-- `struct mlx5vf_async_data`: the buffers of the save in flight. -/
structure Async where
  buf : ℕ
  headerBuf : ℕ
  stopCopyChunk : Bool

/-- How far the migration got, as the state machine has it; `dead`: the file was given up before it
    was handed out. -/
inductive Phase where
  | new | preCopy | stopCopy | dead
  deriving DecidableEq

/-- What a read returned. -/
inductive ReadRet where
  | bytes (l : List ℕ)
  | enomsg | eagain | enodev | einval
  deriving DecidableEq

/-- A call of `mlx5vf_save_read` that is under way. -/
structure Reader where
  len : ℕ
  nonblock : Bool
  first : Bool
  done : List ℕ

/-- `struct mlx5_vf_migration_file` of a save, with the heap its buffers live in (`live`: allocated
    and not freed). `outstanding` counts the SAVE commands in firmware, `cleanups` the failed ones
    whose work is queued; `saveWork i` is the size that the queued `save_data[i]` asks for. `fwNext`
    tells that firmware has a chunk to give, `stream` are the bytes of all records so far. -/
structure Migf where
  chunkMode : Bool
  state : MigfState
  phase : Phase
  heap : ℕ → Buf
  live : ℕ → Bool
  fresh : ℕ
  buf : ℕ → Option ℕ
  bufHeader : ℕ → Option ℕ
  bufList : List ℕ
  availList : List ℕ
  maxPos : ℕ
  preCopyInitialBytes : ℕ
  numReadyChunks : ℕ
  nextRequiredUmemSize : ℕ
  saveComp : ℕ
  async : Async
  outstanding : ℕ
  cleanups : ℕ
  saveWork : ℕ → Option ℕ
  filpRefs : ℕ
  warn : Bool
  fPos : ℕ
  reader : Option Reader
  reads : List ReadRet
  fwNext : Bool
  stream : List ℕ
  images : List (List ℕ)

/-- An allocation that succeeds: how the pages are cut into entries, and what is in them. -/
structure Alloc where
  cuts : List ℕ
  mem : ℕ → ℕ

/-- The entries that `n` pages make. -/
def layout : ℕ → List ℕ → List ℕ
  | n, [] => if n = 0 then [] else [n]
  | n, c :: cuts => if 0 < c ∧ c < n then c :: layout (n - c) cuts else layout n cuts

/-- A buffer as `mlx5vf_alloc_data_buffer` makes it. -/
def newBuf (dmaNone : Bool) (length : ℕ) (a : Alloc) : Buf where
  dmaNone := dmaNone
  stopCopyChunkNum := 0
  segs := layout (divRoundUp length PAGE_SIZE) a.cuts
  mem := a.mem
  lastOffsetSg := none
  sgLastEntry := 0
  lastOffset := 0
  startPos := 0
  length := 0

/-- A field of a buffer is set. -/
def Migf.setBuf (m : Migf) (b : ℕ) (f : Buf → Buf) : Migf :=
  { m with heap := update m.heap b (f (m.heap b)) }

/-- `mlx5vf_alloc_data_buffer`. -/
def mlx5vfAllocDataBuffer (m : Migf) (length : ℕ) (dmaNone : Bool) : Option Alloc → Migf × Option ℕ
  | none => (m, none)
  | some a =>
    ({ m with
        heap := update m.heap m.fresh (newBuf dmaNone length a)
        live := update m.live m.fresh true
        fresh := m.fresh + 1 }, some m.fresh)

/-- `mlx5vf_free_data_buffer`. -/
def mlx5vfFreeDataBuffer (m : Migf) (b : ℕ) : Migf :=
  { m with live := update m.live b false }

/-- `mlx5vf_put_data_buffer`. -/
def mlx5vfPutDataBuffer (m : Migf) (b : ℕ) : Migf :=
  let m := m.setBuf b fun x => { x with stopCopyChunkNum := 0 }
  { m with availList := m.availList ++ [b] }

/-- The loop of `mlx5vf_get_data_buffer` over `avail_list`: what stays, what goes to the free list,
    and the buffer that was found. -/
def scanAvail (heap : ℕ → Buf) (length : ℕ) (dmaNone : Bool) :
    List ℕ → List ℕ × List ℕ × Option ℕ
  | [] => ([], [], none)
  | b :: l =>
    if (heap b).dmaNone = dmaNone then
      if (heap b).allocatedLength ≥ length then (l, [], some b)
      else
        let (kept, free, found) := scanAvail heap length dmaNone l
        (kept, b :: free, found)
    else
      let (kept, free, found) := scanAvail heap length dmaNone l
      (b :: kept, free, found)

/-- `mlx5vf_get_data_buffer`; `alloc` is none also when the device is detached. -/
def mlx5vfGetDataBuffer (m : Migf) (length : ℕ) (dmaNone : Bool) (alloc : Option Alloc) :
    Migf × Option ℕ :=
  let (kept, free, found) := scanAvail m.heap length dmaNone m.availList
  let m := { m with availList := kept }
  let (m, r) := match found with
    | some b => (m, some b)
    | none => mlx5vfAllocDataBuffer m length dmaNone alloc
  (free.foldl mlx5vfFreeDataBuffer m, r)

/-- `mlx5vf_mark_err`. -/
def mlx5vfMarkErr (m : Migf) : Migf := { m with state := .error }

/-- `mlx5vf_mig_file_set_save_work`. -/
def mlx5vfMigFileSetSaveWork (m : Migf) (chunkNum nextRequired : ℕ) : Migf :=
  { m with
    saveWork := update m.saveWork (chunkNum - 1) (some nextRequired)
    filpRefs := m.filpRefs + 1 }

/-- `mlx5vf_mig_file_get_stop_copy_buf`. -/
def mlx5vfMigFileGetStopCopyBuf (m : Migf) (index requiredLength : ℕ) (alloc : Option Alloc) :
    Migf × Option ℕ :=
  match m.buf index with
  | none => ({ m with warn := true }, none)
  | some b =>
    let chunkNum := (m.heap b).stopCopyChunkNum
    let m := { m with buf := update m.buf index none }
    if (m.heap b).allocatedLength ≥ requiredLength then (m, some b)
    else
      let m := mlx5vfPutDataBuffer m b
      match mlx5vfGetDataBuffer m requiredLength false alloc with
      | (m, none) => (m, none)
      | (m, some b) => (m.setBuf b fun x => { x with stopCopyChunkNum := chunkNum }, some b)

/-- What decides whether a save is issued: the wait, the output, a header buffer, the command. -/
structure SaveEnv where
  waits : Bool
  out : Bool
  header : Option Alloc
  exec : Bool

/-- `mlx5vf_cmd_save_vhca_state`. -/
def mlx5vfCmdSaveVhcaState (m : Migf) (b : ℕ) (inc track : Bool) (env : SaveEnv) : Migf × Bool :=
  if env.waits = false ∨ m.saveComp = 0 then (m, false)
  else
    let m := { m with saveComp := m.saveComp - 1 }
    let preCopyCleanup := decide (m.state = .preCopy ∨ m.state = .preCopyError) && !track && !inc
    let stopCopyChunk := !track && !preCopyCleanup
    if env.out = false then ({ m with saveComp := m.saveComp + 1 }, false)
    else
      let headerIdx := (m.heap b).stopCopyChunkNum - 1
      let taken := if stopCopyChunk then m.bufHeader headerIdx else none
      let m := if stopCopyChunk then
        { m with bufHeader := update m.bufHeader headerIdx none } else m
      let (m, header) := match taken with
        | some h => (m, some h)
        | none => mlx5vfGetDataBuffer m HEADER_SIZE true env.header
      match header with
      | none => ({ m with saveComp := m.saveComp + 1 }, false)
      | some h =>
        let m := if stopCopyChunk then { m with state := .saveStopCopyChunk } else m
        if env.exec then
          ({ m with
              async := ⟨b, h, stopCopyChunk⟩
              outstanding := m.outstanding + 1
              filpRefs := m.filpRefs + 1 }, true)
        else
          let m := mlx5vfPutDataBuffer m h
          ({ m with saveComp := m.saveComp + 1 }, false)

/-- A record goes to the end of `buf_list`: bytes `l`, written from the start of buffer `b`. -/
def addRecord (m : Migf) (b : ℕ) (l : List ℕ) : Migf :=
  let m := m.setBuf b fun x =>
    { x with mem := writeAt x.mem 0 l, length := l.length, startPos := m.maxPos }
  { m with
    maxPos := m.maxPos + l.length
    bufList := m.bufList ++ [b]
    stream := m.stream ++ l }

/-- `mlx5vf_save_callback_complete`. -/
def mlx5vfSaveCallbackComplete (m : Migf) : Migf :=
  { m with saveComp := m.saveComp + 1, filpRefs := m.filpRefs - 1 }

/-- `mlx5vf_save_callback` of a save that succeeded with `image`. -/
def mlx5vfSaveCallback (m : Migf) (image : List ℕ) (nextRequired : ℕ) : Migf :=
  if m.outstanding = 0 then m
  else
    let async := m.async
    let initialPreCopy := decide (m.state ≠ .preCopy) && !async.stopCopyChunk
    let chunkNum := (m.heap async.buf).stopCopyChunkNum
    let next := if chunkNum ≠ 0 then nextRequired else 0
    let lastChunk := async.stopCopyChunk && decide (next = 0)
    let m := addRecord m async.headerBuf (headerBytes image.length TAG_MANDATORY TAG_FW_DATA)
    let m := addRecord m async.buf image
    let ready := if chunkNum ≠ 0 then m.numReadyChunks + 1 else m.numReadyChunks
    -- delay the next save till one chunk is consumed
    let full := decide (chunkNum ≠ 0 ∧ next ≠ 0 ∧ ready ≥ MAX_NUM_CHUNKS)
    let m := { m with
      numReadyChunks := ready
      nextRequiredUmemSize := if full then next else m.nextRequiredUmemSize
      preCopyInitialBytes := if initialPreCopy then
        m.preCopyInitialBytes + HEADER_SIZE + image.length else m.preCopyInitialBytes
      state := if lastChunk then .complete else if initialPreCopy then .preCopy else m.state
      outstanding := m.outstanding - 1
      fwNext := if async.stopCopyChunk then decide (next ≠ 0) else m.fwNext
      images := m.images ++ [image] }
    mlx5vfSaveCallbackComplete (if next ≠ 0 ∧ full = false then
      mlx5vfMigFileSetSaveWork m (chunkNum % MAX_NUM_CHUNKS + 1) next else m)

/-- The callback of a save that failed queues `mlx5vf_mig_file_cleanup_cb`. -/
def saveFailed (m : Migf) : Migf :=
  if m.outstanding = 0 then m
  else { m with outstanding := m.outstanding - 1, cleanups := m.cleanups + 1 }

/-- `mlx5vf_mig_file_cleanup_cb`; `badRes`: the status is `MLX5_CMD_STAT_BAD_RES_STATE_ERR`. -/
def mlx5vfMigFileCleanupCb (m : Migf) (badRes : Bool) : Migf :=
  if m.cleanups = 0 then m
  else
    let m := { m with cleanups := m.cleanups - 1 }
    let m := mlx5vfPutDataBuffer m m.async.buf
    let m := mlx5vfPutDataBuffer m m.async.headerBuf
    let m := { m with
      state := if !m.async.stopCopyChunk && badRes then .preCopyError else .error }
    mlx5vfSaveCallbackComplete m

/-- `mlx5vf_mig_file_save_work` of `save_data[index]`. -/
def mlx5vfMigFileSaveWork (m : Migf) (index : ℕ) (alloc : Option Alloc) (env : SaveEnv) : Migf :=
  match m.saveWork index with
  | none => m
  | some required =>
    let m := { m with saveWork := update m.saveWork index none }
    let m := if m.state = .error then m
      else match mlx5vfMigFileGetStopCopyBuf m index required alloc with
        | (m, none) => mlx5vfMarkErr m
        | (m, some b) =>
          match mlx5vfCmdSaveVhcaState m b true false env with
          | (m, true) => m
          | (m, false) => mlx5vfMarkErr (mlx5vfPutDataBuffer m b)
    { m with filpRefs := m.filpRefs - 1 }

/-- The file that `mlx5vf_pci_save_device_data` begins with. -/
def Migf.empty (chunkMode : Bool) (heap : ℕ → Buf) : Migf where
  chunkMode := chunkMode
  state := .none
  phase := .new
  heap := heap
  live _ := false
  fresh := 0
  buf _ := none
  bufHeader _ := none
  bufList := []
  availList := []
  maxPos := 0
  preCopyInitialBytes := 0
  numReadyChunks := 0
  nextRequiredUmemSize := 0
  saveComp := 1
  async := ⟨0, 0, false⟩
  outstanding := 0
  cleanups := 0
  saveWork _ := none
  filpRefs := 1
  warn := false
  fPos := 0
  reader := none
  reads := []
  fwNext := false
  stream := []
  images := []

/-- The size of the buffers that `mlx5vf_prep_stop_copy` allocates. -/
def incStateSize (chunkMode track : Bool) (stateSize fullSize : ℕ) : ℕ :=
  let size := if chunkMode then max stateSize (min (2 ^ 23) fullSize)
    else if track ∧ stateSize + stateSize / 10 < 2 ^ 64 then stateSize + stateSize / 10
    else stateSize
  min size (2 ^ 32 - PAGE_SIZE)

/-- A turn of the loop in `mlx5vf_prep_stop_copy`. -/
def prepChunk (m : Migf) (size i : ℕ) (data header : Option Alloc) : Option Migf :=
  match mlx5vfGetDataBuffer m size false data with
  | (_, none) => none
  | (m, some b) =>
    let m := { m with buf := update m.buf i (some b) }
    match mlx5vfGetDataBuffer m HEADER_SIZE true header with
    | (_, none) => none
    | (m, some h) =>
      let m := { m with bufHeader := update m.bufHeader i (some h) }
      if m.chunkMode then
        some ((m.setBuf b fun x => { x with stopCopyChunkNum := i + 1 }).setBuf h
          fun x => { x with stopCopyChunkNum := i + 1 })
      else some m

/-- The stop-copy-size record. -/
def stopCopyRecord (size : ℕ) : List ℕ :=
  headerBytes STOP_COPY_DATA_SIZE TAG_OPTIONAL TAG_STOP_COPY_SIZE ++ leBytes 8 size

/-- `mlx5vf_add_stop_copy_header`. -/
def mlx5vfAddStopCopyHeader (m : Migf) (track : Bool) (alloc : Option Alloc) : Option Migf :=
  match mlx5vfGetDataBuffer m (HEADER_SIZE + STOP_COPY_DATA_SIZE) true alloc with
  | (_, none) => none
  | (m, some h) =>
    let size := (m.buf 0).elim 0 fun b => (m.heap b).allocatedLength
    let m := addRecord m h (stopCopyRecord size)
    some (if track then { m with preCopyInitialBytes := HEADER_SIZE + STOP_COPY_DATA_SIZE } else m)

/-- `mlx5vf_prep_stop_copy`; none if it fails, when the file is given up. -/
def mlx5vfPrepStopCopy (m : Migf) (stateSize fullSize : ℕ) (track : Bool)
    (allocs : ℕ → Option Alloc) : Option Migf := do
  let size := incStateSize m.chunkMode track stateSize fullSize
  let m ← prepChunk m size 0 (allocs 0) (allocs 1)
  let m ← if m.chunkMode then prepChunk m size 1 (allocs 2) (allocs 3) else some m
  mlx5vfAddStopCopyHeader m track (allocs 4)

/-- The end of `mlx5vf_pci_save_device_data`: the first save. If it is not issued the file is given
    up. -/
def saveDeviceData (m : Migf) (track : Bool) (alloc : Option Alloc) (env : SaveEnv) : Migf :=
  if m.phase ≠ .new then m
  else
    let (m, b) := if track then
        mlx5vfAllocDataBuffer m
          ((m.buf 0).elim 0 fun b => (m.heap b).allocatedLength) false alloc
      else ({ m with buf := update m.buf 0 none }, m.buf 0)
    match b with
    | none => { m with phase := .dead }
    | some b =>
      match mlx5vfCmdSaveVhcaState m b false track env with
      | (m, true) =>
        { m with
          phase := if track then .preCopy else .stopCopy
          fwNext := !track }
      | (m, false) =>
        let m := mlx5vfFreeDataBuffer m b
        { m with phase := .dead }

/-- `mlx5vf_precopy_ioctl`; its query waits until no save is active. -/
def mlx5vfPrecopyIoctl (m : Migf) (incLength : ℕ) (alloc : Option Alloc) (env : SaveEnv) : Migf :=
  if m.phase ≠ .preCopy ∨ m.saveComp = 0 ∨ m.state = .error then m
  else if m.preCopyInitialBytes > m.fPos ∨ m.maxPos - m.fPos ≠ 0 ∨ incLength = 0 then m
  else
    match mlx5vfGetDataBuffer m incLength false alloc with
    | (m, none) => mlx5vfMarkErr m
    | (m, some b) =>
      match mlx5vfCmdSaveVhcaState m b true true env with
      | (m, true) => m
      | (m, false) => mlx5vfPutDataBuffer (mlx5vfMarkErr m) b

/-- `mlx5vf_pci_save_device_inc_data`; `query`: its query, which waits until no save is active,
    brings the length. -/
def mlx5vfPciSaveDeviceIncData (m : Migf) (query : Option ℕ) (alloc : Option Alloc)
    (env : SaveEnv) : Migf :=
  if m.phase ≠ .preCopy ∨ m.saveComp = 0 ∨ m.state = .error then m
  else
    match query with
    | none => mlx5vfMarkErr m
    | some length =>
      match mlx5vfMigFileGetStopCopyBuf m 0 length alloc with
      | (m, none) => mlx5vfMarkErr m
      | (m, some b) =>
        match mlx5vfCmdSaveVhcaState m b true false env with
        | (m, true) => { m with phase := .stopCopy, fwNext := true }
        | (m, false) => mlx5vfMarkErr (mlx5vfPutDataBuffer m b)

/-- `mlx5vf_buf_read_done`. -/
def mlx5vfBufReadDone (m : Migf) (b : ℕ) : Migf :=
  let chunkNum := (m.heap b).stopCopyChunkNum
  if chunkNum ≠ 0 then
    if (m.heap b).dmaNone then
      { m with
        bufHeader := update m.bufHeader (chunkNum - 1) (some b)
        bufList := m.bufList.erase b }
    else
      let next := m.nextRequiredUmemSize
      let m := { m with
        buf := update m.buf (chunkNum - 1) (some b)
        bufList := m.bufList.erase b
        nextRequiredUmemSize := 0
        numReadyChunks := m.numReadyChunks - 1 }
      if next ≠ 0 then mlx5vfMigFileSetSaveWork m chunkNum next else m
  else { m with bufList := m.bufList.erase b, availList := m.availList ++ [b] }

/-- `mlx5vf_get_data_buff_from_pos`: end of data, or the buffer if it was found. -/
def mlx5vfGetDataBuffFromPos (m : Migf) (pos : ℕ) : Migf × Bool × Option ℕ :=
  match m.bufList with
  | [] => (m, true, none)
  | b :: _ =>
    if (m.heap b).startPos ≤ pos ∧ pos < (m.heap b).startPos + (m.heap b).length then
      (m, false, some b)
    else (mlx5vfMarkErr m, false, none)

/-- A read returns. -/
def endRead (m : Migf) (ret : ReadRet) : Migf :=
  { m with reader := none, reads := m.reads ++ [ret] }

/-- `mlx5vf_save_read` starts; a blocking one waits until there is something to see. -/
def readStart (m : Migf) (len : ℕ) (nonblock : Bool) : Migf :=
  match m.reader with
  | some _ => m
  | none =>
    if nonblock = false ∧ m.bufList = [] ∧
        m.state ∉ [.error, .preCopyError, .preCopy, .complete] then m
    else if m.state = .error then endRead m .enodev
    else { m with reader := some ⟨len, nonblock, true, []⟩ }

/-- A turn of the loop in `mlx5vf_save_read`. -/
def readTurn (m : Migf) : Migf :=
  match m.reader with
  | none => m
  | some r =>
    if r.len = 0 then endRead m (.bytes r.done)
    else
      match mlx5vfGetDataBuffFromPos m m.fPos with
      | (m, true, _) =>
        if r.first ∧ (m.state = .preCopy ∨ m.state = .preCopyError) then endRead m .enomsg
        else if r.first ∧ m.state ≠ .complete ∧ r.nonblock then endRead m .eagain
        else endRead m (.bytes r.done)
      | (m, false, none) => endRead m .einval
      | (m, false, some b) =>
        match mlx5vfBufRead (m.heap b) m.fPos r.len with
        | none => endRead m .einval
        | some (bytes, x) =>
          let m := { m with
            heap := update m.heap b x
            fPos := m.fPos + bytes.length
            reader := some ⟨r.len - bytes.length, r.nonblock, false, r.done ++ bytes⟩ }
          if m.fPos ≥ x.startPos + x.length then mlx5vfBufReadDone m b else m

/-- The steps. -/
inductive Ev where
  | saveDeviceData (track : Bool) (alloc : Option Alloc) (env : SaveEnv)
  | ioctl (incLength : ℕ) (alloc : Option Alloc) (env : SaveEnv)
  | incData (query : Option ℕ) (alloc : Option Alloc) (env : SaveEnv)
  | callback (image : List ℕ) (nextRequired : ℕ)
  | failed
  | cleanup (badRes : Bool)
  | work (index : ℕ) (alloc : Option Alloc) (env : SaveEnv)
  | readStart (len : ℕ) (nonblock : Bool)
  | readTurn
  | markErr

def step (m : Migf) : Ev → Migf
  | .saveDeviceData track alloc env => saveDeviceData m track alloc env
  | .ioctl incLength alloc env => mlx5vfPrecopyIoctl m incLength alloc env
  | .incData query alloc env => mlx5vfPciSaveDeviceIncData m query alloc env
  | .callback image nextRequired => mlx5vfSaveCallback m image nextRequired
  | .failed => saveFailed m
  | .cleanup badRes => mlx5vfMigFileCleanupCb m badRes
  | .work index alloc env => mlx5vfMigFileSaveWork m index alloc env
  | .readStart len nonblock => readStart m len nonblock
  | .readTurn => readTurn m
  | .markErr => mlx5vfMarkErr m

/-- What the device keeps to: an image is no longer than its buffer. -/
def ok (m : Migf) : Ev → Prop
  | .callback image _ => image.length ≤ (m.heap m.async.buf).allocatedLength
  | _ => True

/-! ### Where the buffers are -/

/-- A slot that holds buffer `b` counts for it. -/
def inSlot (o : Option ℕ) (b : ℕ) : ℕ := if o = some b then 1 else 0

/-- The buffers of the save in flight. -/
def Migf.flying (m : Migf) : List ℕ :=
  if m.outstanding + m.cleanups = 0 then [] else [m.async.buf, m.async.headerBuf]

/-- In how many places buffer `b` is. -/
def Migf.places (m : Migf) (b : ℕ) : ℕ :=
  inSlot (m.buf 0) b + inSlot (m.buf 1) b + inSlot (m.bufHeader 0) b + inSlot (m.bufHeader 1) b +
    m.flying.count b + m.bufList.count b + m.availList.count b

/-- What a buffer is for: header or data, and its chunk. -/
def Migf.tag (m : Migf) (b : ℕ) : Bool × ℕ := ((m.heap b).dmaNone, (m.heap b).stopCopyChunkNum)

/-- The chunk number of slot `i`. -/
def Migf.slotChunk (m : Migf) (i : ℕ) : ℕ := if m.chunkMode then i + 1 else 0

/-- OWNERSHIP: with the buffers of `hand` held by the function that runs, every live buffer is in
    exactly one place, and in one that fits it. -/
structure Owns (hand : List ℕ) (m : Migf) : Prop where
  places : ∀ b, m.places b + hand.count b = (m.live b).toNat
  fresh : ∀ b, m.live b = true → b < m.fresh
  slots : ∀ i b, m.buf i = some b → i < 2 ∧ m.tag b = (false, m.slotChunk i)
  headers : ∀ i b, m.bufHeader i = some b → i < 2 ∧ m.tag b = (true, m.slotChunk i)
  avail : ∀ b ∈ m.availList, (m.heap b).stopCopyChunkNum = 0
  flying : m.outstanding + m.cleanups ≠ 0 →
    (m.heap m.async.buf).dmaNone = false ∧ (m.heap m.async.headerBuf).dmaNone = true
  uniq : ∀ a b, m.live a = true → m.live b = true → a ≠ b → m.tag a = m.tag b →
    (m.heap a).stopCopyChunkNum = 0
  chunk : ∀ b, m.live b = true → (m.heap b).stopCopyChunkNum ≤ 2 ∧
    (m.chunkMode = false → (m.heap b).stopCopyChunkNum = 0)

variable {m m' : Migf} {hand : List ℕ} {a b i : ℕ}

theorem Owns.live_of_hand (h : Owns hand m) (hb : b ∈ hand) : m.live b = true := by
  have hp := h.places b
  have hc := count_pos_iff.2 hb
  by_contra hne
  rw [Bool.not_eq_true] at hne
  rw [hne, Bool.toNat_false] at hp
  omega

theorem Owns.live_of_place (h : Owns hand m) (hb : 0 < m.places b) : m.live b = true := by
  have hp := h.places b
  by_contra hne
  rw [Bool.not_eq_true] at hne
  rw [hne, Bool.toNat_false] at hp
  omega

/-- Ownership looks at the places, the tags and what is live, and at nothing else. -/
theorem Owns.congr (h : Owns hand m) (hplaces : ∀ b, m'.places b = m.places b)
    (hlive : m'.live = m.live) (hfresh : m'.fresh = m.fresh) (hbuf : m'.buf = m.buf)
    (hheader : m'.bufHeader = m.bufHeader) (havail : m'.availList = m.availList)
    (hfly : m'.outstanding + m'.cleanups = m.outstanding + m.cleanups) (hasync : m'.async = m.async)
    (hmode : m'.chunkMode = m.chunkMode) (htag : ∀ b, m'.tag b = m.tag b) : Owns hand m' := by
  have hdma : ∀ b, (m'.heap b).dmaNone = (m.heap b).dmaNone := fun b => congrArg fst (htag b)
  have hchunk : ∀ b, (m'.heap b).stopCopyChunkNum = (m.heap b).stopCopyChunkNum :=
    fun b => congrArg snd (htag b)
  refine ⟨?_, ?_, ?_, ?_, ?_, ?_, ?_, ?_⟩
  · intro b
    rw [hplaces, hlive]
    exact h.places b
  · rw [hlive, hfresh]
    exact h.fresh
  · intro i b
    rw [hbuf, htag, Migf.slotChunk, hmode]
    exact h.slots i b
  · intro i b
    rw [hheader, htag, Migf.slotChunk, hmode]
    exact h.headers i b
  · rw [havail]
    intro b hb
    rw [hchunk]
    exact h.avail b hb
  · rw [hfly, hasync, hdma, hdma]
    exact h.flying
  · intro a b
    rw [hlive, htag, htag, hchunk]
    exact h.uniq a b
  · intro b
    rw [hlive, hchunk, hmode]
    exact h.chunk b

theorem inSlot_some (a b : ℕ) : inSlot (some a) b = if a = b then 1 else 0 := by
  simp [inSlot]

theorem count_cons_inSlot (a b : ℕ) (l : List ℕ) :
    (a :: l).count b = l.count b + inSlot (some a) b := by
  rw [List.count_cons, inSlot_some]
  simp

/-- The slots: `buf`, and `buf_header` for `k`. -/
def Migf.slot (m : Migf) (k : Bool) (i : ℕ) : Option ℕ :=
  match k with
  | false => m.buf i
  | true => m.bufHeader i

def Migf.setSlot (m : Migf) (k : Bool) (i : ℕ) (o : Option ℕ) : Migf :=
  match k with
  | false => { m with buf := update m.buf i o }
  | true => { m with bufHeader := update m.bufHeader i o }

theorem places_slot (m : Migf) (k : Bool) (hi : i < 2) (o : Option ℕ) (b : ℕ) :
    (m.setSlot k i o).places b + inSlot (m.slot k i) b = m.places b + inSlot o b := by
  have h01 : (0 : ℕ) ≠ 1 := by decide
  have hfly : (m.setSlot k i o).flying = m.flying := by cases k <;> rfl
  unfold Migf.places
  rw [hfly]
  cases k
  all_goals
    obtain rfl | rfl : i = 0 ∨ i = 1 := by omega
    all_goals
      simp only [Migf.setSlot, Migf.slot, update_self, update_of_ne h01, update_of_ne h01.symm]
      omega

theorem Owns.slot {k : Bool} (h : Owns hand m) (hb : m.slot k i = some b) :
    i < 2 ∧ m.tag b = (k, m.slotChunk i) := by
  cases k with
  | false => exact h.slots i b hb
  | true => exact h.headers i b hb

theorem Owns.slot_pos {k : Bool} (h : Owns hand m) (hb : m.slot k i = some b) :
    0 < m.places b := by
  have := places_slot m k (h.slot hb).1 none b
  rw [hb, inSlot_some, if_pos rfl] at this
  simp only [inSlot, reduceCtorEq, if_false] at this
  omega

/-- A slot changes its buffer with the hand. -/
theorem Owns.setSlot {l : List ℕ} {k : Bool} {o : Option ℕ} (h : Owns l m) (hi : i < 2)
    (hcount : ∀ x, l.count x + inSlot (m.slot k i) x = hand.count x + inSlot o x)
    (hfit : ∀ c, o = some c → m.tag c = (k, m.slotChunk i)) : Owns hand (m.setSlot k i o) := by
  have hplaces : ∀ x, (m.setSlot k i o).places x + hand.count x = (m.live x).toNat := fun x => by
    have hp := h.places x
    have hs := places_slot m k hi o x
    have := hcount x
    omega
  have hslot : ∀ (f : ℕ → Option ℕ) (j c : ℕ), update f i o j = some c →
      (f j = some c → j < 2 ∧ m.tag c = (k, m.slotChunk j)) →
      j < 2 ∧ m.tag c = (k, m.slotChunk j) := by
    intro f j c hc hold
    rcases eq_or_ne j i with rfl | hne
    · exact ⟨hi, hfit c (by simpa using hc)⟩
    · exact hold (by simpa [hne] using hc)
  cases k with
  | false =>
    exact { h with places := hplaces, slots := fun j c hc => hslot m.buf j c hc (h.slots j c) }
  | true =>
    exact { h with
      places := hplaces
      headers := fun j c hc => hslot m.bufHeader j c hc (h.headers j c) }

/-- A slot is emptied into the hand. -/
theorem Owns.takeSlot {k : Bool} (h : Owns hand m) (hb : m.slot k i = some b) :
    Owns (b :: hand) (m.setSlot k i none) := by
  refine h.setSlot (h.slot hb).1 (fun x => ?_) nofun
  rw [hb, count_cons_inSlot]
  rfl

/-- An empty slot stays as it is when it is emptied. -/
theorem Owns.emptyHeader (h : Owns hand m) (hb : m.bufHeader i = none) :
    Owns hand { m with bufHeader := update m.bufHeader i none } := by
  have : { m with bufHeader := update m.bufHeader i none } = m := by
    rw [update_eq_self_iff.2 hb.symm]
  rwa [this]

theorem Owns.mode_of_chunk (h : Owns hand m) (hlive : m.live b = true)
    (hb : (m.heap b).stopCopyChunkNum = i + 1) : m.chunkMode = true ∧ i < 2 := by
  obtain ⟨hle, hoff⟩ := h.chunk b hlive
  constructor
  · by_contra hne
    rw [Bool.not_eq_true] at hne
    rw [hoff hne] at hb
    omega
  · omega

/-- The slot of a chunk in hand is empty: there is one buffer for each chunk. -/
theorem Owns.slot_none {k : Bool} (h : Owns (b :: hand) m) (htag : m.tag b = (k, i + 1)) :
    m.slot k i = none := by
  cases hs : m.slot k i with
  | none => rfl
  | some c =>
    exfalso
    have hc := (h.slot hs).2
    have hlive := h.live_of_hand (mem_cons_self ..)
    have hone := h.places b
    rw [hlive, count_cons_inSlot, inSlot_some, if_pos rfl] at hone
    rw [Migf.slotChunk, (h.mode_of_chunk hlive (congrArg snd htag)).1, if_pos rfl] at hc
    have hcb := h.slot_pos hs
    have hne : b ≠ c := by
      rintro rfl
      simp only [Bool.toNat_true] at hone
      omega
    have := h.uniq b c hlive (h.live_of_place hcb) hne (htag.trans hc.symm)
    simp [Migf.tag, this] at htag

/-- A chunk's buffer in hand goes to its slot. -/
theorem Owns.storeSlot {k : Bool} (h : Owns (b :: hand) m) (htag : m.tag b = (k, i + 1)) :
    Owns hand (m.setSlot k i (some b)) := by
  obtain ⟨hmode, hi⟩ := h.mode_of_chunk (h.live_of_hand (mem_cons_self ..))
    (congrArg snd htag)
  refine h.setSlot hi (fun x => ?_) fun c hc => ?_
  · rw [h.slot_none htag, count_cons_inSlot]
    rfl
  · rw [← Option.some.inj hc, Migf.slotChunk, hmode, if_pos rfl]
    exact htag

/-- A buffer in hand is in no slot, not in flight and in no list. -/
theorem Owns.nowhere (h : Owns (b :: hand) m) : m.places b = 0 ∧ b ∉ hand := by
  have hone := h.places b
  rw [h.live_of_hand (mem_cons_self ..), count_cons_inSlot, inSlot_some, if_pos rfl] at hone
  simp only [Bool.toNat_true] at hone
  refine ⟨by omega, fun hmem => ?_⟩
  have := count_pos_iff.2 hmem
  omega

theorem not_in_places (h : m.places b = 0) : (∀ i < 2, m.buf i ≠ some b) ∧
    (∀ i < 2, m.bufHeader i ≠ some b) ∧ b ∉ m.flying ∧ b ∉ m.bufList ∧ b ∉ m.availList := by
  simp only [Migf.places, Nat.add_eq_zero_iff, List.count_eq_zero] at h
  obtain ⟨⟨⟨⟨⟨⟨h₁, h₂⟩, h₃⟩, h₄⟩, h₅⟩, h₆⟩, h₇⟩ := h
  have hslot : ∀ o : Option ℕ, inSlot o b = 0 → o ≠ some b := by
    rintro _ h rfl
    simp [inSlot] at h
  refine ⟨fun i hi => ?_, fun i hi => ?_, h₅, h₆, h₇⟩
  · obtain rfl | rfl : i = 0 ∨ i = 1 := by omega
    · exact hslot _ h₁
    · exact hslot _ h₂
  · obtain rfl | rfl : i = 0 ∨ i = 1 := by omega
    · exact hslot _ h₃
    · exact hslot _ h₄

/-- A buffer in hand is written, or gets another chunk that no other buffer has. -/
theorem Owns.setBuf (h : Owns (b :: hand) m) (f : Buf → Buf)
    (hdma : (f (m.heap b)).dmaNone = (m.heap b).dmaNone)
    (hchunk : (f (m.heap b)).stopCopyChunkNum ≤ 2 ∧
      (m.chunkMode = false → (f (m.heap b)).stopCopyChunkNum = 0))
    (huniq : ∀ a, m.live a = true → a ≠ b →
      m.tag a = ((m.heap b).dmaNone, (f (m.heap b)).stopCopyChunkNum) →
      (m.heap a).stopCopyChunkNum = 0) :
    Owns (b :: hand) (m.setBuf b f) := by
  obtain ⟨hbuf, hheader, hfly, -, havail⟩ := not_in_places h.nowhere.1
  have hself : (m.setBuf b f).heap b = f (m.heap b) := by simp [Migf.setBuf]
  have hother : ∀ c, c ≠ b → (m.setBuf b f).heap c = m.heap c := by
    intro c hc
    simp [Migf.setBuf, hc]
  have htag : ∀ c, c ≠ b → (m.setBuf b f).tag c = m.tag c := by
    intro c hc
    rw [Migf.tag, hother c hc]
    rfl
  have htagb : (m.setBuf b f).tag b = ((m.heap b).dmaNone, (f (m.heap b)).stopCopyChunkNum) := by
    rw [Migf.tag, hself, hdma]
  refine ⟨h.places, h.fresh, ?_, ?_, ?_, ?_, ?_, ?_⟩
  · intro i c hc
    obtain ⟨hi, ht⟩ := h.slots i c hc
    have hcb : c ≠ b := by rintro rfl; exact hbuf i hi hc
    rw [htag c hcb]
    exact ⟨hi, ht⟩
  · intro i c hc
    obtain ⟨hi, ht⟩ := h.headers i c hc
    have hcb : c ≠ b := by rintro rfl; exact hheader i hi hc
    rw [htag c hcb]
    exact ⟨hi, ht⟩
  · intro c hc
    have hcb : c ≠ b := by rintro rfl; exact havail hc
    rw [hother c hcb]
    exact h.avail c hc
  · intro hne
    have hf : m.flying = [m.async.buf, m.async.headerBuf] := if_neg hne
    rw [hf] at hfly
    simp only [mem_cons, List.not_mem_nil, or_false, not_or] at hfly
    have hasync : (m.setBuf b f).async = m.async := rfl
    rw [hasync, hother _ (Ne.symm hfly.1), hother _ (Ne.symm hfly.2)]
    exact h.flying hne
  · intro a c ha hc hne ht
    rcases eq_or_ne a b with rfl | hab
    · rw [htagb, htag c (Ne.symm hne)] at ht
      have h0 := huniq c hc (Ne.symm hne) ht.symm
      rw [hself]
      have := congrArg snd ht
      simp only [Migf.tag] at this
      omega
    · rcases eq_or_ne c b with rfl | hcb
      · rw [htagb, htag a hab] at ht
        rw [hother a hab]
        exact huniq a ha hab ht
      · rw [htag a hab, htag c hcb] at ht
        rw [hother a hab]
        exact h.uniq a c ha hc hne ht
  · intro c hc
    rcases eq_or_ne c b with rfl | hcb
    · rw [hself]
      exact hchunk
    · rw [hother c hcb]
      exact h.chunk c hc

theorem places_avail (m : Migf) (l : List ℕ) (b : ℕ) :
    { m with availList := l }.places b + m.availList.count b = m.places b + l.count b := by
  simp only [Migf.places, Migf.flying]
  omega

theorem places_list (m : Migf) (l : List ℕ) (b : ℕ) :
    { m with bufList := l }.places b + m.bufList.count b = m.places b + l.count b := by
  simp only [Migf.places, Migf.flying]
  omega

/-- A buffer in hand that has no chunk goes to `avail_list`. -/
theorem Owns.toAvail (h : Owns (b :: hand) m) (h0 : (m.heap b).stopCopyChunkNum = 0) :
    Owns hand { m with availList := m.availList ++ [b] } := by
  refine { h with places := fun x => ?_, avail := fun c hc => ?_ }
  · have hp := h.places x
    have hlist := places_avail m (m.availList ++ [b]) x
    rw [count_cons_inSlot, inSlot_some] at hp
    simp only [count_append, List.count_singleton, beq_iff_eq] at hlist
    show _ = (m.live x).toNat
    omega
  · rcases List.mem_append.1 hc with hc | hc
    · exact h.avail c hc
    · rw [List.mem_singleton.1 hc]
      exact h0

/-- PUT: a buffer in hand goes to `avail_list`, without its chunk. -/
theorem Owns.put (h : Owns (b :: hand) m) : Owns hand (mlx5vfPutDataBuffer m b) :=
  (h.setBuf (fun x => { x with stopCopyChunkNum := 0 }) rfl ⟨Nat.zero_le _, fun _ => rfl⟩
    fun _ _ _ ht => congrArg snd ht).toAvail (by simp [Migf.setBuf])

/-- FREE: a buffer in hand is freed. -/
theorem Owns.free (h : Owns (b :: hand) m) : Owns hand (mlx5vfFreeDataBuffer m b) := by
  have hlive : ∀ c, (mlx5vfFreeDataBuffer m b).live c = true → m.live c = true := by
    intro c hc
    rcases eq_or_ne c b with rfl | hcb
    · simp [mlx5vfFreeDataBuffer] at hc
    · simpa [mlx5vfFreeDataBuffer, hcb] using hc
  refine { h with
    places := fun x => ?_
    fresh := fun c hc => h.fresh c (hlive c hc)
    uniq := fun a c ha hc => h.uniq a c (hlive a ha) (hlive c hc)
    chunk := fun c hc => h.chunk c (hlive c hc) }
  have hp := h.places x
  rcases eq_or_ne x b with rfl | hxb
  · obtain ⟨h0, hn⟩ := h.nowhere
    have hn := List.count_eq_zero.2 hn
    change m.places x + hand.count x = _
    simp [mlx5vfFreeDataBuffer, h0, hn]
  · rw [count_cons_inSlot, inSlot_some, if_neg (Ne.symm hxb)] at hp
    change m.places x + hand.count x = _
    simpa [mlx5vfFreeDataBuffer, hxb] using hp

/-- ALLOC: a new buffer comes into the hand. -/
theorem Owns.alloc (h : Owns hand m) (length : ℕ) (dmaNone : Bool) (al : Alloc) :
    Owns (m.fresh :: hand) (mlx5vfAllocDataBuffer m length dmaNone (some al)).1 := by
  have hdead : m.live m.fresh = false := by
    by_contra hne
    exact absurd (h.fresh m.fresh (by simpa using hne)) (by omega)
  have h0 : m.places m.fresh = 0 ∧ hand.count m.fresh = 0 := by
    have := h.places m.fresh
    rw [hdead, Bool.toNat_false] at this
    omega
  obtain ⟨hbuf, hheader, hfly, -, havail⟩ := not_in_places h0.1
  simp only [mlx5vfAllocDataBuffer]
  generalize hx : newBuf dmaNone length al = x
  have hchunk : x.stopCopyChunkNum = 0 := by rw [← hx]; rfl
  have htag : ∀ c, c ≠ m.fresh →
      ({ m with heap := update m.heap m.fresh x } : Migf).tag c = m.tag c := by
    intro c hc
    simp [Migf.tag, hc]
  have hlive : ∀ c, update m.live m.fresh true c = true → c = m.fresh ∨ m.live c = true := by
    intro c hc
    rcases eq_or_ne c m.fresh with rfl | hne
    · exact .inl rfl
    · exact .inr (by simpa [hne] using hc)
  refine ⟨?_, ?_, ?_, ?_, ?_, ?_, ?_, ?_⟩
  · intro c
    have hp := h.places c
    change m.places c + _ = _
    rcases eq_or_ne c m.fresh with rfl | hne
    · simp [h0]
    · simpa [hne, Ne.symm hne] using hp
  · intro c hc
    change c < m.fresh + 1
    rcases hlive c hc with rfl | hc
    · omega
    · have := h.fresh c hc
      omega
  · intro i c hc
    obtain ⟨hi, ht⟩ := h.slots i c hc
    have hne : c ≠ m.fresh := by rintro rfl; exact hbuf i hi hc
    exact ⟨hi, (htag c hne).trans ht⟩
  · intro i c hc
    obtain ⟨hi, ht⟩ := h.headers i c hc
    have hne : c ≠ m.fresh := by rintro rfl; exact hheader i hi hc
    exact ⟨hi, (htag c hne).trans ht⟩
  · intro c hc
    have hne : c ≠ m.fresh := by rintro rfl; exact havail hc
    simpa [hne] using h.avail c hc
  · intro hne
    have hf : m.flying = [m.async.buf, m.async.headerBuf] := if_neg hne
    rw [hf] at hfly
    simp only [mem_cons, List.not_mem_nil, or_false, not_or] at hfly
    simpa [Ne.symm hfly.1, Ne.symm hfly.2] using h.flying hne
  · intro c d hc hd hne ht
    rcases eq_or_ne c m.fresh with rfl | hcf
    · simp [hchunk]
    · rcases eq_or_ne d m.fresh with rfl | hdf
      · have := congrArg snd ht
        simpa [Migf.tag, hchunk] using this
      · have hc' := (hlive c hc).resolve_left hcf
        have hd' := (hlive d hd).resolve_left hdf
        have ht' : m.tag c = m.tag d := (htag c hcf).symm.trans (ht.trans (htag d hdf))
        simpa [hcf] using h.uniq c d hc' hd' hne ht'
  · intro c hc
    rcases eq_or_ne c m.fresh with rfl | hcf
    · simp [hchunk]
    · simpa [hcf] using h.chunk c ((hlive c hc).resolve_left hcf)

/-- The scan of `avail_list` splits it. -/
theorem scanAvail_spec (heap : ℕ → Buf) (length : ℕ) (dmaNone : Bool) (b : ℕ) : ∀ l : List ℕ,
    l.count b = (scanAvail heap length dmaNone l).1.count b +
      (scanAvail heap length dmaNone l).2.1.count b +
      (scanAvail heap length dmaNone l).2.2.toList.count b
  | [] => rfl
  | c :: l => by
    have ih := scanAvail_spec heap length dmaNone b l
    rw [scanAvail]
    generalize scanAvail heap length dmaNone l = r at ih ⊢
    obtain ⟨kept, free, found⟩ := r
    simp only at ih
    split_ifs
    · simp only [Option.toList_some, count_cons_inSlot, count_nil]
      omega
    · simp only [count_cons_inSlot]
      omega
    · simp only [count_cons_inSlot]
      omega

/-- What the scan finds fits. -/
theorem scanAvail_found (heap : ℕ → Buf) (length : ℕ) (dmaNone : Bool) : ∀ (l : List ℕ) (b : ℕ),
    (scanAvail heap length dmaNone l).2.2 = some b →
      b ∈ l ∧ (heap b).dmaNone = dmaNone ∧ length ≤ (heap b).allocatedLength
  | [], _, h => nomatch h
  | c :: l, b, h => by
    rw [scanAvail] at h
    split_ifs at h with hd hl
    · obtain rfl := Option.some.inj h
      exact ⟨mem_cons_self .., hd, hl⟩
    · obtain ⟨hm, hr⟩ := scanAvail_found heap length dmaNone l b h
      exact ⟨List.mem_cons_of_mem _ hm, hr⟩
    · obtain ⟨hm, hr⟩ := scanAvail_found heap length dmaNone l b h
      exact ⟨List.mem_cons_of_mem _ hm, hr⟩

/-- What allocating and freeing leave alone: everything but the heap's other buffers and
    `avail_list`. -/
structure Keeps (m m' : Migf) : Prop where
  eq : m' = { m with
    heap := m'.heap, live := m'.live, fresh := m'.fresh, availList := m'.availList }
  heap : ∀ b, m.live b = true → m'.heap b = m.heap b
  new : ∀ b, m'.live b = true → m.live b = true ∨ (m'.heap b).stopCopyChunkNum = 0

theorem freeAll_eq : ∀ (free : List ℕ) (m : Migf), ∃ live,
    free.foldl mlx5vfFreeDataBuffer m = { m with live := live } ∧
      ∀ b, live b = true → m.live b = true
  | [], m => ⟨m.live, rfl, fun _ h => h⟩
  | c :: free, m => by
    obtain ⟨live, heq, hl⟩ := freeAll_eq free (mlx5vfFreeDataBuffer m c)
    refine ⟨live, heq, fun b hb => ?_⟩
    have := hl b hb
    rcases eq_or_ne b c with rfl | hne
    · simp [mlx5vfFreeDataBuffer] at this
    · simpa [mlx5vfFreeDataBuffer, hne] using this

theorem Owns.freeAll : ∀ (free : List ℕ) (m : Migf), Owns (free ++ hand) m →
    Owns hand (free.foldl mlx5vfFreeDataBuffer m)
  | [], _, h => h
  | _ :: free, _, h => Owns.freeAll free _ (Owns.free h)

/-- Ownership does not depend on the order of the hand. -/
theorem Owns.perm {hand' : List ℕ} (h : Owns hand m) (hp : ∀ b, hand'.count b = hand.count b) :
    Owns hand' m :=
  { h with places := fun b => by rw [hp]; exact h.places b }

/-- GET: `mlx5vf_get_data_buffer` brings a buffer that fits into the hand, or fails; the buffers it
    finds too small are freed. -/
theorem mlx5vfGetDataBuffer_spec (h : Owns hand m) (length : ℕ) (dmaNone : Bool)
    (alloc : Option Alloc) :
    Owns ((mlx5vfGetDataBuffer m length dmaNone alloc).2.toList ++ hand)
        (mlx5vfGetDataBuffer m length dmaNone alloc).1 ∧
      Keeps m (mlx5vfGetDataBuffer m length dmaNone alloc).1 ∧
      ∀ b, (mlx5vfGetDataBuffer m length dmaNone alloc).2 = some b →
        ((mlx5vfGetDataBuffer m length dmaNone alloc).1.tag b = (dmaNone, 0)) := by
  have hscan := fun c => scanAvail_spec m.heap length dmaNone c m.availList
  have hfound := scanAvail_found m.heap length dmaNone m.availList
  unfold mlx5vfGetDataBuffer
  generalize scanAvail m.heap length dmaNone m.availList = sc at hscan hfound ⊢
  obtain ⟨kept, free, found⟩ := sc
  simp only at hscan hfound ⊢
  have hkept : Owns (free ++ (found.toList ++ hand)) { m with availList := kept } := by
    refine { h with places := fun c => ?_, avail := fun c hc => h.avail c ?_ }
    · have hp := h.places c
      have hl := places_avail m kept c
      have hs := hscan c
      rw [count_append, count_append]
      show _ = (m.live c).toNat
      omega
    · have hs := hscan c
      have hc : c ∈ kept := hc
      have := count_pos_iff.2 hc
      exact count_pos_iff.1 (by omega)
  cases found with
  | some b =>
    obtain ⟨live, heq, hl⟩ := freeAll_eq free { m with availList := kept }
    have hown := hkept.freeAll _ _
    obtain ⟨hmem, hdma, -⟩ := hfound b rfl
    have h0 := h.avail b hmem
    simp only [heq] at hown ⊢
    refine ⟨hown, ⟨rfl, fun _ _ => rfl, fun c hc => .inl (hl c hc)⟩, ?_⟩
    rintro _ ⟨⟩
    exact ext hdma h0
  | none =>
    cases alloc with
    | none =>
      obtain ⟨live, heq, hl⟩ := freeAll_eq free { m with availList := kept }
      have hown := hkept.freeAll _ _
      simp only [mlx5vfAllocDataBuffer, heq] at hown ⊢
      exact ⟨hown, ⟨rfl, fun _ _ => rfl, fun c hc => .inl (hl c hc)⟩, nofun⟩
    | some al =>
      have hown : Owns (free ++ (m.fresh :: hand)) _ :=
        (hkept.alloc length dmaNone al).perm fun c => by
          simp only [count_append, count_cons_inSlot, Option.toList_none, count_nil]
          omega
      have hown := hown.freeAll _ _
      obtain ⟨live, heq, hl⟩ := freeAll_eq free
        (mlx5vfAllocDataBuffer { m with availList := kept } length dmaNone (some al)).1
      simp only [mlx5vfAllocDataBuffer] at hown heq hl ⊢
      rw [heq] at hown ⊢
      refine ⟨hown, ⟨rfl, fun c hc => ?_, fun c hc => ?_⟩, ?_⟩
      · have hne : c ≠ m.fresh := by
          rintro rfl
          exact absurd (h.fresh _ hc) (by omega)
        exact update_of_ne hne _ _
      · rcases eq_or_ne c m.fresh with rfl | hne
        · exact .inr (by simp [newBuf])
        · have := hl c hc
          rw [update_of_ne hne] at this
          exact .inl this
      · rintro _ ⟨⟩
        simp [Migf.tag, newBuf]

/-- STOP-COPY BUFFER: the buffer of slot `index`, or a larger one in its stead, comes into the hand
    with the chunk of the slot. -/
theorem mlx5vfMigFileGetStopCopyBuf_spec (h : Owns hand m) {index : ℕ} (requiredLength : ℕ)
    (alloc : Option Alloc) (hslot : (m.buf index).isSome) :
    Owns ((mlx5vfMigFileGetStopCopyBuf m index requiredLength alloc).2.toList ++ hand)
        (mlx5vfMigFileGetStopCopyBuf m index requiredLength alloc).1 ∧
      (mlx5vfMigFileGetStopCopyBuf m index requiredLength alloc).1 = { m with
          buf := update m.buf index none
          heap := (mlx5vfMigFileGetStopCopyBuf m index requiredLength alloc).1.heap
          live := (mlx5vfMigFileGetStopCopyBuf m index requiredLength alloc).1.live
          fresh := (mlx5vfMigFileGetStopCopyBuf m index requiredLength alloc).1.fresh
          availList := (mlx5vfMigFileGetStopCopyBuf m index requiredLength alloc).1.availList } ∧
      (∀ c ∈ m.bufList, (mlx5vfMigFileGetStopCopyBuf m index requiredLength alloc).1.heap c =
        m.heap c) ∧ ∀ b, (mlx5vfMigFileGetStopCopyBuf m index requiredLength alloc).2 = some b →
        (mlx5vfMigFileGetStopCopyBuf m index requiredLength alloc).1.tag b =
          (false, m.slotChunk index) := by
  obtain ⟨b, hb⟩ := Option.isSome_iff_exists.1 hslot
  obtain ⟨hi, htag⟩ := h.slots index b hb
  have htake : Owns (b :: hand) { m with buf := update m.buf index none } :=
    h.takeSlot (k := false) hb
  have hlist : ∀ c ∈ m.bufList, c ≠ b := by
    rintro c hc rfl
    exact (not_in_places htake.nowhere.1).2.2.2.1 hc
  unfold mlx5vfMigFileGetStopCopyBuf
  simp only [hb]
  split_ifs
  · refine ⟨htake, rfl, fun _ _ => rfl, ?_⟩
    rintro _ ⟨⟩
    exact htag
  · have hput := htake.put
    obtain ⟨hown, hkeep, hfound⟩ := mlx5vfGetDataBuffer_spec hput requiredLength false alloc
    generalize hg : mlx5vfGetDataBuffer _ requiredLength false alloc = g at hown hkeep hfound ⊢
    obtain ⟨g, r⟩ := g
    simp only at hown hkeep hfound ⊢
    have hheap : ∀ c ∈ m.bufList, g.heap c = m.heap c := by
      intro c hc
      have hlive : m.live c = true := h.live_of_place (by
        have := count_pos_iff.2 hc
        simp only [Migf.places]
        omega)
      rw [hkeep.heap c hlive]
      exact update_of_ne (hlist c hc) _ _
    cases r with
    | none =>
      refine ⟨hown, ?_, hheap, nofun⟩
      exact hkeep.eq
    | some x =>
      have hx := hfound x rfl
      have hmode : g.chunkMode = m.chunkMode := by rw [hkeep.eq]; rfl
      have hchunkb : (m.heap b).stopCopyChunkNum = m.slotChunk index := congrArg snd htag
      have hlx : ∀ c ∈ m.bufList, c ≠ x := by
        rintro c hc rfl
        refine (not_in_places hown.nowhere.1).2.2.2.1 ?_
        rw [hkeep.eq]
        exact hc
      have hset := Owns.setBuf hown
        (fun y => { y with stopCopyChunkNum := (m.heap b).stopCopyChunkNum }) rfl ?_ ?_
      · refine ⟨hset, ?_, fun c hc => ?_, ?_⟩
        · dsimp only
          conv_lhs => rw [hkeep.eq]
          rfl
        · rw [← hheap c hc]
          exact update_of_ne (hlx c hc) _ _
        · rintro _ ⟨⟩
          refine ext ?_ ?_
          · have := congrArg fst hx
            simpa [Migf.tag, Migf.setBuf] using this
          · simpa [Migf.tag, Migf.setBuf] using hchunkb
      · rw [hmode]
        exact h.chunk b (h.live_of_place (h.slot_pos (k := false) hb))
      · -- the one buffer with this chunk was `b`, which has none now
        intro a ha hax hta
        rcases hkeep.new a ha with hl | h0
        · have hga := hkeep.heap a hl
          rcases eq_or_ne a b with rfl | hab
          · rw [hga]
            simp [mlx5vfPutDataBuffer, Migf.setBuf]
          · have hpa : (mlx5vfPutDataBuffer
                { m with buf := update m.buf index none } b).heap a = m.heap a :=
              update_of_ne hab _ _
            rw [hga, hpa]
            refine h.uniq a b hl (htake.live_of_hand (mem_cons_self ..)) hab ?_
            have hda := congrArg fst hta
            have hca := congrArg snd hta
            simp only [Migf.tag, hga, hpa] at hda hca
            refine ext (hda.trans ?_) hca
            exact (congrArg fst hx).trans (congrArg fst htag).symm
        · exact h0

theorem Migf.flying_none (h : m.outstanding + m.cleanups = 0) : m.flying = [] := if_pos h

theorem Migf.flying_some (h : m.outstanding + m.cleanups ≠ 0) :
    m.flying = [m.async.buf, m.async.headerBuf] := if_neg h

/-- FLY: a data buffer and a header buffer in hand go out with a save. -/
theorem Owns.fly {x : ℕ} (h : Owns (x :: b :: hand) m) (h0 : m.outstanding + m.cleanups = 0)
    (hb : (m.heap b).dmaNone = false) (hx : (m.heap x).dmaNone = true) (chunk : Bool) :
    Owns hand { m with async := ⟨b, x, chunk⟩, outstanding := m.outstanding + 1 } := by
  refine { h with places := fun c => ?_, flying := fun _ => ⟨hb, hx⟩ }
  have hp := h.places c
  rw [count_cons_inSlot, count_cons_inSlot] at hp
  simp only [Migf.places, Migf.flying_none h0, count_nil] at hp
  have hf : ({ m with async := ⟨b, x, chunk⟩, outstanding := m.outstanding + 1 } : Migf).flying =
      [b, x] := Migf.flying_some (by
    show m.outstanding + 1 + m.cleanups ≠ 0
    omega)
  simp only [Migf.places, hf, count_cons_inSlot, count_nil]
  omega

/-- LAND: when the save is over its buffers come into the hand. -/
theorem Owns.land (h : Owns hand m) (h0 : m.outstanding + m.cleanups ≠ 0) {o c : ℕ}
    (hoc : o + c = 0) :
    Owns (m.async.buf :: m.async.headerBuf :: hand) { m with outstanding := o, cleanups := c } := by
  refine { h with places := fun x => ?_, flying := fun hne => absurd hoc hne }
  have hp := h.places x
  simp only [Migf.places, Migf.flying_some h0, count_cons_inSlot, count_nil] at hp
  have hf : ({ m with outstanding := o, cleanups := c } : Migf).flying = [] := Migf.flying_none hoc
  simp only [Migf.places, hf, count_cons_inSlot, count_nil]
  omega

theorem Owns.toList (h : Owns (b :: hand) m) :
    Owns hand { m with bufList := m.bufList ++ [b] } := by
  refine { h with places := fun x => ?_ }
  have hp := h.places x
  have hl := places_list m (m.bufList ++ [b]) x
  rw [count_cons_inSlot, inSlot_some] at hp
  simp only [count_append, List.count_singleton, beq_iff_eq] at hl
  show _ = (m.live x).toNat
  omega

/-- ENLIST: a buffer in hand goes to `buf_list` with a record. -/
theorem Owns.enlist (h : Owns (b :: hand) m) (l : List ℕ) : Owns hand (addRecord m b l) := by
  have hlive := h.live_of_hand (mem_cons_self ..)
  have hset := h.setBuf
    (fun x => { x with mem := writeAt x.mem 0 l, length := l.length, startPos := m.maxPos }) rfl
    (h.chunk b hlive) (fun a ha hab ht => h.uniq a b ha hlive hab ht)
  exact { hset.toList with }

theorem Owns.live_of_list (h : Owns hand m) (hb : b ∈ m.bufList) : m.live b = true :=
  h.live_of_place (by
    have := count_pos_iff.2 hb
    simp only [Migf.places]
    omega)

/-- UNLIST: a buffer of `buf_list` comes into the hand. -/
theorem Owns.unlist (h : Owns hand m) (hb : b ∈ m.bufList) :
    Owns (b :: hand) { m with bufList := m.bufList.erase b } := by
  refine { h with places := fun x => ?_ }
  have hp := h.places x
  have hl := places_list m (m.bufList.erase b) x
  have hpos := count_pos_iff.2 hb
  rw [count_cons_inSlot, inSlot_some]
  rw [List.count_erase] at hl
  rcases eq_or_ne b x with rfl | hne
  · simp only [BEq.rfl, if_true] at hl ⊢
    omega
  · simp only [beq_iff_eq, hne, if_false] at hl ⊢
    omega

theorem Owns.list_nodup (h : Owns hand m) : m.bufList.Nodup := by
  rw [List.nodup_iff_count]
  intro x
  have hp := h.places x
  have := Bool.toNat_le (m.live x)
  simp only [Migf.places] at hp
  omega

/-- The save is one of stop-copy, so firmware gives a chunk. -/
def stopCopyChunk (state : MigfState) (inc track : Bool) : Bool :=
  !track && !(decide (state = .preCopy ∨ state = .preCopyError) && !track && !inc)

/-- What a save does: the buffer in hand goes out with a header, or it stays in hand and no save is
    active. The records in `buf_list` are left alone. -/
inductive SaveResult (hand : List ℕ) (b : ℕ) (chunk : Bool) (m : Migf) : Migf × Bool → Prop
  | issued (heap : ℕ → Buf) (live : ℕ → Bool) (fresh : ℕ) (header : ℕ → Option ℕ)
      (avail : List ℕ) (x : ℕ) (hlist : ∀ c ∈ m.bufList, heap c = m.heap c)
      (hb : heap b = m.heap b)
      (hown : Owns hand { m with
        heap := heap, live := live, fresh := fresh, bufHeader := header, availList := avail
        saveComp := 0, state := if chunk then .saveStopCopyChunk else m.state
        async := ⟨b, x, chunk⟩, outstanding := m.outstanding + 1, filpRefs := m.filpRefs + 1 }) :
      SaveResult hand b chunk m ({ m with
        heap := heap, live := live, fresh := fresh, bufHeader := header, availList := avail
        saveComp := 0, state := if chunk then .saveStopCopyChunk else m.state
        async := ⟨b, x, chunk⟩, outstanding := m.outstanding + 1
        filpRefs := m.filpRefs + 1 }, true)
  | failed (heap : ℕ → Buf) (live : ℕ → Bool) (fresh : ℕ) (header : ℕ → Option ℕ)
      (avail : List ℕ) (state : MigfState) (hlist : ∀ c ∈ m.bufList, heap c = m.heap c)
      (hb : heap b = m.heap b)
      (hown : Owns (b :: hand) { m with
        heap := heap, live := live, fresh := fresh, bufHeader := header, availList := avail
        state := state }) :
      SaveResult hand b chunk m ({ m with
        heap := heap, live := live, fresh := fresh, bufHeader := header, availList := avail
        state := state }, false)

/-- The header that a save takes from its slot, or else from `avail_list`. -/
def saveHeader (m : Migf) (chunk : Bool) (idx : ℕ) (alloc : Option Alloc) : Migf × Option ℕ :=
  match if chunk then m.bufHeader idx else none with
  | some x => (if chunk then
      { m with bufHeader := update m.bufHeader idx none } else m, some x)
  | none => mlx5vfGetDataBuffer (if chunk then
      { m with bufHeader := update m.bufHeader idx none } else m) HEADER_SIZE true alloc

theorem mlx5vfCmdSaveVhcaState_eq (m : Migf) (b : ℕ) (inc track : Bool) (env : SaveEnv)
    (hw : env.waits = true) (h1 : m.saveComp ≠ 0) (ho : env.out = true) :
    mlx5vfCmdSaveVhcaState m b inc track env =
      match saveHeader { m with saveComp := m.saveComp - 1 } (stopCopyChunk m.state inc track)
        ((m.heap b).stopCopyChunkNum - 1) env.header with
      | (m', none) => ({ m' with saveComp := m'.saveComp + 1 }, false)
      | (m', some x) =>
        let m' := if stopCopyChunk m.state inc track then
          { m' with state := .saveStopCopyChunk } else m'
        if env.exec then
          ({ m' with
            async := ⟨b, x, stopCopyChunk m.state inc track⟩
            outstanding := m'.outstanding + 1
            filpRefs := m'.filpRefs + 1 }, true)
        else
          let m' := mlx5vfPutDataBuffer m' x
          ({ m' with saveComp := m'.saveComp + 1 }, false) := by
  simp only [mlx5vfCmdSaveVhcaState, hw, ho, h1, saveHeader, stopCopyChunk]
  rcases Bool.eq_false_or_eq_true (!track &&
    !(decide (m.state = .preCopy ∨ m.state = .preCopyError) && !track && !inc)) with hc | hc
  · simp only [hc, if_true]
    cases m.bufHeader ((m.heap b).stopCopyChunkNum - 1) with
    | some x => rfl
    | none =>
      generalize mlx5vfGetDataBuffer _ _ _ _ = p
      obtain ⟨g, _ | x⟩ := p <;> rfl
  · simp only [hc]
    generalize mlx5vfGetDataBuffer _ _ _ _ = p
    obtain ⟨g, _ | x⟩ := p <;> rfl

theorem saveHeader_spec (h : Owns (b :: hand) m) (chunk : Bool) (idx : ℕ) (alloc : Option Alloc)
    (p : Migf × Option ℕ) (hp : saveHeader m chunk idx alloc = p) :
    Owns (p.2.toList ++ b :: hand) p.1 ∧ (∃ header, p.1 = { m with
        heap := p.1.heap, live := p.1.live, fresh := p.1.fresh, availList := p.1.availList
        bufHeader := header }) ∧ (∀ c ∈ m.bufList, p.1.heap c = m.heap c) ∧ p.1.heap b = m.heap b ∧
      ∀ x, p.2 = some x → (p.1.heap x).dmaNone = true := by
  replace hp := hp.symm
  unfold saveHeader at hp
  have hlive := h.live_of_hand (mem_cons_self ..)
  have hnew : ∀ m₁ : Migf, Owns (b :: hand) m₁ → m₁.heap = m.heap → m₁.live = m.live →
      (∃ header, m₁ = { m with bufHeader := header }) →
      p = mlx5vfGetDataBuffer m₁ HEADER_SIZE true alloc → Owns (p.2.toList ++ b :: hand) p.1 ∧
      (∃ header, p.1 = { m with
        heap := p.1.heap, live := p.1.live, fresh := p.1.fresh, availList := p.1.availList
        bufHeader := header }) ∧ (∀ c ∈ m.bufList, p.1.heap c = m.heap c) ∧ p.1.heap b = m.heap b ∧
      ∀ x, p.2 = some x → (p.1.heap x).dmaNone = true := by
    rintro m₁ h₁ hheap hl ⟨header, heq⟩ rfl
    obtain ⟨hown, hkeep, htag⟩ := mlx5vfGetDataBuffer_spec h₁ HEADER_SIZE true alloc
    refine ⟨hown, ⟨header, ?_⟩, fun c hc => ?_, ?_, fun x hx => ?_⟩
    · conv_lhs => rw [hkeep.eq]
      rw [heq]
    · rw [hkeep.heap c (by rw [hl]; exact h.live_of_list hc), hheap]
    · rw [hkeep.heap b (by rw [hl]; exact hlive), hheap]
    · exact congrArg fst (htag x hx)
  cases chunk with
  | false => exact hnew m h rfl rfl ⟨m.bufHeader, rfl⟩ hp
  | true =>
    cases hs : m.bufHeader idx with
    | none =>
      rw [hs] at hp
      exact hnew _ (h.emptyHeader hs) rfl rfl ⟨_, rfl⟩ hp
    | some x =>
      rw [hs] at hp
      subst hp
      refine ⟨h.takeSlot (k := true) hs, ⟨_, rfl⟩, fun _ _ => rfl, rfl, ?_⟩
      rintro _ ⟨⟩
      exact congrArg fst (h.headers idx x hs).2

/-- SAVE: `mlx5vf_cmd_save_vhca_state` of a data buffer in hand, when no save is active. -/
theorem mlx5vfCmdSaveVhcaState_spec (h : Owns (b :: hand) m) (hb : (m.heap b).dmaNone = false)
    (h0 : m.outstanding + m.cleanups = 0) (h1 : m.saveComp = 1) (inc track : Bool) (env : SaveEnv) :
    SaveResult hand b (stopCopyChunk m.state inc track) m
      (mlx5vfCmdSaveVhcaState m b inc track env) := by
  have hsame : SaveResult hand b (stopCopyChunk m.state inc track) m (m, false) :=
    .failed m.heap m.live m.fresh m.bufHeader m.availList m.state (fun _ _ => rfl) rfl h
  have hcomp : ({ m with saveComp := 0 + 1 } : Migf) = m := by rw [Nat.zero_add, ← h1]
  cases hw : env.waits with
  | false => simpa only [mlx5vfCmdSaveVhcaState, hw, true_or, if_true] using hsame
  | true =>
    cases ho : env.out with
    | false =>
      simpa only [mlx5vfCmdSaveVhcaState, hw, ho, h1, one_ne_zero, Bool.true_eq_false,
        or_self, if_false, if_true, hcomp] using hsame
    | true =>
      rw [mlx5vfCmdSaveVhcaState_eq m b inc track env hw (by omega) ho, h1, Nat.sub_self]
      have h' : Owns (b :: hand) { m with saveComp := 0 } := { h with }
      generalize hp : saveHeader _ _ _ env.header = p
      obtain ⟨hown, ⟨header, heq⟩, hlist, hbuf, hdma⟩ := saveHeader_spec h' _ _ _ p hp
      generalize stopCopyChunk m.state inc track = chunk
      obtain ⟨g, o⟩ := p
      obtain ⟨heap, live, fresh, avail, hg⟩ : ∃ heap live fresh avail, g = { m with
          heap := heap, live := live, fresh := fresh, availList := avail, bufHeader := header
          saveComp := 0 } := ⟨_, _, _, _, heq⟩
      subst hg
      cases o with
      | none =>
        simp only [Nat.zero_add, ← h1]
        exact .failed heap live fresh header avail m.state hlist hbuf { hown with }
      | some x =>
        have hx := hdma x rfl
        have hfly := Owns.fly hown h0 (hbuf ▸ hb) hx chunk
        cases env.exec with
        | true =>
          have := @SaveResult.issued hand b chunk m heap live fresh header avail x hlist hbuf
            { hfly with }
          cases chunk <;> exact this
        | false =>
          have hput := hown.put
          have hxl : ∀ c ∈ m.bufList, c ≠ x := by
            rintro c hc rfl
            exact (not_in_places hown.nowhere.1).2.2.2.1 hc
          have hxb : b ≠ x := by
            rintro rfl
            exact hown.nowhere.2 (mem_cons_self ..)
          have := @SaveResult.failed hand b chunk m
            (update heap x { heap x with stopCopyChunkNum := 0 }) live fresh header
            (avail ++ [x]) (if chunk then .saveStopCopyChunk else m.state)
            (fun c hc => (update_of_ne (hxl c hc) _ _).trans (hlist c hc))
            ((update_of_ne hxb _ _).trans hbuf) { hput with }
          cases chunk <;> simpa [h1, mlx5vfPutDataBuffer, Migf.setBuf] using this

end RdmaDriver.SaveFile
