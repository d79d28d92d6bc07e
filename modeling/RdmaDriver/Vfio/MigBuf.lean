import RdmaDriver.Schemes.ByteMem
import Mathlib.Algebra.Ring.Nat
import Mathlib.Tactic.Common

/-! @src drivers/vfio/pci/mlx5/main.c | name:Migration buffers | scheme:bytes | family:sg-table

    A migration buffer is a list of scatter-gather entries of whole pages. Accesses are sequential,
    so the buffer remembers the entry of its last access and the offset at which that entry starts;
    an access further back starts over:

        entry  0     1           2       3
        pages  ▢▢    ▢▢▢         ▢       ▢▢
                     ▴ last_offset_sg, last_offset = 2 pages

    A recycled buffer keeps its table and its cursor. -/

namespace RdmaDriver.MigBuf
open RdmaDriver.Schemes

def PAGE_SIZE : ℕ := 4096

/-- `struct mlx5_vhca_data_buffer`. `segs` is its table: the pages of each entry; `mem` are the
    bytes of its pages, one page after the other; `dmaNone` tells `DMA_NONE`, a header buffer. -/
structure Buf where
  dmaNone : Bool
  stopCopyChunkNum : ℕ
  segs : List ℕ
  mem : ℕ → ℕ
  lastOffsetSg : Option ℕ
  sgLastEntry : ℕ
  lastOffset : ℕ
  startPos : ℕ
  length : ℕ

/-- `allocated_length`. -/
def Buf.allocatedLength (b : Buf) : ℕ := b.segs.sum * PAGE_SIZE

/-- The loop of `mlx5vf_get_migration_page`: from the `i`-th of the entries, at `cur`, to the one
    that holds `offset`. -/
def findSg (offset : ℕ) : ℕ → ℕ → List ℕ → Option (ℕ × ℕ)
  | _, _, [] => none
  | i, cur, seg :: segs =>
    if offset < seg * PAGE_SIZE + cur then some (i, cur)
    else findSg offset (i + 1) (cur + seg * PAGE_SIZE) segs

/-- The start over of `mlx5vf_get_migration_page`. -/
def Buf.rewind (b : Buf) (offset : ℕ) : Buf :=
  if offset < b.lastOffset ∨ b.lastOffsetSg = none then
    { b with lastOffset := 0, lastOffsetSg := some 0, sgLastEntry := 0 }
  else b

/-- `mlx5vf_get_migration_page`. A page is named by how many pages lie before it in the table. -/
def mlx5vfGetMigrationPage (b : Buf) (offset : ℕ) : Option ℕ × Buf :=
  let b := b.rewind offset
  let first := b.lastOffsetSg.getD 0
  match findSg offset 0 b.lastOffset ((b.segs.drop first).take (b.segs.length - b.sgLastEntry)) with
  | some (i, cur) =>
    (some ((b.segs.take (first + i)).sum + (offset - cur) / PAGE_SIZE), { b with
        lastOffsetSg := some (first + i)
        sgLastEntry := b.sgLastEntry + i
        lastOffset := cur })
  | none => (none, b)

/-- The loop of `mlx5vf_buf_read`: it copies a page's worth a turn. The fuel is the length. -/
def readLoop : ℕ → Buf → ℕ → ℕ → Option (List ℕ × Buf)
  | 0, b, _, _ => some ([], b)
  | fuel + 1, b, pos, copyLen =>
    if copyLen = 0 then some ([], b)
    else
      let offset := pos - b.startPos
      let pageOffset := offset % PAGE_SIZE
      match mlx5vfGetMigrationPage b (offset - pageOffset) with
      | (none, _) => none
      | (some page, b) =>
        let pageLen := min copyLen (PAGE_SIZE - pageOffset)
        match readLoop fuel b (pos + pageLen) (copyLen - pageLen) with
        | none => none
        | some (bytes, b') =>
          some (slice b.mem (page * PAGE_SIZE + pageOffset) pageLen ++ bytes, b')

/-- `mlx5vf_buf_read` up to `mlx5vf_buf_read_done`: the bytes it copies to a reader that asks for
    `len` at `pos`. A failing copy to the user is not modelled. -/
def mlx5vfBufRead (b : Buf) (pos len : ℕ) : Option (List ℕ × Buf) :=
  let copyLen := min (b.startPos + b.length - pos) len
  readLoop copyLen b pos copyLen

/-- The cursor points at the entry it says, which starts where it says. -/
def Buf.Cursor (b : Buf) : Prop :=
  ∀ e, b.lastOffsetSg = some e →
    e = b.sgLastEntry ∧ e ≤ b.segs.length ∧ b.lastOffset = (b.segs.take e).sum * PAGE_SIZE

/-- Two buffers that differ in their cursors only. -/
def SameBuf (b b' : Buf) : Prop :=
  b' = { b with
    lastOffsetSg := b'.lastOffsetSg, sgLastEntry := b'.sgLastEntry, lastOffset := b'.lastOffset }

theorem SameBuf.trans {b b' b'' : Buf} (h : SameBuf b b') (h' : SameBuf b' b'') : SameBuf b b'' := by
  unfold SameBuf at *
  rw [h', h]

variable {b : Buf} {offset : ℕ}

/-- Finding a page moves the cursor and nothing else. -/
theorem mlx5vfGetMigrationPage_same (b : Buf) (offset : ℕ) :
    SameBuf b (mlx5vfGetMigrationPage b offset).2 := by
  have hrew : SameBuf b (b.rewind offset) := by
    unfold Buf.rewind
    split_ifs
    · rfl
    · rfl
  refine hrew.trans ?_
  unfold mlx5vfGetMigrationPage
  dsimp only
  generalize findSg offset 0 _ _ = r
  cases r with
  | none => rfl
  | some r => rfl

theorem readLoop_same : ∀ (fuel : ℕ) (b : Buf) (pos copyLen : ℕ) (l : List ℕ) (b' : Buf),
    readLoop fuel b pos copyLen = some (l, b') → SameBuf b b'
  | 0, b, _, _, _, _, h => by
    rw [readLoop] at h
    cases h
    rfl
  | fuel + 1, b, pos, copyLen, l, b', h => by
    rw [readLoop] at h
    split_ifs at h with h0
    · cases h
      rfl
    dsimp only at h
    have hpage := mlx5vfGetMigrationPage_same b (pos - b.startPos - (pos - b.startPos) % PAGE_SIZE)
    generalize mlx5vfGetMigrationPage b (pos - b.startPos - (pos - b.startPos) % PAGE_SIZE) = r
      at h hpage
    obtain ⟨_ | page, b₁⟩ := r
    · exact nomatch h
    dsimp only at h hpage
    generalize hr : readLoop fuel b₁ _ _ = r at h
    cases r with
    | none => exact nomatch h
    | some r =>
      obtain ⟨bytes, b₂⟩ := r
      cases h
      exact hpage.trans (readLoop_same fuel b₁ _ _ bytes _ hr)

end RdmaDriver.MigBuf
