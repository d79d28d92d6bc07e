import RdmaDriver.Basic
import Mathlib.Data.List.Basic

/-! @src include/linux/sunrpc/rpc_rdma.h | name:words of a transport header | scheme:stream |
    family:parser

    A transport header is a string of big-endian words. The stream hands them out in order; what was
    not handed out is not to be read, so a read of it is a fault (`none`).

        words   w0 w1 w2 w3 | w4 w5 ...
                 handed out ^ st                                                              -/

namespace RdmaDriver.Xdr

/-- `be32_to_cpu` of four bytes. -/
def be32ToCpu (a b c d : UInt8) : ℕ :=
  ((a.toNat * 256 + b.toNat) * 256 + c.toNat) * 256 + d.toNat

/-- The words of a received string. -/
def words : List UInt8 → List ℕ
  | a :: b :: c :: d :: bytes => be32ToCpu a b c d :: words bytes
  | _ => []

/-- `xdr_inline_decode` of `n` words: they start where the stream stands, and it goes on behind them. -/
def inlineDecode (buf : List ℕ) (st n : ℕ) : Option ℕ :=
  if st + n ≤ buf.length then some (st + n) else none

/-- A word that the stream at `st` has handed out. -/
def deref (buf : List ℕ) (st p : ℕ) : Option ℕ := if p < st then buf[p]? else none

/-- `struct svc_rdma_segment`. -/
structure Segment where
  rsHandle : ℕ
  rsLength : ℕ
  rsOffset : ℕ
  deriving DecidableEq

/-- `xdr_decode_rdma_segment`. -/
def decodeRdmaSegment (buf : List ℕ) (st p : ℕ) : Option Segment := do
  let handle ← deref buf st p
  let length ← deref buf st (p + 1)
  let high ← deref buf st (p + 2)
  let low ← deref buf st (p + 3)
  return ⟨handle, length, high * 2 ^ 32 + low⟩

/-- `xdr_decode_read_segment`. -/
def decodeReadSegment (buf : List ℕ) (st p : ℕ) : Option (ℕ × Segment) := do
  let position ← deref buf st p
  let segment ← decodeRdmaSegment buf st (p + 1)
  return (position, segment)

/-- `xdr_encode_rdma_segment`. -/
def Segment.words (s : Segment) : List ℕ :=
  [s.rsHandle, s.rsLength, s.rsOffset / 2 ^ 32, s.rsOffset % 2 ^ 32]

/-- The fields of a segment fit their words. -/
structure Segment.Fits (s : Segment) : Prop where
  handle : s.rsHandle < 2 ^ 32
  length : s.rsLength < 2 ^ 32
  offset : s.rsOffset < 2 ^ 64

section Words

variable {buf rest : List ℕ} {st n p q : ℕ} {w : ℕ} {s : Segment}

theorem words_lt : ∀ (bytes : List UInt8), ∀ w ∈ words bytes, w < 2 ^ 32
  | a :: b :: c :: d :: bytes, w, h => by
    rcases List.mem_cons.mp h with rfl | h
    · have ha := a.toNat_lt
      have hb := b.toNat_lt
      have hc := c.toNat_lt
      have hd := d.toNat_lt
      unfold be32ToCpu
      omega
    · exact words_lt bytes w h
  | [], _, h => by cases h
  | [_], _, h => by cases h
  | [_, _], _, h => by cases h
  | [_, _, _], _, h => by cases h

theorem inlineDecode_some (h : inlineDecode buf st n = some q) :
    q = st + n ∧ q ≤ buf.length := by
  unfold inlineDecode at h
  split at h
  · cases h
    exact ⟨rfl, by assumption⟩
  · cases h

/-- The words from a place on, when the first of them is known. -/
theorem drop_succ (h : buf.drop p = w :: rest) : buf.drop (p + 1) = rest := by
  rw [← List.drop_drop, h]
  rfl

theorem drop_append {l : List ℕ} (h : buf.drop p = l ++ rest) : buf.drop (p + l.length) = rest := by
  rw [← List.drop_drop, h, List.drop_left]

theorem deref_drop (h : buf.drop p = w :: rest) (hp : p < st) : deref buf st p = some w := by
  unfold deref
  rw [if_pos hp, ← List.head?_drop, h]
  rfl

/-- There is a word before the end. -/
theorem exists_word (buf : List ℕ) (p : ℕ) (h : p < buf.length) :
    ∃ w rest, buf.drop p = w :: rest ∧ w ∈ buf :=
  ⟨buf[p], buf.drop (p + 1), List.drop_eq_getElem_cons h, List.getElem_mem h⟩

theorem segment_length (s : Segment) : s.words.length = 4 := rfl

/-- A segment is decoded from its words. -/
theorem decodeRdmaSegment_words (h : buf.drop p = s.words ++ rest) (hp : p + 4 ≤ st) :
    decodeRdmaSegment buf st p = some s := by
  have h₁ := drop_succ h
  have h₂ := drop_succ h₁
  have h₃ := drop_succ h₂
  unfold decodeRdmaSegment
  rw [deref_drop h (by omega), deref_drop h₁ (by omega), deref_drop h₂ (by omega),
    deref_drop h₃ (by omega)]
  change some (Segment.mk _ _ (s.rsOffset / 2 ^ 32 * 2 ^ 32 + s.rsOffset % 2 ^ 32)) = some s
  rw [Nat.div_add_mod']

/-- Four words are those of a segment. -/
theorem exists_segment (hlt : ∀ w ∈ buf, w < 2 ^ 32) (h : p + 4 ≤ buf.length) :
    ∃ s : Segment, s.Fits ∧ ∃ rest, buf.drop p = s.words ++ rest := by
  obtain ⟨handle, rest, h₀, hhandle⟩ := exists_word buf p (by omega)
  obtain ⟨length, rest₁, h₁, hlength⟩ := exists_word buf (p + 1) (by omega)
  obtain ⟨high, rest₂, h₂, hhigh⟩ := exists_word buf (p + 2) (by omega)
  obtain ⟨low, rest₃, h₃, hlow⟩ := exists_word buf (p + 3) (by omega)
  have hhandle := hlt _ hhandle
  have hlength := hlt _ hlength
  have hhigh := hlt _ hhigh
  have hlow := hlt _ hlow
  refine ⟨⟨handle, length, high * 2 ^ 32 + low⟩, ⟨hhandle, hlength, by dsimp only; omega⟩, rest₃, ?_⟩
  have hdiv : (high * 2 ^ 32 + low) / 2 ^ 32 = high := by omega
  have hmod : (high * 2 ^ 32 + low) % 2 ^ 32 = low := by omega
  rw [Segment.words, hdiv, hmod, h₀, ← drop_succ h₀, h₁, ← drop_succ h₁, h₂, ← drop_succ h₂, h₃]
  rfl

end Words

end RdmaDriver.Xdr
