import Mathlib.Data.List.Pairwise
import RdmaDriver.Basic
import RdmaDriver.Schemes.BeBits

/-! @src drivers/infiniband/core/packer.c | name:Packing by field tables | scheme:bits |
    family:format

    `ib_pack` and `ib_unpack` move the fields of a table between a structure and a buffer. A field
    of up to 32 bits is shifted and masked in a word, one of up to 64 bits in a double word, and a
    longer one is copied byte by byte. The structure holds every number big-endian. Byte order
    conversions do not matter to `&`, `|` and `~`; numbers are masked in the order of the
    processor.

        word     offset_words        + 1
                 ┄┄┄| offset_bits | size_bits |┄┄┄
                                  +- shift --→

    `ib_pack` finds a double word at `offset_words` words, `ib_unpack` at `offset_words` double
    words. -/

namespace RdmaDriver.Packer
open Schemes

/-- `struct ib_field`; a reserved field has no `struct_size_bytes`. -/
structure Field where
  structOffsetBytes : ℕ
  structSizeBytes : ℕ
  offsetWords : ℕ
  offsetBits : ℕ
  sizeBits : ℕ
  deriving DecidableEq

/-- `value_read`. -/
def valueRead (offset size : ℕ) (structure' : Memory) : ℕ :=
  match size with
  | 1 => beRead structure' offset 1
  | 2 => beRead structure' offset 2
  | 4 => beRead structure' offset 4
  | 8 => beRead structure' offset 8
  | _ => 0

/-- `value_write`. -/
def valueWrite (offset size val : ℕ) (structure' : Memory) : Memory :=
  match size * 8 with
  | 8 => beWrite structure' offset 1 val
  | 16 => beWrite structure' offset 2 val
  | 32 => beWrite structure' offset 4 val
  | 64 => beWrite structure' offset 8 val
  | _ => structure'

/-- `*addr = (*addr & ~mask) | (val & mask)`, for a number of `n` bytes. -/
def maskWrite (buf : Memory) (addr n mask val : ℕ) : Memory :=
  beWrite buf addr n ((beRead buf addr n &&& (2 ^ (8 * n) - 1 - mask)) ||| (val &&& mask))

/-- `memset(…, 0, …)`. -/
def zeroBytes (buf : Memory) (addr n : ℕ) : Memory := copyBytes buf addr (fun _ => 0) 0 n

/-- `ib_pack`: one field. -/
def packField (structure' : Memory) (buf : Memory) (d : Field) : Memory :=
  let value := valueRead d.structOffsetBytes d.structSizeBytes structure'
  if d.sizeBits ≤ 32 then
    let shift := 32 - d.offsetBits - d.sizeBits
    let val := if d.structSizeBytes ≠ 0 then toU 32 (value <<< shift : ℕ) else 0
    let mask := toU 32 (((1 <<< d.sizeBits - 1) <<< shift : ℕ) : ℤ)
    maskWrite buf (4 * d.offsetWords) 4 mask val
  else if d.sizeBits ≤ 64 then
    let shift := 64 - d.offsetBits - d.sizeBits
    let val := if d.structSizeBytes ≠ 0 then toU 64 (value <<< shift : ℕ) else 0
    let mask := toU 64 ((((2 ^ 64 - 1) >>> (64 - d.sizeBits)) <<< shift : ℕ) : ℤ)
    maskWrite buf (4 * d.offsetWords) 8 mask val
  else
    let addr := d.offsetWords * 4 + d.offsetBits / 8
    if d.structSizeBytes ≠ 0 then
      copyBytes buf addr structure' d.structOffsetBytes (d.sizeBits / 8)
    else zeroBytes buf addr (d.sizeBits / 8)

/-- `ib_pack`. -/
def ibPack (desc : List Field) (structure' : Memory) (buf : Memory) : Memory :=
  desc.foldl (packField structure') buf

/-- `ib_unpack`: one field. -/
def unpackField (buf : Memory) (structure' : Memory) (d : Field) : Memory :=
  if d.structSizeBytes = 0 then structure'
  else if d.sizeBits ≤ 32 then
    let shift := 32 - d.offsetBits - d.sizeBits
    let mask := toU 32 (((1 <<< d.sizeBits - 1) <<< shift : ℕ) : ℤ)
    let val := (beRead buf (4 * d.offsetWords) 4 &&& mask) >>> shift
    valueWrite d.structOffsetBytes d.structSizeBytes val structure'
  else if d.sizeBits ≤ 64 then
    let shift := 64 - d.offsetBits - d.sizeBits
    let mask := toU 64 ((((2 ^ 64 - 1) >>> (64 - d.sizeBits)) <<< shift : ℕ) : ℤ)
    let val := (beRead buf (8 * d.offsetWords) 8 &&& mask) >>> shift
    valueWrite d.structOffsetBytes d.structSizeBytes val structure'
  else
    copyBytes structure' d.structOffsetBytes buf (d.offsetWords * 4 + d.offsetBits / 8)
      (d.sizeBits / 8)

/-- `ib_unpack`. -/
def ibUnpack (desc : List Field) (buf : Memory) (structure' : Memory) : Memory :=
  desc.foldl (unpackField buf) structure'

/-! ### Tables -/

/-- The first bit of a field in the buffer. -/
def Field.first (d : Field) : ℕ := 32 * d.offsetWords + d.offsetBits

/-- Bit `i` of the buffer lies in the field. -/
def Field.Has (d : Field) (i : ℕ) : Prop := d.first ≤ i ∧ i < d.first + d.sizeBits

/-- The bytes of the member of the structure. -/
def Field.memberLen (d : Field) : ℕ :=
  if d.sizeBits ≤ 64 then d.structSizeBytes else d.sizeBits / 8

/-- Byte `x` of the structure belongs to the field. -/
def Field.Member (d : Field) (x : ℕ) : Prop :=
  d.structSizeBytes ≠ 0 ∧ d.structOffsetBytes ≤ x ∧ x < d.structOffsetBytes + d.memberLen

/-- A field as the table format allows it: inside a word, inside two words, or a string of bytes; a
    member that is a number has one of the sizes of a number. -/
structure Field.Valid (d : Field) : Prop where
  word : d.sizeBits ≤ 32 → d.offsetBits + d.sizeBits ≤ 32
  double : 32 < d.sizeBits → d.sizeBits ≤ 64 → d.offsetBits + d.sizeBits ≤ 64
  bytes : 64 < d.sizeBits → 8 ∣ d.offsetBits ∧ 8 ∣ d.sizeBits
  number : d.sizeBits ≤ 64 → d.structSizeBytes ∈ [0, 1, 2, 4, 8]

/-- The fields share no bit of the buffer. -/
def Field.Apart (d d' : Field) : Prop := ∀ i, ¬ (d.Has i ∧ d'.Has i)

/-- The fields share no byte of the structure. -/
def Field.MembersApart (d d' : Field) : Prop := ∀ x, ¬ (d.Member x ∧ d'.Member x)

/-- The value of a structure fits its field. -/
def Field.Fits (d : Field) (structure' : Memory) : Prop :=
  d.sizeBits ≤ 64 →
    valueRead d.structOffsetBytes d.structSizeBytes structure' < 2 ^ d.sizeBits

/-- What is promised of a table: what is packed is unpacked again, whatever was in the buffer and in
    the structure, and nothing but the fields changes in the buffer. -/
def RoundTrip (desc : List Field) : Prop :=
  ∀ structure' buf dst : Memory, (∀ d ∈ desc, d.Fits structure') → (∀ d ∈ desc, ∀ x, d.Member x →
      ibUnpack desc (ibPack desc structure' buf) dst x = structure' x) ∧
    ∀ i, (∀ d ∈ desc, ¬ d.Has i) → bit (ibPack desc structure' buf) i = bit buf i

/-- No field of more than a word stands behind the start of the buffer, except reserved ones and
    strings of bytes. -/
def AtStart (desc : List Field) : Prop :=
  ∀ d ∈ desc, d.structSizeBytes ≠ 0 → 32 < d.sizeBits → d.sizeBits ≤ 64 → d.offsetWords = 0

/-! ### Words -/

section Word

variable {buf : Memory} {addr n s ob shift mask val i k : ℕ}

/-- A masked write changes the bits of the mask. -/
theorem bit_maskWrite (hmask : mask < 2 ^ (8 * n)) (i : ℕ) : bit (maskWrite buf addr n mask val) i =
    if (8 * addr ≤ i ∧ i < 8 * (addr + n)) ∧ mask.testBit (8 * (addr + n) - 1 - i) = true
    then val.testBit (8 * (addr + n) - 1 - i) else bit buf i := by
  unfold maskWrite
  rw [bit_beWrite]
  by_cases hin : 8 * addr ≤ i ∧ i < 8 * (addr + n)
  · have hk : 8 * (addr + n) - 1 - i < 8 * n := by omega
    have hi : 8 * (addr + n) - 1 - (8 * (addr + n) - 1 - i) = i := by omega
    have hcompl : (2 ^ (8 * n) - 1 - mask).testBit (8 * (addr + n) - 1 - i) =
        !mask.testBit (8 * (addr + n) - 1 - i) := by
      rw [show 2 ^ (8 * n) - 1 - mask = 2 ^ (8 * n) - (mask + 1) by omega,
        Nat.testBit_two_pow_sub_succ hmask, decide_eq_true hk, Bool.true_and]
    rw [if_pos hin, Nat.testBit_or, Nat.testBit_and, Nat.testBit_and, testBit_beRead, hi, hcompl,
      decide_eq_true hk]
    cases hbit : mask.testBit (8 * (addr + n) - 1 - i) <;> simp [hin]
  · rw [if_neg hin, if_neg fun h => hin h.1]

/-- The mask of a field. -/
def IsMask (n s shift mask : ℕ) : Prop :=
  ∀ k, mask.testBit k = (decide (k < 8 * n) && (decide (shift ≤ k) && decide (k - shift < s)))

theorem IsMask.lt (h : IsMask n s shift mask) : mask < 2 ^ (8 * n) := by
  refine Nat.lt_pow_two_of_testBit _ fun k hk => ?_
  rw [h k, decide_eq_false (by omega), Bool.false_and]

/-- The mask of a field in a word. -/
theorem isMask_word (s shift : ℕ) :
    IsMask 4 s shift (toU 32 (((1 <<< s - 1) <<< shift : ℕ) : ℤ)) := fun k => by
  rw [toU_eq_mod, Nat.testBit_mod_two_pow, Nat.testBit_shiftLeft, Nat.one_shiftLeft,
    Nat.testBit_two_pow_sub_one]

/-- The mask of a field in a double word. -/
theorem isMask_double (hs : s ≤ 64) (shift : ℕ) :
    IsMask 8 s shift (toU 64 ((((2 ^ 64 - 1) >>> (64 - s)) <<< shift : ℕ) : ℤ)) := fun k => by
  rw [toU_eq_mod, Nat.testBit_mod_two_pow, Nat.testBit_shiftLeft, Nat.testBit_shiftRight,
    Nat.testBit_two_pow_sub_one]
  congr 2
  exact decide_eq_decide.mpr (by omega)

section
variable (hfit : ob + s + shift = 8 * n) (hmask : IsMask n s shift mask)
include hfit hmask

/-- PACK: the field takes the shifted value, everything else stays. -/
theorem bit_packWord (i : ℕ) : bit (maskWrite buf addr n mask (toU (8 * n) (val <<< shift : ℕ))) i =
      if 8 * addr + ob ≤ i ∧ i < 8 * addr + ob + s then val.testBit (8 * addr + ob + s - 1 - i)
      else bit buf i := by
  rw [bit_maskWrite hmask.lt]
  by_cases hin : 8 * addr + ob ≤ i ∧ i < 8 * addr + ob + s
  · have hk : 8 * (addr + n) - 1 - i < 8 * n := by omega
    have hshift : shift ≤ 8 * (addr + n) - 1 - i := by omega
    have hrest : 8 * (addr + n) - 1 - i - shift = 8 * addr + ob + s - 1 - i := by omega
    have hbit : mask.testBit (8 * (addr + n) - 1 - i) = true := by
      rw [hmask, decide_eq_true hk, decide_eq_true hshift, decide_eq_true (by omega)]
      rfl
    rw [if_pos hin, if_pos ⟨by omega, hbit⟩, toU_eq_mod, Nat.testBit_mod_two_pow,
      Nat.testBit_shiftLeft, decide_eq_true hk, decide_eq_true hshift, Bool.true_and, Bool.true_and,
      hrest]
  · rw [if_neg hin, if_neg]
    rintro ⟨hword, hbit⟩
    rw [hmask] at hbit
    simp only [Bool.and_eq_true, decide_eq_true_eq] at hbit
    omega

/-- UNPACK: the bits of the value that is read from the field. -/
theorem testBit_unpackWord (k : ℕ) : ((beRead buf addr n &&& mask) >>> shift).testBit k =
      (decide (k < s) && bit buf (8 * addr + ob + s - 1 - k)) := by
  rw [Nat.testBit_shiftRight, Nat.testBit_and, testBit_beRead, hmask, Nat.add_sub_cancel_left]
  rcases Nat.lt_or_ge k s with hk | hk
  · have hword : shift + k < 8 * n := by omega
    have hpos : 8 * (addr + n) - 1 - (shift + k) = 8 * addr + ob + s - 1 - k := by omega
    rw [hpos, decide_eq_true hword, decide_eq_true hk, decide_eq_true (Nat.le_add_right shift k)]
    simp
  · rw [decide_eq_false (by omega : ¬ k < s)]
    simp

/-- The value whose bits stand in the field is read. -/
theorem unpackWord_eq (hval : val < 2 ^ s) (hbits : ∀ i, 8 * addr + ob ≤ i → i < 8 * addr + ob + s →
      bit buf i = val.testBit (8 * addr + ob + s - 1 - i)) :
    (beRead buf addr n &&& mask) >>> shift = val := by
  refine Nat.eq_of_testBit_eq fun k => ?_
  rw [testBit_unpackWord hfit hmask]
  rcases Nat.lt_or_ge k s with hk | hk
  · have hpos : 8 * addr + ob + s - 1 - (8 * addr + ob + s - 1 - k) = k := by omega
    rw [hbits _ (by omega) (by omega), hpos, decide_eq_true hk, Bool.true_and]
  · rw [decide_eq_false (by omega : ¬ k < s), Bool.false_and,
      Nat.testBit_lt_two_pow (hval.trans_le (Nat.pow_le_pow_right Nat.two_pos hk))]

end

end Word

/-! ### Fields -/

section Field

variable {d d' : Field} {desc : List Field} {structure' buf dst : Memory} {i x : ℕ}

/-- The bit that a field takes at bit `i` of the buffer. -/
def Field.source (d : Field) (structure' : Memory) (i : ℕ) : Bool :=
  if d.structSizeBytes = 0 then false
  else if d.sizeBits ≤ 64 then
    (valueRead d.structOffsetBytes d.structSizeBytes structure').testBit
      (d.first + d.sizeBits - 1 - i)
  else bit structure' (8 * d.structOffsetBytes + (i - d.first))

instance (d : Field) (i : ℕ) : Decidable (d.Has i) := inferInstanceAs (Decidable (_ ∧ _))

instance (d : Field) (x : ℕ) : Decidable (d.Member x) := inferInstanceAs (Decidable (_ ∧ _ ∧ _))

/-- The value that is shifted into a word; a reserved field takes zero. -/
theorem packed_value (w shift value : ℕ) (p : Prop) [Decidable p] :
    (if p then toU w (value <<< shift : ℕ) else 0) =
      toU w ((if p then value else 0) <<< shift : ℕ) := by
  split_ifs
  · rfl
  · rw [Nat.zero_shiftLeft]
    exact (toU_of_lt (Nat.two_pow_pos w)).symm

theorem source_number (hs : d.sizeBits ≤ 64) :
    (if d.structSizeBytes ≠ 0
      then valueRead d.structOffsetBytes d.structSizeBytes structure' else 0).testBit
        (d.first + d.sizeBits - 1 - i) = d.source structure' i := by
  unfold Field.source
  by_cases h0 : d.structSizeBytes = 0
  · simp [h0]
  · simp [h0, hs]

theorem bit_zeroBytes (buf : Memory) (a n i : ℕ) : bit (zeroBytes buf a n) i =
    if 8 * a ≤ i ∧ i < 8 * (a + n) then false else bit buf i := by
  rw [zeroBytes, bit_copyBytes]
  split_ifs
  · simp [bit]
  · rfl

/-- STEP: a field is packed into its bits. -/
theorem bit_packField (hd : d.Valid) (i : ℕ) : bit (packField structure' buf d) i =
    if d.Has i then d.source structure' i else bit buf i := by
  have hfirst : 8 * (4 * d.offsetWords) + d.offsetBits = d.first := by
    unfold Field.first
    omega
  unfold packField
  dsimp only
  by_cases h32 : d.sizeBits ≤ 32
  · have hfit : d.offsetBits + d.sizeBits + (32 - d.offsetBits - d.sizeBits) = 8 * 4 := by
      have := hd.word h32
      omega
    rw [if_pos h32, packed_value, bit_packWord hfit (isMask_word _ _), hfirst,
      source_number (by omega)]
    rfl
  by_cases h64 : d.sizeBits ≤ 64
  · have hfit : d.offsetBits + d.sizeBits + (64 - d.offsetBits - d.sizeBits) = 8 * 8 := by
      have := hd.double (by omega) h64
      omega
    rw [if_neg h32, if_pos h64, packed_value, bit_packWord hfit (isMask_double h64 _), hfirst,
      source_number h64]
    rfl
  obtain ⟨⟨a, ha⟩, b, hb⟩ := hd.bytes (by omega)
  have haddr : 8 * (d.offsetWords * 4 + d.offsetBits / 8) = d.first := by
    omega
  have hend : 8 * (d.offsetWords * 4 + d.offsetBits / 8 + d.sizeBits / 8) =
      d.first + d.sizeBits := by
    omega
  rw [if_neg h32, if_neg h64]
  by_cases h0 : d.structSizeBytes = 0
  · rw [if_neg (not_not.mpr h0), bit_zeroBytes, haddr, hend, Field.source, if_pos h0]
    rfl
  · rw [if_pos h0, bit_copyBytes, haddr, hend, Field.source, if_neg h0, if_neg h64]
    rfl

/-- RUN: every field of a table is packed into its bits, the others stay. -/
theorem bit_ibPack : ∀ {desc : List Field} {buf : Memory}, (∀ d ∈ desc, d.Valid) →
    desc.Pairwise Field.Apart →
    (∀ d ∈ desc, ∀ i, d.Has i → bit (ibPack desc structure' buf) i = d.source structure' i) ∧
    ∀ i, (∀ d ∈ desc, ¬ d.Has i) → bit (ibPack desc structure' buf) i = bit buf i
  | [], _, _, _ => ⟨fun d hd => absurd hd List.not_mem_nil, fun _ _ => rfl⟩
  | d :: desc, buf, hvalid, hapart => by
    obtain ⟨hd, hrest⟩ := List.pairwise_cons.mp hapart
    obtain ⟨hvd, hvalid'⟩ := List.forall_mem_cons.mp hvalid
    obtain ⟨hin, hout⟩ := @bit_ibPack desc (packField structure' buf d) hvalid' hrest
    refine ⟨fun e he i hi => ?_, fun i hi => ?_⟩
    · rcases List.mem_cons.mp he with rfl | he
      · refine (hout i fun e' he' hi' => hd e' he' i ⟨hi, hi'⟩).trans ?_
        rw [bit_packField hvd, if_pos hi]
      · exact hin e he i hi
    · obtain ⟨hno, hrest'⟩ := List.forall_mem_cons.mp hi
      refine (hout i hrest').trans ?_
      rw [bit_packField hvd, if_neg hno]

theorem valueRead_eq {size : ℕ} (h : size ∈ [1, 2, 4, 8]) (offset : ℕ) (m : Memory) :
    valueRead offset size m = beRead m offset size := by
  simp only [List.mem_cons, List.not_mem_nil, or_false] at h
  rcases h with rfl | rfl | rfl | rfl <;> rfl

theorem valueWrite_eq {size : ℕ} (h : size ∈ [1, 2, 4, 8]) (offset val : ℕ) (m : Memory) :
    valueWrite offset size val m = beWrite m offset size val := by
  simp only [List.mem_cons, List.not_mem_nil, or_false] at h
  rcases h with rfl | rfl | rfl | rfl <;> rfl

theorem Field.Valid.size (hd : d.Valid) (hs : d.sizeBits ≤ 64) (h0 : d.structSizeBytes ≠ 0) :
    d.structSizeBytes ∈ [1, 2, 4, 8] := by
  have := hd.number hs
  simp only [List.mem_cons] at this ⊢
  exact this.resolve_left h0

/-- A field changes its own member only. -/
theorem unpackField_other (hd : d.Valid) (hx : ¬ d.Member x) : unpackField buf dst d x = dst x := by
  unfold unpackField
  by_cases h0 : d.structSizeBytes = 0
  · rw [if_pos h0]
  have hout : ¬ (d.structOffsetBytes ≤ x ∧ x < d.structOffsetBytes + d.memberLen) :=
    fun h => hx ⟨h0, h⟩
  unfold Field.memberLen at hout
  split_ifs at hout ⊢ with h32 h64 h64
  · rw [valueWrite_eq (hd.size (by omega) h0)]
    exact if_neg hout
  · omega
  · rw [valueWrite_eq (hd.size h64 h0)]
    exact if_neg hout
  · exact if_neg hout

/-- STEP: a field whose bits are those of the structure is unpacked into its member. -/
theorem unpackField_member (hd : d.Valid) (hfits : d.Fits structure')
    (hstart : 32 < d.sizeBits → d.sizeBits ≤ 64 → d.offsetWords = 0)
    (hbits : ∀ i, d.Has i → bit buf i = d.source structure' i) (hx : d.Member x) :
    unpackField buf dst d x = structure' x := by
  obtain ⟨h0, hlo, hhi⟩ := hx
  have hnumber : d.sizeBits ≤ 64 → beWrite dst d.structOffsetBytes d.structSizeBytes
      (valueRead d.structOffsetBytes d.structSizeBytes structure') x = structure' x := by
    intro hs
    rw [Field.memberLen, if_pos hs] at hhi
    rw [valueRead_eq (hd.size hs h0), beWrite_beRead, if_pos ⟨hlo, hhi⟩]
  have hsource : d.sizeBits ≤ 64 → ∀ i, d.Has i → bit buf i =
      (valueRead d.structOffsetBytes d.structSizeBytes structure').testBit
        (d.first + d.sizeBits - 1 - i) := by
    intro hs i hi
    rw [hbits i hi, ← source_number hs, if_pos h0]
  unfold unpackField
  rw [if_neg h0]
  split_ifs with h32 h64
  · have hfit : d.offsetBits + d.sizeBits + (32 - d.offsetBits - d.sizeBits) = 8 * 4 := by
      have := hd.word h32
      omega
    have hfirst : 8 * (4 * d.offsetWords) + d.offsetBits = d.first := by
      unfold Field.first
      omega
    rw [valueWrite_eq (hd.size (by omega) h0), unpackWord_eq hfit (isMask_word _ _)
      (hfits (by omega)) (by
        rw [hfirst]
        exact fun i h1 h2 => hsource (by omega) i ⟨h1, h2⟩)]
    exact hnumber (by omega)
  · have hfit : d.offsetBits + d.sizeBits + (64 - d.offsetBits - d.sizeBits) = 8 * 8 := by
      have := hd.double (by omega) h64
      omega
    have hfirst : 8 * (8 * d.offsetWords) + d.offsetBits = d.first := by
      unfold Field.first
      omega
    rw [valueWrite_eq (hd.size h64 h0), unpackWord_eq hfit (isMask_double h64 _) (hfits h64) (by
      rw [hfirst]
      exact fun i h1 h2 => hsource h64 i ⟨h1, h2⟩)]
    exact hnumber h64
  · obtain ⟨⟨a, ha⟩, b, hb⟩ := hd.bytes (by omega)
    rw [Field.memberLen, if_neg h64] at hhi
    refine byte_ext fun k hk => ?_
    have hhas : d.Has (d.first + 8 * (x - d.structOffsetBytes) + k) := by
      unfold Field.Has
      omega
    have hpos : 8 * (d.offsetWords * 4 + d.offsetBits / 8) +
        (8 * x + k - 8 * d.structOffsetBytes) =
        d.first + 8 * (x - d.structOffsetBytes) + k := by
      unfold Field.first
      omega
    rw [bit_copyBytes, if_pos (by omega), hpos, hbits _ hhas, Field.source, if_neg h0, if_neg h64]
    congr 1
    omega

end Field

/-! ### Unpacking a table -/

section Table

variable {d : Field} {desc : List Field} {structure' buf : Memory} {x : ℕ}

/-- RUN: bytes that belong to no field stay. -/
theorem ibUnpack_other : ∀ {desc : List Field} {dst : Memory}, (∀ d ∈ desc, d.Valid) →
    (∀ d ∈ desc, ¬ d.Member x) → ibUnpack desc buf dst x = dst x
  | [], _, _, _ => rfl
  | d :: desc, dst, hvalid, hx => by
    obtain ⟨hvd, hvalid'⟩ := List.forall_mem_cons.mp hvalid
    obtain ⟨hxd, hx'⟩ := List.forall_mem_cons.mp hx
    refine (@ibUnpack_other desc (unpackField buf dst d) hvalid' hx').trans ?_
    exact unpackField_other hvd hxd

/-- RUN: where every field gives back its member, so does the table. -/
theorem ibUnpack_member : ∀ {desc : List Field} {dst : Memory}, (∀ d ∈ desc, d.Valid) →
    (∀ d ∈ desc, ∀ dst, ∀ x, d.Member x → unpackField buf dst d x = structure' x) →
    ∀ d ∈ desc, d.Member x → ibUnpack desc buf dst x = structure' x
  | [], _, _, _, d, hd, _ => absurd hd List.not_mem_nil
  | e :: desc, dst, hvalid, hback, d, hd, hx => by
    obtain ⟨hve, hvalid'⟩ := List.forall_mem_cons.mp hvalid
    obtain ⟨hbe, hback'⟩ := List.forall_mem_cons.mp hback
    by_cases hlater : ∃ e' ∈ desc, e'.Member x
    · obtain ⟨e', he', hx'⟩ := hlater
      exact @ibUnpack_member desc (unpackField buf dst e) hvalid' hback' e' he' hx'
    · have hnone : ∀ e' ∈ desc, ¬ e'.Member x := fun e' he' hx' => hlater ⟨e', he', hx'⟩
      refine (@ibUnpack_other buf x desc (unpackField buf dst e) hvalid' hnone).trans ?_
      rcases List.mem_cons.mp hd with rfl | hd
      · exact hbe dst x hx
      · exact absurd hx (hnone d hd)

/-- What stands in the fields of a buffer is unpacked into the members. -/
theorem ibUnpack_of_source {dst : Memory} (hvalid : ∀ d ∈ desc, d.Valid) (hstart : AtStart desc)
    (hfits : ∀ d ∈ desc, d.Fits structure')
    (hbits : ∀ d ∈ desc, ∀ i, d.Has i → bit buf i = d.source structure' i) (hd : d ∈ desc)
    (hx : d.Member x) : ibUnpack desc buf dst x = structure' x :=
  ibUnpack_member hvalid (fun e he _ _ hy =>
    unpackField_member (hvalid e he) (hfits e he) (hstart e he hy.1) (hbits e he) hy) d hd hx

/-- A table without misplaced fields makes the round trip. -/
theorem roundTrip_of_atStart (hvalid : ∀ d ∈ desc, d.Valid) (hapart : desc.Pairwise Field.Apart)
    (hstart : AtStart desc) : RoundTrip desc := by
  intro structure' buf dst hfits
  obtain ⟨hin, hout⟩ := @bit_ibPack structure' desc buf hvalid hapart
  exact ⟨fun d hd x hx => ibUnpack_of_source hvalid hstart hfits hin hd hx, hout⟩

/-- A field whose member is its own decides on it. -/
theorem ibUnpack_apart : ∀ {desc : List Field} {dst : Memory}, (∀ d ∈ desc, d.Valid) →
    desc.Pairwise Field.MembersApart → ∀ d ∈ desc,
    ∃ dst', ∀ x, d.Member x → ibUnpack desc buf dst x = unpackField buf dst' d x
  | [], _, _, _, d, hd => absurd hd List.not_mem_nil
  | e :: desc, dst, hvalid, hmembers, d, hd => by
    obtain ⟨hve, hvalid'⟩ := List.forall_mem_cons.mp hvalid
    obtain ⟨hne, hmembers'⟩ := List.pairwise_cons.mp hmembers
    rcases List.mem_cons.mp hd with rfl | hd
    · exact ⟨dst, fun x hx => @ibUnpack_other buf x desc (unpackField buf dst d) hvalid'
        fun e he hxe => hne e he x ⟨hx, hxe⟩⟩
    · exact @ibUnpack_apart desc (unpackField buf dst e) hvalid' hmembers' d hd

/-- The member of a number can hold what its field can hold. -/
def Field.Holds (d : Field) : Prop := d.sizeBits ≤ 64 → d.sizeBits ≤ 8 * d.structSizeBytes

/-- BACK: what is unpacked would be packed into the same bits. -/
theorem source_ibUnpack {dst : Memory} {i : ℕ} (hvalid : ∀ d ∈ desc, d.Valid)
    (hmembers : desc.Pairwise Field.MembersApart) (hstart : AtStart desc) (hd : d ∈ desc)
    (h0 : d.structSizeBytes ≠ 0) (hholds : d.Holds) (hi : d.Has i) :
    d.source (ibUnpack desc buf dst) i = bit buf i := by
  have hvd := hvalid d hd
  obtain ⟨dst', hdst⟩ := @ibUnpack_apart buf desc dst hvalid hmembers d hd
  obtain ⟨hlo, hhi⟩ := hi
  rw [Field.source, if_neg h0]
  by_cases h64 : d.sizeBits ≤ 64
  · -- the value that is written to the member is read from it
    have hsize := hvd.size h64 h0
    have hread : valueRead d.structOffsetBytes d.structSizeBytes (ibUnpack desc buf dst) =
        valueRead d.structOffsetBytes d.structSizeBytes (unpackField buf dst' d) := by
      rw [valueRead_eq hsize, valueRead_eq hsize]
      refine beRead_congr fun x h1 h2 => hdst x ⟨h0, h1, ?_⟩
      rwa [Field.memberLen, if_pos h64]
    have hvalue : ∀ val, (∀ k, val.testBit k =
        (decide (k < d.sizeBits) && bit buf (d.first + d.sizeBits - 1 - k))) →
        (valueRead d.structOffsetBytes d.structSizeBytes
          (valueWrite d.structOffsetBytes d.structSizeBytes val dst')).testBit
          (d.first + d.sizeBits - 1 - i) = bit buf i := by
      intro val hval
      have hlt : val < 2 ^ (8 * d.structSizeBytes) := by
        refine Nat.lt_pow_two_of_testBit _ fun k hk => ?_
        have := hholds h64
        rw [hval, decide_eq_false (by omega), Bool.false_and]
      rw [valueRead_eq hsize, valueWrite_eq hsize, beRead_beWrite _ _ _ hlt, hval,
        decide_eq_true (by omega), Bool.true_and]
      congr 1
      omega
    rw [if_pos h64, hread, unpackField, if_neg h0]
    by_cases h32 : d.sizeBits ≤ 32
    · have hfit : d.offsetBits + d.sizeBits + (32 - d.offsetBits - d.sizeBits) = 8 * 4 := by
        have := hvd.word h32
        omega
      have hfirst : 8 * (4 * d.offsetWords) + d.offsetBits = d.first := by
        unfold Field.first
        omega
      rw [if_pos h32]
      exact hvalue _ fun k => by rw [testBit_unpackWord hfit (isMask_word _ _), hfirst]
    · have hfit : d.offsetBits + d.sizeBits + (64 - d.offsetBits - d.sizeBits) = 8 * 8 := by
        have := hvd.double (by omega) h64
        omega
      have hword := hstart d hd h0 (by omega) h64
      have hfirst : 8 * (8 * d.offsetWords) + d.offsetBits = d.first := by
        unfold Field.first
        omega
      rw [if_neg h32, if_pos h64]
      exact hvalue _ fun k => by rw [testBit_unpackWord hfit (isMask_double h64 _), hfirst]
  · obtain ⟨⟨a, ha⟩, b, hb⟩ := hvd.bytes (by omega)
    have haddr : 8 * (d.offsetWords * 4 + d.offsetBits / 8) = d.first := by
      unfold Field.first
      omega
    have hmem : d.Member ((8 * d.structOffsetBytes + (i - d.first)) / 8) := ⟨h0, by omega, by
      rw [Field.memberLen, if_neg h64]
      omega⟩
    have hbit : bit (ibUnpack desc buf dst) (8 * d.structOffsetBytes + (i - d.first)) =
        bit (unpackField buf dst' d) (8 * d.structOffsetBytes + (i - d.first)) := by
      rw [bit, bit, hdst _ hmem]
    rw [if_neg h64, hbit, unpackField, if_neg h0, if_neg (by omega), if_neg h64, bit_copyBytes,
      if_pos (by omega), haddr]
    congr 1
    omega

end Table

/-! ### A misplaced field -/

section Misplaced

variable {d e : Field} {desc : List Field} {buf dst : Memory} {i x : ℕ}

/-- A structure of zeroes, but for the value 1 of one field. -/
def oneAt (d : Field) : Memory :=
  beWrite (fun _ => 0) d.structOffsetBytes d.structSizeBytes 1

theorem bit_oneAt (hi : ¬ (8 * d.structOffsetBytes ≤ i ∧
    i < 8 * (d.structOffsetBytes + d.structSizeBytes))) : bit (oneAt d) i = false := by
  rw [oneAt, bit_beWrite, if_neg hi]
  simp [bit]

section
variable (hd64 : d.sizeBits ≤ 64) (hd0 : d.structSizeBytes ≠ 0) (he : e.Valid)
include hd64 hd0 he

/-- A field of another member has the value zero. -/
theorem valueRead_oneAt (he64 : e.sizeBits ≤ 64) (hapart : d.MembersApart e) :
    valueRead e.structOffsetBytes e.structSizeBytes (oneAt d) = 0 := by
  by_cases h0 : e.structSizeBytes = 0
  · rw [h0]
    rfl
  rw [valueRead_eq (he.size he64 h0)]
  refine Nat.eq_of_testBit_eq fun k => ?_
  rw [testBit_beRead, Nat.zero_testBit, Bool.and_eq_false_iff]
  by_cases hk : k < 8 * e.structSizeBytes
  · refine .inr (bit_oneAt fun hin => ?_)
    refine hapart ((8 * (e.structOffsetBytes + e.structSizeBytes) - 1 - k) / 8)
      ⟨⟨hd0, ?_⟩, h0, ?_⟩
    · rw [Field.memberLen, if_pos hd64]
      omega
    · rw [Field.memberLen, if_pos he64]
      omega
  · exact .inl (decide_eq_false hk)

/-- A field of another member takes zeroes. -/
theorem source_oneAt (hapart : d.MembersApart e) (hi : e.Has i) : e.source (oneAt d) i = false := by
  unfold Field.source
  by_cases h0 : e.structSizeBytes = 0
  · rw [if_pos h0]
  rw [if_neg h0]
  by_cases he64 : e.sizeBits ≤ 64
  · rw [if_pos he64, valueRead_oneAt hd64 hd0 he he64 hapart, Nat.zero_testBit]
  · obtain ⟨⟨a, ha⟩, b, hb⟩ := he.bytes (by omega)
    obtain ⟨hlo, hhi⟩ := hi
    rw [if_neg he64]
    refine bit_oneAt fun hin => ?_
    refine hapart ((8 * e.structOffsetBytes + (i - e.first)) / 8) ⟨⟨hd0, ?_⟩, h0, ?_⟩
    · rw [Field.memberLen, if_pos hd64]
      omega
    · rw [Field.memberLen, if_neg he64]
      omega

end

/-- A field of more than a word that does not stand at the start is read from another place. -/
theorem atStart_of_roundTrip (hvalid : ∀ d ∈ desc, d.Valid) (hapart : desc.Pairwise Field.Apart)
    (hmembers : desc.Pairwise Field.MembersApart) (hround : RoundTrip desc) : AtStart desc := by
  intro d hd h0 h32 h64
  by_contra hword
  have hother : ∀ e ∈ desc, e ≠ d → d.MembersApart e := by
    have : Std.Symm Field.MembersApart := ⟨fun a b h x hx => h x ⟨hx.2, hx.1⟩⟩
    exact fun e he hne => hmembers.forall hd he hne.symm
  have hvd := hvalid d hd
  have hsize := hvd.size h64 h0
  have hdouble := hvd.double h32 h64
  have hone : valueRead d.structOffsetBytes d.structSizeBytes (oneAt d) = 1 := by
    rw [valueRead_eq hsize, oneAt, beRead_beWrite _ _ _ (Nat.one_lt_two_pow (by omega))]
  have hfits : ∀ e ∈ desc, e.Fits (oneAt d) := by
    intro e he he64
    by_cases hne : e = d
    · rw [hne, hone]
      exact Nat.one_lt_two_pow (by omega)
    · rw [valueRead_oneAt h64 h0 (hvalid e he) he64 (hother e he hne)]
      exact Nat.two_pow_pos _
  obtain ⟨hback, -⟩ := hround (oneAt d) (fun _ => 0) (fun _ => 0) hfits
  -- the last bit that is read for the field
  obtain ⟨hin, hout⟩ := @bit_ibPack (oneAt d) desc (fun _ => 0) hvalid hapart
  obtain ⟨p, hp⟩ : ∃ p, p = 64 * d.offsetWords + d.offsetBits + d.sizeBits - 1 := ⟨_, rfl⟩
  have hpzero : bit (ibPack desc (oneAt d) fun _ => 0) p = false := by
    by_cases hfield : ∃ e ∈ desc, e.Has p
    · obtain ⟨e, he, hhas⟩ := hfield
      have hne : e ≠ d := by
        rintro rfl
        obtain ⟨-, hhi⟩ := hhas
        unfold Field.first at hhi
        omega
      rw [hin e he p hhas, source_oneAt h64 h0 (hvalid e he) (hother e he hne) hhas]
    · rw [hout p fun e he hhas => hfield ⟨e, he, hhas⟩]
      simp [bit]
  -- what is unpacked into the last byte of the member
  obtain ⟨y, hy⟩ : ∃ y, y = d.structOffsetBytes + d.structSizeBytes - 1 := ⟨_, rfl⟩
  have hmember : d.Member y := ⟨h0, by omega, by
    rw [Field.memberLen, if_pos h64]
    omega⟩
  obtain ⟨dst', hdst⟩ := @ibUnpack_apart (ibPack desc (oneAt d) fun _ => 0) desc (fun _ => 0)
    hvalid hmembers d hd
  have hbyte : unpackField (ibPack desc (oneAt d) fun _ => 0) dst' d y = oneAt d y :=
    (hdst y hmember).symm.trans (hback d hd y hmember)
  have hbit : bit (unpackField (ibPack desc (oneAt d) fun _ => 0) dst' d) (8 * y + 7) =
      bit (oneAt d) (8 * y + 7) := by
    rw [bit, bit, show (8 * y + 7) / 8 = y by omega, hbyte]
  have hshift : 8 * (8 * d.offsetWords + 8) - 1 -
      (64 - d.offsetBits - d.sizeBits + 0) = p := by omega
  have hpos : 8 * (d.structOffsetBytes + d.structSizeBytes) - 1 - (8 * y + 7) = 0 := by omega
  have hset : bit (oneAt d) (8 * y + 7) = true := by
    rw [oneAt, bit_beWrite, if_pos (by omega), hpos]
    decide
  rw [hset, unpackField, if_neg h0, if_neg (by omega), if_pos h64] at hbit
  rw [valueWrite_eq hsize, bit_beWrite, if_pos (by omega), hpos, Nat.testBit_shiftRight,
    Nat.testBit_and, testBit_beRead, hshift, hpzero, Bool.and_false, Bool.false_and] at hbit
  cases hbit

end Misplaced

/-- CORRECT: a table whose fields of more than a word stand at the start makes the round trip, for
    every structure, buffer and destination; a table with such a field elsewhere, whose members are
    apart, does not. -/
theorem ib_pack_unpack {desc : List Field} (hvalid : ∀ d ∈ desc, d.Valid)
    (hapart : desc.Pairwise Field.Apart) : (AtStart desc → RoundTrip desc) ∧
      (desc.Pairwise Field.MembersApart → (RoundTrip desc ↔ AtStart desc)) :=
  ⟨roundTrip_of_atStart hvalid hapart, fun hmembers =>
    ⟨atStart_of_roundTrip hvalid hapart hmembers, roundTrip_of_atStart hvalid hapart⟩⟩

theorem Field.valid_iff {d : Field} : (d.sizeBits ≤ 32 → d.offsetBits + d.sizeBits ≤ 32) ∧
    (32 < d.sizeBits → d.sizeBits ≤ 64 → d.offsetBits + d.sizeBits ≤ 64) ∧
    (64 < d.sizeBits → 8 ∣ d.offsetBits ∧ 8 ∣ d.sizeBits) ∧
    (d.sizeBits ≤ 64 → d.structSizeBytes ∈ [0, 1, 2, 4, 8]) ↔ d.Valid :=
  ⟨fun ⟨h1, h2, h3, h4⟩ => ⟨h1, h2, h3, h4⟩, fun h => ⟨h.word, h.double, h.bytes, h.number⟩⟩

instance (d : Field) : Decidable d.Valid := decidable_of_iff _ Field.valid_iff

instance (desc : List Field) : Decidable (AtStart desc) :=
  inferInstanceAs (Decidable (∀ d ∈ desc, _ → _ → _ → _))

/-- A number of 64 bits and one of 8 bits. -/
def twoFields (offsetWords : ℕ) : List Field := [⟨0, 8, offsetWords, 0, 64⟩, ⟨8, 1, 4, 8, 8⟩]

theorem twoFields_apart {offsetWords : ℕ} (h : offsetWords ≤ 2) :
    (twoFields offsetWords).Pairwise Field.Apart :=
  List.pairwise_pair.mpr fun i ⟨⟨_, hhi⟩, hlo, _⟩ => by
    unfold Field.first at hhi hlo
    dsimp only at hhi hlo
    omega

/-- A number at the start of the buffer comes back. -/
theorem ib_pack_unpack_demo : RoundTrip (twoFields 0) :=
  (ib_pack_unpack (by decide) (twoFields_apart (Nat.zero_le 2))).1 (by decide)

/-- BROKEN: a number of 64 bits at word 1 is read from word 2. -/
theorem ib_pack_unpack_broken : ¬ ∀ desc : List Field, (∀ d ∈ desc, d.Valid) →
    desc.Pairwise Field.Apart → RoundTrip desc := by
  intro hall
  obtain ⟨hback, -⟩ := hall (twoFields 1) (by decide) (twoFields_apart (by decide))
    (beWrite (fun _ => 0) 0 8 1) (fun _ => 0) (fun _ => 0) (by
      intro d hd h64
      simp only [twoFields, List.mem_cons, List.not_mem_nil, or_false] at hd
      rcases hd with rfl | rfl <;> decide +kernel)
  have hbyte := hback ⟨0, 8, 1, 0, 64⟩ (by decide) 7 (by decide)
  exact absurd hbyte (by decide +kernel)

end RdmaDriver.Packer
