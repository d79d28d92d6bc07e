import RdmaDriver.Core.Packer

/-! @src drivers/infiniband/core/ud_header.c, include/rdma/ib_pack.h | name:UD headers |
    scheme:bits | family:format

    The header of an unreliable datagram is a row of parts, each packed by its table.
    `ib_ud_header_init` sets the lengths and the fields that name the next part;
    `ib_ud_header_pack` goes by the presence flags of the header, `ib_ud_header_unpack` by those
    fields.

        LRH | Eth | VLAN | GRH | IPv4 | UDP | BTH | DETH | immediate
         + link_next_header ↑            opcode +          ↑

    `ib_ud_header_unpack` expects an LRH and none of Eth, VLAN, IPv4 and UDP, but leaves their flags
    as they are. -/

namespace RdmaDriver.UdHeader
open Schemes Packer

/-! ### Tables -/

/-- A field that the structure does not have. -/
def reserved (offsetWords offsetBits sizeBits : ℕ) : Field :=
  ⟨0, 0, offsetWords, offsetBits, sizeBits⟩

namespace Lrh

def virtualLane : Field := ⟨0, 1, 0, 0, 4⟩
def linkVersion : Field := ⟨1, 1, 0, 4, 4⟩
def serviceLevel : Field := ⟨2, 1, 0, 8, 4⟩
def linkNextHeader : Field := ⟨3, 1, 0, 14, 2⟩
def destinationLid : Field := ⟨4, 2, 0, 16, 16⟩
def packetLength : Field := ⟨6, 2, 1, 5, 11⟩
def sourceLid : Field := ⟨8, 2, 1, 16, 16⟩

end Lrh

/-- `lrh_table`. -/
def lrhTable : List Field :=
  [Lrh.virtualLane, Lrh.linkVersion, Lrh.serviceLevel, reserved 0 12 2, Lrh.linkNextHeader,
    Lrh.destinationLid, reserved 1 0 5, Lrh.packetLength, Lrh.sourceLid]

namespace Eth

def dmacH : Field := ⟨0, 4, 0, 0, 32⟩
def dmacL : Field := ⟨4, 2, 1, 0, 16⟩
def smacH : Field := ⟨6, 2, 1, 16, 16⟩
def smacL : Field := ⟨8, 4, 2, 0, 32⟩
def type : Field := ⟨12, 2, 3, 0, 16⟩

end Eth

/-- `eth_table`. -/
def ethTable : List Field := [Eth.dmacH, Eth.dmacL, Eth.smacH, Eth.smacL, Eth.type]

namespace Vlan

def tag : Field := ⟨0, 2, 0, 0, 16⟩
def type : Field := ⟨2, 2, 0, 16, 16⟩

end Vlan

/-- `vlan_table`. -/
def vlanTable : List Field := [Vlan.tag, Vlan.type]

namespace Ip4

def ver : Field := ⟨0, 1, 0, 0, 4⟩
def hdrLen : Field := ⟨1, 1, 0, 4, 4⟩
def tos : Field := ⟨2, 1, 0, 8, 8⟩
def totLen : Field := ⟨4, 2, 0, 16, 16⟩
def id : Field := ⟨6, 2, 1, 0, 16⟩
def fragOff : Field := ⟨8, 2, 1, 16, 16⟩
def ttl : Field := ⟨10, 1, 2, 0, 8⟩
def protocol : Field := ⟨11, 1, 2, 8, 8⟩
def check : Field := ⟨12, 2, 2, 16, 16⟩
def saddr : Field := ⟨16, 4, 3, 0, 32⟩
def daddr : Field := ⟨20, 4, 4, 0, 32⟩

end Ip4

/-- `ip4_table`. -/
def ip4Table : List Field :=
  [Ip4.ver, Ip4.hdrLen, Ip4.tos, Ip4.totLen, Ip4.id, Ip4.fragOff, Ip4.ttl, Ip4.protocol,
    Ip4.check, Ip4.saddr, Ip4.daddr]

namespace Udp

def sport : Field := ⟨0, 2, 0, 0, 16⟩
def dport : Field := ⟨2, 2, 0, 16, 16⟩
def length : Field := ⟨4, 2, 1, 0, 16⟩
def csum : Field := ⟨6, 2, 1, 16, 16⟩

end Udp

/-- `udp_table`. -/
def udpTable : List Field := [Udp.sport, Udp.dport, Udp.length, Udp.csum]

namespace Grh

def ipVersion : Field := ⟨0, 1, 0, 0, 4⟩
def trafficClass : Field := ⟨1, 1, 0, 4, 8⟩
def flowLabel : Field := ⟨4, 4, 0, 12, 20⟩
def payload_length : Field := ⟨8, 2, 1, 0, 16⟩
def nextHeader : Field := ⟨10, 1, 1, 16, 8⟩
def hopLimit : Field := ⟨11, 1, 1, 24, 8⟩
def sourceGid : Field := ⟨16, 16, 2, 0, 128⟩
def destinationGid : Field := ⟨32, 16, 6, 0, 128⟩

end Grh

/-- `grh_table`. -/
def grhTable : List Field :=
  [Grh.ipVersion, Grh.trafficClass, Grh.flowLabel, Grh.payload_length, Grh.nextHeader,
    Grh.hopLimit, Grh.sourceGid, Grh.destinationGid]

namespace Bth

def opcode : Field := ⟨0, 1, 0, 0, 8⟩
def solicitedEvent : Field := ⟨1, 1, 0, 8, 1⟩
def migReq : Field := ⟨2, 1, 0, 9, 1⟩
def padCount : Field := ⟨3, 1, 0, 10, 2⟩
def transportHeaderVersion : Field := ⟨4, 1, 0, 12, 4⟩
def pkey : Field := ⟨6, 2, 0, 16, 16⟩
def destinationQpn : Field := ⟨8, 4, 1, 8, 24⟩
def ackReq : Field := ⟨12, 1, 2, 0, 1⟩
def psn : Field := ⟨16, 4, 2, 8, 24⟩

end Bth

/-- `bth_table`. -/
def bthTable : List Field :=
  [Bth.opcode, Bth.solicitedEvent, Bth.migReq, Bth.padCount, Bth.transportHeaderVersion,
    Bth.pkey, reserved 1 0 8, Bth.destinationQpn, Bth.ackReq, reserved 2 1 7, Bth.psn]

namespace Deth

def qkey : Field := ⟨0, 4, 0, 0, 32⟩
def sourceQpn : Field := ⟨4, 4, 1, 8, 24⟩

end Deth

/-- `deth_table`. -/
def dethTable : List Field := [Deth.qkey, reserved 1 0 8, Deth.sourceQpn]

def IB_LRH_BYTES : ℕ := 8
def IB_ETH_BYTES : ℕ := 14
def IB_VLAN_BYTES : ℕ := 4
def IB_GRH_BYTES : ℕ := 40
def IB_IP4_BYTES : ℕ := 20
def IB_UDP_BYTES : ℕ := 8
def IB_BTH_BYTES : ℕ := 12
def IB_DETH_BYTES : ℕ := 8

def IB_LNH_IBA_LOCAL : ℕ := 2
def IB_LNH_IBA_GLOBAL : ℕ := 3
def ETH_P_8021Q : ℕ := 0x8100
def IPPROTO_UDP : ℕ := 17
def IB_OPCODE_UD_SEND_ONLY : ℕ := 0x64
def IB_OPCODE_UD_SEND_ONLY_WITH_IMMEDIATE : ℕ := 0x65

/-! ### Code -/

/-- `struct ib_ud_header`; the immediate data are four bytes. -/
structure IbUdHeader where
  lrhPresent : Bool
  lrh : Memory
  ethPresent : Bool
  eth : Memory
  vlanPresent : Bool
  vlan : Memory
  grhPresent : Bool
  grh : Memory
  ipv4Present : Bool
  ip4 : Memory
  udpPresent : Bool
  udp : Memory
  bth : Memory
  deth : Memory
  immediatePresent : Bool
  immediateData : Memory

/-- `memset(header, 0, sizeof *header)`. -/
def IbUdHeader.zero : IbUdHeader :=
  ⟨false, fun _ => 0, false, fun _ => 0, false, fun _ => 0, false, fun _ => 0, false, fun _ => 0,
    false, fun _ => 0, fun _ => 0, fun _ => 0, false, fun _ => 0⟩

/-- The number in a member. -/
def member (d : Field) (m : Memory) : ℕ := valueRead d.structOffsetBytes d.structSizeBytes m

/-- A number assigned to a member, as far as the member holds it. -/
def assign (d : Field) (val : ℕ) (m : Memory) : Memory :=
  valueWrite d.structOffsetBytes d.structSizeBytes val m

/-- The packet length that `ib_ud_header_init` computes, in words. -/
def packetLength (payloadBytes : ℤ) (grhPresent : Bool) : ℕ :=
  toU 16 (((IB_LRH_BYTES : ℤ) + IB_BTH_BYTES + IB_DETH_BYTES +
    (if grhPresent then (IB_GRH_BYTES : ℤ) else 0) + payloadBytes + 4 + 3).tdiv 4)

/-- The payload length of the GRH that `ib_ud_header_init` computes. -/
def payloadLength (udpBytes : ℕ) (payloadBytes : ℤ) : ℕ :=
  toU 16 ((udpBytes + IB_BTH_BYTES + IB_DETH_BYTES + payloadBytes + 4 + 3) / 4 * 4)

/-- `ib_ud_header_init`. -/
def ibUdHeaderInit (payloadBytes : ℤ) (lrhPresent ethPresent vlanPresent grhPresent : Bool)
    (ipVersion : ℤ) (udpPresent immediatePresent : Bool) : Option Errno × IbUdHeader :=
  let udpBytes := if udpPresent then IB_UDP_BYTES else 0
  let grhPresent := grhPresent && ipVersion = 0
  if udpPresent = true ∧ ipVersion ≠ 4 ∧ ipVersion ≠ 6 then (some .einval, IbUdHeader.zero)
  else
    let header := IbUdHeader.zero
    let header := if lrhPresent then { header with
        lrh := assign Lrh.packetLength (packetLength payloadBytes grhPresent)
          (assign Lrh.linkNextHeader
            (if grhPresent then IB_LNH_IBA_GLOBAL else IB_LNH_IBA_LOCAL)
            (assign Lrh.linkVersion 0 header.lrh)) }
      else header
    let header := if vlanPresent then { header with eth := assign Eth.type ETH_P_8021Q header.eth }
      else header
    let header := if ipVersion = 6 ∨ grhPresent = true then { header with
        grh := assign Grh.nextHeader (if udpPresent then IPPROTO_UDP else 0x1b)
          (assign Grh.payload_length (payloadLength udpBytes payloadBytes)
            (assign Grh.ipVersion 6 header.grh)) }
      else header
    let header := if ipVersion = 4 then { header with
        ip4 := assign Ip4.protocol IPPROTO_UDP
          (assign Ip4.totLen (toU 16 (IB_IP4_BYTES + udpBytes + IB_BTH_BYTES + IB_DETH_BYTES +
            payloadBytes + 4)) (assign Ip4.hdrLen 5 (assign Ip4.ver 4 header.ip4))) }
      else header
    let header := if udpPresent = true ∧ ipVersion ≠ 0 then { header with
        udp := assign Udp.length (toU 16 (IB_UDP_BYTES + IB_BTH_BYTES + IB_DETH_BYTES +
          payloadBytes + 4)) header.udp }
      else header
    let header := { header with
      bth := assign Bth.transportHeaderVersion 0
        (assign Bth.padCount (toU 2 (4 - payloadBytes))
          (assign Bth.opcode (if immediatePresent then IB_OPCODE_UD_SEND_ONLY_WITH_IMMEDIATE
            else IB_OPCODE_UD_SEND_ONLY) header.bth)) }
    (none, { header with
      lrhPresent := lrhPresent
      ethPresent := ethPresent
      vlanPresent := vlanPresent
      grhPresent := grhPresent || ipVersion = 6
      ipv4Present := ipVersion = 4
      udpPresent := udpPresent
      immediatePresent := immediatePresent })

/-- `buf + len`. -/
def viewAt (buf : Memory) (len : ℕ) : Memory := fun x => buf (len + x)

/-- `ib_pack` to `buf + len`. -/
def packAt (desc : List Field) (structure' buf : Memory) (len : ℕ) : Memory := fun x =>
  if len ≤ x then ibPack desc structure' (viewAt buf len) (x - len) else buf x

/-- A part of the header, if it is present. -/
def packPart (present : Bool) (desc : List Field) (part : Memory) (bytes : ℕ)
    (s : ℕ × Memory) : ℕ × Memory :=
  if present then (s.1 + bytes, packAt desc part s.2 s.1) else s

/-- `ib_ud_header_pack`: the number of bytes and the buffer. -/
def ibUdHeaderPack (header : IbUdHeader) (buf : Memory) : ℕ × Memory :=
  let s := (0, buf)
  let s := packPart header.lrhPresent lrhTable header.lrh IB_LRH_BYTES s
  let s := packPart header.ethPresent ethTable header.eth IB_ETH_BYTES s
  let s := packPart header.vlanPresent vlanTable header.vlan IB_VLAN_BYTES s
  let s := packPart header.grhPresent grhTable header.grh IB_GRH_BYTES s
  let s := packPart header.ipv4Present ip4Table header.ip4 IB_IP4_BYTES s
  let s := packPart header.udpPresent udpTable header.udp IB_UDP_BYTES s
  let s := packPart true bthTable header.bth IB_BTH_BYTES s
  let s := packPart true dethTable header.deth IB_DETH_BYTES s
  if header.immediatePresent then (s.1 + 4, copyBytes s.2 s.1 header.immediateData 0 4) else s

/-- `ib_ud_header_unpack`: the switch over the link next header. Returns the bytes consumed, too. -/
def unpackLnh (buf : Memory) (header : IbUdHeader) (len : ℕ) : Option Errno × IbUdHeader × ℕ :=
  if member Lrh.linkNextHeader header.lrh = IB_LNH_IBA_LOCAL then
    (none, { header with grhPresent := false }, len)
  else if member Lrh.linkNextHeader header.lrh = IB_LNH_IBA_GLOBAL then
    let header := { header with
      grhPresent := true, grh := ibUnpack grhTable (viewAt buf len) header.grh }
    let len := len + IB_GRH_BYTES
    if member Grh.ipVersion header.grh ≠ 6 then (some .einval, header, len)
    else if member Grh.nextHeader header.grh ≠ 0x1b then (some .einval, header, len)
    else (none, header, len)
  else (some .einval, header, len)

/-- `ib_ud_header_unpack`: from the BTH on. -/
def unpackBth (buf : Memory) (header : IbUdHeader) (len : ℕ) : Option Errno × IbUdHeader × ℕ :=
  let header := { header with bth := ibUnpack bthTable (viewAt buf len) header.bth }
  let len := len + IB_BTH_BYTES
  if member Bth.opcode header.bth ≠ IB_OPCODE_UD_SEND_ONLY ∧
      member Bth.opcode header.bth ≠ IB_OPCODE_UD_SEND_ONLY_WITH_IMMEDIATE then
    (some .einval, header, len)
  else
    let header := { header with
      immediatePresent := member Bth.opcode header.bth = IB_OPCODE_UD_SEND_ONLY_WITH_IMMEDIATE }
    if member Bth.transportHeaderVersion header.bth ≠ 0 then (some .einval, header, len)
    else
      let header := { header with deth := ibUnpack dethTable (viewAt buf len) header.deth }
      let len := len + IB_DETH_BYTES
      if header.immediatePresent then
        (none, { header with
          immediateData := copyBytes header.immediateData 0 buf len 4 }, len + 4)
      else (none, header, len)

/-- `ib_ud_header_unpack`: the return value, the header and the number of bytes consumed. -/
def ibUdHeaderUnpack (buf : Memory) (header : IbUdHeader) : Option Errno × IbUdHeader × ℕ :=
  let header := { header with lrh := ibUnpack lrhTable buf header.lrh }
  let len := IB_LRH_BYTES
  if member Lrh.linkVersion header.lrh ≠ 0 then (some .einval, header, len)
  else match unpackLnh buf header len with
    | (some err, header, len) => (some err, header, len)
    | (none, header, len) => unpackBth buf header len

/-! ### Tables in order -/

/-- What holds of a table whose part has `bytes` bytes. -/
structure TableOk (desc : List Field) (bytes : ℕ) : Prop where
  valid : ∀ d ∈ desc, d.Valid
  apart : desc.Pairwise Field.Apart
  members : desc.Pairwise Field.MembersApart
  start : AtStart desc
  holds : ∀ d ∈ desc, d.structSizeBytes ≠ 0 → d.Holds
  inside : ∀ d ∈ desc, d.first + d.sizeBits ≤ 8 * bytes

/-- One field stands before the other, in the buffer and in the structure. -/
def Before (d d' : Field) : Prop :=
  d.first + d.sizeBits ≤ d'.first ∧ (d.structSizeBytes ≠ 0 → d'.structSizeBytes ≠ 0 →
    d.structOffsetBytes + d.memberLen ≤ d'.structOffsetBytes)

instance (d d' : Field) : Decidable (Before d d') := inferInstanceAs (Decidable (_ ∧ _))

theorem TableOk.of_ordered {desc : List Field} {bytes : ℕ} (hvalid : ∀ d ∈ desc, d.Valid)
    (hbefore : desc.Pairwise Before) (hstart : AtStart desc)
    (hholds : ∀ d ∈ desc, d.structSizeBytes ≠ 0 → d.sizeBits ≤ 64 →
      d.sizeBits ≤ 8 * d.structSizeBytes)
    (hinside : ∀ d ∈ desc, d.first + d.sizeBits ≤ 8 * bytes) : TableOk desc bytes where
  valid := hvalid
  apart := hbefore.imp fun {d d'} h i hi => by
    obtain ⟨⟨-, hhi⟩, hlo, -⟩ := hi
    have := h.1
    omega
  members := hbefore.imp fun {d d'} h x hx => by
    obtain ⟨⟨h0, -, hhi⟩, h0', hlo, -⟩ := hx
    have := h.2 h0 h0'
    omega
  start := hstart
  holds := hholds
  inside := hinside

theorem lrhTable_ok : TableOk lrhTable IB_LRH_BYTES :=
  .of_ordered (by decide) (by decide) (by decide) (by decide) (by decide)

theorem ethTable_ok : TableOk ethTable IB_ETH_BYTES :=
  .of_ordered (by decide) (by decide) (by decide) (by decide) (by decide)

theorem vlanTable_ok : TableOk vlanTable IB_VLAN_BYTES :=
  .of_ordered (by decide) (by decide) (by decide) (by decide) (by decide)

theorem grhTable_ok : TableOk grhTable IB_GRH_BYTES :=
  .of_ordered (by decide) (by decide) (by decide) (by decide) (by decide)

theorem ip4Table_ok : TableOk ip4Table IB_IP4_BYTES :=
  .of_ordered (by decide) (by decide) (by decide) (by decide) (by decide)

theorem udpTable_ok : TableOk udpTable IB_UDP_BYTES :=
  .of_ordered (by decide) (by decide) (by decide) (by decide) (by decide)

theorem bthTable_ok : TableOk bthTable IB_BTH_BYTES :=
  .of_ordered (by decide) (by decide) (by decide) (by decide) (by decide)

theorem dethTable_ok : TableOk dethTable IB_DETH_BYTES :=
  .of_ordered (by decide) (by decide) (by decide) (by decide) (by decide)

/-! ### Parts in a row -/

/-- A part: its table, its structure and its length. -/
structure Part where
  desc : List Field
  mem : Memory
  bytes : ℕ

/-- The parts of a header, in the order in which they are packed. -/
def IbUdHeader.parts (h : IbUdHeader) : List Part :=
  (if h.lrhPresent then [⟨lrhTable, h.lrh, IB_LRH_BYTES⟩] else []) ++
  ((if h.ethPresent then [⟨ethTable, h.eth, IB_ETH_BYTES⟩] else []) ++
  ((if h.vlanPresent then [⟨vlanTable, h.vlan, IB_VLAN_BYTES⟩] else []) ++
  ((if h.grhPresent then [⟨grhTable, h.grh, IB_GRH_BYTES⟩] else []) ++
  ((if h.ipv4Present then [⟨ip4Table, h.ip4, IB_IP4_BYTES⟩] else []) ++
  ((if h.udpPresent then [⟨udpTable, h.udp, IB_UDP_BYTES⟩] else []) ++
  [⟨bthTable, h.bth, IB_BTH_BYTES⟩, ⟨dethTable, h.deth, IB_DETH_BYTES⟩])))))

/-- The length of parts. -/
def totalBytes (ps : List Part) : ℕ := (ps.map Part.bytes).sum

/-- The parts packed one behind the other. -/
def packParts : List Part → ℕ × Memory → ℕ × Memory
  | [], s => s
  | p :: ps, s => packParts ps (s.1 + p.bytes, packAt p.desc p.mem s.2 s.1)

/-- The fields of a part stand in the buffer, from byte `o` on. -/
def Stands (buf : Memory) (o : ℕ) (desc : List Field) (mem : Memory) : Prop :=
  ∀ d ∈ desc, ∀ i, d.Has i → bit buf (8 * o + i) = d.source mem i

/-- The parts stand in the buffer one behind the other. -/
def Packed (buf : Memory) : ℕ → List Part → Prop
  | _, [] => True
  | o, p :: ps => Stands buf o p.desc p.mem ∧ Packed buf (o + p.bytes) ps

variable {buf : Memory} {desc : List Field} {bytes len o i : ℕ} {mem : Memory} {ps : List Part}

theorem packParts_append (ps ps' : List Part) (s : ℕ × Memory) :
    packParts (ps ++ ps') s = packParts ps' (packParts ps s) := by
  induction ps generalizing s with
  | nil => rfl
  | cons p ps ih => exact ih _

theorem packPart_eq (present : Bool) (desc : List Field) (mem : Memory) (bytes : ℕ)
    (s : ℕ × Memory) : packPart present desc mem bytes s =
      packParts (if present then [⟨desc, mem, bytes⟩] else []) s := by
  cases present <;> rfl

/-- `ib_ud_header_pack` packs the parts, and the immediate data behind them. -/
theorem pack_eq (h : IbUdHeader) (buf : Memory) : ibUdHeaderPack h buf =
    let s := packParts h.parts (0, buf)
    if h.immediatePresent then (s.1 + 4, copyBytes s.2 s.1 h.immediateData 0 4) else s := by
  unfold ibUdHeaderPack IbUdHeader.parts
  simp only [packPart_eq, packParts_append]
  rfl

theorem bit_viewAt (buf : Memory) (len i : ℕ) : bit (viewAt buf len) i = bit buf (8 * len + i) := by
  unfold bit viewAt
  rw [show (8 * len + i) / 8 = len + i / 8 by omega, show (8 * len + i) % 8 = i % 8 by omega]

theorem bit_packAt (desc : List Field) (mem buf : Memory) (len i : ℕ) :
    bit (packAt desc mem buf len) i =
      if 8 * len ≤ i then bit (ibPack desc mem (viewAt buf len)) (i - 8 * len) else bit buf i := by
  unfold bit packAt
  by_cases h : 8 * len ≤ i
  · rw [if_pos h, if_pos (by omega), show (i - 8 * len) / 8 = i / 8 - len by omega,
      show (i - 8 * len) % 8 = i % 8 by omega]
  · rw [if_neg h, if_neg (by omega)]

/-- STEP: a part is packed into its bytes, and nothing else changes. -/
theorem packAt_spec (h : TableOk desc bytes) (mem buf : Memory) (len : ℕ) :
    Stands (packAt desc mem buf len) len desc mem ∧
    ∀ i, i < 8 * len ∨ 8 * (len + bytes) ≤ i → bit (packAt desc mem buf len) i = bit buf i := by
  obtain ⟨hin, hout⟩ := @bit_ibPack mem desc (viewAt buf len) h.valid h.apart
  refine ⟨fun d hd i hi => ?_, fun i hi => ?_⟩
  · rw [bit_packAt, if_pos (Nat.le_add_right _ _), Nat.add_sub_cancel_left, hin d hd i hi]
  · rw [bit_packAt]
    split_ifs with hlo
    · rw [hout, bit_viewAt, Nat.add_sub_cancel' hlo]
      intro d hd hhas
      have := h.inside d hd
      have := hhas.2
      omega
    · rfl

/-- RUN: the parts stand in a row, and what lies before them stays. -/
theorem packParts_spec (hok : ∀ p ∈ ps, TableOk p.desc p.bytes) (o : ℕ) (buf : Memory) :
    (packParts ps (o, buf)).1 = o + totalBytes ps ∧
    (∀ i < 8 * o, bit (packParts ps (o, buf)).2 i = bit buf i) ∧
    Packed (packParts ps (o, buf)).2 o ps := by
  induction ps generalizing o buf with
  | nil => exact ⟨rfl, fun _ _ => rfl, trivial⟩
  | cons p ps ih =>
    obtain ⟨hp, hok'⟩ := List.forall_mem_cons.mp hok
    obtain ⟨hlen, hkeep, hpacked⟩ := ih hok' (o + p.bytes) (packAt p.desc p.mem buf o)
    obtain ⟨hin, hout⟩ := packAt_spec hp p.mem buf o
    refine ⟨?_, fun i hi => ?_, fun d hd i hi => ?_, hpacked⟩
    · change (packParts ps (o + p.bytes, packAt p.desc p.mem buf o)).1 = _
      rw [hlen, totalBytes, totalBytes, List.map_cons, List.sum_cons, Nat.add_assoc]
    · exact (hkeep i (by omega)).trans (hout i (.inl hi))
    · have hinside := hp.inside d hd
      have hlt := hi.2
      exact (hkeep _ (by omega)).trans (hin d hd i hi)

theorem parts_ok (h : IbUdHeader) : ∀ p ∈ h.parts, TableOk p.desc p.bytes := by
  intro p hp
  simp only [IbUdHeader.parts, List.mem_append, List.mem_ite_nil_right, List.mem_cons,
    List.not_mem_nil, or_false] at hp
  rcases hp with ⟨-, rfl⟩ | ⟨-, rfl⟩ | ⟨-, rfl⟩ | ⟨-, rfl⟩ | ⟨-, rfl⟩ | ⟨-, rfl⟩ | rfl | rfl
  · exact lrhTable_ok
  · exact ethTable_ok
  · exact vlanTable_ok
  · exact grhTable_ok
  · exact ip4Table_ok
  · exact udpTable_ok
  · exact bthTable_ok
  · exact dethTable_ok

/-! ### Members -/

section Members

variable {d d' : Field} {desc : List Field} {bytes o val n : ℕ} {m m' buf dst : Memory}

/-- The structures have the same members. -/
def Agree (desc : List Field) (m m' : Memory) : Prop := ∀ d ∈ desc, ∀ x, d.Member x → m x = m' x

theorem member_assign_same (hd : d.structSizeBytes ∈ [1, 2, 4, 8])
    (hval : val < 2 ^ (8 * d.structSizeBytes)) (m : Memory) :
    member d (assign d val m) = val := by
  rw [member, assign, valueRead_eq hd, valueWrite_eq hd, beRead_beWrite _ _ _ hval]

/-- An assignment changes no other member. -/
theorem member_assign_other (hd : d.structSizeBytes ∈ [1, 2, 4, 8])
    (hd' : d'.structSizeBytes ∈ [1, 2, 4, 8])
    (h : d.structOffsetBytes + d.structSizeBytes ≤ d'.structOffsetBytes ∨
      d'.structOffsetBytes + d'.structSizeBytes ≤ d.structOffsetBytes) (val : ℕ)
    (m : Memory) : member d (assign d' val m) = member d m := by
  rw [member, member, assign, valueRead_eq hd, valueRead_eq hd, valueWrite_eq hd']
  exact beRead_congr fun x h1 h2 => if_neg (by omega)

theorem Agree.member_eq (h : Agree desc m m') (hd : d ∈ desc) (h64 : d.sizeBits ≤ 64)
    (hsize : d.structSizeBytes ∈ [1, 2, 4, 8]) : member d m = member d m' := by
  rw [member, member, valueRead_eq hsize, valueRead_eq hsize]
  refine beRead_congr fun x h1 h2 => h d hd x ⟨?_, h1, ?_⟩
  · intro h0
    simp [h0] at hsize
  · rwa [Field.memberLen, if_pos h64]

/-- BACK: a part whose fields stand in the buffer is unpacked. -/
theorem agree_ibUnpack (hok : TableOk desc bytes) (hfits : ∀ d ∈ desc, d.Fits m)
    (hbits : Stands buf o desc m) (dst : Memory) :
    Agree desc (ibUnpack desc (viewAt buf o) dst) m := fun _ hd _ hx =>
  ibUnpack_of_source hok.valid hok.start hfits
    (fun e he i hi => (bit_viewAt buf o i).trans (hbits e he i hi)) hd hx

/-- A part that was unpacked is packed into the same bits. -/
theorem source_unpacked (hok : TableOk desc bytes) (hd : d ∈ desc) (h0 : d.structSizeBytes ≠ 0)
    {i : ℕ} (hi : d.Has i) : d.source (ibUnpack desc (viewAt buf o) dst) i = bit buf (8 * o + i) :=
  (source_ibUnpack hok.valid hok.members hok.start hd h0 (hok.holds d hd h0) hi).trans
    (bit_viewAt buf o i)

end Members

/-! ### Unpacking a header -/

section Unpack

variable {buf : Memory} {header : IbUdHeader} {grh imm : Bool} {len : ℕ}

/-- The bytes of a GRH, if there is one. -/
def grhBytes (grh : Bool) : ℕ := if grh then IB_GRH_BYTES else 0

/-- The bytes of the immediate data, if there are any. -/
def immediateBytes (imm : Bool) : ℕ := if imm then 4 else 0

/-- The byte at which the BTH starts. -/
def bthAt (grh : Bool) : ℕ := IB_LRH_BYTES + grhBytes grh

/-- What `ib_ud_header_unpack` leaves, if it finds a GRH and immediate data or not. -/
def unpacked (buf : Memory) (header : IbUdHeader) (grh imm : Bool) : IbUdHeader :=
  { header with
    lrh := ibUnpack lrhTable buf header.lrh
    grhPresent := grh
    grh := if grh then ibUnpack grhTable (viewAt buf IB_LRH_BYTES) header.grh else header.grh
    bth := ibUnpack bthTable (viewAt buf (bthAt grh)) header.bth
    deth := ibUnpack dethTable (viewAt buf (bthAt grh + IB_BTH_BYTES)) header.deth
    immediatePresent := imm
    immediateData := if imm then copyBytes header.immediateData 0 buf
      (bthAt grh + IB_BTH_BYTES + IB_DETH_BYTES) 4 else header.immediateData }

/-- What `ib_ud_header_unpack` checks. -/
structure Accepts (buf : Memory) (header : IbUdHeader) (grh imm : Bool) : Prop where
  linkVersion : member Lrh.linkVersion (ibUnpack lrhTable buf header.lrh) = 0
  linkNextHeader : member Lrh.linkNextHeader (ibUnpack lrhTable buf header.lrh) =
    if grh then IB_LNH_IBA_GLOBAL else IB_LNH_IBA_LOCAL
  global : grh = true →
    member Grh.ipVersion (ibUnpack grhTable (viewAt buf IB_LRH_BYTES) header.grh) = 6 ∧
    member Grh.nextHeader (ibUnpack grhTable (viewAt buf IB_LRH_BYTES) header.grh) = 0x1b
  opcode : member Bth.opcode (ibUnpack bthTable (viewAt buf (bthAt grh)) header.bth) =
    if imm then IB_OPCODE_UD_SEND_ONLY_WITH_IMMEDIATE else IB_OPCODE_UD_SEND_ONLY
  version : member Bth.transportHeaderVersion
    (ibUnpack bthTable (viewAt buf (bthAt grh)) header.bth) = 0

theorem unpackLnh_eq (hlnh : member Lrh.linkNextHeader header.lrh =
      if grh then IB_LNH_IBA_GLOBAL else IB_LNH_IBA_LOCAL)
    (hglobal : grh = true →
      member Grh.ipVersion (ibUnpack grhTable (viewAt buf len) header.grh) = 6 ∧
      member Grh.nextHeader (ibUnpack grhTable (viewAt buf len) header.grh) = 0x1b) :
    unpackLnh buf header len = (none, { header with
      grhPresent := grh
      grh := if grh then ibUnpack grhTable (viewAt buf len) header.grh else header.grh },
      len + grhBytes grh) := by
  unfold unpackLnh
  cases grh with
  | false =>
    have hlocal : member Lrh.linkNextHeader header.lrh = IB_LNH_IBA_LOCAL := hlnh
    rw [if_pos hlocal]
    rfl
  | true =>
    obtain ⟨hversion, hnext⟩ := hglobal rfl
    have hlnh : member Lrh.linkNextHeader header.lrh = IB_LNH_IBA_GLOBAL := hlnh
    have hlocal : member Lrh.linkNextHeader header.lrh ≠ IB_LNH_IBA_LOCAL := by
      rw [hlnh]
      decide
    rw [if_neg hlocal, if_pos hlnh]
    rw [if_neg (not_not.mpr hversion), if_neg (not_not.mpr hnext)]
    rfl

theorem unpackLnh_inv (h : (unpackLnh buf header len).1 = none) :
    ∃ grh : Bool, member Lrh.linkNextHeader header.lrh =
        (if grh then IB_LNH_IBA_GLOBAL else IB_LNH_IBA_LOCAL) ∧ (grh = true →
        member Grh.ipVersion (ibUnpack grhTable (viewAt buf len) header.grh) = 6 ∧
        member Grh.nextHeader (ibUnpack grhTable (viewAt buf len) header.grh) = 0x1b) := by
  unfold unpackLnh at h
  dsimp only at h
  by_cases hlocal : member Lrh.linkNextHeader header.lrh = IB_LNH_IBA_LOCAL
  · exact ⟨false, hlocal, fun hf => Bool.noConfusion hf⟩
  rw [if_neg hlocal] at h
  by_cases hglobal : member Lrh.linkNextHeader header.lrh = IB_LNH_IBA_GLOBAL
  · rw [if_pos hglobal] at h
    refine ⟨true, hglobal, fun _ => ?_⟩
    split_ifs at h with hversion hnext
    exact ⟨not_not.mp hversion, not_not.mp hnext⟩
  · rw [if_neg hglobal] at h
    exact absurd h (by simp)

theorem unpackBth_eq (hopcode : member Bth.opcode (ibUnpack bthTable (viewAt buf len) header.bth) =
      if imm then IB_OPCODE_UD_SEND_ONLY_WITH_IMMEDIATE else IB_OPCODE_UD_SEND_ONLY)
    (hversion : member Bth.transportHeaderVersion
      (ibUnpack bthTable (viewAt buf len) header.bth) = 0) :
    unpackBth buf header len = (none, { header with
      bth := ibUnpack bthTable (viewAt buf len) header.bth
      immediatePresent := imm
      deth := ibUnpack dethTable (viewAt buf (len + IB_BTH_BYTES)) header.deth
      immediateData := if imm then copyBytes header.immediateData 0 buf
        (len + IB_BTH_BYTES + IB_DETH_BYTES) 4 else header.immediateData },
      len + IB_BTH_BYTES + IB_DETH_BYTES + immediateBytes imm) := by
  unfold unpackBth
  rw [if_neg, if_neg (not_not.mpr hversion), hopcode]
  · cases imm <;> rfl
  · rw [hopcode]
    cases imm <;> decide

theorem unpackBth_inv (h : (unpackBth buf header len).1 = none) :
    ∃ imm : Bool, member Bth.opcode (ibUnpack bthTable (viewAt buf len) header.bth) =
        (if imm then IB_OPCODE_UD_SEND_ONLY_WITH_IMMEDIATE else IB_OPCODE_UD_SEND_ONLY) ∧
      member Bth.transportHeaderVersion (ibUnpack bthTable (viewAt buf len) header.bth) = 0 := by
  unfold unpackBth at h
  by_cases hopcode : member Bth.opcode (ibUnpack bthTable (viewAt buf len) header.bth) ≠
      IB_OPCODE_UD_SEND_ONLY ∧ member Bth.opcode (ibUnpack bthTable (viewAt buf len) header.bth) ≠
      IB_OPCODE_UD_SEND_ONLY_WITH_IMMEDIATE
  · rw [if_pos hopcode] at h
    exact absurd h (by simp)
  rw [if_neg hopcode] at h
  by_cases hversion : member Bth.transportHeaderVersion
      (ibUnpack bthTable (viewAt buf len) header.bth) ≠ 0
  · rw [if_pos hversion] at h
    exact absurd h (by simp)
  by_cases honly : member Bth.opcode (ibUnpack bthTable (viewAt buf len) header.bth) =
      IB_OPCODE_UD_SEND_ONLY
  · exact ⟨false, honly, not_not.mp hversion⟩
  · exact ⟨true, not_not.mp fun himm => hopcode ⟨honly, himm⟩, not_not.mp hversion⟩

/-- UNPACK: a buffer that passes the checks. -/
theorem unpack_eq (h : Accepts buf header grh imm) : ibUdHeaderUnpack buf header =
    (none, unpacked buf header grh imm,
      bthAt grh + IB_BTH_BYTES + IB_DETH_BYTES + immediateBytes imm) := by
  unfold ibUdHeaderUnpack
  have hlnh := @unpackLnh_eq buf { header with lrh := ibUnpack lrhTable buf header.lrh } grh
    IB_LRH_BYTES h.linkNextHeader h.global
  rw [if_neg (not_not.mpr h.linkVersion), hlnh]
  exact unpackBth_eq h.opcode h.version

/-- A buffer that is unpacked passes the checks. -/
theorem accepts_of_unpack (h : (ibUdHeaderUnpack buf header).1 = none) :
    ∃ grh imm, Accepts buf header grh imm := by
  unfold ibUdHeaderUnpack at h
  by_cases hversion : member Lrh.linkVersion (ibUnpack lrhTable buf header.lrh) = 0
  · rw [if_neg (not_not.mpr hversion)] at h
    rcases hres : (unpackLnh buf { header with lrh := ibUnpack lrhTable buf header.lrh }
      IB_LRH_BYTES).1 with _ | err
    · obtain ⟨grh, hlnh, hglobal⟩ := unpackLnh_inv hres
      rw [unpackLnh_eq hlnh hglobal] at h
      obtain ⟨imm, hopcode, hthv⟩ := unpackBth_inv h
      exact ⟨grh, imm, hversion, hlnh, hglobal, hopcode, hthv⟩
    · rcases hall : unpackLnh buf { header with lrh := ibUnpack lrhTable buf header.lrh }
        IB_LRH_BYTES with ⟨_ | e, rest⟩
      · rw [hall] at hres
        exact absurd hres (by simp)
      · rw [hall] at h
        exact absurd h (by simp)
  · rw [if_pos hversion] at h
    exact absurd h (by simp)

end Unpack

/-! ### Headers with an LRH only -/

section Local

variable {buf out : Memory} {h dst : IbUdHeader} {ps : List Part} {o j : ℕ} {grh imm : Bool}

/-- A header with an LRH and without Ethernet, VLAN, IPv4 and UDP parts. -/
structure LrhOnly (h : IbUdHeader) : Prop where
  lrh : h.lrhPresent = true
  eth : h.ethPresent = false
  vlan : h.vlanPresent = false
  ipv4 : h.ipv4Present = false
  udp : h.udpPresent = false

theorem LrhOnly.parts (hflags : LrhOnly h) : h.parts = ⟨lrhTable, h.lrh, IB_LRH_BYTES⟩ ::
    ((if h.grhPresent then [⟨grhTable, h.grh, IB_GRH_BYTES⟩] else []) ++
      [⟨bthTable, h.bth, IB_BTH_BYTES⟩, ⟨dethTable, h.deth, IB_DETH_BYTES⟩]) := by
  obtain ⟨h1, h2, h3, h4, h5⟩ := hflags
  simp [IbUdHeader.parts, h1, h2, h3, h4, h5]

theorem LrhOnly.totalBytes (hflags : LrhOnly h) :
    totalBytes h.parts = bthAt h.grhPresent + IB_BTH_BYTES + IB_DETH_BYTES := by
  rw [hflags.parts]
  cases h.grhPresent <;> rfl

/-- What stands in a buffer depends on the bytes of the parts only. -/
theorem Packed.congr (hok : ∀ p ∈ ps, TableOk p.desc p.bytes)
    (heq : ∀ i < 8 * (o + UdHeader.totalBytes ps), bit out i = bit buf i) (h : Packed buf o ps) :
    Packed out o ps := by
  induction ps generalizing o with
  | nil => trivial
  | cons p ps ih =>
    obtain ⟨hp, hok'⟩ := List.forall_mem_cons.mp hok
    have hlen : o + UdHeader.totalBytes (p :: ps) = o + p.bytes + UdHeader.totalBytes ps := by
      rw [UdHeader.totalBytes, UdHeader.totalBytes, List.map_cons, List.sum_cons, Nat.add_assoc]
    rw [hlen] at heq
    refine ⟨fun d hd i hi => ?_, ih hok' heq h.2⟩
    have hinside := hp.inside d hd
    have hlt := hi.2
    exact (heq _ (by omega)).trans (h.1 d hd i hi)

/-- PACK: the parts stand in the buffer, the immediate data behind them. -/
theorem pack_spec (h : IbUdHeader) (buf : Memory) :
    (ibUdHeaderPack h buf).1 = totalBytes h.parts + immediateBytes h.immediatePresent ∧
    Packed (ibUdHeaderPack h buf).2 0 h.parts ∧ (h.immediatePresent = true → ∀ x < 4,
      (ibUdHeaderPack h buf).2 (totalBytes h.parts + x) = h.immediateData x) := by
  obtain ⟨hlen, -, hpacked⟩ := packParts_spec (parts_ok h) 0 buf
  rw [Nat.zero_add] at hlen
  rw [pack_eq]
  cases h.immediatePresent with
  | false => exact ⟨hlen, hpacked, fun hf => Bool.noConfusion hf⟩
  | true =>
    rw [if_pos rfl]
    refine ⟨by rw [hlen]; rfl, hpacked.congr (parts_ok h) fun i hi => ?_, fun _ x hx => ?_⟩
    · rw [bit_copyBytes, if_neg (by omega)]
    · change copyBytes _ _ h.immediateData 0 4 (totalBytes h.parts + x) = _
      rw [copyBytes, hlen, if_pos (by omega), Nat.zero_add, Nat.add_sub_cancel_left]

/-- Where the parts of such a header stand. -/
theorem LrhOnly.stands (hflags : LrhOnly h) (hpacked : Packed buf 0 h.parts) :
    Stands buf 0 lrhTable h.lrh ∧ (h.grhPresent = true → Stands buf IB_LRH_BYTES grhTable h.grh) ∧
    Stands buf (bthAt h.grhPresent) bthTable h.bth ∧
    Stands buf (bthAt h.grhPresent + IB_BTH_BYTES) dethTable h.deth := by
  rw [hflags.parts] at hpacked
  obtain ⟨hlrh, hrest⟩ := hpacked
  cases hgrh : h.grhPresent with
  | false =>
    rw [hgrh] at hrest
    obtain ⟨hbth, hdeth, -⟩ := hrest
    exact ⟨hlrh, fun hf => Bool.noConfusion hf, hbth, hdeth⟩
  | true =>
    rw [hgrh] at hrest
    obtain ⟨hg, hbth, hdeth, -⟩ := hrest
    exact ⟨hlrh, fun _ => hg, hbth, hdeth⟩

/-- Bit `j` of a buffer lies in a field of the parts that is not reserved. -/
def Described : ℕ → List Part → ℕ → Prop
  | _, [], _ => False
  | o, p :: ps, j =>
    (8 * o ≤ j ∧ ∃ d ∈ p.desc, d.structSizeBytes ≠ 0 ∧ d.Has (j - 8 * o)) ∨
      Described (o + p.bytes) ps j

/-- By recursion over the parts. -/
instance decidableDescribed : ∀ (o : ℕ) (ps : List Part) (j : ℕ), Decidable (Described o ps j)
  | _, [], _ => inferInstanceAs (Decidable False)
  | o, p :: ps, j =>
    have := decidableDescribed (o + p.bytes) ps j
    inferInstanceAs (Decidable (_ ∨ Described (o + p.bytes) ps j))

/-- Bit `j` of a buffer lies in a field of the header that is not reserved. -/
def InField (h : IbUdHeader) (j : ℕ) : Prop :=
  Described 0 h.parts j ∨ (h.immediatePresent = true ∧
    8 * totalBytes h.parts ≤ j ∧ j < 8 * (totalBytes h.parts + 4))

instance (h : IbUdHeader) (j : ℕ) : Decidable (InField h j) := inferInstanceAs (Decidable (_ ∨ _))

/-- The parts hold what stands in their fields of the buffer. -/
def Restores (buf : Memory) : ℕ → List Part → Prop
  | _, [] => True
  | o, p :: ps => (∀ d ∈ p.desc, d.structSizeBytes ≠ 0 → ∀ i, d.Has i →
      d.source p.mem i = bit buf (8 * o + i)) ∧ Restores buf (o + p.bytes) ps

/-- The fields of parts that hold what stands in a buffer are packed into the same bits. -/
theorem bit_of_restores (hpacked : Packed out o ps) (hback : Restores buf o ps)
    (hj : Described o ps j) : bit out j = bit buf j := by
  induction ps generalizing o with
  | nil => exact hj.elim
  | cons p ps ih =>
    rcases hj with ⟨hlo, d, hd, h0, hi⟩ | hj
    · obtain ⟨i, rfl⟩ := Nat.exists_eq_add_of_le hlo
      rw [Nat.add_sub_cancel_left] at hi
      exact (hpacked.1 d hd i hi).trans (hback.1 d hd h0 i hi)
    · exact ih hpacked.2 hback.2 hj

theorem unpacked_lrhOnly (hflags : LrhOnly dst) : LrhOnly (unpacked buf dst grh imm) :=
  { hflags with }

theorem unpacked_restores (hflags : LrhOnly dst) :
    Restores buf 0 (unpacked buf dst grh imm).parts := by
  rw [(unpacked_lrhOnly hflags).parts]
  have hlrh : ∀ d ∈ lrhTable, d.structSizeBytes ≠ 0 → ∀ i, d.Has i →
      d.source (ibUnpack lrhTable (viewAt buf 0) dst.lrh) i = bit buf (8 * 0 + i) :=
    fun d hd h0 i hi => source_unpacked lrhTable_ok hd h0 hi
  have hview : viewAt buf 0 = buf := funext fun x => congrArg buf (Nat.zero_add x)
  rw [hview] at hlrh
  cases grh with
  | false => exact ⟨hlrh, fun d hd h0 i hi => source_unpacked bthTable_ok hd h0 hi,
      fun d hd h0 i hi => source_unpacked dethTable_ok hd h0 hi, trivial⟩
  | true => exact ⟨hlrh, fun d hd h0 i hi => source_unpacked grhTable_ok hd h0 hi,
      fun d hd h0 i hi => source_unpacked bthTable_ok hd h0 hi,
      fun d hd h0 i hi => source_unpacked dethTable_ok hd h0 hi, trivial⟩

/-- BACK: what was unpacked is packed into the same bits. -/
theorem pack_unpacked (hflags : LrhOnly dst) (out : Memory)
    (hj : InField (unpacked buf dst grh imm) j) :
    bit (ibUdHeaderPack (unpacked buf dst grh imm) out).2 j = bit buf j := by
  obtain ⟨-, hpacked, himm⟩ := pack_spec (unpacked buf dst grh imm) out
  rcases hj with hj | ⟨hpresent, hlo, hhi⟩
  · exact bit_of_restores hpacked (unpacked_restores hflags) hj
  · have hbyte := himm hpresent (j / 8 - totalBytes (unpacked buf dst grh imm).parts) (by omega)
    have hx : totalBytes (unpacked buf dst grh imm).parts +
        (j / 8 - totalBytes (unpacked buf dst grh imm).parts) = j / 8 := by omega
    have himmTrue : imm = true := hpresent
    rw [hx, (unpacked_lrhOnly hflags).totalBytes] at hbyte
    rw [(unpacked_lrhOnly hflags).totalBytes] at hlo hhi
    have hgrh : (unpacked buf dst grh imm).grhPresent = grh := rfl
    rw [hgrh] at hbyte hlo hhi
    have hdata : (unpacked buf dst grh imm).immediateData = copyBytes dst.immediateData 0 buf
        (bthAt grh + IB_BTH_BYTES + IB_DETH_BYTES) 4 := by
      subst himmTrue
      rfl
    have hpos : bthAt grh + IB_BTH_BYTES + IB_DETH_BYTES +
        (j / 8 - (bthAt grh + IB_BTH_BYTES + IB_DETH_BYTES) - 0) = j / 8 := by omega
    rw [hdata, copyBytes, if_pos (by omega), hpos] at hbyte
    rw [bit, bit, hbyte]

end Local

/-! ### Headers from `ib_ud_header_init` -/

/-- The fields of the LRH that `ib_ud_header_init` sets. -/
def lrhSet : List Field := [Lrh.linkVersion, Lrh.linkNextHeader, Lrh.packetLength]

/-- The fields of the GRH that `ib_ud_header_init` sets. -/
def grhSet : List Field := [Grh.ipVersion, Grh.payload_length, Grh.nextHeader]

/-- The fields of the BTH that `ib_ud_header_init` sets. -/
def bthSet : List Field := [Bth.opcode, Bth.padCount, Bth.transportHeaderVersion]

/-- A part keeps the fields that were set, the others have values within their widths. -/
structure Filled (desc set : List Field) (m m' : Memory) : Prop where
  keeps : ∀ d ∈ set, member d m' = member d m
  fits : ∀ d ∈ desc, d ∉ set → d.Fits m'

/-- A header that `ib_ud_header_init` produced, its remaining fields filled in afterwards. -/
structure Produced (h₀ h : IbUdHeader) : Prop where
  lrhPresent : h.lrhPresent = h₀.lrhPresent
  ethPresent : h.ethPresent = h₀.ethPresent
  vlanPresent : h.vlanPresent = h₀.vlanPresent
  grhPresent : h.grhPresent = h₀.grhPresent
  ipv4Present : h.ipv4Present = h₀.ipv4Present
  udpPresent : h.udpPresent = h₀.udpPresent
  immediatePresent : h.immediatePresent = h₀.immediatePresent
  lrh : Filled lrhTable lrhSet h₀.lrh h.lrh
  grh : h₀.grhPresent = true → Filled grhTable grhSet h₀.grh h.grh
  bth : Filled bthTable bthSet h₀.bth h.bth
  deth : Filled dethTable [] h₀.deth h.deth

section Init

variable {payloadBytes ipVersion : ℤ} {grhPresent immediatePresent : Bool} {h : IbUdHeader}
  {desc set : List Field} {m m' : Memory}

/-- The header that `ib_ud_header_init` makes with an LRH and without Ethernet, VLAN and UDP. -/
def initial (payloadBytes : ℤ) (grhPresent : Bool) (ipVersion : ℤ) (immediatePresent : Bool) :
    IbUdHeader :=
  (ibUdHeaderInit payloadBytes true false false grhPresent ipVersion false immediatePresent).2

/-- A part fits if what was set in it fits. -/
theorem Filled.all_fit (h : Filled desc set m m') (hset : ∀ d ∈ set, member d m < 2 ^ d.sizeBits) :
    ∀ d ∈ desc, d.Fits m' := by
  intro d hd
  by_cases hmem : d ∈ set
  · exact fun _ => (h.keeps d hmem).trans_lt (hset d hmem)
  · exact h.fits d hd hmem

theorem initial_lrhOnly (h4 : ipVersion ≠ 4) :
    LrhOnly (initial payloadBytes grhPresent ipVersion immediatePresent) := by
  constructor <;> simp [initial, ibUdHeaderInit, h4]

theorem initial_grh (h6 : ipVersion ≠ 6) :
    (initial payloadBytes grhPresent ipVersion immediatePresent).grhPresent =
      (grhPresent && ipVersion = 0) := by
  simp [initial, ibUdHeaderInit, h6]

theorem initial_immediate :
    (initial payloadBytes grhPresent ipVersion immediatePresent).immediatePresent =
      immediatePresent := by
  simp [initial, ibUdHeaderInit]

/-- INIT: the LRH. -/
theorem initial_lrh : (initial payloadBytes grhPresent ipVersion immediatePresent).lrh =
    assign Lrh.packetLength (packetLength payloadBytes (grhPresent && ipVersion = 0))
      (assign Lrh.linkNextHeader (if grhPresent && ipVersion = 0
        then IB_LNH_IBA_GLOBAL else IB_LNH_IBA_LOCAL)
        (assign Lrh.linkVersion 0 fun _ => 0)) := by
  simp only [initial, ibUdHeaderInit, Bool.false_eq_true, false_and, if_false]
  split_ifs <;> rfl

/-- INIT: the GRH. -/
theorem initial_grh_part (hgrh : (grhPresent && ipVersion = 0) = true) :
    (initial payloadBytes grhPresent ipVersion immediatePresent).grh =
      assign Grh.nextHeader 0x1b (assign Grh.payload_length (payloadLength 0 payloadBytes)
        (assign Grh.ipVersion 6 fun _ => 0)) := by
  simp only [initial, ibUdHeaderInit, Bool.false_eq_true, false_and, if_false, hgrh, or_true]
  split_ifs <;> rfl

/-- INIT: the BTH. -/
theorem initial_bth : (initial payloadBytes grhPresent ipVersion immediatePresent).bth =
    assign Bth.transportHeaderVersion 0 (assign Bth.padCount (toU 2 (4 - payloadBytes))
      (assign Bth.opcode (if immediatePresent then IB_OPCODE_UD_SEND_ONLY_WITH_IMMEDIATE
        else IB_OPCODE_UD_SEND_ONLY) fun _ => 0)) := by
  simp only [initial, ibUdHeaderInit, Bool.false_eq_true, false_and, if_false]
  split_ifs <;> rfl

end Init

section Values

variable {payloadBytes ipVersion : ℤ} {grhPresent immediatePresent : Bool} {h : IbUdHeader}
  {buf dst : Memory}

theorem initial_link_version :
    member Lrh.linkVersion (initial payloadBytes grhPresent ipVersion immediatePresent).lrh =
      0 := by
  rw [initial_lrh, member_assign_other (by decide) (by decide) (by decide),
    member_assign_other (by decide) (by decide) (by decide),
    member_assign_same (by decide) (by decide)]

theorem initial_link_next_header : member Lrh.linkNextHeader
    (initial payloadBytes grhPresent ipVersion immediatePresent).lrh =
      if grhPresent && ipVersion = 0 then IB_LNH_IBA_GLOBAL else IB_LNH_IBA_LOCAL := by
  rw [initial_lrh, member_assign_other (by decide) (by decide) (by decide),
    member_assign_same (by decide)]
  split_ifs <;> decide

theorem initial_packet_length : member Lrh.packetLength
    (initial payloadBytes grhPresent ipVersion immediatePresent).lrh =
      packetLength payloadBytes (grhPresent && ipVersion = 0) := by
  rw [initial_lrh, member_assign_same (by decide)]
  exact toU_lt 16 _

theorem initial_opcode :
    member Bth.opcode (initial payloadBytes grhPresent ipVersion immediatePresent).bth =
      if immediatePresent then IB_OPCODE_UD_SEND_ONLY_WITH_IMMEDIATE
        else IB_OPCODE_UD_SEND_ONLY := by
  rw [initial_bth, member_assign_other (by decide) (by decide) (by decide),
    member_assign_other (by decide) (by decide) (by decide), member_assign_same (by decide)]
  split_ifs <;> decide

theorem initial_pad_count :
    member Bth.padCount (initial payloadBytes grhPresent ipVersion immediatePresent).bth =
      toU 2 (4 - payloadBytes) := by
  have hlt := toU_lt 2 (4 - payloadBytes)
  rw [initial_bth, member_assign_other (by decide) (by decide) (by decide),
    member_assign_same (by decide) (hlt.trans (by decide))]

theorem initial_version : member Bth.transportHeaderVersion
    (initial payloadBytes grhPresent ipVersion immediatePresent).bth = 0 := by
  rw [initial_bth, member_assign_same (by decide) (by decide)]

/-- INIT: a GRH says what it is. -/
theorem initial_global (hgrh : (grhPresent && ipVersion = 0) = true) :
    member Grh.ipVersion (initial payloadBytes grhPresent ipVersion immediatePresent).grh = 6 ∧
    member Grh.payload_length
      (initial payloadBytes grhPresent ipVersion immediatePresent).grh =
        payloadLength 0 payloadBytes ∧ member Grh.nextHeader
      (initial payloadBytes grhPresent ipVersion immediatePresent).grh = 0x1b := by
  rw [initial_grh_part hgrh]
  refine ⟨?_, ?_, ?_⟩
  · rw [member_assign_other (by decide) (by decide) (by decide),
      member_assign_other (by decide) (by decide) (by decide),
      member_assign_same (by decide) (by decide)]
  · rw [member_assign_other (by decide) (by decide) (by decide), member_assign_same (by decide)]
    exact toU_lt 16 _
  · rw [member_assign_same (by decide) (by decide)]

/-- What is set in the LRH fits, if the packet length does. -/
theorem lrhSet_lt (hlen : packetLength payloadBytes (grhPresent && ipVersion = 0) < 2 ^ 11) :
    ∀ d ∈ lrhSet, member d (initial payloadBytes grhPresent ipVersion immediatePresent).lrh <
        2 ^ d.sizeBits := by
  simp only [lrhSet, List.forall_mem_cons, List.not_mem_nil, false_implies, implies_true, and_true]
  refine ⟨?_, ?_, ?_⟩
  · rw [initial_link_version]
    decide
  · rw [initial_link_next_header]
    split_ifs <;> decide
  · rw [initial_packet_length]
    exact hlen

theorem grhSet_lt (hgrh : (grhPresent && ipVersion = 0) = true) : ∀ d ∈ grhSet,
    member d (initial payloadBytes grhPresent ipVersion immediatePresent).grh <
      2 ^ d.sizeBits := by
  obtain ⟨hversion, hlength, hnext⟩ :=
    @initial_global payloadBytes ipVersion grhPresent immediatePresent hgrh
  simp only [grhSet, List.forall_mem_cons, List.not_mem_nil, false_implies, implies_true]
  refine ⟨?_, ?_, ?_⟩
  · rw [hversion]
    decide
  · rw [hlength]
    exact toU_lt 16 _
  · rw [hnext]
    decide

theorem bthSet_lt : ∀ d ∈ bthSet,
    member d (initial payloadBytes grhPresent ipVersion immediatePresent).bth <
      2 ^ d.sizeBits := by
  simp only [bthSet, List.forall_mem_cons, List.not_mem_nil, false_implies, implies_true]
  refine ⟨?_, ?_, ?_⟩
  · rw [initial_opcode]
    split_ifs <;> decide
  · rw [initial_pad_count]
    exact toU_lt 2 _
  · rw [initial_version]
    decide

end Values

/-! ### The round trip -/

section RoundTrip

variable {payloadBytes ipVersion : ℤ} {grhPresent immediatePresent : Bool} {h dst : IbUdHeader}
  {buf : Memory}

/-- What is restored of a packed header. -/
structure Restored (h h' : IbUdHeader) : Prop where
  grhPresent : h'.grhPresent = h.grhPresent
  immediatePresent : h'.immediatePresent = h.immediatePresent
  lrh : Agree lrhTable h'.lrh h.lrh
  grh : h.grhPresent = true → Agree grhTable h'.grh h.grh
  bth : Agree bthTable h'.bth h.bth
  deth : Agree dethTable h'.deth h.deth
  immediateData : h.immediatePresent = true → ∀ x < 4, h'.immediateData x = h.immediateData x

/-- The members of the parts that stand in the buffer are unpacked. -/
structure Agrees (buf : Memory) (h dst : IbUdHeader) : Prop where
  lrh : Agree lrhTable (ibUnpack lrhTable buf dst.lrh) h.lrh
  grh : h.grhPresent = true →
    Agree grhTable (ibUnpack grhTable (viewAt buf IB_LRH_BYTES) dst.grh) h.grh
  bth : Agree bthTable (ibUnpack bthTable (viewAt buf (bthAt h.grhPresent)) dst.bth) h.bth
  deth : Agree dethTable
    (ibUnpack dethTable (viewAt buf (bthAt h.grhPresent + IB_BTH_BYTES)) dst.deth) h.deth

theorem Produced.lrhOnly (h4 : ipVersion ≠ 4)
    (hp : Produced (initial payloadBytes grhPresent ipVersion immediatePresent) h) :
    LrhOnly h := by
  have h₀ := @initial_lrhOnly payloadBytes ipVersion grhPresent immediatePresent h4
  exact ⟨hp.lrhPresent.trans h₀.lrh, hp.ethPresent.trans h₀.eth, hp.vlanPresent.trans h₀.vlan,
    hp.ipv4Present.trans h₀.ipv4, hp.udpPresent.trans h₀.udp⟩

/-- The parts of a produced header are unpacked from where they were packed. -/
theorem Produced.agrees (h4 : ipVersion ≠ 4) (h6 : ipVersion ≠ 6)
    (hlen : packetLength payloadBytes (grhPresent && ipVersion = 0) < 2 ^ 11)
    (hp : Produced (initial payloadBytes grhPresent ipVersion immediatePresent) h)
    (hpacked : Packed buf 0 h.parts) (dst : IbUdHeader) : Agrees buf h dst := by
  obtain ⟨hlrh, hgrh, hbth, hdeth⟩ := (hp.lrhOnly h4).stands hpacked
  have hview : viewAt buf 0 = buf := funext fun x => congrArg buf (Nat.zero_add x)
  have hgrhPresent := hp.grhPresent.trans (initial_grh h6)
  refine ⟨?_, fun hg => ?_, ?_, ?_⟩
  · have hfits := hp.lrh.all_fit (lrhSet_lt hlen)
    have hback := agree_ibUnpack lrhTable_ok hfits hlrh dst.lrh
    rwa [hview] at hback
  · have hset := hp.grh (hp.grhPresent.symm.trans hg)
    exact agree_ibUnpack grhTable_ok (hset.all_fit (grhSet_lt (hgrhPresent.symm.trans hg)))
      (hgrh hg) dst.grh
  · exact agree_ibUnpack bthTable_ok (hp.bth.all_fit bthSet_lt) hbth dst.bth
  · have hfits := hp.deth.all_fit fun d hd => absurd hd List.not_mem_nil
    exact agree_ibUnpack dethTable_ok hfits hdeth dst.deth

/-- A produced header passes the checks. -/
theorem Produced.accepts (h6 : ipVersion ≠ 6)
    (hp : Produced (initial payloadBytes grhPresent ipVersion immediatePresent) h)
    (hagree : Agrees buf h dst) : Accepts buf dst h.grhPresent h.immediatePresent := by
  have hgrhPresent := hp.grhPresent.trans (initial_grh h6)
  have himm := hp.immediatePresent.trans initial_immediate
  refine ⟨?_, ?_, fun hg => ?_, ?_, ?_⟩
  · rw [hagree.lrh.member_eq (by decide) (by decide) (by decide), hp.lrh.keeps _ (by decide),
      initial_link_version]
  · rw [hagree.lrh.member_eq (by decide) (by decide) (by decide), hp.lrh.keeps _ (by decide),
      initial_link_next_header, hgrhPresent]
  · obtain ⟨hversion, -, hnext⟩ := @initial_global payloadBytes ipVersion grhPresent
      immediatePresent (hgrhPresent.symm.trans hg)
    have hset := hp.grh (hp.grhPresent.symm.trans hg)
    rw [(hagree.grh hg).member_eq (by decide) (by decide) (by decide), hset.keeps _ (by decide),
      (hagree.grh hg).member_eq (by decide) (by decide) (by decide), hset.keeps _ (by decide)]
    exact ⟨hversion, hnext⟩
  · rw [hagree.bth.member_eq (by decide) (by decide) (by decide), hp.bth.keeps _ (by decide),
      initial_opcode, himm]
  · rw [hagree.bth.member_eq (by decide) (by decide) (by decide), hp.bth.keeps _ (by decide),
      initial_version]

/-- FORTH: a packed header is unpacked. -/
theorem unpack_pack (h4 : ipVersion ≠ 4) (h6 : ipVersion ≠ 6)
    (hlen : packetLength payloadBytes (grhPresent && ipVersion = 0) < 2 ^ 11)
    (hp : Produced (initial payloadBytes grhPresent ipVersion immediatePresent) h)
    (buf : Memory) (dst : IbUdHeader) :
    let s := ibUdHeaderPack h buf
    let u := ibUdHeaderUnpack s.2 dst
    u.1 = none ∧ Restored h u.2.1 ∧ u.2.2 = s.1 := by
  obtain ⟨hbytes, hpacked, himm⟩ := pack_spec h buf
  have hagree := hp.agrees h4 h6 hlen hpacked dst
  have htotal := (hp.lrhOnly h4).totalBytes
  dsimp only
  rw [unpack_eq (hp.accepts h6 hagree)]
  refine ⟨rfl, ⟨rfl, rfl, hagree.lrh, fun hg => ?_, hagree.bth, hagree.deth, fun hi x hx => ?_⟩, ?_⟩
  · change Agree grhTable (if h.grhPresent then _ else _) h.grh
    rw [if_pos hg]
    exact hagree.grh hg
  · change (if h.immediatePresent then _ else _ : Memory) x = _
    rw [if_pos hi, copyBytes, if_pos (by omega), Nat.sub_zero, ← htotal]
    exact himm hi x hx
  · rw [hbytes, htotal]

end RoundTrip

/-- CORRECT: a header with an LRH whose packet length fits its field, made without an IP version
    that brings a GRH of its own, is restored from its bytes, whatever its other fields hold. A
    header that was unpacked, with the flags of an LRH only, is packed into the same bits. -/
theorem ud_header_round_trip :
    (∀ (payloadBytes : ℤ) (grhPresent : Bool) (ipVersion : ℤ) (immediatePresent : Bool)
      (h : IbUdHeader), ipVersion ≠ 4 → ipVersion ≠ 6 →
      packetLength payloadBytes (grhPresent && ipVersion = 0) < 2 ^ 11 →
      Produced (ibUdHeaderInit payloadBytes true false false grhPresent ipVersion false
        immediatePresent).2 h → ∀ (buf : Memory) (dst : IbUdHeader),
        let s := ibUdHeaderPack h buf
        let u := ibUdHeaderUnpack s.2 dst
        u.1 = none ∧ Restored h u.2.1 ∧ u.2.2 = s.1) ∧
    ∀ (buf : Memory) (dst : IbUdHeader), LrhOnly dst → (ibUdHeaderUnpack buf dst).1 = none →
      ∀ (out : Memory) (j : ℕ), InField (ibUdHeaderUnpack buf dst).2.1 j →
        bit (ibUdHeaderPack (ibUdHeaderUnpack buf dst).2.1 out).2 j = bit buf j := by
  refine ⟨fun payload grh ver imm h h4 h6 hlen hp buf dst => unpack_pack h4 h6 hlen hp buf dst,
    fun buf dst hflags hok out j hj => ?_⟩
  obtain ⟨grh, imm, hacc⟩ := accepts_of_unpack hok
  rw [unpack_eq hacc] at hj ⊢
  exact pack_unpacked hflags out hj

/-! ### Examples -/

instance (d : Field) (m : Memory) : Decidable (d.Fits m) := inferInstanceAs (Decidable (_ → _))

/-- A header as `ib_ud_header_init` leaves it, if the zeroes and lengths fit. -/
theorem Produced.self {h : IbUdHeader} (hlrh : ∀ d ∈ lrhTable, d ∉ lrhSet → d.Fits h.lrh)
    (hgrh : ∀ d ∈ grhTable, d ∉ grhSet → d.Fits h.grh)
    (hbth : ∀ d ∈ bthTable, d ∉ bthSet → d.Fits h.bth) (hdeth : ∀ d ∈ dethTable, d.Fits h.deth) :
    Produced h h where
  lrhPresent := rfl
  ethPresent := rfl
  vlanPresent := rfl
  grhPresent := rfl
  ipv4Present := rfl
  udpPresent := rfl
  immediatePresent := rfl
  lrh := ⟨fun _ _ => rfl, hlrh⟩
  grh := fun _ => ⟨fun _ _ => rfl, hgrh⟩
  bth := ⟨fun _ _ => rfl, hbth⟩
  deth := ⟨fun _ _ => rfl, fun d hd _ => hdeth d hd⟩

/-- The bytes of an LRH on virtual lane 1, a BTH and a DETH. -/
def localBytes : Memory := fun x =>
  [0x10, 2, 0xc0, 1, 0, 9, 0, 0x17, 0x64, 0x80, 0xff, 0xff, 0, 0xab, 0xcd, 0xef, 0, 0, 0, 77,
    0x80, 1, 0, 0, 0, 0, 0, 0x42].getD x 0

/-- A header that expects an LRH. -/
def lrhHeader : IbUdHeader := { IbUdHeader.zero with lrhPresent := true }

/-- A datagram of 4 bytes with a GRH and immediate data, addressed. -/
def addressed : IbUdHeader :=
  let h := (ibUdHeaderInit 4 true false false true 0 false true).2
  { h with
    lrh := assign Lrh.destinationLid 0xc001 (assign Lrh.sourceLid 0x17 h.lrh)
    grh := assign Grh.destinationGid (0xfe80 * 2 ^ 112 + 9) (assign Grh.hopLimit 64 h.grh)
    bth := assign Bth.pkey 0xffff (assign Bth.destinationQpn 0xabcdef (assign Bth.psn 77 h.bth))
    deth := assign Deth.qkey 0x80010000 (assign Deth.sourceQpn 0x42 h.deth)
    immediateData := fun x => BitVec.ofNat 8 (x + 1) }

theorem addressed_produced : Produced (ibUdHeaderInit 4 true false false true 0 false true).2
    addressed where
  lrhPresent := rfl
  ethPresent := rfl
  vlanPresent := rfl
  grhPresent := rfl
  ipv4Present := rfl
  udpPresent := rfl
  immediatePresent := rfl
  lrh := ⟨by decide +kernel, by decide +kernel⟩
  grh _ := ⟨by decide +kernel, by decide +kernel⟩
  bth := ⟨by decide +kernel, by decide +kernel⟩
  deth := ⟨by decide, by decide +kernel⟩

/-- That datagram is restored; and one with an LRH only is packed into the same bits. -/
theorem ud_header_round_trip_demo :
    (let s := ibUdHeaderPack addressed fun _ => 0
      let u := ibUdHeaderUnpack s.2 IbUdHeader.zero
      u.1 = none ∧ Restored addressed u.2.1 ∧ u.2.2 = s.1) ∧
    ∀ out j, InField (ibUdHeaderUnpack localBytes lrhHeader).2.1 j →
      bit (ibUdHeaderPack (ibUdHeaderUnpack localBytes lrhHeader).2.1 out).2 j =
        bit localBytes j :=
  ⟨ud_header_round_trip.1 4 true 0 true _ (by decide) (by decide) (by decide) addressed_produced
      (fun _ => 0) IbUdHeader.zero,
    ud_header_round_trip.2 localBytes lrhHeader ⟨rfl, rfl, rfl, rfl, rfl⟩ (by decide +kernel)⟩

/-- BROKEN: the packet length of 9000 bytes is cut to its 11 bits; IP version 6 brings a GRH that
    the LRH does not announce; and a header without `lrh_present` is packed without the LRH that was
    unpacked. -/
theorem ud_header_round_trip_broken :
    (let h := (ibUdHeaderInit 9000 true false false false 0 false false).2;
      Produced h h ∧
        ¬ Restored h (ibUdHeaderUnpack (ibUdHeaderPack h fun _ => 0).2 IbUdHeader.zero).2.1) ∧
    (let h := (ibUdHeaderInit 4 true false false false 6 false false).2;
      Produced h h ∧
        ¬ Restored h (ibUdHeaderUnpack (ibUdHeaderPack h fun _ => 0).2 IbUdHeader.zero).2.1) ∧
    (ibUdHeaderUnpack localBytes IbUdHeader.zero).1 = none ∧
      Lrh.virtualLane ∈ lrhTable ∧ Lrh.virtualLane.Has 3 ∧
      bit (ibUdHeaderPack (ibUdHeaderUnpack localBytes IbUdHeader.zero).2.1 fun _ => 0).2 3 ≠
        bit localBytes 3 := by
  refine ⟨⟨.self (by decide +kernel) (by decide +kernel) (by decide +kernel) (by decide +kernel),
    fun h => ?_⟩, ⟨.self (by decide +kernel) (by decide +kernel) (by decide +kernel)
      (by decide +kernel), fun h => ?_⟩, by decide +kernel, by decide, by decide, by decide +kernel⟩
  · -- 2258 words become 210
    have hcut : member Lrh.packetLength (ibUdHeaderUnpack (ibUdHeaderPack
        (ibUdHeaderInit 9000 true false false false 0 false false).2 fun _ => 0).2
        IbUdHeader.zero).2.1.lrh ≠ member Lrh.packetLength
          (ibUdHeaderInit 9000 true false false false 0 false false).2.lrh := by
      decide +kernel
    exact hcut (h.lrh.member_eq (by decide) (by decide) (by decide))
  · have hflag : (ibUdHeaderUnpack (ibUdHeaderPack
        (ibUdHeaderInit 4 true false false false 6 false false).2 fun _ => 0).2
        IbUdHeader.zero).2.1.grhPresent ≠
          (ibUdHeaderInit 4 true false false false 6 false false).2.grhPresent := by
      decide +kernel
    exact hflag h.grhPresent

end RdmaDriver.UdHeader
