import Mlvpn.Ports.VersionInfo
import Mlvpn.Verified.Layout

/-!
# The wire format

Port of `protocol::Header` and of the payloads with a fixed layout: `ProbePayload`,
`StatsPayload`, `VersionInfoPayload` and the three of the throughput test.  A decoder's
accesses to its buffer are checked ones, so that a decoder that ends in `ok` has read
nothing outside of it; what it makes of the buffer, a value or an error, comes inside.
Floats are kept as their bit patterns, which is what `to_be_bytes` writes.

Two of the layouts have grown over time.  Their decoders take the older, shorter forms
and put a sentinel where a field is missing.

## Main results

* `decodeVersionInfo_eq`: `VersionInfoPayload::decode` with its accesses checked is the decoder
  that is used elsewhere.
* `wire_format`: round trips with any bytes behind them, the older layouts, the rejection
  of short buffers, names in their fields, and that no decoder leaves its buffer.
-/

namespace Mlvpn.Ports.WireFormat

open Protocol VersionInfo Verified.BigEndian Verified.CheckedSlice Verified.Layout Verified.Utf8

/-! ## Headers -/

def MAGIC : UInt8 := 0x4D
def VERSION : UInt8 := 1
def HEADER_LEN : Nat := 1 + 1 + 1 + 1 + 8

/-- `ptype as u8`. -/
def toU8 : PacketType → UInt8
  | .HandshakeInit => 1
  | .HandshakeResp => 2
  | .Data => 3
  | .Probe => 4
  | .ProbeReply => 5
  | .Keepalive => 6
  | .Disconnect => 7
  | .StatsShare => 8
  | .ThroughputTestData => 11
  | .ThroughputTestResult => 12
  | .ThroughputTestReverseRequest => 13
  | .VersionInfo => 14
  | .FecParity => 15
  | .FecParityQ => 16

def fromU8 (v : UInt8) : Except MlvpnError PacketType :=
  if v = 1 then .ok .HandshakeInit
  else if v = 2 then .ok .HandshakeResp
  else if v = 3 then .ok .Data
  else if v = 4 then .ok .Probe
  else if v = 5 then .ok .ProbeReply
  else if v = 6 then .ok .Keepalive
  else if v = 7 then .ok .Disconnect
  else if v = 8 then .ok .StatsShare
  else if v = 11 then .ok .ThroughputTestData
  else if v = 12 then .ok .ThroughputTestResult
  else if v = 13 then .ok .ThroughputTestReverseRequest
  else if v = 14 then .ok .VersionInfo
  else if v = 15 then .ok .FecParity
  else if v = 16 then .ok .FecParityQ
  else .error (.protocol s!"unknown packet type byte {v}")

theorem fromU8_toU8 (ptype : PacketType) : fromU8 (toU8 ptype) = .ok ptype := by
  cases ptype <;> rfl

structure Header where
  ptype : PacketType
  linkId : UInt8
  seq : UInt64
deriving Repr, DecidableEq

namespace Header

def toBytes (h : Header) : Bytes :=
  [MAGIC] ++ ([VERSION] ++ ([toU8 h.ptype] ++ ([h.linkId] ++ bigEndian 8 h.seq.toNat)))

/-- What is left to read once magic and version are right. -/
def decodeFields (buf : Bytes) : Checked (Except MlvpnError (Header × Bytes)) := do
  let v ← index buf 2
  match fromU8 v with
  | .error e => pure (.error e)
  | .ok ptype =>
      let linkId ← index buf 3
      let seq ← u64 buf 4
      let rest ← subslice buf HEADER_LEN buf.length
      pure (.ok (⟨ptype, linkId, seq⟩, rest))

def decode (buf : Bytes) : Checked (Except MlvpnError (Header × Bytes)) :=
  if buf.length < HEADER_LEN then pure (.error (.protocol "frame shorter than header"))
  else do
    let magic ← index buf 0
    if magic ≠ MAGIC then pure (.error (.protocol "bad magic byte"))
    else
      let version ← index buf 1
      if version ≠ VERSION then
        pure (.error (.protocol s!"unsupported protocol version {version}"))
      else decodeFields buf

end Header

/-! ## Payloads -/

/-- The common head of the fixed layouts: a buffer that is too short is an error. -/
def atLeast {α : Type} (len : Nat) (message : String) (read : Bytes → Checked α) (buf : Bytes) :
    Checked (Except MlvpnError α) :=
  if buf.length < len then pure (.error (.protocol message))
  else do
    let x ← read buf
    pure (.ok x)

structure ProbePayload where
  probeSeq : UInt32
  sendTsNs : UInt64
deriving Repr, DecidableEq

namespace ProbePayload

def LEN : Nat := 4 + 8

def encode (p : ProbePayload) : Bytes :=
  bigEndian 4 p.probeSeq.toNat ++ bigEndian 8 p.sendTsNs.toNat

def read (buf : Bytes) : Checked ProbePayload := do
  let probeSeq ← u32 buf 0
  let sendTsNs ← u64 buf 4
  pure { probeSeq, sendTsNs }

def decode : Bytes → Checked (Except MlvpnError ProbePayload) :=
  atLeast LEN "probe payload too short" read

end ProbePayload

/-- The four floats by their bits. -/
structure StatsPayload where
  name : Bytes
  rttMs : UInt32
  jitterMs : UInt32
  lossPct : UInt32
  throughputMbps : UInt32
  state : UInt8
  rxBytes : Option UInt64
  name_length : name.length = 16
deriving Repr, DecidableEq

namespace StatsPayload

def NAME_LEN : Nat := 16
def LEGACY_LEN : Nat := NAME_LEN + 4 * 4 + 1
def LEN : Nat := LEGACY_LEN + 8

def encodeName (name : String) : Bytes := encodeText NAME_LEN name

def nameStr (replaced : Bytes → String) (p : StatsPayload) : String :=
  fromUtf8Lossy replaced (untilNul p.name)

def encode (p : StatsPayload) : Bytes :=
  p.name ++ (bigEndian 4 p.rttMs.toNat ++ (bigEndian 4 p.jitterMs.toNat ++
    (bigEndian 4 p.lossPct.toNat ++ (bigEndian 4 p.throughputMbps.toNat ++
      ([p.state] ++ bigEndian 8 (p.rxBytes.getD 0).toNat)))))

/-- The counter that newer peers append. -/
def readRxBytes (buf : Bytes) : Checked (Option UInt64) :=
  if LEN ≤ buf.length then do
    let rxBytes ← u64 buf LEGACY_LEN
    pure (some rxBytes)
  else pure none

def read (buf : Bytes) : Checked StatsPayload := do
  let name ← array buf 0 NAME_LEN
  let rttMs ← u32 buf NAME_LEN
  let jitterMs ← u32 buf (NAME_LEN + 4)
  let lossPct ← u32 buf (NAME_LEN + 8)
  let throughputMbps ← u32 buf (NAME_LEN + 12)
  let state ← index buf (NAME_LEN + 16)
  let rxBytes ← readRxBytes buf
  pure { name := name.1, rttMs, jitterMs, lossPct, throughputMbps, state, rxBytes
         name_length := name.2 }

def decode : Bytes → Checked (Except MlvpnError StatsPayload) :=
  atLeast LEGACY_LEN "stats payload too short" read

end StatsPayload

structure ThroughputTestDataPayload where
  testId : UInt32
  done : Bool
deriving Repr, DecidableEq

namespace ThroughputTestDataPayload

def HEADER_LEN : Nat := 4 + 1

def encodePadded (p : ThroughputTestDataPayload) (totalLen : Nat) : Bytes :=
  bigEndian 4 p.testId.toNat ++
    ([if p.done then 1 else 0] ++ List.replicate (max totalLen HEADER_LEN - HEADER_LEN) 0)

def read (buf : Bytes) : Checked ThroughputTestDataPayload := do
  let testId ← u32 buf 0
  let flag ← index buf 4
  pure { testId, done := flag ≠ 0 }

def decode : Bytes → Checked (Except MlvpnError ThroughputTestDataPayload) :=
  atLeast HEADER_LEN "throughput test data payload too short" read

end ThroughputTestDataPayload

/-- The result and the reverse request are two words each. -/
def readWords (buf : Bytes) : Checked (UInt32 × UInt32) := do
  let first ← u32 buf 0
  let second ← u32 buf 4
  pure (first, second)

def encodeWords (first second : UInt32) : Bytes :=
  bigEndian 4 first.toNat ++ bigEndian 4 second.toNat

/-- The throughput by its bits. -/
structure ThroughputTestResultPayload where
  testId : UInt32
  achievedMbps : UInt32
deriving Repr, DecidableEq

namespace ThroughputTestResultPayload

def LEN : Nat := 4 + 4

def encode (p : ThroughputTestResultPayload) : Bytes := encodeWords p.testId p.achievedMbps

def decode : Bytes → Checked (Except MlvpnError ThroughputTestResultPayload) :=
  atLeast LEN "throughput test result payload too short" fun buf => do
    let words ← readWords buf
    pure ⟨words.1, words.2⟩

end ThroughputTestResultPayload

structure ThroughputTestReverseRequestPayload where
  testId : UInt32
  durationSecs : UInt32
deriving Repr, DecidableEq

namespace ThroughputTestReverseRequestPayload

def LEN : Nat := 4 + 4

def encode (p : ThroughputTestReverseRequestPayload) : Bytes :=
  encodeWords p.testId p.durationSecs

def decode : Bytes → Checked (Except MlvpnError ThroughputTestReverseRequestPayload) :=
  atLeast LEN "throughput test reverse request payload too short" fun buf => do
    let words ← readWords buf
    pure ⟨words.1, words.2⟩

end ThroughputTestReverseRequestPayload

/-! ## Version info, access by access -/

/-- An MTU that an older peer's buffer may end before. -/
def readMtu (buf : Bytes) (start : Nat) : Checked UInt16 :=
  if start + 2 ≤ buf.length then u16 buf start else pure 0

/-- A field of `len` bytes, copied to a zeroed array as far as the buffer has it. -/
def copyPadded (buf : Bytes) (start len : Nat) : Checked Bytes :=
  let zeroed := List.replicate len 0
  if start + len ≤ buf.length then do
    let bs ← subslice buf start (start + len)
    copyFromSlice zeroed 0 len bs
  else if start < buf.length then do
    let bs ← subslice buf start buf.length
    copyFromSlice zeroed 0 (buf.length - start) bs
  else pure zeroed

def readVersionInfo (buf : Bytes) : Checked VersionInfoPayload := do
  let version ← array buf 0 VERSION_LEN
  let tunnelMtu ← readMtu buf VERSION_LEN
  let copied ← copyPadded buf (VERSION_LEN + 2) LINK_NAME_LEN
  let primaryLinkName ← sized LINK_NAME_LEN copied
  let liveTunnelMtu ← readMtu buf (VERSION_LEN + 2 + LINK_NAME_LEN)
  pure { version := version.1, tunnelMtu, liveTunnelMtu, primaryLinkName := primaryLinkName.1
         version_length := version.2, name_length := primaryLinkName.2 }

/-- `VersionInfoPayload::decode`. -/
def decodeVersionInfo : Bytes → Checked (Except MlvpnError VersionInfoPayload) :=
  atLeast VERSION_LEN "version info payload too short" readVersionInfo

theorem readMtu_eq (buf : Bytes) (start : Nat) :
    readMtu buf start = .ok (VersionInfoPayload.readU16 buf start) := by
  unfold readMtu VersionInfoPayload.readU16
  split
  · next h =>
      have hlen : ((buf.drop start).take 2).length = 2 := by
        rw [List.length_take, List.length_drop]
        omega
      rw [u16, array, subslice_of_le (Nat.le_add_right _ _) h, Nat.add_sub_cancel_left, ok_bind,
        sized_of_length hlen, slice, Nat.add_sub_cancel_left]
      rfl
  · rfl

/-- A slice at the front of a zeroed array. -/
theorem copyFromSlice_zeroed {len : Nat} {bs : Bytes} (h : bs.length ≤ len) :
    copyFromSlice (List.replicate len 0) 0 bs.length bs = .ok (padTo len bs) := by
  rw [copyFromSlice_of_le (Nat.zero_le _) (by simpa using h) (Nat.sub_zero _).symm, overwrite,
    Nat.zero_add, List.take_zero, List.nil_append, List.drop_replicate, padTo]

theorem copyPadded_eq (buf : Bytes) (start len : Nat) :
    copyPadded buf start len = .ok (padTo len (slice buf start (start + len))) := by
  have hslice : (slice buf start (start + len)).length = min len (buf.length - start) := by
    rw [slice, List.length_take, List.length_drop, Nat.add_sub_cancel_left]
  have hcopy := copyFromSlice_zeroed (hslice ▸ Nat.min_le_left _ _ :
    (slice buf start (start + len)).length ≤ len)
  rw [copyPadded]
  by_cases hfull : start + len ≤ buf.length
  · rw [hslice, Nat.min_eq_left (by omega)] at hcopy
    rw [if_pos hfull, subslice_of_le (Nat.le_add_right _ _) hfull]
    exact hcopy
  · rw [if_neg hfull]
    by_cases hpart : start < buf.length
    · have hrest : slice buf start (start + len) = (buf.drop start).take (buf.length - start) := by
        rw [slice, List.take_of_length_le (by rw [List.length_drop]; omega),
          List.take_of_length_le (by rw [List.length_drop])]
      rw [hslice, Nat.min_eq_right (by omega)] at hcopy
      rw [if_pos hpart, subslice_of_le (Nat.le_of_lt hpart) (Nat.le_refl _), ← hrest]
      exact hcopy
    · have hnone : slice buf start (start + len) = [] := by
        rw [slice, List.drop_eq_nil_of_le (by omega), List.take_nil]
      rw [if_neg hpart, hnone]
      rfl

/-- The decoder with its accesses checked is the one that the resolver of the peer's
primary is modelled with. -/
theorem decodeVersionInfo_eq (buf : Bytes) :
    decodeVersionInfo buf = .ok (VersionInfoPayload.decode buf) := by
  rw [decodeVersionInfo, atLeast, VersionInfoPayload.decode]
  by_cases hshort : buf.length < VERSION_LEN
  · rw [if_pos hshort, if_pos hshort]
    rfl
  · have hversion : (slice buf 0 VERSION_LEN).length = VERSION_LEN := by
      rw [slice, List.length_take, List.length_drop]
      omega
    have harray : array buf 0 VERSION_LEN = .ok ⟨slice buf 0 VERSION_LEN, hversion⟩ := by
      rw [array, subslice_of_le (Nat.zero_le _) (by omega)]
      exact sized_of_length hversion
    have hname : (padTo LINK_NAME_LEN (slice buf (VERSION_LEN + 2)
        (VERSION_LEN + 2 + LINK_NAME_LEN))).length = LINK_NAME_LEN :=
      VersionInfoPayload.length_padTo (VersionInfoPayload.length_slice_le buf _ _)
    rw [if_neg hshort, if_neg hshort, readVersionInfo, harray, ok_bind, readMtu_eq, ok_bind,
      copyPadded_eq, ok_bind, sized_of_length hname, ok_bind, readMtu_eq]
    refine congrArg (fun p => Except.ok (Except.ok p)) (VersionInfoPayload.ext ?_ rfl rfl rfl)
    exact (VersionInfoPayload.padTo_of_length hversion).symm

/-! ## Round trips -/

section

variable {α : Type} {len : Nat} {message : String} {read : Bytes → Checked α} {buf : Bytes}

theorem atLeast_of_read {x : α} (hlen : len ≤ buf.length) (hread : read buf = .ok x) :
    atLeast len message read buf = .ok (.ok x) := by
  rw [atLeast, if_neg (Nat.not_lt.mpr hlen), hread]
  rfl

theorem atLeast_of_lt (hlen : buf.length < len) :
    atLeast len message read buf = .ok (.error (.protocol message)) := if_pos hlen

/-- A layout whose required part is read inside the buffer. -/
theorem atLeast_inBounds (hread : ∀ buf : Bytes, len ≤ buf.length → ∃ x, read buf = .ok x)
    (buf : Bytes) : ∃ r, atLeast len message read buf = .ok r := by
  by_cases hlen : buf.length < len
  · exact ⟨_, atLeast_of_lt hlen⟩
  · obtain ⟨x, hx⟩ := hread buf (Nat.not_lt.mp hlen)
    exact ⟨_, atLeast_of_read (Nat.not_lt.mp hlen) hx⟩

end

theorem Header.decode_toBytes (h : Header) (rest : Bytes) :
    Header.decode (h.toBytes ++ rest) = .ok (.ok (h, rest)) := by
  have hseq : At (h.toBytes ++ rest) 4 (bigEndian 8 h.seq.toNat) :=
    (((((at_self _).behind rfl).behind rfl).behind rfl).behind rfl).append rest
  have hlen : h.toBytes.length = HEADER_LEN := by simp [Header.toBytes, HEADER_LEN]
  have hbound : ¬(h.toBytes ++ rest).length < HEADER_LEN := by
    rw [List.length_append, hlen]
    omega
  have hrest : subslice (h.toBytes ++ rest) HEADER_LEN (h.toBytes ++ rest).length = .ok rest := by
    have hat : At (h.toBytes ++ rest) HEADER_LEN rest := ⟨h.toBytes, [], by simp, hlen⟩
    apply hat.subslice
    rw [List.length_append, hlen]
  have hfields : Header.decodeFields (h.toBytes ++ rest) = .ok (.ok (h, rest)) := by
    rw [Header.decodeFields, show index (h.toBytes ++ rest) 2 = .ok (toU8 h.ptype) from rfl,
      ok_bind, fromU8_toU8]
    show (index (h.toBytes ++ rest) 3 >>= _) = _
    rw [show index (h.toBytes ++ rest) 3 = .ok h.linkId from rfl, ok_bind, hseq.u64, ok_bind,
      hrest, ok_bind]
    rfl
  rw [Header.decode, if_neg hbound, show index (h.toBytes ++ rest) 0 = .ok MAGIC from rfl, ok_bind,
    if_neg (not_not.mpr rfl), show index (h.toBytes ++ rest) 1 = .ok VERSION from rfl, ok_bind,
    if_neg (not_not.mpr rfl), hfields]

theorem ProbePayload.decode_encode (p : ProbePayload) (rest : Bytes) :
    ProbePayload.decode (p.encode ++ rest) = .ok (.ok p) := by
  have hseq : At (p.encode ++ rest) 0 (bigEndian 4 p.probeSeq.toNat) :=
    (at_head _ _).append rest
  have hts : At (p.encode ++ rest) 4 (bigEndian 8 p.sendTsNs.toNat) :=
    ((at_self _).behind (bigEndian_length 4 _)).append rest
  refine atLeast_of_read ?_ ?_
  · have hle := hts.le_length
    rwa [bigEndian_length] at hle
  · rw [ProbePayload.read, hseq.u32, ok_bind, hts.u64, ok_bind]
    rfl

theorem ThroughputTestDataPayload.decode_encodePadded (p : ThroughputTestDataPayload)
    (totalLen : Nat) (rest : Bytes) :
    ThroughputTestDataPayload.decode (p.encodePadded totalLen ++ rest) = .ok (.ok p) := by
  have hid : At (p.encodePadded totalLen ++ rest) 0 (bigEndian 4 p.testId.toNat) :=
    (at_head _ _).append rest
  have hflag : At (p.encodePadded totalLen ++ rest) 4 [if p.done then 1 else 0] :=
    ((at_head _ _).behind (bigEndian_length 4 _)).append rest
  refine atLeast_of_read hflag.le_length ?_
  rw [ThroughputTestDataPayload.read, hid.u32, ok_bind, hflag.index, ok_bind]
  obtain ⟨testId, done⟩ := p
  cases done with
  | false => rfl
  | true => rfl

theorem readWords_encodeWords (first second : UInt32) (rest : Bytes) :
    readWords (encodeWords first second ++ rest) = .ok (first, second) := by
  have hfirst : At (encodeWords first second ++ rest) 0 (bigEndian 4 first.toNat) :=
    (at_head _ _).append rest
  have hsecond : At (encodeWords first second ++ rest) 4 (bigEndian 4 second.toNat) :=
    ((at_self _).behind (bigEndian_length 4 _)).append rest
  rw [readWords, hfirst.u32, ok_bind, hsecond.u32, ok_bind]
  rfl

theorem le_length_encodeWords (first second : UInt32) (rest : Bytes) :
    8 ≤ (encodeWords first second ++ rest).length := by
  simp only [encodeWords, List.length_append, bigEndian_length]
  omega

theorem ThroughputTestResultPayload.decode_encode (p : ThroughputTestResultPayload)
    (rest : Bytes) : ThroughputTestResultPayload.decode (p.encode ++ rest) = .ok (.ok p) := by
  refine atLeast_of_read (le_length_encodeWords _ _ rest) ?_
  rw [ThroughputTestResultPayload.encode, readWords_encodeWords]
  rfl

theorem ThroughputTestReverseRequestPayload.decode_encode
    (p : ThroughputTestReverseRequestPayload) (rest : Bytes) :
    ThroughputTestReverseRequestPayload.decode (p.encode ++ rest) = .ok (.ok p) := by
  refine atLeast_of_read (le_length_encodeWords _ _ rest) ?_
  rw [ThroughputTestReverseRequestPayload.encode, readWords_encodeWords]
  rfl

/-! ## Layouts that have grown -/

namespace StatsPayload

/-- What the first version of the payload had. -/
def legacy (p : StatsPayload) : Bytes :=
  p.name ++ (bigEndian 4 p.rttMs.toNat ++ (bigEndian 4 p.jitterMs.toNat ++
    (bigEndian 4 p.lossPct.toNat ++ (bigEndian 4 p.throughputMbps.toNat ++ [p.state]))))

variable (p : StatsPayload) {rest : Bytes} {rxBytes : Option UInt64}

theorem length_legacy : p.legacy.length = LEGACY_LEN := by
  simp only [legacy, List.length_append, bigEndian_length, List.length_singleton, p.name_length]
  rfl

theorem encode_eq : p.encode = p.legacy ++ bigEndian 8 (p.rxBytes.getD 0).toNat := by
  simp only [encode, legacy, List.append_assoc]

/-- The first fields are read from where they have always been. -/
theorem read_legacy (hrx : readRxBytes (p.legacy ++ rest) = .ok rxBytes) :
    read (p.legacy ++ rest) = .ok { p with rxBytes } := by
  have hname : At (p.legacy ++ rest) 0 p.name := (at_head _ _).append rest
  have hrtt : At (p.legacy ++ rest) 16 (bigEndian 4 p.rttMs.toNat) :=
    ((at_head _ _).behind p.name_length).append rest
  have hjitter : At (p.legacy ++ rest) 20 (bigEndian 4 p.jitterMs.toNat) :=
    (((at_head _ _).behind (bigEndian_length 4 _)).behind p.name_length).append rest
  have hloss : At (p.legacy ++ rest) 24 (bigEndian 4 p.lossPct.toNat) :=
    ((((at_head _ _).behind (bigEndian_length 4 _)).behind (bigEndian_length 4 _)).behind
      p.name_length).append rest
  have hthroughput : At (p.legacy ++ rest) 28 (bigEndian 4 p.throughputMbps.toNat) :=
    (((((at_head _ _).behind (bigEndian_length 4 _)).behind (bigEndian_length 4 _)).behind
      (bigEndian_length 4 _)).behind p.name_length).append rest
  have hstate : At (p.legacy ++ rest) 32 [p.state] :=
    ((((((at_self _).behind (bigEndian_length 4 _)).behind (bigEndian_length 4 _)).behind
      (bigEndian_length 4 _)).behind (bigEndian_length 4 _)).behind p.name_length).append rest
  simp only [read, NAME_LEN, Nat.reduceAdd]
  rw [hname.array p.name_length, ok_bind, hrtt.u32, ok_bind, hjitter.u32, ok_bind, hloss.u32,
    ok_bind, hthroughput.u32, ok_bind, hstate.index, ok_bind, hrx, ok_bind]
  rfl

theorem decode_legacy (hrx : readRxBytes (p.legacy ++ rest) = .ok rxBytes) :
    decode (p.legacy ++ rest) = .ok (.ok { p with rxBytes }) := by
  refine atLeast_of_read ?_ (p.read_legacy hrx)
  rw [List.length_append, length_legacy]
  exact Nat.le_add_right _ _

theorem decode_encode (rest : Bytes) (hrx : p.rxBytes.isSome) :
    decode (p.encode ++ rest) = .ok (.ok p) := by
  obtain ⟨rx, hrx⟩ := Option.isSome_iff_exists.mp hrx
  have hat : At (p.encode ++ rest) LEGACY_LEN (bigEndian 8 (p.rxBytes.getD 0).toNat) := by
    rw [encode_eq]
    exact ((at_self _).behind p.length_legacy).append rest
  have hlen : LEN ≤ (p.encode ++ rest).length := by
    have hle := hat.le_length
    rwa [bigEndian_length] at hle
  have hread : readRxBytes (p.encode ++ rest) = .ok p.rxBytes := by
    rw [readRxBytes, if_pos hlen, hat.u64, hrx]
    rfl
  rw [encode_eq, List.append_assoc] at hread ⊢
  exact p.decode_legacy hread

/-- An older peer's report has no counter. -/
theorem decode_take : decode (p.encode.take 33) = .ok (.ok { p with rxBytes := none }) := by
  have htake : p.encode.take 33 = p.legacy ++ [] := by
    rw [encode_eq, List.append_nil]
    exact List.take_left' p.length_legacy
  have hnone : readRxBytes (p.legacy ++ []) = .ok none := by
    rw [readRxBytes, if_neg]
    · rfl
    · rw [List.append_nil, length_legacy]
      decide
  rw [htake]
  exact p.decode_legacy hnone

end StatsPayload

/-- The sentinel for no primary. -/
def noName : Bytes := List.replicate LINK_NAME_LEN 0

/-- What is left of a payload in its first layout: the version. -/
def ofVersion (p : VersionInfoPayload) : VersionInfoPayload :=
  { p with tunnelMtu := 0, liveTunnelMtu := 0, primaryLinkName := noName, name_length := rfl }

/-- In its second: the version and the link capability. -/
def ofCapability (p : VersionInfoPayload) : VersionInfoPayload :=
  { p with liveTunnelMtu := 0, primaryLinkName := noName, name_length := rfl }

/-- In its third: all but the MTU in effect. -/
def ofPrimary (p : VersionInfoPayload) : VersionInfoPayload := { p with liveTunnelMtu := 0 }

section

variable {buf : Bytes} {start : Nat}

theorem readMtu_of_at {mtu : UInt16} (h : At buf start (bigEndian 2 mtu.toNat)) :
    readMtu buf start = .ok mtu := by
  have hle := h.le_length
  rw [bigEndian_length] at hle
  rw [readMtu, if_pos hle, h.u16]

theorem readMtu_of_lt (h : buf.length < start + 2) : readMtu buf start = .ok 0 :=
  if_neg (Nat.not_le.mpr h)

theorem copyPadded_of_at {name : Bytes} {len : Nat} (h : At buf start name)
    (hlen : name.length = len) : copyPadded buf start len = .ok name := by
  have hle := h.le_length
  rw [hlen] at hle
  have hcopy := copyFromSlice_zeroed (Nat.le_of_eq hlen)
  rw [hlen, VersionInfoPayload.padTo_of_length hlen] at hcopy
  rw [copyPadded, if_pos hle, h.subslice (by rw [hlen])]
  exact hcopy

theorem copyPadded_of_le {len : Nat} (h : buf.length ≤ start) (hpos : 0 < len) :
    copyPadded buf start len = .ok (List.replicate len 0) := by
  rw [copyPadded, if_neg (by omega), if_neg (Nat.not_lt.mpr h)]
  rfl

theorem decodeVersionInfo_of_at {p : VersionInfoPayload} (hversion : At buf 0 p.version)
    (hmtu : readMtu buf VERSION_LEN = .ok p.tunnelMtu)
    (hname : copyPadded buf (VERSION_LEN + 2) LINK_NAME_LEN = .ok p.primaryLinkName)
    (hlive : readMtu buf (VERSION_LEN + 2 + LINK_NAME_LEN) = .ok p.liveTunnelMtu) :
    decodeVersionInfo buf = .ok (.ok p) := by
  have hlen := hversion.le_length
  rw [p.version_length, Nat.zero_add] at hlen
  refine atLeast_of_read hlen ?_
  rw [readVersionInfo, hversion.array p.version_length, ok_bind, hmtu, ok_bind, hname, ok_bind,
    sized_of_length p.name_length, ok_bind, hlive, ok_bind]
  rfl

end

variable (p : VersionInfoPayload)

theorem decodeVersionInfo_encode (rest : Bytes) :
    decodeVersionInfo (p.encode ++ rest) = .ok (.ok p) := by
  refine decodeVersionInfo_of_at ((at_head _ _).append rest) (readMtu_of_at ?_)
    (copyPadded_of_at ?_ p.name_length) (readMtu_of_at ?_)
  · exact ((at_head _ _).behind p.version_length).append rest
  · exact (((at_head _ _).behind (bigEndian_length 2 _)).behind p.version_length).append rest
  · exact ((((at_self _).behind p.name_length).behind (bigEndian_length 2 _)).behind
      p.version_length).append rest

theorem decodeVersionInfo_take_16 :
    decodeVersionInfo (p.encode.take 16) = .ok (.ok (ofVersion p)) := by
  have hlen : p.version.length = 16 := p.version_length
  have htake : p.encode.take 16 = p.version := List.take_left' hlen
  rw [htake]
  exact decodeVersionInfo_of_at (p := ofVersion p) (at_self _)
    (readMtu_of_lt (by rw [hlen]; decide))
    (copyPadded_of_le (by rw [hlen]; decide) (by decide)) (readMtu_of_lt (by rw [hlen]; decide))

theorem decodeVersionInfo_take_18 :
    decodeVersionInfo (p.encode.take 18) = .ok (.ok (ofCapability p)) := by
  have hlen : (p.version ++ bigEndian 2 p.tunnelMtu.toNat).length = 18 := by
    rw [List.length_append, bigEndian_length, p.version_length]
    rfl
  have htake : p.encode.take 18 = p.version ++ bigEndian 2 p.tunnelMtu.toNat := by
    rw [VersionInfoPayload.encode, ← List.append_assoc]
    exact List.take_left' hlen
  rw [htake]
  exact decodeVersionInfo_of_at (p := ofCapability p) (at_head _ _)
    (readMtu_of_at ((at_self _).behind p.version_length))
    (copyPadded_of_le (by rw [hlen]; decide) (by decide)) (readMtu_of_lt (by rw [hlen]; decide))

theorem decodeVersionInfo_take_34 :
    decodeVersionInfo (p.encode.take 34) = .ok (.ok (ofPrimary p)) := by
  have hlen : (p.version ++ (bigEndian 2 p.tunnelMtu.toNat ++ p.primaryLinkName)).length = 34 := by
    rw [List.length_append, List.length_append, bigEndian_length, p.version_length, p.name_length]
    rfl
  have htake : p.encode.take 34 =
      p.version ++ (bigEndian 2 p.tunnelMtu.toNat ++ p.primaryLinkName) := by
    have hencode : p.encode = p.version ++ (bigEndian 2 p.tunnelMtu.toNat ++ p.primaryLinkName) ++
        bigEndian 2 p.liveTunnelMtu.toNat := by
      simp only [VersionInfoPayload.encode, List.append_assoc]
    rw [hencode]
    exact List.take_left' hlen
  rw [htake]
  exact decodeVersionInfo_of_at (p := ofPrimary p) (at_head _ _)
    (readMtu_of_at ((at_head _ _).behind p.version_length))
    (copyPadded_of_at (((at_self _).behind (bigEndian_length 2 _)).behind p.version_length)
      p.name_length)
    (readMtu_of_lt (by rw [hlen]; decide))

/-! ## Names in their fields -/

/-- The string `t` is what a field of `len` bytes can hold of `s`: the longest of its
prefixes that ends at a character boundary. -/
structure LongestPrefix (len : Nat) (s t : String) : Prop where
  isPrefix : bytes t <+: bytes s
  fits : (bytes t).length ≤ len
  boundary : isCharBoundary s (bytes t).length = true
  longest : ∀ i, i ≤ len → i ≤ (bytes s).length → isCharBoundary s i = true →
    i ≤ (bytes t).length

theorem longestPrefix_of_fitted {len : Nat} {s t : String} (h : bytes t = fitted len s) :
    LongestPrefix len s t := by
  have hle := boundaryAtMost_le s (min (bytes s).length len)
  have hlen : (bytes t).length = boundaryAtMost s (min (bytes s).length len) := by
    rw [h, fitted, List.length_take]
    omega
  refine ⟨?_, ?_, ?_, ?_⟩
  · rw [h]
    exact List.take_prefix _ _
  · rw [h]
    exact length_fitted_le len s
  · rw [hlen]
    exact isCharBoundary_boundaryAtMost s _
  · intro i hi hs hboundary
    rw [hlen]
    exact le_boundaryAtMost (Nat.le_min.mpr ⟨hs, hi⟩) hboundary

/-- What stands before the first NUL of a name's field, for a name without one. -/
theorem read_encodeText (replaced : Bytes → String) (len : Nat) {name : String}
    (hnul : 0 ∉ bytes name) :
    ∃ t, LongestPrefix len name t ∧ untilNul (encodeText len name) = bytes t ∧
      fromUtf8Lossy replaced (untilNul (encodeText len name)) = t := by
  obtain ⟨t, hread, hbytes⟩ := exists_read len name
  have hfitted : untilNul (fitted len name) = fitted len name :=
    untilNul_eq_self_iff.mpr fun hmem => hnul (List.mem_of_mem_take hmem)
  have hfield : untilNul (encodeText len name) = bytes t := by
    rw [hbytes]
    exact untilNul_append_padding _ _
  refine ⟨t, longestPrefix_of_fitted (hbytes.trans hfitted), hfield, ?_⟩
  rw [fromUtf8Lossy, hread, Option.getD_some]

/-- No character is too long for a field of sixteen bytes. -/
theorem LongestPrefix.bytes_ne_nil {s t : String} (h : LongestPrefix 16 s t) (hs : s ≠ "") :
    bytes t ≠ [] := by
  obtain ⟨i, hpos, hfour, hi, hboundary⟩ := exists_boundary hs
  have hle := h.longest i (by omega) hi hboundary
  intro hnil
  rw [hnil, List.length_nil] at hle
  omega

/-! ## Reads stay inside -/

theorem Header.decode_inBounds (buf : Bytes) : ∃ r, Header.decode buf = .ok r := by
  by_cases hshort : buf.length < HEADER_LEN
  · exact ⟨_, if_pos hshort⟩
  · rw [HEADER_LEN] at hshort
    obtain ⟨magic, hmagic⟩ := exists_index buf 0 (by omega)
    obtain ⟨version, hversion⟩ := exists_index buf 1 (by omega)
    obtain ⟨v, hv⟩ := exists_index buf 2 (by omega)
    obtain ⟨linkId, hlinkId⟩ := exists_index buf 3 (by omega)
    obtain ⟨seq, hseq⟩ := exists_u64 buf 4 (by omega)
    have hrest : ∃ rest, subslice buf HEADER_LEN buf.length = .ok rest :=
      ⟨_, subslice_of_le (by rw [HEADER_LEN]; omega) (Nat.le_refl _)⟩
    obtain ⟨rest, hrest⟩ := hrest
    have hfields : ∃ r, Header.decodeFields buf = .ok r := by
      rw [Header.decodeFields, hv, ok_bind]
      cases fromU8 v with
      | error e => exact ⟨_, rfl⟩
      | ok ptype =>
        show ∃ r, (index buf 3 >>= _) = _
        rw [hlinkId, ok_bind, hseq, ok_bind, hrest]
        exact ⟨_, rfl⟩
    rw [Header.decode, if_neg (by rw [HEADER_LEN]; exact hshort), hmagic, ok_bind]
    split
    · exact ⟨_, rfl⟩
    · rw [hversion, ok_bind]
      split
      · exact ⟨_, rfl⟩
      · exact hfields

theorem ProbePayload.decode_inBounds (buf : Bytes) : ∃ r, ProbePayload.decode buf = .ok r := by
  refine atLeast_inBounds (fun buf hlen => ?_) buf
  rw [ProbePayload.LEN] at hlen
  obtain ⟨probeSeq, hprobeSeq⟩ := exists_u32 buf 0 (by omega)
  obtain ⟨sendTsNs, hsendTsNs⟩ := exists_u64 buf 4 (by omega)
  rw [ProbePayload.read, hprobeSeq, ok_bind, hsendTsNs]
  exact ⟨_, rfl⟩

theorem StatsPayload.readRxBytes_inBounds (buf : Bytes) : ∃ r, readRxBytes buf = .ok r := by
  rw [readRxBytes]
  split
  · next hlen =>
      obtain ⟨rxBytes, hrxBytes⟩ := exists_u64 buf LEGACY_LEN hlen
      rw [hrxBytes]
      exact ⟨_, rfl⟩
  · exact ⟨_, rfl⟩

theorem StatsPayload.decode_inBounds (buf : Bytes) : ∃ r, StatsPayload.decode buf = .ok r := by
  refine atLeast_inBounds (fun buf hlen => ?_) buf
  have hlen : 33 ≤ buf.length := hlen
  obtain ⟨name, hname⟩ := exists_array buf 0 NAME_LEN
    (by rw [NAME_LEN]; omega)
  obtain ⟨rttMs, hrttMs⟩ := exists_u32 buf NAME_LEN (by rw [NAME_LEN]; omega)
  obtain ⟨jitterMs, hjitterMs⟩ := exists_u32 buf (NAME_LEN + 4)
    (by rw [NAME_LEN]; omega)
  obtain ⟨lossPct, hlossPct⟩ := exists_u32 buf (NAME_LEN + 8)
    (by rw [NAME_LEN]; omega)
  obtain ⟨throughput, hthroughput⟩ := exists_u32 buf (NAME_LEN + 12)
    (by rw [NAME_LEN]; omega)
  obtain ⟨state, hstate⟩ := exists_index buf (NAME_LEN + 16)
    (by rw [NAME_LEN]; omega)
  obtain ⟨rxBytes, hrxBytes⟩ := readRxBytes_inBounds buf
  rw [read, hname, ok_bind, hrttMs, ok_bind, hjitterMs, ok_bind, hlossPct, ok_bind, hthroughput,
    ok_bind, hstate, ok_bind, hrxBytes]
  exact ⟨_, rfl⟩

theorem ThroughputTestDataPayload.decode_inBounds (buf : Bytes) :
    ∃ r, ThroughputTestDataPayload.decode buf = .ok r := by
  refine atLeast_inBounds (fun buf hlen => ?_) buf
  rw [ThroughputTestDataPayload.HEADER_LEN] at hlen
  obtain ⟨testId, htestId⟩ := exists_u32 buf 0 (by omega)
  obtain ⟨flag, hflag⟩ := exists_index buf 4 (by omega)
  rw [ThroughputTestDataPayload.read, htestId, ok_bind, hflag]
  exact ⟨_, rfl⟩

theorem readWords_inBounds {buf : Bytes} (hlen : 8 ≤ buf.length) :
    ∃ words, readWords buf = .ok words := by
  obtain ⟨first, hfirst⟩ := exists_u32 buf 0 (by omega)
  obtain ⟨second, hsecond⟩ := exists_u32 buf 4 (by omega)
  rw [readWords, hfirst, ok_bind, hsecond]
  exact ⟨_, rfl⟩

/-! ## The format as a whole -/

section

variable {α : Type}

/-- What was encoded is decoded, whatever bytes follow it. -/
def RoundTrip (encode : α → Bytes) (decode : Bytes → Checked (Except MlvpnError α)) : Prop :=
  ∀ x rest, decode (encode x ++ rest) = .ok (.ok x)

/-- A buffer of fewer than `len` bytes is an error. -/
def Rejects (len : Nat) (decode : Bytes → Checked (Except MlvpnError α)) : Prop :=
  ∀ buf : Bytes, buf.length < len → ∃ e, decode buf = .ok (.error e)

/-- Every access is inside the buffer. -/
def InBounds (decode : Bytes → Checked (Except MlvpnError α)) : Prop :=
  ∀ buf, ∃ r, decode buf = .ok r

theorem atLeast_rejects (len : Nat) (message : String) (read : Bytes → Checked α) :
    Rejects len (atLeast len message read) := fun _ hlen => ⟨_, atLeast_of_lt hlen⟩

end

structure Lossless : Prop where
  header : ∀ (h : Header) (rest : Bytes), Header.decode (h.toBytes ++ rest) = .ok (.ok (h, rest))
  probe : RoundTrip ProbePayload.encode ProbePayload.decode
  stats : ∀ (p : StatsPayload) (rest : Bytes), p.rxBytes.isSome →
    StatsPayload.decode (p.encode ++ rest) = .ok (.ok p)
  versionInfo : RoundTrip VersionInfoPayload.encode decodeVersionInfo
  throughputTestData : ∀ totalLen,
    RoundTrip (·.encodePadded totalLen) ThroughputTestDataPayload.decode
  throughputTestResult :
    RoundTrip ThroughputTestResultPayload.encode ThroughputTestResultPayload.decode
  throughputTestReverseRequest :
    RoundTrip ThroughputTestReverseRequestPayload.encode ThroughputTestReverseRequestPayload.decode

/-- The older layouts of the two payloads that have grown, and the name that stands for no
primary. -/
structure Tolerant : Prop where
  stats : ∀ p : StatsPayload,
    StatsPayload.decode (p.encode.take 33) = .ok (.ok { p with rxBytes := none })
  version : ∀ p, decodeVersionInfo (p.encode.take 16) = .ok (.ok (ofVersion p))
  capability : ∀ p, decodeVersionInfo (p.encode.take 18) = .ok (.ok (ofCapability p))
  primary : ∀ p, decodeVersionInfo (p.encode.take 34) = .ok (.ok (ofPrimary p))
  noPrimary : ∀ (replaced : Bytes → String) (p : VersionInfoPayload),
    p.primaryLinkName = noName → p.primaryLinkNameStr replaced = none

structure Strict : Prop where
  header : Rejects 12 Header.decode
  probe : Rejects 12 ProbePayload.decode
  stats : Rejects 33 StatsPayload.decode
  versionInfo : Rejects 16 decodeVersionInfo
  throughputTestData : Rejects 5 ThroughputTestDataPayload.decode
  throughputTestResult : Rejects 8 ThroughputTestResultPayload.decode
  throughputTestReverseRequest : Rejects 8 ThroughputTestReverseRequestPayload.decode

/-- Names come back cut to their fields.  A link name that is empty is the sentinel, and
comes back as none. -/
structure Named : Prop where
  stats : ∀ (replaced : Bytes → String) (name : String), 0 ∉ bytes name →
    ∃ t, LongestPrefix 16 name t ∧
      ∀ p : StatsPayload, p.name = StatsPayload.encodeName name → p.nameStr replaced = t
  link : ∀ (replaced : Bytes → String) (name : String), 0 ∉ bytes name → name ≠ "" →
    ∃ t, LongestPrefix 16 name t ∧ ∀ p : VersionInfoPayload,
      p.primaryLinkName = encodeLinkName name → p.primaryLinkNameStr replaced = some t
  empty : ∀ (replaced : Bytes → String) (p : VersionInfoPayload),
    p.primaryLinkName = encodeLinkName "" → p.primaryLinkNameStr replaced = none

structure Bounded : Prop where
  header : InBounds Header.decode
  probe : InBounds ProbePayload.decode
  stats : InBounds StatsPayload.decode
  versionInfo : InBounds decodeVersionInfo
  throughputTestData : InBounds ThroughputTestDataPayload.decode
  throughputTestResult : InBounds ThroughputTestResultPayload.decode
  throughputTestReverseRequest : InBounds ThroughputTestReverseRequestPayload.decode

theorem primaryLinkNameStr_noName (replaced : Bytes → String) {p : VersionInfoPayload}
    (h : p.primaryLinkName = noName) : p.primaryLinkNameStr replaced = none := by
  rw [VersionInfoPayload.primaryLinkNameStr, h]
  rfl

theorem lossless : Lossless where
  header := Header.decode_toBytes
  probe := ProbePayload.decode_encode
  stats := StatsPayload.decode_encode
  versionInfo := decodeVersionInfo_encode
  throughputTestData totalLen p := p.decode_encodePadded totalLen
  throughputTestResult := ThroughputTestResultPayload.decode_encode
  throughputTestReverseRequest := ThroughputTestReverseRequestPayload.decode_encode

theorem named : Named where
  stats replaced name hnul := by
    obtain ⟨t, hlongest, -, hread⟩ := read_encodeText replaced 16 hnul
    refine ⟨t, hlongest, fun p hp => ?_⟩
    rw [StatsPayload.nameStr, hp]
    exact hread
  link replaced name hnul hne := by
    obtain ⟨t, hlongest, hfield, hread⟩ := read_encodeText replaced 16 hnul
    refine ⟨t, hlongest, fun p hp => ?_⟩
    have hname : untilNul p.primaryLinkName = bytes t := by
      rw [hp]
      exact hfield
    rw [VersionInfoPayload.primaryLinkNameStr, hname, if_neg (hlongest.bytes_ne_nil hne), ← hname,
      hp]
    exact congrArg some hread
  empty replaced p hp := primaryLinkNameStr_noName replaced (hp.trans (by decide +kernel))

theorem bounded : Bounded where
  header := Header.decode_inBounds
  probe := ProbePayload.decode_inBounds
  stats := StatsPayload.decode_inBounds
  versionInfo buf := ⟨_, decodeVersionInfo_eq buf⟩
  throughputTestData := ThroughputTestDataPayload.decode_inBounds
  throughputTestResult := atLeast_inBounds fun buf hlen => by
    obtain ⟨words, hwords⟩ := readWords_inBounds hlen
    rw [hwords]
    exact ⟨_, rfl⟩
  throughputTestReverseRequest := atLeast_inBounds fun buf hlen => by
    obtain ⟨words, hwords⟩ := readWords_inBounds hlen
    rw [hwords]
    exact ⟨_, rfl⟩

/-- The wire format: nothing is lost on it, older layouts are understood, short buffers are
not, names are cut at characters, and no decoder reads outside its buffer. -/
theorem wire_format : Lossless ∧ Tolerant ∧ Strict ∧ Named ∧ Bounded := by
  refine ⟨lossless, ?_, ?_, named, bounded⟩
  · exact ⟨StatsPayload.decode_take, decodeVersionInfo_take_16, decodeVersionInfo_take_18,
      decodeVersionInfo_take_34, fun replaced _ hp => primaryLinkNameStr_noName replaced hp⟩
  · exact ⟨fun buf hlen => ⟨_, if_pos hlen⟩, atLeast_rejects _ _ _, atLeast_rejects _ _ _,
      atLeast_rejects _ _ _, atLeast_rejects _ _ _, atLeast_rejects _ _ _, atLeast_rejects _ _ _⟩

/-- An empty link name does not come back as an empty name. -/
theorem empty_link_name_is_none :
    ∃ p : VersionInfoPayload, p.primaryLinkName = encodeLinkName "" ∧ 0 ∉ bytes "" ∧
      LongestPrefix 16 "" "" ∧ ∀ replaced : Bytes → String,
        p.primaryLinkNameStr replaced = none ∧ p.primaryLinkNameStr replaced ≠ some "" := by
  refine ⟨versionInfo "1.0" 1400 1400 none [], rfl, by decide +kernel,
    longestPrefix_of_fitted (by decide +kernel), fun replaced => ?_⟩
  have hnone : (versionInfo "1.0" 1400 1400 none []).primaryLinkNameStr replaced = none :=
    primaryLinkNameStr_noName replaced (by decide +kernel)
  exact ⟨hnone, by rw [hnone]; exact nofun⟩

end Mlvpn.Ports.WireFormat
