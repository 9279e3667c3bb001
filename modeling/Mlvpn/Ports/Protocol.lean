import Mlvpn.Verified.BigEndian

/-!
# Wire payloads

Port of `protocol::FecParityPayload`: one `group_size` byte, the member
sequence numbers (8 bytes each), the member lengths (2 bytes each), a 2-byte
parity length and the parity bytes, all big-endian.  The encoder casts both
counts down (`as u8`, `as u16`), so the round trip is stated for payloads that
fit them.
-/

namespace Mlvpn.Ports.Protocol

open Verified.BigEndian

/-- Payload bytes, as the source's `Vec<u8>`. -/
abbrev Bytes := List UInt8

/-- `std::io::Error` as a socket call returns it. -/
inductive IoError where
  | os (code : Nat)
  | writeZero
deriving Repr, DecidableEq

/-- The error cases of `MlvpnError` that the modelled functions raise. -/
inductive MlvpnError where
  | config (message : String)
  | insecurePermissions (path : String) (mode : UInt32)
  | protocol (message : String)
  | io (error : IoError)
deriving Repr, DecidableEq

inductive PacketType where
  | HandshakeInit
  | HandshakeResp
  | Data
  | Probe
  | ProbeReply
  | Keepalive
  | Disconnect
  | StatsShare
  | ThroughputTestData
  | ThroughputTestResult
  | ThroughputTestReverseRequest
  | VersionInfo
  | FecParity
  | FecParityQ
deriving Repr, DecidableEq

structure FecParityPayload where
  memberSeqs : List UInt64
  memberLens : List UInt16
  parity : Bytes
deriving Repr, DecidableEq

def seqBytes (seq : UInt64) : Bytes := bigEndian 8 seq.toNat

def lenBytes (len : UInt16) : Bytes := bigEndian 2 len.toNat

def FecParityPayload.encode (p : FecParityPayload) : Bytes :=
  UInt8.ofNat p.memberSeqs.length ::
    (p.memberSeqs.flatMap seqBytes ++ (p.memberLens.flatMap lenBytes ++
      (bigEndian 2 p.parity.length ++ p.parity)))

def FecParityPayload.decode (buf : Bytes) : Except MlvpnError FecParityPayload :=
  if buf = [] then
    .error (.protocol "fec parity payload empty")
  else
    let groupSize := (buf.getD 0 0).toNat
    let seqsEnd := 1 + groupSize * 8
    let lensEnd := seqsEnd + groupSize * 2
    if buf.length < lensEnd + 2 then
      .error (.protocol "fec parity payload too short for its own declared group_size")
    else
      let memberSeqs := (List.range groupSize).map fun i =>
        let start := 1 + i * 8
        UInt64.ofNat (readBigEndian (slice buf start (start + 8)))
      let memberLens := (List.range groupSize).map fun i =>
        let start := seqsEnd + i * 2
        UInt16.ofNat (readBigEndian (slice buf start (start + 2)))
      let parityLen := readBigEndian (slice buf lensEnd (lensEnd + 2))
      if buf.length < lensEnd + 2 + parityLen then
        .error (.protocol "fec parity payload shorter than its own declared parity_len")
      else
        .ok { memberSeqs, memberLens,
              parity := slice buf (lensEnd + 2) (lensEnd + 2 + parityLen) }

/-- What a payload must satisfy for the wire's narrow counts to hold it. -/
structure Fits (p : FecParityPayload) : Prop where
  members : p.memberSeqs.length ≤ 255
  lens : p.memberLens.length = p.memberSeqs.length
  parity : p.parity.length ≤ 65535

@[simp] theorem seqBytes_length (seq : UInt64) : (seqBytes seq).length = 8 :=
  bigEndian_length 8 _

@[simp] theorem lenBytes_length (len : UInt16) : (lenBytes len).length = 2 :=
  bigEndian_length 2 _

theorem ofNat_read_seqBytes (seq : UInt64) : UInt64.ofNat (readBigEndian (seqBytes seq)) = seq := by
  have hlt : seq.toNat < 256 ^ 8 := seq.toNat_lt
  rw [seqBytes, readBigEndian_bigEndian, Nat.mod_eq_of_lt hlt, UInt64.ofNat_toNat]

theorem ofNat_read_lenBytes (len : UInt16) : UInt16.ofNat (readBigEndian (lenBytes len)) = len := by
  have hlt : len.toNat < 256 ^ 2 := len.toNat_lt
  rw [lenBytes, readBigEndian_bigEndian, Nat.mod_eq_of_lt hlt, UInt16.ofNat_toNat]

/-! ## The round trip

The encoding is read back section by section: each lemma names the slice of one
section, with everything after it left abstract.
-/

section RoundTrip

variable {p : FecParityPayload} (h : Fits p) (rest : Bytes)

private theorem tail_split :
    p.encode ++ rest = [UInt8.ofNat p.memberSeqs.length] ++
      (p.memberSeqs.flatMap seqBytes ++ (p.memberLens.flatMap lenBytes ++
        (bigEndian 2 p.parity.length ++ (p.parity ++ rest)))) := by
  simp [FecParityPayload.encode]

private theorem slice_seq (i : Nat) (hi : i < p.memberSeqs.length) :
    slice (p.encode ++ rest) (1 + i * 8) (1 + i * 8 + 8) = seqBytes p.memberSeqs[i] := by
  rw [tail_split, slice_append_right rfl (by simp)]
  simpa [Nat.add_sub_cancel_left, Nat.add_assoc] using
    slice_table seqBytes 8 seqBytes_length p.memberSeqs _ i hi

private theorem slice_after_seqs (start stop : Nat) (hstart : 1 + p.memberSeqs.length * 8 ≤ start) :
    slice (p.encode ++ rest) start stop =
      slice (p.memberLens.flatMap lenBytes ++
        (bigEndian 2 p.parity.length ++ (p.parity ++ rest)))
        (start - (1 + p.memberSeqs.length * 8)) (stop - (1 + p.memberSeqs.length * 8)) := by
  rw [tail_split, slice_append_right rfl (by simp; omega),
    slice_append_right (table_length seqBytes 8 seqBytes_length _) (by simp; omega)]
  simp only [List.length_singleton, Nat.sub_sub]

private theorem slice_len (i : Nat) (hi : i < p.memberLens.length) :
    slice (p.encode ++ rest) (1 + p.memberSeqs.length * 8 + i * 2)
      (1 + p.memberSeqs.length * 8 + i * 2 + 2) = lenBytes p.memberLens[i] := by
  rw [slice_after_seqs rest _ _ (by omega), Nat.add_sub_cancel_left,
    show 1 + p.memberSeqs.length * 8 + i * 2 + 2 - (1 + p.memberSeqs.length * 8) = i * 2 + 2
      by omega]
  exact slice_table lenBytes 2 lenBytes_length p.memberLens _ i hi

include h in
private theorem slice_after_lens (start stop : Nat)
    (hstart : 1 + p.memberSeqs.length * 8 + p.memberSeqs.length * 2 ≤ start) :
    slice (p.encode ++ rest) start stop =
      slice (bigEndian 2 p.parity.length ++ (p.parity ++ rest))
        (start - (1 + p.memberSeqs.length * 8 + p.memberSeqs.length * 2))
        (stop - (1 + p.memberSeqs.length * 8 + p.memberSeqs.length * 2)) := by
  rw [slice_after_seqs rest _ _ (by omega),
    slice_append_right (table_length lenBytes 2 lenBytes_length _) (by rw [h.lens]; omega), h.lens]
  simp only [Nat.sub_sub]

include h in
/-- A payload that fits the wire survives it, whatever bytes follow. -/
theorem decode_encode_append : FecParityPayload.decode (p.encode ++ rest) = .ok p := by
  have hgroup : ((p.encode ++ rest).getD 0 0).toNat = p.memberSeqs.length := by
    have := h.members
    simp only [FecParityPayload.encode, List.cons_append, List.getD_cons_zero]
    exact UInt8.toNat_ofNat_of_lt' (show _ < 256 by omega)
  have hlength : (p.encode ++ rest).length =
      1 + p.memberSeqs.length * 8 + p.memberSeqs.length * 2 + 2 + p.parity.length +
        rest.length := by
    rw [tail_split]
    simp only [List.length_append, List.length_singleton, bigEndian_length, h.lens,
      table_length seqBytes 8 seqBytes_length, table_length lenBytes 2 lenBytes_length]
    omega
  have hseqs : ((List.range p.memberSeqs.length).map fun i =>
      UInt64.ofNat (readBigEndian (slice (p.encode ++ rest) (1 + i * 8) (1 + i * 8 + 8)))) =
        p.memberSeqs := by
    apply List.ext_getElem (by simp)
    intro i _ hi
    simp only [List.getElem_map, List.getElem_range]
    rw [slice_seq rest i hi, ofNat_read_seqBytes]
  have hlens : ((List.range p.memberSeqs.length).map fun i =>
      UInt16.ofNat (readBigEndian (slice (p.encode ++ rest)
        (1 + p.memberSeqs.length * 8 + i * 2) (1 + p.memberSeqs.length * 8 + i * 2 + 2)))) =
        p.memberLens := by
    apply List.ext_getElem (by simp [h.lens])
    intro i _ hi
    simp only [List.getElem_map, List.getElem_range]
    rw [slice_len rest i hi, ofNat_read_lenBytes]
  have hparityLen : readBigEndian (slice (p.encode ++ rest)
      (1 + p.memberSeqs.length * 8 + p.memberSeqs.length * 2)
      (1 + p.memberSeqs.length * 8 + p.memberSeqs.length * 2 + 2)) = p.parity.length := by
    have := h.parity
    rw [slice_after_lens h rest _ _ (le_refl _), Nat.sub_self, Nat.add_sub_cancel_left]
    have hslice : slice (bigEndian 2 p.parity.length ++ (p.parity ++ rest)) 0 2 =
        bigEndian 2 p.parity.length := by
      simp [slice]
    rw [hslice, readBigEndian_bigEndian, Nat.mod_eq_of_lt (show _ < 256 ^ 2 by omega)]
  have hparity : slice (p.encode ++ rest)
      (1 + p.memberSeqs.length * 8 + p.memberSeqs.length * 2 + 2)
      (1 + p.memberSeqs.length * 8 + p.memberSeqs.length * 2 + 2 + p.parity.length) =
        p.parity := by
    rw [slice_after_lens h rest _ _ (by omega), Nat.add_sub_cancel_left, Nat.add_assoc _ 2,
      Nat.add_sub_cancel_left, slice_append_right (bigEndian_length 2 _) (le_refl _)]
    simp [slice]
  have hne : p.encode ++ rest ≠ [] := by
    intro hnil
    have := congrArg List.length hnil
    rw [hlength] at this
    simp at this
  unfold FecParityPayload.decode
  simp only [if_neg hne, hgroup, hlength, hparityLen, hseqs, hlens, hparity]
  rw [if_neg (by omega), if_neg (by omega)]

end RoundTrip

end Mlvpn.Ports.Protocol
