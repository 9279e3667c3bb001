import Mlvpn.Ports.Protocol
import Mlvpn.Verified.Layout

/-!
# Parity shares on the wire

`FecParityPayload::decode` with its accesses checked.  The payload declares its own sizes:
one byte says how many members follow, two more how many bytes of parity.  The decoder
compares each with what is left of the buffer before it reads on, so it never leaves the
buffer, and what it accepts is an encoding with something behind it.

## Main results

* `decodeChecked_eq`: no access is out of bounds, and the decoder is the one used elsewhere.
* `encode_prefix_of_decode`: what is accepted begins with the encoding of the result.
* `parity_codec`: round trip, length, the converse, and that no strict prefix is accepted.
-/

namespace Mlvpn.Ports.ParityCodec

open Protocol Verified.BigEndian Verified.CheckedSlice Verified.Layout

/-- `FecParityPayload::decode` from the parity length on. -/
def decodeParity (buf : Bytes) (lensEnd : Nat) (memberSeqs : List UInt64)
    (memberLens : List UInt16) : Checked (Except MlvpnError FecParityPayload) := do
  let parityLen ← u16 buf lensEnd
  if buf.length < lensEnd + 2 + parityLen.toNat then
    pure (.error (.protocol "fec parity payload shorter than its own declared parity_len"))
  else
    let parity ← subslice buf (lensEnd + 2) (lensEnd + 2 + parityLen.toNat)
    pure (.ok { memberSeqs, memberLens, parity })

/-- `FecParityPayload::decode`. -/
def decodeChecked (buf : Bytes) : Checked (Except MlvpnError FecParityPayload) :=
  if buf = [] then
    pure (.error (.protocol "fec parity payload empty"))
  else do
    let first ← index buf 0
    let groupSize := first.toNat
    let seqsEnd := 1 + groupSize * 8
    let lensEnd := seqsEnd + groupSize * 2
    if buf.length < lensEnd + 2 then
      pure (.error (.protocol "fec parity payload too short for its own declared group_size"))
    else
      let memberSeqs ← (List.range groupSize).mapM fun i => u64 buf (1 + i * 8)
      let memberLens ← (List.range groupSize).mapM fun i => u16 buf (seqsEnd + i * 2)
      decodeParity buf lensEnd memberSeqs memberLens

/-! ## No access is out of bounds -/

/-- The declared parity length, as the decoder reads it. -/
theorem toNat_u16_slice (buf : Bytes) (start : Nat) (h : start + 2 ≤ buf.length) :
    (UInt16.ofNat (readBigEndian (slice buf start (start + 2)))).toNat =
      readBigEndian (slice buf start (start + 2)) := by
  have hlt := readBigEndian_lt (slice buf start (start + 2))
  rw [slice_length h, Nat.add_sub_cancel_left] at hlt
  exact UInt16.toNat_ofNat_of_lt' hlt

/-- Every access of the decoder is inside its buffer. -/
theorem decodeChecked_eq (buf : Bytes) : decodeChecked buf = .ok (FecParityPayload.decode buf) := by
  unfold decodeChecked FecParityPayload.decode
  cases buf with
  | nil => rfl
  | cons first rest =>
    rw [if_neg (List.cons_ne_nil first rest), if_neg (List.cons_ne_nil first rest)]
    have hfirst : index (first :: rest) 0 = .ok first := rfl
    rw [hfirst, ok_bind, List.getD_cons_zero]
    generalize first :: rest = buf
    generalize first.toNat = n
    simp only
    by_cases hshort : buf.length < 1 + n * 8 + n * 2 + 2
    · rw [if_pos hshort, if_pos hshort]
      rfl
    · have hseqs : ∀ i ∈ List.range n, u64 buf (1 + i * 8) =
          .ok (UInt64.ofNat (readBigEndian (slice buf (1 + i * 8) (1 + i * 8 + 8)))) := by
        intro i hi
        have hi := List.mem_range.mp hi
        exact u64_eq buf (1 + i * 8) (by omega)
      have hlens : ∀ i ∈ List.range n, u16 buf (1 + n * 8 + i * 2) =
          .ok (UInt16.ofNat (readBigEndian
            (slice buf (1 + n * 8 + i * 2) (1 + n * 8 + i * 2 + 2)))) := by
        intro i hi
        have hi := List.mem_range.mp hi
        exact u16_eq buf (1 + n * 8 + i * 2) (by omega)
      have hlen : 1 + n * 8 + n * 2 + 2 ≤ buf.length := by omega
      rw [if_neg hshort, if_neg hshort, mapM_eq_ok hseqs, ok_bind, mapM_eq_ok hlens, ok_bind,
        decodeParity, u16_eq buf _ hlen, ok_bind, toNat_u16_slice buf _ hlen]
      split
      case isTrue => rfl
      case isFalse hparity =>
        rw [subslice_of_le (by omega) (by omega)]
        rfl

/-! ## What is accepted -/

theorem seqBytes_ofNat_read {bs : Bytes} (h : bs.length = 8) :
    seqBytes (UInt64.ofNat (readBigEndian bs)) = bs := by
  have hlt := readBigEndian_lt bs
  rw [h] at hlt
  rw [seqBytes, UInt64.toNat_ofNat_of_lt' hlt, ← h, bigEndian_readBigEndian]

theorem lenBytes_ofNat_read {bs : Bytes} (h : bs.length = 2) :
    lenBytes (UInt16.ofNat (readBigEndian bs)) = bs := by
  have hlt := readBigEndian_lt bs
  rw [h] at hlt
  rw [lenBytes, UInt16.toNat_ofNat_of_lt' hlt, ← h, bigEndian_readBigEndian]

variable {buf : Bytes}

/-- The entries of a table that were read are encoded to its bytes. -/
theorem flatMap_map_range {α : Type} {encode : α → Bytes} {read : Bytes → α} {k : Nat}
    (hread : ∀ bs, bs.length = k → encode (read bs) = bs) {start n : Nat}
    (h : start + n * k ≤ buf.length) :
    ((List.range n).map fun i => read (slice buf (start + i * k) (start + i * k + k))).flatMap
        encode = slice buf start (start + n * k) := by
  rw [List.flatMap_map, ← flatMap_slice]
  apply List.flatMap_congr
  intro i hi
  have hi : i < n := List.mem_range.mp hi
  have hle : i * k + k ≤ n * k := by
    rw [← Nat.succ_mul]
    exact Nat.mul_le_mul_right k hi
  apply hread
  rw [slice_length (by omega), Nat.add_sub_cancel_left]

variable {p : FecParityPayload}

/-- What the decoder accepts is the encoding of a payload that fits, and what follows. -/
theorem encode_prefix_of_decode
    (h : FecParityPayload.decode buf = .ok p) : Fits p ∧ p.encode <+: buf := by
  cases buf with
  | nil => cases h
  | cons first rest =>
    have hbyte : first.toNat < 256 := first.toNat_lt
    unfold FecParityPayload.decode at h
    rw [if_neg (List.cons_ne_nil first rest), List.getD_cons_zero] at h
    simp only at h
    generalize hn : first.toNat = n at h hbyte
    split at h
    case isTrue => cases h
    case isFalse hshort =>
    split at h
    case isTrue => cases h
    case isFalse hparity =>
    injection h with h
    subst h
    have hlen2 : 1 + n * 8 + n * 2 + 2 ≤ (first :: rest).length := by omega
    have hend := Nat.le_of_not_lt hparity
    have hbound := readBigEndian_lt (slice (first :: rest) (1 + n * 8 + n * 2)
      (1 + n * 8 + n * 2 + 2))
    rw [slice_length hlen2, Nat.add_sub_cancel_left] at hbound
    have hlenField : bigEndian 2 (readBigEndian (slice (first :: rest) (1 + n * 8 + n * 2)
        (1 + n * 8 + n * 2 + 2))) =
        slice (first :: rest) (1 + n * 8 + n * 2) (1 + n * 8 + n * 2 + 2) := by
      have hencode := bigEndian_readBigEndian (slice (first :: rest) (1 + n * 8 + n * 2)
        (1 + n * 8 + n * 2 + 2))
      rwa [slice_length hlen2, Nat.add_sub_cancel_left] at hencode
    generalize readBigEndian (slice (first :: rest) (1 + n * 8 + n * 2)
      (1 + n * 8 + n * 2 + 2)) = m at hparity hend hbound hlenField ⊢
    have hparityLen : (slice (first :: rest) (1 + n * 8 + n * 2 + 2)
        (1 + n * 8 + n * 2 + 2 + m)).length = m := by
      rw [slice_length hend, Nat.add_sub_cancel_left]
    refine ⟨⟨by simp; omega, by simp, by rw [hparityLen]; omega⟩, ?_⟩
    -- The sections of the encoding are consecutive slices of the buffer.
    have hseqs := flatMap_map_range (fun _ => seqBytes_ofNat_read)
      (show 1 + n * 8 ≤ (first :: rest).length by omega)
    have hlens := flatMap_map_range (fun _ => lenBytes_ofNat_read)
      (show 1 + n * 8 + n * 2 ≤ (first :: rest).length by omega)
    have hhead : UInt8.ofNat n = first := by rw [← hn, UInt8.ofNat_toNat]
    have hfirst : ∀ bs : Bytes, first :: bs = slice (first :: rest) 0 1 ++ bs := fun _ => rfl
    rw [FecParityPayload.encode]
    simp only [List.length_map, List.length_range]
    rw [hseqs, hlens, hparityLen, hlenField, hhead, hfirst,
      slice_append_slice (by omega) (by omega), slice_append_slice (by omega) (by omega),
      slice_append_slice (by omega) (by omega), slice_append_slice (by omega) (by omega)]
    exact List.take_prefix _ _

/-! ## The codec -/

theorem encode_length (h : Fits p) :
    p.encode.length = 1 + 10 * p.memberSeqs.length + 2 + p.parity.length := by
  simp only [FecParityPayload.encode, List.length_cons, List.length_append, bigEndian_length,
    table_length seqBytes 8 seqBytes_length, table_length lenBytes 2 lenBytes_length, h.lens]
  omega

/-- A part of an encoding that is not all of it is rejected. -/
theorem decode_of_strict_prefix (h : Fits p) (hpre : buf <+: p.encode) (hne : buf ≠ p.encode) :
    ∃ e, FecParityPayload.decode buf = .error e := by
  cases hdecode : FecParityPayload.decode buf with
  | error e => exact ⟨e, rfl⟩
  | ok q =>
    -- The accepted payload would be read from the whole encoding as well.
    obtain ⟨hfits, rest, hbuf⟩ := encode_prefix_of_decode hdecode
    obtain ⟨rest', hencode⟩ := hpre
    have hq : FecParityPayload.decode p.encode = .ok q := by
      rw [← hencode, ← hbuf, List.append_assoc]
      exact decode_encode_append hfits _
    have hp : FecParityPayload.decode p.encode = .ok p := by
      simpa using decode_encode_append h []
    have hpq : p = q := by
      rw [hp] at hq
      injection hq
    subst hpq
    refine absurd (List.IsPrefix.eq_of_length ⟨rest', hencode⟩ ?_) hne
    have hle := congrArg List.length hencode
    have hge := congrArg List.length hbuf
    rw [List.length_append] at hle hge
    omega

/-- Parity shares decode exactly: a payload that fits the wire's counts comes back whatever
follows its encoding, which has the length the layout says; what is accepted begins with the
encoding of the result; no strict prefix of an encoding is accepted; and the decoder does not
index outside its input. -/
theorem parity_codec :
    (∀ p : FecParityPayload, p.memberSeqs.length ≤ 255 →
      p.memberLens.length = p.memberSeqs.length → p.parity.length ≤ 65535 →
      (∀ rest, decodeChecked (p.encode ++ rest) = .ok (.ok p)) ∧
      p.encode.length = 1 + 10 * p.memberSeqs.length + 2 + p.parity.length ∧
      ∀ buf, buf <+: p.encode → buf ≠ p.encode → ∃ e, decodeChecked buf = .ok (.error e)) ∧
    (∀ buf p, decodeChecked buf = .ok (.ok p) → p.encode <+: buf) ∧
    ∀ buf, ∃ result, decodeChecked buf = .ok result := by
  refine ⟨fun p hmembers hlens hparity => ?_, fun buf p h => ?_, fun buf => ?_⟩
  · have hfits : Fits p := ⟨hmembers, hlens, hparity⟩
    refine ⟨fun rest => ?_, encode_length hfits, fun buf hpre hne => ?_⟩
    · rw [decodeChecked_eq, decode_encode_append hfits]
    · obtain ⟨e, he⟩ := decode_of_strict_prefix hfits hpre hne
      exact ⟨e, by rw [decodeChecked_eq, he]⟩
  · rw [decodeChecked_eq] at h
    injection h with h
    exact (encode_prefix_of_decode h).2
  · exact ⟨_, decodeChecked_eq buf⟩

/-- A payload of two members and its encoding. -/
theorem parity_codec_two :
    let p : FecParityPayload := ⟨[7, 9], [3, 0], [1, 2, 3]⟩
    decodeChecked (p.encode ++ [255]) = .ok (.ok p) ∧ p.encode.length = 26 ∧
      ∃ e, decodeChecked (p.encode.take 25) = .ok (.error e) := by
  intro p
  obtain ⟨hround, hlength, hstrict⟩ := parity_codec.1 p (by decide) (by decide) (by decide)
  exact ⟨hround [255], hlength, hstrict _ (List.take_prefix _ _) (by decide)⟩

end Mlvpn.Ports.ParityCodec
