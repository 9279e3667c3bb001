import Mlvpn.Ports.WireFormat
import Mlvpn.Verified.Mealy

/-!
# Frames in WireGuard datagrams

Port of `wireguard::WgTunnel`: a frame goes out behind a fake IPv4 header, because
`boringtun` reads a decrypted packet as IP and cuts it to the length its header states,
and comes back with that header taken off.  The plaintext is put together in a scratch
buffer of the tunnel, the ciphertext in another one that only grows, and a third holds
what is decrypted; all three keep what earlier calls left in them.

`boringtun` itself is a parameter.  Its calls may do with a destination buffer what they
like but change its length, and their answers may depend on what the buffer held.

## Main results

* `decapsulateInto_encapsulatePartsInto`: a frame that is reported as carried reaches the
  peer, whatever either side's buffers held.
* `decapsulateBatch_eq`: a batch is the datagrams one by one.
-/

namespace Mlvpn.Ports.WgFraming

open Verified Protocol BigEndian
open WireFormat (Header)

def FAKE_IPV4_HEADER_LEN : Nat := 20
def FAKE_IPV4_PROTOCOL : UInt8 := 253
def MAX_WG_PACKET : Nat := 65535 + 64
def WG_MSG_TYPE_DATA : Nat := 4

/-! ## The library underneath -/

/-- `boringtun::noise::TunnResult`; an error by its debug text. -/
inductive TunnResult where
  | Done
  | Err (e : String)
  | WriteToNetwork (bytes : Bytes)
  | WriteToTunnelV4 (bytes : Bytes)
  | WriteToTunnelV6 (bytes : Bytes)
deriving Repr, DecidableEq

/-- `boringtun::noise::Tunn`.  A call gets a destination buffer and leaves it with another
content; a slice keeps its length, and a datagram that was written is a part of it. -/
structure Boringtun where
  Tunn : Type
  encapsulate : Tunn → Bytes → Bytes → Tunn × Bytes × TunnResult
  decapsulate : Tunn → Bytes → Bytes → Tunn × Bytes × TunnResult
  debug : TunnResult → String
  decapsulate_length : ∀ t src dst, (decapsulate t src dst).2.1.length = dst.length
  encapsulate_fits : ∀ t src dst bytes,
    (encapsulate t src dst).2.2 = .WriteToNetwork bytes → bytes.length ≤ dst.length

/-! ## The tunnel -/

inductive DecapsulateKind where
  | Frame
  | SendReply (bytes : Bytes)
  | Consumed
deriving Repr, DecidableEq

structure WgTunnel (bt : Boringtun) where
  tunn : bt.Tunn
  wrapScratch : Bytes
  encScratch : Bytes
  decScratch : Bytes
  rejectedTotal : UInt64
  substitutedTotal : UInt64
  /-- Allocated once, for the largest packet. -/
  dec_length : decScratch.length = MAX_WG_PACKET

/-- Version 4 without options, the total length, a TTL and a protocol nobody reads. -/
def fakeIpv4Header (totalLen : Nat) : Bytes :=
  [0x45, 0x00] ++ (bigEndian 2 totalLen ++
    [0x00, 0x00, 0x00, 0x00, 64, FAKE_IPV4_PROTOCOL, 0x00, 0x00, 0, 0, 0, 0, 0, 0, 0, 0])

/-- What `write_fake_ipv4_header` leaves in its buffer. -/
def writeFakeIpv4Header (payloadLen : Nat) : Except MlvpnError Bytes :=
  let totalLen := FAKE_IPV4_HEADER_LEN + payloadLen
  if 65535 < totalLen then
    .error (.protocol (s!"wg encapsulate: frame too large ({payloadLen} bytes) to fit " ++
      "boringtun's fake IPv4 wrapper"))
  else .ok (fakeIpv4Header totalLen)

/-- The message type is a little-endian word at the front of every datagram. -/
def isData : Bytes → Bool
  | b₀ :: b₁ :: b₂ :: b₃ :: _ =>
      b₀.toNat + 256 * (b₁.toNat + 256 * (b₂.toNat + 256 * b₃.toNat)) == WG_MSG_TYPE_DATA
  | _ => false

/-- `v.resize(len, 0)` if `v` is shorter. -/
def growTo (len : Nat) (v : Bytes) : Bytes := v ++ List.replicate (len - v.length) 0

namespace WgTunnel

variable {bt : Boringtun}

/-- What becomes of `boringtun`'s answer to `encapsulate`; a datagram replaces the content of
`out`. -/
def emit (w : WgTunnel bt) (out : Bytes) :
    TunnResult → WgTunnel bt × Bytes × Except MlvpnError Bool
  | .WriteToNetwork bytes =>
      let w := if isData bytes then w
        else { w with substitutedTotal := w.substitutedTotal + 1 }
      (w, bytes, .ok (isData bytes))
  | .Err e => (w, out, .error (.protocol s!"wg encapsulate: {e}"))
  | .Done => (w, out, .error (.protocol "wg encapsulate: handshake not yet complete"))
  | other => (w, out, .error (.protocol s!"wg encapsulate: unexpected result {bt.debug other}"))

def encapsulatePartsInto (w : WgTunnel bt) (parts : List Bytes) (out : Bytes) :
    WgTunnel bt × Bytes × Except MlvpnError Bool :=
  let payloadLen := (parts.map List.length).sum
  match writeFakeIpv4Header payloadLen with
  | .error e => (w, out, .error e)
  | .ok header =>
      let wrapScratch := header ++ parts.flatten
      let bufLen := max (wrapScratch.length + 64) 148
      let encScratch := growTo bufLen w.encScratch
      let r := bt.encapsulate w.tunn wrapScratch (encScratch.take bufLen)
      emit { w with tunn := r.1, wrapScratch, encScratch := r.2.1 ++ encScratch.drop bufLen }
        out r.2.2

/-- The rejection of a datagram that no socket can have received. -/
def rejectTooLarge (w : WgTunnel bt) (datagram frameOut : Bytes) :
    WgTunnel bt × Bytes × Except MlvpnError DecapsulateKind :=
  ({ w with rejectedTotal := w.rejectedTotal + 1 }, frameOut,
    .error (.protocol (s!"wg decapsulate: datagram too large ({datagram.length} bytes, " ++
      s!"max {MAX_WG_PACKET})")))

/-- What becomes of `boringtun`'s answer; a frame replaces the content of `frameOut`. -/
def unwrap (w : WgTunnel bt) (frameOut : Bytes) :
    TunnResult → WgTunnel bt × Bytes × Except MlvpnError DecapsulateKind
  | .Done => (w, frameOut, .ok .Consumed)
  | .Err e =>
      ({ w with rejectedTotal := w.rejectedTotal + 1 }, frameOut,
        .error (.protocol s!"wg decapsulate: {e}"))
  | .WriteToNetwork bytes => (w, frameOut, .ok (.SendReply bytes))
  | .WriteToTunnelV4 bytes =>
      if bytes.length < FAKE_IPV4_HEADER_LEN then
        (w, frameOut, .error (.protocol (s!"wg decapsulate: decrypted packet ({bytes.length} " ++
          "bytes) shorter than the fake IPv4 header we always add")))
      else (w, bytes.drop FAKE_IPV4_HEADER_LEN, .ok .Frame)
  | .WriteToTunnelV6 _ =>
      (w, frameOut, .error (.protocol ("wg decapsulate: unexpected IPv6-tagged result " ++
        "(mlvpn only ever emits the fake IPv4 form)")))

def decapsulateLocked (w : WgTunnel bt) (datagram frameOut : Bytes) :
    WgTunnel bt × Bytes × Except MlvpnError DecapsulateKind :=
  if MAX_WG_PACKET < datagram.length then w.rejectTooLarge datagram frameOut
  else
    let r := bt.decapsulate w.tunn datagram w.decScratch
    unwrap { w with
      tunn := r.1, decScratch := r.2.1
      dec_length := (bt.decapsulate_length _ _ _).trans w.dec_length } frameOut r.2.2

/-- The size is checked before the lock is taken, and again under it. -/
def decapsulateInto (w : WgTunnel bt) (datagram frameOut : Bytes) :
    WgTunnel bt × Bytes × Except MlvpnError DecapsulateKind :=
  if MAX_WG_PACKET < datagram.length then w.rejectTooLarge datagram frameOut
  else w.decapsulateLocked datagram frameOut

/-- The loop of `decapsulate_batch` over datagrams and buffers, in step; buffers without a
datagram keep what they have. -/
def decapsulateBatch (w : WgTunnel bt) (datagrams frames : List Bytes) :
    WgTunnel bt × List Bytes × List (Except MlvpnError DecapsulateKind) :=
  let step := fun (w : WgTunnel bt) (slot : Bytes × Bytes) => w.decapsulateLocked slot.1 slot.2
  let log := Mealy.log step w (datagrams.zip frames)
  (Mealy.run step w (datagrams.zip frames),
    log.map (·.2.1) ++ frames.drop datagrams.length, log.map (·.2.2))

/-- `decapsulate_into` on one datagram after the other, each with a buffer of its own. -/
def intoStep (w : WgTunnel bt) (slot : Bytes × Bytes) :
    WgTunnel bt × Bytes × Except MlvpnError DecapsulateKind := w.decapsulateInto slot.1 slot.2

/-! ## The packet that is encrypted -/

/-- The total length that the IPv4 header of a packet states. -/
def totalLength (packet : Bytes) : Nat := readBigEndian (slice packet 2 4)

/-- What `boringtun` takes for an IPv4 packet when it has decrypted it. -/
structure IsIpv4 (packet : Bytes) : Prop where
  length : FAKE_IPV4_HEADER_LEN ≤ packet.length
  version : packet.head?.map (fun b : UInt8 => b >>> 4) = some 4
  total : totalLength packet ≤ packet.length

theorem length_fakeIpv4Header (totalLen : Nat) :
    (fakeIpv4Header totalLen).length = FAKE_IPV4_HEADER_LEN := by
  simp [fakeIpv4Header, FAKE_IPV4_HEADER_LEN]

variable {totalLen payloadLen : Nat} {w : WgTunnel bt} {parts : List Bytes} {out : Bytes}

theorem totalLength_fakeIpv4Header (h : totalLen ≤ 65535) (payload : Bytes) :
    totalLength (fakeIpv4Header totalLen ++ payload) = totalLen := by
  rw [totalLength, fakeIpv4Header, List.append_assoc, List.append_assoc,
    slice_append_right (n := 2) rfl (Nat.le_refl _)]
  show readBigEndian (slice (bigEndian 2 totalLen ++ _) 0 2) = totalLen
  rw [VersionInfo.VersionInfoPayload.slice_append_left (bigEndian_length 2 _),
    readBigEndian_bigEndian, Nat.mod_eq_of_lt (by omega)]

theorem isIpv4_fakeIpv4Header (h : totalLen ≤ 65535) {payload : Bytes}
    (hlen : FAKE_IPV4_HEADER_LEN + payload.length = totalLen) :
    IsIpv4 (fakeIpv4Header totalLen ++ payload) where
  length := by
    rw [List.length_append, length_fakeIpv4Header]
    exact Nat.le_add_right _ _
  version := by
    show some ((0x45 : UInt8) >>> 4) = some 4
    decide
  total := by
    rw [totalLength_fakeIpv4Header h, List.length_append, length_fakeIpv4Header, hlen]

theorem writeFakeIpv4Header_of_le (h : payloadLen ≤ 65515) :
    writeFakeIpv4Header payloadLen = .ok (fakeIpv4Header (FAKE_IPV4_HEADER_LEN + payloadLen)) := by
  refine if_neg ?_
  rw [FAKE_IPV4_HEADER_LEN]
  omega

theorem writeFakeIpv4Header_of_gt (h : 65515 < payloadLen) :
    ∃ e, writeFakeIpv4Header payloadLen = .error e := by
  refine ⟨_, if_pos ?_⟩
  rw [FAKE_IPV4_HEADER_LEN]
  omega

/-! ## One frame -/

/-- What `boringtun` is trusted with: a data message that the sender's tunnel made of an
IPv4 packet gives the receiver's tunnel that packet back, cut to its total length. -/
def Delivers (bt : Boringtun) (sender receiver : bt.Tunn) : Prop :=
  ∀ src dst bytes, IsIpv4 src → (bt.encapsulate sender src dst).2.2 = .WriteToNetwork bytes →
    isData bytes = true → bytes.length ≤ MAX_WG_PACKET →
    ∀ scratch : Bytes, scratch.length = MAX_WG_PACKET →
      (bt.decapsulate receiver bytes scratch).2.2 =
        .WriteToTunnelV4 (src.take (totalLength src))

theorem length_take_growTo {len : Nat} (v : Bytes) : ((growTo len v).take len).length = len := by
  rw [List.length_take, growTo, List.length_append, List.length_replicate]
  omega

theorem emit_eq_ok_true {r : TunnResult} (h : (w.emit out r).2.2 = .ok true) :
    r = .WriteToNetwork (w.emit out r).2.1 ∧ isData (w.emit out r).2.1 = true := by
  cases r with
  | WriteToNetwork bytes => exact ⟨rfl, Except.ok.inj h⟩
  | Done => cases h
  | Err e => cases h
  | WriteToTunnelV4 bytes => cases h
  | WriteToTunnelV6 bytes => cases h

/-- What a call that reports the frame as carried has done: `boringtun` made a data message
of the wrapped frame, no longer than the largest packet. -/
theorem carried_of_eq_ok (hlen : parts.flatten.length ≤ 65515)
    (hcarried : (w.encapsulatePartsInto parts out).2.2 = .ok true) :
    ∃ dst, (bt.encapsulate w.tunn (fakeIpv4Header (FAKE_IPV4_HEADER_LEN + parts.flatten.length) ++
          parts.flatten) dst).2.2 = .WriteToNetwork (w.encapsulatePartsInto parts out).2.1 ∧
      isData (w.encapsulatePartsInto parts out).2.1 = true ∧
      (w.encapsulatePartsInto parts out).2.1.length ≤ MAX_WG_PACKET := by
  rw [encapsulatePartsInto, ← List.length_flatten, writeFakeIpv4Header_of_le hlen] at hcarried ⊢
  obtain ⟨hresult, hdata⟩ := emit_eq_ok_true hcarried
  refine ⟨_, hresult, hdata, Nat.le_trans (bt.encapsulate_fits _ _ _ _ hresult) ?_⟩
  rw [length_take_growTo, List.length_append, length_fakeIpv4Header, FAKE_IPV4_HEADER_LEN,
    MAX_WG_PACKET]
  omega

theorem decapsulateInto_eq (w : WgTunnel bt) (datagram frameOut : Bytes) :
    w.decapsulateInto datagram frameOut = w.decapsulateLocked datagram frameOut := by
  rw [decapsulateInto, decapsulateLocked]
  split
  · rfl
  · rfl

/-- A frame that is reported as carried comes out at the peer as it went in, whatever the
scratch buffers of the two tunnels and the callers' buffers held. -/
theorem decapsulateInto_encapsulatePartsInto {peer : WgTunnel bt} {parts : List Bytes}
    (out frameOut : Bytes) (hlen : parts.flatten.length ≤ 65515)
    (hdelivers : Delivers bt w.tunn peer.tunn)
    (hcarried : (w.encapsulatePartsInto parts out).2.2 = .ok true) :
    (peer.decapsulateInto (w.encapsulatePartsInto parts out).2.1 frameOut).2 =
      (parts.flatten, .ok .Frame) := by
  obtain ⟨dst, hresult, hdata, hsize⟩ := carried_of_eq_ok hlen hcarried
  have htotal : FAKE_IPV4_HEADER_LEN + parts.flatten.length ≤ 65535 := by
    rw [FAKE_IPV4_HEADER_LEN]
    omega
  have hanswer := hdelivers _ _ _ (isIpv4_fakeIpv4Header htotal rfl) hresult hdata hsize
    peer.decScratch peer.dec_length
  rw [totalLength_fakeIpv4Header htotal, List.take_of_length_le (by
    rw [List.length_append, length_fakeIpv4Header])] at hanswer
  rw [decapsulateInto_eq, decapsulateLocked, if_neg (Nat.not_lt.mpr hsize)]
  simp only [hanswer, unwrap]
  rw [if_neg (by rw [List.length_append, length_fakeIpv4Header]; omega),
    List.drop_left' (length_fakeIpv4Header _)]

/-! ## Batches -/

/-- Answers of two calls that differ at most in what their buffers held before: the frames
agree where there is one. -/
def SameAnswer (r r' : Bytes × Except MlvpnError DecapsulateKind) : Prop :=
  r.2 = r'.2 ∧ (r.2 = .ok .Frame → r.1 = r'.1)

theorem unwrap_sameAnswer (w : WgTunnel bt) (f f' : Bytes) (r : TunnResult) :
    (w.unwrap f r).1 = (w.unwrap f' r).1 ∧ SameAnswer (w.unwrap f r).2 (w.unwrap f' r).2 := by
  cases r with
  | Done => exact ⟨rfl, rfl, nofun⟩
  | Err e => exact ⟨rfl, rfl, nofun⟩
  | WriteToNetwork bytes => exact ⟨rfl, rfl, nofun⟩
  | WriteToTunnelV6 bytes => exact ⟨rfl, rfl, nofun⟩
  | WriteToTunnelV4 bytes =>
    simp only [unwrap]
    split
    · exact ⟨rfl, rfl, nofun⟩
    · exact ⟨rfl, rfl, fun _ => rfl⟩

theorem locked_sameAnswer (w : WgTunnel bt) (datagram f f' : Bytes) :
    (w.decapsulateLocked datagram f).1 = (w.decapsulateInto datagram f').1 ∧
      SameAnswer (w.decapsulateLocked datagram f).2 (w.decapsulateInto datagram f').2 := by
  rw [decapsulateInto_eq, decapsulateLocked, decapsulateLocked]
  split
  · exact ⟨rfl, rfl, nofun⟩
  · exact unwrap_sameAnswer _ f f' _

theorem forall₂_zip {datagrams frames buffers : List Bytes}
    (hframes : datagrams.length ≤ frames.length) (hbuffers : datagrams.length ≤ buffers.length) :
    List.Forall₂ (fun slot slot' => slot.1 = slot'.1) (datagrams.zip frames)
      (datagrams.zip buffers) := by
  induction datagrams generalizing frames buffers with
  | nil => exact .nil
  | cons datagram datagrams ih =>
    cases frames with
    | nil => exact absurd hframes (by simp)
    | cons frame frames =>
      cases buffers with
      | nil => exact absurd hbuffers (by simp)
      | cons buffer buffers =>
        exact .cons rfl (ih (by simpa using hframes) (by simpa using hbuffers))

/-- Slot by slot, what a caller sees of two such logs. -/
theorem slots_of_sameAnswer {ι : Type} {l l' : List (ι × Bytes × Except MlvpnError DecapsulateKind)}
    (h : List.Forall₂ (fun r r' => SameAnswer r.2 r'.2) l l') :
    l.map (·.2.2) = l'.map (·.2.2) ∧
      ∀ i : Nat, (l.map (·.2.2))[i]? = some (Except.ok .Frame) →
        (l.map (·.2.1))[i]? = (l'.map (·.2.1))[i]? := by
  induction h with
  | nil => exact ⟨rfl, fun _ _ => rfl⟩
  | cons hanswer _ ih =>
    refine ⟨by rw [List.map_cons, List.map_cons, hanswer.1, ih.1], fun i hi => ?_⟩
    cases i with
    | zero => exact congrArg some (hanswer.2 (Option.some.inj hi))
    | succ i => exact ih.2 i hi

/-- A batch leaves the tunnel, its counters included, as the single calls do, and gives each
slot the same outcome and, where it decrypted, the same frame. -/
theorem decapsulateBatch_eq (w : WgTunnel bt) {datagrams frames buffers : List Bytes}
    (hframes : datagrams.length ≤ frames.length) (hbuffers : datagrams.length ≤ buffers.length) :
    (w.decapsulateBatch datagrams frames).1 = Mealy.run intoStep w (datagrams.zip buffers) ∧
      (w.decapsulateBatch datagrams frames).2.2 =
        (Mealy.log intoStep w (datagrams.zip buffers)).map (·.2.2) ∧
      ∀ i : Nat, (w.decapsulateBatch datagrams frames).2.2[i]? = some (Except.ok .Frame) →
        (w.decapsulateBatch datagrams frames).2.1[i]? =
          ((Mealy.log intoStep w (datagrams.zip buffers)).map (·.2.1))[i]? := by
  have hstep : ∀ (w : WgTunnel bt) (slot slot' : Bytes × Bytes), slot.1 = slot'.1 →
      (w.decapsulateLocked slot.1 slot.2).1 = (w.intoStep slot').1 ∧
        SameAnswer (w.decapsulateLocked slot.1 slot.2).2 (w.intoStep slot').2 := by
    intro w slot slot' hsame
    rw [intoStep, ← hsame]
    exact locked_sameAnswer w slot.1 slot.2 slot'.2
  obtain ⟨hrun, hlog⟩ := Mealy.lockstep hstep (forall₂_zip hframes hbuffers) w
  obtain ⟨houtcomes, hslots⟩ := slots_of_sameAnswer hlog
  refine ⟨hrun, houtcomes, fun i hi => ?_⟩
  -- a slot with an outcome lies before the buffers that the batch does not reach
  obtain ⟨hlt, -⟩ := List.getElem?_eq_some_iff.mp hi
  rw [decapsulateBatch, List.getElem?_append_left (by simpa [decapsulateBatch] using hlt)]
  exact hslots i hi

/-- An input that is too long stops before anything is done. -/
theorem encapsulatePartsInto_of_gt (out : Bytes) (hlen : 65515 < (parts.map List.length).sum) :
    ∃ e, w.encapsulatePartsInto parts out = (w, out, .error e) := by
  obtain ⟨e, he⟩ := writeFakeIpv4Header_of_gt hlen
  refine ⟨e, ?_⟩
  rw [encapsulatePartsInto, he]

/-! ## A tunnel without encryption -/

/-- A `boringtun` that hides nothing: the packet between a header and a tag of zeros. -/
def cleartext : Boringtun where
  Tunn := Unit
  encapsulate t src dst :=
    if src.length + 32 ≤ dst.length then
      (t, dst, .WriteToNetwork ([4] ++ (List.replicate 15 0 ++ (src ++ List.replicate 16 0))))
    else (t, dst, .Err "DestinationBufferTooSmall")
  decapsulate t datagram dst :=
    let packet := (datagram.drop 16).take (datagram.length - 32)
    (t, dst, .WriteToTunnelV4 (packet.take (totalLength packet)))
  debug _ := ""
  decapsulate_length _ _ _ := rfl
  encapsulate_fits t src dst bytes h := by
    split at h
    · cases h
      simp only [List.length_append, List.length_singleton, List.length_replicate]
      omega
    · cases h

def plainTunnel : WgTunnel cleartext where
  tunn := ()
  wrapScratch := []
  encScratch := []
  decScratch := List.replicate MAX_WG_PACKET 0
  rejectedTotal := 0
  substitutedTotal := 0
  dec_length := List.length_replicate

theorem delivers_cleartext : Delivers cleartext () () := by
  intro src dst bytes _ hresult _ _ scratch _
  have hbytes : bytes = [4] ++ (List.replicate 15 0 ++ (src ++ List.replicate 16 0)) := by
    simp only [cleartext] at hresult
    split at hresult
    · cases hresult
      rfl
    · cases hresult
  have hpacket : (bytes.drop 16).take (bytes.length - 32) = src := by
    have hlen : bytes.length - 32 = src.length := by
      rw [hbytes]
      simp only [List.length_append, List.length_singleton, List.length_replicate]
      omega
    rw [hlen, hbytes]
    exact List.take_left
  show TunnResult.WriteToTunnelV4 (List.take (totalLength ((bytes.drop 16).take
    (bytes.length - 32))) ((bytes.drop 16).take (bytes.length - 32))) = _
  rw [hpacket]

/-! ## The framing as a whole -/

/-- Frames survive the framing.  What is reported as carried comes out at the peer as the
parts put together, a header and a payload as those two; what is too long is an error that
touches neither the tunnel nor the output; and a batch is its datagrams one by one. -/
theorem frame_survives (bt : Boringtun) :
    (∀ (w peer : WgTunnel bt) (parts : List Bytes) (out frameOut : Bytes),
      (parts.map List.length).sum ≤ 65515 → Delivers bt w.tunn peer.tunn →
      (w.encapsulatePartsInto parts out).2.2 = .ok true →
      (peer.decapsulateInto (w.encapsulatePartsInto parts out).2.1 frameOut).2 =
          (parts.flatten, .ok .Frame) ∧
        ∀ (header : Header) (payload : Bytes), parts = [header.toBytes, payload] →
          Header.decode
            (peer.decapsulateInto (w.encapsulatePartsInto parts out).2.1 frameOut).2.1 =
              .ok (.ok (header, payload))) ∧
    (∀ (w : WgTunnel bt) (parts : List Bytes) (out : Bytes),
      65515 < (parts.map List.length).sum →
      ∃ e, w.encapsulatePartsInto parts out = (w, out, .error e)) ∧
    (∀ (w : WgTunnel bt) (datagrams frames buffers : List Bytes),
      datagrams.length ≤ frames.length → datagrams.length ≤ buffers.length →
      (w.decapsulateBatch datagrams frames).1 = Mealy.run intoStep w (datagrams.zip buffers) ∧
      (w.decapsulateBatch datagrams frames).2.2 =
        (Mealy.log intoStep w (datagrams.zip buffers)).map (·.2.2) ∧
      ∀ i : Nat, (w.decapsulateBatch datagrams frames).2.2[i]? = some (Except.ok .Frame) →
        (w.decapsulateBatch datagrams frames).2.1[i]? =
          ((Mealy.log intoStep w (datagrams.zip buffers)).map (·.2.1))[i]?) := by
  refine ⟨fun w peer parts out frameOut hlen hdelivers hcarried => ?_,
    fun w parts out hlen => encapsulatePartsInto_of_gt out hlen,
    fun w datagrams frames buffers hframes hbuffers => decapsulateBatch_eq w hframes hbuffers⟩
  rw [← List.length_flatten] at hlen
  have hframe := decapsulateInto_encapsulatePartsInto out frameOut hlen hdelivers hcarried
  refine ⟨hframe, fun header payload hparts => ?_⟩
  rw [hframe, hparts, List.flatten_cons, List.flatten_singleton]
  exact header.decode_toBytes payload

/-- Three bytes in two parts, into a buffer that held something else. -/
theorem frame_survives_cleartext :
    (plainTunnel.encapsulatePartsInto [[1], [2, 3]] []).2.2 = .ok true ∧
      (plainTunnel.decapsulateInto
          (plainTunnel.encapsulatePartsInto [[1], [2, 3]] []).2.1 [7]).2 =
        ([1, 2, 3], .ok .Frame) := by
  have hcarried : (plainTunnel.encapsulatePartsInto [[1], [2, 3]] []).2.2 = .ok true := by
    decide +kernel
  exact ⟨hcarried, ((frame_survives cleartext).1 plainTunnel plainTunnel [[1], [2, 3]] [] [7]
    (by decide) delivers_cleartext hcarried).1⟩

end WgTunnel

end Mlvpn.Ports.WgFraming
