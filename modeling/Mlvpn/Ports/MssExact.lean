import Mlvpn.Ports.Mss

/-!
# MSS clamping of whole packets

What `clamp_if_tcp_syn` does to a byte string, stated without its control flow: which
packets it changes, which bytes of them, and to what.  The checksum is judged as a
receiver would, by the one's-complement sum of the pseudo-header and all TCP bytes.

## Main results

* `clampIfTcpSyn_cases`: a packet with an oversized MSS is rewritten, every other one
  comes back as it was.
* `fold_segmentSum_iff`: the rewritten packet's sum folds to `0xffff` unless the 32-bit
  accumulator wrapped.
* `clamp_exact`: all of that for arbitrary bytes, and that a second clamping with no
  smaller MTU changes nothing.
* `clamp_fragment_iff`: which IPv4 fragments are left alone.
-/

namespace Mlvpn.Ports.Mss

open Verified Protocol BigEndian CheckedSlice OnesComplement

inductive IpVersion where
  | v4
  | v6
deriving Repr, DecidableEq

/-- The packet's IP header announces TCP, which begins at the given offset. -/
inductive CarriesTcp (packet : Bytes) : IpVersion → Nat → Prop where
  | v4 {first : UInt8} (hfirst : packet[0]? = some first) (hversion : first >>> 4 = 4)
      (hihl : 20 ≤ (first &&& 0x0f).toNat * 4) (hproto : packet[9]? = some PROTO_TCP) :
      CarriesTcp packet .v4 ((first &&& 0x0f).toNat * 4)
  | v6 {first : UInt8} (hfirst : packet[0]? = some first) (hversion : first >>> 4 = 6)
      (hproto : packet[6]? = some PROTO_TCP) :
      CarriesTcp packet .v6 IPV6_HEADER_LEN

/-- What the checksum covers besides the TCP bytes. -/
def pseudoHeader (packet : Bytes) (tcpLength : Nat) : IpVersion → Bytes
  | .v4 => slice packet 12 16 ++ slice packet 16 20 ++ [0, PROTO_TCP] ++ bigEndian 2 tcpLength
  | .v6 =>
      slice packet 8 24 ++ slice packet 24 40 ++ bigEndian 4 tcpLength ++ [0, 0, 0] ++ [PROTO_TCP]

/-- The word sum of the pseudo-header and the TCP bytes up to the end of the buffer. -/
def segmentSum (packet : Bytes) (version : IpVersion) (tcpStart : Nat) : Nat :=
  wordSum (pseudoHeader packet (packet.length - tcpStart) version ++ packet.drop tcpStart)

def withChecksum (packet : Bytes) (tcpStart : Nat) (checksum : UInt16) : Bytes :=
  overwrite packet (tcpStart + 16) (toBeBytes checksum)

/-! ## Packets -/

variable {packet : Bytes} {version : IpVersion} {tcpStart : Nat} {headerLen : Nat} {mssAt : Nat}
  {mss : UInt16} {mtu : UInt16} {other : Bytes}

theorem CarriesTcp.le_start (h : CarriesTcp packet version tcpStart) : 20 ≤ tcpStart := by
  cases h with
  | v4 _ _ hihl _ => exact hihl
  | v6 => decide

theorem CarriesTcp.unique {version' : IpVersion} {tcpStart' : Nat}
    (h : CarriesTcp packet version tcpStart) (h' : CarriesTcp packet version' tcpStart') :
    version = version' ∧ tcpStart = tcpStart' := by
  cases h with
  | v4 hfirst hversion =>
    cases h' with
    | v4 hfirst' =>
      rw [hfirst] at hfirst'
      cases hfirst'
      exact ⟨rfl, rfl⟩
    | v6 hfirst' hversion' =>
      rw [hfirst] at hfirst'
      cases hfirst'
      rw [hversion] at hversion'
      exact absurd hversion' (by decide)
  | v6 hfirst hversion =>
    cases h' with
    | v4 hfirst' hversion' =>
      rw [hfirst] at hfirst'
      cases hfirst'
      rw [hversion] at hversion'
      exact absurd hversion' (by decide)
    | v6 => exact ⟨rfl, rfl⟩

theorem TcpSyn.unique {headerLen' mssAt' : Nat} {mss' : UInt16}
    (h : TcpSyn packet tcpStart headerLen mssAt mss)
    (h' : TcpSyn packet tcpStart headerLen' mssAt' mss') :
    headerLen = headerLen' ∧ mssAt = mssAt' ∧ mss = mss' := by
  obtain ⟨b, hb, rfl⟩ := h.offset
  obtain ⟨b', hb', rfl⟩ := h'.offset
  rw [hb] at hb'
  cases hb'
  obtain ⟨k, rfl, hfirst⟩ := h.first
  obtain ⟨k', rfl, hfirst'⟩ := h'.first
  obtain ⟨rfl, rfl⟩ := hfirst.unique hfirst'
  exact ⟨rfl, rfl, rfl⟩

/-- An IP header is read at positions that a change past it leaves alone. -/
theorem CarriesTcp.congr (h : CarriesTcp packet version tcpStart)
    (hsame : ∀ n, n < tcpStart → other[n]? = packet[n]?) : CarriesTcp other version tcpStart := by
  have hstart := h.le_start
  cases h with
  | v4 hfirst hversion hihl hproto =>
    exact .v4 ((hsame 0 (by omega)).trans hfirst) hversion hihl
      ((hsame 9 (by omega)).trans hproto)
  | v6 hfirst hversion hproto =>
    exact .v6 ((hsame 0 (by decide)).trans hfirst) hversion ((hsame 6 (by decide)).trans hproto)

/-! ## The pseudo-header the code builds -/

theorem length_slice {buf : Bytes} {start stop : Nat} (h : stop ≤ buf.length) :
    (slice buf start stop).length = stop - start := by
  rw [slice, List.length_take, List.length_drop]
  omega

/-- Where the code looks for the checksum in its scratch buffer. -/
def scratchStart : IpVersion → Nat
  | .v4 => 12
  | .v6 => 40

theorem length_pseudoHeader (h : CarriesTcp packet version tcpStart) {p : Bytes}
    (hp : tcpStart ≤ p.length) (tcpLength : Nat) :
    (pseudoHeader p tcpLength version).length = scratchStart version := by
  cases h with
  | v4 _ _ hihl _ =>
    simp only [pseudoHeader, List.length_append, List.length_cons, List.length_nil,
      bigEndian_length, length_slice (show 16 ≤ p.length by omega),
      length_slice (show 20 ≤ p.length by omega)]
    rfl
  | v6 =>
    have hp' : 40 ≤ p.length := hp
    simp only [pseudoHeader, List.length_append, List.length_cons, List.length_nil,
      bigEndian_length, length_slice (show 24 ≤ p.length by omega), length_slice hp']
    rfl

theorem even_scratchStart (version : IpVersion) : scratchStart version % 2 = 0 := by
  cases version <;> rfl

/-- What comes of a packet once its IP header is read: its TCP part is clamped with the
checksum of its IP version, or it has none with an MSS. -/
def ReadsHeader (packet : Bytes) (mtu : UInt16) (clamped : Checked Bytes) : Prop :=
  (∃ version tcpStart checksum, CarriesTcp packet version tcpStart ∧ tcpStart ≤ packet.length ∧
    clamped = clampTcp packet mtu tcpStart checksum ∧
    ∀ p : Bytes, tcpStart ≤ p.length → ∀ tcp, checksum p tcp =
      tcpChecksum (pseudoHeader p tcp.length version) tcp (scratchStart version + 16)) ∨
  (∀ version tcpStart headerLen mssAt mss, CarriesTcp packet version tcpStart →
    ¬TcpSyn packet tcpStart headerLen mssAt mss) ∧ clamped = .ok packet

theorem clampIpv4_readsHeader (mtu : UInt16) {first : UInt8} (hfirst : packet[0]? = some first)
    (h4 : first >>> 4 = 4) : ReadsHeader packet mtu (clampIpv4 packet mtu) := by
  -- whatever the code refuses to parse is no TCP SYN behind an IPv4 header either
  have hno : ((first &&& 0x0f).toNat * 4 < 20 ∨ packet.length < (first &&& 0x0f).toNat * 4 + 20 ∨
      packet[9]? ≠ some PROTO_TCP) → ∀ version tcpStart headerLen mssAt mss,
      CarriesTcp packet version tcpStart → ¬TcpSyn packet tcpStart headerLen mssAt mss := by
    intro hbad version tcpStart headerLen mssAt mss hcarries hsyn
    have hinside := hsyn.inside
    have hfull := hsyn.full
    cases hcarries with
    | v4 hfirst' _ hihl hproto =>
      rw [hfirst] at hfirst'
      cases hfirst'
      rcases hbad with hshort | hshort | hproto'
      · omega
      · omega
      · exact hproto' hproto
    | v6 hfirst' hversion =>
      rw [hfirst] at hfirst'
      cases hfirst'
      rw [h4] at hversion
      exact absurd hversion (by decide)
  unfold clampIpv4
  by_cases hshort : packet.length < 20
  · rw [if_pos hshort]
    exact .inr ⟨hno (by omega), rfl⟩
  rw [if_neg hshort, index_of_getElem? hfirst, ok_bind]
  dsimp only
  by_cases hihl : (first &&& 0x0f).toNat * 4 < 20 ∨ packet.length < (first &&& 0x0f).toNat * 4 + 20
  · rw [if_pos hihl]
    exact .inr ⟨hno (by tauto), rfl⟩
  rw [if_neg hihl]
  obtain ⟨proto, hproto⟩ : ∃ proto, packet[9]? = some proto :=
    ⟨_, List.getElem?_eq_getElem (by omega)⟩
  rw [index_of_getElem? hproto, ok_bind]
  by_cases htcp : proto = PROTO_TCP
  case neg =>
    rw [if_pos htcp]
    refine .inr ⟨hno (.inr (.inr ?_)), rfl⟩
    rw [hproto]
    exact fun h => htcp (Option.some.inj h)
  subst htcp
  rw [if_neg (not_not.mpr rfl)]
  refine .inl ⟨.v4, _, _, .v4 hfirst h4 (by omega) hproto, by omega, rfl, fun p hp tcp => ?_⟩
  rw [subslice_of_le (by decide) (by omega), ok_bind, subslice_of_le (by decide) (by omega),
    ok_bind]
  rfl

theorem clampIpv6_readsHeader (mtu : UInt16) {first : UInt8} (hfirst : packet[0]? = some first)
    (h6 : first >>> 4 = 6) : ReadsHeader packet mtu (clampIpv6 packet mtu) := by
  have hno : (packet.length < 40 ∨ packet[6]? ≠ some PROTO_TCP) →
      ∀ version tcpStart headerLen mssAt mss,
      CarriesTcp packet version tcpStart → ¬TcpSyn packet tcpStart headerLen mssAt mss := by
    intro hbad version tcpStart headerLen mssAt mss hcarries hsyn
    have hinside := hsyn.inside
    cases hcarries with
    | v4 hfirst' hversion =>
      rw [hfirst] at hfirst'
      cases hfirst'
      rw [h6] at hversion
      exact absurd hversion (by decide)
    | v6 _ _ hproto =>
      rcases hbad with hshort | hproto'
      · rw [IPV6_HEADER_LEN] at hinside
        omega
      · exact hproto' hproto
  unfold clampIpv6
  by_cases hshort : packet.length < IPV6_HEADER_LEN
  · rw [if_pos hshort]
    exact .inr ⟨hno (.inl hshort), rfl⟩
  have hlong : 40 ≤ packet.length := Nat.not_lt.mp hshort
  obtain ⟨nextHeader, hnext⟩ : ∃ nextHeader, packet[6]? = some nextHeader :=
    ⟨_, List.getElem?_eq_getElem (by omega)⟩
  rw [if_neg hshort, index_of_getElem? hnext, ok_bind]
  by_cases htcp : nextHeader = PROTO_TCP
  case neg =>
    rw [if_pos htcp]
    refine .inr ⟨hno (.inr ?_), rfl⟩
    rw [hnext]
    exact fun h => htcp (Option.some.inj h)
  subst htcp
  rw [if_neg (not_not.mpr rfl)]
  refine .inl ⟨.v6, _, _, .v6 hfirst h6 hnext, hlong, rfl, fun p hp tcp => ?_⟩
  have hp' : 40 ≤ p.length := hp
  rw [subslice_of_le (by decide) (by omega), ok_bind, subslice_of_le (by decide) (by omega),
    ok_bind]
  rfl

theorem clampIfTcpSyn_readsHeader (packet : Bytes) (mtu : UInt16) :
    ReadsHeader packet mtu (clampIfTcpSyn packet mtu) := by
  unfold clampIfTcpSyn
  rw [List.head?_eq_getElem?]
  rcases hfirst : packet[0]? with _ | first
  · refine .inr ⟨fun version tcpStart headerLen mssAt mss hcarries => ?_, rfl⟩
    cases hcarries with
    | v4 h | v6 h =>
      rw [hfirst] at h
      exact nomatch h
  dsimp only
  by_cases h4 : first >>> 4 = 4
  · rw [if_pos h4]
    exact clampIpv4_readsHeader mtu hfirst h4
  rw [if_neg h4]
  by_cases h6 : first >>> 4 = 6
  · rw [if_pos h6]
    exact clampIpv6_readsHeader mtu hfirst h6
  rw [if_neg h6]
  refine .inr ⟨fun version tcpStart headerLen mssAt mss hcarries => ?_, rfl⟩
  cases hcarries with
  | v4 h hversion =>
    rw [hfirst] at h
    cases h
    exact absurd hversion h4
  | v6 h hversion =>
    rw [hfirst] at h
    cases h
    exact absurd hversion h6

/-! ## What the two writes leave -/

theorem length_toBeBytes (x : UInt16) : (toBeBytes x).length = 2 := rfl

section

variable {packet : Bytes} {tcpStart headerLen mssAt : Nat} {mss : UInt16}

section

variable (h : TcpSyn packet tcpStart headerLen mssAt mss)
include h

theorem TcpSyn.mssAt_le : tcpStart + 20 ≤ mssAt ∧ mssAt + 4 ≤ tcpStart + headerLen := by
  obtain ⟨k, rfl, hfirst⟩ := h.first
  have hk := hfirst.length_le
  rw [length_slice h.inside] at hk
  omega

theorem TcpSyn.length_withMss (value : UInt16) :
    (withMss packet mssAt value).length = packet.length := by
  have := h.mssAt_le
  have := h.inside
  exact length_overwrite (by rw [length_toBeBytes]; omega)

theorem TcpSyn.length_withChecksum
    (checksum : UInt16) : (withChecksum packet tcpStart checksum).length = packet.length := by
  have := h.mssAt_le
  have := h.inside
  exact length_overwrite (by rw [length_toBeBytes]; omega)

theorem TcpSyn.getElem?_withMss (value : UInt16) {n : Nat} (hn : n ≠ mssAt + 2 ∧ n ≠ mssAt + 3) :
    (withMss packet mssAt value)[n]? = packet[n]? := by
  have := h.mssAt_le
  have := h.inside
  rw [withMss, getElem?_overwrite (by rw [length_toBeBytes]; omega), length_toBeBytes,
    if_neg (by omega)]

theorem TcpSyn.getElem?_withChecksum
    (checksum : UInt16) {n : Nat} (hn : n ≠ tcpStart + 16 ∧ n ≠ tcpStart + 17) :
    (withChecksum packet tcpStart checksum)[n]? = packet[n]? := by
  have := h.mssAt_le
  have := h.inside
  rw [withChecksum, getElem?_overwrite (by rw [length_toBeBytes]; omega), length_toBeBytes,
    if_neg (by omega)]

/-- With another MSS it is the same segment otherwise. -/
theorem TcpSyn.withMss (value : UInt16) :
    TcpSyn (withMss packet mssAt value) tcpStart headerLen mssAt value := by
  have hat := h.mssAt_le
  have hinside := h.inside
  obtain ⟨b, hb, hoffset⟩ := h.offset
  obtain ⟨flags, hflags, hset⟩ := h.syn
  obtain ⟨k, hk, hfirst⟩ := h.first
  refine ⟨⟨b, ?_, hoffset⟩, h.full, by rwa [h.length_withMss], ⟨flags, ?_, hset⟩, k, hk, ?_⟩
  · rw [h.getElem?_withMss value (by omega), hb]
  · rw [h.getElem?_withMss value (by omega), hflags]
  · have hoverwrite : slice (Mss.withMss packet mssAt value) (tcpStart + 20)
        (tcpStart + headerLen) =
        overwrite (slice packet (tcpStart + 20) (tcpStart + headerLen)) (k + 2)
          (toBeBytes value) := by
      have hdrop : (packet.drop (tcpStart + 20)).length = packet.length - (tcpStart + 20) :=
        List.length_drop
      rw [slice, Mss.withMss, drop_overwrite (by omega) (by rw [length_toBeBytes]; omega),
        take_overwrite (by rw [length_toBeBytes]; omega)
          (by rw [length_toBeBytes, hdrop]; omega),
        show mssAt + 2 - (tcpStart + 20) = k + 2 by omega]
      rfl
    rw [hoverwrite]
    exact hfirst.overwrite value

theorem TcpSyn.withChecksum (checksum : UInt16) :
    TcpSyn (withChecksum packet tcpStart checksum) tcpStart headerLen mssAt mss := by
  have hat := h.mssAt_le
  have hinside := h.inside
  obtain ⟨b, hb, hoffset⟩ := h.offset
  obtain ⟨flags, hflags, hset⟩ := h.syn
  obtain ⟨k, hk, hfirst⟩ := h.first
  refine ⟨⟨b, ?_, hoffset⟩, h.full, by rwa [h.length_withChecksum], ⟨flags, ?_, hset⟩, k, hk, ?_⟩
  · rw [h.getElem?_withChecksum checksum (by omega), hb]
  · rw [h.getElem?_withChecksum checksum (by omega), hflags]
  · rwa [slice, Mss.withChecksum, drop_overwrite_of_le (by rw [length_toBeBytes]; omega)
      (by rw [length_toBeBytes]; omega)]

end

end

/-! ## The sum a receiver takes -/

theorem slice_congr {buf : Bytes} {start stop : Nat} (h : ∀ n, n < stop → other[n]? = buf[n]?) :
    slice other start stop = slice buf start stop := by
  apply List.ext_getElem?
  intro n
  rw [slice, slice, List.getElem?_take, List.getElem?_take]
  by_cases hn : n < stop - start
  · rw [if_pos hn, if_pos hn, List.getElem?_drop, List.getElem?_drop, h _ (by omega)]
  · rw [if_neg hn, if_neg hn]

theorem pseudoHeader_congr (h : CarriesTcp packet version tcpStart)
    (hsame : ∀ n, n < tcpStart → other[n]? = packet[n]?) (tcpLength : Nat) :
    pseudoHeader other tcpLength version = pseudoHeader packet tcpLength version := by
  cases h with
  | v4 _ _ hihl _ =>
    rw [pseudoHeader, pseudoHeader, slice_congr fun n hn => hsame n (by omega),
      slice_congr fun n hn => hsame n (by omega)]
  | v6 =>
    have hsame' : ∀ n, n < 40 → other[n]? = packet[n]? := hsame
    rw [pseudoHeader, pseudoHeader, slice_congr fun n hn => hsame' n (by omega),
      slice_congr fun n hn => hsame' n hn]

section

variable {packet : Bytes} {version : IpVersion} {tcpStart headerLen mssAt : Nat} {mss : UInt16}

section

variable (hcarries : CarriesTcp packet version tcpStart)
include hcarries

/-- The sum with any checksum in place, by its pseudo-header and its segment. -/
theorem segmentSum_withChecksum_eq
    (h : TcpSyn packet tcpStart headerLen mssAt mss) (checksum : UInt16) :
    segmentSum (withChecksum packet tcpStart checksum) version tcpStart =
      wordSum (pseudoHeader packet (packet.drop tcpStart).length version ++
        overwrite (packet.drop tcpStart) 16 (toBeBytes checksum)) := by
  have hat := h.mssAt_le
  have hinside := h.inside
  rw [segmentSum, h.length_withChecksum, pseudoHeader_congr hcarries fun n hn =>
      h.getElem?_withChecksum checksum (by omega), withChecksum,
    drop_overwrite (Nat.le_add_right _ _) (by rw [length_toBeBytes]; omega),
    Nat.add_sub_cancel_left, List.length_drop]

theorem segmentSum_withChecksum
    (h : TcpSyn packet tcpStart headerLen mssAt mss) (checksum : UInt16) :
    segmentSum (withChecksum packet tcpStart checksum) version tcpStart =
      segmentSum (withChecksum packet tcpStart 0) version tcpStart + checksum.toNat := by
  have hat := h.mssAt_le
  have hinside := h.inside
  have heven : (pseudoHeader packet (packet.drop tcpStart).length version).length % 2 = 0 := by
    rw [length_pseudoHeader hcarries (by omega), even_scratchStart]
  have hlong : 20 ≤ (packet.drop tcpStart).length := by
    rw [List.length_drop]
    omega
  rw [segmentSum_withChecksum_eq hcarries h, segmentSum_withChecksum_eq hcarries h,
    wordSum_overwrite heven hlong]
  rfl

/-- Up to 131074 bytes the sum cannot leave 32 bits. -/
theorem segmentSum_lt (hstart : tcpStart ≤ packet.length) (hlength : packet.length ≤ 131074) :
    segmentSum packet version tcpStart < 2 ^ 32 := by
  have hle := wordSum_le
    (pseudoHeader packet (packet.length - tcpStart) version ++ packet.drop tcpStart)
  have hscratch : scratchStart version ≤ tcpStart := by
    cases hcarries with
    | v4 _ _ hihl _ => exact Nat.le_trans (by decide) hihl
    | v6 => exact Nat.le_refl 40
  rw [List.length_append, length_pseudoHeader hcarries hstart, List.length_drop] at hle
  rw [segmentSum]
  omega

end

end

/-- A packet is rewritten when its MSS is oversized, and only then. -/
theorem clampIfTcpSyn_cases (packet : Bytes) (mtu : UInt16) :
    (∃ version tcpStart headerLen mssAt mss checksum, CarriesTcp packet version tcpStart ∧
      Oversized packet mtu tcpStart headerLen mssAt mss ∧
      checksum.toNat = 65535 - fold (segmentSum (withChecksum
        (withMss packet mssAt (segmentFor mtu tcpStart headerLen)) tcpStart 0)
          version tcpStart % 2 ^ 32) ∧
      clampIfTcpSyn packet mtu = .ok (withChecksum
        (withMss packet mssAt (segmentFor mtu tcpStart headerLen)) tcpStart checksum)) ∨
    (∀ version tcpStart headerLen mssAt mss, CarriesTcp packet version tcpStart →
      ¬Oversized packet mtu tcpStart headerLen mssAt mss) ∧
      clampIfTcpSyn packet mtu = .ok packet := by
  rcases clampIfTcpSyn_readsHeader packet mtu with
    ⟨version, tcpStart, checksum, hcarries, hstart, hclamp, hchecksum⟩ | ⟨hno, hclamp⟩
  case inr =>
    exact .inr ⟨fun version tcpStart headerLen mssAt mss hcarries hover =>
      hno version tcpStart headerLen mssAt mss hcarries hover.tcp, hclamp⟩
  -- the checksum of the IP version always has a value
  have hsum : ∀ p : Bytes, p.length = packet.length → tcpStart + 20 ≤ p.length →
      ∃ c, checksum p (p.drop tcpStart) = .ok c ∧ c.toNat = 65535 -
        fold (wordSum (pseudoHeader p (p.drop tcpStart).length version ++
          overwrite (p.drop tcpStart) 16 [0, 0]) % 2 ^ 32) := by
    intro p hp hlong
    rw [hchecksum p (by omega)]
    exact tcpChecksum_eq (by rw [length_pseudoHeader hcarries (by omega)])
      (by rw [List.length_drop]; omega)
  rcases clampTcp_cases mtu hstart fun p hp hlong => (hsum p hp hlong).imp fun _ h => h.1 with
    ⟨headerLen, mssAt, mss, c, hover, hc, hresult⟩ | ⟨hno, hresult⟩
  · have hsyn := hover.tcp.withMss (segmentFor mtu tcpStart headerLen)
    have hat := hsyn.mssAt_le
    have hinside := hsyn.inside
    have hcarries' : CarriesTcp (withMss packet mssAt (segmentFor mtu tcpStart headerLen)) version
        tcpStart :=
      hcarries.congr fun n hn => hover.tcp.getElem?_withMss _ (by omega)
    refine .inl ⟨version, tcpStart, headerLen, mssAt, mss, c, hcarries, hover, ?_, ?_⟩
    · obtain ⟨c', hc', hvalue⟩ :=
        hsum (withMss packet mssAt (segmentFor mtu tcpStart headerLen))
          (hover.tcp.length_withMss _) (by omega)
      rw [hc] at hc'
      cases hc'
      rw [hvalue, segmentSum_withChecksum_eq hcarries' hsyn]
      rfl
    · rw [hclamp, hresult, withChecksum]
  · refine .inr ⟨fun version' tcpStart' headerLen mssAt mss hcarries' hover => ?_, ?_⟩
    · obtain ⟨-, rfl⟩ := hcarries.unique hcarries'
      exact hno headerLen mssAt mss hover
    · rw [hclamp, hresult]

/-! ## Clamping once and twice -/

/-- A packet that was clamped is the one that was oversized, at that place only. -/
theorem Oversized.clamp (hcarries : CarriesTcp packet version tcpStart)
    (hover : Oversized packet mtu tcpStart headerLen mssAt mss) :
    ∃ checksum,
      checksum.toNat = 65535 - fold (segmentSum (withChecksum
        (withMss packet mssAt (segmentFor mtu tcpStart headerLen)) tcpStart 0)
          version tcpStart % 2 ^ 32) ∧
      clampIfTcpSyn packet mtu = .ok (withChecksum
        (withMss packet mssAt (segmentFor mtu tcpStart headerLen)) tcpStart checksum) := by
  rcases clampIfTcpSyn_cases packet mtu with
    ⟨version', tcpStart', headerLen', mssAt', mss', checksum, hcarries', hover', hvalue, hclamp⟩ |
    ⟨hno, -⟩
  · obtain ⟨rfl, rfl⟩ := hcarries.unique hcarries'
    obtain ⟨rfl, rfl, rfl⟩ := hover.tcp.unique hover'.tcp
    exact ⟨checksum, hvalue, hclamp⟩
  · exact absurd hover (hno _ _ _ _ _ hcarries)

/-- The checksum written is the right one, as long as the accumulator did not wrap. -/
theorem fold_segmentSum_iff (hcarries : CarriesTcp packet version tcpStart)
    (hsyn : TcpSyn packet tcpStart headerLen mssAt mss) {checksum : UInt16}
    (hvalue : checksum.toNat =
      65535 - fold (segmentSum (withChecksum packet tcpStart 0) version tcpStart % 2 ^ 32)) :
    fold (segmentSum (withChecksum packet tcpStart checksum) version tcpStart) = 65535 ↔
      segmentSum (withChecksum packet tcpStart 0) version tcpStart / 2 ^ 32 % 65535 = 0 := by
  rw [segmentSum_withChecksum hcarries hsyn, hvalue, fold_add_complement_iff]

theorem withChecksum_withChecksum (h : TcpSyn packet tcpStart headerLen mssAt mss)
    (checksum checksum' : UInt16) :
    withChecksum (withChecksum packet tcpStart checksum) tcpStart checksum' =
      withChecksum packet tcpStart checksum' := by
  have hat := h.mssAt_le
  have hinside := h.inside
  apply List.ext_getElem?
  intro n
  by_cases hn : n ≠ tcpStart + 16 ∧ n ≠ tcpStart + 17
  · rw [(h.withChecksum checksum).getElem?_withChecksum checksum' hn,
      h.getElem?_withChecksum checksum hn, h.getElem?_withChecksum checksum' hn]
  · have hwritten : ∀ p : Bytes, p.length = packet.length →
        (withChecksum p tcpStart checksum')[n]? =
          (toBeBytes checksum')[n - (tcpStart + 16)]? := by
      intro p hp
      rw [withChecksum, getElem?_overwrite (by rw [length_toBeBytes]; omega), length_toBeBytes,
        if_pos (by omega)]
    rw [hwritten _ (h.length_withChecksum checksum), hwritten packet rfl]

/-- What a packet clamped once is. -/
structure ClampedTo (packet out : Bytes) (version : IpVersion) (tcpStart headerLen mssAt : Nat)
    (mss : UInt16) : Prop where
  length : out.length = packet.length
  /-- Only the MSS and the checksum changed. -/
  elsewhere : ∀ n, n ∉ [mssAt + 2, mssAt + 3, tcpStart + 16, tcpStart + 17] →
    out[n]? = packet[n]?
  carries : CarriesTcp out version tcpStart
  tcp : TcpSyn out tcpStart headerLen mssAt mss
  /-- The sum folds to `0xffff`, unless that of the other words takes 32 bits or more. -/
  sum : segmentSum (withChecksum out tcpStart 0) version tcpStart < 2 ^ 32 →
    fold (segmentSum out version tcpStart) = 0xffff
  sum_lt : packet.length ≤ 131074 →
    segmentSum (withChecksum out tcpStart 0) version tcpStart < 2 ^ 32

theorem Oversized.clampedTo (hcarries : CarriesTcp packet version tcpStart)
    (hover : Oversized packet mtu tcpStart headerLen mssAt mss) :
    ∃ out, clampIfTcpSyn packet mtu = .ok out ∧
      ClampedTo packet out version tcpStart headerLen mssAt
        (segmentFor mtu tcpStart headerLen) := by
  obtain ⟨checksum, hvalue, hclamp⟩ := hover.clamp hcarries
  have hrewritten := hover.tcp.withMss (segmentFor mtu tcpStart headerLen)
  have hat := hrewritten.mssAt_le
  have hlength := hover.tcp.length_withMss (segmentFor mtu tcpStart headerLen)
  have hsyn := hrewritten.withChecksum checksum
  have hinside := hsyn.inside
  have hcarries' : CarriesTcp (withMss packet mssAt (segmentFor mtu tcpStart headerLen)) version
      tcpStart :=
    hcarries.congr fun n hn => hover.tcp.getElem?_withMss _ (by omega)
  refine ⟨_, hclamp, ?_, ?_, ?_, hsyn, ?_, ?_⟩
  case _ => rw [hrewritten.length_withChecksum, hlength]
  case _ =>
    intro n hn
    simp only [List.mem_cons, List.not_mem_nil, not_or, or_false] at hn
    rw [hrewritten.getElem?_withChecksum checksum ⟨hn.2.2.1, hn.2.2.2⟩,
      hover.tcp.getElem?_withMss _ ⟨hn.1, hn.2.1⟩]
  case _ =>
    exact hcarries'.congr fun n hn => hrewritten.getElem?_withChecksum checksum (by omega)
  case _ =>
    intro hsum
    rw [withChecksum_withChecksum hrewritten] at hsum
    rw [fold_segmentSum_iff hcarries' hrewritten hvalue, Nat.div_eq_of_lt hsum]
  case _ =>
    intro hshort
    rw [withChecksum_withChecksum hrewritten]
    have hzero := hcarries'.congr fun n hn =>
      hrewritten.getElem?_withChecksum 0 (n := n) (by omega)
    refine segmentSum_lt hzero ?_ ?_
    · rw [hrewritten.length_withChecksum, hlength]
      have := hover.tcp.inside
      omega
    · rwa [hrewritten.length_withChecksum, hlength]

theorem clampIfTcpSyn_of_not_oversized
    (h : ∀ version tcpStart headerLen mssAt mss, CarriesTcp packet version tcpStart →
      ¬Oversized packet mtu tcpStart headerLen mssAt mss) :
    clampIfTcpSyn packet mtu = .ok packet := by
  rcases clampIfTcpSyn_cases packet mtu with
    ⟨version, tcpStart, headerLen, mssAt, mss, -, hcarries, hover, -, -⟩ | ⟨-, hclamp⟩
  · exact absurd hover (h _ _ _ _ _ hcarries)
  · exact hclamp

theorem segmentFor_mono {mtu' : UInt16} (h : mtu ≤ mtu') (tcpStart headerLen : Nat) :
    segmentFor mtu tcpStart headerLen ≤ segmentFor mtu' tcpStart headerLen := by
  have := UInt16.le_iff_toNat_le.mp h
  rw [UInt16.le_iff_toNat_le, toNat_segmentFor, toNat_segmentFor]
  omega

theorem ClampedTo.again {out : Bytes} {mtu' : UInt16}
    (h : ClampedTo packet out version tcpStart headerLen mssAt (segmentFor mtu tcpStart headerLen))
    (hmtu : mtu ≤ mtu') : clampIfTcpSyn out mtu' = .ok out := by
  refine clampIfTcpSyn_of_not_oversized ?_
  intro version' tcpStart' headerLen' mssAt' mss hcarries hover
  obtain ⟨-, rfl⟩ := h.carries.unique hcarries
  obtain ⟨rfl, -, rfl⟩ := h.tcp.unique hover.tcp
  exact absurd hover.exceeds (UInt16.not_lt.mpr (segmentFor_mono hmtu _ _))

/-- For every byte string and MTU: the code stays within the buffer and ends; it changes
a packet only if it carries a TCP SYN with an oversized MSS, and then as `ClampedTo`
says; and clamping the result again, with the same or a larger MTU, changes nothing,
unless the first MTU left no room at all and so clamped nothing. -/
theorem clamp_exact (packet : Bytes) (mtu : UInt16) :
    ∃ out, clampIfTcpSyn packet mtu = .ok out ∧
      (out ≠ packet → ∃ version tcpStart headerLen mssAt mss,
        CarriesTcp packet version tcpStart ∧
          Oversized packet mtu tcpStart headerLen mssAt mss) ∧
      (∀ version tcpStart headerLen mssAt mss, CarriesTcp packet version tcpStart →
        Oversized packet mtu tcpStart headerLen mssAt mss →
          ClampedTo packet out version tcpStart headerLen mssAt
            (segmentFor mtu tcpStart headerLen)) ∧
      ∀ mtu', mtu ≤ mtu' →
        (mtu' = mtu ∨ ∀ version tcpStart headerLen mssAt mss, CarriesTcp packet version tcpStart →
          TcpSyn packet tcpStart headerLen mssAt mss → tcpStart + headerLen < mtu.toNat) →
        clampIfTcpSyn out mtu' = .ok out := by
  rcases clampIfTcpSyn_cases packet mtu with
    ⟨version, tcpStart, headerLen, mssAt, mss, -, hcarries, hover, -, -⟩ | ⟨hno, hclamp⟩
  · obtain ⟨out, hclamp, hclamped⟩ := hover.clampedTo hcarries
    refine ⟨out, hclamp, fun _ => ⟨version, tcpStart, headerLen, mssAt, mss, hcarries, hover⟩, ?_,
      fun mtu' hmtu _ => hclamped.again hmtu⟩
    intro version' tcpStart' headerLen' mssAt' mss' hcarries' hover'
    obtain ⟨rfl, rfl⟩ := hcarries.unique hcarries'
    obtain ⟨rfl, rfl, -⟩ := hover.tcp.unique hover'.tcp
    exact hclamped
  · refine ⟨packet, hclamp, fun h => absurd rfl h, ?_, fun mtu' hmtu hroom => ?_⟩
    · intro version tcpStart headerLen mssAt mss hcarries hover
      exact absurd hover (hno _ _ _ _ _ hcarries)
    · refine clampIfTcpSyn_of_not_oversized ?_
      intro version tcpStart headerLen mssAt mss hcarries hover
      have hfits : tcpStart + headerLen < mtu.toNat := by
        rcases hroom with rfl | hroom
        · exact hover.room
        · exact hroom _ _ _ _ _ hcarries hover.tcp
      have hexceeds : segmentFor mtu tcpStart headerLen < mss :=
        UInt16.lt_of_le_of_lt (segmentFor_mono hmtu _ _) hover.exceeds
      exact hno _ _ _ _ _ hcarries ⟨hover.tcp, hfits, hexceeds⟩

/-- An IPv4 SYN with 20 bytes of IP and 24 of TCP header, whose MSS is 1460. -/
def synPacket : Bytes :=
  [0x45, 0, 0, 44, 0, 0, 0, 0, 64, 6, 0, 0, 255, 255, 255, 255, 255, 255, 255, 255] ++
    [0x04, 0x00, 0, 80, 0, 0, 0, 0, 0, 0, 0, 0, 0x60, 0x02, 0xff, 0xff, 0, 0, 0, 0] ++
    [2, 4, 0x05, 0xb4]

/-- The same with a payload that makes the word sum pass `2 ^ 32`. -/
def hugePacket : Bytes := synPacket ++ List.replicate (2 * 65536) 0xff

theorem hugePacket_carries : CarriesTcp hugePacket .v4 20 :=
  @CarriesTcp.v4 hugePacket 0x45 rfl rfl (by decide) rfl

theorem hugePacket_oversized : Oversized hugePacket 1400 20 24 40 1460 where
  tcp :=
    { offset := ⟨0x60, rfl, rfl⟩
      full := by decide
      inside := by
        have hlength : synPacket.length = 44 := rfl
        rw [hugePacket, List.length_append]
        omega
      syn := ⟨0x02, rfl, by decide⟩
      first := ⟨0, rfl, .here 0x05 0xb4 []⟩ }
  room := by decide
  exceeds := by decide

theorem segmentSum_hugePacket :
    segmentSum (withChecksum (withMss hugePacket 40 1356) 20 0) .v4 20 = 4295257019 := by
  have hpacket : withChecksum (withMss hugePacket 40 1356) 20 0 =
      withChecksum (withMss synPacket 40 1356) 20 0 ++ List.replicate (2 * 65536) 0xff := by
    rw [withMss, hugePacket, overwrite_append_left _ (by decide), withChecksum,
      overwrite_append_left _ (by decide)]
    rfl
  have hlength : (withChecksum (withMss synPacket 40 1356) 20 0 ++
      List.replicate (2 * 65536) 0xff).length - 20 = 131096 := by
    rw [List.length_append, List.length_replicate]
    rfl
  have hpseudo : pseudoHeader (withChecksum (withMss synPacket 40 1356) 20 0 ++
      List.replicate (2 * 65536) 0xff) 131096 .v4 =
        pseudoHeader (withChecksum (withMss synPacket 40 1356) 20 0) 131096 .v4 := rfl
  rw [segmentSum, hpacket, hlength, hpseudo, List.drop_append_of_le_length (by decide),
    ← List.append_assoc, wordSum_append _ (by decide), wordSum_replicate]
  decide

/-- An MTU of 44 leaves no room for the SYN above: it stays as it is, and an MTU of 1400
still clamps it afterwards.  And the sum of the huge packet's words does not fit the
accumulator, so that the checksum written is wrong. -/
theorem clamp_not_exact :
    (clampIfTcpSyn synPacket 44 = .ok synPacket ∧ clampIfTcpSyn synPacket 1400 ≠ .ok synPacket) ∧
      CarriesTcp hugePacket .v4 20 ∧ Oversized hugePacket 1400 20 24 40 1460 ∧
      ∃ out, clampIfTcpSyn hugePacket 1400 = .ok out ∧ fold (segmentSum out .v4 20) ≠ 0xffff := by
  refine ⟨⟨by decide, by decide⟩, hugePacket_carries, hugePacket_oversized, ?_⟩
  obtain ⟨checksum, hvalue, hclamp⟩ := hugePacket_oversized.clamp hugePacket_carries
  have hsegment : segmentFor 1400 20 24 = 1356 := by decide
  rw [hsegment] at hvalue hclamp
  have hsyn := hugePacket_oversized.tcp.withMss 1356
  have hcarries : CarriesTcp (withMss hugePacket 40 1356) .v4 20 :=
    hugePacket_carries.congr fun n hn =>
      hugePacket_oversized.tcp.getElem?_withMss 1356 (by omega)
  refine ⟨_, hclamp, fun hfold => ?_⟩
  have hwraps := (fold_segmentSum_iff hcarries hsyn hvalue).mp hfold
  rw [segmentSum_hugePacket] at hwraps
  exact absurd hwraps (by decide)

/-! ## Fragments

`clamp_ipv4` never looks at bytes 6 and 7 of the IPv4 header, where the flags and the
fragment offset are, so what lies behind the header of a fragment is read as a TCP header
like that of any other packet. -/

/-- The 13 bits of the fragment offset. -/
def fragmentOffset (hi lo : UInt8) : Nat := (hi &&& 0x1f).toNat * 256 + lo.toNat

/-- An IPv4 packet that is a part of a datagram: more fragments follow it, or some were
before it. -/
structure IsFragment (packet : Bytes) : Prop where
  version : ∃ first : UInt8, packet[0]? = some first ∧ first >>> 4 = 4
  part : ∃ hi lo : UInt8, packet[6]? = some hi ∧ packet[7]? = some lo ∧
    (fragmentOffset hi lo ≠ 0 ∨ hi &&& 0x20 ≠ 0)

theorem Oversized.clamp_ne (hcarries : CarriesTcp packet version tcpStart)
    (hover : Oversized packet mtu tcpStart headerLen mssAt mss) :
    clampIfTcpSyn packet mtu ≠ .ok packet := by
  intro hsame
  obtain ⟨out, hclamp, hclamped⟩ := hover.clampedTo hcarries
  rw [hsame] at hclamp
  cases hclamp
  -- the MSS that was written is not the one that was read
  obtain ⟨-, -, hmss⟩ := hover.tcp.unique hclamped.tcp
  have hexceeds := hover.exceeds
  rw [hmss] at hexceeds
  exact UInt16.lt_irrefl _ hexceeds

/-- A fragment is left alone exactly when the bytes behind its IP header do not happen to
read as a TCP SYN whose MSS is too large for the MTU. -/
theorem clamp_fragment_iff (packet : Bytes) (mtu : UInt16) (hfragment : IsFragment packet) :
    clampIfTcpSyn packet mtu = .ok packet ↔
      ∀ tcpStart headerLen mssAt mss, CarriesTcp packet .v4 tcpStart →
        ¬Oversized packet mtu tcpStart headerLen mssAt mss := by
  constructor
  · intro hsame tcpStart headerLen mssAt mss hcarries hover
    exact hover.clamp_ne hcarries hsame
  · intro hno
    refine clampIfTcpSyn_of_not_oversized ?_
    intro version tcpStart headerLen mssAt mss hcarries
    cases hcarries with
    | v4 hfirst hversion hihl hproto =>
        exact hno _ headerLen mssAt mss (.v4 hfirst hversion hihl hproto)
    | v6 hfirst hversion =>
        obtain ⟨first, hfirst', h4⟩ := hfragment.version
        rw [hfirst] at hfirst'
        cases hfirst'
        rw [hversion] at h4
        exact absurd h4 (by decide)

/-- The last fragment of a datagram, 8 bytes into it, whose data look like `synPacket`. -/
def lastFragment : Bytes := overwrite synPacket 6 [0x00, 0x01]

theorem lastFragment_isFragment : IsFragment lastFragment where
  version := ⟨0x45, rfl, rfl⟩
  part := ⟨0x00, 0x01, rfl, rfl, .inl (by decide)⟩

theorem clamp_fragment_no_room :
    IsFragment lastFragment ∧ clampIfTcpSyn lastFragment 40 = .ok lastFragment := by
  refine ⟨lastFragment_isFragment, (clamp_fragment_iff _ _ lastFragment_isFragment).mpr ?_⟩
  intro tcpStart headerLen mssAt mss hcarries hover
  have hroom : tcpStart + headerLen < 40 := hover.room
  have hstart := hcarries.le_start
  have hfull := hover.tcp.full
  omega

/-- That fragment is rewritten, and so is a first fragment. -/
theorem clamp_fragment_rewritten :
    IsFragment lastFragment ∧ clampIfTcpSyn lastFragment 1400 ≠ .ok lastFragment ∧
      IsFragment (overwrite synPacket 6 [0x20, 0x00]) ∧
      clampIfTcpSyn (overwrite synPacket 6 [0x20, 0x00]) 1400 ≠
        .ok (overwrite synPacket 6 [0x20, 0x00]) := by
  refine ⟨lastFragment_isFragment, by decide, ⟨⟨0x45, rfl, rfl⟩, ?_⟩, by decide⟩
  exact ⟨0x20, 0x00, rfl, rfl, .inr (by decide)⟩

end Mlvpn.Ports.Mss
