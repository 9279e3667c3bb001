import Mlvpn.Ports.ConfigFile
import Mlvpn.Verified.Utf8

/-!
# Version info and the advertised primary

Port of `protocol::VersionInfoPayload`, of the part of `tunnel::send_version_info`
that fills one in, and of `resolve_peer_primary_index`.  Names and versions travel
in fields of 16 bytes: cut at a character boundary and padded with NULs, read back
up to the first NUL.  The receiver compares what it reads with its own links' full
names.

What `String::from_utf8_lossy` puts in place of invalid bytes is a parameter,
`replaced`; no encoder in this module produces such bytes.

## Main results

* `decode_encode`: a payload survives the wire.
* `primaryLinkNameStr_eq_some_iff`: what the receiver reads of an advertised name.
* `resolve_advertised_iff`: it finds its own link of that name exactly when the
  name fits the field.
-/

namespace Mlvpn.Ports.VersionInfo

open Verified ConfigFile Protocol BigEndian Utf8

def VERSION_LEN : Nat := 16
def LINK_NAME_LEN : Nat := 16

@[ext]
structure VersionInfoPayload where
  version : Bytes
  tunnelMtu : UInt16
  liveTunnelMtu : UInt16
  primaryLinkName : Bytes
  version_length : version.length = VERSION_LEN
  name_length : primaryLinkName.length = LINK_NAME_LEN
deriving Repr, DecidableEq

/-! ## Text in fixed-size fields -/

/-- `while end > 0 && !s.is_char_boundary(end) { end -= 1 }`. -/
def boundaryAtMost (s : String) : Nat → Nat
  | 0 => 0
  | stop + 1 => if isCharBoundary s (stop + 1) then stop + 1 else boundaryAtMost s stop

/-- Copied to the front of a zeroed array. -/
def padTo (len : Nat) (bs : Bytes) : Bytes := bs ++ List.replicate (len - bs.length) 0

/-- The bytes of `s` that a field of `len` bytes holds. -/
def fitted (len : Nat) (s : String) : Bytes :=
  (bytes s).take (boundaryAtMost s (min (bytes s).length len))

def encodeText (len : Nat) (s : String) : Bytes := padTo len (fitted len s)

def encodeVersion (version : String) : Bytes := encodeText VERSION_LEN version

/-- An empty name is the sentinel for no primary. -/
def encodeLinkName (name : String) : Bytes := encodeText LINK_NAME_LEN name

/-- `String::from_utf8_lossy`: a valid string comes back as it is. -/
def fromUtf8Lossy (replaced : Bytes → String) (bs : Bytes) : String :=
  (ofBytes? bs).getD (replaced bs)

namespace VersionInfoPayload

variable (replaced : Bytes → String)

def versionStr (p : VersionInfoPayload) : String := fromUtf8Lossy replaced (untilNul p.version)

def primaryLinkNameStr (p : VersionInfoPayload) : Option String :=
  let name := untilNul p.primaryLinkName
  if name = [] then none else some (fromUtf8Lossy replaced name)

/-! ## The wire -/

def encode (p : VersionInfoPayload) : Bytes :=
  p.version ++ (bigEndian 2 p.tunnelMtu.toNat ++
    (p.primaryLinkName ++ bigEndian 2 p.liveTunnelMtu.toNat))

theorem length_padTo {len : Nat} {bs : Bytes} (h : bs.length ≤ len) :
    (padTo len bs).length = len := by
  rw [padTo, List.length_append, List.length_replicate]
  omega

theorem length_slice_le (buf : Bytes) (start stop : Nat) :
    (slice buf start stop).length ≤ stop - start := by
  rw [slice, List.length_take]
  exact Nat.min_le_left _ _

/-- A `u16` at `start`, zero when the buffer ends before it. -/
def readU16 (buf : Bytes) (start : Nat) : UInt16 :=
  if start + 2 ≤ buf.length then UInt16.ofNat (readBigEndian (slice buf start (start + 2))) else 0

/-- Only the version is required: an older peer's buffer ends sooner, and what is
missing reads as zeros. -/
def decode (buf : Bytes) : Except MlvpnError VersionInfoPayload :=
  if buf.length < VERSION_LEN then .error (.protocol "version info payload too short")
  else
    let nameStart := VERSION_LEN + 2
    let nameEnd := nameStart + LINK_NAME_LEN
    .ok
      { version := padTo VERSION_LEN (slice buf 0 VERSION_LEN)
        tunnelMtu := readU16 buf VERSION_LEN
        liveTunnelMtu := readU16 buf nameEnd
        primaryLinkName := padTo LINK_NAME_LEN (slice buf nameStart nameEnd)
        version_length := length_padTo (length_slice_le buf 0 VERSION_LEN)
        name_length := length_padTo (length_slice_le buf nameStart nameEnd) }

theorem padTo_of_length {len : Nat} {bs : Bytes} (h : bs.length = len) : padTo len bs = bs := by
  rw [padTo, h, Nat.sub_self, List.replicate_zero, List.append_nil]

theorem slice_append_left {xs ys : Bytes} {n : Nat} (h : xs.length = n) :
    slice (xs ++ ys) 0 n = xs := by
  rw [slice, List.drop_zero, Nat.sub_zero, ← h, List.take_left]

theorem decode_encode (p : VersionInfoPayload) : decode p.encode = .ok p := by
  have hversion : p.version.length = 16 := p.version_length
  have hname : p.primaryLinkName.length = 16 := p.name_length
  have hlength : p.encode.length = 36 := by
    simp only [encode, List.length_append, bigEndian_length, hversion, hname]
  have hread : ∀ (len : UInt16) (rest : Bytes),
      UInt16.ofNat (readBigEndian (slice (bigEndian 2 len.toNat ++ rest) 0 2)) = len := by
    intro len rest
    rw [slice_append_left (bigEndian_length 2 _)]
    exact ofNat_read_lenBytes len
  unfold decode
  rw [if_neg (by rw [hlength]; decide)]
  refine congrArg Except.ok (VersionInfoPayload.ext ?_ ?_ ?_ ?_)
  · show padTo 16 (slice p.encode 0 16) = p.version
    rw [encode, slice_append_left hversion, padTo_of_length hversion]
  · show readU16 p.encode 16 = p.tunnelMtu
    rw [readU16, if_pos (by rw [hlength]; decide), encode,
      slice_append_right hversion (Nat.le_refl 16)]
    exact hread p.tunnelMtu _
  · show readU16 p.encode 34 = p.liveTunnelMtu
    rw [readU16, if_pos (by rw [hlength]), encode, slice_append_right hversion (by decide),
      slice_append_right (bigEndian_length 2 _) (by decide), slice_append_right hname (by decide)]
    have hlast := hread p.liveTunnelMtu []
    rwa [List.append_nil] at hlast
  · show padTo 16 (slice p.encode 18 34) = p.primaryLinkName
    rw [encode, slice_append_right hversion (by decide),
      slice_append_right (bigEndian_length 2 _) (by decide)]
    show padTo 16 (slice (p.primaryLinkName ++ _) 0 16) = p.primaryLinkName
    rw [slice_append_left hname, padTo_of_length hname]

end VersionInfoPayload

/-! ## What the field keeps of a name -/

theorem boundaryAtMost_le (s : String) (stop : Nat) : boundaryAtMost s stop ≤ stop := by
  induction stop with
  | zero => exact Nat.le_refl 0
  | succ stop ih =>
    rw [boundaryAtMost]
    split
    · exact Nat.le_refl _
    · exact Nat.le_succ_of_le ih

theorem isCharBoundary_boundaryAtMost (s : String) (stop : Nat) :
    isCharBoundary s (boundaryAtMost s stop) = true := by
  induction stop with
  | zero => exact isCharBoundary_zero s
  | succ stop ih =>
    rw [boundaryAtMost]
    split
    case isTrue h => exact h
    case isFalse => exact ih

/-- It is the last one up to there. -/
theorem le_boundaryAtMost {s : String} {stop i : Nat} (hi : i ≤ stop)
    (hboundary : isCharBoundary s i = true) : i ≤ boundaryAtMost s stop := by
  induction stop with
  | zero => exact hi
  | succ stop ih =>
    rw [boundaryAtMost]
    split
    · exact hi
    · next hno =>
        have hne : i ≠ stop + 1 := fun heq => hno (heq ▸ hboundary)
        exact ih (by omega)

theorem boundaryAtMost_of_boundary {s : String} {stop : Nat} (h : isCharBoundary s stop = true) :
    boundaryAtMost s stop = stop := by
  cases stop with
  | zero => rfl
  | succ stop => rw [boundaryAtMost, if_pos h]

theorem length_fitted_le (len : Nat) (s : String) : (fitted len s).length ≤ len := by
  have := boundaryAtMost_le s (min (bytes s).length len)
  rw [fitted, List.length_take]
  omega

/-- A text that is short enough is kept whole, and no other. -/
theorem fitted_eq_iff {len : Nat} {s : String} :
    fitted len s = bytes s ↔ (bytes s).length ≤ len := by
  constructor
  · intro h
    rw [← h]
    exact length_fitted_le len s
  · intro h
    rw [fitted, Nat.min_eq_left h, boundaryAtMost_of_boundary (isCharBoundary_length s),
      List.take_length]

/-- What a reader of the field sees is a string, a prefix of the one encoded. -/
theorem exists_read (len : Nat) (s : String) :
    ∃ t, ofBytes? (untilNul (encodeText len s)) = some t ∧
      bytes t = untilNul (fitted len s) := by
  obtain ⟨t, -, ht⟩ := ofBytes?_take (isCharBoundary_boundaryAtMost s (min (bytes s).length len))
  have hpad : untilNul (encodeText len s) = untilNul (fitted len s) :=
    untilNul_append_padding _ _
  rw [hpad, show fitted len s = bytes t from ht.symm]
  exact ofBytes?_untilNul t

/-- It is the string itself exactly when that fits, NUL-free. -/
theorem untilNul_fitted_eq_iff {len : Nat} {s : String} :
    untilNul (fitted len s) = bytes s ↔ (bytes s).length ≤ len ∧ 0 ∉ bytes s := by
  constructor
  · intro h
    have hprefix : untilNul (fitted len s) <+: fitted len s := List.take_prefix _ _
    have hle : (bytes s).length ≤ (fitted len s).length := h ▸ hprefix.length_le
    have hfitted : fitted len s = bytes s :=
      fitted_eq_iff.mpr (le_trans hle (length_fitted_le len s))
    exact ⟨fitted_eq_iff.mp hfitted, untilNul_eq_self_iff.mp (by rwa [hfitted] at h)⟩
  · rintro ⟨hlen, hnul⟩
    rw [fitted_eq_iff.mpr hlen, untilNul_eq_self_iff.mpr hnul]

/-! ## Advertising and resolving -/

/-- The payload `send_version_info` sends: `primary` is the scheduler's, an index
into the names of the local links. -/
def versionInfo (version : String) (localCapabilityMtu liveMtu : UInt16) (primary : Option Nat)
    (names : List String) : VersionInfoPayload where
  version := encodeVersion version
  tunnelMtu := localCapabilityMtu
  liveTunnelMtu := liveMtu
  primaryLinkName := encodeLinkName ((primary.bind fun idx => names[idx]?).getD "")
  version_length := VersionInfoPayload.length_padTo (length_fitted_le _ _)
  name_length := VersionInfoPayload.length_padTo (length_fitted_le _ _)

/-- The local link whose name the peer advertised. -/
def resolvePeerPrimaryIndex (names : List String) (peerPrimaryLink : Option String) :
    Option Nat :=
  peerPrimaryLink.bind fun name => names.findIdx? (· = name)

/-- What the receiver makes of an advertised name. -/
theorem primaryLinkNameStr_eq_some_iff (replaced : Bytes → String) {p : VersionInfoPayload}
    {name : String} (hp : p.primaryLinkName = encodeLinkName name) :
    p.primaryLinkNameStr replaced = some name ↔
      bytes name ≠ [] ∧ (bytes name).length ≤ LINK_NAME_LEN ∧ 0 ∉ bytes name := by
  obtain ⟨t, hread, hbytes⟩ := exists_read LINK_NAME_LEN name
  have hfield : untilNul p.primaryLinkName = bytes t := by
    rw [hp, hbytes]
    exact untilNul_append_padding _ _
  have hlossy : fromUtf8Lossy replaced (untilNul p.primaryLinkName) = t := by
    rw [fromUtf8Lossy, hp]
    show (ofBytes? (untilNul (encodeText LINK_NAME_LEN name))).getD _ = t
    rw [hread, Option.getD_some]
  unfold VersionInfoPayload.primaryLinkNameStr
  dsimp only
  rw [hlossy, hfield, ← untilNul_fitted_eq_iff, ← hbytes]
  constructor
  · intro h
    split at h
    · exact nomatch h
    case isFalse hne =>
      cases h
      exact ⟨hne, rfl⟩
  · rintro ⟨hne, heq⟩
    rw [if_neg (by rwa [heq]), bytes_injective heq]

/-- Names are unique on a host whose configuration was accepted, so the resolver
finds the one link of a name. -/
theorem resolve_eq_some_iff {names : List String} (hnodup : names.Nodup) {j : Nat} {name : String}
    (hj : names[j]? = some name) (peerPrimaryLink : Option String) :
    resolvePeerPrimaryIndex names peerPrimaryLink = some j ↔ peerPrimaryLink = some name := by
  obtain ⟨hlt, hname⟩ := List.getElem?_eq_some_iff.mp hj
  cases peerPrimaryLink with
  | none => exact ⟨fun h => (nomatch h), fun h => (nomatch h)⟩
  | some other =>
    rw [resolvePeerPrimaryIndex, Option.bind_some, List.findIdx?_eq_some_iff_getElem,
      Option.some.injEq]
    constructor
    · rintro ⟨_, hfound, _⟩
      rw [← hname]
      exact (of_decide_eq_true hfound).symm
    · rintro rfl
      refine ⟨hlt, decide_eq_true hname, fun k hk => ?_⟩
      have hne : names[k] ≠ other := by
        rw [← hname]
        exact fun heq => absurd (hnodup.getElem_inj_iff.mp heq) (Nat.ne_of_lt hk)
      simpa using hne

/-- The link that host A advertises is resolved on host B to B's own link of that
name exactly when the name has 1 to 16 bytes, none of them NUL. -/
theorem resolve_advertised_iff {F : Type*} [Floating F] (replaced : Bytes → String)
    {metadata : String → Except IoError UInt32} {cfgB : Config F}
    (hB : validate metadata cfgB = .ok ()) {namesA : List String} {i j : Nat} {name : String}
    (hi : namesA[i]? = some name) (hj : (cfgB.links.map (·.name))[j]? = some name)
    (version : String) (localCapabilityMtu liveMtu : UInt16) :
    (∃ p, VersionInfoPayload.decode
          (versionInfo version localCapabilityMtu liveMtu (some i) namesA).encode = .ok p ∧
        resolvePeerPrimaryIndex (cfgB.links.map (·.name)) (p.primaryLinkNameStr replaced) =
          some j) ↔
      bytes name ≠ [] ∧ (bytes name).length ≤ LINK_NAME_LEN ∧ 0 ∉ bytes name := by
  have hfield : (versionInfo version localCapabilityMtu liveMtu (some i) namesA).primaryLinkName =
      encodeLinkName name := by
    simp [versionInfo, hi]
  have hresolve := resolve_eq_some_iff (validate_eq_ok_iff.mp hB).names hj
  rw [← primaryLinkNameStr_eq_some_iff replaced hfield]
  constructor
  · rintro ⟨p, hdecode, hfound⟩
    rw [VersionInfoPayload.decode_encode] at hdecode
    cases hdecode
    exact (hresolve _).mp hfound
  · intro hread
    exact ⟨_, VersionInfoPayload.decode_encode _, (hresolve _).mpr hread⟩

/-- A server whose links have these names. -/
def serverNamed (names : List String) : Config ℚ :=
  { serverWith { mtu := none, address6 := none } with
    links := names.map fun name =>
      { name := name, localAddr := none, dualStack := false, remoteAddr := none, weight := 1
        bandwidthCapMbps := none, probeIntervalMs := 500, privateKeyFile := name ++ ".key" } }

theorem resolve_advertised_wan :
    validate ownerOnly (serverNamed ["lte", "wan"]) = .ok () ∧
      ∃ p, VersionInfoPayload.decode
          (versionInfo "1.0" 1400 1400 (some 0) ["wan", "dsl"]).encode = .ok p ∧
        resolvePeerPrimaryIndex ((serverNamed ["lte", "wan"]).links.map (·.name))
          (p.primaryLinkNameStr fun _ => "") = some 1 := by
  have haccepted : validate ownerOnly (serverNamed ["lte", "wan"]) = .ok () := by decide +kernel
  have hfits : Utf8.bytes "wan" ≠ [] ∧ (Utf8.bytes "wan").length ≤ LINK_NAME_LEN ∧
      0 ∉ Utf8.bytes "wan" := by
    decide +kernel
  exact ⟨haccepted, (resolve_advertised_iff _ haccepted rfl rfl "1.0" 1400 1400).mpr hfits⟩

/-- A name of 22 bytes, configured on both hosts.  The field keeps 16 of them: B
does not find its link of that name, and if it has one named like the cut, takes
that one instead. -/
theorem advertised_long_name_lost :
    ∃ (cfgA cfgB cfgB' : Config ℚ) (name : String),
      validate ownerOnly cfgA = .ok () ∧ validate ownerOnly cfgB = .ok () ∧
      validate ownerOnly cfgB' = .ok () ∧
      cfgA.links.map (·.name) = [name] ∧ cfgB.links.map (·.name) = ["lte", name] ∧
      (cfgB'.links.map (·.name))[1]? = some name ∧
      ∃ p, VersionInfoPayload.decode
          (versionInfo "1.0" 1400 1400 (some 0) (cfgA.links.map (·.name))).encode = .ok p ∧
        resolvePeerPrimaryIndex (cfgB.links.map (·.name)) (p.primaryLinkNameStr fun _ => "") =
          none ∧
        resolvePeerPrimaryIndex (cfgB'.links.map (·.name)) (p.primaryLinkNameStr fun _ => "") =
          some 0 := by
  refine ⟨serverNamed ["starlink-business-roof"], serverNamed ["lte", "starlink-business-roof"],
    serverNamed ["starlink-busines", "starlink-business-roof"], "starlink-business-roof",
    by decide +kernel, by decide +kernel, by decide +kernel, rfl, rfl, rfl,
    _, VersionInfoPayload.decode_encode _, ?_, ?_⟩
  · decide +kernel
  · decide +kernel

end Mlvpn.Ports.VersionInfo
