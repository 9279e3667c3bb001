import Mlvpn.Ports.ParitySend

/-!
# Fitting the path, and the operator's ceiling

What `effective_tunnel_mtu` promises about the physical path and about
`tunnel.mtu`.  A frame pays 112 bytes on its way: the frame header, the fake IPv4
header, WireGuard, and an outer IPv6 and UDP header.  FEC's reservation is taken
out of the MTU last, so that the shares of a group fit where its members do; the
floor of the address family comes after everything else and wins over both.

## Main results

* `effectiveTunnelMtu_budget`: MTU, reservation and overhead stay within the
  detected path, as soon as the floor leaves room for that.
* `frames_fit_path`: so do the frames themselves, data and parity.
* `mtu_ceiling_respected`: the configured ceiling holds, except where it lies
  below the IPv6 minimum of a dual-stack tunnel.
-/

namespace Mlvpn.Ports.PathFit

open ConfigFile FecSend ParitySend Protocol
open TunnelMtu (FAKE_IPV4_HEADER_LEN HEADER_LEN WG_OVERHEAD_BYTES detectedValue
  effectiveTunnelMtu mtuFloorFor negotiateTunnelMtu outerOverhead preFec saturatingSub toNat_max
  toNat_min mtuFloorFor_le_effectiveTunnelMtu floor_le_negotiateTunnelMtu)
open Verified

/-! ## Saturating arithmetic as natural numbers -/

theorem toNat_saturatingSub16 (a b : UInt16) : (saturatingSub a b).toNat = a.toNat - b.toNat := by
  unfold saturatingSub
  split
  · exact UInt16.toNat_sub_of_le _ _ ‹_›
  · have : ¬b.toNat ≤ a.toNat := fun h => ‹¬b ≤ a› (UInt16.le_iff_toNat_le.mpr h)
    show 0 = a.toNat - b.toNat
    omega

theorem toNat_saturatingSub32 (a b : UInt32) : (saturatingSub a b).toNat = a.toNat - b.toNat := by
  unfold saturatingSub
  split
  · exact UInt32.toNat_sub_of_le _ _ ‹_›
  · have : ¬b.toNat ≤ a.toNat := fun h => ‹¬b ≤ a› (UInt32.le_iff_toNat_le.mpr h)
    show 0 = a.toNat - b.toNat
    omega

/-- `x.min(u16::MAX as u32) as u16`. -/
theorem toNat_clampToU16 (x : UInt32) : (min x 65535).toUInt16.toNat = min x.toNat 65535 := by
  have h65535 : (65535 : UInt32).toNat = 65535 := rfl
  by_cases h : x ≤ 65535
  · have hle : x.toNat ≤ 65535 := UInt32.le_iff_toNat_le.mp h
    rw [show min x 65535 = x from if_pos h, UInt32.toNat_toUInt16, Nat.min_eq_left hle]
    omega
  · have hlt : ¬x.toNat ≤ 65535 := fun hle => h (UInt32.le_iff_toNat_le.mpr hle)
    rw [show min x 65535 = 65535 from if_neg h, Nat.min_eq_right (by omega)]
    rfl

section Bounds

variable (cfg : TunnelMtu.TunnelConfig) (detectedMtus : List (Option UInt32))
  (fecReservation : UInt16) (primaryIdx : Option Nat)

/-- Before the reservation, only the floor can push the MTU past the path. -/
theorem preFec_le_path (d : UInt32) :
    (preFec cfg d).toNat ≤ max (d.toNat - 112) (mtuFloorFor cfg).toNat := by
  have hsafe : (min (saturatingSub d outerOverhead) 65535).toUInt16.toNat =
      min (d.toNat - 112) 65535 := by
    rw [toNat_clampToU16, toNat_saturatingSub32]
    rfl
  dsimp only [preFec]
  split
  case h_1 ceiling _ =>
    split
    case isTrue hle =>
      have := UInt16.le_iff_toNat_le.mp hle
      omega
    case isFalse =>
      rw [toNat_max, hsafe]
      omega
  case h_2 =>
    rw [toNat_max, hsafe]
    omega

/-- A ceiling bounds the MTU before the reservation, again up to the floor. -/
theorem preFec_le_ceiling {c : UInt16} (hc : cfg.mtu = some c) (d : UInt32) :
    (preFec cfg d).toNat ≤ max c.toNat (mtuFloorFor cfg).toNat := by
  dsimp only [preFec]
  rw [hc]
  dsimp only
  split
  case isTrue => exact Nat.le_max_left _ _
  case isFalse hlt =>
    have : ¬c.toNat ≤ _ := fun hle => hlt (UInt16.le_iff_toNat_le.mpr hle)
    rw [toNat_max]
    omega

theorem toNat_effectiveTunnelMtu {d : UInt32}
    (hd : detectedValue detectedMtus primaryIdx = some d) :
    (effectiveTunnelMtu cfg detectedMtus fecReservation primaryIdx).toNat =
      max ((preFec cfg d).toNat - fecReservation.toNat) (mtuFloorFor cfg).toNat := by
  unfold effectiveTunnelMtu
  rw [hd]
  dsimp only
  rw [toNat_max, toNat_saturatingSub16]

/-- The MTU, the reservation and the overhead of a frame fit the detected path
together, provided the floor does. -/
theorem effectiveTunnelMtu_budget {d : UInt32} (hd : detectedValue detectedMtus primaryIdx = some d)
    (hroom : (mtuFloorFor cfg).toNat + fecReservation.toNat + 112 ≤ d.toNat) :
    (effectiveTunnelMtu cfg detectedMtus fecReservation primaryIdx).toNat +
      fecReservation.toNat + 112 ≤ d.toNat := by
  have hpre := preFec_le_path cfg d
  rw [toNat_effectiveTunnelMtu cfg detectedMtus fecReservation primaryIdx hd]
  omega

theorem effectiveTunnelMtu_le_ceiling {c : UInt16} (hc : cfg.mtu = some c) :
    (effectiveTunnelMtu cfg detectedMtus fecReservation primaryIdx).toNat ≤
      max c.toNat (mtuFloorFor cfg).toNat := by
  cases hd : detectedValue detectedMtus primaryIdx with
  | some d =>
    have hpre := preFec_le_ceiling cfg hc d
    rw [toNat_effectiveTunnelMtu cfg detectedMtus fecReservation primaryIdx hd]
    omega
  | none =>
    unfold effectiveTunnelMtu
    rw [hd, hc]
    dsimp only [Option.getD_some]
    rw [toNat_max, toNat_saturatingSub16]
    omega

theorem negotiateTunnelMtu_le (localMtu : UInt16) (peer : Option UInt16) (floor : UInt16) :
    (negotiateTunnelMtu localMtu peer floor).toNat ≤ max localMtu.toNat floor.toNat := by
  unfold negotiateTunnelMtu
  rw [toNat_max]
  cases peer with
  | none => exact le_refl _
  | some p =>
    dsimp only
    split
    · rw [toNat_min]
      omega
    · exact le_refl _

end Bounds

/-! ## The path -/

/-- What a frame with this payload takes on the path: the frame header, the fake
IPv4 header, WireGuard, and the outer headers. -/
def onPathLen (payload : Bytes) : Nat :=
  payload.length + HEADER_LEN.toNat + FAKE_IPV4_HEADER_LEN.toNat + WG_OVERHEAD_BYTES.toNat + 48

theorem onPathLen_eq (payload : Bytes) : onPathLen payload = payload.length + 112 := rfl

/-- Whatever the configuration, the links' MTUs and the sender's groups: with room
for the floor, every data frame and every parity frame fits the detected path. -/
theorem frames_fit_path {F : Type*} (cfg : Config F) (detectedMtus : List (Option UInt32))
    (primaryIdx : Option Nat) {d : UInt32}
    (hd : detectedValue detectedMtus primaryIdx = some d) :
    let tunnel := cfg.tunnel.toTunnelConfig
    let reservation := mtuReservationBytes cfg.scheduler
    let m := effectiveTunnelMtu tunnel detectedMtus reservation primaryIdx
    mtuFloorFor tunnel ≤ m ∧
      ((mtuFloorFor tunnel).toNat + reservation.toNat + 112 ≤ d.toNat →
        m.toNat + reservation.toNat + 112 ≤ d.toNat ∧
        ∀ live : UInt16, live ≤ m →
          (∀ plaintext : Bytes, plaintext.length ≤ live.toNat →
            onPathLen plaintext ≤ d.toNat) ∧
          ∀ (groupSize parityCount : UInt8) (frames : List Frame),
            ∀ g ∈ sendAll (FecSender.new groupSize parityCount) frames,
              ∀ (placement : FecParityPlacement) (usable : List Bool) (total : UInt64)
                (stats : FecSendStats),
                ∀ frame ∈ (sendFecParity g placement (parityHeadroom cfg.scheduler) live usable
                    total stats).queued,
                  onPathLen frame.plaintext ≤ d.toNat) := by
  intro tunnel reservation m
  refine ⟨mtuFloorFor_le_effectiveTunnelMtu _ _ _ _, fun hroom => ?_⟩
  have hbudget : m.toNat + reservation.toNat + 112 ≤ d.toNat :=
    effectiveTunnelMtu_budget tunnel detectedMtus reservation primaryIdx hd hroom
  refine ⟨hbudget, fun live hlive => ?_⟩
  have hlive : live.toNat ≤ m.toNat := UInt16.le_iff_toNat_le.mp hlive
  constructor
  · intro plaintext hlen
    rw [onPathLen_eq]
    omega
  · intro groupSize parityCount frames g hg placement usable total stats frame hframe
    obtain ⟨groups, -, hall⟩ := sendAll_completes (holds_new groupSize parityCount) frames
    obtain ⟨ms, -, hcompletes⟩ := (completes_partners hall).2 g hg
    have hlen := sendFecParity_queued_length hcompletes placement (parityHeadroom cfg.scheduler)
      live usable total stats hframe
    have hheadroom : parityHeadroom cfg.scheduler = reservation.toNat :=
      parityHeadroom_eq cfg.scheduler
    rw [onPathLen_eq]
    omega

theorem frames_fit_ethernet :
    detectedValue [some 9000, none, some 1500] none = some 1500 ∧
      (effectiveTunnelMtu { mtu := none, address6 := some "fd00::1/64" }
        [some 9000, none, some 1500] 83 none).toNat + 83 + 112 ≤ 1500 :=
  ⟨by decide,
    ((frames_fit_path (serverWith { mtu := none, address6 := some "fd00::1/64" })
      [some 9000, none, some 1500] none (d := 1500) (by decide)).2 (by decide)).1⟩

/-! ## The ceiling -/

/-- The ceiling of an accepted configuration holds for the local and for the
negotiated value, unless it lies below what IPv6 needs on a dual-stack tunnel:
then both are that minimum. -/
theorem mtu_ceiling_respected {F : Type*} [Floating F]
    {metadata : String → Except IoError UInt32} {cfg : Config F}
    (hcfg : validate metadata cfg = .ok ()) {c : UInt16} (hc : cfg.tunnel.mtu = some c)
    (detectedMtus : List (Option UInt32)) (fecReservation : UInt16) (primaryIdx : Option Nat)
    (peerAdvertised : Option UInt16) :
    let tunnel := cfg.tunnel.toTunnelConfig
    let localMtu := effectiveTunnelMtu tunnel detectedMtus fecReservation primaryIdx
    let applied := negotiateTunnelMtu localMtu peerAdvertised (mtuFloorFor tunnel)
    if tunnel.address6.isSome ∧ c < 1280 then localMtu = 1280 ∧ applied = 1280
    else localMtu ≤ c ∧ applied ≤ c := by
  intro tunnel localMtu applied
  have hlocal : localMtu.toNat ≤ max c.toNat (mtuFloorFor tunnel).toNat :=
    effectiveTunnelMtu_le_ceiling tunnel detectedMtus fecReservation primaryIdx hc
  have happlied : applied.toNat ≤ max localMtu.toNat (mtuFloorFor tunnel).toNat :=
    negotiateTunnelMtu_le localMtu peerAdvertised (mtuFloorFor tunnel)
  have hlocalFloor : (mtuFloorFor tunnel).toNat ≤ localMtu.toNat :=
    UInt16.le_iff_toNat_le.mp (mtuFloorFor_le_effectiveTunnelMtu _ _ _ _)
  have happliedFloor : (mtuFloorFor tunnel).toNat ≤ applied.toNat :=
    UInt16.le_iff_toNat_le.mp (floor_le_negotiateTunnelMtu _ _ _)
  have hvalid : 576 ≤ c.toNat :=
    UInt16.le_iff_toNat_le.mp ((validate_eq_ok_iff.mp hcfg).tunnel.mtu c hc)
  have h1280 : (1280 : UInt16).toNat = 1280 := rfl
  rcases hv6 : tunnel.address6.isSome with _ | _
  · have hfloor : (mtuFloorFor tunnel).toNat = 576 := by simp only [mtuFloorFor, hv6]; rfl
    rw [if_neg (by simp)]
    simp only [UInt16.le_iff_toNat_le]
    omega
  · have hfloor : (mtuFloorFor tunnel).toNat = 1280 := by simp only [mtuFloorFor, hv6]; rfl
    simp only [true_and, UInt16.lt_iff_toNat_lt, UInt16.le_iff_toNat_le, ← UInt16.toNat_inj]
    split
    · omega
    · omega

theorem mtu_ceiling_respected_jumbo :
    validate ownerOnly (serverWith { mtu := some 1400, address6 := some "fd00::1/64" }) = .ok () ∧
      effectiveTunnelMtu { mtu := some 1400, address6 := some "fd00::1/64" } [some 9000] 83 none ≤
        1400 := by
  have hvalid : validate ownerOnly
      (serverWith { mtu := some 1400, address6 := some "fd00::1/64" }) = .ok () := by
    decide +kernel
  exact ⟨hvalid, (mtu_ceiling_respected hvalid rfl [some 9000] 83 none none).1⟩

/-- A dual-stack tunnel with an accepted ceiling of 600 runs at 1280. -/
theorem mtu_ceiling_exceeded_dual_stack :
    ∃ (cfg : Config ℚ) (c : UInt16),
      validate ownerOnly cfg = .ok () ∧ cfg.tunnel.mtu = some c ∧
        c < effectiveTunnelMtu cfg.tunnel.toTunnelConfig [some 1500] 83 none ∧
        c < negotiateTunnelMtu (effectiveTunnelMtu cfg.tunnel.toTunnelConfig [some 1500] 83 none)
          (some 1280) (mtuFloorFor cfg.tunnel.toTunnelConfig) :=
  ⟨serverWith { mtu := some 600, address6 := some "fd00::1/64" }, 600, by decide +kernel,
    rfl, by decide, by decide⟩

end Mlvpn.Ports.PathFit
