import Mathlib.Order.Basic

/-!
# The tunnel MTU

Port of `control::effective_tunnel_mtu`, what one end's own links can carry, and
`negotiate_tunnel_mtu`, which folds the value the peer advertised into it.  The
arithmetic is the source's: `u16` values, `u32` physical MTUs, saturating
subtraction.  The warnings the source logs on the way are left out.

## Main results

* `mtuFloorFor_le_effectiveTunnelMtu`, `floor_le_negotiateTunnelMtu`: neither
  goes below the floor of the tunnel's address family.
* `negotiateTunnelMtu_eq_min`: with a peer that has an opinion, the negotiated
  value is the smaller one unless the floor forbids it.
-/

namespace Mlvpn.Ports.TunnelMtu

/-! ## Machine arithmetic -/

/-- `saturating_sub`. -/
def saturatingSub {α : Type*} [Sub α] [LE α] [DecidableLE α] [OfNat α 0] (a b : α) : α :=
  if b ≤ a then a - b else 0

theorem toNat_min (a b : UInt16) : (min a b).toNat = min a.toNat b.toNat := by
  by_cases h : a ≤ b
  · rw [show min a b = a from if_pos h, Nat.min_eq_left (UInt16.le_iff_toNat_le.mp h)]
  · have hlt : b.toNat < a.toNat := Nat.lt_of_not_le fun hle => h (UInt16.le_iff_toNat_le.mpr hle)
    rw [show min a b = b from if_neg h, Nat.min_eq_right (Nat.le_of_lt hlt)]

theorem toNat_max (a b : UInt16) : (max a b).toNat = max a.toNat b.toNat := by
  by_cases h : a ≤ b
  · rw [show max a b = b from if_pos h, Nat.max_eq_right (UInt16.le_iff_toNat_le.mp h)]
  · have hlt : b.toNat < a.toNat := Nat.lt_of_not_le fun hle => h (UInt16.le_iff_toNat_le.mpr hle)
    rw [show max a b = a from if_neg h, Nat.max_eq_left (Nat.le_of_lt hlt)]

theorem le_max_floor (a floor : UInt16) : floor ≤ max a floor := by
  rw [UInt16.le_iff_toNat_le, toNat_max]
  exact Nat.le_max_right _ _

theorem mtu_min_comm (a b : UInt16) : min a b = min b a :=
  UInt16.toNat_inj.mp (by rw [toNat_min, toNat_min, Nat.min_comm])

/-! ## What one end can carry -/

/-- The fields of `TunnelConfig` that size the tunnel. -/
structure TunnelConfig where
  mtu : Option UInt16
  address6 : Option String
deriving Repr, DecidableEq

def FALLBACK_MTU_WHEN_NOTHING_DETECTED : UInt16 := 1400
def MTU_FLOOR_IPV4_ONLY : UInt16 := 576
def MTU_FLOOR_DUAL_STACK : UInt16 := 1280

/-- `protocol::HEADER_LEN`. -/
def HEADER_LEN : UInt32 := 1 + 1 + 1 + 1 + 8
def WG_OVERHEAD_BYTES : UInt32 := 32
def FAKE_IPV4_HEADER_LEN : UInt32 := 20

def mtuFloorFor (cfg : TunnelConfig) : UInt16 :=
  if cfg.address6.isSome then MTU_FLOOR_DUAL_STACK else MTU_FLOOR_IPV4_ONLY

/-- The last term is an outer IPv6 and UDP header. -/
def outerOverhead : UInt32 := HEADER_LEN + WG_OVERHEAD_BYTES + FAKE_IPV4_HEADER_LEN + 48

/-- The physical MTU to go by: the primary link's, or the least of those
detected. -/
def detectedValue (detectedMtus : List (Option UInt32)) (primaryIdx : Option Nat) :
    Option UInt32 :=
  match primaryIdx with
  | some idx => (detectedMtus[idx]?).join
  | none => (detectedMtus.filterMap id).min?

/-- The tunnel MTU before FEC's reservation is taken out of it. -/
def preFec (cfg : TunnelConfig) (detectedMin : UInt32) : UInt16 :=
  let safeMtu := (min (saturatingSub detectedMin outerOverhead) 65535).toUInt16
  match cfg.mtu with
  | some ceiling => if ceiling ≤ safeMtu then ceiling else max safeMtu (mtuFloorFor cfg)
  | none => max safeMtu (mtuFloorFor cfg)

def effectiveTunnelMtu (cfg : TunnelConfig) (detectedMtus : List (Option UInt32))
    (fecReservation : UInt16) (primaryIdx : Option Nat) : UInt16 :=
  match detectedValue detectedMtus primaryIdx with
  | none =>
      max (saturatingSub (cfg.mtu.getD FALLBACK_MTU_WHEN_NOTHING_DETECTED) fecReservation)
        (mtuFloorFor cfg)
  | some detectedMin =>
      max (saturatingSub (preFec cfg detectedMin) fecReservation) (mtuFloorFor cfg)

theorem mtuFloorFor_le_effectiveTunnelMtu (cfg : TunnelConfig)
    (detectedMtus : List (Option UInt32)) (fecReservation : UInt16) (primaryIdx : Option Nat) :
    mtuFloorFor cfg ≤ effectiveTunnelMtu cfg detectedMtus fecReservation primaryIdx := by
  unfold effectiveTunnelMtu
  split
  · exact le_max_floor _ _
  · exact le_max_floor _ _

theorem mtuFloorFor_pos (cfg : TunnelConfig) : 0 < (mtuFloorFor cfg).toNat := by
  unfold mtuFloorFor
  split
  · decide
  · decide

/-! ## Negotiation -/

/-- A peer's value of zero is a peer without an opinion. -/
def negotiateTunnelMtu (localMtu : UInt16) (peerAdvertised : Option UInt16) (floor : UInt16) :
    UInt16 :=
  max
    (match peerAdvertised with
      | some peer => if peer ≠ 0 then min localMtu peer else localMtu
      | none => localMtu)
    floor

def mtuResizeNeeded (current recomputed : UInt16) : Bool := current != recomputed

theorem floor_le_negotiateTunnelMtu (localMtu : UInt16) (peerAdvertised : Option UInt16)
    (floor : UInt16) : floor ≤ negotiateTunnelMtu localMtu peerAdvertised floor :=
  le_max_floor _ _

theorem negotiateTunnelMtu_eq_min {localMtu peer floor : UInt16} (hpeer : peer ≠ 0)
    (hfloor : floor ≤ min localMtu peer) :
    negotiateTunnelMtu localMtu (some peer) floor = min localMtu peer := by
  rw [UInt16.le_iff_toNat_le] at hfloor
  apply UInt16.toNat_inj.mp
  simp only [negotiateTunnelMtu, if_pos hpeer]
  rw [toNat_max, Nat.max_eq_left hfloor]

end Mlvpn.Ports.TunnelMtu
