import Mlvpn.Ports.Congestion

/-!
# Delivery feedback

Port of `delivery`: `ReportWindow` turns successive peer reports into offered and
delivered rates, and `DeliveryTracker` turns those into the factor that scales a
link's weight.  A bad window cuts the factor at once, a hold-down follows, and
the factor then grows back while deliveries stay clean.
-/

namespace Mlvpn.Ports.Delivery

open Verified
open Congestion (asSecsF64)
open FecRecovery (Instant)
open Verified.Floating (ofRat)

def SETTLE_WINDOWS : UInt32 := 3
def HOLD_BASE : Nat := 5000000000
def HOLD_MAX : Nat := 60000000000
def CLEAN_WINDOWS_TO_GROW : UInt32 := 2
def STALE_AFTER : Nat := 3000000000
def RESET_AFTER : Nat := 60000000000
def MIN_WINDOW : Nat := 200000000

section

variable {F : Type*} [Floating F]

def MIN_FACTOR : F := ofRat (1 / 1000)
def MIN_OFFERED_MBPS : F := ofRat (1 / 4)
def BAD_RATIO : F := ofRat (17 / 20)
def SEVERE_RATIO : F := ofRat (3 / 10)
def MIN_SHORTFALL_MBPS : F := ofRat (1 / 10)
def CUT_MARGIN : F := ofRat (9 / 10)
def RECOVER_PER_SEC : F := ofRat (1 / 10)

end

inductive Phase where
  | Normal
  | HoldDown
  | Recovering
deriving Repr, DecidableEq

/-- The rates of one report-to-report window; `stamp` tells windows apart. -/
structure DeliverySample (F : Type*) where
  offeredMbps : F
  deliveredMbps : F
  stamp : Instant

/-! ## Report windows -/

/-- A peer report, with the local byte count at its arrival. -/
structure Report where
  stamp : Instant
  peerRxBytes : UInt64
  localTxBytes : UInt64
deriving Repr, DecidableEq

structure ReportWindow (F : Type*) where
  prev : Option Report
  last : Option (DeliverySample F)

namespace ReportWindow

variable {F : Type*} [Floating F]

def reset (_ : ReportWindow F) : ReportWindow F := ⟨none, none⟩

/-- The rate of `bytes` over `dt` nanoseconds. -/
def mbps (dt : Nat) (bytes : UInt64) : F :=
  ofRat bytes.toNat * ofRat 8 / asSecsF64 dt / ofRat 1000000

def observe (w : ReportWindow F) (r : Report) : ReportWindow F × Option (DeliverySample F) :=
  match w.prev with
  | none => ({ w with prev := some r }, none)
  | some prev =>
      if prev.stamp = r.stamp then (w, w.last)
      else
        let dt := r.stamp - prev.stamp
        if r.peerRxBytes < prev.peerRxBytes ∨ r.localTxBytes < prev.localTxBytes ∨
            dt < MIN_WINDOW ∨ STALE_AFTER < dt then
          (⟨some r, none⟩, none)
        else
          let last : DeliverySample F :=
            { offeredMbps := mbps dt (r.localTxBytes - prev.localTxBytes)
              deliveredMbps := mbps dt (r.peerRxBytes - prev.peerRxBytes)
              stamp := r.stamp }
          (⟨some r, some last⟩, some last)

end ReportWindow

/-! ## The tracker -/

structure DeliveryTracker (F : Type*) where
  factor : F
  phase : Phase
  lastStamp : Option Instant
  lastTick : Option Instant
  badWindows : UInt32
  cleanWindows : UInt32
  settleLeft : UInt32
  holdUntil : Option Instant
  hold : Nat
  healthySince : Option Instant

namespace DeliveryTracker

variable {F : Type*} [Floating F]

def default : DeliveryTracker F where
  factor := ofRat 1
  phase := .Normal
  lastStamp := none
  lastTick := none
  badWindows := 0
  cleanWindows := 0
  settleLeft := 0
  holdUntil := none
  hold := HOLD_BASE
  healthySince := none

def cut (t : DeliveryTracker F) (now : Instant) (ratio : F) : DeliveryTracker F :=
  let hold := if t.phase = .Recovering then min (t.hold * 2) HOLD_MAX else t.hold
  { t with
    hold
    factor := Floating.clamp (t.factor * ratio * CUT_MARGIN) MIN_FACTOR (ofRat 1)
    phase := .HoldDown
    holdUntil := some (now + hold)
    settleLeft := SETTLE_WINDOWS
    badWindows := 0
    cleanWindows := 0
    healthySince := none }

def evaluateWindow (t : DeliveryTracker F) (now : Instant) (s : DeliverySample F) :
    DeliveryTracker F :=
  if 0 < t.settleLeft then { t with settleLeft := t.settleLeft - 1 }
  else
    let loaded : Bool := decide (MIN_OFFERED_MBPS ≤ s.offeredMbps)
    let ratio := if loaded then
        Floating.clamp (s.deliveredMbps / s.offeredMbps) (ofRat 0) (ofRat 1)
      else ofRat 1
    let bad := loaded && decide (ratio < BAD_RATIO) &&
      decide (MIN_SHORTFALL_MBPS ≤ s.offeredMbps - s.deliveredMbps)
    let t := if bad then { t with badWindows := t.badWindows + 1, cleanWindows := 0 }
      else { t with badWindows := 0, cleanWindows := t.cleanWindows + 1 }
    if bad ∧ (2 ≤ t.badWindows ∨ ratio < SEVERE_RATIO) then t.cut now ratio else t

/-- The hold-down is over. -/
def endHold (t : DeliveryTracker F) (now : Instant) : DeliveryTracker F :=
  if t.phase = .HoldDown ∧ (∀ u ∈ t.holdUntil, u ≤ now) then { t with phase := .Recovering }
  else t

/-- A sample counts once, and only while it is recent. -/
def fresh (t : DeliveryTracker F) (now : Instant) (s : DeliverySample F) : Bool :=
  decide (t.lastStamp ≠ some s.stamp) && decide (now - s.stamp < STALE_AFTER)

def fold (t : DeliveryTracker F) (now : Instant) :
    Option (DeliverySample F) → DeliveryTracker F
  | some s =>
      if t.fresh now s then { t with lastStamp := some s.stamp }.evaluateWindow now s else t
  | none => { t with badWindows := 0 }

/-- The multiplicative increase of a recovering link, over `dt` seconds. -/
def grow (t : DeliveryTracker F) (now : Instant) (dt : F) (idle : Bool) : DeliveryTracker F :=
  if t.phase = .Recovering ∧ t.settleLeft = 0 ∧ (idle ∨ CLEAN_WINDOWS_TO_GROW ≤ t.cleanWindows) then
    let factor := min (t.factor * (ofRat 1 + RECOVER_PER_SEC * dt)) (ofRat 1)
    if ofRat 1 ≤ factor then { t with factor, phase := .Normal, healthySince := some now }
    else { t with factor }
  else t

/-- Long enough at full health, a relapse starts from the first hold-down again. -/
def forgive (t : DeliveryTracker F) (now : Instant) : DeliveryTracker F :=
  if t.phase = .Normal ∧ (t.healthySince.any fun since => decide (RESET_AFTER ≤ now - since)) then
    { t with hold := HOLD_BASE }
  else t

def observe (t : DeliveryTracker F) (now : Instant) (sample : Option (DeliverySample F)) :
    DeliveryTracker F :=
  let dt : F := match t.lastTick with
    | some last => asSecsF64 (now - last)
    | none => ofRat 0
  let t := { t with lastTick := some now }.endHold now
  ((t.fold now sample).grow now dt sample.isNone).forgive now

end DeliveryTracker

end Mlvpn.Ports.Delivery
