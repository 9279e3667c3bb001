import Mlvpn.Ports.FecRecovery
import Mlvpn.Verified.Floating

/-!
# Congestion tracking

Port of `congestion`: the map from a queue delay to the share of traffic a link
can take, the filter that drops at once and recovers slowly, and the tracker that
feeds interval deltas of a link's counters through it.  Times are nanoseconds.
-/

namespace Mlvpn.Ports.Congestion

open Verified
open FecRecovery (Instant)
open Verified.Floating (ofRat)

def HOLD_DOWN : Nat := 1000000000
def MIN_WINDOW : Nat := 50000000

section

variable {F : Type*} [Floating F]

def MIN_FACTOR : F := ofRat (1 / 10)
def QUEUE_FULL_CAP : F := ofRat (3 / 10)
def SEND_FAILED_CAP : F := ofRat (1 / 4)
def RECOVERY_PER_SEC : F := ofRat (3 / 20)

/-- `Duration::as_secs_f64`. -/
def asSecsF64 (nanos : Nat) : F :=
  ofRat (nanos / 1000000000 : Nat) + ofRat (nanos % 1000000000 : Nat) / ofRat 1000000000

def ANCHORS : List (F × F) :=
  [(ofRat 1000, ofRat 1), (ofRat 5000, ofRat (4 / 5)), (ofRat 20000, ofRat (3 / 10)),
    (ofRat 60000, MIN_FACTOR), (Floating.maxValue, MIN_FACTOR)]

/-- The loop over `ANCHORS.windows(2)`: linear between the two anchors around `d`. -/
def interpolate (d : F) : List (F × F) → F
  | (x0, y0) :: (x1, y1) :: anchors =>
      if d ≤ x1 then y0 + (y1 - y0) * (d - x0) / (x1 - x0)
      else interpolate d ((x1, y1) :: anchors)
  | _ => MIN_FACTOR

def delayTarget (delayUs : UInt64) : F :=
  let d : F := ofRat delayUs.toNat
  if d ≤ ofRat 1000 then ofRat 1 else interpolate d ANCHORS

/-- One step of the filter: down to `target` at once, up by `RECOVERY_PER_SEC`
unless the last drop is too recent. -/
def nextFactor (current target dtSecs : F) (held : Bool) : F :=
  let target := Floating.clamp target MIN_FACTOR (ofRat 1)
  if target < current then target
  else if held then current
  else min (current + RECOVERY_PER_SEC * dtSecs) target

end

/-- A point-in-time reading of one link's `TxCounters`. -/
structure CounterSnapshot where
  delaySumUs : UInt64
  delaySamples : UInt64
  sendWaitSumUs : UInt64
  sendWaitSamples : UInt64
  queueFull : UInt64
  sendFailed : UInt64
  stallUs : UInt64
deriving Repr, DecidableEq

def CounterSnapshot.default : CounterSnapshot := ⟨0, 0, 0, 0, 0, 0, 0⟩

/-- Wrapping differences; no new samples give a mean of zero. -/
def meanDelta (sum prevSum n prevN : UInt64) : UInt64 :=
  if n - prevN = 0 then 0 else (sum - prevSum) / (n - prevN)

structure CongestionTracker (F : Type*) where
  factor : F
  lastUpdate : Option Instant
  lastDrop : Option Instant
  prev : CounterSnapshot
  delayRecentUs : UInt64
  sendWaitRecentUs : UInt64

namespace CongestionTracker

variable {F : Type*} [Floating F]

def default : CongestionTracker F where
  factor := ofRat 1
  lastUpdate := none
  lastDrop := none
  prev := .default
  delayRecentUs := 0
  sendWaitRecentUs := 0

/-- The target of a window: what the delay allows, capped after an overflow or a
failed send. -/
def windowTarget (delayRecentUs : UInt64) (prev cur : CounterSnapshot) : F :=
  let target : F := delayTarget delayRecentUs
  let target := if cur.queueFull ≠ prev.queueFull then min target QUEUE_FULL_CAP else target
  if cur.sendFailed ≠ prev.sendFailed then min target SEND_FAILED_CAP else target

def update (t : CongestionTracker F) (now : Instant) (cur : CounterSnapshot) :
    CongestionTracker F :=
  match t.lastUpdate with
  | none => { t with prev := cur, lastUpdate := some now }
  | some last =>
      if now - last < MIN_WINDOW then t
      else
        let avgDelay := meanDelta cur.delaySumUs t.prev.delaySumUs cur.delaySamples
          t.prev.delaySamples
        let delayRecentUs := max avgDelay cur.stallUs
        let held := t.lastDrop.any fun drop => now - drop < HOLD_DOWN
        let next := nextFactor t.factor (windowTarget delayRecentUs t.prev cur)
          (asSecsF64 (now - last)) held
        { factor := next
          lastUpdate := some now
          lastDrop := if next < t.factor then some now else t.lastDrop
          prev := cur
          delayRecentUs
          sendWaitRecentUs := meanDelta cur.sendWaitSumUs t.prev.sendWaitSumUs
            cur.sendWaitSamples t.prev.sendWaitSamples }

end CongestionTracker

end Mlvpn.Ports.Congestion
