import Mlvpn.Ports.ConfigFile
import Mlvpn.Ports.Delivery
import Mlvpn.Ports.TxDispatch
import Mlvpn.Verified.Extremum

/-!
# The scheduler

Port of `scheduler::Scheduler` with `monitor::score` and `link::LinkScore`: the
table of usable links that a refresh rebuilds from their scores, the choice of a
primary with its hysteresis, smooth weighted round robin under bandwidth caps and
short-lived penalties, and the fallback for when nothing is up.

Each method is a function of the state; the clock readings it makes come as
arguments, one for each reading.  What `update_congestion` and `update_delivery`
publish on the links' counters is returned beside the state.
-/

namespace Mlvpn.Ports.Scheduling

open Verified Extremum
open ConfigFile (SchedulerConfig)
open Congestion (CongestionTracker CounterSnapshot)
open Delivery (DeliverySample DeliveryTracker)
open FecRecovery (Instant)
open TxDispatch (LinkState)
open Verified.Floating (ofRat)

def QUEUE_FULL_PENALTY : Nat := 200000000
def SEND_FAILED_PENALTY : Nat := 500000000

variable {F : Type*} [Floating F]

def PRIMARY_SWITCH_MARGIN : F := ofRat (1 / 5)
def PENALTY_FALLBACK_MIN_DELIVERY : F := ofRat (1 / 2)

/-! ## Links and their scores -/

/-- What scoring reads of a `Link`. -/
structure Link (F : Type*) where
  state : LinkState
  adminDisabled : Bool
  weight : F
  bandwidthCapMbps : Option F
  rttMs : Option F
  jitterMs : Option F
  lossRate : Option F
  rxThroughputMbps : Option F
  activeBandwidthMbps : Option F
  consecutiveMisses : UInt32

/-- `link::LinkScore`, a link's copy in a snapshot. -/
structure LinkScore (F : Type*) extends Link F where
  linkIndex : Nat

def snapshotScores (links : List (Link F)) : List (LinkScore F) :=
  links.zipIdx.map fun l => { l.1 with linkIndex := l.2 }

/-- `monitor::score`. -/
def score (link : Link F) : F :=
  if link.state ≠ .Up ∨ link.adminDisabled then ofRat 0
  else
    let rtt := max (link.rttMs.getD (ofRat 200)) (ofRat (1 / 10))
    let jitter := max (link.jitterMs.getD (ofRat 20)) (ofRat 0)
    let loss := Floating.clamp (link.lossRate.getD (ofRat 0)) (ofRat 0) (ofRat 1)
    let measured := match link.activeBandwidthMbps with
      | some a => max a (ofRat (1 / 10))
      | none => max (link.rxThroughputMbps.getD (ofRat 1)) (ofRat 1)
    let throughput := min measured (link.bandwidthCapMbps.getD Floating.maxValue)
    let latencyFactor := ofRat 1 / (ofRat 1 + rtt / ofRat 50)
    let jitterFactor := ofRat 1 / (ofRat 1 + jitter / ofRat 20)
    let lossFactor := (ofRat 1 - loss) * (ofRat 1 - loss)
    link.weight * Floating.sqrt throughput * latencyFactor * jitterFactor * lossFactor

/-! ## Rate limits -/

structure RateLimitState where
  windowStart : Instant
  bytesInWindow : UInt64
deriving Repr, DecidableEq

namespace RateLimitState

def new (now : Instant) : RateLimitState := ⟨now, 0⟩

/-- `checkedAt` is the reading of `elapsed()`, `restartedAt` the new window's. -/
def underCap (r : RateLimitState) (checkedAt restartedAt : Instant) (capMbps : F)
    (additionalBytes : UInt64) : RateLimitState × Bool :=
  let r := if checkedAt - r.windowStart ≥ 1000000000 then ⟨restartedAt, 0⟩ else r
  let budgetBytes := Floating.toU64 (capMbps * ofRat 1000000 / ofRat 8)
  (r, decide (r.bytesInWindow + additionalBytes ≤ budgetBytes))

def record (r : RateLimitState) (bytes : UInt64) : RateLimitState :=
  { r with bytesInWindow := r.bytesInWindow + bytes }

end RateLimitState

abbrev RateLimits := AList fun _ : Nat => RateLimitState

/-! ## The state -/

structure SwrrEntry (F : Type*) where
  linkIndex : Nat
  baseWeight : F
  effectiveWeight : F
  currentWeight : F
  bandwidthCapMbps : Option F

structure Scheduler (F : Type*) where
  entries : List (SwrrEntry F)
  rateLimits : RateLimits
  penalized : List (Nat × Instant)
  congestion : List (CongestionTracker F)
  delivery : List (DeliveryTracker F)
  primary : Option Nat
  candidate : Option (Nat × UInt32)

namespace Scheduler

def new : Scheduler F where
  entries := []
  rateLimits := ∅
  penalized := []
  congestion := []
  delivery := []
  primary := none
  candidate := none

def setPrimary (s : Scheduler F) (primary : Option Nat) : Scheduler F :=
  { s with primary }

/-! ## Penalties and factors -/

/-- Extend the link's penalty, or start one. -/
def extendPenalty (idx : Nat) (till : Instant) : List (Nat × Instant) → List (Nat × Instant)
  | [] => [(idx, till)]
  | (i, t) :: rest =>
      if i = idx then (i, max t till) :: rest else (i, t) :: extendPenalty idx till rest

def penalize (s : Scheduler F) (now : Instant) (idx dur : Nat) : Scheduler F :=
  { s with penalized := extendPenalty idx (now + dur) s.penalized }

def noteQueueFull (s : Scheduler F) (now : Instant) (idx : Nat) : Scheduler F :=
  s.penalize now idx QUEUE_FULL_PENALTY

def noteSendFailed (s : Scheduler F) (now : Instant) (idx : Nat) : Scheduler F :=
  s.penalize now idx SEND_FAILED_PENALTY

def congestionFactor (s : Scheduler F) (idx : Nat) : F :=
  match s.congestion[idx]? with
  | some t => t.factor
  | none => ofRat 1

/-- Relative to the best link: a shortfall that all share is not one link's fault. -/
def deliveryFactor (s : Scheduler F) (idx : Nat) : F :=
  match s.delivery[idx]? with
  | none => ofRat 1
  | some t =>
      let best := (s.delivery.map (·.factor)).foldl max (ofRat 0)
      if best ≤ ofRat 0 then ofRat 1
      else Floating.clamp (t.factor / best) Delivery.MIN_FACTOR (ofRat 1)

def linkFactor (s : Scheduler F) (idx : Nat) : F := s.congestionFactor idx * s.deliveryFactor idx

/-- The loop that re-derives the effective weights. -/
def rescale (s : Scheduler F) : Scheduler F :=
  { s with
    entries := s.entries.map fun e =>
      { e with effectiveWeight := e.baseWeight * s.linkFactor e.linkIndex } }

/-- `resize_with`, for growing only. -/
def growTo {α : Type*} (xs : List α) (n : Nat) (a : α) : List α :=
  xs ++ List.replicate (n - xs.length) a

/-- The `delivery_ppm` of each link comes out beside the state. -/
def updateDelivery (s : Scheduler F) (now : Instant) (samples : List (Option (DeliverySample F))) :
    Scheduler F × List UInt32 :=
  let delivery : List (DeliveryTracker F) := growTo s.delivery samples.length .default
  let s := { s with
    delivery := delivery.mapIdx fun i (t : DeliveryTracker F) => match samples[i]? with
      | some sample => t.observe now sample
      | none => t }
  (s.rescale, (List.range samples.length).map fun i =>
    Floating.toU32 (Floating.round (s.deliveryFactor i * ofRat 1000000)))

/-- What `update_congestion` publishes on a link's counters. -/
structure CongestionPublished where
  queueDelayRecentUs : UInt64
  sendWaitRecentUs : UInt64
  congestionMilli : UInt32
deriving Repr, DecidableEq

def updateCongestion (s : Scheduler F) (now : Instant) (counters : List CounterSnapshot) :
    Scheduler F × List CongestionPublished :=
  let congestion : List (CongestionTracker F) := growTo s.congestion counters.length .default
  let s := { s with
    congestion := congestion.mapIdx fun i (t : CongestionTracker F) => match counters[i]? with
      | some cur => t.update now cur
      | none => t }
  (s.rescale, (s.congestion.take counters.length).map fun t =>
    { queueDelayRecentUs := t.delayRecentUs
      sendWaitRecentUs := t.sendWaitRecentUs
      congestionMilli := Floating.toU32 (Floating.round (t.factor * ofRat 1000)) })

/-! ## Refreshing -/

/-- Primary selection in `primary_link_mode`, while the primary with this score is
still up. -/
def reviewPrimary (s : Scheduler F) (upIndices : List (Nat × F)) (upThreshold : UInt32)
    (primaryScore : F) : Scheduler F :=
  match maxBy (fun a b => Floating.totalCmp a.2 b.2)
      (upIndices.filter fun l => some l.1 ≠ s.primary) with
  | none => { s with candidate := none }
  | some (otherIdx, otherScore) =>
      if primaryScore * (ofRat 1 + PRIMARY_SWITCH_MARGIN) < otherScore then
        match s.candidate with
        | some (idx, count) =>
            if idx = otherIdx then
              let count := count + 1
              if upThreshold ≤ count then { s.setPrimary (some otherIdx) with candidate := none }
              else { s with candidate := some (idx, count) }
            else { s with candidate := some (otherIdx, 1) }
        | none => { s with candidate := some (otherIdx, 1) }
      else { s with candidate := none }

def refreshFromScores (s : Scheduler F) (upIndices : List (Nat × F)) (cfg : SchedulerConfig F)
    (peerPrimaryIndex : Option Nat) : Scheduler F :=
  if cfg.followPeerPrimary then
    { s.setPrimary (peerPrimaryIndex.filter fun idx => upIndices.any fun l => l.1 = idx) with
      candidate := none }
  else if !cfg.primaryLinkMode then { s.setPrimary none with candidate := none }
  else
    let primaryScore := s.primary.bind fun idx =>
      (upIndices.find? fun l => l.1 = idx).map Prod.snd
    match primaryScore with
    | none =>
        -- No primary, or it is no longer up: the best one at once.
        { s.setPrimary
            ((maxBy (fun a b => Floating.totalCmp a.2 b.2) upIndices).map Prod.fst) with
          candidate := none }
    | some primaryScore => s.reviewPrimary upIndices cfg.upThreshold primaryScore

/-- The links with a positive score, and their scores. -/
def upIndices (links : List (Link F)) : List (Nat × F) :=
  (links.zipIdx.map fun l => (l.2, score l.1)).filter fun l => decide (ofRat 0 < l.2)

def refresh (s : Scheduler F) (links : List (Link F)) (cfg : SchedulerConfig F)
    (peerPrimaryIndex : Option Nat) : Scheduler F :=
  let s := s.refreshFromScores (upIndices links) cfg peerPrimaryIndex
  { s with
    entries := (upIndices links).map fun l =>
      { linkIndex := l.1
        baseWeight := l.2
        effectiveWeight := l.2 * s.linkFactor l.1
        currentWeight := ofRat 0
        bandwidthCapMbps := (links[l.1]?).bind (·.bandwidthCapMbps) } }

/-! ## Picking -/

/-- The clock readings of one pick: for the entry at each position those of
`RateLimitState::new`, `elapsed` and a restarted window, and one for the penalties. -/
structure PickClock where
  created : Nat → Instant
  checked : Nat → Instant
  restarted : Nat → Instant
  penalty : Instant

/-- The entry at a position; positions come from `0..entries.len()`. -/
def entryAt (entries : List (SwrrEntry F)) (pos : Nat) : SwrrEntry F :=
  entries.getD pos ⟨0, ofRat 0, ofRat 0, ofRat 0, none⟩

/-- One round of smooth weighted round robin among the positions `first :: rest`:
they gain their weights, and the greatest pays for all of them. -/
def pickAmong (entries : List (SwrrEntry F)) (first : Nat) (rest : List Nat) :
    List (SwrrEntry F) × Nat :=
  let total := Floating.sum ((first :: rest).map fun pos => (entryAt entries pos).effectiveWeight)
  let entries := entries.mapIdx fun pos (e : SwrrEntry F) =>
    if pos ∈ first :: rest then { e with currentWeight := e.currentWeight + e.effectiveWeight }
    else e
  let winner := maxByFrom
    (fun a b => Floating.totalCmp (entryAt entries a).currentWeight
      (entryAt entries b).currentWeight) first rest
  (entries.modify winner fun e => { e with currentWeight := e.currentWeight - total },
    (entryAt entries winner).linkIndex)

/-- Every entry takes part; there is at least one. -/
def swrrPick (entries : List (SwrrEntry F)) : List (SwrrEntry F) × Nat :=
  pickAmong entries 0 (List.range' 1 (entries.length - 1))

/-- The first pass: the positions under their cap, from `pos` on. -/
def checkCaps (clock : PickClock) (frameLen : UInt64) :
    Nat → List (SwrrEntry F) → RateLimits → List Nat × RateLimits
  | _, [], limits => ([], limits)
  | pos, e :: es, limits =>
      match e.bandwidthCapMbps with
      | none =>
          let (eligible, limits) := checkCaps clock frameLen (pos + 1) es limits
          (pos :: eligible, limits)
      | some capMbps =>
          let state := (limits.lookup e.linkIndex).getD (.new (clock.created pos))
          let (state, under) :=
            state.underCap (clock.checked pos) (clock.restarted pos) capMbps frameLen
          let (eligible, limits) :=
            checkCaps clock frameLen (pos + 1) es (limits.insert e.linkIndex state)
          (if under then pos :: eligible else eligible, limits)

/-- `if let Some(state) = rate_limits.get_mut(&idx) { state.record(..) }`. -/
def recordBytes (limits : RateLimits) (idx : Nat) (frameLen : UInt64) : RateLimits :=
  match limits.lookup idx with
  | some state => limits.insert idx (state.record frameLen)
  | none => limits

/-- The second pass: lapsed penalties go, and the links still under one are passed
over as long as a healthy one is left. -/
def skipPenalized (s : Scheduler F) (now : Instant) (eligible : List Nat) :
    Scheduler F × List Nat :=
  if s.penalized = [] then (s, eligible)
  else
    let penalized := s.penalized.filter fun p => decide (now < p.2)
    let unpenalized := eligible.filter fun pos =>
      let idx := (entryAt s.entries pos).linkIndex
      !(penalized.any fun p => p.1 = idx) &&
        decide (PENALTY_FALLBACK_MIN_DELIVERY ≤ s.deliveryFactor idx)
    ({ s with penalized },
      if penalized = [] ∨ unpenalized = [] then eligible else unpenalized)

def swrrPickUnderCap (s : Scheduler F) (clock : PickClock) (frameLen : UInt64) :
    Scheduler F × Nat :=
  let (eligible, rateLimits) := checkCaps clock frameLen 0 s.entries s.rateLimits
  let (s, eligible) := { s with rateLimits }.skipPenalized clock.penalty eligible
  let (entries, idx) := match eligible with
    | [] => swrrPick s.entries
    | first :: rest => pickAmong s.entries first rest
  ({ s with entries, rateLimits := recordBytes s.rateLimits idx frameLen }, idx)

/-- `(a.consecutive_misses, rtt as i64)`, a link without one being the worst. -/
def badness (l : LinkScore F) : Nat × Int :=
  (l.consecutiveMisses.toNat, Floating.toI64 (l.rttMs.getD Floating.maxValue))

/-- The comparison of the fallback: tuples compare by their first difference. -/
def leastBad (a b : LinkScore F) : Ordering :=
  (compare (badness a).1 (badness b).1).then (compare (badness a).2 (badness b).2)

def select (s : Scheduler F) (links : List (LinkScore F)) (clock : PickClock)
    (frameLen : UInt64) : Scheduler F × Option Nat :=
  if links = [] then (s, none)
  else
    match s.primary with
    | some primary => (s, some primary)
    | none =>
        if s.entries.isEmpty then (s, (minBy leastBad links).map (·.linkIndex))
        else
          let (s, idx) := s.swrrPickUnderCap clock frameLen
          (s, some idx)

def selectFast (s : Scheduler F) (linkCount : Nat) (clock : PickClock) (frameLen : UInt64) :
    Scheduler F × Option Nat :=
  if linkCount = 0 then (s, none)
  else
    match s.primary with
    | some primary => (s, some primary)
    | none =>
        if s.entries.isEmpty then (s, none)
        else
          let (s, idx) := s.swrrPickUnderCap clock frameLen
          (s, some idx)

end Scheduler

end Mlvpn.Ports.Scheduling
