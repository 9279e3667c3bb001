import Mlvpn.Ports.FecRecoveryOps

/-!
# The receive pipeline

Port of `tunnel::rx_pipeline` and what it owns: the `ReorderBuffer`, the
`FecRecoveryBuffer` and the bounded channel that feeds it.  One step is one
branch of its `select!` (a batch of events, a flush tick, an FEC tick, a report
tick) or one hand-off by a receiving link.

A step answers with the events it took from the channel and with what it wrote
to the TUN.  The device gets payloads only; the log keeps each payload's
sequence number beside it, so that results can say which frame was written.

The primary flag is read once per delivered packet and may change between two
reads, so it comes with the event's environment, as the clock readings do.
-/

namespace Mlvpn.Ports.RxPipeline

open Protocol FecSend FecRecovery

def RX_PIPELINE_CAPACITY : Nat := 8192
def RX_PIPELINE_BATCH : Nat := 64

/-! ## The reorder buffer -/

structure ReorderCounters where
  late : Nat
  duplicate : Nat
  timeout : Nat
  waitRecentUs : Nat
  waitMaxUs : Nat
  maxDepth : Nat
deriving Repr, DecidableEq

structure ReorderBuffer where
  windowMs : Nat
  highWatermark : UInt64
  pending : Std.TreeMap UInt64 (Instant × Bytes)
  counters : ReorderCounters

/-- `seq.saturating_add(1)`. -/
def saturatingSucc (seq : UInt64) : UInt64 := if seq + 1 = 0 then seq else seq + 1

def advanceWatermark (wm seq : UInt64) : UInt64 := max wm (saturatingSucc seq)

def watermarkValue (wm : UInt64) : Option UInt64 := if wm = 0 then none else some (wm - 1)

namespace ReorderBuffer

def new (windowMs : Nat) : ReorderBuffer where
  windowMs := windowMs
  highWatermark := 0
  pending := ∅
  counters := ⟨0, 0, 0, 0, 0, 0⟩

def noteDelivered (b : ReorderBuffer) (seq : UInt64) : ReorderBuffer :=
  { b with highWatermark := advanceWatermark b.highWatermark seq }

def watermark (b : ReorderBuffer) : Option UInt64 := watermarkValue b.highWatermark

def setWindow (b : ReorderBuffer) (windowMs : Nat) : ReorderBuffer := { b with windowMs }

def insert (b : ReorderBuffer) (now : Instant) (seq : UInt64) (payload : Bytes) : ReorderBuffer :=
  let c := b.counters
  let late := if ∃ wm ∈ b.watermark, seq ≤ wm then c.late + 1 else c.late
  let duplicate := if seq ∈ b.pending then c.duplicate + 1 else c.duplicate
  let pending := b.pending.insert seq (now, payload)
  { b with
    pending
    counters := { c with late, duplicate, maxDepth := max c.maxDepth pending.size } }

/-- One round of the drain loop, for the entry it removed. -/
def drainOne (now : Instant) (b : ReorderBuffer) (entry : UInt64 × Instant × Bytes) :
    ReorderBuffer :=
  let c := b.counters
  let waitedUs := (now - entry.2.1) / 1000
  { b with
    highWatermark := advanceWatermark b.highWatermark entry.1
    counters := { c with waitRecentUs := c.waitRecentUs - c.waitRecentUs / 8 + waitedUs / 8
                         waitMaxUs := max c.waitMaxUs waitedUs } }

/-- The loop removes the first entry until none is left. -/
def drainReady (b : ReorderBuffer) (now : Instant) : ReorderBuffer × List Member :=
  ({ b.pending.toList.foldl (drainOne now) b with pending := ∅ },
    b.pending.toList.map fun entry => (entry.1, entry.2.2))

end ReorderBuffer

/-! ## The pipeline -/

inductive RxEvent where
  | Data (seq : UInt64) (plaintext : Bytes)
  | Parity (kind : ParityKind) (parity : FecParityPayload)
  | SetReorderWindow (ms : Nat)
deriving Repr, DecidableEq

structure RxPipelineStats where
  windowMs : Nat
  depth : Nat
  maxDepth : Nat
  waitRecentUs : Nat
  waitMaxUs : Nat
  lateTotal : Nat
  duplicateTotal : Nat
  timeoutTotal : Nat
  droppedTotal : Nat
  busyNsTotal : Nat
  maxBacklog : Nat
deriving Repr, DecidableEq

/-- The task's state, with the channel it reads and the overflow count it shares
with the receiving links. -/
structure Pipeline where
  fecEnabled : Bool
  reorder : ReorderBuffer
  fecRecovery : FecRecoveryBuffer
  fecRecoveredTotal : Nat
  fecUnrecoverableTotal : Nat
  channel : List RxEvent
  dropped : Nat
  stats : RxPipelineStats

/-- What handling one event reads from outside: the FEC buffer's readings, and
for its `k`-th delivery the primary flag and two clock readings. -/
structure EventEnv where
  fec : CallEnv
  primary : Nat → Bool
  insertedAt : Nat → Instant
  drainedAt : Nat → Instant

def rxDeliver (env : EventEnv) (k : Nat) (b : ReorderBuffer) (m : Member) :
    ReorderBuffer × List Member :=
  if env.primary k then (b.noteDelivered m.1, [m])
  else (b.insert (env.insertedAt k) m.1 m.2).drainReady (env.drainedAt k)

/-- Deliver the frames in turn, the first as the event's `k`-th delivery. -/
def deliverEach (env : EventEnv) : Nat → ReorderBuffer → List Member → ReorderBuffer × List Member
  | _, b, [] => (b, [])
  | k, b, m :: ms =>
      let (b, out) := rxDeliver env k b m
      let (b, rest) := deliverEach env (k + 1) b ms
      (b, out ++ rest)

namespace ReorderBuffer

/-- `ReorderBuffer::publish`. -/
def publish (b : ReorderBuffer) (stats : RxPipelineStats) : RxPipelineStats :=
  { stats with
    windowMs := b.windowMs
    depth := b.pending.size
    maxDepth := b.counters.maxDepth
    waitRecentUs := b.counters.waitRecentUs
    waitMaxUs := b.counters.waitMaxUs
    lateTotal := b.counters.late
    duplicateTotal := b.counters.duplicate
    timeoutTotal := b.counters.timeout }

end ReorderBuffer

namespace Pipeline

def new (fecEnabled : Bool) (windowMs : Nat) (fecRecovery : FecRecoveryBuffer) : Pipeline where
  fecEnabled := fecEnabled
  reorder := ReorderBuffer.new windowMs
  fecRecovery := fecRecovery
  fecRecoveredTotal := 0
  fecUnrecoverableTotal := 0
  channel := []
  dropped := 0
  stats := ⟨0, 0, 0, 0, 0, 0, 0, 0, 0, 0, 0⟩

def setReorder (p : Pipeline) (delivered : ReorderBuffer × List Member) : Pipeline × List Member :=
  ({ p with reorder := delivered.1 }, delivered.2)

/-- Frames the FEC buffer rebuilt, counted and delivered from the `k`-th on. -/
def deliverRecovered (p : Pipeline) (env : EventEnv) (k : Nat) (frames : List Member) :
    Pipeline × List Member :=
  { p with fecRecoveredTotal := p.fecRecoveredTotal + frames.length }.setReorder
    (deliverEach env k p.reorder frames)

/-- One event of a batch. -/
def handle (p : Pipeline) (env : EventEnv) : RxEvent → Pipeline × List Member
  | .Data seq plaintext =>
      if p.fecEnabled then
        let (fec, fresh) := p.fecRecovery.observeData env.fec seq plaintext
        let p := { p with fecRecovery := fec }
        if fresh then
          let (p, out) := p.setReorder (rxDeliver env 0 p.reorder (seq, plaintext))
          if p.fecRecovery.hasLateRecoveries then
            let (fec, frames) := p.fecRecovery.takeLateRecoveries
            let (p, late) := { p with fecRecovery := fec }.deliverRecovered env 1 frames
            (p, out ++ late)
          else (p, out)
        else (p, [])
      else p.setReorder (rxDeliver env 0 p.reorder (seq, plaintext))
  | .Parity kind parity =>
      let (fec, outcome) := p.fecRecovery.tryRecover env.fec kind parity
      let p := { p with fecRecovery := fec }
      match outcome with
      | .Recovered frames => p.deliverRecovered env 0 frames
      | .Unrecoverable => ({ p with fecUnrecoverableTotal := p.fecUnrecoverableTotal + 1 }, [])
      | .AlreadyComplete => (p, [])
      | .Pending => (p, [])
  | .SetReorderWindow ms => ({ p with reorder := p.reorder.setWindow ms }, [])

/-- The events of a batch, the first with environment `envs k`. -/
def handleAll (envs : Nat → EventEnv) : Nat → Pipeline → List RxEvent → Pipeline × List Member
  | _, p, [] => (p, [])
  | k, p, ev :: evs =>
      let (p, out) := p.handle (envs k) ev
      let (p, rest) := handleAll envs (k + 1) p evs
      (p, out ++ rest)

end Pipeline

/-! ## Runs -/

/-- A hand-off by a receiving link, or a branch of the pipeline's loop. -/
inductive RxAction where
  | deliver (ev : RxEvent)
  | recvMany (available : Nat) (envs : Nat → EventEnv) (batchStart batchEnd : Instant)
  | flushTick (now : Instant)
  | fecTick (now : Instant)
  | reportTick

/-- What a step took from the channel and what it wrote to the TUN. -/
structure Output where
  taken : List RxEvent
  written : List Member
deriving Repr, DecidableEq

namespace Pipeline

/-- `handle_incoming` ignores parity frames when FEC is off; any other event is
dropped, and counted, only when the channel is full. -/
def deliver (p : Pipeline) (ev : RxEvent) : Pipeline :=
  match ev with
  | .Parity _ _ =>
      if p.fecEnabled then
        if p.channel.length < RX_PIPELINE_CAPACITY then { p with channel := p.channel ++ [ev] }
        else { p with dropped := p.dropped + 1 }
      else p
  | _ =>
      if p.channel.length < RX_PIPELINE_CAPACITY then { p with channel := p.channel ++ [ev] }
      else { p with dropped := p.dropped + 1 }

/-- Take a batch from the channel and handle its events in order. -/
def receive (p : Pipeline) (available : Nat) (envs : Nat → EventEnv)
    (batchStart batchEnd : Instant) : Pipeline × Output :=
  let n := min available RX_PIPELINE_BATCH
  let batch := p.channel.take n
  if batch = [] then (p, ⟨[], []⟩)
  else
    let stats := { p.stats with maxBacklog := max p.stats.maxBacklog p.channel.length }
    let (p, out) := handleAll envs 0 { p with channel := p.channel.drop n, stats } batch
    ({ p with stats := { p.stats with
        busyNsTotal := p.stats.busyNsTotal + (batchEnd - batchStart) } },
      ⟨batch, out⟩)

def step (p : Pipeline) : RxAction → Pipeline × Output
  | .deliver ev => (p.deliver ev, ⟨[], []⟩)
  | .recvMany available envs batchStart batchEnd => p.receive available envs batchStart batchEnd
  | .flushTick now =>
      let (reorder, out) := p.reorder.drainReady now
      ({ p with reorder, stats := reorder.publish p.stats }, ⟨[], out⟩)
  | .fecTick now =>
      if p.fecEnabled then
        let (fec, givenUp) := p.fecRecovery.tick now
        ({ p with fecRecovery := fec,
                  fecUnrecoverableTotal := p.fecUnrecoverableTotal + givenUp }, ⟨[], []⟩)
      else (p, ⟨[], []⟩)
  | .reportTick =>
      ({ p with dropped := 0
                stats := { p.stats with droppedTotal := p.stats.droppedTotal + p.dropped } },
        ⟨[], []⟩)

end Pipeline

end Mlvpn.Ports.RxPipeline
