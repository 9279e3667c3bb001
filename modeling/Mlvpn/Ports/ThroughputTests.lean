import Mlvpn.Ports.Congestion
import Mlvpn.Ports.WireFormat
import Mlvpn.Verified.LastSeen

/-!
# Results of throughput tests

Two receivers measure throughput-test streams: one per link, in `handle_incoming`, and
`tunneltest::run_listener` for streams through the tunnel.  A stream ends with a packet that
is marked as the last one, of which the sender sends further copies over seconds.  Both
receivers remember the test they completed last and pass over its copies.

They remember that one test only.  When two streams end within the same seconds, the copies
of the first one come after the second has been completed, and start the first one over: it
gets another result and, in `run_listener`, another reverse stream.

## Main results

* `remembers_receive`, `remembers_listen`: both receivers answer as a machine that remembers
  the last item.
* `one_result_iff`: every test gets at most one result, and at most one reverse stream,
  exactly when the last packets of each test come in one block.
-/

namespace Mlvpn.Ports.ThroughputTests

open Verified BigEndian LastSeen
open Congestion (asSecsF64)
open FecRecovery (Instant)
open Protocol (Bytes)
open WireFormat (ThroughputTestDataPayload)
open Verified.Floating (ofRat)

variable {F : Type*} [Floating F]

/-- Both modules have one. -/
def computeAchievedMbps (bytes : UInt64) (elapsedSecs : F) : F :=
  let elapsedSecs := max elapsedSecs (ofRat (1 / 1000000))
  ofRat bytes.toNat * ofRat 8 / elapsedSecs / ofRat 1000000

/-- The measured throughput of a test, as it is sent back. -/
structure Result (F : Type*) where
  testId : UInt32
  achievedMbps : F

/-! ## The receiver of a link -/

structure ThroughputTestReceiveState where
  testId : Option UInt32
  firstSeen : Instant
  lastDataAt : Option Instant
  bytesSeen : UInt64
  lastCompletedTestId : Option UInt32

def ThroughputTestReceiveState.new (now : Instant) : ThroughputTestReceiveState where
  testId := none
  firstSeen := now
  lastDataAt := none
  bytesSeen := 0
  lastCompletedTestId := none

/-- A decrypted frame, with the length it had and the clock readings its handling takes: one
for a new stream, one for the packet. -/
structure Frame where
  plaintext : Bytes
  frameLen : UInt64
  startedAt : Instant
  arrivedAt : Instant

def receiveElapsedSecs (firstSeen : Instant) (lastDataAt : Option Instant)
    (doneArrivedAt : Instant) : F :=
  asSecsF64 (lastDataAt.getD doneArrivedAt - firstSeen)

/-- `ThroughputTestData` in `handle_incoming`, once decoded. -/
def receiveData (state : ThroughputTestReceiveState) (frame : Frame)
    (data : ThroughputTestDataPayload) : ThroughputTestReceiveState × Option (Result F) :=
  if state.lastCompletedTestId = some data.testId then (state, none)
  else
    let state := if state.testId ≠ some data.testId then
        { state with testId := some data.testId, firstSeen := frame.startedAt
                     lastDataAt := none, bytesSeen := 0 }
      else state
    let state := { state with bytesSeen := state.bytesSeen + frame.frameLen }
    let state := if !data.done then { state with lastDataAt := some frame.arrivedAt } else state
    if data.done then
      let elapsedSecs : F :=
        receiveElapsedSecs state.firstSeen state.lastDataAt frame.arrivedAt
      let achievedMbps := computeAchievedMbps state.bytesSeen elapsedSecs
      ({ state with testId := none, lastCompletedTestId := some data.testId },
        some ⟨data.testId, achievedMbps⟩)
    else (state, none)

/-- A frame that does not decode is dropped. -/
def receive (state : ThroughputTestReceiveState) (frame : Frame) :
    ThroughputTestReceiveState × Option (Result F) :=
  match ThroughputTestDataPayload.decode frame.plaintext with
  | .ok (.ok data) => receiveData state frame data
  | _ => (state, none)

/-- The test that a frame is a last packet of. -/
def frameDone (frame : Frame) : Option UInt32 :=
  match ThroughputTestDataPayload.decode frame.plaintext with
  | .ok (.ok data) => if data.done then some data.testId else none
  | _ => none

/-! ## The listener of the tunnel -/

def TUNNEL_TEST_PORT : UInt16 := 34551
def HEADER_LEN : Nat := 4 + 1 + 4 + 8
def FLAG_DONE : UInt8 := 0b01
def FLAG_BIDIRECTIONAL_REQUESTED : UInt8 := 0b10

structure DataPayload where
  testId : UInt32
  done : Bool
  bidirectionalRequested : Bool
  durationSecs : UInt32
  senderQueueDrops : UInt64
deriving Repr, DecidableEq

namespace DataPayload

def encodePadded (p : DataPayload) (totalLen : Nat) : Bytes :=
  let flags := (if p.done then FLAG_DONE else 0) |||
    (if p.bidirectionalRequested then FLAG_BIDIRECTIONAL_REQUESTED else 0)
  bigEndian 4 p.testId.toNat ++ [flags] ++ bigEndian 4 p.durationSecs.toNat ++
    bigEndian 8 p.senderQueueDrops.toNat ++ List.replicate (totalLen - HEADER_LEN) 0

def decode (buf : Bytes) : Option DataPayload :=
  if buf.length < HEADER_LEN then none
  else
    let flags := buf.getD 4 0
    some
      { testId := UInt32.ofNat (readBigEndian (slice buf 0 4))
        done := flags &&& FLAG_DONE ≠ 0
        bidirectionalRequested := flags &&& FLAG_BIDIRECTIONAL_REQUESTED ≠ 0
        durationSecs := UInt32.ofNat (readBigEndian (slice buf 5 9))
        senderQueueDrops := UInt64.ofNat (readBigEndian (slice buf 9 17)) }

end DataPayload

structure SocketAddr where
  ip : Nat
  port : UInt16
deriving Repr, DecidableEq

/-- The listener's `ReceiveState`, with the waiters of `TunnelTestContext`. -/
structure ReceiveState where
  testId : Option UInt32
  firstSeen : Instant
  bytesSeen : UInt64
  lastCompletedTestId : Option UInt32
  waiters : Finset UInt32

def ReceiveState.new (now : Instant) : ReceiveState where
  testId := none
  firstSeen := now
  bytesSeen := 0
  lastCompletedTestId := none
  waiters := ∅

structure Datagram where
  buf : Bytes
  source : SocketAddr
  startedAt : Instant
  arrivedAt : Instant

/-- What the listener sees: a test of our own registers for its reverse leg, when waiters that
have given up go, or a datagram arrives. -/
inductive Event where
  | registerWait (testId : UInt32) (closed : Finset UInt32)
  | receive (datagram : Datagram)

/-- A stream that is sent back. -/
structure ReverseStream where
  target : SocketAddr
  durationSecs : UInt32
deriving Repr, DecidableEq

/-- A completed test goes to its waiter, or is answered and may start a reverse stream. -/
inductive Outcome (F : Type*) where
  | forwarded (result : Result F) (peerQueueDrops : UInt64)
  | replied (result : Result F) (recipient : SocketAddr) (reverse : Option ReverseStream)

def Outcome.testId : Outcome F → UInt32
  | .forwarded result _ => result.testId
  | .replied result _ _ => result.testId

/-- The test of the reverse stream that an outcome starts, which has the id of the test. -/
def Outcome.reverseTestId : Outcome F → Option UInt32
  | .replied result _ (some _) => some result.testId
  | _ => none

/-- The loop body of `run_listener`, once decoded. -/
def listenData (state : ReceiveState) (datagram : Datagram) (data : DataPayload) :
    ReceiveState × Option (Outcome F) :=
  if state.lastCompletedTestId = some data.testId then (state, none)
  else
    let state := if state.testId ≠ some data.testId then
        { state with testId := some data.testId, firstSeen := datagram.startedAt, bytesSeen := 0 }
      else state
    let state := { state with bytesSeen := state.bytesSeen + datagram.buf.length.toUInt64 }
    if !data.done then (state, none)
    else
      let elapsedSecs : F := asSecsF64 (datagram.arrivedAt - state.firstSeen)
      let result : Result F := ⟨data.testId, computeAchievedMbps state.bytesSeen elapsedSecs⟩
      let state := { state with testId := none, lastCompletedTestId := some data.testId }
      if data.testId ∈ state.waiters then
        ({ state with waiters := state.waiters.erase data.testId },
          some (.forwarded result data.senderQueueDrops))
      else
        let reverse := if data.bidirectionalRequested then
            some { target := ⟨datagram.source.ip, TUNNEL_TEST_PORT⟩
                   durationSecs := data.durationSecs }
          else none
        (state, some (.replied result datagram.source reverse))

def listen (state : ReceiveState) : Event → ReceiveState × Option (Outcome F)
  | .registerWait testId closed =>
      ({ state with waiters := insert testId (state.waiters \ closed) }, none)
  | .receive datagram =>
      match DataPayload.decode datagram.buf with
      | some data => listenData state datagram data
      | none => (state, none)

/-- The test that an event is a last packet of. -/
def eventDone : Event → Option UInt32
  | .registerWait _ _ => none
  | .receive datagram =>
      match DataPayload.decode datagram.buf with
      | some data => if data.done then some data.testId else none
      | none => none

/-! ## Both remember the last test -/

/-- What a packet of the test `testId` does to the test completed last, `before`, and what it
answers. -/
inductive Handled {ρ : Type*} (name : ρ → UInt32) (testId : UInt32) (done : Bool)
    (before after : Option UInt32) (answer : Option ρ) : Prop where
  | passed (why : done = false ∨ before = some testId) (same : after = before)
      (silent : answer = none)
  | completed (done : done = true) (fresh : before ≠ some testId) (noted : after = some testId)
      (answered : ∃ r, answer = some r ∧ name r = testId)

theorem receiveData_handled (state : ThroughputTestReceiveState) (frame : Frame)
    (data : ThroughputTestDataPayload) :
    Handled (Result.testId (F := F)) data.testId data.done state.lastCompletedTestId
      (receiveData (F := F) state frame data).1.lastCompletedTestId
      (receiveData state frame data).2 := by
  unfold receiveData
  by_cases hlast : state.lastCompletedTestId = some data.testId
  · rw [if_pos hlast]
    exact .passed (Or.inr hlast) rfl rfl
  · rw [if_neg hlast]
    cases hdone : data.done with
    | true => exact .completed rfl hlast rfl ⟨_, rfl, rfl⟩
    | false =>
      refine .passed (Or.inl rfl) ?_ rfl
      by_cases hstream : state.testId = some data.testId
      · simp [hstream]
      · simp [hstream]

theorem listenData_handled (state : ReceiveState) (datagram : Datagram) (data : DataPayload) :
    Handled (Outcome.testId (F := F)) data.testId data.done state.lastCompletedTestId
      (listenData (F := F) state datagram data).1.lastCompletedTestId
      (listenData state datagram data).2 := by
  unfold listenData
  by_cases hlast : state.lastCompletedTestId = some data.testId
  · rw [if_pos hlast]
    exact .passed (Or.inr hlast) rfl rfl
  · rw [if_neg hlast]
    cases hdone : data.done with
    | true =>
      dsimp only
      rw [if_neg (show ¬(!true) = true by decide)]
      -- A new stream or the current one; then a waiter or none.
      split <;> split
      all_goals
        refine .completed rfl hlast rfl ⟨_, rfl, ?_⟩
        rfl
    | false =>
      refine .passed (Or.inl rfl) ?_ rfl
      by_cases hstream : state.testId = some data.testId
      · simp [hstream]
      · simp [hstream]

/-- A machine whose packets are handled so remembers the last test. -/
theorem remembers_of_handled {σ ι ρ : Type*} {step : σ → ι → σ × Option ρ}
    {seen : σ → Option UInt32} {item : ι → Option UInt32} {name : ρ → UInt32}
    (h : ∀ s i, (item i = none ∧ (step s i).2 = none ∧ seen (step s i).1 = seen s) ∨
      ∃ testId done, item i = (if done then some testId else none) ∧
        Handled name testId done (seen s) (seen (step s i).1) (step s i).2) :
    Remembers step seen item name where
  quiet s i hitem := by
    rcases h s i with ⟨-, hquiet⟩ | ⟨testId, done, hdone, hhandled⟩
    · exact hquiet
    · rw [hitem] at hdone
      cases hhandled with
      | passed _ hsame hsilent => exact ⟨hsilent, hsame⟩
      | completed htrue =>
        rw [if_pos htrue] at hdone
        cases hdone
  again s i a hitem hseen := by
    rcases h s i with ⟨hnone, hquiet⟩ | ⟨testId, done, hdone, hhandled⟩
    · exact hquiet
    · cases hhandled with
      | passed _ hsame hsilent => exact ⟨hsilent, hsame⟩
      | completed htrue hfresh =>
        rw [hitem, if_pos htrue] at hdone
        exact absurd (Option.some.inj hdone ▸ hseen) hfresh
  fresh s i a hitem hseen := by
    rcases h s i with ⟨hnone, -⟩ | ⟨testId, done, hdone, hhandled⟩
    · exact absurd (hitem.symm.trans hnone) (by simp)
    · rw [hitem] at hdone
      cases hhandled with
      | passed hover =>
        cases done with
        | false => cases hdone
        | true =>
          rcases hover with hfalse | hsame
          · cases hfalse
          · exact absurd (Option.some.inj hdone ▸ hsame) hseen
      | completed htrue _ hnoted hanswered =>
        rw [if_pos htrue] at hdone
        cases hdone
        exact ⟨hanswered, hnoted⟩

theorem remembers_receive : Remembers (receive (F := F))
    ThroughputTestReceiveState.lastCompletedTestId frameDone Result.testId := by
  refine remembers_of_handled fun state frame => ?_
  unfold receive frameDone
  split
  case h_1 data _ =>
    exact Or.inr ⟨data.testId, data.done, rfl, receiveData_handled state frame data⟩
  case h_2 => exact Or.inl ⟨rfl, rfl, rfl⟩

theorem remembers_listen : Remembers (listen (F := F)) ReceiveState.lastCompletedTestId eventDone
    Outcome.testId := by
  refine remembers_of_handled fun state event => ?_
  cases event with
  | registerWait testId closed => exact Or.inl ⟨rfl, rfl, rfl⟩
  | receive datagram =>
    unfold listen eventDone
    dsimp only
    split
    case h_1 data _ =>
      exact Or.inr ⟨data.testId, data.done, rfl, listenData_handled state datagram data⟩
    case h_2 => exact Or.inl ⟨rfl, rfl, rfl⟩

/-! ## Results and reverse streams -/

/-- The tests that a link's receiver gives a result, in order. -/
def linkResults (F : Type*) [Floating F] (now : Instant) (frames : List Frame) : List UInt32 :=
  (answers (receive (F := F)) (.new now) frames).map Result.testId

/-- The tests that the listener completes, in order. -/
def listenerResults (F : Type*) [Floating F] (now : Instant) (events : List Event) :
    List UInt32 :=
  (answers (listen (F := F)) (.new now) events).map Outcome.testId

/-- The tests that the listener starts a reverse stream for, in order. -/
def reverseStreams (F : Type*) [Floating F] (now : Instant) (events : List Event) : List UInt32 :=
  (answers (listen (F := F)) (.new now) events).filterMap Outcome.reverseTestId

omit [Floating F] in
/-- A reverse stream is started along with a result. -/
theorem reverseTestId_sublist (outcomes : List (Outcome F)) :
    (outcomes.filterMap Outcome.reverseTestId).Sublist (outcomes.map Outcome.testId) := by
  induction outcomes with
  | nil => exact List.Sublist.refl _
  | cons outcome outcomes ih =>
    cases hreverse : outcome.reverseTestId with
    | none =>
      rw [List.filterMap_cons_none hreverse, List.map_cons]
      exact ih.cons _
    | some testId =>
      rw [List.filterMap_cons_some hreverse, List.map_cons]
      have hsame : outcome.testId = testId := by
        unfold Outcome.reverseTestId at hreverse
        split at hreverse
        · exact Option.some.inj hreverse
        · cases hreverse
      rw [hsame]
      exact ih.cons_cons _

/-- Whatever arrives, at either receiver: each test gets at most one result, and at most one
reverse stream, exactly when the last packets of each test come in one block. -/
theorem one_result_iff (now : Instant) (frames : List Frame) (events : List Event) :
    ((∀ testId, (linkResults F now frames).count testId ≤ 1) ↔
        InBlocks (frames.filterMap frameDone)) ∧
      ((∀ testId, (listenerResults F now events).count testId ≤ 1 ∧
          (reverseStreams F now events).count testId ≤ 1) ↔
        InBlocks (events.filterMap eventDone)) := by
  constructor
  · rw [← List.nodup_iff_count_le_one]
    exact remembers_receive.nodup_answers_iff rfl frames
  · rw [← (remembers_listen (F := F)).nodup_answers_iff (s := .new now) rfl events,
      List.nodup_iff_count_le_one]
    constructor
    · exact fun h testId => (h testId).1
    · exact fun h testId => ⟨h testId,
        ((reverseTestId_sublist _).count_le testId).trans (h testId)⟩

/-- A packet of the test `testId` on a link. -/
def testFrame (testId : UInt32) (done : Bool) (arrivedAt : Instant) : Frame where
  plaintext := (ThroughputTestDataPayload.mk testId done).encodePadded 1400
  frameLen := 1449
  startedAt := arrivedAt
  arrivedAt

/-- A last packet of a test in both directions, to the listener. -/
def testDatagram (testId : UInt32) (arrivedAt : Instant) : Event :=
  .receive
    { buf := (DataPayload.mk testId true true 10 0).encodePadded 1352
      source := ⟨testId.toNat, 40000⟩
      startedAt := arrivedAt
      arrivedAt }

/-- Two tests end 100 ms apart, and a copy of the first one's last packet comes after both:
on a link the first gets two results, and the listener starts two reverse streams for it. -/
theorem second_result :
    linkResults ℚ 0 [testFrame 1 false 0, testFrame 2 false 1000000, testFrame 1 true 1000000000,
        testFrame 2 true 1100000000, testFrame 1 true 1250000000] = [1, 2, 1] ∧
      reverseStreams ℚ 0 [testDatagram 1 1000000000, testDatagram 2 1100000000,
        testDatagram 1 1500000000] = [1, 2, 1] := by
  decide +kernel

end Mlvpn.Ports.ThroughputTests
