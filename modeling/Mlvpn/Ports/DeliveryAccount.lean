import Mlvpn.Ports.Delivery
import Mlvpn.Ports.TunnelMtu

/-!
# Both ends of the delivery account

`delivery_loop` judges a link by two byte counters that are kept on two hosts.  The
sender's `tx_bytes` grows in `link_tx_worker`, by the frames of a whole batch at a time;
the receiver's `rx_bytes` grows in `handle_incoming`, is read when the receiver sends a
`StatsShare` report, and is stored next to the `tx_bytes` of the moment the report arrives.
This module runs one link with both ends: the worker, the wire, the receiver, the reports
under way, the stored one, the link's `ReportWindow` and its `DeliveryTracker`.

The worker counts every frame it sends.  The receiver counts data frames only, so the two
counters of a link that loses nothing drift apart by the parity frames it carries; and what
is sent while a report is under way counts on one side of it only.

## Main results

* `lossless_account`: with nothing in flight and nothing unrecorded, the counters have
  grown alike exactly when the parity frames sent come to no bytes modulo `2 ^ 64`; and
  on a link that carries no parity, and sends nothing while a report is under way, no window
  shows a shortfall and no cut is made.
* `lossless_link_cut`: a link cut for its parity, and one cut for what it sent meanwhile.
-/

namespace Mlvpn.Ports.DeliveryAccount

open Verified Delivery
open FecRecovery (Instant)
open Protocol (PacketType)
open TunnelMtu (HEADER_LEN)
open Verified.Floating (ofRat)

/-! ## Frames and their bytes -/

/-- What the counters see of a frame: its type and `plaintext.len()`. -/
structure Frame where
  ptype : PacketType
  len : Nat
deriving Repr, DecidableEq

/-- The length of header and plaintext together, on both ends. -/
def Frame.wireLen (f : Frame) : Nat := HEADER_LEN.toNat + f.len

def wireBytes (frames : List Frame) : Nat := (frames.map Frame.wireLen).sum

def dataBytes (frames : List Frame) : Nat := wireBytes (frames.filter (·.ptype = .Data))

def parityBytes (frames : List Frame) : Nat := wireBytes (frames.filter (·.ptype ≠ .Data))

variable {fs : List Frame}

@[simp] theorem wireBytes_nil : wireBytes [] = 0 := rfl

@[simp] theorem dataBytes_nil : dataBytes [] = 0 := rfl

@[simp] theorem wireBytes_append (fs gs : List Frame) :
    wireBytes (fs ++ gs) = wireBytes fs + wireBytes gs := by
  simp [wireBytes]

@[simp] theorem dataBytes_append (fs gs : List Frame) :
    dataBytes (fs ++ gs) = dataBytes fs + dataBytes gs := by
  simp [dataBytes]

theorem wireBytes_perm {gs : List Frame} (h : fs.Perm gs) : wireBytes fs = wireBytes gs :=
  (h.map Frame.wireLen).sum_eq

theorem wireBytes_eq (fs : List Frame) : wireBytes fs = dataBytes fs + parityBytes fs := by
  have hsplit := wireBytes_perm (List.filter_append_perm (·.ptype = .Data) fs)
  rw [wireBytes_append] at hsplit
  simpa [dataBytes, parityBytes] using hsplit.symm

theorem parityBytes_eq_zero (hdata : ∀ f ∈ fs, f.ptype = .Data) : parityBytes fs = 0 := by
  have hnone : fs.filter (·.ptype ≠ .Data) = [] := by
    refine List.filter_eq_nil_iff.mpr fun f hf => ?_
    simp [hdata f hf]
  rw [parityBytes, hnone, wireBytes_nil]

/-- A frame taken out of the list takes its data bytes with it. -/
theorem dataBytes_eraseIdx {k : Nat} {f : Frame} (h : fs[k]? = some f) :
    dataBytes fs = dataBytes [f] + dataBytes (fs.eraseIdx k) := by
  obtain ⟨hk, rfl⟩ := List.getElem?_eq_some_iff.mp h
  have hperm := (List.getElem_cons_eraseIdx_perm hk).filter (·.ptype = .Data)
  rw [← dataBytes_append]
  exact (wireBytes_perm hperm).symm

/-! ## A tracker that sees no shortfall -/

section

variable {F : Type*} [Floating F] {t : DeliveryTracker F} {now : Instant}

/-- Full weight, as after start-up. -/
structure Uncut (t : DeliveryTracker F) : Prop where
  factor : t.factor = ofRat 1
  phase : t.phase = .Normal

theorem Uncut.endHold (h : Uncut t) : Uncut (t.endHold now) := by
  rw [DeliveryTracker.endHold, if_neg (by simp [h.phase])]
  exact h

theorem Uncut.grow (h : Uncut t) (dt : F) (idle : Bool) : Uncut (t.grow now dt idle) := by
  rw [DeliveryTracker.grow, if_neg (by simp [h.phase])]
  exact h

theorem Uncut.forgive (h : Uncut t) : Uncut (t.forgive now) := by
  rw [DeliveryTracker.forgive]
  split
  · exact ⟨h.factor, h.phase⟩
  · exact h

/-- A window is bad only with a shortfall, and only a bad window cuts. -/
theorem Uncut.evaluateWindow (h : Uncut t) {d : DeliverySample F}
    (hmet : ¬(MIN_SHORTFALL_MBPS : F) ≤ d.offeredMbps - d.deliveredMbps) :
    Uncut (t.evaluateWindow now d) := by
  rw [DeliveryTracker.evaluateWindow]
  split
  · exact ⟨h.factor, h.phase⟩
  · simp only [hmet, decide_false, Bool.and_false, Bool.false_eq_true, false_and, if_false]
    exact ⟨h.factor, h.phase⟩

theorem Uncut.fold (h : Uncut t) {sample : Option (DeliverySample F)}
    (hmet : ∀ d ∈ sample, ¬(MIN_SHORTFALL_MBPS : F) ≤ d.offeredMbps - d.deliveredMbps) :
    Uncut (t.fold now sample) := by
  cases sample with
  | none => exact ⟨h.factor, h.phase⟩
  | some d =>
    rw [DeliveryTracker.fold]
    split
    · have hstamped : Uncut { t with lastStamp := some d.stamp } := ⟨h.factor, h.phase⟩
      exact hstamped.evaluateWindow (hmet d rfl)
    · exact h

theorem Uncut.observe (h : Uncut t) {sample : Option (DeliverySample F)}
    (hmet : ∀ d ∈ sample, ¬(MIN_SHORTFALL_MBPS : F) ≤ d.offeredMbps - d.deliveredMbps) :
    Uncut (t.observe now sample) := by
  have hticked : Uncut { t with lastTick := some now } := ⟨h.factor, h.phase⟩
  exact ((hticked.endHold.fold hmet).grow _ _).forgive

end

/-! ## Windows between matching reports -/

/-- The report's two counters have grown alike since `tx` and `rx`. -/
def Balanced (tx rx : UInt64) (r : Report) : Prop := r.localTxBytes - tx = r.peerRxBytes - rx

/-- Between two such reports as much has been received as sent. -/
theorem Balanced.delta {tx rx : UInt64} {r r' : Report} (h : Balanced tx rx r)
    (h' : Balanced tx rx r') :
    r'.localTxBytes - r.localTxBytes = r'.peerRxBytes - r.peerRxBytes := by
  rw [Balanced] at h h'
  calc r'.localTxBytes - r.localTxBytes
      = (r'.localTxBytes - tx) - (r.localTxBytes - tx) := by grind
    _ = (r'.peerRxBytes - rx) - (r.peerRxBytes - rx) := by rw [h, h']
    _ = r'.peerRxBytes - r.peerRxBytes := by grind

section

variable {F : Type*}

/-- The window's reports match, and so do the two rates of its sample. -/
structure Level (tx rx : UInt64) (w : ReportWindow F) : Prop where
  prev : ∀ r ∈ w.prev, Balanced tx rx r
  last : ∀ d ∈ w.last, d.deliveredMbps = d.offeredMbps

theorem Level.reset {tx rx : UInt64} (w : ReportWindow F) : Level tx rx w.reset :=
  ⟨by simp [ReportWindow.reset], by simp [ReportWindow.reset]⟩

theorem Level.observe [Floating F] {tx rx : UInt64} {w : ReportWindow F} (h : Level tx rx w)
    {r : Report} (hr : Balanced tx rx r) :
    Level tx rx (w.observe r).1 ∧ ∀ d ∈ (w.observe r).2, d.deliveredMbps = d.offeredMbps := by
  have hsome : ∀ r' ∈ some r, Balanced tx rx r' := by
    rintro r' ⟨⟩
    exact hr
  rw [ReportWindow.observe]
  cases hprev : w.prev with
  | none => exact ⟨⟨hsome, h.last⟩, by simp⟩
  | some prev =>
    simp only
    split
    · exact ⟨h, h.last⟩
    · split
      · exact ⟨⟨hsome, by simp⟩, by simp⟩
      · -- the two rates are one term once the byte deltas are
        have hdelta := (h.prev prev hprev).delta hr
        have hrates : ∀ d ∈ some (DeliverySample.mk
            (ReportWindow.mbps (r.stamp - prev.stamp) (r.localTxBytes - prev.localTxBytes))
            (ReportWindow.mbps (r.stamp - prev.stamp) (r.peerRxBytes - prev.peerRxBytes))
            r.stamp : DeliverySample F), d.deliveredMbps = d.offeredMbps := by
          rintro d ⟨⟩
          rw [hdelta]
        exact ⟨⟨hsome, hrates⟩, hrates⟩

end

/-! ## The link and its two hosts -/

def TX_WORKER_BATCH : Nat := 32

/-- A `StatsShare` report under way: the counter that was read, and how many frames had been
sent by then. -/
structure Share where
  rxBytes : UInt64
  sentBefore : Nat
deriving Repr, DecidableEq

structure Channel (F : Type*) where
  /-- The sender's `LinkStats`. -/
  txBytes : UInt64
  txPackets : UInt64
  /-- What the worker has sent of its batch, before `record_tx_many`. -/
  unrecorded : List Frame
  inFlight : List Frame
  /-- The receiver's `LinkStats`. -/
  rxBytes : UInt64
  rxPackets : UInt64
  shares : List Share
  /-- The sender's entry of `PeerStatsTable`. -/
  report : Option Report
  window : ReportWindow F
  tracker : DeliveryTracker F
  /-- Every frame the worker has sent. -/
  sent : List Frame

inductive Action where
  /-- `wg_send_parts` for one frame: `Ok(carried)`, or an error. -/
  | send (frame : Frame) (result : Option Bool)
  /-- The end of the worker's batch. -/
  | recordBatch
  /-- The datagram at place `k` of those in flight gets to `handle_incoming`. -/
  | arrive (k : Nat)
  /-- `send_stats_share` of the peer reads its counter. -/
  | share
  /-- The report at place `k` of those under way gets to `handle_incoming`, which puts it into
  the table with the counter of its own. -/
  | report (k : Nat) (receivedAt : Instant)
  /-- `delivery_loop` looks at the link; both ends are up and the link is not idle, or not. -/
  | tick (usable : Bool) (now : Instant)
deriving Repr, DecidableEq

namespace Channel

variable {F : Type*} [Floating F]

def start (tx rx : UInt64) : Channel F where
  txBytes := tx
  txPackets := 0
  unrecorded := []
  inFlight := []
  rxBytes := rx
  rxPackets := 0
  shares := []
  report := none
  window := ⟨none, none⟩
  tracker := .default
  sent := []

/-- A frame on the wire, unless a handshake went out in its place. -/
def send (s : Channel F) (frame : Frame) (carried : Bool) : Channel F :=
  { s with
    unrecorded := s.unrecorded ++ [frame]
    inFlight := if carried then s.inFlight ++ [frame] else s.inFlight
    sent := s.sent ++ [frame] }

def recordTxMany (s : Channel F) (bytes packets : UInt64) : Channel F :=
  { s with txBytes := s.txBytes + bytes, txPackets := s.txPackets + packets }

def recordRx (s : Channel F) (bytes : UInt64) : Channel F :=
  { s with rxBytes := s.rxBytes + bytes, rxPackets := s.rxPackets + 1 }

/-- The part of `handle_incoming` that every frame goes through. -/
def handleIncoming (s : Channel F) (frame : Frame) : Channel F :=
  if frame.ptype = .Data then s.recordRx (UInt64.ofNat frame.wireLen) else s

/-- The sample of one tick of `delivery_loop`. -/
def sample (s : Channel F) (usable : Bool) : ReportWindow F × Option (DeliverySample F) :=
  match s.report with
  | some r => if usable then s.window.observe r else (s.window.reset, none)
  | none => (s.window.reset, none)

def step (s : Channel F) : Action → Channel F × Option (DeliverySample F)
  | .send frame result =>
      match result with
      | some carried =>
          if s.unrecorded.length < TX_WORKER_BATCH then (s.send frame carried, none)
          else (s, none)
      | none => (s, none)
  | .recordBatch =>
      -- `checked_div(pkts)` has an answer: something of the batch was sent
      let pkts := UInt64.ofNat s.unrecorded.length
      let s' := if pkts ≠ 0 then s.recordTxMany (UInt64.ofNat (wireBytes s.unrecorded)) pkts else s
      ({ s' with unrecorded := [] }, none)
  | .arrive k =>
      match s.inFlight[k]? with
      | some frame => ({ s with inFlight := s.inFlight.eraseIdx k }.handleIncoming frame, none)
      | none => (s, none)
  | .share => ({ s with shares := s.shares ++ [⟨s.rxBytes, s.sent.length⟩] }, none)
  | .report k receivedAt =>
      match s.shares[k]? with
      | some share =>
          ({ s with shares := s.shares.eraseIdx k
                    report := some ⟨receivedAt, share.rxBytes, s.txBytes⟩ }, none)
      | none => (s, none)
  | .tick usable now =>
      let (window, sample) := s.sample usable
      ({ s with window, tracker := s.tracker.observe now sample }, sample)

/-- No frame of the link is on its way or waits to be counted. -/
def AtRest (s : Channel F) : Prop := s.inFlight = [] ∧ s.unrecorded = []

instance (s : Channel F) : Decidable s.AtRest :=
  inferInstanceAs (Decidable (_ ∧ _))

/-- The link loses nothing, and the peer reads its counter only while it is at rest.  Every
datagram in flight arrives at most once by the step itself, and has arrived once at rest. -/
def Lossless (s : Channel F) : Action → Prop
  | .send _ result => result ≠ some false
  | .share => s.AtRest
  | _ => True

/-- Nothing was sent between the reading of a report and its arrival. -/
def Prompt (s : Channel F) : Action → Prop
  | .report k _ => ∀ share ∈ s.shares[k]?, share.sentBefore = s.sent.length
  | _ => True

instance (s : Channel F) : (a : Action) → Decidable (s.Lossless a)
  | .send _ result => inferInstanceAs (Decidable (result ≠ some false))
  | .share => inferInstanceAs (Decidable s.AtRest)
  | .recordBatch | .arrive _ | .report _ _ | .tick _ _ => inferInstanceAs (Decidable True)

instance (s : Channel F) : (a : Action) → Decidable (s.Prompt a)
  | .report k _ => inferInstanceAs
      (Decidable (∀ share ∈ s.shares[k]?, share.sentBefore = s.sent.length))
  | .send _ _ | .recordBatch | .arrive _ | .share | .tick _ _ => inferInstanceAs (Decidable True)

abbrev LosslessRun (s : Channel F) (actions : List Action) : Prop :=
  Mealy.Along step (fun _ s a => s.Lossless a) [] s actions

abbrev PromptRun (s : Channel F) (actions : List Action) : Prop :=
  Mealy.Along step (fun _ s a => s.Prompt a) [] s actions

def run (s : Channel F) (actions : List Action) : Channel F := Mealy.run step s actions

/-- The samples of `delivery_loop` over the run. -/
def samples (s : Channel F) (actions : List Action) : List (DeliverySample F) :=
  (Mealy.log step s actions).filterMap Prod.snd

/-! ## What a step does -/

/-- What a step can do.  A frame that arrives changes the receiver's counters at most. -/
inductive Does (s : Channel F) : Action → Channel F × Option (DeliverySample F) → Prop
  | nothing {a : Action} : Does s a (s, none)
  | sends {frame : Frame} {carried : Bool} (hroom : s.unrecorded.length < TX_WORKER_BATCH) :
      Does s (.send frame (some carried)) (s.send frame carried, none)
  | records {txBytes txPackets : UInt64} (hbytes : UInt64.ofNat s.unrecorded.length = 0 ∧
        txBytes = s.txBytes ∨ txBytes = s.txBytes + UInt64.ofNat (wireBytes s.unrecorded)) :
      Does s .recordBatch ({ s with txBytes, txPackets, unrecorded := [] }, none)
  | arrives {k : Nat} {frame : Frame} {rxBytes rxPackets : UInt64}
      (hk : s.inFlight[k]? = some frame)
      (hbytes : rxBytes =
        if frame.ptype = .Data then s.rxBytes + UInt64.ofNat frame.wireLen else s.rxBytes) :
      Does s (.arrive k)
        ({ s with inFlight := s.inFlight.eraseIdx k, rxBytes, rxPackets }, none)
  | shares : Does s .share ({ s with shares := s.shares ++ [⟨s.rxBytes, s.sent.length⟩] }, none)
  | reports {k : Nat} {receivedAt : Instant} {share : Share} (hk : s.shares[k]? = some share) :
      Does s (.report k receivedAt)
        ({ s with shares := s.shares.eraseIdx k
                  report := some ⟨receivedAt, share.rxBytes, s.txBytes⟩ }, none)
  | ticks (usable : Bool) (now : Instant) : Does s (.tick usable now)
      ({ s with window := (s.sample usable).1
                tracker := s.tracker.observe now (s.sample usable).2 }, (s.sample usable).2)

theorem step_does (s : Channel F) (a : Action) : Does s a (s.step a) := by
  cases a with
  | send frame result =>
    cases result with
    | none => exact .nothing
    | some carried =>
      unfold step
      dsimp only
      split
      case isTrue hroom => exact .sends hroom
      case isFalse => exact .nothing
  | recordBatch =>
    by_cases hpkts : UInt64.ofNat s.unrecorded.length = 0
    · simp only [step, hpkts, ne_eq, not_true_eq_false, if_false]
      exact .records (.inl ⟨hpkts, rfl⟩)
    · simp only [step, ne_eq, hpkts, not_false_eq_true, if_true]
      exact .records (.inr rfl)
  | arrive k =>
    unfold step
    dsimp only
    split
    case h_1 frame hk =>
      unfold handleIncoming
      split
      case isTrue hdata => exact .arrives hk (if_pos hdata).symm
      case isFalse hdata => exact .arrives hk (if_neg hdata).symm
    case h_2 => exact .nothing
  | share => exact .shares
  | report k receivedAt =>
    unfold step
    dsimp only
    split
    case h_1 share hk => exact .reports hk
    case h_2 => exact .nothing
  | tick usable now => exact .ticks usable now

/-! ## The counters -/

/-- Both counters, with what is still to be added to them: the worker's by its batch, the
receiver's by the data frames in flight. -/
structure Conserved (tx rx : UInt64) (s : Channel F) : Prop where
  recorded : s.txBytes + UInt64.ofNat (wireBytes s.unrecorded) =
    tx + UInt64.ofNat (wireBytes s.sent)
  received : s.rxBytes + UInt64.ofNat (dataBytes s.inFlight) =
    rx + UInt64.ofNat (dataBytes s.sent)
  batch : s.unrecorded.length ≤ TX_WORKER_BATCH

variable {tx rx : UInt64} {s : Channel F}

omit [Floating F] in
theorem Conserved.send (h : s.Conserved tx rx) (frame : Frame)
    (hroom : s.unrecorded.length < TX_WORKER_BATCH) : (s.send frame true).Conserved tx rx where
  recorded := by
    show s.txBytes + UInt64.ofNat (wireBytes (s.unrecorded ++ [frame])) =
      tx + UInt64.ofNat (wireBytes (s.sent ++ [frame]))
    rw [wireBytes_append, wireBytes_append, UInt64.ofNat_add, UInt64.ofNat_add,
      ← UInt64.add_assoc, ← UInt64.add_assoc, h.recorded]
  received := by
    show s.rxBytes + UInt64.ofNat (dataBytes (s.inFlight ++ [frame])) =
      rx + UInt64.ofNat (dataBytes (s.sent ++ [frame]))
    rw [dataBytes_append, dataBytes_append, UInt64.ofNat_add, UInt64.ofNat_add,
      ← UInt64.add_assoc, ← UInt64.add_assoc, h.received]
  batch := by
    show (s.unrecorded ++ [frame]).length ≤ TX_WORKER_BATCH
    rw [List.length_append]
    exact hroom

omit [Floating F] in
/-- A batch that is recorded as nothing was empty: it never holds `2 ^ 64` frames. -/
theorem unrecorded_eq_nil (hbatch : s.unrecorded.length ≤ TX_WORKER_BATCH)
    (hpkts : UInt64.ofNat s.unrecorded.length = 0) : s.unrecorded = [] := by
  have hzero : s.unrecorded.length % 2 ^ 64 = 0 := by
    simpa using congrArg UInt64.toNat hpkts
  rw [TX_WORKER_BATCH] at hbatch
  exact List.length_eq_zero_iff.mp (by omega)

variable {a : Action} {r : Channel F × Option (DeliverySample F)}

theorem Conserved.step (h : s.Conserved tx rx) (ha : s.Lossless a) (hr : Does s a r) :
    r.1.Conserved tx rx := by
  cases hr with
  | nothing => exact h
  | @sends frame carried hroom =>
    obtain rfl : carried = true := by simpa [Lossless] using ha
    exact h.send frame hroom
  | records hbytes =>
    refine ⟨?_, h.received, Nat.zero_le _⟩
    show _ + UInt64.ofNat (wireBytes []) = _
    rw [← h.recorded, wireBytes_nil]
    rcases hbytes with ⟨hpkts, rfl⟩ | rfl
    · rw [unrecorded_eq_nil h.batch hpkts, wireBytes_nil]
    · exact UInt64.add_zero _
  | @arrives k frame _ _ hk hbytes =>
    refine ⟨h.recorded, ?_, h.batch⟩
    have hreceived := h.received
    rw [dataBytes_eraseIdx hk, UInt64.ofNat_add, ← UInt64.add_assoc] at hreceived
    rw [← hreceived, hbytes]
    -- a parity frame leaves the counter alone, and was not among the data in flight
    by_cases hdata : frame.ptype = .Data
    · simp [dataBytes, wireBytes, hdata]
    · simp [dataBytes, hdata]
  | shares => exact ⟨h.recorded, h.received, h.batch⟩
  | reports hk => exact ⟨h.recorded, h.received, h.batch⟩
  | ticks usable now => exact ⟨h.recorded, h.received, h.batch⟩

omit [Floating F] in
/-- At rest the growth of either counter is the bytes it has counted. -/
theorem Conserved.growth_of_atRest (h : s.Conserved tx rx) (hrest : s.AtRest) :
    s.txBytes - tx = UInt64.ofNat (wireBytes s.sent) ∧
      s.rxBytes - rx = UInt64.ofNat (dataBytes s.sent) := by
  have htx : s.txBytes = tx + UInt64.ofNat (wireBytes s.sent) := by
    simpa [hrest.2] using h.recorded
  have hrx : s.rxBytes = rx + UInt64.ofNat (dataBytes s.sent) := by
    simpa [hrest.1] using h.received
  constructor
  · rw [htx, UInt64.add_comm, UInt64.add_sub_cancel]
  · rw [hrx, UInt64.add_comm, UInt64.add_sub_cancel]

omit [Floating F] in
/-- The counters have grown alike when the parity frames come to no bytes. -/
theorem Conserved.growth_eq_iff (h : s.Conserved tx rx) (hrest : s.AtRest) :
    s.txBytes - tx = s.rxBytes - rx ↔ parityBytes s.sent % 2 ^ 64 = 0 := by
  obtain ⟨htx, hrx⟩ := h.growth_of_atRest hrest
  rw [htx, hrx, wireBytes_eq, ← UInt64.toNat_inj, UInt64.toNat_ofNat', UInt64.toNat_ofNat']
  omega

/-! ## Reports under way -/

/-- A report that nothing was sent after found the link at rest and is still true. -/
def Current (s : Channel F) : Prop :=
  ∀ share ∈ s.shares, share.sentBefore ≤ s.sent.length ∧
    (share.sentBefore = s.sent.length → s.AtRest ∧ share.rxBytes = s.rxBytes)

theorem Current.step (h : s.Current) (ha : s.Lossless a) (hr : Does s a r) : r.1.Current := by
  cases hr with
  | nothing => exact h
  | @sends frame =>
    intro share hshare
    have hbefore := (h share hshare).1
    show _ ≤ (s.sent ++ [frame]).length ∧ (_ = (s.sent ++ [frame]).length → _)
    rw [List.length_append, List.length_singleton]
    exact ⟨by omega, fun heq => by omega⟩
  | records =>
    exact fun share hshare => (h share hshare).imp_right fun hrest heq =>
      ⟨⟨(hrest heq).1.1, rfl⟩, (hrest heq).2⟩
  | arrives hk =>
    refine fun share hshare => (h share hshare).imp_right fun hrest heq => ?_
    rw [(hrest heq).1.1] at hk
    cases hk
  | shares =>
    intro share hshare
    rcases List.mem_append.mp hshare with hshare | hshare
    · exact h share hshare
    · rw [List.mem_singleton.mp hshare]
      exact ⟨le_refl _, fun _ => ⟨ha, rfl⟩⟩
  | reports => exact fun share hshare => h share (List.mem_of_mem_eraseIdx hshare)
  | ticks => exact h

/-! ## Lossless runs -/

/-- All that `delivery_loop` keeps of the link speaks for full delivery. -/
structure Clean (tx rx : UInt64) (s : Channel F) : Prop where
  report : ∀ r ∈ s.report, Balanced tx rx r
  window : Level tx rx s.window
  tracker : Uncut s.tracker

theorem Clean.sample (h : s.Clean tx rx) (usable : Bool) :
    Level tx rx (s.sample usable).1 ∧
      ∀ d ∈ (s.sample usable).2, d.deliveredMbps = d.offeredMbps := by
  rw [Channel.sample]
  cases hreport : s.report with
  | none => exact ⟨Level.reset s.window, by simp⟩
  | some r =>
    cases usable with
    | true => exact h.window.observe (h.report r hreport)
    | false => exact ⟨Level.reset s.window, by simp⟩

/-- `sent` only grows. -/
theorem sent_prefix_step (hr : Does s a r) : s.sent <+: r.1.sent := by
  cases hr with
  | sends => exact List.prefix_append _ _
  | _ => exact List.prefix_refl _

theorem Clean.step (h : s.Clean tx rx) (hconserved : s.Conserved tx rx) (hcurrent : s.Current)
    (hdata : ∀ f ∈ s.sent, f.ptype = .Data) (hshort : ∀ x : F, ¬MIN_SHORTFALL_MBPS ≤ x - x)
    (ha : s.Prompt a) (hr : Does s a r) :
    r.1.Clean tx rx ∧ ∀ d ∈ r.2, d.deliveredMbps = d.offeredMbps := by
  cases hr with
  | @reports k receivedAt share hk =>
    -- nothing was sent since the reading, so both counters are those of one moment at rest
    obtain ⟨hrest, hread⟩ := (hcurrent share (List.mem_of_getElem? hk)).2 (ha share hk)
    have hgrowth := (hconserved.growth_eq_iff hrest).mpr (by simp [parityBytes_eq_zero hdata])
    refine ⟨⟨?_, h.window, h.tracker⟩, by simp⟩
    rintro r ⟨⟩
    rw [← hread] at hgrowth
    exact hgrowth
  | ticks usable now =>
    obtain ⟨hlevel, hrates⟩ := h.sample usable
    refine ⟨⟨h.report, hlevel, h.tracker.observe ?_⟩, hrates⟩
    intro d hd
    rw [hrates d hd]
    exact hshort _
  | _ => exact ⟨⟨h.report, h.window, h.tracker⟩, by simp⟩

/-- The invariant of lossless runs, with the answers so far. -/
structure Sound (tx rx : UInt64) (h : List (Action × Option (DeliverySample F)))
    (s : Channel F) : Prop where
  conserved : s.Conserved tx rx
  current : s.Current
  clean : (∀ f ∈ s.sent, f.ptype = .Data) →
    s.Clean tx rx ∧ ∀ e ∈ h, ∀ d ∈ e.2, d.deliveredMbps = d.offeredMbps

theorem sound_start (tx rx : UInt64) : Sound tx rx [] (start tx rx : Channel F) where
  conserved := ⟨rfl, rfl, Nat.zero_le _⟩
  current := by simp [Current, start]
  clean _ := ⟨⟨by simp [start], ⟨by simp [start], by simp [start]⟩, rfl, rfl⟩, by simp⟩

theorem Sound.step (hshort : ∀ x : F, ¬MIN_SHORTFALL_MBPS ≤ x - x)
    {h : List (Action × Option (DeliverySample F))}
    (hs : Sound tx rx h s) (ha : s.Lossless a ∧ s.Prompt a) :
    Sound tx rx (h ++ [(a, (s.step a).2)]) (s.step a).1 where
  conserved := hs.conserved.step ha.1 (s.step_does a)
  current := hs.current.step ha.1 (s.step_does a)
  clean hdata := by
    have hbefore : ∀ f ∈ s.sent, f.ptype = .Data :=
      fun f hf => hdata f ((sent_prefix_step (s.step_does a)).subset hf)
    obtain ⟨hclean, hlog⟩ := hs.clean hbefore
    obtain ⟨hnext, hanswer⟩ :=
      hclean.step hs.conserved hs.current hbefore hshort ha.2 (s.step_does a)
    refine ⟨hnext, fun e he => ?_⟩
    rcases List.mem_append.mp he with he | he
    · exact hlog e he
    · rw [List.mem_singleton.mp he]
      exact hanswer

theorem sound_run (hshort : ∀ x : F, ¬MIN_SHORTFALL_MBPS ≤ x - x)
    {actions : List Action} (hlossless : (start tx rx : Channel F).LosslessRun actions)
    (hprompt : (start tx rx : Channel F).PromptRun actions) :
    Sound tx rx (Mealy.log step (start tx rx : Channel F) actions)
      ((start tx rx : Channel F).run actions) :=
  Mealy.invariant_along (fun _ _ _ hs ha => Sound.step hshort hs ha) (sound_start tx rx)
    (Mealy.along_and hlossless hprompt)

/-- The account of a link that loses nothing, over every run of its two hosts.  At rest the
counters have grown alike exactly when the parity frames sent come to no bytes; and while
the link carries data alone and sends nothing between the reading of a report and its
arrival, no sample falls short and the link keeps its full factor. -/
theorem lossless_account (hirrefl : ∀ x : F, ¬x < x)
    (hshort : ∀ x : F, ¬MIN_SHORTFALL_MBPS ≤ x - x) (tx rx : UInt64) (actions : List Action)
    (hlossless : (start tx rx : Channel F).LosslessRun actions) :
    (((start tx rx : Channel F).run actions).AtRest →
      (((start tx rx : Channel F).run actions).txBytes - tx =
          ((start tx rx : Channel F).run actions).rxBytes - rx ↔
        parityBytes ((start tx rx : Channel F).run actions).sent % 2 ^ 64 = 0)) ∧
    ((∀ f ∈ ((start tx rx : Channel F).run actions).sent, f.ptype = .Data) →
      (start tx rx : Channel F).PromptRun actions →
      (∀ d ∈ (start tx rx : Channel F).samples actions, ¬d.deliveredMbps < d.offeredMbps) ∧
      Uncut ((start tx rx : Channel F).run actions).tracker) := by
  have hconserved : ((start tx rx : Channel F).run actions).Conserved tx rx :=
    Mealy.invariant_along (I := fun _ s => s.Conserved tx rx)
      (fun _ s a h ha => h.step ha (s.step_does a)) (sound_start tx rx).conserved hlossless
  refine ⟨hconserved.growth_eq_iff, fun hdata hprompt => ?_⟩
  obtain ⟨hclean, hlog⟩ := (sound_run hshort hlossless hprompt).clean hdata
  refine ⟨fun d hd => ?_, hclean.tracker⟩
  obtain ⟨e, he, hed⟩ := List.mem_filterMap.mp hd
  rw [hlog e he d hed]
  exact hirrefl _

/-- Frames of 1400 bytes of the given types, in one batch that arrives in order. -/
def burst (ptypes : List PacketType) : List Action :=
  ptypes.map (fun ptype => .send ⟨ptype, 1400⟩ (some true)) ++
    .recordBatch :: ptypes.map fun _ => .arrive 0

/-- A report is read, frames are sent, it arrives, and the next tick finds it. -/
def reviewed (between : List PacketType) (receivedAt : Instant) : List Action :=
  .share :: burst between ++ [.report 0 receivedAt, .tick true receivedAt]

/-- Before the first frame. -/
abbrev idle : Channel ℚ := start 0 0

/-- Twelve data frames in a fifth of a second: offered and delivered agree. -/
theorem lossless_account_data :
    (idle.samples (reviewed [] 0 ++ burst (List.replicate 12 .Data) ++
      reviewed [] 200000000)).length = 1 ∧
      Uncut (idle.run (reviewed [] 0 ++ burst (List.replicate 12 .Data) ++
        reviewed [] 200000000)).tracker := by
  refine ⟨by decide +kernel, ?_⟩
  refine ((lossless_account ?_ ?_ 0 0 _ ?_).2 ?_ ?_).2
  · exact fun x => lt_irrefl x
  · intro x
    rw [sub_self]
    exact of_decide_eq_true (by decide +kernel)
  · decide +kernel
  · decide +kernel
  · decide +kernel

/-- Three groups of two data frames with P and Q, every fifth of a second. -/
def groups : List Action :=
  burst [.Data, .Data, .FecParity, .FecParityQ, .Data, .Data, .FecParity, .FecParityQ,
    .Data, .Data, .FecParity, .FecParityQ]

def grouped : List Action :=
  reviewed [] 0 ++ groups ++ reviewed [] 200000000 ++ groups ++ reviewed [] 400000000

/-- Twelve data frames; twelve more while a report is under way, and then twice as many. -/
def ramp : List Action :=
  reviewed [] 0 ++ burst (List.replicate 12 .Data) ++
    reviewed (List.replicate 12 .Data) 200000000 ++ reviewed (List.replicate 24 .Data) 400000000

/-- Nothing is lost, yet half the bytes sent are never counted at the far end: both windows
fall short, and the second one cuts the link's factor.  The same happens to data alone when more
and more of it is sent while reports are under way. -/
theorem lossless_link_cut :
    (idle.LosslessRun grouped ∧ idle.PromptRun grouped ∧ (idle.run grouped).AtRest ∧
      (idle.run grouped).txBytes = 33888 ∧ (idle.run grouped).rxBytes = 16944 ∧
      (∀ d ∈ idle.samples grouped, d.deliveredMbps < d.offeredMbps) ∧
      (idle.run grouped).tracker.phase = .HoldDown ∧
      (idle.run grouped).tracker.factor = 9 / 20) ∧
    idle.LosslessRun ramp ∧
      (∀ f ∈ (idle.run ramp).sent, f.ptype = .Data) ∧
      (idle.run ramp).tracker.phase = .HoldDown := by
  decide +kernel

end Channel

end Mlvpn.Ports.DeliveryAccount
