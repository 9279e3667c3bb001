import Mlvpn.Ports.FecRecoverySound
import Mlvpn.Ports.RxRedundant

/-!
# The pipeline swallows nothing

A data frame is suppressed only when FEC says that its number was delivered
already.  The invariant `Delivering` makes that true: every number in the buffer's
two generations belongs to a frame of the stream that has been written, nothing
waits to be taken as a late recovery, and nothing is pending in the reorder
buffer.  It holds between any two events, whatever the primary flag did in
between.

## Main results

* `handle_eq`: an event writes exactly the frames it hands to `rx_deliver`, and
  leaves nothing pending on the way.
* `Delivering.handle`: one event keeps the invariant.
* `data_written`: over any run, up to any event of a batch, a data frame that has
  been processed has been written as sent, and so has every recovery.
* `batch_written_ascending_iff`: without FEC a batch is written in ascending order
  exactly when it was in that order already.
-/

namespace Mlvpn.Ports.RxDelivery

open Protocol FecSend FecRecovery FecRecoveryBuffer FecRecoveryOps FecRecoverySound
open RxPipeline
open RxRedundant (PassThrough dataFrames drainReady_empty passThrough_new
  receive_passThrough rxDeliver_written step_passThrough written)
open Verified

/-! ## Numbers the FEC buffer has seen -/

/-- Every number in the buffer's generations is in `S`. -/
def SeenIn (S : Set UInt64) (b : FecRecoveryBuffer) : Prop := ∀ seq, Seen b seq → seq ∈ S

section SeenIn

variable {S T : Set UInt64} {b b' : FecRecoveryBuffer}

section

variable (h : SeenIn S b)
include h

theorem SeenIn.mono (hST : S ⊆ T) : SeenIn T b := fun seq hseq => hST (h seq hseq)

theorem SeenIn.of_tracking (ht : tracking b' = tracking b) : SeenIn S b' := by
  intro seq hseq
  have hcurrent : b'.seenCurrent = b.seenCurrent := congrArg Tracking.seenCurrent ht
  have hprevious : b'.seenPrevious = b.seenPrevious := congrArg Tracking.seenPrevious ht
  rw [Seen, hcurrent, hprevious] at hseq
  exact h seq hseq

/-- Noting a number forgets everything or nothing. -/
theorem SeenIn.noteSeq (seq : UInt64) : SeenIn S (b.noteSeq seq) := by
  unfold FecRecoveryBuffer.noteSeq
  split
  · exact h
  · split
    · rintro s (hs | hs)
      · simp at hs
      · simp at hs
    · exact h

theorem SeenIn.rotateSeen (now : Instant) : SeenIn S (b.rotateSeen now) := by
  rintro seq (hseq | hseq)
  · simp [FecRecoveryBuffer.rotateSeen] at hseq
  · exact h seq (Or.inl hseq)

theorem SeenIn.accept {seq : UInt64} (hseq : seq ∈ S) (t t' : Instant)
    (plaintext : Bytes) : SeenIn S (b.accept t t' seq plaintext) := by
  have hinsert : SeenIn S { b with seenCurrent := insert seq b.seenCurrent } := by
    rintro s (hs | hs)
    · rcases Finset.mem_insert.mp hs with rfl | hs
      · exact hseq
      · exact h s (Or.inl hs)
    · exact h s (Or.inr hs)
  have hmark : SeenIn S (b.markSeen t seq) := by
    rcases markSeen_cases b t seq with heq | heq
    · rw [heq]
      exact hinsert
    · rw [heq]
      exact hinsert.rotateSeen t
  exact fun s hs => hmark s hs

theorem SeenIn.deliverAll {frames : List Member} (hframes : ∀ m ∈ frames, m.1 ∈ S)
    (env : CallEnv) (i : Nat) : SeenIn S (deliverAll env i b frames) :=
  deliverAll_induction env i h fun _ t t' m hm hb => hb.accept (hframes m hm) t t' m.2

/-- A recheck marks only what it files under the late recoveries. -/
theorem SeenIn.recheckParkedFor (env : CallEnv) (seq : UInt64)
    (hlate : ∀ m ∈ (b.recheckParkedFor env seq).lateRecoveries, m.1 ∈ S) :
    SeenIn S (b.recheckParkedFor env seq) := by
  cases hkey : b.parkedBySeq.lookup seq with
  | none => rwa [recheckParkedFor_none hkey]
  | some key =>
    cases hg : b.parked.lookup key with
    | none =>
      rw [recheckParkedFor_absent hkey hg]
      exact h
    | some g =>
      have hrel : SeenIn S (released b seq key) := h.of_tracking (released_tracking b seq key)
      rw [recheckParkedFor_eq hkey hg] at hlate ⊢
      cases hrec : (released b seq key).reconstruct g.shares with
      | AlreadyComplete => exact hrel
      | Unrecoverable => exact hrel
      | NeedMore missing => exact hrel.of_tracking (park_tracking _ _ _ _ _ _)
      | Recovered recovered =>
        rw [hrec] at hlate
        exact hrel.deliverAll (fun m hm => hlate m (by simp [hm])) env 0

theorem SeenIn.observeData (env : CallEnv) {seq : UInt64} {plaintext : Bytes} (hseq : seq ∈ S)
    (hlate : ∀ m ∈ (b.observeData env seq plaintext).1.lateRecoveries, m.1 ∈ S) :
    SeenIn S (b.observeData env seq plaintext).1 := by
  by_cases hseen : Seen (b.noteSeq seq) seq
  · rw [observeData_seen hseen]
    exact h.noteSeq seq
  · have hstored : SeenIn S (stored b env seq plaintext) := (h.noteSeq seq).accept hseq _ _ _
    rw [observeData_fresh hseen] at hlate ⊢
    split at hlate
    case isTrue hnone =>
      rw [if_pos hnone]
      exact hstored
    case isFalse hsome =>
      rw [if_neg hsome]
      exact hstored.recheckParkedFor _ seq hlate

theorem SeenIn.tryRecover (env : CallEnv) (kind : ParityKind) (parity : FecParityPayload)
    (hrecovered : ∀ m ∈ (Reply.outcome (b.tryRecover env kind parity).2).recovered, m.1 ∈ S) :
    SeenIn S (b.tryRecover env kind parity).1 := by
  by_cases hwf : WellFormed parity
  · have htaken : SeenIn S (taken b parity) :=
      (h.noteSeq _).of_tracking (unpark_tracking _ _)
    rw [tryRecover_eq hwf] at hrecovered ⊢
    cases hrec : (taken b parity).reconstruct (merged b kind parity) with
    | AlreadyComplete => exact htaken
    | Unrecoverable => exact htaken
    | NeedMore missing => exact htaken.of_tracking (park_tracking _ _ _ _ _ _)
    | Recovered recovered =>
      rw [hrec] at hrecovered
      exact htaken.deliverAll hrecovered env 0
  · rw [tryRecover_malformed hwf]
    exact h

theorem SeenIn.tick (now : Instant) : SeenIn S (b.tick now).1 := by
  have hexpire : SeenIn S (expire b now) := fun seq hseq => h seq hseq
  rcases tick_tracking b now with ht | ht
  · exact hexpire.of_tracking ht
  · exact (hexpire.rotateSeen now).of_tracking ht

end

end SeenIn

theorem tryRecover_lateRecoveries (b : FecRecoveryBuffer) (env : CallEnv) (kind : ParityKind)
    (parity : FecParityPayload) :
    (b.tryRecover env kind parity).1.lateRecoveries = b.lateRecoveries := by
  by_cases hwf : WellFormed parity
  · have htaken : (taken b parity).lateRecoveries = b.lateRecoveries :=
      (unpark_lateRecoveries _ _).trans (congrArg Parking.lateRecoveries (noteSeq_parking b _))
    rw [tryRecover_eq hwf]
    cases (taken b parity).reconstruct (merged b kind parity) with
    | AlreadyComplete => exact htaken
    | Unrecoverable => exact htaken
    | NeedMore missing => exact (park_lateRecoveries _ _ _ _ _ _).trans htaken
    | Recovered recovered =>
      exact (congrArg Parking.lateRecoveries (deliverAll_parking env 0 _ recovered)).trans htaken
  · rw [tryRecover_malformed hwf]

/-! ## What an event delivers -/

section Handle

variable (p : Pipeline) (env : EventEnv)

/-- The frames `take_late_recoveries` or `try_recover` returns for an event. -/
def recovered : RxEvent → List Member
  | .Data seq plaintext =>
      if p.fecEnabled ∧ (p.fecRecovery.observeData env.fec seq plaintext).2 then
        (p.fecRecovery.observeData env.fec seq plaintext).1.takeLateRecoveries.2
      else []
  | .Parity kind parity =>
      (Reply.outcome (p.fecRecovery.tryRecover env.fec kind parity).2).recovered
  | .SetReorderWindow _ => []

/-- The frames an event hands to `rx_deliver`, in order. -/
def delivered : RxEvent → List Member
  | .Data seq plaintext =>
      if p.fecEnabled ∧ (p.fecRecovery.observeData env.fec seq plaintext).2 = false then []
      else (seq, plaintext) :: recovered p env (.Data seq plaintext)
  | ev => recovered p env ev

/-- The FEC buffer after an event. -/
def fecAfter : RxEvent → FecRecoveryBuffer
  | .Data seq plaintext =>
      if p.fecEnabled then
        let observed := p.fecRecovery.observeData env.fec seq plaintext
        if observed.2 then observed.1.takeLateRecoveries.1 else observed.1
      else p.fecRecovery
  | .Parity kind parity => (p.fecRecovery.tryRecover env.fec kind parity).1
  | .SetReorderWindow _ => p.fecRecovery

theorem takeLateRecoveries_of_none {b : FecRecoveryBuffer} (h : b.hasLateRecoveries = false) :
    b.takeLateRecoveries = (b, []) := by
  have hnil : b.lateRecoveries = [] := by simpa [hasLateRecoveries] using h
  simp only [takeLateRecoveries, hnil]
  rw [← hnil]

/-- Handling an event is delivering its frames and moving the FEC buffer on. -/
theorem handle_eq (ev : RxEvent) :
    (p.handle env ev).2 = (deliverEach env 0 p.reorder (delivered p env ev)).2 ∧
      (p.handle env ev).1.reorder.pending =
        (deliverEach env 0 p.reorder (delivered p env ev)).1.pending ∧
      (p.handle env ev).1.fecRecovery = fecAfter p env ev ∧
      (p.handle env ev).1.channel = p.channel ∧
      (p.handle env ev).1.fecEnabled = p.fecEnabled := by
  cases ev with
  | Data seq plaintext =>
    simp only [Pipeline.handle, delivered, recovered, fecAfter]
    cases hfec : p.fecEnabled with
    | false => simp [Pipeline.setReorder, deliverEach, hfec]
    | true =>
      cases hfresh : (p.fecRecovery.observeData env.fec seq plaintext).2 with
      | false => simp [deliverEach]
      | true =>
        cases hlate : (p.fecRecovery.observeData env.fec seq plaintext).1.hasLateRecoveries
        · simp [Pipeline.setReorder, deliverEach, hlate,
            takeLateRecoveries_of_none hlate]
        · simp [Pipeline.setReorder, Pipeline.deliverRecovered, deliverEach, hlate]
  | Parity kind parity =>
    simp only [Pipeline.handle, delivered, recovered, fecAfter]
    cases (p.fecRecovery.tryRecover env.fec kind parity).2 with
    | Recovered frames => exact ⟨rfl, rfl, rfl, rfl, rfl⟩
    | Unrecoverable => exact ⟨rfl, rfl, rfl, rfl, rfl⟩
    | AlreadyComplete => exact ⟨rfl, rfl, rfl, rfl, rfl⟩
    | Pending => exact ⟨rfl, rfl, rfl, rfl, rfl⟩
  | SetReorderWindow ms => exact ⟨rfl, rfl, rfl, rfl, rfl⟩

end Handle

/-- From an empty reorder buffer, deliveries are written one by one. -/
theorem deliverEach_written {b : ReorderBuffer} (h : b.pending = ∅) (env : EventEnv) (k : Nat)
    (ms : List Member) :
    (deliverEach env k b ms).1.pending = ∅ ∧ (deliverEach env k b ms).2 = ms := by
  induction ms generalizing b k with
  | nil => exact ⟨h, rfl⟩
  | cons m ms ih =>
    obtain ⟨hpending, hout⟩ := rxDeliver_written h env k m
    obtain ⟨hpending', hout'⟩ := ih hpending (k + 1)
    refine ⟨hpending', ?_⟩
    change (rxDeliver env k b m).2 ++ (deliverEach env (k + 1) (rxDeliver env k b m).1 ms).2 =
      m :: ms
    rw [hout, hout', List.singleton_append]

/-! ## The invariant -/

/-- The events a stream can cause. -/
def CarriedEvent (frames : List Member) (groups : List (List Member)) : RxEvent → Prop
  | .Data seq plaintext => (seq, plaintext) ∈ frames
  | .Parity kind parity => ∃ ms ∈ groups, Covers kind ms parity
  | .SetReorderWindow _ => True

/-- The numbers of the stream's frames among those written. -/
def writtenSeqs (frames w : List Member) : Set UInt64 := { seq | ∃ m ∈ w, m ∈ frames ∧ m.1 = seq }

/-- With `w` written so far: what FEC takes for delivered has been written, as
sent, and nothing waits anywhere. -/
structure Delivering (frames : List Member) (groups : List (List Member)) (w : List Member)
    (p : Pipeline) : Prop where
  pending : p.reorder.pending = ∅
  late : p.fecRecovery.lateRecoveries = []
  sound : Sound frames groups p.fecRecovery
  seen : SeenIn (writtenSeqs frames w) p.fecRecovery
  channel : ∀ ev ∈ p.channel, CarriedEvent frames groups ev

section Delivering

variable {frames : List Member} {groups : List (List Member)} {w : List Member} {p : Pipeline}

theorem writtenSeqs_mono (frames : List Member) {w' : List Member} (h : w ⊆ w') :
    writtenSeqs frames w ⊆ writtenSeqs frames w' :=
  fun _ ⟨m, hm, hframe, hseq⟩ => ⟨m, h hm, hframe, hseq⟩

theorem delivering_new (fecEnabled : Bool) (windowMs : Nat) (parityCount : UInt8) (now : Instant) :
    Delivering frames groups [] (Pipeline.new fecEnabled windowMs
      (FecRecoveryBuffer.new parityCount now)) where
  pending := rfl
  late := rfl
  sound := sound_new parityCount now
  seen := by
    rintro seq (hseq | hseq)
    · simp [Pipeline.new, FecRecoveryBuffer.new, withParams] at hseq
    · simp [Pipeline.new, FecRecoveryBuffer.new, withParams] at hseq
  channel := by simp [Pipeline.new]

/-- A suppressed data frame has been written already, with the same bytes. -/
theorem Delivering.suppressed (hstream : Stream frames groups) (h : Delivering frames groups w p)
    {env : CallEnv} {seq : UInt64} {plaintext : Bytes} (hm : (seq, plaintext) ∈ frames)
    (hold : (p.fecRecovery.observeData env seq plaintext).2 = false) : (seq, plaintext) ∈ w := by
  have hseen : Seen (p.fecRecovery.noteSeq seq) seq := by
    by_contra hfresh
    rw [observeData_fresh hfresh] at hold
    exact absurd hold (by simp)
  obtain ⟨m, hw, hframe, hseq⟩ := h.seen.noteSeq seq seq hseen
  rwa [← hstream.eq_of_seq_eq hframe hm hseq]

variable {ev : RxEvent}

/-- What an event hands to `rx_deliver` are frames of the stream. -/
theorem Delivering.delivered_subset (hstream : Stream frames groups)
    (h : Delivering frames groups w p) (env : EventEnv)
    (hev : CarriedEvent frames groups ev) : delivered p env ev ⊆ frames := by
  cases ev with
  | Data seq plaintext =>
    have hlate := (h.sound.observeData hstream env.fec hev).late
    simp only [delivered, recovered]
    split
    · exact List.nil_subset _
    · refine List.cons_subset.mpr ⟨hev, ?_⟩
      split
      · exact hlate
      · exact List.nil_subset _
  | Parity kind parity =>
    obtain ⟨ms, hms, hcovers⟩ := hev
    exact (h.sound.tryRecover hstream env.fec hms hcovers).2
  | SetReorderWindow ms => exact List.nil_subset _

theorem mem_writtenSeqs_of_delivered {out : List Member} (hsub : out ⊆ frames) {m : Member}
    (hm : m ∈ out) : m.1 ∈ writtenSeqs frames (w ++ out) :=
  ⟨m, List.mem_append_right w hm, hsub hm, rfl⟩

section

variable (hstream : Stream frames groups)
include hstream

/-- The FEC half of one event. -/
theorem Delivering.fecAfter (h : Delivering frames groups w p)
    (env : EventEnv) (hev : CarriedEvent frames groups ev) :
    (fecAfter p env ev).lateRecoveries = [] ∧ Sound frames groups (fecAfter p env ev) ∧
      SeenIn (writtenSeqs frames (w ++ delivered p env ev)) (fecAfter p env ev) := by
  have hsub := h.delivered_subset hstream env hev
  have hseen : SeenIn (writtenSeqs frames (w ++ delivered p env ev)) p.fecRecovery :=
    h.seen.mono (writtenSeqs_mono frames (List.subset_append_left _ _))
  cases ev with
  | Data seq plaintext =>
    have hsound := h.sound.observeData hstream env.fec hev
    cases hfec : p.fecEnabled with
    | false =>
      simp only [RxDelivery.fecAfter, hfec, Bool.false_eq_true, if_false]
      exact ⟨h.late, h.sound, hseen⟩
    | true =>
      cases hfresh : (p.fecRecovery.observeData env.fec seq plaintext).2 with
      | false =>
        have hold : Seen (p.fecRecovery.noteSeq seq) seq := by
          by_contra hnot
          rw [observeData_fresh hnot] at hfresh
          exact absurd hfresh (by simp)
        simp only [RxDelivery.fecAfter, hfec, hfresh, Bool.false_eq_true, if_true, if_false]
        refine ⟨?_, hsound, ?_⟩
        · rw [observeData_seen hold]
          exact (congrArg Parking.lateRecoveries (noteSeq_parking _ seq)).trans h.late
        · rw [observeData_seen hold]
          exact hseen.noteSeq seq
      | true =>
        -- The frame and everything it unlocked are delivered in this event.
        have hdelivered : delivered p env (.Data seq plaintext) = (seq, plaintext) ::
            (p.fecRecovery.observeData env.fec seq plaintext).1.lateRecoveries := by
          simp [delivered, recovered, hfec, hfresh, takeLateRecoveries]
        simp only [RxDelivery.fecAfter, hfec, hfresh, if_true]
        refine ⟨rfl, { payloads := hsound.payloads, parked := hsound.parked,
                       late := List.nil_subset _ }, ?_⟩
        have hobserved : SeenIn
            (writtenSeqs frames (w ++ delivered p env (.Data seq plaintext)))
            (p.fecRecovery.observeData env.fec seq plaintext).1 := by
          apply hseen.observeData env.fec
          · exact mem_writtenSeqs_of_delivered (m := (seq, plaintext)) hsub
              (by rw [hdelivered]; exact List.mem_cons_self)
          · intro m hm
            exact mem_writtenSeqs_of_delivered hsub
              (by rw [hdelivered]; exact List.mem_cons_of_mem _ hm)
        exact fun s hs => hobserved s hs
  | Parity kind parity =>
    obtain ⟨ms, hms, hcovers⟩ := hev
    refine ⟨(tryRecover_lateRecoveries _ _ _ _).trans h.late,
      (h.sound.tryRecover hstream env.fec hms hcovers).1, ?_⟩
    exact hseen.tryRecover env.fec kind parity fun m hm => mem_writtenSeqs_of_delivered hsub hm
  | SetReorderWindow ms => exact ⟨h.late, h.sound, hseen⟩

/-- One event writes its frames and keeps the invariant. -/
theorem Delivering.handle (h : Delivering frames groups w p)
    (env : EventEnv) (hev : CarriedEvent frames groups ev) :
    (p.handle env ev).2 = delivered p env ev ∧
      Delivering frames groups (w ++ delivered p env ev) (p.handle env ev).1 := by
  obtain ⟨hout, hpending, hfec, hchannel, -⟩ := handle_eq p env ev
  obtain ⟨hempty, hwritten⟩ := deliverEach_written h.pending env 0 (delivered p env ev)
  obtain ⟨hlate, hsound, hseen⟩ := h.fecAfter hstream env hev
  refine ⟨hout.trans hwritten, ?_⟩
  exact
    { pending := hpending.trans hempty
      late := by rw [hfec]; exact hlate
      sound := by rw [hfec]; exact hsound
      seen := by rw [hfec]; exact hseen
      channel := by rw [hchannel]; exact h.channel }

/-- A data event leaves its frame written, in this event or an earlier one. -/
theorem Delivering.data_mem (h : Delivering frames groups w p)
    (env : EventEnv) {seq : UInt64} {plaintext : Bytes} (hm : (seq, plaintext) ∈ frames) :
    (seq, plaintext) ∈ w ++ delivered p env (.Data seq plaintext) := by
  simp only [delivered]
  split
  case isTrue hold => exact List.mem_append_left _ (h.suppressed hstream hm hold.2)
  case isFalse => exact List.mem_append_right _ List.mem_cons_self

theorem Delivering.handleAll (h : Delivering frames groups w p) (envs : Nat → EventEnv) (k : Nat)
    {evs : List RxEvent} (hevs : ∀ ev ∈ evs, CarriedEvent frames groups ev) :
    Delivering frames groups (w ++ (Pipeline.handleAll envs k p evs).2)
      (Pipeline.handleAll envs k p evs).1 := by
  induction evs generalizing p w k with
  | nil => simpa [Pipeline.handleAll] using h
  | cons ev evs ih =>
    obtain ⟨hout, hnext⟩ := h.handle hstream (envs k) (hevs ev (by simp))
    have hrest := ih hnext (k + 1) fun e he => hevs e (by simp [he])
    rw [← hout, List.append_assoc] at hrest
    exact hrest

end

end Delivering

/-! ## Runs -/

/-- `recv_many`: the batch, and the pipeline that goes on to handle it. -/
def takeBatch (p : Pipeline) (available : Nat) : Pipeline × List RxEvent :=
  ({ p with
     channel := p.channel.drop (min available RX_PIPELINE_BATCH)
     stats := { p.stats with maxBacklog := max p.stats.maxBacklog p.channel.length } },
    p.channel.take (min available RX_PIPELINE_BATCH))

/-- The stream's events are the only ones a receiving link hands over. -/
def CarriedAction (frames : List Member) (groups : List (List Member)) : RxAction → Prop
  | .deliver ev => CarriedEvent frames groups ev
  | _ => True

section Runs

variable {frames : List Member} {groups : List (List Member)} {w : List Member} {p : Pipeline}

theorem Delivering.takeBatch (h : Delivering frames groups w p) (available : Nat) :
    Delivering frames groups w (takeBatch p available).1 ∧
      ∀ ev ∈ (RxDelivery.takeBatch p available).2, CarriedEvent frames groups ev := by
  refine ⟨?_, fun ev hev => h.channel ev (List.mem_of_mem_take hev)⟩
  exact
    { pending := h.pending, late := h.late, sound := h.sound, seen := h.seen
      channel := fun ev hev => h.channel ev (List.mem_of_mem_drop hev) }

theorem Delivering.deliver (h : Delivering frames groups w p) {ev : RxEvent}
    (hev : CarriedEvent frames groups ev) : Delivering frames groups w (p.deliver ev) := by
  have hpush : Delivering frames groups w { p with channel := p.channel ++ [ev] } :=
    { pending := h.pending, late := h.late, sound := h.sound, seen := h.seen
      channel := fun e he => by
        rcases List.mem_append.mp he with he | he
        · exact h.channel e he
        · rw [List.mem_singleton.mp he]
          exact hev }
  have hdrop : Delivering frames groups w { p with dropped := p.dropped + 1 } :=
    { pending := h.pending, late := h.late, sound := h.sound, seen := h.seen
      channel := h.channel }
  unfold Pipeline.deliver
  split
  · split
    · split
      · exact hpush
      · exact hdrop
    · exact h
  · split
    · exact hpush
    · exact hdrop

theorem Delivering.step (hstream : Stream frames groups) (h : Delivering frames groups w p)
    {a : RxAction} (ha : CarriedAction frames groups a) :
    Delivering frames groups (w ++ (p.step a).2.written) (p.step a).1 := by
  cases a with
  | deliver ev => simpa [Pipeline.step] using h.deliver ha
  | recvMany available envs batchStart batchEnd =>
    simp only [Pipeline.step, Pipeline.receive]
    split
    · simpa using h
    · obtain ⟨hstart, hbatch⟩ := h.takeBatch available
      have hall := hstart.handleAll hstream envs 0 hbatch
      exact
        { pending := hall.pending, late := hall.late, sound := hall.sound, seen := hall.seen
          channel := hall.channel }
  | flushTick now =>
    have hnone : (p.reorder.drainReady now).2 = [] := drainReady_empty h.pending now
    have hwritten : (p.step (.flushTick now)).2.written = [] := hnone
    rw [hwritten, List.append_nil]
    exact
      { pending := rfl, late := h.late, sound := h.sound, seen := h.seen, channel := h.channel }
  | fecTick now =>
    simp only [Pipeline.step]
    split
    · rw [List.append_nil]
      exact
        { pending := h.pending
          late := (tick_lateRecoveries _ now).trans h.late
          sound := h.sound.tick now
          seen := h.seen.tick now
          channel := h.channel }
    · simpa using h
  | reportTick =>
    simp only [Pipeline.step, List.append_nil]
    exact
      { pending := h.pending, late := h.late, sound := h.sound, seen := h.seen
        channel := h.channel }

theorem Delivering.run (hstream : Stream frames groups) (h : Delivering frames groups [] p)
    {actions : List RxAction} (hactions : ∀ a ∈ actions, CarriedAction frames groups a) :
    Delivering frames groups (written (Mealy.log Pipeline.step p actions))
      (Mealy.run Pipeline.step p actions) := by
  have hrun := Mealy.invariant_along (h := [])
    (I := fun log q => Delivering frames groups (written log) q)
    (G := fun _ _ a => CarriedAction frames groups a)
    (fun log q a hq ha => by
      simpa [written] using hq.step hstream ha)
    h (Mealy.along_of_forall (fun _ _ _ ha => ha) hactions)
  simpa using hrun

end Runs

theorem handleAll_append (envs : Nat → EventEnv) (k : Nat) (p : Pipeline) (pre : List RxEvent)
    (ev : RxEvent) :
    Pipeline.handleAll envs k p (pre ++ [ev]) =
      (((Pipeline.handleAll envs k p pre).1.handle (envs (k + pre.length)) ev).1,
        (Pipeline.handleAll envs k p pre).2 ++
          ((Pipeline.handleAll envs k p pre).1.handle (envs (k + pre.length)) ev).2) := by
  induction pre generalizing k p with
  | nil => simp [Pipeline.handleAll]
  | cons e pre ih =>
    simp only [List.cons_append, Pipeline.handleAll, ih, List.length_cons, List.append_assoc,
      Nat.add_assoc, Nat.add_comm 1]

/-- What one sender incarnation can cause on the receiving links: its data frames,
its shares as decoded from the wire, and what carries nothing. -/
def FromSenderAction (groupSize parityCount : UInt8) (sent : List Frame) : RxAction → Prop
  | .deliver (.Data seq plaintext) => ∃ f ∈ sent, f.seq = seq ∧ f.plaintext = plaintext
  | .deliver (.Parity kind parity) =>
      ∃ g ∈ sendAll (FecSender.new groupSize parityCount) sent,
        ∃ share, g.share kind = some share ∧ FecParityPayload.decode share.encode = .ok parity
  | _ => True

theorem carriedAction_of_fromSender {groupSize parityCount : UInt8} {sent : List Frame}
    {groups : List (List Member)} (hstream : Stream (sent.map Frame.member) groups)
    (hgroups : ∀ g ∈ sendAll (FecSender.new groupSize parityCount) sent,
      ∃ ms ∈ groups, Completes (FecSender.new groupSize parityCount) ms g)
    {a : RxAction} (ha : FromSenderAction groupSize parityCount sent a) :
    CarriedAction (sent.map Frame.member) groups a := by
  cases a with
  | deliver ev =>
    have hcall : ∀ {c : Call}, FromSender groupSize parityCount sent c →
        Carried (sent.map Frame.member) groups c :=
      fun hc => carried_of_fromSender hstream hgroups hc
    cases ev with
    | Data seq plaintext => exact hcall (c := .observeData ⟨fun _ => 0, 0⟩ seq plaintext) ha
    | Parity kind parity => exact hcall (c := .tryRecover ⟨fun _ => 0, 0⟩ kind parity) ha
    | SetReorderWindow ms => trivial
  | recvMany available envs batchStart batchEnd => trivial
  | flushTick now => trivial
  | fecTick now => trivial
  | reportTick => trivial

/-- FEC on or off, whatever one sender's frames and shares go through on their way
and however the pipeline's branches interleave: after any event of any batch, its
data frame has been written as sent, whatever FEC returned for it has been written
too, and at none of its deliveries was a frame left in the reorder buffer for the
primary flag to strand. -/
theorem data_written (groupSize parityCount : UInt8) (sent : List Frame)
    (hseqs : (sent.map Frame.seq).Pairwise (· < ·))
    (hlens : ∀ f ∈ sent, f.plaintext.length ≤ 65535)
    (fecEnabled : Bool) (windowMs : Nat) (receiverParityCount : UInt8) (now : Instant)
    (actions : List RxAction)
    (hactions : ∀ a ∈ actions, FromSenderAction groupSize parityCount sent a)
    (available : Nat) (envs : Nat → EventEnv) (pre : List RxEvent) (ev : RxEvent) :
    let start := Pipeline.new fecEnabled windowMs (FecRecoveryBuffer.new receiverParityCount now)
    let p := Mealy.run Pipeline.step start actions
    let before := Pipeline.handleAll envs 0 (takeBatch p available).1 pre
    let after := Pipeline.handleAll envs 0 (takeBatch p available).1 (pre ++ [ev])
    let w := written (Mealy.log Pipeline.step start actions) ++ after.2
    pre ++ [ev] <+: (takeBatch p available).2 →
      (∀ seq plaintext, ev = .Data seq plaintext → (seq, plaintext) ∈ w) ∧
      recovered before.1 (envs pre.length) ev ⊆ w ∧
      (∀ ds, ds <+: delivered before.1 (envs pre.length) ev →
        (deliverEach (envs pre.length) 0 before.1.reorder ds).1.pending = ∅) ∧
      after.1.reorder.pending = ∅ := by
  intro start p before after w hbatch
  obtain ⟨groups, hstream, hgroups⟩ := exists_stream hseqs hlens
  have hrun : Delivering (sent.map Frame.member) groups _ p :=
    (delivering_new fecEnabled windowMs receiverParityCount now).run hstream
      fun a ha => carriedAction_of_fromSender hstream hgroups (hactions a ha)
  obtain ⟨hstart, hcarried⟩ := hrun.takeBatch available
  have hevs : ∀ e ∈ pre ++ [ev], CarriedEvent (sent.map Frame.member) groups e :=
    fun e he => hcarried e (hbatch.subset he)
  have hbefore : Delivering _ groups (_ ++ before.2) before.1 :=
    hstart.handleAll hstream envs 0 fun e he => hevs e (List.mem_append_left _ he)
  have hev : CarriedEvent _ groups ev := hevs ev (by simp)
  obtain ⟨hout, hafter⟩ := hbefore.handle hstream (envs pre.length) hev
  have happend : after = ((before.1.handle (envs pre.length) ev).1,
      before.2 ++ (before.1.handle (envs pre.length) ev).2) := by
    have := handleAll_append envs 0 (takeBatch p available).1 pre ev
    rwa [Nat.zero_add] at this
  have hw : w = (written (Mealy.log Pipeline.step start actions) ++ before.2) ++
      delivered before.1 (envs pre.length) ev := by
    simp only [w, happend, hout, List.append_assoc]
  refine ⟨?_, ?_, ?_, ?_⟩
  · rintro seq plaintext rfl
    rw [hw]
    exact hbefore.data_mem hstream (envs pre.length) hev
  · rw [hw]
    intro m hm
    apply List.mem_append_right
    cases ev with
    | Data seq plaintext =>
        simp only [recovered] at hm
        split at hm
        case isTrue hfresh => simp [delivered, recovered, hfresh, hm]
        case isFalse => exact absurd hm List.not_mem_nil
    | Parity kind parity => exact hm
    | SetReorderWindow ms => exact hm
  · exact fun ds _ => (deliverEach_written hbefore.pending (envs pre.length) 0 ds).1
  · rw [happend]
    exact hafter.pending

/-- Frame 11 is rebuilt from `P` while a primary is set and nothing is buffered;
its own copy comes after the flag was cleared and is suppressed. -/
theorem data_written_after_recovery :
    let share : FecParityPayload := ⟨[10, 11, 12], [3, 2, 4], [2, 15, 10, 10]⟩
    let env : Bool → EventEnv := fun primary =>
      ⟨⟨fun _ => 0, 0⟩, fun _ => primary, fun _ => 0, fun _ => 0⟩
    let actions : List RxAction :=
      [.deliver (.Data 10 [1, 2, 3]), .deliver (.Data 12 [7, 8, 9, 10]),
        .deliver (.Parity .P share), .recvMany 64 (fun _ => env true) 0 0, .fecTick 1000,
        .deliver (.Data 11 [4, 5])]
    let start := Pipeline.new true 50 (FecRecoveryBuffer.new 2 0)
    let p := Mealy.run Pipeline.step start actions
    let after := Pipeline.handleAll (fun _ => env false) 0 (takeBatch p 64).1 [.Data 11 [4, 5]]
    after.2 = [] ∧
      (11, [4, 5]) ∈ written (Mealy.log Pipeline.step start actions) ++ after.2 := by
  intro share env actions start p after
  let sent : List Frame := [⟨10, [1, 2, 3], 0⟩, ⟨11, [4, 5], 1⟩, ⟨12, [7, 8, 9, 10], 0⟩]
  refine ⟨by decide +kernel, ?_⟩
  refine (data_written 3 2 sent (by decide) (by decide) true 50 2 0 actions ?_ 64
    (fun _ => env false) [] (.Data 11 [4, 5]) (by decide +kernel)).1 11 [4, 5] rfl
  have hshare : share ∈ (sendAll (FecSender.new 3 2) sent).map FecGroup.p := by decide +kernel
  intro a ha
  simp only [actions, List.mem_cons, List.not_mem_nil, or_false] at ha
  rcases ha with rfl | rfl | rfl | rfl | rfl | rfl
  · exact ⟨⟨10, [1, 2, 3], 0⟩, by decide, rfl, rfl⟩
  · exact ⟨⟨12, [7, 8, 9, 10], 0⟩, by decide, rfl, rfl⟩
  · obtain ⟨g, hg, hp⟩ := List.mem_map.1 hshare
    exact ⟨g, hg, g.p, rfl, by rw [hp]; decide +kernel⟩
  · trivial
  · trivial
  · exact ⟨⟨11, [4, 5], 1⟩, by decide, rfl, rfl⟩

/-! ## The order within a batch -/

theorem passThrough_run (windowMs : Nat) (fec : FecRecoveryBuffer) (actions : List RxAction) :
    PassThrough (Mealy.run Pipeline.step (Pipeline.new false windowMs fec) actions) := by
  have hstep : ∀ p a, PassThrough p → True → PassThrough (Pipeline.step p a).1 ∧ True :=
    fun p a h _ => ⟨(step_passThrough h a).1, trivial⟩
  exact (Mealy.invariant_log (P := fun _ _ => True) hstep (passThrough_new windowMs fec)
    fun a (_ : a ∈ actions) => trivial).1

/-- The drain after every single event leaves nothing to sort: with FEC off, in
every reachable state, a batch comes out in the order it had. -/
theorem batch_written_ascending_iff (windowMs : Nat) (fec : FecRecoveryBuffer)
    (actions : List RxAction) (available : Nat) (envs : Nat → EventEnv)
    (batchStart batchEnd : Instant) :
    let p := Mealy.run Pipeline.step (Pipeline.new false windowMs fec) actions
    let out := (p.receive available envs batchStart batchEnd).2
    (out.written.map Prod.fst).Pairwise (· < ·) ↔
      ((dataFrames out.taken).map Prod.fst).Pairwise (· < ·) := by
  intro p out
  have hpass : PassThrough p := passThrough_run windowMs fec actions
  have hwritten : out.written = dataFrames out.taken :=
    (receive_passThrough hpass available envs batchStart batchEnd).2.1
  rw [hwritten]

/-- Two frames that swapped places within one batch are written swapped. -/
theorem batch_written_descending :
    let env : EventEnv := ⟨⟨fun _ => 0, 0⟩, fun _ => false, fun _ => 0, fun _ => 0⟩
    let p := Mealy.run Pipeline.step (Pipeline.new false 50 (FecRecoveryBuffer.new 1 0))
      [.deliver (.Data 2 [20]), .deliver (.Data 1 [10])]
    let out := (p.receive 64 (fun _ => env) 0 0).2
    out.taken = [.Data 2 [20], .Data 1 [10]] ∧ out.written = [(2, [20]), (1, [10])] ∧
      ¬(out.written.map Prod.fst).Pairwise (· < ·) := by
  intro env p out
  refine ⟨by decide +kernel, by decide +kernel, by decide +kernel⟩

end Mlvpn.Ports.RxDelivery
