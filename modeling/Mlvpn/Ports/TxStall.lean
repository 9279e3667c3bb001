import Mlvpn.Ports.CongestionFilter
import Mlvpn.Ports.TxDepth

/-!
# Stalls and backlogs

A worker stores the time at the start and at the end of each batch, and `CounterSnapshot::read`
reports the time since, if anything is queued.  This module puts the clock on top of the send
path: the worker's two stores, each a reading of `mono_us` and a later write, and a reader that
loads the progress, loads the depth and reads the clock, with any steps of the tasks in between.
Sums and counts of the measured delays are written in the step they belong to; the durations
come with the action.

The worker stores nothing while its link is idle.  The first packet after an idle period finds
the progress of the batch before it, and until the worker has started on that packet the whole
idle period is reported as a stall.

Two fields are ghosts: `clock` is the latest reading, `idleAt` the last moment at which a link
had no job queued and no batch in flight.

## Main results

* `stamped_run`: no stored time is ahead of the clock.
* `stall_le_backlog_iff`: when a reported stall is within the backlog.
-/

namespace Mlvpn.Ports.TxStall

open Verified Congestion TxDispatch
open CongestionFilter (anchorLine delayTarget_rat toNat_max)
open FecRecovery (Instant)

variable {n : Nat}

/-! ## The clock -/

/-- The counters of `link::TxCounters` that only the worker writes. -/
structure Progress where
  queueDelaySumUs : UInt64
  queueDelaySamples : UInt64
  sendWaitSumUs : UInt64
  sendWaitSamples : UInt64
  lastProgressUs : UInt64
deriving Repr, DecidableEq

def Progress.new : Progress := ⟨0, 0, 0, 0, 0⟩

/-- `last_progress_us.store(mono_us())`: not its turn, next, or with the time in hand. -/
inductive Stamp where
  | none
  | due
  | taken (us : UInt64)
deriving Repr, DecidableEq

/-- Where `CounterSnapshot::read` is. -/
inductive Reader (n : Nat) where
  | idle
  | loaded (k : Fin n) (last : UInt64)
  | found (k : Fin n) (last : UInt64) (busy : Bool)
deriving Repr, DecidableEq

structure Timed (n : Nat) where
  tx : State n
  progress : Fin n → Progress
  stamp : Fin n → Stamp
  reader : Reader n
  clock : UInt64
  idleAt : Fin n → UInt64

inductive Event (n : Nat) where
  /-- A step of the send path, with the durations a worker measures in it. -/
  | send (a : Action n) (queueDelayUs : UInt64) (perPacketUs : Option UInt64)
  /-- Worker `i` reads the clock for its stamp, or stores it. -/
  | stamp (i : Fin n)
  /-- The loads of a read of link `k`, and its end. -/
  | loadProgress (k : Fin n)
  | loadDepth
  | finish

/-- An event at the time `mono_us` shows. -/
structure Moment (n : Nat) where
  now : UInt64
  event : Event n

/-- Nothing queued and no batch in flight. -/
def Idle (s : State n) (k : Fin n) : Prop :=
  (s.shared.queues k).jobs.length = 0 ∧ (s.workers k).batchLen = 0

instance (s : State n) (k : Fin n) : Decidable (Idle s k) := inferInstanceAs (Decidable (_ ∧ _))

/-- `mono_us().saturating_sub(last)`, if there is a progress and a depth. -/
def stallUs (last : UInt64) (busy : Bool) (now : UInt64) : UInt64 :=
  if last ≠ 0 ∧ busy then if last ≤ now then now - last else 0 else 0

/-- What `CounterSnapshot::read` returns. -/
def snapshot (p : Progress) (c : TxCounters) (stall : UInt64) : CounterSnapshot where
  delaySumUs := p.queueDelaySumUs
  delaySamples := p.queueDelaySamples
  sendWaitSumUs := p.sendWaitSumUs
  sendWaitSamples := p.sendWaitSamples
  queueFull := UInt64.ofNat c.queueFull
  sendFailed := UInt64.ofNat c.sendFailed
  stallUs := stall

/-- What a worker writes to its counters when it goes from one place to the next: a sample of
the queue delay before the sends, one of the send wait, if it sent anything, after them. -/
def Progress.moveOn {i : Fin n} (p : Progress) (queueDelayUs : UInt64)
    (perPacketUs : Option UInt64) : WorkerPc n i → WorkerPc n i → Progress
  | .fetched _, _ =>
      { p with queueDelaySumUs := p.queueDelaySumUs + queueDelayUs
               queueDelaySamples := p.queueDelaySamples + 1 }
  | .running _, .waiting =>
      match perPacketUs with
      | some us =>
          { p with sendWaitSumUs := p.sendWaitSumUs + us
                   sendWaitSamples := p.sendWaitSamples + 1 }
      | none => p
  | _, _ => p

/-- A stamp follows at the start of the sends and at the end of the batch. -/
def Stamp.next {i : Fin n} : WorkerPc n i → WorkerPc n i → Stamp
  | .fetched _, _ => .due
  | .running _, .waiting => .due
  | _, _ => .none

namespace Timed

/-- The time is `now`: a link that is idle has been so until now. -/
def advance (t : Timed n) (now : UInt64) : Timed n :=
  { t with clock := now
           idleAt := fun k => if Idle t.tx k then now else t.idleAt k }

/-- The worker's own steps wait for its stamp. -/
def send (t : Timed n) (a : Action n) (queueDelayUs : UInt64) (perPacketUs : Option UInt64) :
    Timed n :=
  match a with
  | .worker i env =>
      if t.stamp i = .none then
        let tx := t.tx.workerStep i env
        { t with
          tx
          stamp := Function.update t.stamp i (Stamp.next (t.tx.workers i).pc (tx.workers i).pc)
          progress := Function.update t.progress i
            ((t.progress i).moveOn queueDelayUs perPacketUs (t.tx.workers i).pc
              (tx.workers i).pc) }
      else t
  | a => { t with tx := t.tx.step a }

def stampStep (t : Timed n) (i : Fin n) : Timed n :=
  match t.stamp i with
  | .none => t
  | .due => { t with stamp := Function.update t.stamp i (.taken t.clock) }
  | .taken us =>
      { t with
        stamp := Function.update t.stamp i .none
        progress := Function.update t.progress i { t.progress i with lastProgressUs := us } }

/-- The depth is loaded only if there is a progress. -/
def loadProgress (t : Timed n) (k : Fin n) : Timed n :=
  match t.reader with
  | .idle =>
      let last := (t.progress k).lastProgressUs
      { t with reader := if last ≠ 0 then .loaded k last else .found k last false }
  | _ => t

def loadDepth (t : Timed n) : Timed n :=
  match t.reader with
  | .loaded k last =>
      { t with reader := .found k last (decide (0 < (t.tx.shared.queues k).counters.depth)) }
  | _ => t

/-- The end of a read, with the link and the snapshot. -/
def finish (t : Timed n) : Timed n × Option (Fin n × CounterSnapshot) :=
  match t.reader with
  | .found k last busy =>
      ({ t with reader := .idle },
        some (k, snapshot (t.progress k) (t.tx.shared.queues k).counters
          (stallUs last busy t.clock)))
  | _ => (t, none)

/-- How long link `k` has had something queued or in flight. -/
def backlogUs (t : Timed n) (k : Fin n) : Nat := t.clock.toNat - (t.idleAt k).toNat

end Timed

def step (t : Timed n) (m : Moment n) : Timed n × Option (Fin n × CounterSnapshot) :=
  match m.event with
  | .send a queueDelayUs perPacketUs =>
      ((t.advance m.now).send a queueDelayUs perPacketUs, none)
  | .stamp i => ((t.advance m.now).stampStep i, none)
  | .loadProgress k => ((t.advance m.now).loadProgress k, none)
  | .loadDepth => ((t.advance m.now).loadDepth, none)
  | .finish => (t.advance m.now).finish

/-- The tunnel as it starts, at the first reading of the clock. -/
def start (cfg : Config n) : Timed n where
  tx := TxDepth.launch cfg
  progress := fun _ => .new
  stamp := fun _ => .none
  reader := .idle
  clock := 1
  idleAt := fun _ => 1

/-- Readings of the clock never go back. -/
def Timely (_ : List (Moment n × Option (Fin n × CounterSnapshot))) (t : Timed n)
    (m : Moment n) : Prop := t.clock ≤ m.now

instance (h : List (Moment n × Option (Fin n × CounterSnapshot))) (t : Timed n) (m : Moment n) :
    Decidable (Timely h t m) := inferInstanceAs (Decidable (_ ≤ _))

/-! ## Stored times -/

/-- No stored time is ahead of the clock. -/
structure Stamped (t : Timed n) : Prop where
  idleAt : ∀ k, t.idleAt k ≤ t.clock
  progress : ∀ k, (t.progress k).lastProgressUs ≤ t.clock
  stamp : ∀ k us, t.stamp k = .taken us → us ≤ t.clock
  loaded : ∀ k last, t.reader = .loaded k last → last ≤ t.clock
  found : ∀ k last busy, t.reader = .found k last busy → last ≤ t.clock

variable {t : Timed n}

theorem Stamped.advance (h : Stamped t) {now : UInt64} (hnow : t.clock ≤ now) :
    Stamped (t.advance now) where
  idleAt := fun k => by
    show (if Idle t.tx k then now else t.idleAt k) ≤ now
    split
    · exact UInt64.le_refl now
    · exact UInt64.le_trans (h.idleAt k) hnow
  progress := fun k => UInt64.le_trans (h.progress k) hnow
  stamp := fun k us hus => UInt64.le_trans (h.stamp k us hus) hnow
  loaded := fun k last hlast => UInt64.le_trans (h.loaded k last hlast) hnow
  found := fun k last busy hlast => UInt64.le_trans (h.found k last busy hlast) hnow

/-- The delay samples are not times. -/
theorem moveOn_lastProgressUs {i : Fin n} (p : Progress) (queueDelayUs : UInt64)
    (perPacketUs : Option UInt64) (pc pc' : WorkerPc n i) :
    (p.moveOn queueDelayUs perPacketUs pc pc').lastProgressUs = p.lastProgressUs := by
  unfold Progress.moveOn
  split
  · rfl
  · split <;> rfl
  · rfl

theorem next_ne_taken {i : Fin n} (pc pc' : WorkerPc n i) (us : UInt64) :
    Stamp.next pc pc' ≠ .taken us := by
  unfold Stamp.next
  split <;> exact fun h => by cases h

theorem Stamped.send (h : Stamped t) (a : Action n) (queueDelayUs : UInt64)
    (perPacketUs : Option UInt64) : Stamped (t.send a queueDelayUs perPacketUs) := by
  unfold Timed.send
  split
  case h_2 => exact ⟨h.idleAt, h.progress, h.stamp, h.loaded, h.found⟩
  case h_1 i env =>
    split
    case isFalse => exact h
    case isTrue =>
      refine ⟨h.idleAt, fun k => ?_, fun k us hus => ?_, h.loaded, h.found⟩
      · by_cases hk : k = i
        · subst hk
          simp only [Function.update_self, moveOn_lastProgressUs]
          exact h.progress k
        · simp only [Function.update_of_ne hk]
          exact h.progress k
      · by_cases hk : k = i
        · subst hk
          simp only [Function.update_self] at hus
          exact absurd hus (next_ne_taken _ _ us)
        · simp only [Function.update_of_ne hk] at hus
          exact h.stamp k us hus

theorem Stamped.stampStep (h : Stamped t) (i : Fin n) : Stamped (t.stampStep i) := by
  unfold Timed.stampStep
  split
  case h_1 => exact h
  case h_2 =>
    refine ⟨h.idleAt, h.progress, fun k us hus => ?_, h.loaded, h.found⟩
    by_cases hk : k = i
    · subst hk
      simp only [Function.update_self, Stamp.taken.injEq] at hus
      rw [← hus]
      exact UInt64.le_refl _
    · simp only [Function.update_of_ne hk] at hus
      exact h.stamp k us hus
  case h_3 us htaken =>
    refine ⟨h.idleAt, fun k => ?_, fun k us' hus => ?_, h.loaded, h.found⟩
    · by_cases hk : k = i
      · subst hk
        simp only [Function.update_self]
        exact h.stamp k us htaken
      · simp only [Function.update_of_ne hk]
        exact h.progress k
    · by_cases hk : k = i
      · subst hk
        simp only [Function.update_self, reduceCtorEq] at hus
      · simp only [Function.update_of_ne hk] at hus
        exact h.stamp k us' hus

theorem Stamped.loadProgress (h : Stamped t) (k : Fin n) : Stamped (t.loadProgress k) := by
  unfold Timed.loadProgress
  split
  case h_2 => exact h
  case h_1 =>
    refine ⟨h.idleAt, h.progress, h.stamp, fun j last hlast => ?_, fun j last busy hlast => ?_⟩
    · simp only at hlast
      split at hlast
      · cases hlast
        exact h.progress k
      · cases hlast
    · simp only at hlast
      split at hlast
      · cases hlast
      · cases hlast
        exact h.progress k

theorem Stamped.loadDepth (h : Stamped t) : Stamped t.loadDepth := by
  unfold Timed.loadDepth
  split
  case h_2 => exact h
  case h_1 k last hloaded =>
    refine ⟨h.idleAt, h.progress, h.stamp, fun j last' hlast => ?_, fun j last' busy hlast => ?_⟩
    · cases hlast
    · cases hlast
      exact h.loaded k last hloaded

theorem Stamped.finish (h : Stamped t) : Stamped t.finish.1 := by
  unfold Timed.finish
  split
  case h_2 => exact h
  case h_1 =>
    refine ⟨h.idleAt, h.progress, h.stamp, fun j last hlast => ?_, fun j last busy hlast => ?_⟩
    · cases hlast
    · cases hlast

theorem Stamped.step (h : Stamped t) {m : Moment n} (hm : t.clock ≤ m.now) :
    Stamped (step t m).1 := by
  have hadvance := h.advance hm
  unfold TxStall.step
  split
  · exact hadvance.send _ _ _
  · exact hadvance.stampStep _
  · exact hadvance.loadProgress _
  · exact hadvance.loadDepth
  · exact hadvance.finish

theorem stamped_start (cfg : Config n) : Stamped (start cfg) where
  idleAt := fun _ => UInt64.le_refl _
  progress := fun _ => show (0 : UInt64) ≤ 1 by decide
  stamp := fun k us hus => by cases hus
  loaded := fun k last hlast => by cases hlast
  found := fun k last busy hlast => by cases hlast

theorem stamped_run (cfg : Config n) {ms : List (Moment n)}
    (h : Mealy.Along step Timely [] (start cfg) ms) : Stamped (Mealy.run step (start cfg) ms) :=
  Mealy.invariant_along (I := fun _ t => Stamped t) (fun _ _ _ hI hG => hI.step hG)
    (stamped_start cfg) h

/-! ## Reported stalls -/

/-- The read in hand loaded no progress or no depth, or its link has not been idle since the
progress it loaded. -/
def BusySinceProgress (t : Timed n) : Prop :=
  match t.reader with
  | .found k last busy => last = 0 ∨ busy = false ∨ t.idleAt k ≤ last
  | _ => True

theorem stallUs_toNat (last now : UInt64) (busy : Bool) :
    (stallUs last busy now).toNat = if last ≠ 0 ∧ busy then now.toNat - last.toNat else 0 := by
  unfold stallUs
  split
  case isFalse => rfl
  case isTrue =>
    split
    case isTrue hle => exact UInt64.toNat_sub_of_le _ _ hle
    case isFalse hnot =>
      have hlt : now.toNat < last.toNat := UInt64.lt_iff_toNat_lt.mp (UInt64.not_le.mp hnot)
      rw [Nat.sub_eq_zero_of_le hlt.le]
      rfl

/-- A stall of at most a millisecond does not lower the target. -/
theorem delayTarget_max (delay : UInt64) {stall : UInt64} (h : stall.toNat ≤ 1000) :
    (delayTarget (max delay stall) : ℚ) = delayTarget delay := by
  rw [delayTarget_rat, delayTarget_rat, toNat_max]
  rcases Nat.le_total stall.toNat delay.toNat with hle | hle
  · rw [Nat.max_eq_left hle]
  · have hstall : (stall.toNat : ℚ) ≤ 1000 := by exact_mod_cast h
    have hdelay : (delay.toNat : ℚ) ≤ 1000 := by exact_mod_cast hle.trans h
    rw [Nat.max_eq_right hle, anchorLine, anchorLine, if_pos hstall, if_pos hdelay]

theorem max_zero (delay : UInt64) : max delay 0 = delay := by
  apply UInt64.toNat_inj.mp
  rw [toNat_max, UInt64.toNat_zero, Nat.max_eq_left (Nat.zero_le _)]

/-- Nor does it cut a factor. -/
theorem update_short_stall (tracker : CongestionTracker ℚ) (now : Instant) {cur : CounterSnapshot}
    (h : cur.stallUs.toNat ≤ 1000) :
    (tracker.update now cur).factor = (tracker.update now { cur with stallUs := 0 }).factor := by
  unfold CongestionTracker.update
  cases tracker.lastUpdate with
  | none => rfl
  | some last =>
    simp only
    split
    · rfl
    · simp only [CongestionTracker.windowTarget, delayTarget_max _ h, max_zero]

theorem finish_reports {k : Fin n} {snap : CounterSnapshot} {m : Moment n}
    (h : (step t m).2 = some (k, snap)) :
    ∃ last busy, (t.advance m.now).reader = .found k last busy ∧
      snap.stallUs = stallUs last busy m.now := by
  unfold step at h
  split at h
  case h_5 =>
    unfold Timed.finish at h
    split at h
    case h_1 j last busy hfound =>
      cases h
      exact ⟨last, busy, hfound, rfl⟩
    case h_2 => cases h
  all_goals cases h

/-- A reported stall is within the backlog exactly if the link has not been idle since the
progress that the read loaded.  A stall within a backlog of at most a millisecond is none for
the congestion factor. -/
theorem stall_le_backlog_iff (cfg : Config n) (ms : List (Moment n)) (m : Moment n)
    (hordered : Mealy.Along step Timely [] (start cfg) (ms ++ [m])) (k : Fin n)
    (snap : CounterSnapshot)
    (hread : (step (Mealy.run step (start cfg) ms) m).2 = some (k, snap)) :
    let t := (Mealy.run step (start cfg) ms).advance m.now
    (snap.stallUs.toNat ≤ t.backlogUs k ↔ BusySinceProgress t) ∧
    (BusySinceProgress t → t.backlogUs k ≤ 1000 → ∀ (tracker : CongestionTracker ℚ) (now : Instant),
      (tracker.update now snap).factor =
        (tracker.update now { snap with stallUs := 0 }).factor) := by
  intro t
  obtain ⟨hbefore, hnow, -⟩ := Mealy.along_append.mp hordered
  have hstamped : Stamped t := (stamped_run cfg hbefore).advance hnow
  obtain ⟨last, busy, hreader, hstall⟩ := finish_reports hread
  have hidle : (t.idleAt k).toNat ≤ m.now.toNat := UInt64.le_iff_toNat_le.mp (hstamped.idleAt k)
  have hbacklog : t.backlogUs k = m.now.toNat - (t.idleAt k).toNat := rfl
  have hiff : snap.stallUs.toNat ≤ t.backlogUs k ↔ BusySinceProgress t := by
    have hbusy : BusySinceProgress t ↔ last = 0 ∨ busy = false ∨ t.idleAt k ≤ last := by
      unfold BusySinceProgress
      rw [show t.reader = .found k last busy from hreader]
    rw [hbusy, hstall, stallUs_toNat, hbacklog, UInt64.le_iff_toNat_le]
    split
    case isTrue hreported =>
        constructor
        · intro hle
          exact Or.inr (Or.inr (by omega))
        · rintro (hzero | hfree | hle)
          · exact absurd hzero hreported.1
          · rw [hfree] at hreported
            cases hreported.2
          · omega
    case isFalse hnone =>
        refine ⟨fun _ => ?_, fun _ => Nat.zero_le _⟩
        rcases Classical.not_and_iff_not_or_not.mp hnone with hzero | hfree
        · exact Or.inl (not_not.mp hzero)
        · exact Or.inr (Or.inl (Bool.eq_false_of_not_eq_true hfree))
  refine ⟨hiff, fun hcontinuous hshort tracker now => ?_⟩
  exact update_short_stall tracker now ((hiff.mpr hcontinuous).trans hshort)

/-! ## One link -/

def oneLink : Config 1 where
  links := fun _ => { state := .Up, adminDisabled := false, remote := true }
  capacity := fun _ => TxDepth.LINK_TX_QUEUE_CAPACITY
  closed := fun _ => false
  batched := fun _ => false
  allowSpill := true
  sendSeq := 0

def oneEnv : Env where
  picked := some 0
  available := 1
  result := .ok true
  results := []
  now := 0

/-- A packet is queued. -/
def enqueue (now : UInt64) : List (Moment 1) :=
  ⟨now, .send (.dispatch .Data [0] none 0) 0 none⟩ ::
    List.replicate 5 ⟨now, .send (.dispatcher oneEnv) 0 none⟩

/-- The worker fetches it and stamps the start of its batch. -/
def startBatch (now : UInt64) : List (Moment 1) :=
  List.replicate 2 ⟨now, .send (.worker 0 oneEnv) 0 none⟩ ++ List.replicate 2 ⟨now, .stamp 0⟩

/-- It sends the packet and stamps the end. -/
def endBatch (now : UInt64) : List (Moment 1) :=
  List.replicate 2 ⟨now, .send (.worker 0 oneEnv) 0 (some 0)⟩ ++ List.replicate 2 ⟨now, .stamp 0⟩

/-- A read up to its last step. -/
def beginRead (now : UInt64) : List (Moment 1) := [⟨now, .loadProgress 0⟩, ⟨now, .loadDepth⟩]

/-- While the worker is in its first batch the stall is the backlog. -/
theorem stall_le_backlog_first_batch :
    (500 : UInt64).toNat ≤ ((Mealy.run step (start oneLink)
      (enqueue 1000 ++ startBatch 1000 ++ beginRead 1500)).advance 1500).backlogUs 0 :=
  (stall_le_backlog_iff oneLink (enqueue 1000 ++ startBatch 1000 ++ beginRead 1500)
    ⟨1500, .finish⟩ (by decide +kernel) 0 ⟨0, 1, 0, 0, 0, 0, 500⟩ (by decide +kernel)).1.mpr
    (Or.inr (Or.inr (by decide +kernel)))

/-- A packet is sent, the link is idle for a second, and another packet is queued.  The read
that follows it after a microsecond reports the whole second, and the factor is cut. -/
theorem stall_after_idle :
    let ms := enqueue 1000 ++ startBatch 1000 ++ endBatch 1000 ++ enqueue 1001000 ++
      beginRead 1001001
    let snap : CounterSnapshot := ⟨0, 1, 0, 1, 0, 0, 1000001⟩
    Mealy.Along step Timely [] (start oneLink) (ms ++ [⟨1001001, .finish⟩]) ∧
    (step (Mealy.run step (start oneLink) ms) ⟨1001001, .finish⟩).2 = some (0, snap) ∧
    ((Mealy.run step (start oneLink) ms).advance 1001001).backlogUs 0 = 1 ∧
    ((CongestionTracker.default.update 0 .default).update 1001001000 snap).factor =
      (1 / 10 : ℚ) := by
  decide +kernel

end Mlvpn.Ports.TxStall
