import Mlvpn.Ports.LinkMonitor

/-!
# Bandwidth measurements and outages

`active_bandwidth_prober` measures a link with streams that take seconds, without the link's
lock, while `update_link_state` may take the link down and up again.  A full ramp therefore
keeps the link's `state_since` from before its first stream and is thrown away if that has
changed, or if the link is not up.  A verification tick takes no such care: whatever its
stream measured is folded into the statistics of the link as it is then.

The prober's task is a machine whose steps end where it takes the link's lock or waits for a
stream; the calls that probes make on the link come in between, in any order.  The number of
state changes so far is carried along, and with every stream that number at its start.

## Main results

* `inv_step`: what a measurement under way says about the state changes since it started.
* `no_measurement_crosses`: in every run in which the link does not change its state during
  a verification, no measurement is folded in after a change of state.
-/

namespace Mlvpn.Ports.BandwidthProber

open Verified LinkMonitor
open ConfigFile (SchedulerConfig)
open FecRecovery (Instant)
open TxDispatch (LinkState)
open Verified.Floating (ofRat)

variable {F : Type*} [Floating F]

/-! ## The ramp -/

def RAMP_START_MBPS : F := ofRat 2
def RAMP_DOUBLING_FACTOR : F := ofRat 2
def RAMP_MAX_STEPS : Nat := 12
def RAMP_SUCCESS_THRESHOLD : F := ofRat (9 / 10)
def RAMP_BACKOFF_FACTOR : F := ofRat (4 / 5)

structure RampStep (F : Type*) where
  targetMbps : F
  achievedMbps : Option F
  clean : Bool

structure RampResult (F : Type*) where
  steps : List (RampStep F)
  confirmedMbps : F

/-- The loop of `adaptive_bandwidth_ramp`, while a stream at `target` runs. -/
structure Ramp (F : Type*) where
  steps : List (RampStep F)
  target : F
  lastClean : Option F

def Ramp.start : Ramp F := ⟨[], RAMP_START_MBPS, none⟩

def isClean (achieved : Option F) (target : F) : Bool :=
  achieved.any fun a => decide (RAMP_SUCCESS_THRESHOLD * target ≤ a)

/-- One pass of the loop: it ends with a result or goes on at twice the rate. -/
def Ramp.next (r : Ramp F) (achieved : Option F) : RampResult F ⊕ Ramp F :=
  let clean := isClean achieved r.target
  let steps := r.steps ++ [⟨r.target, achieved, clean⟩]
  if !clean then
    let backoffBase := (r.lastClean <|> achieved).getD r.target
    .inl ⟨steps, backoffBase * RAMP_BACKOFF_FACTOR⟩
  else if steps.length < RAMP_MAX_STEPS then
    .inr ⟨steps, r.target * RAMP_DOUBLING_FACTOR, achieved⟩
  else .inl ⟨steps, achieved.getD RAMP_START_MBPS⟩

def shouldFullRamp (stats : LinkStats F) (rerampInterval : Nat) (now : Instant) : Bool :=
  match stats.lastRampAt with
  | none => true
  | some lastRampAt =>
      stats.confirmedCeilingMbps.isNone || decide (2 ≤ stats.consecutiveVerifyMisses) ||
        decide (rerampInterval ≤ now - lastRampAt)

def rampResultStillValid (currentState : LinkState)
    (currentStateSince stateSinceBeforeRamp : Instant) : Bool :=
  decide (currentState = .Up) && decide (currentStateSince = stateSinceBeforeRamp)

/-! ## The prober and the link -/

/-- Where the prober's loop is.  `started` is the number of state changes when the first
stream of a measurement was started. -/
inductive Prober (F : Type*) where
  | waiting
  | deciding
  | capturing
  | startingRamp (before : Instant)
  | ramping (before : Instant) (started : Nat) (ramp : Ramp F)
  | committing (before : Instant) (started : Nat) (result : RampResult F)
  | reading
  | startingVerify (cachedMbps : F)
  | verifying (cachedMbps : F) (started : Nat)
  | verified (cachedMbps : F) (started : Nat) (achieved : Option F)

namespace Prober

/-- The tick: nothing to measure without a remote. -/
def tick (p : Prober F) (remote : Bool) : Prober F :=
  match p with
  | .waiting => if remote then .deciding else .waiting
  | p => p

def decide (p : Prober F) (fullRamp : Bool) : Prober F :=
  match p with
  | .deciding => if fullRamp then .capturing else .reading
  | p => p

/-- A ramp keeps the link's `state_since`, a verification takes the cached ceiling. -/
def readLink (p : Prober F) (stateSince : Instant) (ceilingMbps : Option F) : Prober F :=
  match p with
  | .capturing => .startingRamp stateSince
  | .reading => match ceilingMbps with
      | some cachedMbps => .startingVerify cachedMbps
      | none => .waiting
  | p => p

/-- The first stream of a measurement starts. -/
def start (p : Prober F) (changes : Nat) : Prober F :=
  match p with
  | .startingRamp before => .ramping before changes .start
  | .startingVerify cachedMbps => .verifying cachedMbps changes
  | p => p

/-- A stream is over.  A ramp goes on with the next, or ends; without a real measurement its
result is dropped at once. -/
def finish (p : Prober F) (achieved : Option F) : Prober F :=
  match p with
  | .ramping before started ramp => match ramp.next achieved with
      | .inr ramp => .ramping before started ramp
      | .inl result =>
          if result.steps.any fun step => step.achievedMbps.isSome then
            .committing before started result
          else .waiting
  | .verifying cachedMbps started => .verified cachedMbps started achieved
  | p => p

/-- A state change at `now` does not touch a measurement under way. -/
def Tolerates (p : Prober F) (now : Instant) : Prop :=
  match p with
  | .ramping before _ _ => now ≠ before
  | .committing before _ _ => now ≠ before
  | .verifying _ _ => False
  | .verified _ _ _ => False
  | _ => True

instance decidableTolerates (now : Instant) : (p : Prober F) → Decidable (p.Tolerates now)
  | .ramping before _ _ => inferInstanceAs (Decidable (now ≠ before))
  | .committing before _ _ => inferInstanceAs (Decidable (now ≠ before))
  | .verifying _ _ | .verified _ _ _ => isFalse id
  | .waiting | .deciding | .capturing | .startingRamp _ | .reading | .startingVerify _ =>
      isTrue trivial

end Prober

/-- The link as the prober and the probes see it, and the number of its state changes. -/
structure System (F : Type*) where
  link : Link F
  activeBandwidthMbps : Ewma F
  remote : Bool
  changes : Nat
  prober : Prober F

/-- The calls of probes on the link. -/
inductive Probe (F : Type*) where
  | recordRtt (rttMs : F) (now : Instant)
  | recordMiss (now : Instant)
  | updateLinkState (now : Instant)

def Probe.call : Probe F → Call F
  | .recordRtt rttMs now => .recordRtt rttMs now
  | .recordMiss now => .recordMiss now
  | .updateLinkState now => .updateLinkState now

/-- A step of the prober, a call on the link, or a remote address learned or lost. -/
inductive Action (F : Type*) where
  | tick
  | decide (now : Instant)
  | readLink
  | start
  | finish (achieved : Option F)
  | commit (now : Instant)
  | probe (call : Probe F)
  | setRemote (remote : Bool)

/-- A measurement folded into the link's statistics: the number of state changes when its
first stream was started, and now. -/
structure Fold where
  started : Nat
  committed : Nat
deriving Repr, DecidableEq

namespace System

/-- A full ramp's result, under the link's lock. -/
def commitRamp (s : System F) (now before : Instant) (started : Nat) (result : RampResult F) :
    System F × Option Fold :=
  if rampResultStillValid s.link.state s.link.stateSince before then
    ({ s with
        prober := .waiting
        activeBandwidthMbps := s.activeBandwidthMbps.update result.confirmedMbps
        link := { s.link with stats := { s.link.stats with
          confirmedCeilingMbps := some result.confirmedMbps
          lastRampAt := some now
          consecutiveVerifyMisses := 0 } } },
      some ⟨started, s.changes⟩)
  else ({ s with prober := .waiting }, none)

/-- A verification's result, under the link's lock. -/
def commitVerify (s : System F) (cachedMbps : F) (started : Nat) (achieved : Option F) :
    System F × Option Fold :=
  ({ s with
      prober := .waiting
      activeBandwidthMbps := match achieved with
        | some achievedMbps => s.activeBandwidthMbps.update achievedMbps
        | none => s.activeBandwidthMbps
      link := { s.link with stats := { s.link.stats with
        consecutiveVerifyMisses :=
          if isClean achieved cachedMbps then 0 else s.link.stats.consecutiveVerifyMisses + 1 } } },
    some ⟨started, s.changes⟩)

/-- A step that is not the prober's next one does nothing. -/
def step (cfg : SchedulerConfig F) (rerampInterval : Nat) (s : System F) :
    Action F → System F × Option Fold
  | .tick => ({ s with prober := s.prober.tick s.remote }, none)
  | .decide now =>
      ({ s with prober := s.prober.decide (shouldFullRamp s.link.stats rerampInterval now) }, none)
  | .readLink =>
      ({ s with prober :=
          s.prober.readLink s.link.stateSince s.link.stats.confirmedCeilingMbps }, none)
  | .start => ({ s with prober := s.prober.start s.changes }, none)
  | .finish achieved => ({ s with prober := s.prober.finish achieved }, none)
  | .commit now => match s.prober with
      | .committing before started result => s.commitRamp now before started result
      | .verified cachedMbps started achieved => s.commitVerify cachedMbps started achieved
      | _ => (s, none)
  | .probe call =>
      let link := s.link.step cfg call.call
      ({ s with link, changes := if link.state ≠ s.link.state then s.changes + 1 else s.changes },
        none)
  | .setRemote remote => ({ s with remote }, none)

/-- A prober that has not started yet, on any link. -/
def init (link : Link F) (activeBandwidthMbps : Ewma F) (remote : Bool) : System F :=
  ⟨link, activeBandwidthMbps, remote, 0, .waiting⟩

/-! ## Measurements under way -/

/-- No state change falls into a verification, and none during a ramp carries the very clock
reading that the ramp has kept. -/
def Undisturbed (cfg : SchedulerConfig F) (s : System F) : Action F → Prop
  | .probe (.updateLinkState now) =>
      s.link.nextState cfg ≠ s.link.state → s.prober.Tolerates now
  | _ => True

instance decidableUndisturbed (cfg : SchedulerConfig F) (s : System F) :
    (a : Action F) → Decidable (s.Undisturbed cfg a)
  | .probe (.updateLinkState now) =>
      inferInstanceAs
        (Decidable (s.link.nextState cfg ≠ s.link.state → s.prober.Tolerates now))
  | .probe (.recordRtt _ _) | .probe (.recordMiss _) | .tick | .decide _ | .readLink | .start
  | .finish _ | .commit _ | .setRemote _ => isTrue trivial

end System

/-- A ramp whose kept `state_since` is still the link's, and any verification, has seen no
state change since it started. -/
def Prober.Unchanged (p : Prober F) (stateSince : Instant) (changes : Nat) : Prop :=
  match p with
  | .ramping before started _ => stateSince = before → started = changes
  | .committing before started _ => stateSince = before → started = changes
  | .verifying _ started => started = changes
  | .verified _ started _ => started = changes
  | _ => True

def System.Unchanged (s : System F) : Prop := s.prober.Unchanged s.link.stateSince s.changes

section

variable {p : Prober F} {stateSince : Instant} {changes : Nat}

section

variable (h : p.Unchanged stateSince changes)
include h

omit [Floating F] in
theorem Prober.Unchanged.tick (remote : Bool) : (p.tick remote).Unchanged stateSince changes := by
  cases p with
  | waiting => cases remote <;> trivial
  | _ => exact h

omit [Floating F] in
theorem Prober.Unchanged.decide (fullRamp : Bool) :
    (p.decide fullRamp).Unchanged stateSince changes := by
  cases p with
  | deciding => cases fullRamp <;> trivial
  | _ => exact h

omit [Floating F] in
theorem Prober.Unchanged.readLink (ceilingMbps : Option F) :
    (p.readLink stateSince ceilingMbps).Unchanged stateSince changes := by
  cases p with
  | reading => cases ceilingMbps <;> trivial
  | _ => exact h

theorem Prober.Unchanged.start : (p.start changes).Unchanged stateSince changes := by
  cases p with
  | startingRamp before => exact fun _ => rfl
  | startingVerify cachedMbps => exact rfl
  | _ => exact h

theorem Prober.Unchanged.finish (achieved : Option F) :
    (p.finish achieved).Unchanged stateSince changes := by
  cases p with
  | ramping before started ramp =>
    unfold Prober.finish
    dsimp only
    split
    · exact h
    · split
      · exact h
      · trivial
  | _ => exact h

end

end

section

variable {cfg : SchedulerConfig F} {rerampInterval : Nat} {s : System F}

/-- A call of a probe leaves the state alone, or is an update that changes and stamps it. -/
theorem probe_cases (link : Link F) (cfg : SchedulerConfig F) (call : Probe F) :
    ((link.step cfg call.call).state = link.state ∧
        (link.step cfg call.call).stateSince = link.stateSince) ∨
      ∃ now, call = .updateLinkState now ∧ link.nextState cfg ≠ link.state ∧
        (link.step cfg call.call).state ≠ link.state ∧
        (link.step cfg call.call).stateSince = now := by
  cases call with
  | recordRtt rttMs now => exact Or.inl ⟨rfl, rfl⟩
  | recordMiss now => exact Or.inl ⟨rfl, rfl⟩
  | updateLinkState now =>
    by_cases hchange : link.state ≠ link.nextState cfg
    · have heq : (link.updateLinkState cfg now).state = link.nextState cfg ∧
          (link.updateLinkState cfg now).stateSince = now := by
        unfold Link.updateLinkState
        rw [if_pos hchange]
        exact ⟨rfl, rfl⟩
      exact Or.inr ⟨now, rfl, hchange.symm, heq.1 ▸ hchange.symm, heq.2⟩
    · have heq : link.updateLinkState cfg now = link := if_neg hchange
      refine Or.inl ?_
      show (link.updateLinkState cfg now).state = link.state ∧
        (link.updateLinkState cfg now).stateSince = link.stateSince
      rw [heq]
      exact ⟨rfl, rfl⟩

theorem unchanged_probe (h : s.Unchanged) {call : Probe F}
    (hundisturbed : s.Undisturbed cfg (.probe call)) :
    (s.step cfg rerampInterval (.probe call)).1.Unchanged := by
  unfold System.Unchanged at h ⊢
  rcases probe_cases s.link cfg call with ⟨hstate, hsince⟩ | ⟨now, rfl, hnext, hstate, hsince⟩
  · simp only [System.step, hstate, hsince, ne_eq, not_true_eq_false, if_false]
    exact h
  · have htolerates := hundisturbed hnext
    simp only [System.step, hsince]
    -- A change during a ramp leaves another stamp; none falls into a verification.
    cases hprober : s.prober with
    | ramping before started ramp =>
      rw [hprober] at htolerates
      exact fun hsame => absurd hsame htolerates
    | committing before started result =>
      rw [hprober] at htolerates
      exact fun hsame => absurd hsame htolerates
    | verifying cachedMbps started =>
      rw [hprober] at htolerates
      exact htolerates.elim
    | verified cachedMbps started achieved =>
      rw [hprober] at htolerates
      exact htolerates.elim
    | _ => trivial

/-- A ramp is folded in only with the `state_since` it has kept. -/
theorem commitRamp_spec {before : Instant} {started : Nat}
    (h : s.link.stateSince = before → started = s.changes) (now : Instant) (result : RampResult F) :
    (s.commitRamp now before started result).1.Unchanged ∧
      ∀ f ∈ (s.commitRamp now before started result).2, f.started = f.committed := by
  unfold System.commitRamp
  split
  case isTrue hvalid =>
    refine ⟨trivial, fun f hf => ?_⟩
    cases hf
    rw [rampResultStillValid, Bool.and_eq_true, decide_eq_true_eq, decide_eq_true_eq] at hvalid
    exact h hvalid.2
  case isFalse => exact ⟨trivial, fun f hf => nomatch hf⟩

theorem commit_spec (h : s.Unchanged) (now : Instant) :
    (s.step cfg rerampInterval (.commit now)).1.Unchanged ∧
      ∀ f ∈ (s.step cfg rerampInterval (.commit now)).2, f.started = f.committed := by
  have hold := h
  unfold System.Unchanged at h
  simp only [System.step]
  cases hprober : s.prober with
  | committing before started result =>
    rw [hprober] at h
    exact commitRamp_spec h now result
  | verified cachedMbps started achieved =>
    rw [hprober] at h
    refine ⟨trivial, fun f hf => ?_⟩
    cases hf
    exact h
  | _ => exact ⟨hold, fun f hf => nomatch hf⟩

/-- One step: the measurement under way stays as good as it was, and what is folded in has
seen no state change. -/
theorem inv_step (rerampInterval : Nat) (h : s.Unchanged) {a : Action F}
    (hundisturbed : s.Undisturbed cfg a) :
    (s.step cfg rerampInterval a).1.Unchanged ∧
      ∀ f ∈ (s.step cfg rerampInterval a).2, f.started = f.committed := by
  have hnone : ∀ f : Fold, f ∈ (none : Option Fold) → f.started = f.committed :=
    fun f hf => nomatch hf
  cases a with
  | probe call => exact ⟨unchanged_probe h hundisturbed, hnone⟩
  | setRemote remote => exact ⟨h, hnone⟩
  | tick => exact ⟨Prober.Unchanged.tick h s.remote, hnone⟩
  | decide now => exact ⟨Prober.Unchanged.decide h _, hnone⟩
  | readLink => exact ⟨Prober.Unchanged.readLink h _, hnone⟩
  | start => exact ⟨Prober.Unchanged.start h, hnone⟩
  | finish achieved => exact ⟨Prober.Unchanged.finish h achieved, hnone⟩
  | commit now => exact commit_spec h now

end

/-! ## Whole runs -/

/-- In every run in which the link's state does not change during a verification, nor during
a ramp at the clock reading the ramp has kept: no measurement is folded in after a state
change that its stream was started before. -/
theorem no_measurement_crosses (cfg : SchedulerConfig F) (rerampInterval : Nat) (link : Link F)
    (activeBandwidthMbps : Ewma F) (remote : Bool) (actions : List (Action F))
    (hundisturbed : Mealy.Along (System.step cfg rerampInterval) (fun _ s a => s.Undisturbed cfg a)
      [] (.init link activeBandwidthMbps remote) actions) :
    ∀ entry ∈ Mealy.log (System.step cfg rerampInterval) (.init link activeBandwidthMbps remote)
      actions, ∀ f ∈ entry.2, f.started = f.committed := by
  refine (Mealy.invariant_along (I := fun log s => s.Unchanged ∧
    ∀ entry ∈ log, ∀ f ∈ entry.2, f.started = f.committed) (fun log s a hI hG => ?_)
    ⟨trivial, fun _ hentry => absurd hentry List.not_mem_nil⟩ hundisturbed).2
  obtain ⟨hunchanged, hfold⟩ := inv_step rerampInterval hI.1 hG
  refine ⟨hunchanged, fun entry hentry => ?_⟩
  rcases List.mem_append.mp hentry with hentry | hentry
  · exact hI.2 entry hentry
  · rw [List.mem_singleton.mp hentry]
    exact hfold

/-- Thresholds of three in both directions. -/
def threeEach : SchedulerConfig ℚ :=
  { (ConfigFile.serverWith { mtu := none, address6 := none }).scheduler with
    upThreshold := 3, downThreshold := 3 }

/-- Three probes with one outcome, and the update that follows. -/
def threeProbes (probe : Probe ℚ) (now : Instant) : List (Action ℚ) :=
  [.probe probe, .probe probe, .probe probe, .probe (.updateLinkState now)]

/-- The link comes up and is ramped; five seconds later a verification is under way while
`meanwhile` happens. -/
def verification (meanwhile : List (Action ℚ)) : List (Action ℚ) :=
  threeProbes (.recordRtt 40 1000000000) 1000000000 ++
    [.tick, .decide 2000000000, .readLink, .start, .finish (some 2), .finish (some 3),
      .commit 5000000000, .tick, .decide 10000000000, .readLink, .start] ++ meanwhile ++
    [.finish (some 1), .commit 15000000000]

/-- Down after three misses, up again after three replies. -/
def outage : List (Action ℚ) :=
  threeProbes (.recordMiss 11000000000) 11000000000 ++
    threeProbes (.recordRtt 40 13000000000) 13000000000

def freshSystem : System ℚ := .init (.bind (1 / 5) 0) (.new (1 / 5)) true

theorem no_measurement_crosses_quiet :
    Mealy.Along (System.step threeEach 900000000000) (fun _ s a => s.Undisturbed threeEach a) []
        freshSystem (verification []) ∧
      ∀ entry ∈ Mealy.log (System.step threeEach 900000000000) freshSystem (verification []),
        ∀ f ∈ entry.2, f.started = f.committed := by
  have hundisturbed : Mealy.Along (System.step threeEach 900000000000)
      (fun _ s a => s.Undisturbed threeEach a) [] freshSystem (verification []) := by
    decide +kernel
  exact ⟨hundisturbed, no_measurement_crosses threeEach 900000000000 _ _ _ _ hundisturbed⟩

/-- A verification started before an outage is folded in after it: the ceiling that the
outage has cleared is gone, but the average takes the measurement and a miss is counted. -/
theorem verification_crosses_outage :
    (Mealy.log (System.step threeEach 900000000000) freshSystem (verification outage)).filterMap
        Prod.snd = [⟨1, 1⟩, ⟨1, 3⟩] ∧
      (let s := Mealy.run (System.step threeEach 900000000000) freshSystem (verification outage)
       s.link.state = .Up ∧ s.link.stats.confirmedCeilingMbps = none ∧
        s.link.stats.consecutiveVerifyMisses = 1 ∧
        s.activeBandwidthMbps.value = some (37 / 25)) := by
  decide +kernel

end Mlvpn.Ports.BandwidthProber
