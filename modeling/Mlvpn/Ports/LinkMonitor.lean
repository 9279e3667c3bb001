import Mlvpn.Ports.ConfigFile
import Mlvpn.Ports.TxDispatch
import Mlvpn.Verified.Streak

/-!
# A link's health

Port of `link::LinkStats` as far as probes feed it, with `autoreport::ProbeWindow` and
`DownTransitions`, and of `monitor::update_link_state`, which turns the streaks of hits and
misses into the link's state with one threshold for each direction.

The calls of one link are taken one by one: a probe reply is `record_rtt` and then
`update_link_state`, a timeout sweep any number of `record_miss` and then
`update_link_state`, and the bandwidth prober writes its cache at any time.

## Main results

* `counts_run`: over any calls the two counters are the streaks at the end of the history.
* `link_hysteresis`: at which updates the state changes, by that history, and what a change
  to `Up` clears.
-/

namespace Mlvpn.Ports.LinkMonitor

open Verified Streak
open ConfigFile (SchedulerConfig)
open FecRecovery (Instant)
open TxDispatch (LinkState)
open Verified.Floating (ofRat)

def PROBE_HISTORY : Nat := 330000000000
def PROBE_HISTORY_MAX_SAMPLES : Nat := 16384
def DOWN_HISTORY : Nat := 3600000000000
def DOWN_HISTORY_MAX_SAMPLES : Nat := 256

/-! ## What is kept of probes -/

structure Ewma (F : Type*) where
  alpha : F
  value : Option F

namespace Ewma

variable {F : Type*} [Floating F]

def new (alpha : F) : Ewma F := ⟨alpha, none⟩

def update (e : Ewma F) (sample : F) : Ewma F :=
  match e.value with
  | none => { e with value := some sample }
  | some prev => { e with value := some (e.alpha * sample + (ofRat 1 - e.alpha) * prev) }

end Ewma

/-- Recent probe outcomes, newest last. -/
structure ProbeWindow where
  samples : List (Instant × Bool)
  epoch : Option Instant
deriving Repr, DecidableEq

namespace ProbeWindow

def default : ProbeWindow := ⟨[], none⟩

/-- The loop that drops samples from the front while they are too old or too many. -/
def trim (now : Instant) : List (Instant × Bool) → List (Instant × Bool)
  | [] => []
  | (t, hit) :: rest =>
      if now - t > PROBE_HISTORY ∨ rest.length + 1 > PROBE_HISTORY_MAX_SAMPLES then trim now rest
      else (t, hit) :: rest

def record (w : ProbeWindow) (now : Instant) (hit : Bool) : ProbeWindow where
  samples := trim now (w.samples ++ [(now, hit)])
  epoch := some (w.epoch.getD now)

def clear (_ : ProbeWindow) : ProbeWindow := ⟨[], none⟩

end ProbeWindow

/-- When the link last went from `Up` to `Down`. -/
structure DownTransitions where
  times : List Instant
deriving Repr, DecidableEq

namespace DownTransitions

def trim (now : Instant) : List Instant → List Instant
  | [] => []
  | t :: rest =>
      if now - t > DOWN_HISTORY ∨ rest.length + 1 > DOWN_HISTORY_MAX_SAMPLES then trim now rest
      else t :: rest

def record (d : DownTransitions) (now : Instant) : DownTransitions :=
  ⟨trim now (d.times ++ [now])⟩

end DownTransitions

/-- The part of `LinkStats` that probes and the bandwidth prober write. -/
structure LinkStats (F : Type*) where
  rttMs : Ewma F
  jitterMs : Ewma F
  lossRate : Ewma F
  confirmedCeilingMbps : Option F
  lastRampAt : Option Instant
  consecutiveVerifyMisses : UInt32
  lastRttMs : Option F
  consecutiveMisses : UInt32
  consecutiveHits : UInt32
  probeWindow : ProbeWindow
  downTransitions : DownTransitions

namespace LinkStats

variable {F : Type*} [Floating F]

def new (alpha : F) : LinkStats F where
  rttMs := .new alpha
  jitterMs := .new alpha
  lossRate := .new alpha
  confirmedCeilingMbps := none
  lastRampAt := none
  consecutiveVerifyMisses := 0
  lastRttMs := none
  consecutiveMisses := 0
  consecutiveHits := 0
  probeWindow := .default
  downTransitions := ⟨[]⟩

/-- `(a - b).abs()`; negation is exact. -/
def absDiff (a b : F) : F := max (a - b) (b - a)

def recordRtt (s : LinkStats F) (rttMs : F) (now : Instant) : LinkStats F :=
  { s with
    rttMs := s.rttMs.update rttMs
    jitterMs := match s.lastRttMs with
      | some prev => s.jitterMs.update (absDiff rttMs prev)
      | none => s.jitterMs
    lastRttMs := some rttMs
    lossRate := s.lossRate.update (ofRat 0)
    consecutiveMisses := 0
    consecutiveHits := s.consecutiveHits + 1
    probeWindow := s.probeWindow.record now true }

def recordMiss (s : LinkStats F) (now : Instant) : LinkStats F :=
  { s with
    lossRate := s.lossRate.update (ofRat 1)
    consecutiveMisses := s.consecutiveMisses + 1
    consecutiveHits := 0
    probeWindow := s.probeWindow.record now false }

end LinkStats

/-! ## The state -/

/-- What `update_link_state` reads and writes of a `Link`. -/
structure Link (F : Type*) where
  state : LinkState
  stateSince : Instant
  stats : LinkStats F

namespace Link

variable {F : Type*} [Floating F]

/-- As `Link::bind` leaves it. -/
def bind (alpha : F) (now : Instant) : Link F := ⟨.Probing, now, .new alpha⟩

/-- The `match` on state and streaks. -/
def nextState (link : Link F) (cfg : SchedulerConfig F) : LinkState :=
  match link.state with
  | .Up => if cfg.downThreshold ≤ link.stats.consecutiveMisses then .Down else .Up
  | .Down => if cfg.upThreshold ≤ link.stats.consecutiveHits then .Up else .Down
  | .Probing => if cfg.upThreshold ≤ link.stats.consecutiveHits then .Up else .Probing

/-- `monitor::update_link_state`. -/
def updateLinkState (link : Link F) (cfg : SchedulerConfig F) (now : Instant) :
    Link F :=
  let was := link.state
  let state := link.nextState cfg
  if was ≠ state then
    let stats := link.stats
    let stats := if was = .Up ∧ state = .Down then
        { stats with downTransitions := stats.downTransitions.record now }
      else stats
    let stats := if was ≠ .Up ∧ state = .Up then
        { stats with
          confirmedCeilingMbps := none
          lastRampAt := none
          consecutiveVerifyMisses := 0
          probeWindow := stats.probeWindow.clear }
      else stats
    ⟨state, now, stats⟩
  else link

end Link

/-! ## Calls -/

/-- The calls on one link: `cache` is the bandwidth prober writing its three fields. -/
inductive Call (F : Type*) where
  | recordRtt (rttMs : F) (now : Instant)
  | recordMiss (now : Instant)
  | updateLinkState (now : Instant)
  | cache (confirmedCeilingMbps : Option F) (lastRampAt : Option Instant)
      (consecutiveVerifyMisses : UInt32)

inductive Outcome where
  | hit
  | miss
deriving Repr, DecidableEq

/-- The probe outcome a call records. -/
def Call.outcome {F : Type*} : Call F → Option Outcome
  | .recordRtt .. => some .hit
  | .recordMiss .. => some .miss
  | _ => none

/-- The probe outcomes so far, the latest last. -/
def outcomes {F : Type*} (calls : List (Call F)) : List Outcome := calls.filterMap Call.outcome

namespace Link

variable {F : Type*} [Floating F]

def step (cfg : SchedulerConfig F) (link : Link F) : Call F → Link F
  | .recordRtt rttMs now => { link with stats := link.stats.recordRtt rttMs now }
  | .recordMiss now => { link with stats := link.stats.recordMiss now }
  | .updateLinkState now => link.updateLinkState cfg now
  | .cache confirmedCeilingMbps lastRampAt consecutiveVerifyMisses =>
      { link with stats := { link.stats with
          confirmedCeilingMbps, lastRampAt, consecutiveVerifyMisses } }

def run (cfg : SchedulerConfig F) (link : Link F) (calls : List (Call F)) : Link F :=
  Mealy.run (Mealy.silent (step cfg)) link calls

/-! ## Streaks -/

/-- The counters are the streaks at the end of the history. -/
structure Counts (history : List Outcome) (stats : LinkStats F) : Prop where
  hits : stats.consecutiveHits.toNat = streak .hit history
  misses : stats.consecutiveMisses.toNat = streak .miss history

omit [Floating F] in
theorem outcomes_append (calls : List (Call F)) (call : Call F) :
    outcomes (calls ++ [call]) = outcomes calls ++ call.outcome.toList := by
  rw [outcomes, List.filterMap_append]
  cases h : call.outcome with
  | none => simp [outcomes, h]
  | some o => simp [outcomes, h]

variable {history : List Outcome}

theorem toNat_succ_streak {count : UInt32} {o : Outcome}
    (h : count.toNat = streak o history) (hlength : (history ++ [o]).length < 2 ^ 32) :
    (count + 1).toNat = streak o (history ++ [o]) := by
  have hle := streak_le_length o history
  rw [List.length_append, List.length_singleton] at hlength
  rw [streak_append_self, UInt32.toNat_add, UInt32.toNat_one, h, Nat.mod_eq_of_lt (by omega)]

omit [Floating F] in
/-- An update touches neither counter. -/
theorem updateLinkState_counters (link : Link F) (cfg : SchedulerConfig F) (now : Instant) :
    (link.updateLinkState cfg now).stats.consecutiveHits = link.stats.consecutiveHits ∧
      (link.updateLinkState cfg now).stats.consecutiveMisses = link.stats.consecutiveMisses := by
  unfold updateLinkState
  dsimp only
  split
  · split
    · split
      · exact ⟨rfl, rfl⟩
      · exact ⟨rfl, rfl⟩
    · split
      · exact ⟨rfl, rfl⟩
      · exact ⟨rfl, rfl⟩
  · exact ⟨rfl, rfl⟩

variable {link : Link F}

theorem counts_step {cfg : SchedulerConfig F} (h : Counts history link.stats) (call : Call F)
    (hlength : (history ++ call.outcome.toList).length < 2 ^ 32) :
    Counts (history ++ call.outcome.toList) (step cfg link call).stats := by
  cases call with
  | recordRtt rttMs now =>
    refine ⟨toNat_succ_streak h.hits hlength, ?_⟩
    show (0 : UInt32).toNat = streak .miss (history ++ [.hit])
    rw [streak_append_of_ne (by decide)]
    rfl
  | recordMiss now =>
    refine ⟨?_, toNat_succ_streak h.misses hlength⟩
    show (0 : UInt32).toNat = streak .hit (history ++ [.miss])
    rw [streak_append_of_ne (by decide)]
    rfl
  | updateLinkState now =>
    obtain ⟨hhits, hmisses⟩ := updateLinkState_counters link cfg now
    show Counts (history ++ []) (link.updateLinkState cfg now).stats
    rw [List.append_nil]
    exact ⟨by rw [hhits, h.hits], by rw [hmisses, h.misses]⟩
  | cache confirmedCeilingMbps lastRampAt consecutiveVerifyMisses =>
    show Counts (history ++ []) _
    rw [List.append_nil]
    exact ⟨h.hits, h.misses⟩

theorem counts_run (cfg : SchedulerConfig F) (alpha : F) (bound : Instant) (calls : List (Call F))
    (hlength : (outcomes calls).length < 2 ^ 32) :
    Counts (outcomes calls) (run cfg (bind alpha bound) calls).stats := by
  induction calls using List.reverseRecOn with
  | nil => exact ⟨rfl, rfl⟩
  | append_singleton calls call ih =>
    rw [outcomes_append] at hlength
    rw [run, Mealy.run_append, outcomes_append]
    refine counts_step (ih ?_) call hlength
    rw [List.length_append] at hlength
    omega

theorem streak_hit_eq_zero_iff (h : history ≠ []) :
    streak .hit history = 0 ↔ streak .miss history ≠ 0 := by
  induction history using List.reverseRecOn with
  | nil => exact absurd rfl h
  | append_singleton history o =>
    cases o with
    | hit =>
      rw [streak_append_self, streak_append_of_ne (by decide)]
      omega
    | miss =>
      rw [streak_append_self, streak_append_of_ne (by decide)]
      omega

/-! ## Transitions -/

omit [Floating F] in
theorem Counts.up_iff {stats : LinkStats F} (h : Counts history stats)
    (threshold : UInt32) : threshold ≤ stats.consecutiveHits ↔
      List.replicate threshold.toNat .hit <:+ history := by
  rw [UInt32.le_iff_toNat_le, h.hits, replicate_suffix_iff]

omit [Floating F] in
theorem Counts.down_iff {stats : LinkStats F} (h : Counts history stats)
    (threshold : UInt32) : threshold ≤ stats.consecutiveMisses ↔
      List.replicate threshold.toNat .miss <:+ history := by
  rw [UInt32.le_iff_toNat_le, h.misses, replicate_suffix_iff]

omit [Floating F] in
theorem updateLinkState_state (link : Link F) (cfg : SchedulerConfig F) (now : Instant) :
    (link.updateLinkState cfg now).state = link.nextState cfg := by
  unfold updateLinkState
  dsimp only
  split
  · rfl
  case isFalse hsame => exact not_not.mp hsame

omit [Floating F] in
theorem nextState_of_not_up (h : link.state ≠ .Up) (cfg : SchedulerConfig F) :
    link.nextState cfg =
      if cfg.upThreshold ≤ link.stats.consecutiveHits then .Up else link.state := by
  unfold nextState
  cases hstate : link.state with
  | Up => exact absurd hstate h
  | Down => rfl
  | Probing => rfl

omit [Floating F] in
theorem nextState_of_up (h : link.state = .Up) (cfg : SchedulerConfig F) :
    link.nextState cfg =
      if cfg.downThreshold ≤ link.stats.consecutiveMisses then .Down else .Up := by
  unfold nextState
  rw [h]

/-- Nothing is left of what was measured on the path before. -/
structure Cleared (stats : LinkStats F) : Prop where
  ceiling : stats.confirmedCeilingMbps = none
  ramp : stats.lastRampAt = none
  verifyMisses : stats.consecutiveVerifyMisses = 0
  window : stats.probeWindow = .default

omit [Floating F] in
theorem cleared_updateLinkState {cfg : SchedulerConfig F}
    (hbefore : link.state ≠ .Up) (hafter : link.nextState cfg = .Up) (now : Instant) :
    Cleared (link.updateLinkState cfg now).stats := by
  unfold updateLinkState
  dsimp only
  rw [hafter, if_pos hbefore, if_pos ⟨hbefore, rfl⟩]
  exact ⟨rfl, rfl, rfl, rfl⟩

/-- For every sequence of calls on a fresh link with fewer than `2 ^ 32` probe outcomes, both
thresholds, and at every point of it: one streak counter is zero and the other is not, once
there was an outcome; only an update changes the state; from another state it is `Up` after
an update exactly if the latest `up_threshold` outcomes are hits; from `Up` it is `Down`
after an update exactly if the latest `down_threshold` outcomes are misses; no other change
occurs; and whenever it becomes `Up`, the bandwidth cache and the probe window are
cleared. -/
theorem link_hysteresis (cfg : SchedulerConfig F) (alpha : F) (bound : Instant)
    (calls : List (Call F)) (hlength : (outcomes calls).length < 2 ^ 32) :
    let link := run cfg (bind alpha bound) calls
    (outcomes calls ≠ [] →
      (link.stats.consecutiveHits = 0 ↔ link.stats.consecutiveMisses ≠ 0)) ∧
    (∀ call, (∀ now, call ≠ .updateLinkState now) → (step cfg link call).state = link.state) ∧
    ∀ now, let after := step cfg link (.updateLinkState now)
      (link.state ≠ .Up → (after.state = .Up ↔
        List.replicate cfg.upThreshold.toNat .hit <:+ outcomes calls)) ∧
      (link.state = .Up → (after.state = .Down ↔
        List.replicate cfg.downThreshold.toNat .miss <:+ outcomes calls)) ∧
      (after.state = link.state ∨ link.state ≠ .Up ∧ after.state = .Up ∨
        link.state = .Up ∧ after.state = .Down) ∧
      (link.state ≠ .Up → after.state = .Up → Cleared after.stats) := by
  intro link
  have hcounts : Counts (outcomes calls) link.stats := counts_run cfg alpha bound calls hlength
  refine ⟨?_, ?_, ?_⟩
  · intro hne
    rw [← UInt32.toNat_inj, hcounts.hits, Ne, ← UInt32.toNat_inj, hcounts.misses]
    exact streak_hit_eq_zero_iff hne
  · intro call hcall
    cases call with
    | recordRtt rttMs now => rfl
    | recordMiss now => rfl
    | updateLinkState now => exact absurd rfl (hcall now)
    | cache confirmedCeilingMbps lastRampAt consecutiveVerifyMisses => rfl
  · intro now after
    have hafter : after.state = link.nextState cfg := updateLinkState_state link cfg now
    rw [hafter, ← hcounts.up_iff, ← hcounts.down_iff]
    refine ⟨?_, ?_, ?_, fun hnot hup => cleared_updateLinkState hnot hup now⟩
    · intro hnot
      rw [nextState_of_not_up hnot]
      split
      case isTrue hreached => exact iff_of_true rfl hreached
      case isFalse hshort => exact iff_of_false hnot hshort
    · intro hup
      rw [nextState_of_up hup]
      split
      case isTrue hreached => exact iff_of_true rfl hreached
      case isFalse hshort => exact iff_of_false nofun hshort
    · by_cases hup : link.state = .Up
      · rw [nextState_of_up hup]
        split
        · exact .inr (.inr ⟨hup, rfl⟩)
        · exact .inl hup.symm
      · rw [nextState_of_not_up hup]
        split
        · exact .inr (.inl ⟨hup, rfl⟩)
        · exact .inl rfl

/-- With thresholds of three, the update after the third reply in a row. -/
theorem link_hysteresis_third_reply :
    let cfg := { (ConfigFile.serverWith { mtu := none, address6 := none }).scheduler with
      upThreshold := 3, downThreshold := 3 }
    let calls : List (Call ℚ) := [.recordMiss 1, .updateLinkState 1, .recordRtt 40 2,
      .updateLinkState 2, .recordRtt 41 3, .updateLinkState 3, .recordRtt 40 4]
    (run cfg (bind (1 / 5) 0) calls).state = .Probing ∧
      (step cfg (run cfg (bind (1 / 5) 0) calls) (.updateLinkState 4)).state = .Up := by
  intro cfg calls
  have hprobing : (run cfg (bind (1 / 5) 0) calls).state = .Probing := by decide +kernel
  have hlaw := (link_hysteresis cfg (1 / 5) 0 calls (by decide)).2.2 4
  exact ⟨hprobing, (hlaw.1 (by rw [hprobing]; decide)).mpr (by decide)⟩

end Link

end Mlvpn.Ports.LinkMonitor
