import Mlvpn.Ports.LinkMonitor
import Mlvpn.Ports.Scheduling

/-!
# The timers and the automatic tuning

Port of the parts of `tunnel` that hand configured values to primitives that panic: the
timers of `link_prober`, `active_bandwidth_prober` and `reorder_tuning_loop`, and the
clamps of `suggest_probe_interval_ms`, `suggest_ewma_alpha` and
`suggest_reorder_window_ms`.  A panic is an error value here, so that a task that runs on
is one whose run ends in `ok`.

`validate` puts an upper bound on `probe_interval_ms`, with a comment that names the clamp
it protects, but no lower one, and it compares the bounds of the EWMA factor in a way that
a NaN passes.

## Main results

* `ticking_run`: while a link's prober runs, both its timers have the effective interval
  as their period, and that stays between the configured one and the ceiling.
* `accepted_safe_iff`: the accepted configurations under which no task panics, whatever
  the links' histories.
-/

namespace Mlvpn.Ports.AutoTune

open Verified ConfigFile
open FecRecovery (Instant)
open LinkMonitor (LinkStats)
open Protocol (IoError)
open Scheduling (LinkScore)
open Verified.Floating (ofRat)

/-! ## Primitives that panic -/

inductive Panic where
  /-- `interval`: the period must be non-zero. -/
  | zeroPeriod
  /-- `clamp`: the lower bound is not at most the upper one. -/
  | clampBounds
deriving Repr, DecidableEq

/-- `interval(Duration::from_millis(period))`, or `from_secs`. -/
def interval (period : UInt64) : Except Panic UInt64 :=
  if period = 0 then .error .zeroPeriod else .ok period

/-- `u64::clamp`. -/
def clampU64 (x lo hi : UInt64) : Except Panic UInt64 :=
  if lo ≤ hi then .ok (if x < lo then lo else if hi < x then hi else x)
  else .error .clampBounds

section

variable {F : Type} [Floating F]

/-- `f64::clamp`. -/
def clampF64 (x lo hi : F) : Except Panic F :=
  if lo ≤ hi then .ok (Floating.clamp x lo hi) else .error .clampBounds

/-- Not a NaN. -/
def IsNumber (x : F) : Prop := x ≤ x

instance (x : F) : Decidable (IsNumber x) := inferInstanceAs (Decidable (x ≤ x))

/-! ## Suggestions -/

def EWMA_ALPHA_SMOOTHING_STREAK : UInt32 := 10
def EWMA_ALPHA_STEP : F := ofRat (1 / 50)
def PROBE_BACKOFF_STREAK : UInt32 := 10
def PROBE_BACKOFF_FACTOR : F := ofRat (3 / 2)
def REORDER_WINDOW_SPREAD_MULTIPLIER : F := ofRat (3 / 2)
def REORDER_WINDOW_JITTER_MULTIPLIER : F := ofRat 4
def REORDER_WINDOW_FLOOR_MS : F := ofRat 10

def suggestEwmaAlpha (minAlpha maxAlpha currentAlpha : F)
    (consecutiveHits consecutiveMisses : UInt32) : Except Panic F :=
  if 0 < consecutiveMisses then .ok maxAlpha
  else if 0 < consecutiveHits ∧ consecutiveHits % EWMA_ALPHA_SMOOTHING_STREAK = 0 then
    clampF64 (currentAlpha - EWMA_ALPHA_STEP) minAlpha maxAlpha
  else clampF64 currentAlpha minAlpha maxAlpha

variable (F) in
def suggestProbeIntervalMs (floorMs maxMs currentMs : UInt64)
    (consecutiveHits consecutiveMisses : UInt32) : Except Panic UInt64 :=
  if 0 < consecutiveMisses then .ok floorMs
  else if 0 < consecutiveHits ∧ consecutiveHits % PROBE_BACKOFF_STREAK = 0 then
    let backedOff := Floating.toU64 (ofRat currentMs.toNat * PROBE_BACKOFF_FACTOR : F)
    clampU64 backedOff floorMs maxMs
  else clampU64 currentMs floorMs maxMs

/-- The spread and jitter terms of `suggest_reorder_window_ms`: of the settled primary
alone, or over every link that is up. -/
def reorderTerms (up : List (LinkScore F)) (settledPrimary : Option (LinkScore F)) : F × F :=
  match settledPrimary with
  | some primary =>
      (ofRat 0, primary.jitterMs.getD (ofRat 0) * REORDER_WINDOW_JITTER_MULTIPLIER)
  | none =>
      let rtts := up.filterMap (·.rttMs)
      let spread := if 2 ≤ rtts.length then
          rtts.foldl max (ofRat 0 - Floating.maxValue) - rtts.foldl min Floating.maxValue
        else ofRat 0
      let worstJitter := (up.filterMap (·.jitterMs)).foldl max (ofRat 0)
      (spread * REORDER_WINDOW_SPREAD_MULTIPLIER, worstJitter * REORDER_WINDOW_JITTER_MULTIPLIER)

def suggestReorderWindowMs (scores : List (LinkScore F)) (primaryIdx : Option Nat)
    (minMs maxMs : UInt64) : Except Panic (Option UInt64) :=
  let up := scores.filter (·.state = .Up)
  if up.isEmpty then .ok none
  else do
    let settledPrimary := primaryIdx.bind fun idx => up.find? (·.linkIndex = idx)
    let terms := reorderTerms up settledPrimary
    let suggested := terms.1 + terms.2 + REORDER_WINDOW_FLOOR_MS
    let clamped ← clampF64 suggested (ofRat minMs.toNat) (ofRat maxMs.toNat)
    pure (some (Floating.toU64 (Floating.round clamped)))

/-! ## The tasks -/

/-- What the tasks read of `[scheduler]` and `validate` does not. -/
structure Tuning (F : Type) where
  ewmaAlpha : F
  reorderWindowMs : UInt64
  autoTuneReorderWindow : Bool
  autoTuneProbeInterval : Bool
  autoTuneEwmaAlpha : Bool
  activeBandwidthProbing : Bool

def setAlpha (s : LinkStats F) (alpha : F) : LinkStats F :=
  { s with
    rttMs := { s.rttMs with alpha }
    jitterMs := { s.jitterMs with alpha }
    lossRate := { s.lossRate with alpha } }

/-- What the prober reads and writes of a `Link`. -/
structure Link (F : Type) where
  config : LinkConfig F
  stats : LinkStats F
  effectiveProbeIntervalMs : UInt64
  effectiveEwmaAlpha : F

def Link.bind (config : LinkConfig F) (ewmaAlpha : F) : Link F where
  config := config
  stats := .new ewmaAlpha
  effectiveProbeIntervalMs := config.probeIntervalMs
  effectiveEwmaAlpha := ewmaAlpha

def STATS_SHARE_INTERVAL_MS : UInt64 := 1000
def REORDER_TUNING_INTERVAL : UInt64 := 30

/-- A link with its prober's timers, by their periods. -/
structure Prober (F : Type) where
  link : Link F
  probeTick : UInt64
  sweepTick : UInt64
  statsTick : UInt64

/-- `link_prober` up to its loop. -/
def linkProber (link : Link F) : Except Panic (Prober F) := do
  let probeTick ← interval link.effectiveProbeIntervalMs
  let sweepTick ← interval link.effectiveProbeIntervalMs
  let statsTick ← interval STATS_SHARE_INTERVAL_MS
  pure { link, probeTick, sweepTick, statsTick }

namespace Prober

def tuneProbeInterval (cfg : SchedulerConfig F) (p : Prober F) : Except Panic (Prober F) := do
  let suggested ← suggestProbeIntervalMs F p.link.config.probeIntervalMs cfg.probeIntervalMaxMs
    p.link.effectiveProbeIntervalMs p.link.stats.consecutiveHits p.link.stats.consecutiveMisses
  if suggested = p.link.effectiveProbeIntervalMs then pure p
  else
    let probeTick ← interval suggested
    let sweepTick ← interval suggested
    pure { p with
      link := { p.link with effectiveProbeIntervalMs := suggested }, probeTick, sweepTick }

def tuneEwmaAlpha (cfg : SchedulerConfig F) (p : Prober F) : Except Panic (Prober F) := do
  let suggested ← suggestEwmaAlpha cfg.ewmaAlphaMin cfg.ewmaAlphaMax p.link.effectiveEwmaAlpha
    p.link.stats.consecutiveHits p.link.stats.consecutiveMisses
  if suggested ≤ p.link.effectiveEwmaAlpha ∧ p.link.effectiveEwmaAlpha ≤ suggested then pure p
  else pure { p with
    link := { p.link with
      effectiveEwmaAlpha := suggested, stats := setAlpha p.link.stats suggested } }

/-- The tuning at the end of a sweep. -/
def sweep (cfg : SchedulerConfig F) (tuning : Tuning F) (p : Prober F) :
    Except Panic (Prober F) :=
  (if tuning.autoTuneProbeInterval then p.tuneProbeInterval cfg else pure p) >>= fun p =>
    if tuning.autoTuneEwmaAlpha then p.tuneEwmaAlpha cfg else pure p

end Prober

/-- What happens to a link: probe replies and misses in any order, and sweeps. -/
inductive Event (F : Type) where
  | recordRtt (rttMs : F) (now : Instant)
  | recordMiss (now : Instant)
  | sweep

def Prober.step (cfg : SchedulerConfig F) (tuning : Tuning F) (p : Prober F) :
    Event F → Except Panic (Prober F)
  | .recordRtt rttMs now =>
      pure { p with link := { p.link with stats := p.link.stats.recordRtt rttMs now } }
  | .recordMiss now =>
      pure { p with link := { p.link with stats := p.link.stats.recordMiss now } }
  | .sweep => p.sweep cfg tuning

/-- The whole life of a link's prober. -/
def runProber (cfg : SchedulerConfig F) (tuning : Tuning F) (config : LinkConfig F)
    (events : List (Event F)) : Except Panic (Prober F) := do
  let p ← linkProber (.bind config tuning.ewmaAlpha)
  events.foldlM (fun p e => p.step cfg tuning e) p

/-- The timer of `active_bandwidth_prober`, if it has one. -/
def activeBandwidthProber (cfg : SchedulerConfig F) (tuning : Tuning F) :
    Except Panic (Option UInt64) :=
  if tuning.activeBandwidthProbing then some <$> interval cfg.activeBandwidthProbeIntervalSecs
  else .ok none

variable (F) in
/-- The hysteresis of `reorder_tuning_loop`: a suggestion counts if it is far enough from
the window in effect. -/
def nextWindow (current : UInt64) : Option UInt64 → UInt64
  | none => current
  | some suggested =>
      let threshold := Floating.toU64
        (max (ofRat current.toNat * ofRat (1 / 5)) (ofRat 10) : F)
      let absDiff := if current < suggested then suggested - current else current - suggested
      if threshold < absDiff then suggested else current

/-- One round of `reorder_tuning_loop`, with the scores and the primary it finds. -/
def tuneReorderWindow (cfg : SchedulerConfig F) (current : UInt64)
    (found : List (LinkScore F) × Option Nat) : Except Panic UInt64 := do
  let suggested ← suggestReorderWindowMs found.1 found.2
    cfg.reorderWindowMinMs cfg.reorderWindowMaxMs
  pure (nextWindow F current suggested)

/-- `reorder_tuning_loop`, by the window in effect. -/
def reorderTuningLoop (cfg : SchedulerConfig F) (tuning : Tuning F)
    (found : List (List (LinkScore F) × Option Nat)) : Except Panic UInt64 :=
  if tuning.autoTuneReorderWindow then do
    let _ ← interval REORDER_TUNING_INTERVAL
    found.foldlM (tuneReorderWindow cfg) tuning.reorderWindowMs
  else .ok tuning.reorderWindowMs

/-- None of the tasks panics, whatever the links go through. -/
structure Safe (cfg : Config F) (tuning : Tuning F) : Prop where
  prober : ∀ link ∈ cfg.links, ∀ events,
    ∃ p, runProber cfg.scheduler tuning link events = .ok p
  bandwidth : ∃ t, activeBandwidthProber cfg.scheduler tuning = .ok t
  reorder : ∀ found, ∃ w, reorderTuningLoop cfg.scheduler tuning found = .ok w

/-! ## When the primitives are safe -/

theorem interval_of_ne {period : UInt64} (h : period ≠ 0) : interval period = .ok period :=
  if_neg h

theorem clampU64_of_le {lo hi : UInt64} (h : lo ≤ hi) (x : UInt64) :
    ∃ y, clampU64 x lo hi = .ok y ∧ lo ≤ y ∧ y ≤ hi := by
  refine ⟨_, if_pos h, ?_⟩
  split
  · exact ⟨UInt64.le_refl lo, h⟩
  · next hlo =>
      split
      · exact ⟨h, UInt64.le_refl hi⟩
      · next hhi => exact ⟨UInt64.not_lt.mp hlo, UInt64.not_lt.mp hhi⟩

theorem clampF64_of_le {lo hi : F} (h : lo ≤ hi) (x : F) :
    clampF64 x lo hi = .ok (Floating.clamp x lo hi) := if_pos h

theorem le_of_clampF64_eq_ok {x lo hi y : F} (h : clampF64 x lo hi = .ok y) : lo ≤ hi := by
  by_contra hle
  rw [clampF64, if_neg hle] at h
  cases h

/-- A suggested interval lies between the configured one and the ceiling, wherever the
interval in effect lies. -/
theorem suggestProbeIntervalMs_of_le {floorMs maxMs : UInt64} (h : floorMs ≤ maxMs)
    (currentMs : UInt64) (hits misses : UInt32) :
    ∃ y, suggestProbeIntervalMs F floorMs maxMs currentMs hits misses = .ok y ∧
      floorMs ≤ y ∧ y ≤ maxMs := by
  unfold suggestProbeIntervalMs
  split
  · exact ⟨floorMs, rfl, UInt64.le_refl floorMs, h⟩
  · split
    · exact clampU64_of_le h _
    · exact clampU64_of_le h _

theorem suggestEwmaAlpha_of_le {minAlpha maxAlpha : F} (h : minAlpha ≤ maxAlpha)
    (currentAlpha : F) (hits misses : UInt32) :
    ∃ y, suggestEwmaAlpha minAlpha maxAlpha currentAlpha hits misses = .ok y := by
  unfold suggestEwmaAlpha
  split
  · exact ⟨_, rfl⟩
  · split
    · exact ⟨_, clampF64_of_le h _⟩
    · exact ⟨_, clampF64_of_le h _⟩

theorem suggestReorderWindowMs_of_le {minMs maxMs : UInt64}
    (h : (ofRat minMs.toNat : F) ≤ ofRat maxMs.toNat) (scores : List (LinkScore F))
    (primaryIdx : Option Nat) :
    ∃ y, suggestReorderWindowMs scores primaryIdx minMs maxMs = .ok y := by
  rw [suggestReorderWindowMs]
  by_cases hup : (scores.filter (·.state = .Up)).isEmpty
  · exact ⟨none, if_pos hup⟩
  · simp only [if_neg hup, clampF64_of_le h]
    exact ⟨_, rfl⟩

/-! ## Runs -/

omit [Floating F] in
/-- A fold of steps that each succeed and keep `I`. -/
theorem foldlM_of_invariant {ε σ α : Type} {I : σ → Prop} {step : σ → α → Except ε σ}
    (hstep : ∀ s a, I s → ∃ s', step s a = .ok s' ∧ I s') (as : List α) {s : σ} (hI : I s) :
    ∃ s', as.foldlM step s = .ok s' ∧ I s' := by
  induction as generalizing s with
  | nil => exact ⟨s, rfl, hI⟩
  | cons a as ih =>
    obtain ⟨s₁, hs₁, hI₁⟩ := hstep s a hI
    obtain ⟨s', hs', hI'⟩ := ih hI₁
    refine ⟨s', ?_, hI'⟩
    rw [List.foldlM_cons, hs₁]
    exact hs'

/-- Both timers have the effective interval as their period, and that one its bounds. -/
structure Ticking (cfg : SchedulerConfig F) (config : LinkConfig F) (p : Prober F) : Prop where
  unchanged : p.link.config = config
  probe : p.probeTick = p.link.effectiveProbeIntervalMs
  sweep : p.sweepTick = p.link.effectiveProbeIntervalMs
  floor : config.probeIntervalMs ≤ p.link.effectiveProbeIntervalMs
  ceiling : p.link.effectiveProbeIntervalMs ≤ cfg.probeIntervalMaxMs

section

variable {cfg : SchedulerConfig F} {config : LinkConfig F} {tuning : Tuning F} {p : Prober F}

theorem ne_zero_of_le {a b : UInt64} (ha : a ≠ 0) (h : a ≤ b) : b ≠ 0 := by
  rintro rfl
  exact ha (UInt64.le_zero_iff.mp h)

omit [Floating F] in
theorem linkProber_ticking (hne : config.probeIntervalMs ≠ 0)
    (hle : config.probeIntervalMs ≤ cfg.probeIntervalMaxMs) (alpha : F) :
    ∃ p, linkProber (.bind config alpha) = .ok p ∧ Ticking cfg config p := by
  refine ⟨⟨.bind config alpha, config.probeIntervalMs, config.probeIntervalMs, 1000⟩, ?_, ?_⟩
  · rw [linkProber, Link.bind, interval_of_ne hne]
    rfl
  · exact ⟨rfl, rfl, rfl, UInt64.le_refl _, hle⟩

theorem Ticking.tuneProbeInterval (h : Ticking cfg config p) (hne : config.probeIntervalMs ≠ 0)
    (hle : config.probeIntervalMs ≤ cfg.probeIntervalMaxMs) :
    ∃ p', p.tuneProbeInterval cfg = .ok p' ∧ Ticking cfg config p' := by
  obtain ⟨y, hy, hfloor, hceiling⟩ := suggestProbeIntervalMs_of_le (F := F) hle
    p.link.effectiveProbeIntervalMs p.link.stats.consecutiveHits p.link.stats.consecutiveMisses
  rw [← h.unchanged] at hy
  by_cases hsame : y = p.link.effectiveProbeIntervalMs
  · refine ⟨p, ?_, h⟩
    rw [Prober.tuneProbeInterval, hy]
    exact if_pos hsame
  · refine ⟨{ p with
      link := { p.link with effectiveProbeIntervalMs := y }, probeTick := y, sweepTick := y },
      ?_, h.unchanged, rfl, rfl, hfloor, hceiling⟩
    rw [Prober.tuneProbeInterval, hy]
    refine (if_neg hsame).trans ?_
    rw [interval_of_ne (ne_zero_of_le hne hfloor)]
    rfl

theorem Ticking.tuneEwmaAlpha (h : Ticking cfg config p)
    (halpha : cfg.ewmaAlphaMin ≤ cfg.ewmaAlphaMax) :
    ∃ p', p.tuneEwmaAlpha cfg = .ok p' ∧ Ticking cfg config p' := by
  obtain ⟨y, hy⟩ := suggestEwmaAlpha_of_le halpha p.link.effectiveEwmaAlpha
    p.link.stats.consecutiveHits p.link.stats.consecutiveMisses
  rw [Prober.tuneEwmaAlpha, hy]
  by_cases hsame : y ≤ p.link.effectiveEwmaAlpha ∧ p.link.effectiveEwmaAlpha ≤ y
  · exact ⟨p, if_pos hsame, h⟩
  · exact ⟨_, if_neg hsame, h.unchanged, h.probe, h.sweep, h.floor, h.ceiling⟩

theorem Ticking.step (h : Ticking cfg config p) (hne : config.probeIntervalMs ≠ 0)
    (hle : config.probeIntervalMs ≤ cfg.probeIntervalMaxMs)
    (halpha : tuning.autoTuneEwmaAlpha = true → cfg.ewmaAlphaMin ≤ cfg.ewmaAlphaMax)
    (e : Event F) : ∃ p', p.step cfg tuning e = .ok p' ∧ Ticking cfg config p' := by
  cases e with
  | recordRtt rttMs now => exact ⟨_, rfl, h.unchanged, h.probe, h.sweep, h.floor, h.ceiling⟩
  | recordMiss now => exact ⟨_, rfl, h.unchanged, h.probe, h.sweep, h.floor, h.ceiling⟩
  | sweep =>
    have htuned : ∃ p', (if tuning.autoTuneProbeInterval then p.tuneProbeInterval cfg
        else pure p) = .ok p' ∧ Ticking cfg config p' := by
      split
      · exact h.tuneProbeInterval hne hle
      · exact ⟨p, rfl, h⟩
    obtain ⟨p₁, hp₁, h₁⟩ := htuned
    have hsweep : p.step cfg tuning .sweep =
        if tuning.autoTuneEwmaAlpha then p₁.tuneEwmaAlpha cfg else pure p₁ := by
      rw [Prober.step, Prober.sweep, hp₁]
      rfl
    rw [hsweep]
    split
    · next hauto => exact h₁.tuneEwmaAlpha (halpha hauto)
    · exact ⟨p₁, rfl, h₁⟩

/-- A prober whose configuration is in order runs on through any history of its link. -/
theorem ticking_run (hne : config.probeIntervalMs ≠ 0)
    (hle : config.probeIntervalMs ≤ cfg.probeIntervalMaxMs)
    (halpha : tuning.autoTuneEwmaAlpha = true → cfg.ewmaAlphaMin ≤ cfg.ewmaAlphaMax)
    (events : List (Event F)) :
    ∃ p, runProber cfg tuning config events = .ok p ∧ Ticking cfg config p := by
  obtain ⟨p, hp, hticking⟩ := linkProber_ticking hne hle tuning.ewmaAlpha
  rw [runProber, hp]
  exact foldlM_of_invariant (fun p e h => h.step hne hle halpha e) events hticking

end

/-! ## What a run that goes on says of the configuration -/

section

variable {cfg : SchedulerConfig F} {config : LinkConfig F} {tuning : Tuning F}

omit [Floating F] in
theorem exists_of_bind_eq_ok {ε α β : Type} {x : Except ε α} {k : α → Except ε β} {b : β}
    (h : x >>= k = .ok b) : ∃ a, x = .ok a ∧ k a = .ok b := by
  cases x with
  | error e => cases h
  | ok a => exact ⟨a, rfl, h⟩

variable {p : Prober F}

omit [Floating F] in
/-- A prober that starts has a period to start with. -/
theorem ne_zero_of_linkProber {alpha : F}
    (h : linkProber (.bind config alpha) = .ok p) : config.probeIntervalMs ≠ 0 := by
  intro hzero
  rw [linkProber, Link.bind, hzero] at h
  cases h

omit [Floating F] in
theorem link_of_linkProber {link : Link F} (h : linkProber link = .ok p) : p.link = link := by
  obtain ⟨probeTick, -, h⟩ := exists_of_bind_eq_ok h
  obtain ⟨sweepTick, -, h⟩ := exists_of_bind_eq_ok h
  obtain ⟨statsTick, -, h⟩ := exists_of_bind_eq_ok h
  cases h
  rfl

theorem stats_of_tuneProbeInterval {p' : Prober F} (h : p.tuneProbeInterval cfg = .ok p') :
    p'.link.stats = p.link.stats := by
  obtain ⟨suggested, -, h⟩ := exists_of_bind_eq_ok h
  by_cases hsame : suggested = p.link.effectiveProbeIntervalMs
  · rw [if_pos hsame] at h
    cases h
    rfl
  · rw [if_neg hsame] at h
    obtain ⟨probeTick, -, h⟩ := exists_of_bind_eq_ok h
    obtain ⟨sweepTick, -, h⟩ := exists_of_bind_eq_ok h
    cases h
    rfl

theorem le_of_tuneEwmaAlpha {p' : Prober F} (hhits : p.link.stats.consecutiveHits = 0)
    (hmisses : p.link.stats.consecutiveMisses = 0) (h : p.tuneEwmaAlpha cfg = .ok p') :
    cfg.ewmaAlphaMin ≤ cfg.ewmaAlphaMax := by
  obtain ⟨suggested, hclamp, -⟩ := exists_of_bind_eq_ok h
  rw [suggestEwmaAlpha, hhits, hmisses] at hclamp
  exact le_of_clampF64_eq_ok hclamp

/-- A sweep before the first probe has neither hits nor misses to go by: the clamp of the
EWMA factor is reached. -/
theorem le_of_first_sweep (hauto : tuning.autoTuneEwmaAlpha = true)
    (h : runProber cfg tuning config [.sweep] = .ok p) : cfg.ewmaAlphaMin ≤ cfg.ewmaAlphaMax := by
  obtain ⟨p₀, hstart, h⟩ := exists_of_bind_eq_ok h
  obtain ⟨p₁, hsweep, -⟩ := exists_of_bind_eq_ok h
  obtain ⟨p₂, htuned, halpha⟩ := exists_of_bind_eq_ok hsweep
  have hstats : p₂.link.stats = .new tuning.ewmaAlpha := by
    rw [show LinkStats.new tuning.ewmaAlpha = p₀.link.stats by
      rw [link_of_linkProber hstart, Link.bind]]
    split at htuned
    · exact stats_of_tuneProbeInterval htuned
    · cases htuned
      rfl
  rw [if_pos hauto] at halpha
  exact le_of_tuneEwmaAlpha (by rw [hstats]; rfl) (by rw [hstats]; rfl) halpha

end

/-- A loop that tunes the reorder window within ordered bounds never panics. -/
theorem reorderTuningLoop_of_le {cfg : SchedulerConfig F}
    (h : (ofRat cfg.reorderWindowMinMs.toNat : F) ≤ ofRat cfg.reorderWindowMaxMs.toNat)
    (tuning : Tuning F) (found : List (List (LinkScore F) × Option Nat)) :
    ∃ w, reorderTuningLoop cfg tuning found = .ok w := by
  have hstep : ∀ (current : UInt64) (f : List (LinkScore F) × Option Nat), True →
      ∃ w, tuneReorderWindow cfg current f = .ok w ∧ True := by
    intro current f _
    obtain ⟨y, hy⟩ := suggestReorderWindowMs_of_le h f.1 f.2
    rw [tuneReorderWindow, hy]
    exact ⟨_, rfl, trivial⟩
  rw [reorderTuningLoop]
  split
  · obtain ⟨w, hw, -⟩ := foldlM_of_invariant hstep found (s := tuning.reorderWindowMs) trivial
    exact ⟨w, hw⟩
  · exact ⟨_, rfl⟩

/-! ## Accepted configurations -/

/-- All tuning on. -/
def allOn : Tuning ℚ where
  ewmaAlpha := 1 / 5
  reorderWindowMs := 50
  autoTuneReorderWindow := true
  autoTuneProbeInterval := true
  autoTuneEwmaAlpha := true
  activeBandwidthProbing := true

/-- The accepted server, with another probe interval for its link. -/
def probedEvery (ms : UInt64) : Config ℚ :=
  let cfg := serverWith { mtu := none, address6 := none }
  { cfg with links := cfg.links.map fun link => { link with probeIntervalMs := ms } }

/-- Which accepted configurations are safe to run: those without a probe interval of zero
and, where the EWMA factor is tuned, without a NaN for one of its bounds. -/
theorem accepted_safe_iff
    (hcast : ∀ a b : Nat, a ≤ b → (ofRat a : F) ≤ ofRat b)
    (htotal : ∀ x y : F, IsNumber x → IsNumber y → ¬y < x → x ≤ y)
    (hnumber : ∀ x y : F, x ≤ y → IsNumber x ∧ IsNumber y)
    {metadata : String → Except IoError UInt32} {cfg : Config F}
    (haccepted : validate metadata cfg = .ok ()) (tuning : Tuning F) :
    Safe cfg tuning ↔ (∀ link ∈ cfg.links, link.probeIntervalMs ≠ 0) ∧
      (tuning.autoTuneEwmaAlpha = true →
        IsNumber cfg.scheduler.ewmaAlphaMin ∧ IsNumber cfg.scheduler.ewmaAlphaMax) := by
  have hwell := validate_eq_ok_iff.mp haccepted
  constructor
  · intro hsafe
    refine ⟨fun link hlink => ?_, fun hauto => ?_⟩
    · obtain ⟨p, hp⟩ := hsafe.prober link hlink []
      obtain ⟨p₀, hstart, -⟩ := exists_of_bind_eq_ok hp
      exact ne_zero_of_linkProber hstart
    · obtain ⟨link, hlink⟩ := List.exists_mem_of_ne_nil _ hwell.links
      obtain ⟨p, hp⟩ := hsafe.prober link hlink [.sweep]
      exact hnumber _ _ (le_of_first_sweep hauto hp)
  · rintro ⟨hne, hnumbers⟩
    have halpha : tuning.autoTuneEwmaAlpha = true →
        cfg.scheduler.ewmaAlphaMin ≤ cfg.scheduler.ewmaAlphaMax := fun hauto =>
      htotal _ _ (hnumbers hauto).1 (hnumbers hauto).2 hwell.scheduler.ewmaAlpha
    refine ⟨fun link hlink events => ?_, ?_, ?_⟩
    · obtain ⟨p, hp, -⟩ :=
        ticking_run (hne link hlink) (hwell.link link hlink).probeInterval halpha events
      exact ⟨p, hp⟩
    · have hsecs : cfg.scheduler.activeBandwidthProbeIntervalSecs ≠ 0 :=
        ne_zero_of_le (by decide) hwell.scheduler.probeInterval
      rw [activeBandwidthProber, interval_of_ne hsecs]
      split
      · exact ⟨_, rfl⟩
      · exact ⟨_, rfl⟩
    · exact reorderTuningLoop_of_le (hcast _ _ hwell.scheduler.reorderWindow) tuning

/-- Probed every 200 ms, the server with all tuning on runs whatever comes. -/
theorem accepted_safe_probed :
    validate ownerOnly (probedEvery 200) = .ok () ∧ Safe (probedEvery 200) allOn := by
  have haccepted : validate ownerOnly (probedEvery 200) = .ok () := by decide +kernel
  refine ⟨haccepted, (accepted_safe_iff ?_ ?_ ?_ haccepted allOn).mpr ?_⟩
  · exact fun a b hab => Nat.cast_le.mpr hab
  · exact fun x y _ _ hlt => not_lt.mp hlt
  · exact fun x y _ => ⟨le_refl x, le_refl y⟩
  · exact ⟨by decide +kernel, fun _ => ⟨le_refl _, le_refl _⟩⟩

/-- A probe interval of zero is accepted, and the link's prober panics at its first timer. -/
theorem accepted_zero_interval :
    validate ownerOnly (probedEvery 0) = .ok () ∧
      (∀ link ∈ (probedEvery 0).links,
        runProber (probedEvery 0).scheduler allOn link [] = .error .zeroPeriod) ∧
      ¬Safe (probedEvery 0) allOn := by
  have hpanic : ∀ link ∈ (probedEvery 0).links,
      runProber (probedEvery 0).scheduler allOn link [] = .error .zeroPeriod := by
    intro link hlink
    rw [List.mem_singleton.mp hlink]
    rfl
  refine ⟨by decide +kernel, hpanic, fun hsafe => ?_⟩
  obtain ⟨p, hp⟩ := hsafe.prober _ (List.mem_singleton_self _) []
  rw [hpanic _ (List.mem_singleton_self _)] at hp
  cases hp

end

end Mlvpn.Ports.AutoTune
