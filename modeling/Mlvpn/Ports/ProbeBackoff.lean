import Mlvpn.Ports.AutoTune

/-!
# Backing off the probe interval

With `auto_tune_probe_interval`, every sweep of `link_prober` looks at the link's streak of
hits: at a multiple of ten the effective probe interval grows by half, and at any miss it goes
back to the configured one.  A sweep looks at the counters as they are and not at their
changes.  Two sweeps at one multiple of ten take two steps, and a new interval makes the next
sweep due at once; and a miss that is followed by a hit before the next sweep is not seen.

Sweeps, hits and misses come in any order here.  The arithmetic is exact, and a step is
`raise`.

## Main results

* `step_sweep`: what a sweep does to the effective interval.
* `inv_step`: how many steps have been taken, by the hits since the last miss.
* `backoff_one_step_per_streak`: in runs in which no two sweeps find the same multiple of ten,
  and every miss is seen by a sweep before the next hit, there is at most one step for every
  ten hits.
-/

namespace Mlvpn.Ports.ProbeBackoff

open AutoTune
open ConfigFile (Config SchedulerConfig LinkConfig ownerOnly validate
  validate_eq_ok_iff)
open Verified Streak
open LinkMonitor (Outcome)
open Protocol (IoError)
open Verified.Floating (ofRat)

/-! ## Steps and runs -/

/-- One step of the back-off: half as much again, rounded down and capped. -/
def raise (maxMs ms : Nat) : Nat := min (ms * 3 / 2) maxMs

def outcome : Event ℚ → Option Outcome
  | .recordRtt _ _ => some .hit
  | .recordMiss _ => some .miss
  | .sweep => none

/-- The probe outcomes of a run, the latest last. -/
def outcomes (events : List (Event ℚ)) : List Outcome := events.filterMap outcome

/-- `link_prober` as it enters its loop. -/
def start (config : LinkConfig ℚ) (ewmaAlpha : ℚ) : Prober ℚ :=
  ⟨.bind config ewmaAlpha, config.probeIntervalMs, config.probeIntervalMs, STATS_SHARE_INTERVAL_MS⟩

/-- One event, as a machine whose answer is a panic or none. -/
def live (cfg : SchedulerConfig ℚ) (tuning : Tuning ℚ) (p : Prober ℚ) (e : Event ℚ) :
    Prober ℚ × Option Panic :=
  match p.step cfg tuning e with
  | .ok p => (p, none)
  | .error panic => (p, some panic)

/-- The last event was a sweep. -/
def afterSweep (log : List (Event ℚ × Option Panic)) : Bool :=
  match log.getLast? with
  | some (.sweep, _) => true
  | _ => false

/-- A sweep at a multiple of ten hits is the first one there; a hit after a miss comes after a
sweep; the count of misses does not overflow. -/
def Paced (log : List (Event ℚ × Option Panic)) (p : Prober ℚ) : Event ℚ → Prop
  | .sweep => 0 < p.link.stats.consecutiveHits →
      p.link.stats.consecutiveHits % PROBE_BACKOFF_STREAK = 0 → afterSweep log = false
  | .recordRtt _ _ => 0 < p.link.stats.consecutiveMisses → afterSweep log = true
  | .recordMiss _ => p.link.stats.consecutiveMisses + 1 ≠ 0

instance decidablePaced (log : List (Event ℚ × Option Panic)) (p : Prober ℚ) :
    (e : Event ℚ) → Decidable (Paced log p e)
  | .sweep => inferInstanceAs (Decidable (_ → _ → _))
  | .recordRtt _ _ => inferInstanceAs (Decidable (_ → _))
  | .recordMiss _ => inferInstanceAs (Decidable (_ ≠ _))

/-- What holds of the effective interval after the events. -/
structure Backoff (cfg : SchedulerConfig ℚ) (config : LinkConfig ℚ) (events : List (Event ℚ))
    (p : Prober ℚ) : Prop where
  /-- At most one step for every ten hits since the last miss. -/
  raised : (outcomes events).getLast? ≠ some .miss →
    ∃ n ≤ streak .hit (outcomes events) / 10, p.link.effectiveProbeIntervalMs.toNat =
      (raise cfg.probeIntervalMaxMs.toNat)^[n] config.probeIntervalMs.toNat
  /-- A sweep after a miss, with no hit in between, goes back to the configured interval. -/
  reset : ∀ before, events = before ++ [.sweep] → (outcomes before).getLast? = some .miss →
    p.link.effectiveProbeIntervalMs = config.probeIntervalMs

/-! ## One sweep -/

/-- In exact arithmetic, the interval times one and a half. -/
theorem toU64_mul_factor (ms : UInt64) :
    (Floating.toU64 (ofRat ms.toNat * PROBE_BACKOFF_FACTOR : ℚ)).toNat =
      min (ms.toNat * 3 / 2) (2 ^ 64 - 1) := by
  have hnonneg : (0 : ℚ) ≤ (ms.toNat : ℚ) * (3 / 2) := by positivity
  have hfloor : ⌊(ms.toNat : ℚ) * (3 / 2)⌋ = ((ms.toNat * 3 / 2 : ℕ) : ℤ) := by
    rw [← mul_div_assoc, show (ms.toNat : ℚ) * 3 = ((ms.toNat * 3 : ℕ) : ℚ) by push_cast; ring]
    exact Rat.floor_natCast_div_natCast (ms.toNat * 3) 2
  show (UInt64.ofNat (min (truncRat ((ms.toNat : ℚ) * (3 / 2))).toNat (2 ^ 64 - 1))).toNat = _
  rw [truncRat, if_pos hnonneg, hfloor, Int.toNat_natCast, UInt64.toNat_ofNat',
    Nat.mod_eq_of_lt (by omega)]

/-- The clamp, on numbers. -/
theorem toNat_clampU64 {x lo hi y : UInt64} (h : clampU64 x lo hi = .ok y) :
    y.toNat = max lo.toNat (min x.toNat hi.toNat) := by
  unfold clampU64 at h
  split at h
  case isFalse => cases h
  case isTrue hle =>
    cases h
    have hle' := UInt64.le_iff_toNat_le.mp hle
    split
    case isTrue hlow =>
      have hlow' := UInt64.lt_iff_toNat_lt.mp hlow
      omega
    case isFalse hlow =>
      have hlow' := UInt64.le_iff_toNat_le.mp (UInt64.not_lt.mp hlow)
      split
      case isTrue hhigh =>
        have hhigh' := UInt64.lt_iff_toNat_lt.mp hhigh
        omega
      case isFalse hhigh =>
        have hhigh' := UInt64.le_iff_toNat_le.mp (UInt64.not_lt.mp hhigh)
        omega

/-- The interval that a sweep leaves. -/
def tuned (cfg : SchedulerConfig ℚ) (config : LinkConfig ℚ) (p : Prober ℚ) : Nat :=
  if 0 < p.link.stats.consecutiveMisses then config.probeIntervalMs.toNat
  else if 0 < p.link.stats.consecutiveHits ∧
      p.link.stats.consecutiveHits % PROBE_BACKOFF_STREAK = 0 then
    raise cfg.probeIntervalMaxMs.toNat p.link.effectiveProbeIntervalMs.toNat
  else p.link.effectiveProbeIntervalMs.toNat

section

variable {cfg : SchedulerConfig ℚ} {config : LinkConfig ℚ} {tuning : Tuning ℚ} {p : Prober ℚ}

theorem suggest_eq_tuned (h : Ticking cfg config p) {y : UInt64}
    (hy : suggestProbeIntervalMs ℚ p.link.config.probeIntervalMs cfg.probeIntervalMaxMs
      p.link.effectiveProbeIntervalMs p.link.stats.consecutiveHits
      p.link.stats.consecutiveMisses = .ok y) : y.toNat = tuned cfg config p := by
  have hfloor := UInt64.le_iff_toNat_le.mp h.floor
  have hceiling := UInt64.le_iff_toNat_le.mp h.ceiling
  have hmax := cfg.probeIntervalMaxMs.toNat_lt
  unfold suggestProbeIntervalMs at hy
  unfold tuned
  rw [h.unchanged] at hy
  split at hy
  case isTrue hmiss =>
    cases hy
    rw [if_pos hmiss]
  case isFalse hclean =>
    rw [if_neg hclean]
    split at hy
    case isTrue hstreak =>
      rw [if_pos hstreak, toNat_clampU64 hy, toU64_mul_factor, raise]
      omega
    case isFalse hstreak =>
      rw [if_neg hstreak, toNat_clampU64 hy]
      omega

theorem interval_of_tuneProbeInterval (h : Ticking cfg config p) {p' : Prober ℚ}
    (hp : p.tuneProbeInterval cfg = .ok p') :
    p'.link.effectiveProbeIntervalMs.toNat = tuned cfg config p := by
  obtain ⟨suggested, hy, hp⟩ := exists_of_bind_eq_ok hp
  rw [← suggest_eq_tuned h hy]
  by_cases hsame : suggested = p.link.effectiveProbeIntervalMs
  · rw [if_pos hsame] at hp
    cases hp
    rw [hsame]
  · rw [if_neg hsame] at hp
    obtain ⟨probeTick, -, hp⟩ := exists_of_bind_eq_ok hp
    obtain ⟨sweepTick, -, hp⟩ := exists_of_bind_eq_ok hp
    cases hp
    rfl

/-- The other tuning changes neither the interval nor the counters. -/
theorem kept_of_tuneEwmaAlpha {p' : Prober ℚ} (hp : p.tuneEwmaAlpha cfg = .ok p') :
    p'.link.effectiveProbeIntervalMs = p.link.effectiveProbeIntervalMs ∧
      p'.link.stats.consecutiveHits = p.link.stats.consecutiveHits ∧
      p'.link.stats.consecutiveMisses = p.link.stats.consecutiveMisses := by
  obtain ⟨suggested, -, hp⟩ := exists_of_bind_eq_ok hp
  split at hp
  · cases hp
    exact ⟨rfl, rfl, rfl⟩
  · cases hp
    exact ⟨rfl, rfl, rfl⟩

/-- What a sweep needs of the configuration. -/
structure InOrder (cfg : SchedulerConfig ℚ) (tuning : Tuning ℚ) (config : LinkConfig ℚ) : Prop where
  auto : tuning.autoTuneProbeInterval = true
  floor : config.probeIntervalMs ≠ 0
  ceiling : config.probeIntervalMs ≤ cfg.probeIntervalMaxMs
  alpha : tuning.autoTuneEwmaAlpha = true → cfg.ewmaAlphaMin ≤ cfg.ewmaAlphaMax

/-- A sweep leaves the counters alone and tunes the interval. -/
theorem step_sweep (hcfg : InOrder cfg tuning config) (h : Ticking cfg config p) :
    ∃ p', p.step cfg tuning .sweep = .ok p' ∧ Ticking cfg config p' ∧
      p'.link.effectiveProbeIntervalMs.toNat = tuned cfg config p ∧
      p'.link.stats.consecutiveHits = p.link.stats.consecutiveHits ∧
      p'.link.stats.consecutiveMisses = p.link.stats.consecutiveMisses := by
  obtain ⟨p', hp, hticking⟩ := h.step hcfg.floor hcfg.ceiling hcfg.alpha .sweep
  refine ⟨p', hp, hticking, ?_⟩
  obtain ⟨p₁, hp₁, hp⟩ := exists_of_bind_eq_ok hp
  rw [if_pos hcfg.auto] at hp₁
  have hinterval := interval_of_tuneProbeInterval h hp₁
  have hstats := stats_of_tuneProbeInterval hp₁
  split at hp
  · obtain ⟨heffective, hhits, hmisses⟩ := kept_of_tuneEwmaAlpha hp
    rw [heffective, hhits, hmisses, hstats]
    exact ⟨hinterval, rfl, rfl⟩
  · cases hp
    rw [hstats]
    exact ⟨hinterval, rfl, rfl⟩

end

/-! ## Steps taken -/

/-- The outcomes and sweeps so far, and the prober's interval and counters.  `steps` counts
the steps since the interval was the configured one. -/
structure Inv (cfg : SchedulerConfig ℚ) (config : LinkConfig ℚ)
    (log : List (Event ℚ × Option Panic)) (p : Prober ℚ) : Prop where
  ticking : Ticking cfg config p
  missed : 0 < p.link.stats.consecutiveMisses ↔
    (outcomes (log.map Prod.fst)).getLast? = some .miss
  fallen : 0 < p.link.stats.consecutiveMisses → p.link.stats.consecutiveHits = 0 ∧
    (afterSweep log = true → p.link.effectiveProbeIntervalMs = config.probeIntervalMs)
  steps : ¬0 < p.link.stats.consecutiveMisses → ∃ n,
    p.link.effectiveProbeIntervalMs.toNat =
      (raise cfg.probeIntervalMaxMs.toNat)^[n] config.probeIntervalMs.toNat ∧
    10 * n + p.link.stats.consecutiveHits.toNat % 10 ≤ streak .hit (outcomes (log.map Prod.fst)) ∧
    (0 < p.link.stats.consecutiveHits → p.link.stats.consecutiveHits.toNat % 10 = 0 →
      afterSweep log = false → 10 * n + 10 ≤ streak .hit (outcomes (log.map Prod.fst)))

section

variable {cfg : SchedulerConfig ℚ} {config : LinkConfig ℚ} {tuning : Tuning ℚ} {p : Prober ℚ}
  {log : List (Event ℚ × Option Panic)}

theorem outcomes_snoc (e : Event ℚ × Option Panic) :
    outcomes ((log ++ [e]).map Prod.fst) =
      outcomes (log.map Prod.fst) ++ (outcome e.1).toList := by
  rw [List.map_append, outcomes, List.filterMap_append]
  congr 1

theorem afterSweep_snoc (e : Event ℚ × Option Panic) :
    afterSweep (log ++ [e]) = match e.1 with
      | .sweep => true
      | _ => false := by
  rw [afterSweep, List.getLast?_concat]
  obtain ⟨e, panic⟩ := e
  cases e with
  | _ => rfl

theorem multiple_iff {hits : UInt32} : hits % PROBE_BACKOFF_STREAK = 0 ↔ hits.toNat % 10 = 0 := by
  rw [← UInt32.toNat_inj, UInt32.toNat_mod]
  rfl

/-- What probes record leaves the timers and the interval alone. -/
theorem ticking_record (h : Ticking cfg config p) (stats : LinkMonitor.LinkStats ℚ) :
    Ticking cfg config { p with link := { p.link with stats } } :=
  ⟨h.unchanged, h.probe, h.sweep, h.floor, h.ceiling⟩

theorem inv_miss (h : Inv cfg config log p) {now : FecRecovery.Instant}
    (hpaced : Paced log p (.recordMiss now)) :
    Inv cfg config (log ++ [(.recordMiss now, none)])
      { p with link := { p.link with stats := p.link.stats.recordMiss now } } := by
  have hpos : 0 < p.link.stats.consecutiveMisses + 1 := UInt32.pos_iff_ne_zero.mpr hpaced
  refine ⟨ticking_record h.ticking _, ?_, fun _ => ⟨rfl, fun hsweep => ?_⟩,
    fun hnot => absurd hpos hnot⟩
  · rw [outcomes_snoc]
    exact iff_of_true hpos (List.getLast?_concat)
  · rw [afterSweep_snoc] at hsweep
    cases hsweep

/-- The counter goes on, or wraps to zero, where no step is due. -/
theorem toNat_succ_mod (hits : UInt32) :
    (hits + 1).toNat % 10 ≤ hits.toNat % 10 + 1 ∧
      (0 < hits + 1 → (hits + 1).toNat % 10 = 0 → hits.toNat % 10 = 9) := by
  have hlt := hits.toNat_lt
  have hsucc : (hits + 1).toNat = (hits.toNat + 1) % 2 ^ 32 := UInt32.toNat_add hits 1
  rw [UInt32.lt_iff_toNat_lt, UInt32.toNat_zero, hsucc]
  rcases Nat.lt_or_ge (hits.toNat + 1) (2 ^ 32) with hless | hwrap
  · rw [Nat.mod_eq_of_lt hless]
    omega
  · rw [show hits.toNat + 1 = 2 ^ 32 by omega, Nat.mod_self]
    exact ⟨Nat.zero_le _, fun hpos => absurd hpos (Nat.lt_irrefl 0)⟩

theorem inv_hit (h : Inv cfg config log p) {rttMs : ℚ} {now : FecRecovery.Instant}
    (hpaced : Paced log p (.recordRtt rttMs now)) :
    Inv cfg config (log ++ [(.recordRtt rttMs now, none)])
      { p with link := { p.link with stats := p.link.stats.recordRtt rttMs now } } := by
  have hcounter := toNat_succ_mod p.link.stats.consecutiveHits
  have hnone : ¬(0 : UInt32) < 0 := UInt32.lt_irrefl 0
  refine ⟨ticking_record h.ticking _, ?_, fun hpos => absurd hpos hnone, fun _ => ?_⟩
  · rw [outcomes_snoc]
    refine iff_of_false hnone ?_
    rw [show outcome (.recordRtt rttMs now) = some .hit from rfl, Option.toList_some,
      List.getLast?_concat]
    decide
  · rw [outcomes_snoc, show outcome (.recordRtt rttMs now) = some .hit from rfl,
      Option.toList_some, streak_append_self]
    by_cases hmissed : 0 < p.link.stats.consecutiveMisses
    · -- The sweep after the miss has gone back to the configured interval.
      obtain ⟨hhits, hfallen⟩ := h.fallen hmissed
      refine ⟨0, congrArg UInt64.toNat (hfallen (hpaced hmissed)), ?_, ?_⟩
      · show 10 * 0 + (p.link.stats.consecutiveHits + 1).toNat % 10 ≤ _
        rw [hhits]
        exact Nat.le_add_left _ _
      · show 0 < p.link.stats.consecutiveHits + 1 →
          (p.link.stats.consecutiveHits + 1).toNat % 10 = 0 → _
        rw [hhits]
        exact fun _ hmultiple => absurd hmultiple (by decide)
    · obtain ⟨n, hinterval, hsteps, -⟩ := h.steps hmissed
      refine ⟨n, hinterval, ?_, fun hpos hmultiple _ => ?_⟩
      · show 10 * n + (p.link.stats.consecutiveHits + 1).toNat % 10 ≤ _
        omega
      · have hnine := hcounter.2 hpos hmultiple
        omega

theorem inv_sweep (hcfg : InOrder cfg tuning config) (h : Inv cfg config log p)
    (hpaced : Paced log p .sweep) :
    ∃ p', p.step cfg tuning .sweep = .ok p' ∧ Inv cfg config (log ++ [(.sweep, none)]) p' := by
  obtain ⟨p', hp, hticking, hinterval, hhits, hmisses⟩ := step_sweep hcfg h.ticking
  have hsame : outcomes ((log ++ [((.sweep : Event ℚ), (none : Option Panic))]).map Prod.fst) =
      outcomes (log.map Prod.fst) := by
    rw [outcomes_snoc]
    exact List.append_nil _
  refine ⟨p', hp, hticking, ?_, fun hmissed => ?_, fun hclean => ?_⟩
  · rw [hmisses, hsame]
    exact h.missed
  · rw [hmisses] at hmissed
    rw [tuned, if_pos hmissed] at hinterval
    exact ⟨hhits.trans (h.fallen hmissed).1, fun _ => UInt64.toNat_inj.mp hinterval⟩
  · rw [hmisses] at hclean
    obtain ⟨n, hold, hsteps, hdue⟩ := h.steps hclean
    have hswept : ¬afterSweep (log ++ [((.sweep : Event ℚ), (none : Option Panic))]) = false := by
      rw [afterSweep_snoc]
      decide
    rw [hhits, hsame]
    by_cases hstreak : 0 < p.link.stats.consecutiveHits ∧
        p.link.stats.consecutiveHits % PROBE_BACKOFF_STREAK = 0
    · -- A step, which is due: no sweep has been here before.
      rw [tuned, if_neg hclean, if_pos hstreak] at hinterval
      have hmultiple := multiple_iff.mp hstreak.2
      have hfirst := hdue hstreak.1 hmultiple (hpaced hstreak.1 hstreak.2)
      refine ⟨n + 1, ?_, by omega, fun _ _ hnot => absurd hnot hswept⟩
      rw [Function.iterate_succ_apply', ← hold]
      exact hinterval
    · rw [tuned, if_neg hclean, if_neg hstreak] at hinterval
      exact ⟨n, hinterval.trans hold, hsteps, fun _ _ hnot => absurd hnot hswept⟩

/-- One event keeps the invariant, and nothing panics. -/
theorem inv_step (hcfg : InOrder cfg tuning config) (h : Inv cfg config log p) {e : Event ℚ}
    (hpaced : Paced log p e) :
    ∃ p', p.step cfg tuning e = .ok p' ∧ Inv cfg config (log ++ [(e, none)]) p' := by
  cases e with
  | recordRtt rttMs now => exact ⟨_, rfl, inv_hit h hpaced⟩
  | recordMiss now => exact ⟨_, rfl, inv_miss h hpaced⟩
  | sweep => exact inv_sweep hcfg h hpaced

end

/-! ## Whole runs -/

section

variable {cfg : SchedulerConfig ℚ} {config : LinkConfig ℚ} {tuning : Tuning ℚ}

theorem inv_start (hcfg : InOrder cfg tuning config) :
    Inv cfg config [] (start config tuning.ewmaAlpha) := by
  have hnone : ¬(0 : UInt32) < 0 := UInt32.lt_irrefl 0
  refine ⟨⟨rfl, rfl, rfl, UInt64.le_refl _, hcfg.ceiling⟩, iff_of_false hnone (by decide),
    fun hpos => absurd hpos hnone, fun _ => ⟨0, rfl, Nat.le_refl _, fun hpos => absurd hpos hnone⟩⟩

/-- The machine's run is the run of the prober, and keeps the invariant. -/
theorem inv_run (hcfg : InOrder cfg tuning config) {events : List (Event ℚ)}
    {log : List (Event ℚ × Option Panic)} {p : Prober ℚ} (h : Inv cfg config log p)
    (hpaced : Mealy.Along (live cfg tuning) Paced log p events) :
    ∃ p', events.foldlM (fun p e => p.step cfg tuning e) p = .ok p' ∧
      Inv cfg config (log ++ events.map fun e => (e, none)) p' := by
  induction events generalizing log p with
  | nil =>
    refine ⟨p, rfl, ?_⟩
    rw [List.map_nil, List.append_nil]
    exact h
  | cons e events ih =>
    obtain ⟨p₁, hp₁, h₁⟩ := inv_step hcfg h hpaced.1
    have hlive : live cfg tuning p e = (p₁, none) := by rw [live, hp₁]
    have hrest := hpaced.2
    rw [hlive] at hrest
    obtain ⟨p', hp', h'⟩ := ih h₁ hrest
    refine ⟨p', ?_, ?_⟩
    · rw [List.foldlM_cons, hp₁]
      exact hp'
    · rw [List.map_cons, List.append_cons]
      exact h'

theorem runProber_eq (hcfg : InOrder cfg tuning config) (events : List (Event ℚ)) :
    runProber cfg tuning config events =
      events.foldlM (fun p e => p.step cfg tuning e) (start config tuning.ewmaAlpha) := by
  have hstart : linkProber (.bind config tuning.ewmaAlpha) =
      .ok (start config tuning.ewmaAlpha) := by
    rw [linkProber, Link.bind, interval_of_ne hcfg.floor]
    rfl
  rw [runProber, hstart]
  rfl

end

/-- What `validate` makes sure of, but for an interval of zero. -/
theorem inOrder_of_accepted {metadata : String → Except IoError UInt32} {cfg : Config ℚ}
    (haccepted : validate metadata cfg = .ok ()) {config : LinkConfig ℚ}
    (hlink : config ∈ cfg.links) (hne : config.probeIntervalMs ≠ 0) {tuning : Tuning ℚ}
    (hauto : tuning.autoTuneProbeInterval = true) : InOrder cfg.scheduler tuning config := by
  have hwell := validate_eq_ok_iff.mp haccepted
  exact ⟨hauto, hne, (hwell.link config hlink).probeInterval, fun _ =>
    not_lt.mp hwell.scheduler.ewmaAlpha⟩

/-- For every link of an accepted configuration, unless its interval is zero, and in every run
in which no two sweeps find the same multiple of ten hits, and a sweep comes between a miss
and the next hit: the prober runs on, its interval has been raised at most once for every ten
hits since the last miss, and a sweep after a miss resets it. -/
theorem backoff_one_step_per_streak {metadata : String → Except IoError UInt32} {cfg : Config ℚ}
    (haccepted : validate metadata cfg = .ok ()) {config : LinkConfig ℚ}
    (hlink : config ∈ cfg.links) (hne : config.probeIntervalMs ≠ 0) {tuning : Tuning ℚ}
    (hauto : tuning.autoTuneProbeInterval = true) (events : List (Event ℚ))
    (hpaced : Mealy.Along (live cfg.scheduler tuning) Paced [] (start config tuning.ewmaAlpha)
      events) :
    ∃ p, runProber cfg.scheduler tuning config events = .ok p ∧
      Backoff cfg.scheduler config events p := by
  have hcfg := inOrder_of_accepted haccepted hlink hne hauto
  obtain ⟨p, hp, hinv⟩ := inv_run hcfg (inv_start hcfg) hpaced
  have hlog : (([] : List (Event ℚ × Option Panic)) ++ events.map fun e => (e, none)).map
      Prod.fst = events := by
    rw [List.nil_append, List.map_map]
    exact List.map_id events
  refine ⟨p, (runProber_eq hcfg events).trans hp, ⟨fun hhit => ?_, fun before heq hmiss => ?_⟩⟩
  · have hmissed := hinv.missed
    have hsteps := hinv.steps
    rw [hlog] at hmissed hsteps
    obtain ⟨n, hinterval, hle, -⟩ := hsteps fun hpos => hhit (hmissed.mp hpos)
    exact ⟨n, by omega, hinterval⟩
  · have hmissed := hinv.missed
    have hsame : outcomes events = outcomes before := by
      rw [heq, outcomes, List.filterMap_append]
      exact List.append_nil _
    rw [hlog, hsame] at hmissed
    refine (hinv.fallen (hmissed.mpr hmiss)).2 ?_
    rw [heq, List.map_append, List.map_singleton, ← List.append_assoc, afterSweep_snoc]

/-- The one link of the server that is probed every 200 ms. -/
def link200 : LinkConfig ℚ := (probedEvery 200).links.get ⟨0, by decide⟩

/-- Ten replies, at 20 ms each, and then the rest. -/
def afterTenHits (rest : List (Event ℚ)) : List (Event ℚ) :=
  List.replicate 10 (.recordRtt 20 0) ++ rest

/-- Ten hits and a sweep, a miss and a sweep, and another hit: one step, and back. -/
theorem backoff_seen_miss :
    ∃ p, runProber (probedEvery 200).scheduler allOn link200
        (afterTenHits [.sweep, .recordMiss 0, .sweep, .recordRtt 20 0]) = .ok p ∧
      Backoff (probedEvery 200).scheduler link200
        (afterTenHits [.sweep, .recordMiss 0, .sweep, .recordRtt 20 0]) p :=
  backoff_one_step_per_streak (show validate ownerOnly (probedEvery 200) = .ok () by decide +kernel)
    (List.get_mem _ _) (by decide +kernel) rfl _ (by decide +kernel)

theorem not_backoff {events : List (Event ℚ)} {ms : UInt64}
    (hrun : (runProber (probedEvery 200).scheduler allOn link200 events).map
      (·.link.effectiveProbeIntervalMs) = .ok ms)
    (hlast : (outcomes events).getLast? ≠ some .miss)
    (hfar : ∀ n ≤ streak .hit (outcomes events) / 10, ms.toNat ≠
      (raise (probedEvery 200).scheduler.probeIntervalMaxMs.toNat)^[n]
        link200.probeIntervalMs.toNat) :
    ∃ p, runProber (probedEvery 200).scheduler allOn link200 events = .ok p ∧
      p.link.effectiveProbeIntervalMs = ms ∧
      ¬Backoff (probedEvery 200).scheduler link200 events p := by
  cases hp : runProber (probedEvery 200).scheduler allOn link200 events with
  | error panic =>
    rw [hp] at hrun
    cases hrun
  | ok p =>
    rw [hp] at hrun
    cases hrun
    refine ⟨p, rfl, rfl, fun hbackoff => ?_⟩
    obtain ⟨n, hn, hinterval⟩ := hbackoff.raised hlast
    exact hfar n hn hinterval

/-- Ten hits, and two sweeps before the next probe's outcome: the interval takes two steps, to
450 ms.  And a miss that the next hit follows before a sweep: the raised interval stays. -/
theorem backoff_two_steps_one_streak :
    (∃ p, runProber (probedEvery 200).scheduler allOn link200
        (afterTenHits [.sweep, .sweep]) = .ok p ∧
      p.link.effectiveProbeIntervalMs = 450 ∧
      ¬Backoff (probedEvery 200).scheduler link200 (afterTenHits [.sweep, .sweep]) p) ∧
    ∃ p, runProber (probedEvery 200).scheduler allOn link200
        (afterTenHits [.sweep, .recordMiss 0, .recordRtt 20 0, .sweep]) = .ok p ∧
      p.link.effectiveProbeIntervalMs = 300 ∧
      ¬Backoff (probedEvery 200).scheduler link200
        (afterTenHits [.sweep, .recordMiss 0, .recordRtt 20 0, .sweep]) p :=
  ⟨not_backoff (by decide +kernel) (by decide +kernel) (by decide +kernel),
    not_backoff (by decide +kernel) (by decide +kernel) (by decide +kernel)⟩

end Mlvpn.Ports.ProbeBackoff
