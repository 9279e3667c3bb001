import Mlvpn.Ports.DeliveryPhases

/-!
# Idle links and the delivery controller

A link that carries no traffic gives `DeliveryTracker::observe` no sample.  Growth is meant
to go on then: the test for enough clean windows is waived on an idle link.  The test that
the windows after a cut have settled is not waived, and only evaluated samples count those
windows down.  So a link that goes idle while windows are still to settle keeps the factor
of its cut for as long as it stays idle.

An idle stretch is an unbounded sequence of calls without a sample, given by its times.

## Main results

* `observe_idle`: what one call without a sample does.
* `idle_recovers_iff`: after any history an idle link grows back to full weight, at every
  call and in a bounded number of them, exactly when no window is left to settle or there
  is nothing to recover.
-/

namespace Mlvpn.Ports.DeliveryIdle

open Verified Delivery DeliveryPhases
open CongestionFilter (seconds)
open FecRecovery (Instant)

/-! ## Idle stretches -/

/-- The first `k` calls of an idle stretch. -/
def idleCalls (times : ℕ → Instant) (k : ℕ) : List Call :=
  (List.range k).map fun i => ⟨times i, none⟩

/-- The tracker after `calls` and `k` calls of an idle stretch. -/
def idleAfter (calls : List Call) (times : ℕ → Instant) (k : ℕ) : DeliveryTracker ℚ :=
  track (calls ++ idleCalls times k)

/-- Every call of the stretch comes at least `step` nanoseconds after the one before. -/
structure Advances (calls : List Call) (step : ℕ) (times : ℕ → Instant) : Prop where
  first : ∀ c ∈ calls.getLast?, c.now + step ≤ times 0
  next : ∀ k, times k + step ≤ times (k + 1)

/-- The hold time of the last cut has passed. -/
def HoldOver (t : DeliveryTracker ℚ) (now : Instant) : Prop := ∀ u ∈ t.holdUntil, u ≤ now

/-- Calls that take a factor back to 1, each at least `step` nanoseconds after the one
before: every one gains at least a tenth of the factor a second. -/
def callsToFull (factor : ℚ) (step : ℕ) : ℕ :=
  ⌈(1 - factor) / (factor * (1 / 10 * seconds step))⌉₊

/-- Once the hold time is over the factor rises at every call until it is 1, and it is 1
after a bounded number of calls. -/
structure Recovers (calls : List Call) (step : ℕ) (times : ℕ → Instant) : Prop where
  rises : ∀ k, HoldOver (track calls) (times k) → (idleAfter calls times k).factor < 1 →
    (idleAfter calls times k).factor < (idleAfter calls times (k + 1)).factor
  full : ∀ k, HoldOver (track calls) (times k) →
    ∀ n, callsToFull (track calls).factor step ≤ n → (idleAfter calls times (k + n)).factor = 1

variable {calls : List Call} {times : ℕ → Instant} {step k : ℕ}

theorem idleAfter_zero : idleAfter calls times 0 = track calls := by
  rw [idleAfter, idleCalls, List.range_zero, List.map_nil, List.append_nil]

theorem idleAfter_succ :
    idleAfter calls times (k + 1) = (idleAfter calls times k).observe (times k) none := by
  rw [idleAfter, idleAfter, idleCalls, List.range_succ, List.map_append, ← List.append_assoc]
  exact List.foldl_concat ..

theorem phased_idleAfter (calls : List Call) (times : ℕ → Instant) (k : ℕ) :
    Phased (idleAfter calls times k) :=
  phased_track _

/-! ## One call -/

/-- A call without a sample leaves the windows to settle and the hold time alone; the factor
grows if the link is recovering and has settled. -/
theorem observe_idle (t : DeliveryTracker ℚ) (now : Instant) :
    (t.observe now none).settleLeft = t.settleLeft ∧
      (t.observe now none).holdUntil = t.holdUntil ∧
      (t.observe now none).factor =
        if phaseAt t now = .Recovering ∧ t.settleLeft = 0 then
          min (t.factor * (1 + 1 / 10 * tickLength t.lastTick now)) 1
        else t.factor := by
  have hforgive : ∀ t' : DeliveryTracker ℚ, (t'.forgive now).settleLeft = t'.settleLeft ∧
      (t'.forgive now).holdUntil = t'.holdUntil ∧ (t'.forgive now).factor = t'.factor := by
    intro t'
    rcases forgive_cases t' now with heq | ⟨-, -, heq⟩
    · rw [heq]
      exact ⟨rfl, rfl, rfl⟩
    · rw [heq]
      exact ⟨rfl, rfl, rfl⟩
  rw [observe_eq]
  obtain ⟨hsettle, huntil, hfactor⟩ := hforgive
    ((({ t with lastTick := some now, phase := phaseAt t now } : DeliveryTracker ℚ).fold now
      none).grow now (tickLength t.lastTick now) true)
  rw [show (none : Option (DeliverySample ℚ)).isNone = true from rfl, hsettle, huntil, hfactor]
  dsimp only [DeliveryTracker.fold, DeliveryTracker.grow]
  by_cases hgrows : phaseAt t now = .Recovering ∧ t.settleLeft = 0
  · rw [if_pos ⟨hgrows.1, hgrows.2, Or.inl rfl⟩, if_pos hgrows]
    split
    · exact ⟨rfl, rfl, rfl⟩
    · exact ⟨rfl, rfl, rfl⟩
  · rw [if_neg fun h => hgrows ⟨h.1, h.2.1⟩, if_neg hgrows]
    exact ⟨rfl, rfl, rfl⟩

/-- A hold time that has passed leaves a link with a cut factor recovering. -/
theorem phaseAt_of_holdOver {t : DeliveryTracker ℚ} {now : Instant} (hphased : Phased t)
    (hover : HoldOver t now) (hcut : t.factor < 1) : phaseAt t now = .Recovering := by
  have hne : t.phase ≠ .Normal := fun hnormal => hcut.ne (hphased.normal_iff.mp hnormal)
  unfold phaseAt
  split
  case isTrue => rfl
  case isFalse hno =>
    cases hphase : t.phase with
    | Normal => exact absurd hphase hne
    | HoldDown => exact absurd ⟨hphase, hover⟩ hno
    | Recovering => rfl

/-! ## The whole stretch -/

theorem idleAfter_kept (calls : List Call) (times : ℕ → Instant) (k : ℕ) :
    (idleAfter calls times k).settleLeft = (track calls).settleLeft ∧
      (idleAfter calls times k).holdUntil = (track calls).holdUntil := by
  induction k with
  | zero => rw [idleAfter_zero]; exact ⟨rfl, rfl⟩
  | succ k ih =>
    obtain ⟨hsettle, huntil, -⟩ := observe_idle (idleAfter calls times k) (times k)
    rw [idleAfter_succ]
    exact ⟨hsettle.trans ih.1, huntil.trans ih.2⟩

/-- With windows left to settle the factor never moves. -/
theorem idleAfter_stuck (hsettle : (track calls).settleLeft ≠ 0) (k : ℕ) :
    (idleAfter calls times k).factor = (track calls).factor := by
  induction k with
  | zero => rw [idleAfter_zero]
  | succ k ih =>
    obtain ⟨-, -, hfactor⟩ := observe_idle (idleAfter calls times k) (times k)
    rw [idleAfter_succ, hfactor, if_neg fun h => hsettle ((idleAfter_kept calls times k).1 ▸ h.2),
      ih]

section

variable (h : Advances calls step times)
include h

/-- The times pass every bound. -/
theorem Advances.ge (k : ℕ) : k * step ≤ times k := by
  induction k with
  | zero => rw [Nat.zero_mul]; exact Nat.zero_le _
  | succ k ih =>
    calc (k + 1) * step = k * step + step := Nat.succ_mul k step
      _ ≤ times k + step := Nat.add_le_add_right ih step
      _ ≤ times (k + 1) := h.next k

theorem Advances.mono {i j : ℕ} (hij : i ≤ j) : times i ≤ times j :=
  monotone_nat_of_le_succ (fun k => (Nat.le_add_right _ _).trans (h.next k)) hij

theorem Advances.holdOver {t : DeliveryTracker ℚ}
    {i j : ℕ} (hij : i ≤ j) (hover : HoldOver t (times i)) : HoldOver t (times j) :=
  fun u hu => (hover u hu).trans (h.mono hij)

theorem Advances.exists_holdOver (hstep : 0 < step)
    (t : DeliveryTracker ℚ) : ∃ k, HoldOver t (times k) := by
  cases huntil : t.holdUntil with
  | none => exact ⟨0, fun u hu => by rw [huntil] at hu; cases hu⟩
  | some stop =>
    refine ⟨stop, fun u hu => ?_⟩
    rw [huntil] at hu
    cases hu
    exact (Nat.le_mul_of_pos_right stop hstep).trans (h.ge stop)

/-- Once a call has been made, every idle call is at least `step` after the last one. -/
theorem Advances.tickLength_ge (hcalls : calls ≠ []) (k : ℕ) :
    seconds step ≤ tickLength (idleAfter calls times k).lastTick (times k) := by
  have hgap : ∃ last, (idleAfter calls times k).lastTick = some last ∧ last + step ≤ times k := by
    cases k with
    | zero =>
      rw [idleAfter_zero, lastTick_track, List.getLast?_eq_getLast_of_ne_nil hcalls]
      exact ⟨_, rfl, h.first _ (List.getLast?_eq_getLast_of_ne_nil hcalls)⟩
    | succ k =>
      rw [idleAfter_succ, observe_lastTick]
      exact ⟨_, rfl, h.next k⟩
  obtain ⟨last, hlast, hle⟩ := hgap
  rw [hlast]
  show seconds step ≤ seconds (times k - last)
  have hsub : (step : ℚ) ≤ ((times k - last : ℕ) : ℚ) := by exact_mod_cast Nat.le_sub_of_add_le' hle
  exact div_le_div_of_nonneg_right hsub (by norm_num)

end

/-- An idle call never lowers the factor. -/
theorem idleAfter_le_succ (k : ℕ) :
    (idleAfter calls times k).factor ≤ (idleAfter calls times (k + 1)).factor := by
  obtain ⟨-, -, hfactor⟩ := observe_idle (idleAfter calls times k) (times k)
  rw [idleAfter_succ, hfactor]
  split
  · exact (phased_idleAfter calls times k).grow_ge (times k)
  · exact le_refl _

theorem idleAfter_mono (calls : List Call) (times : ℕ → Instant) {i j : ℕ} (hij : i ≤ j) :
    (idleAfter calls times i).factor ≤ (idleAfter calls times j).factor :=
  monotone_nat_of_le_succ idleAfter_le_succ hij

theorem track_le_idleAfter (calls : List Call) (times : ℕ → Instant) (k : ℕ) :
    (track calls).factor ≤ (idleAfter calls times k).factor := by
  have hle := idleAfter_mono calls times (Nat.zero_le k)
  rwa [idleAfter_zero] at hle

theorem idleAfter_of_full (hfull : (track calls).factor = 1) (k : ℕ) :
    (idleAfter calls times k).factor = 1 :=
  le_antisymm (phased_idleAfter _ _ _).high (hfull ▸ track_le_idleAfter calls times k)

/-- A tracker with a cut factor has been called. -/
theorem ne_nil_of_cut (hcut : (track calls).factor < 1) : calls ≠ [] := by
  rintro rfl
  exact lt_irrefl (1 : ℚ) hcut

section

variable (hadv : Advances calls step times) (hsettled : (track calls).settleLeft = 0)
  (hover : HoldOver (track calls) (times k))
include hadv hsettled hover

/-- After the hold time a settled link gains at least a tenth of its factor a second. -/
theorem Advances.gain (hcut : (idleAfter calls times k).factor < 1) :
    min ((idleAfter calls times k).factor * (1 + 1 / 10 * seconds step)) 1 ≤
      (idleAfter calls times (k + 1)).factor := by
  obtain ⟨hsettle, huntil⟩ := idleAfter_kept calls times k
  have hfound : phaseAt (idleAfter calls times k) (times k) = .Recovering := by
    refine phaseAt_of_holdOver (phased_idleAfter calls times k) ?_ hcut
    unfold HoldOver
    rw [huntil]
    exact hover
  have hlength := hadv.tickLength_ge
    (ne_nil_of_cut ((track_le_idleAfter calls times k).trans_lt hcut)) k
  have hpos : 0 ≤ (idleAfter calls times k).factor := by
    have hlow := (phased_idleAfter calls times k).low
    linarith
  obtain ⟨-, -, hfactor⟩ := observe_idle (idleAfter calls times k) (times k)
  rw [idleAfter_succ, hfactor, if_pos ⟨hfound, hsettle.trans hsettled⟩]
  gcongr

/-- After `n` calls the factor has risen by `n` first gains, or is 1. -/
theorem Advances.gains (n : ℕ) :
    min ((track calls).factor + n * ((track calls).factor * (1 / 10 * seconds step))) 1 ≤
      (idleAfter calls times (k + n)).factor := by
  have hpos : (0 : ℚ) < (track calls).factor := by
    have hlow := (phased_track calls).low
    linarith
  induction n with
  | zero =>
    rw [Nat.cast_zero, zero_mul, add_zero, Nat.add_zero]
    exact (min_le_left _ _).trans (track_le_idleAfter calls times k)
  | succ n ih =>
    by_cases hcut : (idleAfter calls times (k + n)).factor < 1
    · have hgain := hadv.gain hsettled (hadv.holdOver (Nat.le_add_right k n) hover) hcut
      have hrate : 0 ≤ 1 / 10 * seconds step := by
        unfold seconds
        positivity
      have hmore := mul_le_mul_of_nonneg_right
        (track_le_idleAfter calls times (k + n)) hrate
      rcases min_le_iff.mp ih with hlow | hone
      · refine le_trans (min_le_min_right 1 ?_) hgain
        push_cast
        linarith
      · exact absurd hone (not_le.mpr hcut)
    · have hfull := le_antisymm (phased_idleAfter _ _ _).high (not_lt.mp hcut)
      exact (min_le_right _ _).trans (hfull.ge.trans (idleAfter_mono _ _ (Nat.le_succ (k + n))))

end

/-- A settled link recovers. -/
theorem Advances.recovers (hadv : Advances calls step times) (hstep : 0 < step)
    (hsettled : (track calls).settleLeft = 0) : Recovers calls step times where
  rises k hover hcut := by
    have hgain := hadv.gain hsettled hover hcut
    have hpos : 0 < (idleAfter calls times k).factor := by
      have hlow := (phased_idleAfter calls times k).low
      linarith
    have hrate : 0 < 1 / 10 * seconds step := by
      unfold seconds
      positivity
    have hmore := mul_pos hpos hrate
    refine lt_of_lt_of_le (lt_min ?_ hcut) hgain
    linarith
  full k hover n hn := by
    have hgains := hadv.gains hsettled hover n
    have hpos : 0 < (track calls).factor * (1 / 10 * seconds step) := by
      have hlow := (phased_track calls).low
      refine mul_pos (by linarith) ?_
      unfold seconds
      positivity
    have hreach : 1 - (track calls).factor ≤ n * ((track calls).factor * (1 / 10 * seconds step)) :=
      (div_le_iff₀ hpos).mp (Nat.ceil_le.mp hn)
    rw [min_eq_right (by linarith)] at hgains
    exact le_antisymm (phased_idleAfter _ _ _).high hgains

/-- After any history an idle link recovers exactly when there is nothing to recover or no
window is left to settle. -/
theorem idle_recovers_iff (calls : List Call) (times : ℕ → Instant) {step : ℕ} (hstep : 0 < step)
    (hadv : Advances calls step times) :
    Recovers calls step times ↔ (track calls).factor = 1 ∨ (track calls).settleLeft = 0 := by
  constructor
  · intro hrecovers
    by_contra hnot
    obtain ⟨hcut, hsettle⟩ := not_or.mp hnot
    -- The hold time passes, but the factor of the cut stays.
    obtain ⟨k, hover⟩ := hadv.exists_holdOver hstep (track calls)
    have hlt : (track calls).factor < 1 := lt_of_le_of_ne (phased_track calls).high hcut
    have hrises := hrecovers.rises k hover (by rwa [idleAfter_stuck hsettle])
    rw [idleAfter_stuck hsettle, idleAfter_stuck hsettle] at hrises
    exact lt_irrefl _ hrises
  · rintro (hfull | hsettled)
    · exact ⟨fun k _ hcut => absurd (idleAfter_of_full hfull k) hcut.ne,
        fun k _ n _ => idleAfter_of_full hfull (k + n)⟩
    · exact hadv.recovers hstep hsettled

/-- A window in which a twentieth of the offered rate was delivered, and `settling` further
windows, one a second. -/
def cutAndSettle (settling : ℕ) : List Call :=
  ⟨1000000000, some ⟨20, 1, 1000000000⟩⟩ ::
    (List.range settling).map fun i =>
      ⟨2000000000 + i * 1000000000, some ⟨1, 1, 2000000000 + i * 1000000000⟩⟩

/-- One call a second, from two seconds after the last window of `cutAndSettle`. -/
def everySecond (settling k : ℕ) : Instant := 3000000000 + (settling + k) * 1000000000

theorem advances_everySecond (settling : ℕ) :
    Advances (cutAndSettle settling) 1000000000 (everySecond settling) where
  first c hc := by
    unfold cutAndSettle at hc
    cases settling with
    | zero => cases hc; decide
    | succ n =>
      rw [List.range_succ, List.map_append, ← List.cons_append, List.map_singleton,
        List.getLast?_concat] at hc
      cases hc
      show 2000000000 + n * 1000000000 + 1000000000 ≤ 3000000000 + (n + 1 + 0) * 1000000000
      omega
  next k := by
    show 3000000000 + (settling + k) * 1000000000 + 1000000000 ≤
      3000000000 + (settling + (k + 1)) * 1000000000
    omega

theorem idle_recovers_after_settling :
    (0 < 1000000000 ∧ Advances (cutAndSettle 3) 1000000000 (everySecond 3)) ∧
      Recovers (cutAndSettle 3) 1000000000 (everySecond 3) := by
  have hadv := advances_everySecond 3
  exact ⟨⟨by decide, hadv⟩,
    (idle_recovers_iff (cutAndSettle 3) (everySecond 3) (by decide) hadv).mpr
      (Or.inr (by decide +kernel))⟩

/-- A link that goes idle right after a cut keeps its factor for ever. -/
theorem idle_stays_cut :
    Advances (cutAndSettle 0) 1000000000 (everySecond 0) ∧
      (∀ k, 3 ≤ k → HoldOver (track (cutAndSettle 0)) (everySecond 0 k)) ∧
      ∀ k, (idleAfter (cutAndSettle 0) (everySecond 0) k).factor = 9 / 200 := by
  have hcut : (track (cutAndSettle 0)).settleLeft ≠ 0 ∧
      (track (cutAndSettle 0)).holdUntil = some 6000000000 ∧
      (track (cutAndSettle 0)).factor = 9 / 200 := by
    decide +kernel
  refine ⟨advances_everySecond 0, fun k hk u hu => ?_, fun k => ?_⟩
  · rw [hcut.2.1] at hu
    cases hu
    show 6000000000 ≤ 3000000000 + (0 + k) * 1000000000
    omega
  · rw [idleAfter_stuck hcut.1]
    exact hcut.2.2

end Mlvpn.Ports.DeliveryIdle
