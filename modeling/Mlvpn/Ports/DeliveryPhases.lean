import Mlvpn.Ports.CongestionFilter
import Mlvpn.Ports.Delivery

/-!
# Phases of the delivery controller

`DeliveryTracker::observe` moves between three phases: `Normal` at full weight, `HoldDown`
after a cut, `Recovering` once the hold time is over.  Here the `f64` arithmetic is read as
exact rational arithmetic and whole sequences of observations are followed.

One call does one of three things to the factor and the phase (`Tick`): it cuts, it grows
the factor of a recovering link, or it leaves both as they are but for the end of a hold
time.  Everything below is derived from that.

## Main results

* `observe_tick`: the inversion of one call.
* `delivery_phases`: bounds, phases, hold times, growth and repeated samples, over every
  sequence of calls.
-/

namespace Mlvpn.Ports.DeliveryPhases

open Verified Delivery
open Congestion (asSecsF64)
open CongestionFilter (seconds asSecsF64_rat clamp_rat sub_lt_iff)
open FecRecovery (Instant)
open Verified.Floating (ofRat)

/-! ## Calls, cuts and ticks -/

/-- One call of `observe`. -/
structure Call where
  now : Instant
  sample : Option (DeliverySample ℚ)

/-- The tracker after the calls, from the start. -/
def track (calls : List Call) : DeliveryTracker ℚ :=
  calls.foldl (fun t c => t.observe c.now c.sample) .default

/-- Times never go back. -/
def Ordered (calls : List Call) : Prop := calls.Pairwise fun a b => a.now ≤ b.now

/-- The delivered share of what was offered, if that was enough to judge by. -/
def windowRatio (s : DeliverySample ℚ) : ℚ :=
  if 1 / 4 ≤ s.offeredMbps then
    Floating.clamp (s.deliveredMbps / s.offeredMbps) (ofRat 0) (ofRat 1)
  else 1

def isBad (s : DeliverySample ℚ) : Prop :=
  1 / 4 ≤ s.offeredMbps ∧ windowRatio s < 17 / 20 ∧ 1 / 10 ≤ s.offeredMbps - s.deliveredMbps

instance decidableIsBad (s : DeliverySample ℚ) : Decidable (isBad s) := by
  unfold isBad
  infer_instance

/-- The call's sample is evaluated: a recent one, with another stamp than the last. -/
def Evaluates (t : DeliveryTracker ℚ) (c : Call) : Prop :=
  ∃ s ∈ c.sample, t.lastStamp ≠ some s.stamp ∧ c.now - s.stamp < STALE_AFTER

/-- The evaluated sample makes the tracker cut: bad for the second time in a row, or
severely bad. -/
def CutsOn (t : DeliveryTracker ℚ) (s : DeliverySample ℚ) : Prop :=
  t.settleLeft = 0 ∧ isBad s ∧ (2 ≤ t.badWindows + 1 ∨ windowRatio s < 3 / 10)

instance decidableCutsOn (t : DeliveryTracker ℚ) (s : DeliverySample ℚ) :
    Decidable (CutsOn t s) := by
  unfold CutsOn
  infer_instance

/-- The call makes a cut. -/
def Cuts (t : DeliveryTracker ℚ) (c : Call) : Prop :=
  ∃ s ∈ c.sample, (t.lastStamp ≠ some s.stamp ∧ c.now - s.stamp < STALE_AFTER) ∧ CutsOn t s

/-- The phase a call finds, once an elapsed hold time has ended. -/
def phaseAt (t : DeliveryTracker ℚ) (now : Instant) : Phase :=
  if t.phase = .HoldDown ∧ (∀ u ∈ t.holdUntil, u ≤ now) then .Recovering else t.phase

/-- The seconds since the call before. -/
def tickLength (last : Option Instant) (now : Instant) : ℚ :=
  (last.map fun last => seconds (now - last)).getD 0

/-- The growth that ticks of these lengths allow. -/
def growth (last : Option Instant) : List Call → ℚ
  | [] => 1
  | c :: calls => (1 + 1 / 10 * tickLength last c.now) * growth (some c.now) calls

/-- The phase has been `Normal` since a call at `time`. -/
def NormalSince (calls : List Call) (time : Instant) : Prop :=
  ∃ before c after, calls = before ++ c :: after ∧ c.now = time ∧
    ∀ more, more <+: after → (track (before ++ c :: more)).phase = .Normal

/-! ## One call -/

/-- What one call can do. -/
inductive Tick (t t' : DeliveryTracker ℚ) (c : Call) : Prop where
  | cut (cuts : Cuts t c) (ratio : ℚ) (bad : ratio < 17 / 20)
      (factor : t'.factor = max (1 / 1000) (min (t.factor * ratio * (9 / 10)) 1))
      (phase : t'.phase = .HoldDown)
      (hold : t'.hold = if phaseAt t c.now = .Recovering then min (t.hold * 2) HOLD_MAX else t.hold)
      (holdUntil : t'.holdUntil = some (c.now + t'.hold))
      (healthySince : t'.healthySince = none)
  | keep (cuts : ¬Cuts t c) (factor : t'.factor = t.factor) (phase : t'.phase = phaseAt t c.now)
      (holdUntil : t'.holdUntil = t.holdUntil) (healthySince : t'.healthySince = t.healthySince)
      (hold : t'.hold = t.hold ∨ t'.hold = HOLD_BASE ∧ t'.phase = .Normal ∧
        ∃ since ∈ t.healthySince, RESET_AFTER ≤ c.now - since)
  | grow (cuts : ¬Cuts t c) (found : phaseAt t c.now = .Recovering)
      (factor : t'.factor = min (t.factor * (1 + 1 / 10 * tickLength t.lastTick c.now)) 1)
      (hold : t'.hold = t.hold) (holdUntil : t'.holdUntil = t.holdUntil)
      (reached : 1 ≤ t'.factor → t'.phase = .Normal ∧ t'.healthySince = some c.now)
      (short : ¬1 ≤ t'.factor → t'.phase = .Recovering ∧ t'.healthySince = t.healthySince)

section

variable {t : DeliveryTracker ℚ} {now : Instant}

theorem endHold_eq :
    ({ t with lastTick := some now } : DeliveryTracker ℚ).endHold now =
      { t with lastTick := some now, phase := phaseAt t now } := by
  simp only [DeliveryTracker.endHold, phaseAt]
  split
  · rfl
  · rfl

/-- `evaluate_window`, by its outcomes. -/
theorem evaluateWindow_eq (s : DeliverySample ℚ) :
    t.evaluateWindow now s =
      if 0 < t.settleLeft then { t with settleLeft := t.settleLeft - 1 }
      else if isBad s then
        if 2 ≤ t.badWindows + 1 ∨ windowRatio s < 3 / 10 then
          ({ t with badWindows := t.badWindows + 1, cleanWindows := 0 } : DeliveryTracker ℚ).cut
            now (windowRatio s)
        else { t with badWindows := t.badWindows + 1, cleanWindows := 0 }
      else { t with badWindows := 0, cleanWindows := t.cleanWindows + 1 } := by
  have hratio : (if decide (MIN_OFFERED_MBPS ≤ s.offeredMbps) = true then
      Floating.clamp (s.deliveredMbps / s.offeredMbps) (ofRat 0) (ofRat 1) else ofRat 1) =
        windowRatio s := by
    simp only [windowRatio, decide_eq_true_eq]
    rfl
  have hbad : (decide ((MIN_OFFERED_MBPS : ℚ) ≤ s.offeredMbps) &&
      decide (windowRatio s < BAD_RATIO) &&
      decide (MIN_SHORTFALL_MBPS ≤ s.offeredMbps - s.deliveredMbps)) = decide (isBad s) := by
    rw [Bool.eq_iff_iff]
    simp only [Bool.and_eq_true, decide_eq_true_eq]
    exact and_assoc
  unfold DeliveryTracker.evaluateWindow
  split
  case isTrue => rfl
  case isFalse =>
    simp only
    rw [hratio, hbad]
    by_cases h : isBad s
    · rw [decide_eq_true h, if_pos h]
      simp only [if_true, true_and]
      rfl
    · rw [decide_eq_false h, if_neg h]
      simp only [Bool.false_eq_true, false_and, if_false]

theorem not_lt_settleLeft_iff : ¬0 < t.settleLeft ↔ t.settleLeft = 0 := by
  rw [UInt32.lt_iff_toNat_lt, ← UInt32.toNat_inj]
  simp

variable {s : DeliverySample ℚ}

theorem evaluateWindow_cuts (h : CutsOn t s) :
    t.evaluateWindow now s =
      ({ t with badWindows := t.badWindows + 1, cleanWindows := 0 } : DeliveryTracker ℚ).cut now
        (windowRatio s) := by
  rw [evaluateWindow_eq, if_neg (not_lt_settleLeft_iff.mpr h.1), if_pos h.2.1, if_pos h.2.2]

/-- Without a cut only the counters change. -/
theorem evaluateWindow_keeps (h : ¬CutsOn t s) (now : Instant) :
    ∃ settle bad clean, t.evaluateWindow now s =
      { t with settleLeft := settle, badWindows := bad, cleanWindows := clean } := by
  rw [evaluateWindow_eq]
  split
  case isTrue => exact ⟨_, _, _, rfl⟩
  case isFalse hsettle =>
    split
    case isTrue hbad =>
      rw [if_neg fun hagain => h ⟨not_lt_settleLeft_iff.mp hsettle, hbad, hagain⟩]
      exact ⟨_, _, _, rfl⟩
    case isFalse => exact ⟨_, _, _, rfl⟩

/-- Growth happens to a recovering link, or not at all. -/
theorem grow_cases (t : DeliveryTracker ℚ) (now : Instant) (dt : ℚ) (idle : Bool) :
    t.grow now dt idle = t ∨ t.phase = .Recovering ∧
      t.grow now dt idle =
        if 1 ≤ min (t.factor * (1 + 1 / 10 * dt)) 1 then
          { t with factor := min (t.factor * (1 + 1 / 10 * dt)) 1, phase := .Normal,
                   healthySince := some now }
        else { t with factor := min (t.factor * (1 + 1 / 10 * dt)) 1 } := by
  unfold DeliveryTracker.grow
  split
  case isTrue h => exact Or.inr ⟨h.1, rfl⟩
  case isFalse => exact Or.inl rfl

theorem forgive_cases (t : DeliveryTracker ℚ) (now : Instant) :
    t.forgive now = t ∨ t.phase = .Normal ∧ (∃ since ∈ t.healthySince, RESET_AFTER ≤ now - since) ∧
      t.forgive now = { t with hold := HOLD_BASE } := by
  unfold DeliveryTracker.forgive
  split
  case isTrue h =>
    obtain ⟨since, hsince, hle⟩ := (Option.any_eq_true _ _).mp h.2
    exact Or.inr ⟨h.1, ⟨since, hsince, of_decide_eq_true hle⟩, rfl⟩
  case isFalse => exact Or.inl rfl

theorem fresh_iff :
    t.fresh now s = true ↔ t.lastStamp ≠ some s.stamp ∧ now - s.stamp < STALE_AFTER := by
  rw [DeliveryTracker.fresh, Bool.and_eq_true, decide_eq_true_eq, decide_eq_true_eq]

variable {c : Call}

theorem fold_cuts (h : Cuts t c) :
    ∃ s stamp bad clean, t.fold c.now c.sample =
      ({ t with lastStamp := stamp, badWindows := bad, cleanWindows := clean } :
        DeliveryTracker ℚ).cut c.now (windowRatio s) ∧ isBad s := by
  obtain ⟨s, hs, hfresh, hcuts⟩ := h
  rw [Option.mem_def.mp hs, DeliveryTracker.fold, if_pos (fresh_iff.mpr hfresh)]
  refine ⟨s, some s.stamp, t.badWindows + 1, 0, ?_, hcuts.2.1⟩
  exact evaluateWindow_cuts (t := { t with lastStamp := some s.stamp }) hcuts

/-- Without a cut only the stamp and the counters change. -/
theorem fold_keeps (h : ¬Cuts t c) :
    ∃ stamp settle bad clean, t.fold c.now c.sample =
      { t with lastStamp := stamp, settleLeft := settle, badWindows := bad,
               cleanWindows := clean } := by
  cases hsample : c.sample with
  | none => exact ⟨_, _, _, _, rfl⟩
  | some s =>
    rw [DeliveryTracker.fold]
    split
    case isTrue hfresh =>
      have hkeeps : ¬CutsOn { t with lastStamp := some s.stamp } s := fun hcuts =>
        h ⟨s, hsample, fresh_iff.mp hfresh, hcuts⟩
      obtain ⟨settle, bad, clean, heq⟩ := evaluateWindow_keeps hkeeps c.now
      exact ⟨_, settle, bad, clean, heq⟩
    case isFalse => exact ⟨_, _, _, _, rfl⟩

theorem observe_eq (sample : Option (DeliverySample ℚ)) :
    t.observe now sample =
      ((({ t with lastTick := some now, phase := phaseAt t now } : DeliveryTracker ℚ).fold now
        sample).grow now (tickLength t.lastTick now) sample.isNone).forgive now := by
  rw [DeliveryTracker.observe, endHold_eq]
  congr 2
  cases t.lastTick with
  | none => rfl
  | some last => exact asSecsF64_rat (now - last)

/-- One call cuts, grows, or keeps the factor. -/
theorem observe_tick : Tick t (t.observe c.now c.sample) c := by
  rw [observe_eq]
  generalize hticked : ({ t with lastTick := some c.now, phase := phaseAt t c.now } :
    DeliveryTracker ℚ) = ticked
  by_cases hcut : Cuts t c
  · -- A cut puts the phase to `HoldDown`, so nothing else happens.
    obtain ⟨s, stamp, bad, clean, hfold, hbad⟩ :=
      fold_cuts (t := ticked) (c := c) (by rw [← hticked]; exact hcut)
    rw [hfold]
    generalize hcutState : ({ ticked with
      lastStamp := stamp, badWindows := bad, cleanWindows := clean } : DeliveryTracker ℚ).cut
        c.now (windowRatio s) = after
    have hphase : after.phase = .HoldDown := by rw [← hcutState]; rfl
    have hgrow : after.grow c.now (tickLength t.lastTick c.now) c.sample.isNone = after := by
      rcases grow_cases after c.now _ _ with h | ⟨h, -⟩
      · exact h
      · exact absurd (hphase.symm.trans h) (by decide)
    have hforgive : after.forgive c.now = after := by
      rcases forgive_cases after c.now with h | ⟨h, -⟩
      · exact h
      · exact absurd (hphase.symm.trans h) (by decide)
    rw [hgrow, hforgive]
    refine .cut hcut (windowRatio s) hbad.2.1 ?_ hphase ?_ ?_ ?_
    · rw [← clamp_rat _ (show (1 / 1000 : ℚ) ≤ 1 by norm_num), ← hcutState, ← hticked]
      rfl
    · rw [← hcutState, ← hticked]
      rfl
    · rw [← hcutState]
      rfl
    · rw [← hcutState]
      rfl
  · obtain ⟨stamp, settle, bad, clean, hfold⟩ :=
      fold_keeps (t := ticked) (c := c) (by rw [← hticked]; exact hcut)
    rw [hfold]
    generalize hkept : ({ ticked with
      lastStamp := stamp, settleLeft := settle, badWindows := bad, cleanWindows := clean } :
      DeliveryTracker ℚ) = kept
    have hfactor : kept.factor = t.factor := by rw [← hkept, ← hticked]
    have hphase : kept.phase = phaseAt t c.now := by rw [← hkept, ← hticked]
    have hhold : kept.hold = t.hold := by rw [← hkept, ← hticked]
    have huntil : kept.holdUntil = t.holdUntil := by rw [← hkept, ← hticked]
    have hsince : kept.healthySince = t.healthySince := by rw [← hkept, ← hticked]
    rcases grow_cases kept c.now (tickLength t.lastTick c.now)
      c.sample.isNone with hgrow | ⟨hrecovering, hgrow⟩
    · rw [hgrow]
      rcases forgive_cases kept c.now with h | ⟨hnormal, ⟨since, hmem, hle⟩, h⟩
      · rw [h]
        exact .keep hcut hfactor hphase huntil hsince (Or.inl hhold)
      · rw [h]
        exact .keep hcut hfactor hphase huntil hsince
          (Or.inr ⟨rfl, hnormal, since, hsince ▸ hmem, hle⟩)
    · rw [hgrow, hfactor]
      rw [hphase] at hrecovering
      split
      case isTrue hfull =>
        -- A link that has just become healthy has not been so for a minute.
        generalize hgrown : ({ kept with
          factor := min (t.factor * (1 + 1 / 10 * tickLength t.lastTick c.now)) 1,
          phase := .Normal, healthySince := some c.now } : DeliveryTracker ℚ) = grown
        have hforgive : grown.forgive c.now = grown := by
          rcases forgive_cases grown c.now with h | ⟨-, ⟨since, hmem, hle⟩, -⟩
          · exact h
          · rw [← hgrown] at hmem
            obtain rfl : c.now = since := Option.some.inj hmem
            rw [Nat.sub_self] at hle
            exact absurd hle (by decide)
        rw [hforgive, ← hgrown]
        exact .grow hcut hrecovering rfl hhold huntil (fun _ => ⟨rfl, rfl⟩)
          (fun hshort => absurd hfull hshort)
      case isFalse hshort =>
        generalize hgrown : ({ kept with
          factor := min (t.factor * (1 + 1 / 10 * tickLength t.lastTick c.now)) 1 } :
          DeliveryTracker ℚ) = grown
        have hforgive : grown.forgive c.now = grown := by
          rcases forgive_cases grown c.now with h | ⟨hnormal, -⟩
          · exact h
          · rw [← hgrown] at hnormal
            exact absurd ((hphase.trans hrecovering).symm.trans hnormal) (by decide)
        rw [hforgive, ← hgrown]
        exact .grow hcut hrecovering rfl hhold huntil (fun hfull => absurd hfull hshort)
          (fun _ => ⟨hphase.trans hrecovering, hsince⟩)

end

/-! ## What a call notes down -/

/-- What the tracker keeps of the samples it has evaluated. -/
def evidence (t : DeliveryTracker ℚ) : Option Instant × UInt32 × UInt32 × UInt32 :=
  (t.lastStamp, t.badWindows, t.cleanWindows, t.settleLeft)

section

variable (t : DeliveryTracker ℚ) (now : Instant)

theorem grow_notes (dt : ℚ) (idle : Bool) :
    evidence (t.grow now dt idle) = evidence t ∧ (t.grow now dt idle).lastTick = t.lastTick := by
  rcases grow_cases t now dt idle with h | ⟨-, h⟩
  · rw [h]
    exact ⟨rfl, rfl⟩
  · rw [h]
    split <;> exact ⟨rfl, rfl⟩

theorem forgive_notes :
    evidence (t.forgive now) = evidence t ∧ (t.forgive now).lastTick = t.lastTick := by
  rcases forgive_cases t now with h | ⟨-, -, h⟩
  · rw [h]
    exact ⟨rfl, rfl⟩
  · rw [h]
    exact ⟨rfl, rfl⟩

theorem evaluateWindow_notes (s : DeliverySample ℚ) :
    (t.evaluateWindow now s).lastStamp = t.lastStamp ∧
      (t.evaluateWindow now s).lastTick = t.lastTick := by
  by_cases h : CutsOn t s
  · rw [evaluateWindow_cuts h]
    exact ⟨rfl, rfl⟩
  · obtain ⟨settle, bad, clean, heq⟩ := evaluateWindow_keeps h now
    rw [heq]
    exact ⟨rfl, rfl⟩

theorem fold_lastTick (sample : Option (DeliverySample ℚ)) :
    (t.fold now sample).lastTick = t.lastTick := by
  cases sample with
  | none => rfl
  | some s =>
    rw [DeliveryTracker.fold]
    split
    · exact (evaluateWindow_notes _ now s).2
    · rfl

theorem observe_lastTick (sample : Option (DeliverySample ℚ)) :
    (t.observe now sample).lastTick = some now := by
  rw [observe_eq, (forgive_notes _ now).2, (grow_notes _ now _ _).2, fold_lastTick]

variable {t now} {s : DeliverySample ℚ}

/-- An evaluated sample leaves its stamp. -/
theorem observe_fresh (h : t.fresh now s = true) :
    (t.observe now (some s)).lastStamp = some s.stamp := by
  have hnotes : evidence (t.observe now (some s)) = evidence
      (({ t with lastTick := some now, phase := phaseAt t now } : DeliveryTracker ℚ).fold now
        (some s)) := by
    rw [observe_eq, (forgive_notes _ now).1, (grow_notes _ now _ _).1]
  have hfold : ({ t with lastTick := some now, phase := phaseAt t now } :
      DeliveryTracker ℚ).fold now (some s) =
        ({ t with lastTick := some now, phase := phaseAt t now, lastStamp := some s.stamp } :
          DeliveryTracker ℚ).evaluateWindow now s := if_pos h
  rw [hfold] at hnotes
  exact (congrArg Prod.fst hnotes).trans (evaluateWindow_notes _ now s).1

/-- A sample that is not evaluated leaves everything. -/
theorem observe_repeated (h : ¬t.fresh now s = true) :
    evidence (t.observe now (some s)) = evidence t := by
  have hfold : ({ t with lastTick := some now, phase := phaseAt t now } :
      DeliveryTracker ℚ).fold now (some s) =
        { t with lastTick := some now, phase := phaseAt t now } := if_neg h
  rw [observe_eq, (forgive_notes _ now).1, (grow_notes _ now _ _).1, hfold]
  rfl

end

/-! ## What every call keeps -/

theorem tickLength_nonneg (last : Option Instant) (now : Instant) : 0 ≤ tickLength last now := by
  cases last with
  | none => exact le_refl _
  | some last =>
    show (0 : ℚ) ≤ ((now - last : Nat) : ℚ) / 1000000000
    positivity

theorem growth_nonneg (last : Option Instant) (calls : List Call) : 0 ≤ growth last calls := by
  induction calls generalizing last with
  | nil => exact zero_le_one
  | cons c calls ih =>
    have hdt := tickLength_nonneg last c.now
    exact mul_nonneg (by positivity) (ih _)

theorem phaseAt_eq_normal_iff {t : DeliveryTracker ℚ} {now : Instant} :
    phaseAt t now = .Normal ↔ t.phase = .Normal := by
  unfold phaseAt
  split
  case isTrue h => simp [h.1]
  case isFalse => exact Iff.rfl

/-- Bounds and phases. -/
structure Phased (t : DeliveryTracker ℚ) : Prop where
  low : 1 / 1000 ≤ t.factor
  high : t.factor ≤ 1
  normal_iff : t.phase = .Normal ↔ t.factor = 1
  hold_low : HOLD_BASE ≤ t.hold
  hold_high : t.hold ≤ HOLD_MAX

section

variable {t t' : DeliveryTracker ℚ} {c : Call}

/-- A cut takes the factor down, unless it is at its floor. -/
theorem Phased.cut_le (h : Phased t) {ratio : ℚ} (hbad : ratio < 17 / 20) :
    max (1 / 1000) (min (t.factor * ratio * (9 / 10)) 1) ≤ t.factor ∧
      max (1 / 1000) (min (t.factor * ratio * (9 / 10)) 1) < 1 := by
  have hlow := h.low
  have hprod : t.factor * ratio ≤ t.factor * (17 / 20) :=
    mul_le_mul_of_nonneg_left hbad.le (by linarith)
  have hle := min_le_left (t.factor * ratio * (9 / 10)) 1
  have hhigh := h.high
  exact ⟨max_le hlow (by linarith), max_lt (by norm_num) (by linarith)⟩

theorem Phased.grow_ge (h : Phased t) (now : Instant) :
    t.factor ≤ min (t.factor * (1 + 1 / 10 * tickLength t.lastTick now)) 1 := by
  have hlow := h.low
  have hdt := tickLength_nonneg t.lastTick now
  have hgain : 0 ≤ t.factor * (1 / 10 * tickLength t.lastTick now) := by positivity
  refine le_min ?_ h.high
  rw [mul_add, mul_one]
  linarith

theorem Phased.tick (h : Phased t) (htick : Tick t t' c) : Phased t' := by
  cases htick with
  | cut _ ratio hbad hfactor hphase hhold =>
    obtain ⟨-, hlt⟩ := h.cut_le hbad
    have hlow := h.hold_low
    have hhigh := h.hold_high
    rw [← hfactor] at hlt
    refine ⟨hfactor ▸ le_max_left _ _, hlt.le, ?_, ?_, ?_⟩
    · rw [hphase]
      exact ⟨fun hne => absurd hne (by decide), fun hone => absurd hone hlt.ne⟩
    · rw [hhold]
      split
      · exact le_min (by omega) (hlow.trans hhigh)
      · exact hlow
    · rw [hhold]
      split
      · exact min_le_right _ _
      · exact hhigh
  | keep _ hfactor hphase _ _ hhold =>
    refine ⟨hfactor ▸ h.low, hfactor ▸ h.high, ?_, ?_, ?_⟩
    · rw [hphase, hfactor, phaseAt_eq_normal_iff]
      exact h.normal_iff
    · rcases hhold with hsame | ⟨hbase, -⟩
      · exact hsame ▸ h.hold_low
      · exact hbase ▸ le_refl _
    · rcases hhold with hsame | ⟨hbase, -⟩
      · exact hsame ▸ h.hold_high
      · rw [hbase]
        decide
  | grow _ _ hfactor hhold _ hreached hshort =>
    refine ⟨hfactor ▸ h.low.trans (h.grow_ge c.now), hfactor ▸ min_le_right _ _, ?_,
      hhold ▸ h.hold_low, hhold ▸ h.hold_high⟩
    have hle : t'.factor ≤ 1 := hfactor ▸ min_le_right _ _
    by_cases hfull : 1 ≤ t'.factor
    · exact ⟨fun _ => le_antisymm hle hfull, fun _ => (hreached hfull).1⟩
    · rw [(hshort hfull).1]
      exact ⟨fun hne => absurd hne (by decide), fun hone => absurd hone.ge hfull⟩

/-- The hold time of a cut at `cutTime`, that ends at `stop`, is running. -/
structure Frozen (cutTime stop : Instant) (t : DeliveryTracker ℚ) : Prop where
  phase : t.phase = .HoldDown
  holdUntil : ∃ u ∈ t.holdUntil, stop ≤ u
  hold : stop ≤ cutTime + t.hold

theorem Frozen.phaseAt_eq {cutTime stop : Instant} (h : Frozen cutTime stop t) {now : Instant}
    (hnow : now < stop) : phaseAt t now = .HoldDown := by
  obtain ⟨u, hu, hle⟩ := h.holdUntil
  rw [phaseAt, if_neg fun hover => absurd (hover.2 u hu)
    (Nat.not_le.mpr (Nat.lt_of_lt_of_le hnow hle)), h.phase]

/-- While a hold time runs the factor does not rise; another cut prolongs it. -/
theorem Frozen.tick {cutTime stop : Instant} (h : Frozen cutTime stop t) (hphased : Phased t)
    (htick : Tick t t' c) (hcut : cutTime ≤ c.now) (hnow : c.now < stop) :
    Frozen cutTime stop t' ∧ t'.factor ≤ t.factor := by
  have hfound := h.phaseAt_eq hnow
  have hstop := h.hold
  cases htick with
  | cut _ ratio hbad hfactor hphase hhold huntil =>
    rw [if_neg (by rw [hfound]; decide)] at hhold
    refine ⟨⟨hphase, ⟨_, huntil, ?_⟩, ?_⟩, hfactor ▸ (hphased.cut_le hbad).1⟩
    · rw [hhold]
      exact hstop.trans (Nat.add_le_add_right hcut _)
    · rw [hhold]
      exact hstop
  | keep _ hfactor hphase huntil _ hhold =>
    rw [hfound] at hphase
    rcases hhold with hsame | ⟨-, hnormal, -⟩
    · exact ⟨⟨hphase, huntil ▸ h.holdUntil, hsame ▸ hstop⟩, hfactor.le⟩
    · exact absurd (hphase.symm.trans hnormal) (by decide)
  | grow _ hrecovering => exact absurd (hfound.symm.trans hrecovering) (by decide)

end

/-! ## Whole runs -/

theorem tick_track (calls : List Call) (c : Call) :
    Tick (track calls) (track (calls ++ [c])) c := by
  unfold track
  rw [List.foldl_concat]
  exact observe_tick

theorem phased_track (calls : List Call) : Phased (track calls) := by
  induction calls using List.reverseRecOn with
  | nil =>
    refine ⟨?_, le_refl _, ⟨fun _ => rfl, fun _ => rfl⟩, le_refl _, by decide⟩
    show (1 / 1000 : ℚ) ≤ 1
    norm_num
  | append_singleton calls c ih => exact ih.tick (tick_track calls c)

theorem lastTick_track (calls : List Call) :
    (track calls).lastTick = calls.getLast?.map Call.now := by
  rcases List.eq_nil_or_concat calls with rfl | ⟨calls, c, rfl⟩
  · rfl
  · rw [List.concat_eq_append, track, List.foldl_concat, observe_lastTick, List.getLast?_append]
    rfl

/-- The phase has been `Normal` for as long as the tracker says. -/
theorem normalSince_track {calls : List Call} {since : Instant}
    (h : (track calls).healthySince = some since) : NormalSince calls since := by
  induction calls using List.reverseRecOn with
  | nil => cases h
  | append_singleton calls c ih =>
    -- What has been so until now goes on, if the phase is still `Normal`.
    have hextend : NormalSince calls since → (track (calls ++ [c])).phase = .Normal →
        NormalSince (calls ++ [c]) since := by
      rintro ⟨before, d, after, hcalls, htime, hnormal⟩ hphase
      refine ⟨before, d, after ++ [c], by simp [hcalls], htime, fun more hmore => ?_⟩
      rcases List.prefix_concat_iff.mp hmore with rfl | hmore
      · rw [← List.cons_append, ← List.append_assoc, ← hcalls]
        exact hphase
      · exact hnormal more hmore
    have hbefore : NormalSince calls since → (track calls).phase = .Normal := by
      rintro ⟨before, d, after, hcalls, -, hnormal⟩
      rw [hcalls]
      exact hnormal after (List.prefix_refl after)
    cases tick_track calls c with
    | cut _ _ _ _ _ _ _ hnone => exact absurd (hnone.symm.trans h) (by simp)
    | keep _ _ hphase _ hsame =>
      have hsince := ih (hsame.symm.trans h)
      exact hextend hsince (hphase.trans (phaseAt_eq_normal_iff.mpr (hbefore hsince)))
    | grow _ hrecovering _ _ _ hreached hshort =>
      by_cases hfull : 1 ≤ (track (calls ++ [c])).factor
      · obtain ⟨hphase, hnow⟩ := hreached hfull
        refine ⟨calls, c, [], rfl, Option.some.inj (hnow.symm.trans h), fun more hmore => ?_⟩
        rw [List.prefix_nil.mp hmore]
        exact hphase
      · have hnormal := hbefore (ih ((hshort hfull).2.symm.trans h))
        have hfound : phaseAt (track calls) c.now = .Normal :=
          phaseAt_eq_normal_iff.mpr hnormal
        exact absurd (hfound.symm.trans hrecovering) (by decide)

variable {c : Call}

theorem Ordered.le {calls : List Call} {d : Call} (h : Ordered (calls ++ [c])) (hd : d ∈ calls) :
    d.now ≤ c.now :=
  (List.pairwise_append.mp h).2.2 d hd c (List.mem_singleton.mpr rfl)

variable {before : List Call}

/-- From a cut to the end of its hold time the tracker is frozen. -/
theorem frozen_track {after : List Call} {k : Call}
    (hordered : Ordered (before ++ k :: after)) (hcut : Cuts (track before) k)
    (hafter : ∀ c ∈ after, c.now < k.now + (track (before ++ [k])).hold) :
    Frozen k.now (k.now + (track (before ++ [k])).hold) (track (before ++ k :: after)) := by
  induction after using List.reverseRecOn with
  | nil =>
    cases tick_track before k with
    | cut _ _ _ _ hphase _ huntil => exact ⟨hphase, ⟨_, huntil, le_refl _⟩, le_refl _⟩
    | keep hno => exact absurd hcut hno
    | grow hno => exact absurd hcut hno
  | append_singleton after c ih =>
    rw [← List.cons_append, ← List.append_assoc] at hordered ⊢
    have hfrozen := ih (List.pairwise_append.mp hordered).1
      fun d hd => hafter d (List.mem_append_left _ hd)
    exact (hfrozen.tick (phased_track _) (tick_track _ c) (hordered.le (by simp))
      (hafter c (by simp))).1

/-- The factor grows with the ticks, at most. -/
theorem growth_track (earlier later : List Call) :
    (track (earlier ++ later)).factor ≤
      (track earlier).factor * growth (earlier.getLast?.map Call.now) later := by
  induction later generalizing earlier with
  | nil => rw [List.append_nil, growth, mul_one]
  | cons c later ih =>
    have hphased := phased_track earlier
    have hlow := hphased.low
    have hnext := ih (earlier ++ [c])
    have hdt := tickLength_nonneg (earlier.getLast?.map Call.now) c.now
    have hstep : (track (earlier ++ [c])).factor ≤
        (track earlier).factor *
          (1 + 1 / 10 * tickLength (earlier.getLast?.map Call.now) c.now) := by
      have hgain : 0 ≤ (track earlier).factor *
          (1 / 10 * tickLength (earlier.getLast?.map Call.now) c.now) := by positivity
      cases tick_track earlier c with
      | cut _ ratio hbad hfactor =>
        have hle := (hphased.cut_le hbad).1
        rw [hfactor, mul_add, mul_one]
        linarith
      | keep _ hfactor =>
        rw [hfactor, mul_add, mul_one]
        linarith
      | grow _ _ hfactor =>
        rw [hfactor, ← lastTick_track]
        exact min_le_left _ _
    rw [List.getLast?_append, List.getLast?_singleton] at hnext
    rw [← List.singleton_append, ← List.append_assoc]
    calc (track (earlier ++ [c] ++ later)).factor
        ≤ (track (earlier ++ [c])).factor * growth (some c.now) later := hnext
      _ ≤ (track earlier).factor *
            (1 + 1 / 10 * tickLength (earlier.getLast?.map Call.now) c.now) *
              growth (some c.now) later := mul_le_mul_of_nonneg_right hstep (growth_nonneg _ _)
      _ = _ := by rw [List.singleton_append, growth, mul_assoc]

/-- A stamp seen by the call before is not evaluated again. -/
theorem not_evaluates_repeated {k : Call} (hle : k.now ≤ c.now)
    {s s' : DeliverySample ℚ} (hs : s ∈ k.sample) (hs' : s' ∈ c.sample)
    (hstamp : s'.stamp = s.stamp) : ¬Evaluates (track (before ++ [k])) c := by
  rintro ⟨r, hr, hne, hrecent⟩
  obtain rfl : s' = r := Option.some.inj (hs'.symm.trans hr)
  have htrack : track (before ++ [k]) = (track before).observe k.now (some s) := by
    rw [track, List.foldl_concat, Option.mem_def.mp hs]
    rfl
  rw [htrack, hstamp] at hne
  by_cases hfresh : (track before).fresh k.now s = true
  · exact hne (observe_fresh hfresh)
  · have hsame : ((track before).observe k.now (some s)).lastStamp = (track before).lastStamp :=
      congrArg Prod.fst (observe_repeated hfresh)
    refine hfresh (fresh_iff.mpr ⟨hsame ▸ hne, ?_⟩)
    rw [← hstamp]
    exact (Nat.sub_le_sub_right hle _).trans_lt hrecent

/-! ## The controller -/

/-- What the controller does at the call `c`, after the calls `before`. -/
structure Controlled (before : List Call) (c : Call) : Prop where
  low : 1 / 1000 ≤ (track (before ++ [c])).factor
  high : (track (before ++ [c])).factor ≤ 1
  normal_iff : (track (before ++ [c])).phase = .Normal ↔ (track (before ++ [c])).factor = 1
  held : ∀ pre k post, before = pre ++ k :: post → Cuts (track pre) k →
    c.now < k.now + (track (pre ++ [k])).hold →
      (track (before ++ [c])).factor ≤ (track before).factor
  hold_low : 5000000000 ≤ (track (before ++ [c])).hold
  hold_high : (track (before ++ [c])).hold ≤ 60000000000
  hold_doubles : Cuts (track before) c → phaseAt (track before) c.now = .Recovering →
    (track (before ++ [c])).hold = min ((track before).hold * 2) 60000000000
  hold_otherwise : ¬(Cuts (track before) c ∧ phaseAt (track before) c.now = .Recovering) →
    (track (before ++ [c])).hold = (track before).hold ∨
      (track (before ++ [c])).hold = 5000000000 ∧
        ∃ since, NormalSince (before ++ [c]) since ∧ since + 60000000000 ≤ c.now
  growth_le : ∀ earlier later, before ++ [c] = earlier ++ later →
    (track (before ++ [c])).factor ≤
      (track earlier).factor * growth (earlier.getLast?.map Call.now) later
  once : ∀ pre k, before = pre ++ [k] → ∀ s ∈ k.sample, ∀ s' ∈ c.sample,
    s'.stamp = s.stamp → ¬Evaluates (track before) c ∧
      evidence (track (before ++ [c])) = evidence (track before)

theorem controlled (hordered : Ordered (before ++ [c])) : Controlled before c := by
  have hphased := phased_track (before ++ [c])
  refine ⟨hphased.low, hphased.high, hphased.normal_iff, ?_, hphased.hold_low, hphased.hold_high,
    ?_, ?_, ?_, ?_⟩
  · rintro pre k post rfl hcut hnow
    have hsplit := (List.pairwise_append.mp hordered).1
    have hfrozen := frozen_track hsplit hcut fun d hd =>
      (hordered.le (by simp [hd])).trans_lt hnow
    exact (hfrozen.tick (phased_track _) (tick_track _ c) (hordered.le (by simp)) hnow).2
  · intro hcut hrecovering
    cases tick_track before c with
    | cut _ _ _ _ _ hhold => rw [hhold, if_pos hrecovering, HOLD_MAX]
    | keep hno => exact absurd hcut hno
    | grow hno => exact absurd hcut hno
  · intro hno
    cases tick_track before c with
    | cut hcut _ _ _ _ hhold =>
      rw [if_neg fun hrecovering => hno ⟨hcut, hrecovering⟩] at hhold
      exact Or.inl hhold
    | keep _ _ _ _ hsame hhold =>
      rcases hhold with hsameHold | ⟨hbase, -, since, hsince, hle⟩
      · exact Or.inl hsameHold
      · refine Or.inr ⟨hbase, since, normalSince_track (hsame.trans hsince), ?_⟩
        exact Nat.le_of_not_lt fun hlt =>
          absurd ((sub_lt_iff c.now since (by decide)).mpr hlt) (Nat.not_lt.mpr hle)
    | grow _ _ _ hhold => exact Or.inl hhold
  · intro earlier later hsplit
    rw [hsplit]
    exact growth_track earlier later
  · rintro pre k rfl s hs s' hs' hstamp
    have hle : k.now ≤ c.now := hordered.le (by simp)
    have hnot : ¬Evaluates (track (pre ++ [k])) c := not_evaluates_repeated hle hs hs' hstamp
    refine ⟨hnot, ?_⟩
    rw [track, List.foldl_concat, ← track, Option.mem_def.mp hs']
    exact observe_repeated fun hfresh => hnot ⟨s', hs', fresh_iff.mp hfresh⟩

/-- The delivery controller keeps its phases and bounds at every call of every sequence of
calls with times that do not go back: the factor and the hold time stay in their ranges, the
phase is `Normal` exactly at full weight, nothing grows while a hold time runs, the hold time
doubles on a relapse and falls back only after a minute of health, growth is bounded by the
ticks, and a repeated sample counts once. -/
theorem delivery_phases (calls : List Call) (hordered : Ordered calls) :
    ∀ before c after, calls = before ++ c :: after → Controlled before c := by
  intro before c after hsplit
  apply controlled
  rw [hsplit, ← List.singleton_append, ← List.append_assoc] at hordered
  exact (List.pairwise_append.mp hordered).1

/-- A severe window cuts, and the same sample again does nothing. -/
theorem delivery_phases_severe :
    let sample : DeliverySample ℚ := ⟨20, 1, 1000000000⟩
    let calls : List Call := [⟨1000000000, some sample⟩, ⟨2000000000, some sample⟩]
    Controlled [⟨1000000000, some sample⟩] ⟨2000000000, some sample⟩ ∧
      (track calls).factor = 9 / 200 ∧ (track calls).phase = .HoldDown ∧
      (track calls).settleLeft = 3 := by
  intro sample calls
  have hordered : Ordered calls := by
    refine .cons ?_ (.cons ?_ .nil)
    · rintro c hc
      fin_cases hc
      decide
    · simp
  exact ⟨delivery_phases calls hordered _ _ [] rfl, by decide +kernel, by decide +kernel,
    by decide +kernel⟩

end Mlvpn.Ports.DeliveryPhases
