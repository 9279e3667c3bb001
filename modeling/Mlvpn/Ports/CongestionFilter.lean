import Mlvpn.Ports.Congestion
import Mlvpn.Verified.PastTime

/-!
# The congestion factor as a filter

`CongestionTracker::update` drops a link's factor to the target of a window at once and
lets it rise slowly.  Here the `f64` arithmetic is read as exact rational arithmetic and
the tracker is compared with the calls it has seen: which of them closed a window, what
the counters did since, and when the factor last dropped.

An update that comes too early changes nothing, the reference counters included.  What it
reported is therefore part of the next window: `lastWindow` is the call that closed the last
window, and the next target is taken from its counters.

## Main results

* `delayTarget_antitone`: a longer delay never allows more.
* `congestion_filter`: bounds, target, hold-down, rate of recovery and skipped updates, over
  every sequence of calls.
-/

namespace Mlvpn.Ports.CongestionFilter

open Verified Congestion
open FecRecovery (Instant)
open Verified.Floating (ofRat)

/-! ## Calls and windows -/

/-- One call of `update`. -/
structure Call where
  now : Instant
  cur : CounterSnapshot
deriving Repr, DecidableEq

/-- The tracker after the calls, from the start. -/
def track (calls : List Call) : CongestionTracker ℚ :=
  calls.foldl (fun t c => t.update c.now c.cur) .default

/-- Every counter of `a` is at most that of `b`; the stall is not a counter. -/
structure CountersLe (a b : CounterSnapshot) : Prop where
  delaySumUs : a.delaySumUs ≤ b.delaySumUs
  delaySamples : a.delaySamples ≤ b.delaySamples
  sendWaitSumUs : a.sendWaitSumUs ≤ b.sendWaitSumUs
  sendWaitSamples : a.sendWaitSamples ≤ b.sendWaitSamples
  queueFull : a.queueFull ≤ b.queueFull
  sendFailed : a.sendFailed ≤ b.sendFailed

/-- Times and counters never go back. -/
def Ordered (calls : List Call) : Prop :=
  calls.Pairwise fun a b => a.now ≤ b.now ∧ CountersLe a.cur b.cur

/-- The call that closed the last window before a call, with the one in hand. -/
def closeWindow (last : Option Call) (c : Call) : Option Call :=
  match last with
  | none => some c
  | some w => if c.now < w.now + 50000000 then some w else some c

/-- The call that closed the last window: the first call, or a later one at least 50 ms
after the one before it. -/
def lastWindow (calls : List Call) : Option Call := calls.foldl closeWindow none

/-- The delay measured between two readings: the mean over the new samples, or the current
stall if that is longer. -/
def measuredDelayUs (old new : CounterSnapshot) : Nat :=
  max ((new.delaySumUs.toNat - old.delaySumUs.toNat) /
    (new.delaySamples.toNat - old.delaySamples.toNat)) new.stallUs.toNat

/-- The target of the window between two readings, clamped. -/
def clampedTarget (old new : CounterSnapshot) : ℚ :=
  let target : ℚ := delayTarget (UInt64.ofNat (measuredDelayUs old new))
  let target := if new.queueFull ≠ old.queueFull then min target (3 / 10) else target
  let target := if new.sendFailed ≠ old.sendFailed then min target (1 / 4) else target
  max (1 / 10) (min target 1)

/-- The factor dropped at `time`, at some call of the sequence. -/
def DroppedAt (calls : List Call) (time : Instant) : Prop :=
  ∃ before c after, calls = before ++ c :: after ∧ c.now = time ∧
    (track (before ++ [c])).factor < (track before).factor

variable {calls : List Call} {c w : Call}

theorem lastWindow_of_short (h : lastWindow calls = some w) (hshort : c.now < w.now + MIN_WINDOW) :
    lastWindow (calls ++ [c]) = some w := by
  rw [lastWindow, List.foldl_concat, ← lastWindow, h]
  exact if_pos hshort

theorem lastWindow_of_long (h : lastWindow calls = some w) (hlong : w.now + MIN_WINDOW ≤ c.now) :
    lastWindow (calls ++ [c]) = some c := by
  rw [lastWindow, List.foldl_concat, ← lastWindow, h]
  exact if_neg (Nat.not_lt.mpr hlong)

theorem lastWindow_mem (h : lastWindow calls = some w) : w ∈ calls := by
  induction calls using List.reverseRecOn with
  | nil => cases h
  | append_singleton calls c ih =>
    rw [lastWindow, List.foldl_concat, ← lastWindow] at h
    cases hlast : lastWindow calls with
    | none =>
      rw [hlast] at h
      obtain rfl : c = w := Option.some.inj h
      exact List.mem_append_right _ (List.mem_singleton.mpr rfl)
    | some v =>
      rw [hlast, closeWindow] at h
      split at h
      · obtain rfl : v = w := Option.some.inj h
        exact List.mem_append_left _ (ih hlast)
      · obtain rfl : c = w := Option.some.inj h
        exact List.mem_append_right _ (List.mem_singleton.mpr rfl)

/-! ## One step of the filter -/

/-- `clamp` between a lower bound and one. -/
theorem clamp_rat {lo : ℚ} (x : ℚ) (hlo : lo ≤ 1) : Floating.clamp x lo 1 = max lo (min x 1) := by
  show (if 1 < (if x < lo then lo else x) then (1 : ℚ) else (if x < lo then lo else x)) = _
  rcases lt_or_ge x lo with hlow | hlow
  · rw [if_pos hlow, if_neg (not_lt.mpr hlo), min_eq_left (by linarith), max_eq_left hlow.le]
  · rw [if_neg (not_lt.mpr hlow)]
    rcases lt_or_ge 1 x with hhigh | hhigh
    · rw [if_pos hhigh, min_eq_right hhigh.le, max_eq_right hlo]
    · rw [if_neg (not_lt.mpr hhigh), min_eq_left hhigh, max_eq_right hlow]

/-- `next_factor`, with the clamped target in hand. -/
theorem nextFactor_rat (current target dt : ℚ) (held : Bool) :
    nextFactor current target dt held =
      if max (1 / 10) (min target 1) < current then max (1 / 10) (min target 1)
      else if held then current
      else min (current + 3 / 20 * dt) (max (1 / 10) (min target 1)) := by
  rw [← clamp_rat target (show (1 / 10 : ℚ) ≤ 1 by norm_num)]
  rfl

theorem asSecsF64_rat (nanos : Nat) : (asSecsF64 nanos : ℚ) = nanos / 1000000000 := by
  have hsplit : ((1000000000 * (nanos / 1000000000) + nanos % 1000000000 : Nat) : ℚ) = nanos := by
    rw [Nat.div_add_mod]
  push_cast at hsplit
  show ((nanos / 1000000000 : Nat) : ℚ) + ((nanos % 1000000000 : Nat) : ℚ) / 1000000000 = _
  rw [← hsplit]
  ring

/-! ## Targets -/

/-- The line through the anchors, piece by piece. -/
def anchorLine (d : ℚ) : ℚ :=
  if d ≤ 1000 then 1
  else if d ≤ 5000 then 1 - (d - 1000) / 20000
  else if d ≤ 20000 then 4 / 5 - (d - 5000) / 30000
  else if d ≤ 60000 then 3 / 10 - (d - 20000) / 200000
  else 1 / 10

theorem toNat_le_maxValue (x : UInt64) : (x.toNat : ℚ) ≤ Floating.maxValue := by
  have hx : (x.toNat : ℚ) ≤ 2 ^ 64 := by exact_mod_cast x.toNat_lt.le
  have hlow : (2 : ℚ) ^ 64 ≤ 2 ^ 1023 := pow_le_pow_right₀ (by norm_num) (by norm_num)
  have hhigh : (2 : ℚ) ^ 971 ≤ 2 ^ 1023 := pow_le_pow_right₀ (by norm_num) (by norm_num)
  have hdouble : (2 : ℚ) ^ 1024 = 2 * 2 ^ 1023 := pow_succ' 2 1023
  show (x.toNat : ℚ) ≤ 2 ^ 1024 - 2 ^ 971
  rw [hdouble]
  generalize (2 : ℚ) ^ 1023 = top at hlow hhigh
  generalize (2 : ℚ) ^ 971 = ulp at hhigh
  linarith

theorem delayTarget_rat (delayUs : UInt64) :
    (delayTarget delayUs : ℚ) = anchorLine delayUs.toNat := by
  have hmax := toNat_le_maxValue delayUs
  generalize hd : (delayUs.toNat : ℚ) = d at hmax
  show (if (delayUs.toNat : ℚ) ≤ 1000 then (1 : ℚ)
    else if (delayUs.toNat : ℚ) ≤ 5000 then
      1 + (4 / 5 - 1) * ((delayUs.toNat : ℚ) - 1000) / (5000 - 1000)
    else if (delayUs.toNat : ℚ) ≤ 20000 then
      4 / 5 + (3 / 10 - 4 / 5) * ((delayUs.toNat : ℚ) - 5000) / (20000 - 5000)
    else if (delayUs.toNat : ℚ) ≤ 60000 then
      3 / 10 + (1 / 10 - 3 / 10) * ((delayUs.toNat : ℚ) - 20000) / (60000 - 20000)
    else if (delayUs.toNat : ℚ) ≤ Floating.maxValue then
      1 / 10 + (1 / 10 - 1 / 10) * ((delayUs.toNat : ℚ) - 60000) / (Floating.maxValue - 60000)
    else 1 / 10) = _
  rw [hd, if_pos hmax, anchorLine]
  split_ifs <;> ring

/-- A longer delay never allows more. -/
theorem delayTarget_antitone {a b : UInt64} (hab : a ≤ b) :
    (delayTarget b : ℚ) ≤ delayTarget a := by
  have hle : (a.toNat : ℚ) ≤ b.toNat := by exact_mod_cast UInt64.le_iff_toNat_le.mp hab
  rw [delayTarget_rat, delayTarget_rat, anchorLine, anchorLine]
  split_ifs <;> linarith

theorem toNat_max (a b : UInt64) : (max a b).toNat = max a.toNat b.toNat := by
  show (if a ≤ b then b else a).toNat = _
  split
  case isTrue h => rw [max_eq_right (UInt64.le_iff_toNat_le.mp h)]
  case isFalse h =>
    rw [UInt64.le_iff_toNat_le] at h
    rw [max_eq_left (by omega)]

/-- Of counters that did not go back, the mean is that of the samples in between. -/
theorem toNat_meanDelta {sum prevSum n prevN : UInt64} (hsum : prevSum ≤ sum) (hn : prevN ≤ n) :
    (meanDelta sum prevSum n prevN).toNat =
      (sum.toNat - prevSum.toNat) / (n.toNat - prevN.toNat) := by
  have hdelta : (n - prevN).toNat = n.toNat - prevN.toNat := UInt64.toNat_sub_of_le _ _ hn
  unfold meanDelta
  split
  case isTrue hzero =>
    rw [← hdelta, hzero]
    simp
  case isFalse =>
    rw [UInt64.toNat_div, hdelta, UInt64.toNat_sub_of_le _ _ hsum]

/-- The target `update` computes is the target of the window. -/
theorem clamp_windowTarget {old new : CounterSnapshot} (h : CountersLe old new) :
    max (1 / 10) (min (CongestionTracker.windowTarget (max (meanDelta new.delaySumUs old.delaySumUs
      new.delaySamples old.delaySamples) new.stallUs) old new) 1) = clampedTarget old new := by
  have hdelay : max (meanDelta new.delaySumUs old.delaySumUs new.delaySamples old.delaySamples)
      new.stallUs = UInt64.ofNat (measuredDelayUs old new) := by
    rw [measuredDelayUs, ← toNat_meanDelta h.delaySumUs h.delaySamples, ← toNat_max,
      UInt64.ofNat_toNat]
  rw [hdelay]
  rfl

theorem clampedTarget_mem (old new : CounterSnapshot) :
    1 / 10 ≤ clampedTarget old new ∧ clampedTarget old new ≤ 1 :=
  ⟨le_max_left _ _, max_le (by norm_num) (min_le_right _ _)⟩

/-! ## One update -/

theorem sub_lt_iff (now last : Instant) {n : Nat} (hn : 0 < n) :
    now - last < n ↔ now < last + n := by
  simp only [Instant] at now last ⊢
  omega

section

variable {t : CongestionTracker ℚ} {now last : Instant} {cur : CounterSnapshot}

theorem update_first (h : t.lastUpdate = none) :
    t.update now cur = { t with prev := cur, lastUpdate := some now } := by
  rw [CongestionTracker.update, h]

theorem update_skip (h : t.lastUpdate = some last) (hshort : now < last + MIN_WINDOW) :
    t.update now cur = t := by
  have hdiff : now - last < MIN_WINDOW := (sub_lt_iff now last (by decide)).mpr hshort
  rw [CongestionTracker.update, h]
  exact if_pos hdiff

/-- What an update does that closes a window with target `target`. -/
structure WindowStep (t t' : CongestionTracker ℚ) (target : ℚ) (last now : Instant)
    (cur : CounterSnapshot) : Prop where
  lastUpdate : t'.lastUpdate = some now
  prev : t'.prev = cur
  lastDrop : t'.lastDrop = if t'.factor < t.factor then some now else t.lastDrop
  le_target : t'.factor ≤ target
  eq_target : target < t.factor → t'.factor = target
  low : 1 / 10 ≤ t'.factor
  held : ∀ d ∈ t.lastDrop, now < d + HOLD_DOWN → t'.factor ≤ t.factor
  rise : t'.factor ≤ t.factor + 3 / 20 * (((now - last : Nat) : ℚ) / 1000000000)

theorem update_window (h : t.lastUpdate = some last) (hlong : last + MIN_WINDOW ≤ now)
    (hlow : 1 / 10 ≤ t.factor) (hcounters : CountersLe t.prev cur) :
    WindowStep t (t.update now cur) (clampedTarget t.prev cur) last now cur := by
  have hdiff : ¬now - last < MIN_WINDOW := fun hlt =>
    absurd ((sub_lt_iff now last (by decide)).mp hlt) (Nat.not_lt.mpr hlong)
  have htarget := (clampedTarget_mem t.prev cur).1
  have hfactor : (t.update now cur).factor =
      if clampedTarget t.prev cur < t.factor then clampedTarget t.prev cur
      else if t.lastDrop.any fun drop => now - drop < HOLD_DOWN then t.factor
      else min (t.factor + 3 / 20 * (((now - last : Nat) : ℚ) / 1000000000))
        (clampedTarget t.prev cur) := by
    rw [CongestionTracker.update, h, ← clamp_windowTarget hcounters, ← asSecsF64_rat,
      ← nextFactor_rat]
    exact congrArg CongestionTracker.factor (if_neg hdiff)
  have hrest : (t.update now cur).lastUpdate = some now ∧ (t.update now cur).prev = cur ∧
      (t.update now cur).lastDrop =
        if (t.update now cur).factor < t.factor then some now else t.lastDrop := by
    rw [CongestionTracker.update, h]
    simp only
    rw [if_neg hdiff]
    exact ⟨rfl, rfl, rfl⟩
  have hrise : 0 ≤ 3 / 20 * (((now - last : Nat) : ℚ) / 1000000000) := by positivity
  refine ⟨hrest.1, hrest.2.1, hrest.2.2, ?_, ?_, ?_, ?_, ?_⟩
  · rw [hfactor]
    split
    case isTrue => exact le_refl _
    case isFalse hge =>
      split
      · exact not_lt.mp hge
      · exact min_le_right _ _
  · intro hdrop
    rw [hfactor, if_pos hdrop]
  · rw [hfactor]
    split
    · exact htarget
    · split
      · exact hlow
      · exact le_min (by linarith) htarget
  · intro d hd hrecent
    have hheld : (t.lastDrop.any fun drop => decide (now - drop < HOLD_DOWN)) = true := by
      rw [Option.mem_def.mp hd, Option.any_some, decide_eq_true_iff]
      exact (sub_lt_iff now d (by decide)).mpr hrecent
    rw [hfactor, if_pos hheld]
    split
    case isTrue hdrop => exact hdrop.le
    case isFalse => exact le_refl _
  · rw [hfactor]
    split
    case isTrue hdrop => linarith
    case isFalse =>
      split
      · linarith
      · exact min_le_left _ _

end

/-! ## Whole runs -/

/-- What the tracker knows of the calls it has seen. -/
structure Knows (calls : List Call) (t : CongestionTracker ℚ) : Prop where
  lastUpdate : t.lastUpdate = (lastWindow calls).map Call.now
  prev : ∀ w ∈ lastWindow calls, t.prev = w.cur
  low : 1 / 10 ≤ t.factor
  high : t.factor ≤ 1
  lastDrop : ∀ time, DroppedAt calls time → ∃ d ∈ t.lastDrop, time ≤ d

/-- What one more call does to the tracker. -/
inductive Step (calls : List Call) (c : Call) : Prop where
  | first (none : lastWindow calls = none)
      (factor : (track (calls ++ [c])).factor = (track calls).factor)
      (lastDrop : (track (calls ++ [c])).lastDrop = (track calls).lastDrop)
  | skipped (w : Call) (last : lastWindow calls = some w) (short : c.now < w.now + MIN_WINDOW)
      (same : track (calls ++ [c]) = track calls)
  | window (w : Call) (last : lastWindow calls = some w) (long : w.now + MIN_WINDOW ≤ c.now)
      (step : WindowStep (track calls) (track (calls ++ [c])) (clampedTarget w.cur c.cur) w.now
        c.now c.cur)

variable {calls : List Call} {c : Call}

theorem Ordered.countersLe (h : Ordered (calls ++ [c])) (hw : w ∈ calls) :
    w.now ≤ c.now ∧ CountersLe w.cur c.cur :=
  (List.pairwise_append.mp h).2.2 w hw c (List.mem_singleton.mpr rfl)

theorem Knows.step (h : Knows calls (track calls)) (hordered : Ordered (calls ++ [c])) :
    Step calls c := by
  have hnext : track (calls ++ [c]) = (track calls).update c.now c.cur := List.foldl_concat ..
  have hupdate := h.lastUpdate
  cases hlast : lastWindow calls with
  | none =>
    rw [hlast] at hupdate
    have htrack := hnext.trans (update_first hupdate)
    exact .first hlast (by rw [htrack]) (by rw [htrack])
  | some w =>
    rw [hlast] at hupdate
    rcases Nat.lt_or_ge c.now (w.now + MIN_WINDOW) with hshort | hlong
    · exact .skipped w hlast hshort (hnext.trans (update_skip hupdate hshort))
    · have hprev := h.prev w hlast
      have hcounters := (hordered.countersLe (lastWindow_mem hlast)).2
      rw [← hprev] at hcounters
      have hwindow := update_window hupdate hlong h.low hcounters
      rw [← hnext, hprev] at hwindow
      exact .window w hlast hlong hwindow

/-- A drop of the longer sequence is an earlier one or the last call's. -/
theorem DroppedAt.snoc {time : Instant} (h : DroppedAt (calls ++ [c]) time) :
    DroppedAt calls time ∨
      time = c.now ∧ (track (calls ++ [c])).factor < (track calls).factor := by
  obtain ⟨before, d, after, hsplit, htime, hdrop⟩ := h
  rcases PastTime.snoc_eq_append_cons_iff.mp hsplit with ⟨-, rfl, rfl⟩ | ⟨rest, -, hcalls⟩
  · exact Or.inr ⟨htime.symm, hdrop⟩
  · exact Or.inl ⟨before, d, rest, hcalls, htime, hdrop⟩

theorem knows_snoc (h : Knows calls (track calls)) (hordered : Ordered (calls ++ [c])) :
    Knows (calls ++ [c]) (track (calls ++ [c])) := by
  have hupdate := h.lastUpdate
  cases h.step hordered with
  | first hnone hfactor hlastDrop =>
    rw [hnone] at hupdate
    have hnext : track (calls ++ [c]) = (track calls).update c.now c.cur := List.foldl_concat ..
    have htrack := hnext.trans (update_first hupdate)
    have hwindow : lastWindow (calls ++ [c]) = some c := by
      rw [lastWindow, List.foldl_concat, ← lastWindow, hnone]
      rfl
    refine ⟨?_, fun w hw => ?_, hfactor ▸ h.low, hfactor ▸ h.high, fun time hdrop => ?_⟩
    · rw [htrack, hwindow]
      rfl
    · rw [hwindow] at hw
      obtain rfl : c = w := Option.some.inj hw
      rw [htrack]
    · rcases hdrop.snoc with hdrop | ⟨-, hlt⟩
      · rw [hlastDrop]
        exact h.lastDrop time hdrop
      · exact absurd hlt (by rw [hfactor]; exact lt_irrefl _)
  | skipped w hlast hshort hsame =>
    have hwindow : lastWindow (calls ++ [c]) = lastWindow calls :=
      (lastWindow_of_short hlast hshort).trans hlast.symm
    rw [hsame]
    refine ⟨hwindow ▸ hupdate, hwindow ▸ h.prev, h.low, h.high, fun time hdrop => ?_⟩
    rcases hdrop.snoc with hdrop | ⟨-, hlt⟩
    · exact h.lastDrop time hdrop
    · exact absurd hlt (by rw [hsame]; exact lt_irrefl _)
  | window w hlast hlong hstep =>
    have hwindow := lastWindow_of_long hlast hlong
    refine ⟨?_, fun v hv => ?_, hstep.low,
      hstep.le_target.trans (clampedTarget_mem _ _).2, fun time hdrop => ?_⟩
    · rw [hstep.lastUpdate, hwindow]
      rfl
    · rw [hwindow] at hv
      obtain rfl : c = v := Option.some.inj hv
      exact hstep.prev
    · rw [hstep.lastDrop]
      rcases hdrop.snoc with hdrop | ⟨rfl, hlt⟩
      · obtain ⟨d, hd, hle⟩ := h.lastDrop time hdrop
        split
        · -- The new drop is later than every call before it.
          obtain ⟨before, e, after, hcalls, htime, -⟩ := hdrop
          have he : e ∈ calls := by simp [hcalls]
          exact ⟨c.now, rfl, htime ▸ (hordered.countersLe he).1⟩
        · exact ⟨d, hd, hle⟩
      · rw [if_pos hlt]
        exact ⟨c.now, rfl, le_refl _⟩

theorem knows_track (hordered : Ordered calls) : Knows calls (track calls) := by
  induction calls using List.reverseRecOn with
  | nil =>
    refine ⟨rfl, fun w hw => (Option.some_ne_none w hw.symm).elim, ?_, le_refl _, ?_⟩
    · show (1 / 10 : ℚ) ≤ 1
      norm_num
    · rintro time ⟨before, c, after, hsplit, -⟩
      exact absurd hsplit (by simp)
  | append_singleton calls c ih =>
    exact knows_snoc (ih (List.pairwise_append.mp hordered).1) hordered

/-- Nanoseconds as seconds. -/
def seconds (nanos : Nat) : ℚ := nanos / 1000000000

/-- From one window to a later one the factor rises by at most 0.15 a second. -/
theorem rise_le {earlier later : List Call} (hordered : Ordered (earlier ++ later))
    (hw : lastWindow earlier = some w) :
    ∃ w', lastWindow (earlier ++ later) = some w' ∧ w.now ≤ w'.now ∧
      (track (earlier ++ later)).factor ≤
        (track earlier).factor + 3 / 20 * (seconds w'.now - seconds w.now) := by
  induction later using List.reverseRecOn with
  | nil =>
    rw [List.append_nil]
    exact ⟨w, hw, le_refl _, by rw [sub_self, mul_zero, add_zero]⟩
  | append_singleton later c ih =>
    rw [← List.append_assoc] at hordered ⊢
    have hbefore : Ordered (earlier ++ later) := (List.pairwise_append.mp hordered).1
    obtain ⟨v, hv, hle, hfactor⟩ := ih hbefore
    cases (knows_track hbefore).step hordered with
    | first hnone => exact absurd (hnone.symm.trans hv) (by simp)
    | skipped u hlast hshort hsame =>
      obtain rfl : u = v := Option.some.inj (hlast.symm.trans hv)
      exact ⟨u, lastWindow_of_short hlast hshort, hle, by rw [hsame]; exact hfactor⟩
    | window u hlast hlong hstep =>
      obtain rfl : u = v := Option.some.inj (hlast.symm.trans hv)
      have hlater : u.now ≤ c.now := (Nat.le_add_right _ _).trans hlong
      refine ⟨c, lastWindow_of_long hlast hlong, hle.trans hlater, ?_⟩
      have hrise := hstep.rise
      rw [Nat.cast_sub hlater, sub_div] at hrise
      simp only [seconds] at hfactor ⊢
      linarith

/-! ## The filter -/

/-- What the filter does at the call `c`, after the calls `before`. -/
structure Filtered (before : List Call) (c : Call) : Prop where
  low : 1 / 10 ≤ (track (before ++ [c])).factor
  high : (track (before ++ [c])).factor ≤ 1
  le_target : ∀ w ∈ lastWindow before, w.now + 50000000 ≤ c.now →
    (track (before ++ [c])).factor ≤ clampedTarget w.cur c.cur
  eq_target : ∀ w ∈ lastWindow before, w.now + 50000000 ≤ c.now →
    clampedTarget w.cur c.cur < (track before).factor →
      (track (before ++ [c])).factor = clampedTarget w.cur c.cur
  held : ∀ time, DroppedAt before time → c.now < time + 1000000000 →
    (track (before ++ [c])).factor ≤ (track before).factor
  rise : ∀ earlier later, before ++ [c] = earlier ++ later → ∀ w ∈ lastWindow earlier,
    ∀ w' ∈ lastWindow (before ++ [c]), (track (before ++ [c])).factor ≤
      (track earlier).factor + 3 / 20 * (seconds w'.now - seconds w.now)
  skipped : ∀ w ∈ lastWindow before, c.now < w.now + 50000000 →
    track (before ++ [c]) = track before

theorem filtered {before : List Call} (hordered : Ordered (before ++ [c])) : Filtered before c := by
  have hknows := knows_track (List.pairwise_append.mp hordered).1
  have hnext := knows_snoc hknows hordered
  have hwindow : ∀ w ∈ lastWindow before, w.now + 50000000 ≤ c.now →
      WindowStep (track before) (track (before ++ [c])) (clampedTarget w.cur c.cur) w.now
        c.now c.cur := by
    intro w hw hlong
    cases hknows.step hordered with
    | first hnone => exact absurd (hnone.symm.trans hw) (by simp)
    | skipped v hlast hshort =>
      obtain rfl : v = w := Option.some.inj (hlast.symm.trans hw)
      exact absurd hshort (Nat.not_lt.mpr hlong)
    | window v hlast _ hstep =>
      obtain rfl : v = w := Option.some.inj (hlast.symm.trans hw)
      exact hstep
  refine ⟨hnext.low, hnext.high, fun w hw hlong => (hwindow w hw hlong).le_target,
    fun w hw hlong => (hwindow w hw hlong).eq_target, fun time hdrop hrecent => ?_,
    fun earlier later hsplit w hw w' hw' => ?_, fun w hw hshort => ?_⟩
  · obtain ⟨d, hd, hle⟩ := hknows.lastDrop time hdrop
    cases hknows.step hordered with
    | first _ hfactor => exact hfactor.le
    | skipped _ _ _ hsame => rw [hsame]
    | window w _ _ hstep =>
      exact hstep.held d hd (hrecent.trans_le (Nat.add_le_add_right hle _))
  · rw [hsplit] at hordered hw' ⊢
    obtain ⟨v, hv, -, hrise⟩ := rise_le hordered hw
    obtain rfl : v = w' := Option.some.inj (hv.symm.trans hw')
    exact hrise
  · have hupdate := hknows.lastUpdate
    rw [Option.mem_def.mp hw] at hupdate
    have hnext : track (before ++ [c]) = (track before).update c.now c.cur := List.foldl_concat ..
    exact hnext.trans (update_skip hupdate hshort)

/-- The congestion factor is an asymmetric filter: at every call of every sequence of calls
with times and counters that do not go back it stays in its bounds, falls to the window's
target at once, does not rise for a second after a drop and then rises slowly, and a call
that comes too early leaves everything to the next window.  The delay's target is antitone. -/
theorem congestion_filter (calls : List Call) (hordered : Ordered calls) :
    (∀ before c after, calls = before ++ c :: after → Filtered before c) ∧
      ∀ a b : UInt64, a ≤ b → (delayTarget b : ℚ) ≤ delayTarget a := by
  refine ⟨fun before c after hsplit => ?_, fun a b => delayTarget_antitone⟩
  apply filtered
  rw [hsplit, ← List.singleton_append, ← List.append_assoc] at hordered
  exact (List.pairwise_append.mp hordered).1

/-- A window with a full queue takes the factor down, a quiet one a second later lets it
rise. -/
theorem congestion_filter_queue_full :
    let quiet : CounterSnapshot := .default
    let full : CounterSnapshot := { quiet with queueFull := 1 }
    let calls : List Call := [⟨0, quiet⟩, ⟨100000000, full⟩, ⟨1100000000, full⟩]
    Ordered calls ∧ Filtered [⟨0, quiet⟩, ⟨100000000, full⟩] ⟨1100000000, full⟩ ∧
      (track (calls.take 2)).factor = 3 / 10 ∧ (track calls).factor = 9 / 20 := by
  intro quiet full calls
  have hordered : Ordered calls := by
    refine .cons ?_ (.cons ?_ (.cons ?_ .nil))
    · rintro c hc
      fin_cases hc <;> exact ⟨by decide, by constructor <;> decide⟩
    · rintro c hc
      fin_cases hc
      exact ⟨by decide, by constructor <;> decide⟩
    · simp
  exact ⟨hordered, (congestion_filter calls hordered).1 _ _ [] rfl, by decide +kernel,
    by decide +kernel⟩

end Mlvpn.Ports.CongestionFilter
