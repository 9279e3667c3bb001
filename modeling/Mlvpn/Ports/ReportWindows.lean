import Mlvpn.Ports.CongestionFilter
import Mlvpn.Ports.Delivery

/-!
# Report windows and the reports behind them

`ReportWindow::observe` keeps the newest report and the sample it gave.  Here that state is
read off the history: reports are told apart by their stamps, a report with the stamp of the
newest is that one again, and a reset forgets them all.  The window holds the newest of the
distinct reports since the last reset, and the sample of the newest two (`feed_eq`).

## Main results

* `feed_eq`: the window is a function of the distinct reports since the last reset.
* `windows_tell_the_truth`: what every call returns, after any history.
-/

namespace Mlvpn.Ports.ReportWindows

open Verified Delivery
open CongestionFilter (seconds asSecsF64_rat)

/-! ## Histories -/

/-- A call on a report window. -/
inductive Event where
  | report (r : Report)
  | reset

/-- The distinct reports since the last reset, newest first. -/
def note (reports : List Report) : Event → List Report
  | .report r => if reports.head?.any (fun newest => newest.stamp = r.stamp) then reports
      else r :: reports
  | .reset => []

def distinct (events : List Event) : List Report := events.foldl note []

/-- Two successive reports bound a window: neither counter went back, and the time between
them is neither too short nor too long. -/
structure Bounds (earlier later : Report) : Prop where
  peer : earlier.peerRxBytes ≤ later.peerRxBytes
  ours : earlier.localTxBytes ≤ later.localTxBytes
  short : earlier.stamp + MIN_WINDOW ≤ later.stamp
  long : later.stamp ≤ earlier.stamp + STALE_AFTER

theorem between_iff (a b high : ℕ) {low : ℕ} (hlow : 0 < low) :
    (a + low ≤ b ∧ b ≤ a + high) ↔ low ≤ b - a ∧ b - a ≤ high := by
  omega

theorem bounds_iff {earlier later : Report} : Bounds earlier later ↔
    ¬(later.peerRxBytes < earlier.peerRxBytes ∨ later.localTxBytes < earlier.localTxBytes ∨
      later.stamp - earlier.stamp < MIN_WINDOW ∨ STALE_AFTER < later.stamp - earlier.stamp) := by
  have htimes := between_iff earlier.stamp later.stamp STALE_AFTER (show 0 < MIN_WINDOW by decide)
  simp only [not_or, UInt64.not_lt, Nat.not_lt]
  constructor
  · rintro ⟨hpeer, hours, hshort, hlong⟩
    exact ⟨hpeer, hours, htimes.mp ⟨hshort, hlong⟩⟩
  · rintro ⟨hpeer, hours, htime⟩
    exact ⟨hpeer, hours, (htimes.mpr htime).1, (htimes.mpr htime).2⟩

instance decidableBounds (earlier later : Report) : Decidable (Bounds earlier later) :=
  decidable_of_iff _ bounds_iff.symm

section

variable {F : Type*} [Floating F]

def feed (events : List Event) : ReportWindow F :=
  events.foldl (fun w e => match e with
    | .report r => (w.observe r).1
    | .reset => w.reset) ⟨none, none⟩

/-- What a call with the report `r` returns after the events. -/
def returned (events : List Event) (r : Report) : Option (DeliverySample F) :=
  ((feed events).observe r).2

/-- The sample of a window. -/
def windowSample (earlier later : Report) : DeliverySample F where
  offeredMbps := ReportWindow.mbps (later.stamp - earlier.stamp)
    (later.localTxBytes - earlier.localTxBytes)
  deliveredMbps := ReportWindow.mbps (later.stamp - earlier.stamp)
    (later.peerRxBytes - earlier.peerRxBytes)
  stamp := later.stamp

/-- The sample of the newest two reports, if they bound a window. -/
def newestSample : List Report → Option (DeliverySample F)
  | later :: earlier :: _ =>
      if Bounds earlier later then some (windowSample earlier later) else none
  | _ => none

/-- The window that a list of distinct reports leaves. -/
def windowOf (reports : List Report) : ReportWindow F := ⟨reports.head?, newestSample reports⟩

/-- One call: the window moves on with the reports, and the call returns the sample of the
newest two. -/
theorem observe_windowOf (reports : List Report) (r : Report) :
    (windowOf reports : ReportWindow F).observe r =
      (windowOf (note reports (.report r)), newestSample (note reports (.report r))) := by
  cases reports with
  | nil => rfl
  | cons newest older =>
    by_cases hstamp : newest.stamp = r.stamp
    · have hnote : note (newest :: older) (.report r) = newest :: older :=
        if_pos (decide_eq_true hstamp)
      rw [hnote]
      exact if_pos hstamp
    · have hnote : note (newest :: older) (.report r) = r :: newest :: older :=
        if_neg fun h => hstamp (of_decide_eq_true h)
      rw [hnote]
      refine (if_neg hstamp).trans ?_
      by_cases hbounds : Bounds newest r
      · rw [windowOf, newestSample, if_pos hbounds]
        exact if_neg (bounds_iff.mp hbounds)
      · rw [windowOf, newestSample, if_neg hbounds]
        exact if_pos (not_not.mp fun h => hbounds (bounds_iff.mpr h))

/-- The window is that of the distinct reports since the last reset. -/
theorem feed_eq (events : List Event) :
    (feed events : ReportWindow F) = windowOf (distinct events) := by
  induction events using List.reverseRecOn with
  | nil => rfl
  | append_singleton events e ih =>
    rw [feed, distinct, List.foldl_append, List.foldl_append, ← feed, ← distinct, ih]
    cases e with
    | report r => exact congrArg Prod.fst (observe_windowOf (distinct events) r)
    | reset => rfl

theorem returned_eq (events : List Event) (r : Report) :
    (returned events r : Option (DeliverySample F)) =
      newestSample (distinct (events ++ [.report r])) := by
  rw [returned, feed_eq, observe_windowOf, distinct, distinct, List.foldl_append]
  rfl

/-- A report seen again is not noted again. -/
theorem distinct_repeat (events : List Event) (r : Report) (k : ℕ) :
    distinct (events ++ .report r :: List.replicate k (.report r)) =
      distinct (events ++ [.report r]) := by
  have hagain : ∀ reports : List Report,
      note (note reports (.report r)) (.report r) = note reports (.report r) := by
    intro reports
    by_cases hseen : reports.head?.any (fun newest => newest.stamp = r.stamp)
    · have hnote : note reports (.report r) = reports := if_pos hseen
      rw [hnote, hnote]
    · have hnote : note reports (.report r) = r :: reports := if_neg hseen
      rw [hnote]
      exact if_pos (decide_eq_true rfl)
  induction k with
  | zero => rfl
  | succ k ih =>
    rw [List.replicate_succ', ← List.cons_append, ← List.append_assoc, distinct,
      List.foldl_append, ← distinct, ih, distinct, List.foldl_append]
    exact hagain _

end

/-! ## What a call returns -/

/-- In exact arithmetic a rate is the increase of the counter over the time. -/
theorem mbps_rat {before after : UInt64} (h : before ≤ after) (dt : ℕ) :
    (ReportWindow.mbps dt (after - before) : ℚ) =
      ((after.toNat : ℚ) - before.toNat) * 8 / 1000000 / seconds dt := by
  have hsub : (((after - before).toNat : ℕ) : ℚ) = (after.toNat : ℚ) - before.toNat := by
    rw [UInt64.toNat_sub_of_le _ _ h, Nat.cast_sub (UInt64.le_iff_toNat_le.mp h)]
  show (((after - before).toNat : ℕ) : ℚ) * 8 / Congestion.asSecsF64 dt / 1000000 = _
  rw [hsub, asSecsF64_rat, div_right_comm, seconds]

/-- What holds of the call with the report `r` after the events. -/
structure Truthful (events : List Event) (r : Report) : Prop where
  /-- A sample is made of the newest two distinct reports. -/
  sampled : ∀ s : DeliverySample ℚ, returned events r = some s → ∃ later earlier older,
    distinct (events ++ [.report r]) = later :: earlier :: older ∧ Bounds earlier later ∧
      s.offeredMbps = ((later.localTxBytes.toNat : ℚ) - earlier.localTxBytes.toNat) * 8 /
        1000000 / seconds (later.stamp - earlier.stamp) ∧
      s.deliveredMbps = ((later.peerRxBytes.toNat : ℚ) - earlier.peerRxBytes.toNat) * 8 /
        1000000 / seconds (later.stamp - earlier.stamp)
  /-- A new report gives none if it is the first or bounds no window with the one before. -/
  silent : (∀ newest ∈ (distinct events).head?, newest.stamp ≠ r.stamp ∧ ¬Bounds newest r) →
    returned events r = (none : Option (DeliverySample ℚ))
  /-- Seen again, any number of times, it changes nothing and returns the same. -/
  again : ∀ k, (feed (events ++ .report r :: List.replicate k (.report r)) : ReportWindow ℚ) =
      feed (events ++ [.report r]) ∧
    returned (events ++ .report r :: List.replicate k (.report r)) r =
      (returned events r : Option (DeliverySample ℚ))

theorem windows_tell_the_truth (events : List Event) (r : Report) : Truthful events r where
  sampled s hs := by
    rw [returned_eq] at hs
    cases hreports : distinct (events ++ [.report r]) with
    | nil => rw [hreports] at hs; cases hs
    | cons later others =>
        cases others with
        | nil => rw [hreports] at hs; cases hs
        | cons earlier older =>
            rw [hreports, newestSample] at hs
            split at hs
            case isTrue hbounds =>
                cases hs
                exact ⟨later, earlier, older, rfl, hbounds, mbps_rat hbounds.ours _,
                  mbps_rat hbounds.peer _⟩
            case isFalse => cases hs
  silent hnew := by
    rw [returned_eq, distinct, List.foldl_append, ← distinct]
    cases hreports : distinct events with
    | nil => rfl
    | cons newest older =>
        obtain ⟨hstamp, hbounds⟩ := hnew newest (by rw [hreports]; rfl)
        have hnote : note (newest :: older) (.report r) = r :: newest :: older :=
          if_neg fun h => hstamp (of_decide_eq_true h)
        rw [List.foldl_cons, List.foldl_nil, hnote]
        exact if_neg hbounds
  again k := by
    refine ⟨?_, ?_⟩
    · rw [feed_eq, feed_eq, distinct_repeat]
    · rw [returned_eq, returned_eq, List.append_assoc, List.cons_append,
        ← List.replicate_succ', distinct_repeat]

end Mlvpn.Ports.ReportWindows
