import Mlvpn.Ports.SchedulingPick

/-!
# Bandwidth caps, window by window

`swrr_pick_under_cap` keeps a byte count for each link with a cap, in windows of a second that
start again at the first pick after they have run out.  The count is compared here with a log
of the picks since the window began: for each its length, the link that was picked, and whether
every entry of the table was over its cap.

A pick looks at every entry before it chooses, and it chooses an entry over its cap only if all
of them are.  What is recorded in a window is therefore what the check of the same pick
allowed, unless the pick was one of those.

The cap of a link is part of its configuration and never changes; links come and go from the
table as they please, and other calls of the scheduler come in between.

## Main results

* `checkCaps_spec`: what the pass over the table answers and leaves behind.
* `pick_spec`, `PickSpec.over`: an entry over its cap is picked only if every entry is.
* `kept_watch`: the log accounts for every window, over every run of the scheduler.
* `cap_enforced`: the cap in every window.
-/

namespace Mlvpn.Ports.RateWindows

open Verified Scheduling Scheduling.Scheduler Extremum
open ConfigFile (SchedulerConfig)
open FecRecovery (Instant)
open Verified.Floating (ofRat)

variable {F : Type*} [Floating F] {n : Nat}

/-! ## The check of one entry -/

/-- `(cap_mbps * 1_000_000.0 / 8.0) as u64`. -/
def budgetBytes (capMbps : F) : UInt64 := Floating.toU64 (capMbps * ofRat 1000000 / ofRat 8)

/-- The check of the entry `e` at position `pos`. -/
def checkEntry (limits : RateLimits) (clock : PickClock) (frameLen : UInt64) (pos : Nat)
    (linkIndex : Nat) (capMbps : F) : RateLimitState × Bool :=
  ((limits.lookup linkIndex).getD (.new (clock.created pos))).underCap (clock.checked pos)
    (clock.restarted pos) capMbps frameLen

/-- The entry is under its cap, or has none. -/
def underCapAt (limits : RateLimits) (clock : PickClock) (frameLen : UInt64) (pos : Nat)
    (e : SwrrEntry F) : Bool :=
  match e.bandwidthCapMbps with
  | none => true
  | some capMbps => (checkEntry limits clock frameLen pos e.linkIndex capMbps).2

/-- The check finds the window of the link run out, or no window at all. -/
def renewsAt (limits : RateLimits) (clock : PickClock) (pos linkIndex : Nat) : Bool :=
  match limits.lookup linkIndex with
  | none => true
  | some r => decide (clock.checked pos - r.windowStart ≥ 1000000000)

/-- A new window begins for link `i` with a pick. -/
def renews (s : Scheduler F) (clock : PickClock) (i : Nat) : Bool :=
  s.entries.zipIdx.any fun e =>
    decide (e.1.linkIndex = i) && e.1.bandwidthCapMbps.isSome &&
      renewsAt s.rateLimits clock e.2 i

/-- Every entry of the table is over its cap. -/
def allOver (s : Scheduler F) (clock : PickClock) (frameLen : UInt64) : Bool :=
  s.entries.zipIdx.all fun e => !underCapAt s.rateLimits clock frameLen e.2 e.1

variable {s : Scheduler F} {s' : Scheduler F} {clock : PickClock} {frameLen : UInt64} {pos : Nat}
  {e : SwrrEntry F} {caps : Fin n → Option F} {limits : RateLimits} {eligible : List Nat}
  {chosen : Nat}

theorem underCap_bytes (r : RateLimitState) (checkedAt restartedAt : Instant) (capMbps : F)
    (frameLen : UInt64) :
    (r.underCap checkedAt restartedAt capMbps frameLen).1 =
      if checkedAt - r.windowStart ≥ 1000000000 then ⟨restartedAt, 0⟩ else r := rfl

/-- A new window is empty, any other goes on as it was. -/
theorem checkEntry_window (linkIndex : Nat) (frameLen : UInt64) (capMbps : F) :
    (renewsAt limits clock pos linkIndex = true →
      (checkEntry limits clock frameLen pos linkIndex capMbps).1.bytesInWindow = 0) ∧
    (renewsAt limits clock pos linkIndex = false → limits.lookup linkIndex =
      some (checkEntry limits clock frameLen pos linkIndex capMbps).1) := by
  unfold renewsAt checkEntry
  rw [underCap_bytes]
  cases limits.lookup linkIndex with
  | none =>
    refine ⟨fun _ => ?_, fun h => by cases h⟩
    rw [Option.getD_none]
    split <;> rfl
  | some r =>
    rw [Option.getD_some]
    exact ⟨fun h => by rw [if_pos (of_decide_eq_true h)],
      fun h => by rw [if_neg (of_decide_eq_false h)]⟩

/-- What the window of a link holds when its entry is checked. -/
def heldAt (limits : RateLimits) (clock : PickClock) (pos linkIndex : Nat) : UInt64 :=
  match limits.lookup linkIndex with
  | none => 0
  | some r => if renewsAt limits clock pos linkIndex then 0 else r.bytesInWindow

/-- The check compares what the window would hold with the cap. -/
theorem underCapAt_of_cap {capMbps : F} (hcap : e.bandwidthCapMbps = some capMbps)
    (limits : RateLimits) (clock : PickClock) (frameLen : UInt64) (pos : Nat) :
    underCapAt limits clock frameLen pos e =
      decide (heldAt limits clock pos e.linkIndex + frameLen ≤ budgetBytes capMbps) := by
  have hheld : (checkEntry limits clock frameLen pos e.linkIndex capMbps).1.bytesInWindow =
      heldAt limits clock pos e.linkIndex := by
    cases hrenews : renewsAt limits clock pos e.linkIndex with
    | true =>
      rw [(checkEntry_window ..).1 hrenews, heldAt, hrenews]
      split <;> rfl
    | false =>
      rw [heldAt, hrenews, (checkEntry_window _ frameLen capMbps).2 hrenews]
      rfl
  rw [underCapAt, hcap, ← hheld]
  rfl

/-- In exact arithmetic the budget is 125000 bytes for a megabit, rounded down. -/
theorem budgetBytes_eq (capMbps : ℚ) :
    (budgetBytes capMbps).toNat = min ⌊capMbps * 125000⌋₊ (2 ^ 64 - 1) := by
  have htrunc : ∀ x : ℚ, (truncRat x).toNat = ⌊x⌋₊ := by
    intro x
    unfold truncRat
    split
    case isTrue => exact Int.floor_toNat x
    case isFalse hneg =>
      have hle : x ≤ 0 := le_of_lt (not_le.mp hneg)
      rw [Nat.floor_of_nonpos hle, Int.toNat_eq_zero]
      exact Int.ceil_le.mpr (by simpa using hle)
  have hmul : capMbps * ofRat 1000000 / ofRat 8 = capMbps * 125000 := by
    change capMbps * 1000000 / 8 = capMbps * 125000
    ring
  have hbudget : budgetBytes capMbps =
      UInt64.ofNat (min (truncRat (capMbps * ofRat 1000000 / ofRat 8)).toNat (2 ^ 64 - 1)) := rfl
  rw [hbudget, htrunc, hmul, UInt64.toNat_ofNat']
  exact Nat.mod_eq_of_lt (lt_of_le_of_lt (min_le_right _ _) (by norm_num))

/-! ## The pass over the table -/

/-- What the first pass answers for the entries from position `pos` on, and what it leaves. -/
structure PassSpec (clock : PickClock) (frameLen : UInt64) (pos : Nat)
    (entries : List (SwrrEntry F)) (limits : RateLimits) (eligible : List Nat)
    (limits' : RateLimits) : Prop where
  /-- A position passes if its entry is under its cap. -/
  eligible : ∀ i, i ∈ eligible ↔
    ∃ j e, entries[j]? = some e ∧ i = pos + j ∧ underCapAt limits clock frameLen (pos + j) e = true
  /-- A link with a cap has been checked. -/
  capped : ∀ j e capMbps, entries[j]? = some e → e.bandwidthCapMbps = some capMbps →
    limits'.lookup e.linkIndex =
      some (checkEntry limits clock frameLen (pos + j) e.linkIndex capMbps).1
  /-- No other has. -/
  others : ∀ i, (∀ e ∈ entries, e.linkIndex = i → e.bandwidthCapMbps = none) →
    limits'.lookup i = limits.lookup i

/-- The entry at the head, with the pass over the rest. -/
theorem PassSpec.cons {es : List (SwrrEntry F)} {mid limits' : RateLimits}
    (hnodup : (indices (e :: es)).Nodup)
    (hmid : ∀ i, i ≠ e.linkIndex → mid.lookup i = limits.lookup i)
    (hcap : ∀ capMbps, e.bandwidthCapMbps = some capMbps → mid.lookup e.linkIndex =
      some (checkEntry limits clock frameLen pos e.linkIndex capMbps).1)
    (hnocap : e.bandwidthCapMbps = none → mid = limits)
    (h : PassSpec clock frameLen (pos + 1) es mid eligible limits') :
    PassSpec clock frameLen pos (e :: es) limits
      (if underCapAt limits clock frameLen pos e then pos :: eligible else eligible) limits' := by
  obtain ⟨hnot, -⟩ := List.nodup_cons.mp hnodup
  have hne : ∀ e' ∈ es, e'.linkIndex ≠ e.linkIndex := by
    intro e' he' heq
    exact hnot (List.mem_map.mpr ⟨e', he', heq⟩)
  have hentry : ∀ e' ∈ es, ∀ (pos' : Nat) (capMbps : F),
      checkEntry mid clock frameLen pos' e'.linkIndex capMbps =
        checkEntry limits clock frameLen pos' e'.linkIndex capMbps := by
    intro e' he' pos' capMbps
    rw [checkEntry, checkEntry, hmid _ (hne e' he')]
  have hunder : ∀ e' ∈ es, ∀ pos', underCapAt mid clock frameLen pos' e' =
      underCapAt limits clock frameLen pos' e' := by
    intro e' he' pos'
    unfold underCapAt
    split
    · rfl
    · rw [hentry e' he']
  have hlast : limits'.lookup e.linkIndex = mid.lookup e.linkIndex :=
    h.others e.linkIndex fun e' he' heq => absurd heq (hne e' he')
  -- The positions of the tail, one further.
  have htail : ∀ i, i ∈ eligible ↔ ∃ j e', es[j]? = some e' ∧ i = pos + (j + 1) ∧
      underCapAt limits clock frameLen (pos + (j + 1)) e' = true := by
    intro i
    rw [h.eligible]
    constructor
    · rintro ⟨j, e', hj, rfl, hpass⟩
      rw [hunder e' (List.mem_of_getElem? hj), Nat.add_right_comm, Nat.add_assoc] at hpass
      exact ⟨j, e', hj, by omega, hpass⟩
    · rintro ⟨j, e', hj, rfl, hpass⟩
      refine ⟨j, e', hj, by omega, ?_⟩
      rw [hunder e' (List.mem_of_getElem? hj), Nat.add_right_comm, Nat.add_assoc]
      exact hpass
  refine ⟨fun i => ?_, fun j e' capMbps hj hcapped => ?_, fun i hfree => ?_⟩
  · have hhead : (∃ j e', (e :: es)[j]? = some e' ∧ i = pos + j ∧
        underCapAt limits clock frameLen (pos + j) e' = true) ↔
        (i = pos ∧ underCapAt limits clock frameLen pos e = true) ∨ i ∈ eligible := by
      rw [htail]
      constructor
      · rintro ⟨j, e', hj, rfl, hpass⟩
        cases j with
        | zero =>
          cases hj
          exact Or.inl ⟨rfl, hpass⟩
        | succ j => exact Or.inr ⟨j, e', hj, rfl, hpass⟩
      · rintro (⟨rfl, hpass⟩ | ⟨j, e', hj, rfl, hpass⟩)
        · exact ⟨0, e, rfl, rfl, hpass⟩
        · exact ⟨j + 1, e', hj, rfl, hpass⟩
    rw [hhead]
    split
    case isTrue hpass =>
      rw [List.mem_cons]
      exact or_congr_left ⟨fun heq => ⟨heq, hpass⟩, fun hand => hand.1⟩
    case isFalse hover =>
      exact ⟨Or.inr, fun hor => hor.resolve_left fun hand => hover hand.2⟩
  · cases j with
    | zero =>
      cases hj
      rw [hlast]
      exact hcap capMbps hcapped
    | succ j =>
      have hmem : e' ∈ es := List.mem_of_getElem? hj
      have htailCapped := h.capped j e' capMbps hj hcapped
      rw [hentry e' hmem, Nat.add_right_comm, Nat.add_assoc] at htailCapped
      exact htailCapped
  · rw [h.others i fun e' he' heq => hfree e' (List.mem_cons_of_mem e he') heq]
    by_cases hi : i = e.linkIndex
    · rw [hnocap (hfree e List.mem_cons_self hi.symm)]
    · exact hmid i hi

theorem checkCaps_spec (clock : PickClock) (frameLen : UInt64) (pos : Nat)
    {entries : List (SwrrEntry F)} (hnodup : (indices entries).Nodup) (limits : RateLimits) :
    PassSpec clock frameLen pos entries limits (checkCaps clock frameLen pos entries limits).1
      (checkCaps clock frameLen pos entries limits).2 := by
  induction entries generalizing pos limits with
  | nil =>
    refine ⟨fun i => ?_, fun j e capMbps hj => ?_, fun i _ => rfl⟩
    · constructor
      · exact fun hi => (by cases hi)
      · rintro ⟨j, e, hj, -⟩
        cases hj
    · cases hj
  | cons e es ih =>
    have hes : (indices es).Nodup := (List.nodup_cons.mp hnodup).2
    cases hcap : e.bandwidthCapMbps with
    | none =>
      have hpass : underCapAt limits clock frameLen pos e = true := by
        rw [underCapAt, hcap]
      have hcons := PassSpec.cons hnodup (fun i _ => rfl)
        (fun capMbps h => by rw [hcap] at h; cases h) (fun _ => rfl)
        (ih (pos + 1) hes limits)
      rw [if_pos hpass] at hcons
      simp only [checkCaps, hcap]
      exact hcons
    | some capMbps =>
      have hpass : underCapAt limits clock frameLen pos e =
          (checkEntry limits clock frameLen pos e.linkIndex capMbps).2 := by
        rw [underCapAt, hcap]
      have hcons := PassSpec.cons hnodup (fun i hi => AList.lookup_insert_ne hi)
        (fun capMbps' h => by
          rw [hcap] at h
          cases h
          exact AList.lookup_insert _)
        (fun h => by rw [hcap] at h; cases h)
        (ih (pos + 1) hes (limits.insert e.linkIndex
          (checkEntry limits clock frameLen pos e.linkIndex capMbps).1))
      rw [hpass] at hcons
      simp only [checkCaps, hcap]
      exact hcons

/-! ## One pick -/

theorem allOver_iff :
    allOver s clock frameLen = true ↔
      ∀ pos e, s.entries[pos]? = some e →
        underCapAt s.rateLimits clock frameLen pos e = false := by
  rw [allOver, List.all_eq_true]
  constructor
  · intro h pos e he
    simpa using h (e, pos) (List.mem_zipIdx_iff_getElem?.mpr he)
  · rintro h ⟨e, pos⟩ hmem
    simpa using h pos e (List.mem_zipIdx_iff_getElem?.mp hmem)

theorem entryAt_eq {entries : List (SwrrEntry F)} (h : entries[pos]? = some e) :
    entryAt entries pos = e := by
  rw [entryAt, List.getD_eq_getElem?_getD, h]
  rfl

theorem skipPenalized_rateLimits (s : Scheduler F) (now : Instant) (eligible : List Nat) :
    (s.skipPenalized now eligible).1.rateLimits = s.rateLimits := by
  unfold skipPenalized
  split <;> rfl

/-- Penalties alone leave no table without an eligible entry. -/
theorem skipPenalized_eq_nil {now : Instant} (h : (s.skipPenalized now eligible).2 = []) :
    eligible = [] := by
  unfold skipPenalized at h
  split at h
  · exact h
  · dsimp only at h
    split at h
    · exact h
    · rename_i hsome
      exact absurd (Or.inr h) hsome

/-- The links of the table, with their caps. -/
def table (s : Scheduler F) : List (Nat × Option F) :=
  s.entries.map fun e => (e.linkIndex, e.bandwidthCapMbps)

/-- What a pick from a table that is not empty comes to. -/
structure PickSpec (s : Scheduler F) (clock : PickClock) (frameLen : UInt64)
    (s' : Scheduler F) (chosen : Nat) : Prop where
  /-- The check of every entry, and then the record of the chosen one. -/
  limits : ∃ eligible limits', PassSpec clock frameLen 0 s.entries s.rateLimits eligible limits' ∧
    s'.rateLimits = recordBytes limits' chosen frameLen
  /-- The chosen entry is under its cap, or none is. -/
  winner : ∃ pos e, s.entries[pos]? = some e ∧ e.linkIndex = chosen ∧
    (underCapAt s.rateLimits clock frameLen pos e = true ∨ allOver s clock frameLen = true)
  /-- The entries keep their links and caps. -/
  table : table s' = table s

theorem pick_spec (hne : s.entries ≠ []) (hnodup : (indices s.entries).Nodup) (clock : PickClock)
    (frameLen : UInt64) :
    PickSpec s clock frameLen (s.swrrPickUnderCap clock frameLen).1
      (s.swrrPickUnderCap clock frameLen).2 := by
  have hpass := checkCaps_spec clock frameLen 0 hnodup s.rateLimits
  unfold swrrPickUnderCap
  dsimp only
  generalize checkCaps clock frameLen 0 s.entries s.rateLimits = capped at hpass ⊢
  obtain ⟨hentries, -, hsub⟩ :=
    skipPenalized_spec { s with rateLimits := capped.2 } clock.penalty capped.1
  have hlimits := skipPenalized_rateLimits { s with rateLimits := capped.2 } clock.penalty capped.1
  have hnil := @skipPenalized_eq_nil _ _ { s with rateLimits := capped.2 } capped.1 clock.penalty
  generalize { s with rateLimits := capped.2 }.skipPenalized clock.penalty capped.1 = skipped
    at hentries hlimits hsub hnil ⊢
  obtain ⟨s', eligible⟩ := skipped
  dsimp only at hentries hlimits hsub hnil ⊢
  rw [hentries, hlimits]
  cases eligible with
  | nil =>
    have hnone : capped.1 = [] := hnil rfl
    have hover : allOver s clock frameLen = true := by
      rw [allOver_iff]
      intro pos e he
      by_contra hunder
      have hmem := (hpass.eligible pos).mpr ⟨pos, e, he, (Nat.zero_add pos).symm, by
        rw [Nat.zero_add]
        exact Bool.eq_true_of_not_eq_false hunder⟩
      rw [hnone] at hmem
      cases hmem
    refine ⟨⟨capped.1, capped.2, hpass, rfl⟩, ?_, pickAmong_map (fun _ _ => rfl) _ _ _⟩
    obtain ⟨pos, hpos, hwinner⟩ := pickAmong_winner s.entries 0
      (List.range' 1 (s.entries.length - 1))
    have hlt : pos < s.entries.length := by
      have hlength : 0 < s.entries.length := List.length_pos_iff.mpr hne
      rcases List.mem_cons.mp hpos with rfl | hmem
      · exact hlength
      · obtain ⟨i, hi, rfl⟩ := List.mem_range'.mp hmem
        omega
    have hget : s.entries[pos]? = some s.entries[pos] := List.getElem?_eq_getElem hlt
    refine ⟨pos, _, hget, ?_, Or.inr hover⟩
    exact (congrArg SwrrEntry.linkIndex (entryAt_eq hget)).symm.trans hwinner.symm
  | cons first rest =>
    refine ⟨⟨capped.1, capped.2, hpass, rfl⟩, ?_, pickAmong_map (fun _ _ => rfl) _ _ _⟩
    obtain ⟨pos, hpos, hwinner⟩ := pickAmong_winner s.entries first rest
    obtain ⟨j, e, he, rfl, hunder⟩ := (hpass.eligible pos).mp (hsub hpos)
    rw [Nat.zero_add] at hunder hwinner
    refine ⟨j, e, he, ?_, Or.inl hunder⟩
    exact (congrArg SwrrEntry.linkIndex (entryAt_eq he)).symm.trans hwinner.symm

/-- An entry over its cap is picked only if every entry is over its cap. -/
theorem PickSpec.over (h : PickSpec s clock frameLen s' chosen) (hnodup : (indices s.entries).Nodup)
    (he : s.entries[pos]? = some e) (hchosen : e.linkIndex = chosen)
    (hover : underCapAt s.rateLimits clock frameLen pos e = false) :
    allOver s clock frameLen = true := by
  obtain ⟨pos', e', he', hchosen', hunder | hall⟩ := h.winner
  · -- One entry for each link: it is the same entry.
    have hsame : pos' = pos := by
      have hget : (indices s.entries)[pos]? = some chosen := by
        rw [indices, List.getElem?_map, he, Option.map_some, hchosen]
      have hget' : (indices s.entries)[pos']? = some chosen := by
        rw [indices, List.getElem?_map, he', Option.map_some, hchosen']
      have hlt : pos' < (indices s.entries).length := (List.getElem?_eq_some_iff.mp hget').1
      exact (List.getElem?_inj hlt hnodup).mp (hget'.trans hget.symm)
    rw [hsame] at he' hunder
    rw [he] at he'
    cases he'
    rw [hover] at hunder
    cases hunder
  · exact hall

/-! ## Windows -/

variable {i : Nat}

omit [Floating F] in
theorem renews_iff :
    renews s clock i = true ↔ ∃ pos e capMbps, s.entries[pos]? = some e ∧ e.linkIndex = i ∧
      e.bandwidthCapMbps = some capMbps ∧ renewsAt s.rateLimits clock pos i = true := by
  rw [renews, List.any_eq_true]
  constructor
  · rintro ⟨⟨e, pos⟩, hmem, h⟩
    simp only [Bool.and_eq_true, decide_eq_true_eq] at h
    obtain ⟨⟨hi, hcap⟩, hrenews⟩ := h
    obtain ⟨capMbps, hcap⟩ := Option.isSome_iff_exists.mp hcap
    exact ⟨pos, e, capMbps, List.mem_zipIdx_iff_getElem?.mp hmem, hi, hcap, hrenews⟩
  · rintro ⟨pos, e, capMbps, he, hi, hcap, hrenews⟩
    refine ⟨(e, pos), List.mem_zipIdx_iff_getElem?.mpr he, ?_⟩
    simp only [Bool.and_eq_true, decide_eq_true_eq]
    exact ⟨⟨hi, by rw [hcap]; rfl⟩, hrenews⟩

/-- After the check a link has an empty window that just began, or the one it had. -/
theorem PassSpec.window {limits' : RateLimits}
    (h : PassSpec clock frameLen 0 s.entries s.rateLimits eligible limits')
    {r : RateLimitState} (hr : limits'.lookup i = some r) :
    (renews s clock i = true ∧ r.bytesInWindow = 0) ∨
      (renews s clock i = false ∧ s.rateLimits.lookup i = some r) := by
  cases hrenews : renews s clock i with
  | true =>
    obtain ⟨pos, e, capMbps, he, rfl, hcap, hat⟩ := renews_iff.mp hrenews
    have hchecked := h.capped pos e capMbps he hcap
    rw [Nat.zero_add, hr] at hchecked
    rw [Option.some.inj hchecked]
    exact Or.inl ⟨rfl, (checkEntry_window _ frameLen capMbps).1 hat⟩
  | false =>
    refine Or.inr ⟨rfl, ?_⟩
    by_cases hcapped : ∃ (pos : Nat) (e : SwrrEntry F) (capMbps : F),
        s.entries[pos]? = some e ∧ e.linkIndex = i ∧ e.bandwidthCapMbps = some capMbps
    · obtain ⟨pos, e, capMbps, he, rfl, hcap⟩ := hcapped
      have hat : renewsAt s.rateLimits clock pos e.linkIndex = false := by
        by_contra hnot
        have hyes := renews_iff.mpr
          ⟨pos, e, capMbps, he, rfl, hcap, Bool.eq_true_of_not_eq_false hnot⟩
        rw [hrenews] at hyes
        cases hyes
      have hchecked := h.capped pos e capMbps he hcap
      rw [Nat.zero_add, hr] at hchecked
      rw [Option.some.inj hchecked]
      exact (checkEntry_window _ frameLen capMbps).2 hat
    · rw [← h.others i ?_]
      · exact hr
      · intro e he hi
        obtain ⟨pos, hpos⟩ := List.mem_iff_getElem?.mp he
        cases hcap : e.bandwidthCapMbps with
        | none => rfl
        | some capMbps => exact absurd ⟨pos, e, capMbps, hpos, hi, hcap⟩ hcapped

theorem lookup_recordBytes (limits : RateLimits) (idx i : Nat) (frameLen : UInt64) :
    (recordBytes limits idx frameLen).lookup i =
      (limits.lookup i).map fun r => if i = idx then r.record frameLen else r := by
  unfold recordBytes
  by_cases hi : i = idx
  · subst hi
    cases hlookup : limits.lookup i with
    | none =>
      simp only
      rw [hlookup]
      rfl
    | some r => simp only [AList.lookup_insert, Option.map_some, if_true]
  · cases limits.lookup idx with
    | none =>
      simp only [if_neg hi]
      rw [Option.map_id']
    | some r =>
      simp only [if_neg hi]
      rw [AList.lookup_insert_ne hi, Option.map_id']

/-- What a pick of `chosen` leaves in the window of link `i`. -/
theorem PickSpec.window (h : PickSpec s clock frameLen s' chosen) {r' : RateLimitState}
    (hr' : s'.rateLimits.lookup i = some r') :
    ∃ bytes, r'.bytesInWindow = bytes + (if chosen = i then frameLen else 0) ∧
      ((renews s clock i = true ∧ bytes = 0) ∨
        (renews s clock i = false ∧ ∃ r, s.rateLimits.lookup i = some r ∧
          r.bytesInWindow = bytes)) := by
  obtain ⟨eligible, limits', hpass, hlimits⟩ := h.limits
  rw [hlimits, lookup_recordBytes] at hr'
  obtain ⟨r, hr, rfl⟩ := Option.map_eq_some_iff.mp hr'
  refine ⟨r.bytesInWindow, ?_, ?_⟩
  · by_cases hi : i = chosen
    · rw [if_pos hi, if_pos hi.symm]
      rfl
    · rw [if_neg hi, if_neg (Ne.symm hi), UInt64.add_zero]
  · rcases hpass.window hr with ⟨hnew, hzero⟩ | ⟨hold, hsame⟩
    · exact Or.inl ⟨hnew, hzero⟩
    · exact Or.inr ⟨hold, r, hsame, rfl⟩

/-- What a pick records on a link with a cap is within it, unless every entry was over. -/
theorem PickSpec.within (h : PickSpec s clock frameLen s' chosen)
    (hnodup : (indices s.entries).Nodup) (hover : allOver s clock frameLen = false) {capMbps : F}
    (he : s.entries[pos]? = some e) (hchosen : e.linkIndex = chosen)
    (hcap : e.bandwidthCapMbps = some capMbps) {r : RateLimitState}
    (hr : s'.rateLimits.lookup chosen = some r) : r.bytesInWindow ≤ budgetBytes capMbps := by
  have hunder : underCapAt s.rateLimits clock frameLen pos e = true := by
    by_contra hnot
    have hall := h.over hnodup he hchosen (Bool.eq_false_of_not_eq_true hnot)
    rw [hover] at hall
    cases hall
  rw [underCapAt, hcap] at hunder
  obtain ⟨eligible, limits', hpass, hlimits⟩ := h.limits
  have hchecked := hpass.capped pos e capMbps he hcap
  rw [Nat.zero_add, hchosen] at hchecked
  rw [hlimits, lookup_recordBytes, hchecked, Option.map_some, if_pos rfl] at hr
  rw [← Option.some.inj hr]
  rw [hchosen] at hunder
  exact of_decide_eq_true hunder

/-! ## Runs -/

/-- A pick as the log of a window has it. -/
structure Picked where
  frameLen : UInt64
  chosen : Nat
  allOver : Bool
deriving Repr, DecidableEq

/-- The scheduler, and for each link the picks since its window began. -/
structure Watched (F : Type*) where
  scheduler : Scheduler F
  window : Nat → List Picked

/-- The pick a call makes: with no primary, from a table that is not empty. -/
def pickOf (s : Scheduler F) (op : Op F n) : Option (PickClock × UInt64) :=
  if n ≠ 0 ∧ s.primary = none ∧ s.entries.isEmpty = false then
    match op with
    | .selectFast clock frameLen => some (clock, frameLen)
    | .select _ clock frameLen => some (clock, frameLen)
    | _ => none
  else none

/-- A pick is logged for every link, in a new window where one begins. -/
def logPick (s : Scheduler F) (clock : PickClock) (frameLen : UInt64) (window : Nat → List Picked) :
    Nat → List Picked := fun i =>
  (if renews s clock i then [] else window i) ++
    [⟨frameLen, (s.swrrPickUnderCap clock frameLen).2, allOver s clock frameLen⟩]

namespace Watched

def step (w : Watched F) (op : Op F n) : Watched F where
  scheduler := w.scheduler.step op
  window := match pickOf w.scheduler op with
    | some (clock, frameLen) => logPick w.scheduler clock frameLen w.window
    | none => w.window

def run (w : Watched F) (ops : List (Op F n)) : Watched F := ops.foldl step w

end Watched

/-- A refresh sees the caps of the configuration. -/
def configured (caps : Fin n → Option F) : Op F n → Op F n
  | .refresh links cfg peerPrimaryIndex =>
      .refresh (fun i => { links i with bandwidthCapMbps := caps i }) cfg peerPrimaryIndex
  | op => op

/-- A run from the start, of a tunnel with these caps. -/
def watch (caps : Fin n → Option F) (ops : List (Op F n)) : Watched F :=
  Watched.run ⟨.new, fun _ => []⟩ (ops.map (configured caps))

/-- What the window of a link has recorded, by its log. -/
def loggedBytes (window : List Picked) (i : Nat) : UInt64 :=
  ((window.filter fun p => p.chosen = i).map (·.frameLen)).sum

theorem loggedBytes_append (window : List Picked) (p : Picked) (i : Nat) :
    loggedBytes (window ++ [p]) i =
      loggedBytes window i + if p.chosen = i then p.frameLen else 0 := by
  unfold loggedBytes
  rw [List.filter_append, List.map_append, List.sum_append]
  by_cases h : p.chosen = i
  · simp [h]
  · simp [h]

/-- Both entry points pick under the caps with links, no primary and entries. -/
theorem selectFast_eq (h : n ≠ 0 ∧ s.primary = none ∧ s.entries.isEmpty = false) (clock : PickClock)
    (frameLen : UInt64) :
    s.selectFast n clock frameLen = ((s.swrrPickUnderCap clock frameLen).1,
      some (s.swrrPickUnderCap clock frameLen).2) := by
  obtain ⟨hn, hprimary, hentries⟩ := h
  simp only [selectFast, if_neg hn, hprimary, hentries]
  rfl

theorem select_eq (h : n ≠ 0 ∧ s.primary = none ∧ s.entries.isEmpty = false)
    {links : List (LinkScore F)} (hlen : links.length = n) (clock : PickClock) (frameLen : UInt64) :
    s.select links clock frameLen = ((s.swrrPickUnderCap clock frameLen).1,
      some (s.swrrPickUnderCap clock frameLen).2) := by
  obtain ⟨hn, hprimary, hentries⟩ := h
  have hlinks : links ≠ [] := by
    rintro rfl
    exact hn hlen.symm
  simp only [select, if_neg hlinks, hprimary, hentries]
  rfl

variable {op : Op F n}

omit [Floating F] in
theorem ready_of_pickOf {p : PickClock × UInt64} (h : pickOf s op = some p) :
    n ≠ 0 ∧ s.primary = none ∧ s.entries.isEmpty = false := by
  unfold pickOf at h
  split at h
  case isTrue hready => exact hready
  case isFalse => cases h

theorem step_of_pick (h : pickOf s op = some (clock, frameLen)) :
    s.step op = (s.swrrPickUnderCap clock frameLen).1 ∧ s.entries ≠ [] := by
  have hready := ready_of_pickOf h
  refine ⟨?_, by simpa using hready.2.2⟩
  unfold pickOf at h
  rw [if_pos hready] at h
  cases op with
  | selectFast clock' frameLen' =>
    cases h
    rw [step_selectFast, if_pos hready]
  | select links clock' frameLen' =>
    cases h
    rw [step_select, if_pos hready]
  | _ => cases h

theorem reviewPrimary_rateLimits (s : Scheduler F) (ups : List (Nat × F)) (upThreshold : UInt32)
    (primaryScore : F) :
    (s.reviewPrimary ups upThreshold primaryScore).rateLimits = s.rateLimits := by
  unfold reviewPrimary
  split
  case h_1 => rfl
  case h_2 =>
    dsimp only
    repeat' split
    all_goals rfl

/-- No refresh touches a window. -/
theorem refreshFromScores_rateLimits (s : Scheduler F) (ups : List (Nat × F))
    (cfg : SchedulerConfig F) (peerPrimaryIndex : Option Nat) :
    (s.refreshFromScores ups cfg peerPrimaryIndex).rateLimits = s.rateLimits := by
  unfold refreshFromScores
  split
  case isTrue => rfl
  case isFalse =>
    split
    case isTrue => rfl
    case isFalse =>
      dsimp only
      split
      case h_1 => rfl
      case h_2 => exact reviewPrimary_rateLimits s ups cfg.upThreshold _

theorem table_rescale (s : Scheduler F) : table s.rescale = table s := by
  simp [table, rescale, Function.comp_def]

omit [Floating F] in
/-- A call to an entry point that is no pick finds one of these missing. -/
theorem not_ready_of_pickOf (h : pickOf s op = none)
    (hcall : (∃ clock frameLen, op = .selectFast clock frameLen) ∨
      ∃ links clock frameLen, op = .select links clock frameLen) :
    ¬(n ≠ 0 ∧ s.primary = none ∧ s.entries.isEmpty = false) := by
  intro hready
  rcases hcall with ⟨_, _, rfl⟩ | ⟨_, _, _, rfl⟩
  · simp only [pickOf, if_pos hready] at h
    cases h
  · simp only [pickOf, if_pos hready] at h
    cases h

/-- A call that picks nothing records nothing, and only a refresh changes the table. -/
theorem step_of_no_pick (h : pickOf s op = none) :
    (s.step op).rateLimits = s.rateLimits ∧
      (table (s.step op) = table s ∨ ∃ links cfg peerPrimaryIndex,
        op = .refresh links cfg peerPrimaryIndex) := by
  cases op with
  | refresh links cfg peerPrimaryIndex =>
    exact ⟨refreshFromScores_rateLimits s _ cfg peerPrimaryIndex,
      Or.inr ⟨links, cfg, peerPrimaryIndex, rfl⟩⟩
  | updateCongestion now counters => exact ⟨rfl, Or.inl (table_rescale _)⟩
  | updateDelivery now samples => exact ⟨rfl, Or.inl (table_rescale _)⟩
  | noteQueueFull now idx => exact ⟨rfl, Or.inl rfl⟩
  | noteSendFailed now idx => exact ⟨rfl, Or.inl rfl⟩
  | selectFast clock frameLen =>
    rw [step_selectFast, if_neg (not_ready_of_pickOf h (Or.inl ⟨_, _, rfl⟩))]
    exact ⟨rfl, Or.inl rfl⟩
  | select links clock frameLen =>
    rw [step_select, if_neg (not_ready_of_pickOf h (Or.inr ⟨_, _, _, rfl⟩))]
    exact ⟨rfl, Or.inl rfl⟩

/-- The configured cap of the link with this index. -/
def capOf (caps : Fin n → Option F) (i : Nat) : Option F :=
  if h : i < n then caps ⟨i, h⟩ else none

/-- One entry for each link, with the cap that the link has. -/
structure Configured (caps : Fin n → Option F) (s : Scheduler F) : Prop where
  nodup : ((table s).map Prod.fst).Nodup
  caps : ∀ l ∈ table s, l.2 = capOf caps l.1

theorem configured_refresh (caps : Fin n → Option F) (s : Scheduler F) (links : Fin n → Link F)
    (cfg : SchedulerConfig F) (peerPrimaryIndex : Option Nat) :
    Configured caps
      (s.step (configured caps (.refresh links cfg peerPrimaryIndex))) := by
  have htable : table (s.step (configured caps (.refresh links cfg peerPrimaryIndex))) =
      (upIndices (List.ofFn fun i => { links i with bandwidthCapMbps := caps i })).map
        fun l => (l.1, capOf caps l.1) := by
    simp only [table, configured, Scheduler.step, refresh, List.map_map]
    apply List.map_congr_left
    intro l _
    simp only [Function.comp_apply, List.getElem?_ofFn, capOf]
    split <;> rfl
  constructor
  · rw [htable, List.map_map]
    have hsub : ((upIndices (List.ofFn fun i => { links i with bandwidthCapMbps := caps i })).map
        Prod.fst).Sublist
        (((List.ofFn fun i => { links i with bandwidthCapMbps := caps i }).zipIdx.map
          fun l => (l.2, score l.1)).map Prod.fst) := List.filter_sublist.map Prod.fst
    refine hsub.nodup ?_
    rw [List.map_map]
    have hrange := List.nodup_range' (s := 0)
      (n := (List.ofFn fun i => { links i with bandwidthCapMbps := caps i }).length)
    rw [← List.zipIdx_map_snd] at hrange
    exact hrange
  · rw [htable]
    intro l hl
    obtain ⟨l', -, rfl⟩ := List.mem_map.mp hl
    rfl

omit [Floating F] in
/-- Only the links and caps of the table matter. -/
theorem Configured.of_table (h : Configured caps s) (htable : table s' = table s) :
    Configured caps s' where
  nodup := by
    rw [htable]
    exact h.nodup
  caps := by
    rw [htable]
    exact h.caps

omit [Floating F] in
theorem Configured.indices_nodup (h : Configured caps s) : (indices s.entries).Nodup := by
  have hnodup := h.nodup
  rw [table, List.map_map] at hnodup
  exact hnodup

omit [Floating F] in
theorem Configured.cap_eq (h : Configured caps s) (he : e ∈ s.entries) :
    e.bandwidthCapMbps = capOf caps e.linkIndex :=
  h.caps _ (List.mem_map_of_mem he)

/-- The log of the picks accounts for every window. -/
structure Kept (caps : Fin n → Option F) (w : Watched F) : Prop where
  table : Configured caps w.scheduler
  /-- What is recorded is the sum of the frames that were given to the link. -/
  bytes : ∀ i r, w.scheduler.rateLimits.lookup i = some r →
    r.bytesInWindow = loggedBytes (w.window i) i
  /-- It is within the cap, but for picks with every entry over its cap. -/
  within : ∀ i r capMbps, w.scheduler.rateLimits.lookup i = some r → capOf caps i = some capMbps →
    r.bytesInWindow ≤ budgetBytes capMbps ∨ ∃ p ∈ w.window i, p.chosen = i ∧ p.allOver = true

theorem kept_new (caps : Fin n → Option F) : Kept caps ⟨.new, fun _ => []⟩ where
  table := ⟨List.nodup_nil, fun _ hl => nomatch hl⟩
  bytes := fun _ _ hr => nomatch hr
  within := fun _ _ _ hr => nomatch hr

variable {w : Watched F}

/-- A pick, with its entry in the log. -/
theorem Kept.pick (h : Kept caps w) (hne : w.scheduler.entries ≠ [])
    (clock : PickClock) (frameLen : UInt64) :
    Kept caps ⟨(w.scheduler.swrrPickUnderCap clock frameLen).1,
      logPick w.scheduler clock frameLen w.window⟩ := by
  have hnodup := h.table.indices_nodup
  have hspec := pick_spec hne hnodup clock frameLen
  refine ⟨h.table.of_table hspec.table, fun i r' hr' => ?_, fun i r' capMbps hr' hcap => ?_⟩
  · dsimp only [logPick]
    obtain ⟨bytes, hbytes, ⟨hnew, rfl⟩ | ⟨hold, r, hr, rfl⟩⟩ := hspec.window hr'
    · rw [hbytes, if_pos hnew, loggedBytes_append]
      rfl
    · rw [hbytes, hold, if_neg Bool.false_ne_true, loggedBytes_append, h.bytes i r hr]
  · by_cases hchosen : (w.scheduler.swrrPickUnderCap clock frameLen).2 = i
    · cases hover : allOver w.scheduler clock frameLen with
      | true =>
        refine Or.inr ⟨⟨frameLen, i, true⟩, ?_, rfl, rfl⟩
        simp only [logPick, hchosen, hover]
        exact List.mem_append_right _ List.mem_cons_self
      | false =>
        obtain ⟨pos, e, he, hidx, -⟩ := hspec.winner
        have hcapped : e.bandwidthCapMbps = some capMbps := by
          rw [h.table.cap_eq (List.mem_of_getElem? he), hidx, hchosen, hcap]
        rw [← hchosen] at hr'
        exact Or.inl (hspec.within hnodup hover he hidx hcapped hr')
    · -- Nothing is added: the window is empty, or as it was.
      obtain ⟨bytes, hbytes, ⟨hnew, rfl⟩ | ⟨hold, r, hr, rfl⟩⟩ := hspec.window hr'
      · rw [hbytes, if_neg hchosen]
        exact Or.inl (UInt64.le_iff_toNat_le.mpr (Nat.zero_le _))
      · rw [hbytes, if_neg hchosen, UInt64.add_zero]
        refine (h.within i r capMbps hr hcap).imp_right ?_
        rintro ⟨p, hp, hlogged⟩
        refine ⟨p, ?_, hlogged⟩
        simp only [logPick, hold]
        exact List.mem_append_left _ hp

theorem Kept.step (h : Kept caps w) (op : Op F n) : Kept caps (w.step (configured caps op)) := by
  unfold Watched.step
  cases hpick : pickOf w.scheduler (configured caps op) with
  | some p =>
    obtain ⟨clock, frameLen⟩ := p
    obtain ⟨hstep, hne⟩ := step_of_pick hpick
    rw [hstep]
    exact h.pick hne clock frameLen
  | none =>
    obtain ⟨hlimits, htable⟩ := step_of_no_pick hpick
    refine ⟨?_, ?_, ?_⟩
    · rcases htable with hsame | ⟨links, cfg, peerPrimaryIndex, hrefresh⟩
      · exact h.table.of_table hsame
      · cases op with
        | refresh links' cfg' peerPrimaryIndex' =>
          exact configured_refresh caps w.scheduler links' cfg' peerPrimaryIndex'
        | _ => cases hrefresh
    · rw [hlimits]
      exact h.bytes
    · rw [hlimits]
      exact h.within

theorem Kept.run (h : Kept caps w) (ops : List (Op F n)) :
    Kept caps (w.run (ops.map (configured caps))) := by
  induction ops generalizing w with
  | nil => exact h
  | cons op ops ih => exact ih (h.step op)

theorem kept_watch (caps : Fin n → Option F) (ops : List (Op F n)) : Kept caps (watch caps ops) :=
  (kept_new caps).run ops

/-- Refreshes leave windows and their logs alone. -/
theorem run_refreshes (caps : Fin n → Option F) (w : Watched F)
    (refreshes : List ((Fin n → Link F) × SchedulerConfig F × Option Nat)) :
    (w.run ((refreshes.map fun r => .refresh r.1 r.2.1 r.2.2).map
        (configured caps))).scheduler.rateLimits = w.scheduler.rateLimits ∧
      (w.run ((refreshes.map fun r => .refresh r.1 r.2.1 r.2.2).map (configured caps))).window =
        w.window := by
  induction refreshes generalizing w with
  | nil => exact ⟨rfl, rfl⟩
  | cons r refreshes ih =>
    obtain ⟨links, cfg, peerPrimaryIndex⟩ := r
    have hpick : pickOf w.scheduler
        (configured caps (.refresh links cfg peerPrimaryIndex)) = none := by
      unfold pickOf
      split <;> rfl
    have hwindow : (w.step (configured caps (.refresh links cfg peerPrimaryIndex))).window =
        w.window := by
      unfold Watched.step
      rw [hpick]
    obtain ⟨hlimits, hlog⟩ := ih (w.step (configured caps (.refresh links cfg peerPrimaryIndex)))
    exact ⟨hlimits.trans (step_of_no_pick hpick).1, hlog.trans hwindow⟩

/-- The cap of a link, over any calls of the scheduler with any lengths and times.  In each
window what is recorded are the frames given to the link since the window began, within the
link's budget unless a pick in the window found every entry over its cap.  A link that the
next frame would push over its cap is picked only if every entry is over its cap.  Refreshes
change nothing recorded.  In exact arithmetic the budget is the cap times 125000, rounded
down to a number of bytes. -/
theorem cap_enforced (caps : Fin n → Option F) (ops : List (Op F n)) :
    (∀ (i : Fin n) (capMbps : F) (r : RateLimitState), caps i = some capMbps →
      (watch caps ops).scheduler.rateLimits.lookup i.val = some r →
        r.bytesInWindow = loggedBytes ((watch caps ops).window i) i ∧
        (r.bytesInWindow ≤ budgetBytes capMbps ∨
          ∃ p ∈ (watch caps ops).window i, p.allOver = true)) ∧
    (∀ (clock : PickClock) (frameLen : UInt64) (pos : Nat) (e : SwrrEntry F) (capMbps : F),
      (watch caps ops).scheduler.entries[pos]? = some e → e.bandwidthCapMbps = some capMbps →
      budgetBytes capMbps <
        heldAt (watch caps ops).scheduler.rateLimits clock pos e.linkIndex + frameLen →
      ((watch caps ops).scheduler.swrrPickUnderCap clock frameLen).2 = e.linkIndex →
        ∀ pos' e', (watch caps ops).scheduler.entries[pos']? = some e' →
          underCapAt (watch caps ops).scheduler.rateLimits clock frameLen pos' e' = false) ∧
    (∀ refreshes : List ((Fin n → Link F) × SchedulerConfig F × Option Nat),
      (watch caps (ops ++ refreshes.map fun r =>
          .refresh r.1 r.2.1 r.2.2)).scheduler.rateLimits =
        (watch caps ops).scheduler.rateLimits ∧
      (watch caps (ops ++ refreshes.map fun r => .refresh r.1 r.2.1 r.2.2)).window =
        (watch caps ops).window) ∧
    ∀ capMbps : ℚ, (budgetBytes capMbps).toNat = min ⌊capMbps * 125000⌋₊ (2 ^ 64 - 1) := by
  have hkept := kept_watch caps ops
  refine ⟨fun i capMbps r hcap hr => ⟨hkept.bytes i r hr, ?_⟩, ?_, fun refreshes => ?_,
    budgetBytes_eq⟩
  · have hcapped : capOf caps i = some capMbps := by
      rw [capOf, dif_pos i.isLt]
      exact hcap
    refine (hkept.within i r capMbps hr hcapped).imp_right ?_
    rintro ⟨p, hp, -, hover⟩
    exact ⟨p, hp, hover⟩
  · intro clock frameLen pos e capMbps he hcap hpush hchosen
    have hnodup := hkept.table.indices_nodup
    have hne : (watch caps ops).scheduler.entries ≠ [] := List.ne_nil_of_mem
      (List.mem_of_getElem? he)
    have hover : underCapAt (watch caps ops).scheduler.rateLimits clock frameLen pos e = false := by
      rw [underCapAt_of_cap hcap]
      exact decide_eq_false (UInt64.not_le.mpr hpush)
    exact allOver_iff.mp
      ((pick_spec hne hnodup clock frameLen).over hnodup he hchosen.symm hover)
  · unfold watch Watched.run
    rw [List.map_append, List.foldl_append]
    exact run_refreshes caps _ refreshes

end Mlvpn.Ports.RateWindows
