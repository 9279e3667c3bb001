import Mlvpn.Ports.SchedulingPick
import Mlvpn.Verified.RoundRobin

/-!
# How the traffic is split

`swrr_pick_under_cap` with weights read as exact rationals: a round of smooth weighted
round robin among the positions that compete, so that the current weights are the credits
of `Verified.RoundRobin`.  Caps and penalties only restrict who competes, and weight
updates leave the credits alone; a refresh sets them to zero, which is where credits get
lost.

## Main results

* `pickAmong_settles`, `swrrPickUnderCap_settles`: a pick is a round among `competing`.
* `picks_follow_weights`: the share of each link as long as all compete, and the sum of the
  current weights in every reachable state.
* `refresh_split_bounded`: with refreshes in between, the split stays near the weights if all but
  so many of them find every current weight at zero.
* `refresh_split_unbounded`: with a refresh after every pick it does not.
-/

namespace Mlvpn.Ports.Scheduling

open Verified Extremum RoundRobin
open ConfigFile (SchedulerConfig)

namespace Scheduler

/-! ## The table by position -/

def credit (entries : List (SwrrEntry ℚ)) (pos : Nat) : ℚ := (entryAt entries pos).currentWeight

def weightAt (entries : List (SwrrEntry ℚ)) (pos : Nat) : ℚ :=
  (entryAt entries pos).effectiveWeight

def indexAt (entries : List (SwrrEntry ℚ)) (pos : Nat) : Nat := (entryAt entries pos).linkIndex

/-- The positions of the table. -/
def positions (entries : List (SwrrEntry ℚ)) : Finset Nat := Finset.range entries.length

variable {entries : List (SwrrEntry ℚ)}

theorem entryAt_eq_getElem {pos : Nat}
    (h : pos < entries.length) : entryAt entries pos = entries[pos] :=
  List.getD_eq_getElem _ _ h

theorem sum_positions (entries : List (SwrrEntry ℚ)) (f : SwrrEntry ℚ → ℚ) :
    ∑ pos ∈ positions entries, f (entryAt entries pos) = (entries.map f).sum := by
  rw [positions, Finset.sum_range, ← List.sum_ofFn]
  congr 1
  apply List.ext_getElem (by simp)
  intro pos hpos hpos'
  rw [List.getElem_ofFn, List.getElem_map, entryAt_eq_getElem]

theorem sum_credit (entries : List (SwrrEntry ℚ)) :
    ∑ pos ∈ positions entries, credit entries pos = (entries.map (·.currentWeight)).sum :=
  sum_positions entries (·.currentWeight)

theorem sum_weightAt (entries : List (SwrrEntry ℚ)) :
    ∑ pos ∈ positions entries, weightAt entries pos = (entries.map (·.effectiveWeight)).sum :=
  sum_positions entries (·.effectiveWeight)

/-- The table with other credits. -/
def withCredits (entries : List (SwrrEntry ℚ)) (credits : Nat → ℚ) : List (SwrrEntry ℚ) :=
  entries.mapIdx fun pos e => { e with currentWeight := credits pos }

section WithCredits

variable (entries : List (SwrrEntry ℚ)) (credits : Nat → ℚ)

@[simp] theorem length_withCredits : (withCredits entries credits).length = entries.length :=
  List.length_mapIdx

@[simp] theorem positions_withCredits :
    positions (withCredits entries credits) = positions entries := by
  rw [positions, positions, length_withCredits]

theorem entryAt_withCredits {pos : Nat} (h : pos < entries.length) :
    entryAt (withCredits entries credits) pos =
      { entryAt entries pos with currentWeight := credits pos } := by
  rw [entryAt_eq_getElem (by simpa using h), entryAt_eq_getElem h]
  exact List.getElem_mapIdx

theorem credit_withCredits {pos : Nat} (h : pos ∈ positions entries) :
    credit (withCredits entries credits) pos = credits pos := by
  rw [credit, entryAt_withCredits entries credits (Finset.mem_range.mp h)]

end WithCredits

/-! ## One pick -/

theorem floatingSum_eq (xs : List ℚ) : Floating.sum xs = xs.sum := by
  rw [List.sum_eq_foldl]
  rfl

/-- What the credits are after a round of the positions `turn` that `payer` paid for. -/
def settled (entries : List (SwrrEntry ℚ)) (turn : List Nat) (payer : Nat) :
    List (SwrrEntry ℚ) :=
  withCredits entries (settle turn.toFinset (weightAt entries) (credit entries) payer)

/-- The table when those in `turn` have gained their weights. -/
def gained (entries : List (SwrrEntry ℚ)) (turn : List Nat) : List (SwrrEntry ℚ) :=
  entries.mapIdx fun pos e =>
    if pos ∈ turn then { e with currentWeight := e.currentWeight + e.effectiveWeight } else e

theorem entryAt_gained {turn : List Nat} {pos : Nat}
    (hturn : pos ∈ turn) (hpos : pos < entries.length) :
    entryAt (gained entries turn) pos =
      { entryAt entries pos with
        currentWeight := credit entries pos + weightAt entries pos } := by
  rw [credit, weightAt, entryAt_eq_getElem hpos,
    entryAt_eq_getElem (by rwa [gained, List.length_mapIdx])]
  simp only [gained, List.getElem_mapIdx]
  rw [if_pos hturn]

theorem modify_gained {turn : List Nat} {payer : Nat} (hpayer : payer ∈ turn) :
    (gained entries turn).modify payer (fun e =>
      { e with currentWeight := e.currentWeight - ∑ k ∈ turn.toFinset, weightAt entries k }) =
        settled entries turn payer := by
  generalize htotal : ∑ k ∈ turn.toFinset, weightAt entries k = total
  apply List.ext_getElem (by simp [gained, settled])
  intro pos hpos hpos'
  have hinside : pos < entries.length := by simpa [gained] using hpos
  simp only [settled, withCredits, List.getElem_modify, List.getElem_mapIdx, settle, gained,
    List.mem_toFinset, credit, htotal]
  rw [entryAt_eq_getElem hinside, weightAt, entryAt_eq_getElem hinside]
  -- those that do not compete neither gain nor pay
  by_cases hturn : pos ∈ turn
  · rw [if_pos hturn, if_pos hturn]
    by_cases hpays : payer = pos
    · rw [if_pos hpays, if_pos hpays.symm]
    · rw [if_neg hpays, if_neg (Ne.symm hpays), sub_zero]
  · have hpays : payer ≠ pos := fun h => hturn (h ▸ hpayer)
    rw [if_neg hturn, if_neg hturn, if_neg hpays, if_neg (Ne.symm hpays), add_zero, sub_zero]

/-- A pick is a round among the positions it is made from, for which the one with the
greatest credit pays. -/
theorem pickAmong_settles (entries : List (SwrrEntry ℚ)) (first : Nat) (rest : List Nat)
    (hnodup : (first :: rest).Nodup) (hlt : ∀ pos ∈ first :: rest, pos < entries.length) :
    ∃ winner ∈ first :: rest,
      (∀ pos ∈ first :: rest, credit entries pos + weightAt entries pos ≤
        credit entries winner + weightAt entries winner) ∧
      pickAmong entries first rest =
        (settled entries (first :: rest) winner, indexAt entries winner) := by
  let cmp := fun a b => Floating.totalCmp (entryAt (gained entries (first :: rest)) a).currentWeight
    (entryAt (gained entries (first :: rest)) b).currentWeight
  have : Std.TransCmp cmp := inferInstanceAs (Std.TransCmp (compareOn fun pos =>
    (entryAt (gained entries (first :: rest)) pos).currentWeight))
  have hwinner : maxByFrom cmp first rest ∈ first :: rest := maxByFrom_mem cmp first rest
  have hat := entryAt_gained hwinner (hlt _ hwinner)
  refine ⟨maxByFrom cmp first rest, hwinner, ?_, ?_⟩
  · intro pos hpos
    have hle := maxByFrom_greatest cmp first rest pos hpos
    have hcompare : compare (entryAt (gained entries (first :: rest)) pos).currentWeight
        (entryAt (gained entries (first :: rest)) (maxByFrom cmp first rest)).currentWeight ≠ .gt :=
      Ordering.isLE_iff_ne_gt.mp hle
    rw [compare_le_iff_le, entryAt_gained hpos (hlt pos hpos), hat] at hcompare
    exact hcompare
  · have htotal : Floating.sum ((first :: rest).map fun pos =>
        (entryAt entries pos).effectiveWeight) =
        ∑ k ∈ (first :: rest).toFinset, weightAt entries k := by
      rw [floatingSum_eq, List.sum_toFinset _ hnodup]
      rfl
    rw [← modify_gained hwinner, ← htotal]
    refine Prod.ext rfl ?_
    show (entryAt (gained entries (first :: rest)) (maxByFrom cmp first rest)).linkIndex = _
    rw [hat]
    rfl

/-! ## Who competes -/

variable {F : Type*}

/-- The positions that pass the caps, in order. -/
theorem checkCaps_sublist [Floating F] (clock : PickClock) (frameLen : UInt64)
    (pos : Nat) (entries : List (SwrrEntry F)) (limits : RateLimits) :
    (checkCaps clock frameLen pos entries limits).1.Sublist (List.range' pos entries.length) := by
  induction entries generalizing pos limits with
  | nil => exact List.Sublist.refl []
  | cons e es ih =>
    rw [List.length_cons, List.range'_succ, checkCaps]
    split
    case h_1 => exact (ih (pos + 1) limits).cons_cons pos
    case h_2 =>
      dsimp only
      split
      · exact (ih (pos + 1) _).cons_cons pos
      · exact (ih (pos + 1) _).cons pos

theorem skipPenalized_sublist [Floating F] (s : Scheduler F) (now : Nat)
    (eligible : List Nat) : (s.skipPenalized now eligible).2.Sublist eligible := by
  unfold skipPenalized
  split
  · exact List.Sublist.refl _
  · dsimp only
    split
    · exact List.Sublist.refl _
    · exact List.filter_sublist

/-- The positions among which the next pick is made: those under their cap and without
penalty, or all if there are none. -/
def competing {F : Type*} [Floating F] (s : Scheduler F) (clock : PickClock)
    (frameLen : UInt64) : List Nat :=
  let capped := checkCaps clock frameLen 0 s.entries s.rateLimits
  match ({ s with rateLimits := capped.2 }.skipPenalized clock.penalty capped.1).2 with
  | [] => List.range s.entries.length
  | first :: rest => first :: rest

theorem competing_sublist [Floating F] (s : Scheduler F) (clock : PickClock)
    (frameLen : UInt64) : (s.competing clock frameLen).Sublist (List.range s.entries.length) := by
  unfold competing
  dsimp only
  split
  case h_1 => exact List.Sublist.refl _
  case h_2 first rest heq =>
    rw [← heq, List.range_eq_range']
    exact (skipPenalized_sublist _ _ _).trans (checkCaps_sublist clock frameLen 0 _ _)

section Competing

variable {s : Scheduler ℚ} {clock : PickClock} {frameLen : UInt64}

theorem nodup_competing (s : Scheduler ℚ) (clock : PickClock) (frameLen : UInt64) :
    (s.competing clock frameLen).Nodup :=
  (competing_sublist s clock frameLen).nodup List.nodup_range

theorem lt_of_mem_competing {pos : Nat} (h : pos ∈ s.competing clock frameLen) :
    pos < s.entries.length :=
  List.mem_range.mp ((competing_sublist s clock frameLen).subset h)

/-- What a pick does, and what it leaves alone. -/
theorem swrrPickUnderCap_settles (hne : s.entries ≠ []) (clock : PickClock) (frameLen : UInt64) :
    ∃ winner ∈ s.competing clock frameLen,
      (∀ pos ∈ s.competing clock frameLen, credit s.entries pos + weightAt s.entries pos ≤
        credit s.entries winner + weightAt s.entries winner) ∧
      (s.swrrPickUnderCap clock frameLen).1.entries =
        settled s.entries (s.competing clock frameLen) winner ∧
      (s.swrrPickUnderCap clock frameLen).2 = indexAt s.entries winner := by
  have hnodup := nodup_competing s clock frameLen
  have hlt : ∀ pos ∈ s.competing clock frameLen, pos < s.entries.length := fun _ h =>
    lt_of_mem_competing h
  unfold swrrPickUnderCap
  unfold competing at hnodup hlt ⊢
  dsimp only at hnodup hlt ⊢
  generalize checkCaps clock frameLen 0 s.entries s.rateLimits = capped at hnodup hlt ⊢
  have hentries := (skipPenalized_spec { s with rateLimits := capped.2 } clock.penalty capped.1).1
  generalize { s with rateLimits := capped.2 }.skipPenalized clock.penalty capped.1 = skipped
    at hentries hnodup hlt ⊢
  rcases skipped with ⟨s', eligible⟩
  dsimp only at hentries hnodup hlt ⊢
  rw [hentries]
  cases eligible with
  | nil =>
    have hpos : 0 < s.entries.length := List.length_pos_iff.mpr hne
    have hall : List.range s.entries.length = 0 :: List.range' 1 (s.entries.length - 1) := by
      obtain ⟨k, hk⟩ := Nat.exists_eq_succ_of_ne_zero hpos.ne'
      rw [hk, List.range_eq_range', List.range'_succ]
      rfl
    dsimp only at hnodup hlt ⊢
    rw [hall] at hnodup hlt ⊢
    obtain ⟨winner, hwinner, hgreatest, hpick⟩ :=
      pickAmong_settles s.entries 0 (List.range' 1 (s.entries.length - 1)) hnodup hlt
    refine ⟨winner, hwinner, hgreatest, ?_, ?_⟩
    · rw [swrrPick, hpick]
    · rw [swrrPick, hpick]
  | cons first rest =>
    dsimp only at hnodup hlt ⊢
    obtain ⟨winner, hwinner, hgreatest, hpick⟩ :=
      pickAmong_settles s.entries first rest hnodup hlt
    refine ⟨winner, hwinner, hgreatest, ?_, ?_⟩
    · rw [hpick]
    · rw [hpick]

end Competing

/-! ## The credits sum to zero -/

/-- The current weights of the table sum to zero. -/
def Balanced (s : Scheduler ℚ) : Prop := (s.entries.map (·.currentWeight)).sum = 0

variable {s : Scheduler ℚ}

theorem Balanced.of_entries {s' : Scheduler ℚ} (h : s.Balanced)
    (hentries : s'.entries.map (·.currentWeight) = s.entries.map (·.currentWeight)) :
    s'.Balanced := by
  rw [Balanced, hentries]
  exact h

theorem Balanced.pick (h : s.Balanced) (hne : s.entries.isEmpty = false) (clock : PickClock)
    (frameLen : UInt64) : (s.swrrPickUnderCap clock frameLen).1.Balanced := by
  obtain ⟨winner, hwinner, -, hentries, -⟩ :=
    swrrPickUnderCap_settles (List.isEmpty_eq_false_iff.mp hne) clock frameLen
  have hturn : (s.competing clock frameLen).toFinset ⊆ positions s.entries := fun pos hpos =>
    Finset.mem_range.mpr (lt_of_mem_competing (List.mem_toFinset.mp hpos))
  rw [Balanced, hentries, ← sum_credit, settled, positions_withCredits]
  rw [Finset.sum_congr rfl fun pos hpos => credit_withCredits s.entries _ hpos,
    sum_settle hturn (Finset.mem_range.mpr (lt_of_mem_competing hwinner)), sum_credit]
  exact h

theorem balanced_refresh (s : Scheduler ℚ) (links : List (Link ℚ)) (cfg : SchedulerConfig ℚ)
    (peerPrimaryIndex : Option Nat) : (s.refresh links cfg peerPrimaryIndex).Balanced := by
  refine List.sum_eq_zero ?_
  intro x hx
  simp only [refresh, List.map_map, List.mem_map] at hx
  obtain ⟨l, -, rfl⟩ := hx
  rfl

theorem balanced_step {n : Nat} (h : s.Balanced) (op : Op ℚ n) : (s.step op).Balanced := by
  have hrescale : ∀ s' : Scheduler ℚ, s'.entries = s.entries → s'.rescale.Balanced := by
    intro s' hentries
    refine h.of_entries ?_
    rw [← hentries, rescale, List.map_map]
    rfl
  cases op with
  | refresh links cfg peerPrimaryIndex => exact balanced_refresh s _ cfg peerPrimaryIndex
  | updateCongestion now counters => exact hrescale _ rfl
  | updateDelivery now samples => exact hrescale _ rfl
  | noteQueueFull now idx => exact h
  | noteSendFailed now idx => exact h
  | selectFast clock frameLen =>
    rw [step_selectFast]
    split
    case isTrue hready => exact h.pick hready.2.2 clock frameLen
    case isFalse => exact h
  | select links clock frameLen =>
    rw [step_select]
    split
    case isTrue hready => exact h.pick hready.2.2 clock frameLen
    case isFalse => exact h

theorem balanced_run {n : Nat} (h : s.Balanced) (ops : List (Op ℚ n)) : (s.run ops).Balanced := by
  induction ops generalizing s with
  | nil => exact h
  | cons op ops ih => exact ih (balanced_step h op)

/-! ## Picks and refreshes -/

end Scheduler

/-- What changes the current weights. -/
inductive Move (F : Type*) where
  | pick (clock : Scheduler.PickClock) (frameLen : UInt64)
  | refresh (links : List (Link F)) (cfg : SchedulerConfig F) (peerPrimaryIndex : Option Nat)

namespace Scheduler

/-- A move, and the link that was picked. -/
def move {F : Type*} [Floating F] (s : Scheduler F) : Move F → Scheduler F × Option Nat
  | .pick clock frameLen =>
      let (s, idx) := s.swrrPickUnderCap clock frameLen
      (s, some idx)
  | .refresh links cfg peerPrimaryIndex => (s.refresh links cfg peerPrimaryIndex, none)

/-- The links picked in a run, in order. -/
def picked {F : Type*} [Floating F] (s : Scheduler F) (moves : List (Move F)) : List Nat :=
  (Mealy.log move s moves).filterMap (·.2)

/-- What the refreshes of a run come to, each counted as `f` of the state it finds. -/
def overRefreshes {M : Type} [Zero M] [Add M] (f : Scheduler ℚ → M) (s : Scheduler ℚ) :
    List (Move ℚ) → M
  | [] => 0
  | .pick clock frameLen :: moves => overRefreshes f (s.move (.pick clock frameLen)).1 moves
  | .refresh links cfg peerPrimaryIndex :: moves =>
      f s + overRefreshes f (s.move (.refresh links cfg peerPrimaryIndex)).1 moves

/-- The sum of the credits that the refreshes of a run threw away. -/
def discarded (s : Scheduler ℚ) (moves : List (Move ℚ)) (pos : Nat) : ℚ :=
  s.overRefreshes (fun s => credit s.entries pos) moves

/-- How many refreshes of a run find a current weight other than zero. -/
def losses (s : Scheduler ℚ) (moves : List (Move ℚ)) : Nat :=
  s.overRefreshes (fun s => if ∀ e ∈ s.entries, e.currentWeight = 0 then 0 else 1) moves

/-- No link is over its cap for this frame and no penalty is active. -/
structure Unrestricted {F : Type*} [Floating F] (s : Scheduler F) (clock : PickClock)
    (frameLen : UInt64) : Prop where
  caps : (checkCaps clock frameLen 0 s.entries s.rateLimits).1 = List.range s.entries.length
  penalties : ∀ p ∈ s.penalized, p.2 ≤ clock.penalty

instance {F : Type*} [Floating F] (s : Scheduler F) (clock : PickClock) (frameLen : UInt64) :
    Decidable (s.Unrestricted clock frameLen) :=
  decidable_of_iff ((checkCaps clock frameLen 0 s.entries s.rateLimits).1 =
      List.range s.entries.length ∧ ∀ p ∈ s.penalized, p.2 ≤ clock.penalty)
    ⟨fun h => ⟨h.1, h.2⟩, fun h => ⟨h.caps, h.penalties⟩⟩

theorem Unrestricted.competing_eq {F : Type*} [Floating F] {s : Scheduler F} {clock : PickClock}
    {frameLen : UInt64} (h : s.Unrestricted clock frameLen) :
    s.competing clock frameLen = List.range s.entries.length := by
  have hlapsed : s.penalized.filter (fun p => decide (clock.penalty < p.2)) = [] := by
    rw [List.filter_eq_nil_iff]
    intro p hp
    simpa using h.penalties p hp
  have hskip : ({ s with
      rateLimits := (checkCaps clock frameLen 0 s.entries s.rateLimits).2 }.skipPenalized
        clock.penalty (checkCaps clock frameLen 0 s.entries s.rateLimits).1).2 =
      List.range s.entries.length := by
    unfold skipPenalized
    split
    · exact h.caps
    · dsimp only
      rw [if_pos (.inl hlapsed)]
      exact h.caps
  unfold competing
  dsimp only
  rw [hskip]
  split
  case h_1 heq => rfl
  case h_2 first rest heq => exact heq.symm

/-! ## Shares -/

/-- The links of a table with their weights. -/
def shares (entries : List (SwrrEntry ℚ)) : List (Nat × ℚ) :=
  entries.map fun e => (e.linkIndex, e.effectiveWeight)

section SameShares

variable {entries entries' : List (SwrrEntry ℚ)}

theorem length_eq_of_shares (h : shares entries = shares entries') :
    entries.length = entries'.length := by
  have hlength := congrArg List.length h
  simpa [shares] using hlength

theorem positions_eq_of_shares (h : shares entries = shares entries') :
    positions entries = positions entries' := by
  rw [positions, positions, length_eq_of_shares h]

theorem shares_getD (entries : List (SwrrEntry ℚ)) (pos : Nat) :
    (shares entries).getD pos (0, 0) = (indexAt entries pos, weightAt entries pos) := by
  rcases Nat.lt_or_ge pos entries.length with h | h
  · rw [List.getD_eq_getElem _ _ (by simpa [shares] using h), indexAt, weightAt,
      entryAt_eq_getElem h]
    exact List.getElem_map _
  · rw [List.getD_eq_default _ _ (by simpa [shares] using h), indexAt, weightAt, entryAt,
      List.getD_eq_default _ _ h]
    rfl

theorem weightAt_eq_of_shares (h : shares entries = shares entries') :
    weightAt entries = weightAt entries' := by
  funext pos
  have hpos := congrArg (fun t => (t.getD pos (0, 0)).2) h
  simpa only [shares_getD] using hpos

theorem indexAt_eq_of_shares (h : shares entries = shares entries') :
    indexAt entries = indexAt entries' := by
  funext pos
  have hpos := congrArg (fun t => (t.getD pos (0, 0)).1) h
  simpa only [shares_getD] using hpos

theorem shares_withCredits (entries : List (SwrrEntry ℚ)) (credits : Nat → ℚ) :
    shares (withCredits entries credits) = shares entries := by
  apply List.ext_getElem (by simp [shares])
  intro pos hpos hpos'
  simp only [shares, withCredits, List.getElem_map, List.getElem_mapIdx]

end SameShares

/-- A scheduler that began with the table `base`, all credits zero, when the positions
`payers` have won in turn and the credits `lost` were thrown away. -/
structure Split (base : List (SwrrEntry ℚ)) (lost : Nat → ℚ) (payers : List Nat)
    (s : Scheduler ℚ) : Prop where
  table : shares s.entries = shares base
  inside : ∀ pos ∈ payers, pos ∈ positions base
  level : Level (positions base) (weightAt base) (credit s.entries)
  account : Account (positions base) (weightAt base) (credit s.entries) lost payers

section Split

variable {base : List (SwrrEntry ℚ)} {lost : Nat → ℚ} {payers : List Nat} {s : Scheduler ℚ}

/-- The credits only matter at positions of the table. -/
theorem level_congr {credits credits' : Nat → ℚ}
    (h : Level (positions base) (weightAt base) credits)
    (heq : ∀ pos ∈ positions base, credits' pos = credits pos) :
    Level (positions base) (weightAt base) credits' where
  sum := by rw [Finset.sum_congr rfl heq, h.sum]
  above := fun pos hpos => by rw [heq pos hpos]; exact h.above pos hpos

theorem account_congr {credits credits' : Nat → ℚ}
    (h : Account (positions base) (weightAt base) credits lost payers)
    (heq : ∀ pos ∈ positions base, credits' pos = credits pos) :
    Account (positions base) (weightAt base) credits' lost payers where
  balance := fun pos hpos => by rw [heq pos hpos]; exact h.balance pos hpos

theorem Split.pick (h : Split base lost payers s) (hne : base ≠ [])
    (hweight : ∀ pos ∈ positions base, 0 < weightAt base pos) {clock : PickClock}
    {frameLen : UInt64} (hfree : s.Unrestricted clock frameLen) :
    ∃ winner, (s.swrrPickUnderCap clock frameLen).2 = indexAt base winner ∧
      Split base lost (payers ++ [winner]) (s.swrrPickUnderCap clock frameLen).1 := by
  have hlength := length_eq_of_shares h.table
  have hentries : s.entries ≠ [] := by
    rw [← List.length_pos_iff, hlength, List.length_pos_iff]
    exact hne
  obtain ⟨winner, hwinner, hgreatest, hsettled, hidx⟩ :=
    swrrPickUnderCap_settles hentries clock frameLen
  -- all positions compete
  rw [hfree.competing_eq] at hwinner hgreatest hsettled
  have hall : (List.range s.entries.length).toFinset = positions base := by
    rw [List.toFinset_range, hlength, positions]
  rw [settled, hall, weightAt_eq_of_shares h.table] at hsettled
  rw [weightAt_eq_of_shares h.table] at hgreatest
  have hmem : winner ∈ positions base := by
    rw [← hall]
    exact List.mem_toFinset.mpr hwinner
  have hcredit : ∀ pos ∈ positions base,
      credit (s.swrrPickUnderCap clock frameLen).1.entries pos =
        settle (positions base) (weightAt base) (credit s.entries) winner pos := by
    intro pos hpos
    rw [hsettled, credit_withCredits]
    rwa [positions_eq_of_shares h.table]
  refine ⟨winner, by rw [hidx, indexAt_eq_of_shares h.table], ?_, ?_, ?_, ?_⟩
  · rw [hsettled, shares_withCredits, h.table]
  · intro pos hpos
    rcases List.mem_append.mp hpos with hpos | hpos
    · exact h.inside pos hpos
    · rw [List.mem_singleton.mp hpos]
      exact hmem
  · refine level_congr (h.level.settle hweight hmem ?_) hcredit
    intro pos hpos
    rw [← hall] at hpos
    exact hgreatest pos (List.mem_toFinset.mp hpos)
  · exact account_congr (h.account.settle winner) hcredit

end Split

/-! ## Runs -/

/-- A move after which the table is the same but for the credits, a pick being one that all
links compete for. -/
def Fair (base : List (SwrrEntry ℚ)) (s : Scheduler ℚ) : Move ℚ → Prop
  | .pick clock frameLen => s.Unrestricted clock frameLen
  | .refresh links cfg peerPrimaryIndex =>
      shares (s.refresh links cfg peerPrimaryIndex).entries = shares base

instance (base : List (SwrrEntry ℚ)) (s : Scheduler ℚ) : (m : Move ℚ) → Decidable (Fair base s m)
  | .pick clock frameLen => inferInstanceAs (Decidable (s.Unrestricted clock frameLen))
  | .refresh links cfg peerPrimaryIndex => inferInstanceAs
      (Decidable (shares (s.refresh links cfg peerPrimaryIndex).entries = shares base))

/-- A table as a refresh builds it. -/
structure Fresh (entries : List (SwrrEntry ℚ)) : Prop where
  zero : ∀ e ∈ entries, e.currentWeight = 0
  distinct : (indices entries).Nodup

theorem Fresh.credit_eq {entries : List (SwrrEntry ℚ)} (h : Fresh entries) {pos : Nat}
    (hpos : pos < entries.length) : credit entries pos = 0 := by
  rw [credit, entryAt_eq_getElem hpos]
  exact h.zero _ (List.getElem_mem hpos)

theorem nodup_scored {F : Type*} [Floating F] (links : List (Link F)) : (scored links).Nodup := by
  have hsub : (scored links).Sublist (List.range links.length) := by
    have hfilter : (upIndices links).Sublist (links.zipIdx.map fun l => (l.2, score l.1)) :=
      List.filter_sublist
    have hmap := hfilter.map Prod.fst
    rw [List.map_map] at hmap
    have hrange : links.zipIdx.map (Prod.fst ∘ fun l => (l.2, score l.1)) =
        List.range links.length := by
      show links.zipIdx.map Prod.snd = _
      rw [List.zipIdx_map_snd, List.range_eq_range']
    rwa [hrange] at hmap
  exact hsub.nodup List.nodup_range

theorem fresh_refresh (s : Scheduler ℚ) (links : List (Link ℚ)) (cfg : SchedulerConfig ℚ)
    (peerPrimaryIndex : Option Nat) : Fresh (s.refresh links cfg peerPrimaryIndex).entries where
  zero := by
    intro e he
    simp only [refresh, List.mem_map] at he
    obtain ⟨l, -, rfl⟩ := he
    rfl
  distinct := by
    rw [indices_refresh]
    exact nodup_scored links

section Runs

variable {base : List (SwrrEntry ℚ)}

/-- A refresh that computes the same weights again. -/
theorem Split.refresh {lost : Nat → ℚ} {payers : List Nat} {s : Scheduler ℚ}
    (h : Split base lost payers s) (hweight : ∀ pos ∈ positions base, 0 < weightAt base pos)
    {links : List (Link ℚ)} {cfg : SchedulerConfig ℚ} {peerPrimaryIndex : Option Nat}
    (htable : shares (s.refresh links cfg peerPrimaryIndex).entries = shares base) :
    Split base (fun pos => lost pos + credit s.entries pos) payers
      (s.refresh links cfg peerPrimaryIndex) := by
  have hzero : ∀ pos ∈ positions base,
      credit (s.refresh links cfg peerPrimaryIndex).entries pos = 0 := by
    intro pos hpos
    rw [← positions_eq_of_shares htable] at hpos
    exact (fresh_refresh s links cfg peerPrimaryIndex).credit_eq (Finset.mem_range.mp hpos)
  exact ⟨htable, h.inside, .of_zero hweight hzero, h.account.reset hzero⟩

theorem split_run (hne : base ≠ []) (hweight : ∀ pos ∈ positions base, 0 < weightAt base pos)
    {moves : List (Move ℚ)} {history : List (Move ℚ × Option Nat)} {lost : Nat → ℚ}
    {payers : List Nat} {s : Scheduler ℚ} (h : Split base lost payers s)
    (hfair : Mealy.Along move (fun _ => Fair base) history s moves) :
    ∃ payers', s.picked moves = payers'.map (indexAt base) ∧
      Split base (fun pos => lost pos + s.discarded moves pos) (payers ++ payers')
        (Mealy.run move s moves) := by
  induction moves generalizing history lost payers s with
  | nil =>
    have hlost : (fun pos => lost pos + s.discarded [] pos) = lost :=
      funext fun pos => add_zero (lost pos)
    refine ⟨[], rfl, ?_⟩
    rw [hlost, List.append_nil]
    exact h
  | cons m moves ih =>
    obtain ⟨hm, hmoves⟩ := hfair
    cases m with
    | pick clock frameLen =>
      obtain ⟨winner, hidx, hnext⟩ := h.pick hne hweight hm
      obtain ⟨payers', hpicked, hrun⟩ := ih hnext hmoves
      refine ⟨winner :: payers', ?_, ?_⟩
      · rw [List.map_cons, ← hpicked, ← hidx]
        rfl
      · rw [List.append_cons]
        exact hrun
    | refresh links cfg peerPrimaryIndex =>
      obtain ⟨payers', hpicked, hrun⟩ := ih (h.refresh hweight hm) hmoves
      have hlost : (fun pos => lost pos +
          s.discarded (.refresh links cfg peerPrimaryIndex :: moves) pos) = fun pos =>
          lost pos + credit s.entries pos +
            (s.refresh links cfg peerPrimaryIndex).discarded moves pos :=
        funext fun pos => (add_assoc ..).symm
      refine ⟨payers', hpicked, ?_⟩
      rw [hlost]
      exact hrun

variable {pos : Nat}

/-- A refresh that finds a credit throws away no more than smooth round robin lets it rise or
fall to, and the others throw away nothing. -/
theorem abs_discarded_le (hne : base ≠ []) (hweight : ∀ pos ∈ positions base, 0 < weightAt base pos)
    {moves : List (Move ℚ)} {history : List (Move ℚ × Option Nat)} {lost : Nat → ℚ}
    {payers : List Nat} {s : Scheduler ℚ} (h : Split base lost payers s)
    (hfair : Mealy.Along move (fun _ => Fair base) history s moves) (hpos : pos ∈ positions base) :
    |s.discarded moves pos| ≤ s.losses moves *
      ((∑ k ∈ positions base, weightAt base k) * max 1 (((positions base).card : ℚ) - 1)) := by
  induction moves generalizing history lost payers s with
  | nil => simp [discarded, losses, overRefreshes]
  | cons m moves ih =>
    obtain ⟨hm, hmoves⟩ := hfair
    cases m with
    | pick clock frameLen =>
      obtain ⟨winner, -, hnext⟩ := h.pick hne hweight hm
      exact ih hnext hmoves
    | refresh links cfg peerPrimaryIndex =>
      have hrest := ih (h.refresh hweight hm) hmoves
      have hcredit := (h.level.abs_credit_lt hweight hpos).le
      have hlength := Finset.mem_range.mp hpos
      rw [← length_eq_of_shares h.table] at hlength
      simp only [discarded, losses, overRefreshes, move] at hrest ⊢
      split
      case isTrue hsettled =>
        have hzero : credit s.entries pos = 0 := by
          rw [credit, entryAt_eq_getElem hlength]
          exact hsettled _ (List.getElem_mem hlength)
        rwa [hzero, zero_add, Nat.zero_add]
      case isFalse =>
        push_cast
        rw [add_mul, one_mul]
        exact (abs_add_le _ _).trans (add_le_add hcredit hrest)

theorem indexAt_inj (hdistinct : (indices base).Nodup) {pos' : Nat} (hpos : pos ∈ positions base)
    (hpos' : pos' ∈ positions base) (heq : indexAt base pos = indexAt base pos') : pos = pos' := by
  have hlt := Finset.mem_range.mp hpos
  have hlt' := Finset.mem_range.mp hpos'
  rw [indexAt, indexAt, entryAt_eq_getElem hlt, entryAt_eq_getElem hlt'] at heq
  refine (List.getElem?_inj (by rwa [indices, List.length_map]) hdistinct).mp ?_
  rw [indices, List.getElem?_map, List.getElem?_map, List.getElem?_eq_getElem hlt,
    List.getElem?_eq_getElem hlt', Option.map_some, Option.map_some, heq]

theorem count_indexAt (hdistinct : (indices base).Nodup) {payers : List Nat}
    (hinside : ∀ pos ∈ payers, pos ∈ positions base) (hpos : pos ∈ positions base) :
    (payers.map (indexAt base)).count (indexAt base pos) = payers.count pos := by
  induction payers with
  | nil => rfl
  | cons payer payers ih =>
    rw [List.map_cons, List.count_cons, List.count_cons,
      ih fun q hq => hinside q (List.mem_cons_of_mem payer hq)]
    have hiff : indexAt base payer = indexAt base pos ↔ payer = pos :=
      ⟨indexAt_inj hdistinct (hinside payer List.mem_cons_self) hpos, congrArg _⟩
    simp only [beq_iff_eq, hiff]

/-- The law of a run: each link's share of the picks, up to what refreshes threw away, and how
much that can be. -/
theorem share_run {s : Scheduler ℚ} (hfresh : Fresh s.entries)
    (hweight : ∀ e ∈ s.entries, 0 < e.effectiveWeight) {moves : List (Move ℚ)}
    (hfair : Mealy.Along move (fun _ => Fair s.entries) [] s moves)
    (hpos : pos < s.entries.length) :
    |((s.picked moves).count (indexAt s.entries pos) : ℚ) -
        (s.picked moves).length * weightAt s.entries pos / (s.entries.map (·.effectiveWeight)).sum +
        s.discarded moves pos / (s.entries.map (·.effectiveWeight)).sum| <
      max 1 ((s.entries.length : ℚ) - 1) ∧
    |s.discarded moves pos / (s.entries.map (·.effectiveWeight)).sum| ≤
      s.losses moves * max 1 ((s.entries.length : ℚ) - 1) := by
  have hmem : pos ∈ positions s.entries := Finset.mem_range.mpr hpos
  have hne : s.entries ≠ [] := List.length_pos_iff.mp (by omega)
  have hweight' : ∀ pos ∈ positions s.entries, 0 < weightAt s.entries pos := by
    intro pos hpos
    rw [weightAt, entryAt_eq_getElem (Finset.mem_range.mp hpos)]
    exact hweight _ (List.getElem_mem _)
  have hzero : ∀ pos ∈ positions s.entries, credit s.entries pos = 0 := fun pos hpos =>
    hfresh.credit_eq (Finset.mem_range.mp hpos)
  have hsplit : Split s.entries (fun _ => 0) [] s :=
    ⟨rfl, fun _ h => (nomatch h), .of_zero hweight' hzero, .of_zero hzero⟩
  obtain ⟨payers, hpicked, hrun⟩ := split_run hne hweight' hsplit hfair
  rw [List.nil_append] at hrun
  have hshare := hrun.account.share hrun.level hweight' hmem
  rw [positions, Finset.card_range, ← positions, zero_add, sum_weightAt] at hshare
  have hdiscarded := abs_discarded_le hne hweight' hsplit hfair hmem
  have htotal := sum_weight_pos hweight' hmem
  rw [positions, Finset.card_range, ← positions, sum_weightAt] at hdiscarded
  rw [sum_weightAt] at htotal
  constructor
  · rwa [hpicked, List.length_map, count_indexAt hfresh.distinct hrun.inside hmem]
  · rw [abs_div, abs_of_pos htotal, div_le_iff₀ htotal]
    linarith

end Runs

/-! ## Between two refreshes -/

theorem picked_picks (s : Scheduler ℚ) (picks : List (PickClock × UInt64)) :
    (s.picked (picks.map fun p => .pick p.1 p.2)).length = picks.length ∧
      ∀ pos, s.discarded (picks.map fun p => .pick p.1 p.2) pos = 0 := by
  induction picks generalizing s with
  | nil => exact ⟨rfl, fun _ => rfl⟩
  | cons p picks ih =>
    obtain ⟨hlength, hdiscarded⟩ := ih (s.swrrPickUnderCap p.1 p.2).1
    constructor
    · rw [List.length_cons, ← hlength]
      rfl
    · exact hdiscarded

/-- A refresh leaves all current weights at zero and every link at most once in the table.
From any such table with positive weights, and as long as no cap and no penalty keeps a link
from competing, after any number of picks each link has had its share up to less than
`max 1 (N - 1)`.  And in every state that any calls lead to, the current weights sum to
zero. -/
theorem picks_follow_weights :
    (∀ (s : Scheduler ℚ) (links : List (Link ℚ)) (cfg : SchedulerConfig ℚ)
      (peerPrimaryIndex : Option Nat), Fresh (s.refresh links cfg peerPrimaryIndex).entries) ∧
    (∀ (s : Scheduler ℚ) (picks : List (PickClock × UInt64)), Fresh s.entries →
      (∀ e ∈ s.entries, 0 < e.effectiveWeight) →
      Mealy.Along move (fun _ => Fair s.entries) [] s (picks.map fun p => .pick p.1 p.2) →
      ∀ e ∈ s.entries,
        |((s.picked (picks.map fun p => .pick p.1 p.2)).count e.linkIndex : ℚ) -
            picks.length * e.effectiveWeight / (s.entries.map (·.effectiveWeight)).sum| <
          max 1 ((s.entries.length : ℚ) - 1)) ∧
    ∀ (n : Nat) (ops : List (Op ℚ n)),
      (((new : Scheduler ℚ).run ops).entries.map (·.currentWeight)).sum = 0 := by
  refine ⟨fresh_refresh, ?_, ?_⟩
  · intro s picks hfresh hweight hfree e he
    obtain ⟨pos, hpos, rfl⟩ := List.mem_iff_getElem.mp he
    obtain ⟨hlength, hdiscarded⟩ := picked_picks s picks
    have hshare := (share_run hfresh hweight hfree hpos).1
    rw [hdiscarded, zero_div, add_zero, hlength, indexAt, weightAt,
      entryAt_eq_getElem hpos] at hshare
    exact hshare
  · intro n ops
    exact balanced_run (s := new) rfl ops

/-- Two uncapped links of weights 3 and 1, just refreshed. -/
def threeToOne : Scheduler ℚ :=
  { (new : Scheduler ℚ) with entries := [⟨0, 3, 3, 0, none⟩, ⟨1, 1, 1, 0, none⟩] }

def atZero : PickClock := ⟨fun _ => 0, fun _ => 0, fun _ => 0, 0⟩

/-- Of six picks the first link has between three and a half and five and a half. -/
theorem picks_follow_weights_three_to_one :
    |((threeToOne.picked ((List.replicate 6 (atZero, (1200 : UInt64))).map
        fun p => Move.pick p.1 p.2)).count 0 : ℚ) - 9 / 2| < 1 := by
  have hshare := picks_follow_weights.2.1 threeToOne (List.replicate 6 (atZero, (1200 : UInt64)))
    ⟨by decide +kernel, by decide +kernel⟩ (by decide +kernel) (by decide +kernel)
    ⟨0, 3, 3, 0, none⟩ List.mem_cons_self
  have hsum : (threeToOne.entries.map (·.effectiveWeight)).sum = 4 := by decide +kernel
  have hlength : ((List.replicate 6 (atZero, (1200 : UInt64))).length : ℚ) = 6 := by
    rw [List.length_replicate]
    rfl
  have hbound : max 1 ((threeToOne.entries.length : ℚ) - 1) = 1 := by decide +kernel
  have hshareOf : (6 : ℚ) * 3 / 4 = 9 / 2 := by norm_num
  rw [hsum, hlength, hbound] at hshare
  dsimp only at hshare
  rwa [hshareOf] at hshare

/-! ## Across refreshes -/

/-- Neither the primary's choice nor a pick touches what the factors are made of. -/
structure SameFactors (s s' : Scheduler ℚ) : Prop where
  congestion : s'.congestion = s.congestion
  delivery : s'.delivery = s.delivery

theorem SameFactors.linkFactor_eq {s s' : Scheduler ℚ} (h : SameFactors s s') :
    s'.linkFactor = s.linkFactor := by
  funext idx
  unfold linkFactor congestionFactor deliveryFactor
  rw [h.congestion, h.delivery]

theorem sameFactors_reviewPrimary (s : Scheduler ℚ) (ups : List (Nat × ℚ)) (upThreshold : UInt32)
    (primaryScore : ℚ) : SameFactors s (s.reviewPrimary ups upThreshold primaryScore) ∧
      (s.reviewPrimary ups upThreshold primaryScore).penalized = s.penalized := by
  unfold reviewPrimary
  split
  · exact ⟨⟨rfl, rfl⟩, rfl⟩
  · split
    · split
      · split
        · dsimp only
          split
          · exact ⟨⟨rfl, rfl⟩, rfl⟩
          · exact ⟨⟨rfl, rfl⟩, rfl⟩
        · exact ⟨⟨rfl, rfl⟩, rfl⟩
      · exact ⟨⟨rfl, rfl⟩, rfl⟩
    · exact ⟨⟨rfl, rfl⟩, rfl⟩

theorem sameFactors_refreshFromScores (s : Scheduler ℚ) (ups : List (Nat × ℚ))
    (cfg : SchedulerConfig ℚ) (peerPrimaryIndex : Option Nat) :
    SameFactors s (s.refreshFromScores ups cfg peerPrimaryIndex) ∧
      (s.refreshFromScores ups cfg peerPrimaryIndex).penalized = s.penalized := by
  unfold refreshFromScores
  split
  · exact ⟨⟨rfl, rfl⟩, rfl⟩
  · split
    · exact ⟨⟨rfl, rfl⟩, rfl⟩
    · dsimp only
      split
      · exact ⟨⟨rfl, rfl⟩, rfl⟩
      · exact sameFactors_reviewPrimary s ups _ _

theorem shares_refresh (s : Scheduler ℚ) (links : List (Link ℚ)) (cfg : SchedulerConfig ℚ)
    (peerPrimaryIndex : Option Nat) : shares (s.refresh links cfg peerPrimaryIndex).entries =
      (upIndices links).map fun l => (l.1, l.2 * s.linkFactor l.1) := by
  have hfactor :=
    (sameFactors_refreshFromScores s (upIndices links) cfg peerPrimaryIndex).1.linkFactor_eq
  simp only [refresh, shares, List.map_map, hfactor]
  rfl

/-- No cap, no penalty, and the factors of `s₀`. -/
structure Steady (s₀ s : Scheduler ℚ) : Prop where
  factors : SameFactors s₀ s
  penalized : s.penalized = []
  uncapped : ∀ e ∈ s.entries, e.bandwidthCapMbps = none

theorem checkCaps_uncapped {entries : List (SwrrEntry ℚ)}
    (h : ∀ e ∈ entries, e.bandwidthCapMbps = none) (clock : PickClock) (frameLen : UInt64)
    (pos : Nat) (limits : RateLimits) :
    (checkCaps clock frameLen pos entries limits).1 = List.range' pos entries.length := by
  induction entries generalizing pos limits with
  | nil => rfl
  | cons e es ih =>
    rw [checkCaps, h e List.mem_cons_self, List.length_cons, List.range'_succ]
    dsimp only
    rw [ih (fun e' he' => h e' (List.mem_cons_of_mem e he')) (pos + 1) limits]

section Steady

variable {s₀ s : Scheduler ℚ}

theorem Steady.unrestricted (h : Steady s₀ s) (clock : PickClock) (frameLen : UInt64) :
    s.Unrestricted clock frameLen where
  caps := by rw [checkCaps_uncapped h.uncapped, List.range_eq_range']
  penalties := by
    rw [h.penalized]
    exact fun _ hp => nomatch hp

theorem Steady.pick (h : Steady s₀ s) (hne : s.entries ≠ []) (clock : PickClock)
    (frameLen : UInt64) : Steady s₀ (s.swrrPickUnderCap clock frameLen).1 := by
  have hrest : SameFactors s (s.swrrPickUnderCap clock frameLen).1 ∧
      (s.swrrPickUnderCap clock frameLen).1.penalized = [] := by
    unfold swrrPickUnderCap
    dsimp only
    unfold skipPenalized
    rw [if_pos h.penalized]
    exact ⟨⟨rfl, rfl⟩, h.penalized⟩
  refine ⟨⟨?_, ?_⟩, hrest.2, ?_⟩
  · rw [hrest.1.congestion, h.factors.congestion]
  · rw [hrest.1.delivery, h.factors.delivery]
  · obtain ⟨winner, -, -, hentries, -⟩ := swrrPickUnderCap_settles hne clock frameLen
    rw [hentries]
    intro e he
    obtain ⟨pos, hpos, rfl⟩ := List.mem_iff_getElem.mp he
    simp only [settled, withCredits, List.getElem_mapIdx]
    exact h.uncapped _ (List.getElem_mem _)

theorem steady_refresh {links : List (Link ℚ)} (hfactors : SameFactors s₀ s)
    (hpenalized : s.penalized = []) (hlinks : ∀ l ∈ links, l.bandwidthCapMbps = none)
    (cfg : SchedulerConfig ℚ) (peerPrimaryIndex : Option Nat) :
    Steady s₀ (s.refresh links cfg peerPrimaryIndex) := by
  obtain ⟨hsame, hpen⟩ :=
    sameFactors_refreshFromScores s (upIndices links) cfg peerPrimaryIndex
  refine ⟨⟨hsame.congestion.trans hfactors.congestion, hsame.delivery.trans hfactors.delivery⟩,
    hpen.trans hpenalized, ?_⟩
  intro e he
  simp only [refresh, List.mem_map] at he
  obtain ⟨l, -, rfl⟩ := he
  dsimp only
  cases hlink : links[l.1]? with
  | none => rfl
  | some link => exact hlinks link (List.mem_of_getElem? hlink)

end Steady

end Scheduler

/-- A refresh that finds the same scores as with `links`, and no caps; a pick is any. -/
def Move.Repeats (links : List (Link ℚ)) : Move ℚ → Prop
  | .pick .. => True
  | .refresh links' _ _ => Scheduler.upIndices links' = Scheduler.upIndices links ∧
      ∀ l ∈ links', l.bandwidthCapMbps = none

namespace Scheduler

theorem fair_of_repeats {s₀ s : Scheduler ℚ} {links : List (Link ℚ)} {base : List (SwrrEntry ℚ)}
    (hne : base ≠ [])
    (hbase : shares base = (upIndices links).map fun l => (l.1, l.2 * s₀.linkFactor l.1))
    (hsteady : Steady s₀ s) (htable : shares s.entries = shares base) {moves : List (Move ℚ)}
    (hmoves : ∀ m ∈ moves, m.Repeats links) (history : List (Move ℚ × Option Nat)) :
    Mealy.Along move (fun _ => Fair base) history s moves := by
  induction moves generalizing s history with
  | nil => trivial
  | cons m moves ih =>
    have hrest := fun m' hm' => hmoves m' (List.mem_cons_of_mem m hm')
    have hm := hmoves m List.mem_cons_self
    cases m with
    | pick clock frameLen =>
      have hentries : s.entries ≠ [] := by
        rw [← List.length_pos_iff, length_eq_of_shares htable, List.length_pos_iff]
        exact hne
      refine ⟨hsteady.unrestricted clock frameLen, ih (hsteady.pick hentries _ _) ?_ hrest _⟩
      obtain ⟨winner, -, -, hsettled, -⟩ := swrrPickUnderCap_settles hentries clock frameLen
      show shares (s.swrrPickUnderCap clock frameLen).1.entries = _
      rw [hsettled, settled, shares_withCredits, htable]
    | refresh links' cfg peerPrimaryIndex =>
      have hagain : shares (s.refresh links' cfg peerPrimaryIndex).entries = shares base := by
        rw [shares_refresh, hm.1, hsteady.factors.linkFactor_eq, hbase]
      exact ⟨hagain, ih (steady_refresh hsteady.factors hsteady.penalized hm.2 _ _) hagain
        hrest _⟩

/-- How much more often than its share the link at a position was picked. -/
def deviation (s : Scheduler ℚ) (moves : List (Move ℚ)) (pos : Nat) : ℚ :=
  (s.picked moves).count (indexAt s.entries pos) -
    (s.picked moves).length * weightAt s.entries pos / (s.entries.map (·.effectiveWeight)).sum

section Refreshed

variable {s : Scheduler ℚ} {links : List (Link ℚ)}

theorem weight_pos_of_refresh (hfactor : ∀ l ∈ upIndices links, 0 < s.linkFactor l.1)
    (cfg : SchedulerConfig ℚ) (peerPrimaryIndex : Option Nat) :
    ∀ e ∈ (s.refresh links cfg peerPrimaryIndex).entries, 0 < e.effectiveWeight := by
  intro e he
  have hshare : (e.linkIndex, e.effectiveWeight) ∈
      shares (s.refresh links cfg peerPrimaryIndex).entries :=
    List.mem_map_of_mem he
  rw [shares_refresh] at hshare
  obtain ⟨l, hl, heq⟩ := List.mem_map.mp hshare
  have hscore : 0 < l.2 := of_decide_eq_true (List.mem_filter.mp hl).2
  rw [← (Prod.mk.inj heq).2]
  exact mul_pos hscore (hfactor l hl)

end Refreshed

/-- For links with constant positive scores and factors, without caps and penalties, and any run
of picks and refreshes in which at most `k` refreshes find a current weight other than zero: the
picks of each link stay within `(k + 1) * max 1 (N - 1)` of its share, however many they are. -/
theorem refresh_split_bounded (s : Scheduler ℚ) (links : List (Link ℚ)) (cfg : SchedulerConfig ℚ)
    (peerPrimaryIndex : Option Nat) (hpenalized : s.penalized = [])
    (hcaps : ∀ l ∈ links, l.bandwidthCapMbps = none)
    (hfactor : ∀ l ∈ upIndices links, 0 < s.linkFactor l.1) (k : Nat) (moves : List (Move ℚ))
    (hmoves : ∀ m ∈ moves, m.Repeats links)
    (hlosses : (s.refresh links cfg peerPrimaryIndex).losses moves ≤ k) :
    ∀ pos < (s.refresh links cfg peerPrimaryIndex).entries.length,
      |(s.refresh links cfg peerPrimaryIndex).deviation moves pos| <
        (k + 1) * max 1 (((s.refresh links cfg peerPrimaryIndex).entries.length : ℚ) - 1) := by
  intro pos hpos
  obtain ⟨hlaw, hdiscarded⟩ := share_run (fresh_refresh s links cfg peerPrimaryIndex)
    (weight_pos_of_refresh hfactor cfg peerPrimaryIndex)
    (fair_of_repeats (List.length_pos_iff.mp (by omega))
      (shares_refresh s links cfg peerPrimaryIndex)
      (steady_refresh ⟨rfl, rfl⟩ hpenalized hcaps cfg peerPrimaryIndex) rfl hmoves []) hpos
  generalize s.refresh links cfg peerPrimaryIndex = start at hlosses hlaw hdiscarded ⊢
  generalize start.discarded moves pos / (start.entries.map (·.effectiveWeight)).sum = lost
    at hlaw hdiscarded
  have hslack : (0 : ℚ) ≤ max 1 ((start.entries.length : ℚ) - 1) :=
    zero_le_one.trans (le_max_left _ _)
  have hlost : |lost| ≤ k * max 1 ((start.entries.length : ℚ) - 1) :=
    hdiscarded.trans (mul_le_mul_of_nonneg_right (Nat.cast_le.mpr hlosses) hslack)
  calc |start.deviation moves pos| = |start.deviation moves pos + lost - lost| := by
        rw [add_sub_cancel_right]
    _ ≤ |start.deviation moves pos + lost| + |lost| := abs_sub _ _
    _ < max 1 ((start.entries.length : ℚ) - 1) + k * max 1 ((start.entries.length : ℚ) - 1) :=
        add_lt_add_of_lt_of_le hlaw hlost
    _ = (k + 1) * max 1 ((start.entries.length : ℚ) - 1) := by ring

/-- Two links that differ in their configured weight only. -/
def twoToOne : List (Link ℚ) :=
  let link (weight : ℚ) : Link ℚ :=
    { state := .Up, adminDisabled := false, weight, bandwidthCapMbps := none, rttMs := none
      jitterMs := none, lossRate := none, rxThroughputMbps := none, activeBandwidthMbps := none
      consecutiveMisses := 0 }
  [link 2, link 1]

def swrrConfig : SchedulerConfig ℚ :=
  (ConfigFile.serverWith { mtu := none, address6 := none }).scheduler

theorem upIndices_twoToOne : upIndices twoToOne = [(0, 1 / 5), (1, 1 / 10)] := by decide +kernel

theorem linkFactor_new (idx : Nat) : (new : Scheduler ℚ).linkFactor idx = 1 := by
  show (1 : ℚ) * 1 = 1
  norm_num

theorem twoToOne_uncapped : ∀ l ∈ twoToOne, l.bandwidthCapMbps = none := by decide

theorem linkFactor_twoToOne : ∀ l ∈ upIndices twoToOne, 0 < (new : Scheduler ℚ).linkFactor l.1 := by
  intro l _
  rw [linkFactor_new]
  exact one_pos

/-- The scheduler once it has refreshed to the two links. -/
abbrev twoToOneTable : Scheduler ℚ := (new : Scheduler ℚ).refresh twoToOne swrrConfig none

/-- Three picks, which bring all current weights back to zero, and a refresh. -/
def wholeRound : List (Move ℚ) :=
  List.replicate 3 (.pick atZero 1200) ++ [.refresh twoToOne swrrConfig none]

/-- A whole round, and then a refresh after a single pick: one refresh loses something, and
every link is less than two picks off. -/
theorem refresh_split_bounded_round :
    twoToOneTable.losses
        (wholeRound ++ [.pick atZero 1200, .refresh twoToOne swrrConfig none]) = 1 ∧
      ∀ pos < twoToOneTable.entries.length, |twoToOneTable.deviation
        (wholeRound ++ [.pick atZero 1200, .refresh twoToOne swrrConfig none]) pos| < 2 := by
  have hlosses : twoToOneTable.losses
      (wholeRound ++ [.pick atZero 1200, .refresh twoToOne swrrConfig none]) = 1 := by
    decide +kernel
  have hbound : ((1 : Nat) + 1 : ℚ) *
      max 1 ((twoToOneTable.entries.length : ℚ) - 1) = 2 := by decide +kernel
  rw [← hbound]
  refine ⟨hlosses, refresh_split_bounded new twoToOne swrrConfig none rfl twoToOne_uncapped
    linkFactor_twoToOne 1 _ ?_ hlosses.le⟩
  intro m hm
  simp only [wholeRound, List.replicate, List.cons_append, List.nil_append, List.mem_cons,
    List.not_mem_nil, or_false] at hm
  rcases hm with rfl | rfl | rfl | rfl | rfl | rfl
  · trivial
  · trivial
  · trivial
  · exact ⟨rfl, twoToOne_uncapped⟩
  · trivial
  · exact ⟨rfl, twoToOne_uncapped⟩

/-- A refresh after every pick. -/
def refreshEachTime : Nat → List (Move ℚ)
  | 0 => []
  | n + 1 => .pick atZero 1200 :: .refresh twoToOne swrrConfig none :: refreshEachTime n

/-- The heavier link is then picked every time. -/
theorem picked_refreshEachTime (n : Nat) {s : Scheduler ℚ} (hsteady : Steady new s)
    (hfresh : Fresh s.entries) (htable : shares s.entries = [(0, 1 / 5), (1, 1 / 10)]) :
    s.picked (refreshEachTime n) = List.replicate n 0 := by
  induction n generalizing s with
  | zero => rfl
  | succ n ih =>
    have hlength : s.entries.length = 2 := by
      have hcongr := congrArg List.length htable
      simpa [shares] using hcongr
    have hentries : s.entries ≠ [] := List.length_pos_iff.mp (by omega)
    have hat := fun pos => (shares_getD s.entries pos).symm.trans
      (congrArg (fun t => t.getD pos (0, 0)) htable)
    obtain ⟨winner, hwinner, hgreatest, -, hidx⟩ :=
      swrrPickUnderCap_settles hentries atZero 1200
    rw [(hsteady.unrestricted atZero 1200).competing_eq, hlength] at hwinner hgreatest
    have hfirst : winner = 0 := by
      by_contra hne
      have hone : winner = 1 := by
        have := List.mem_range.mp hwinner
        omega
      subst hone
      have hle := hgreatest 0 (by decide)
      rw [hfresh.credit_eq (by omega), hfresh.credit_eq (by omega), (Prod.mk.inj (hat 0)).2,
        (Prod.mk.inj (hat 1)).2] at hle
      exact absurd hle (by decide +kernel)
    subst hfirst
    have hpicked : (s.swrrPickUnderCap atZero 1200).2 = 0 := by
      rw [hidx, (Prod.mk.inj (hat 0)).1]
    have hnext := hsteady.pick hentries atZero 1200
    have hagain := ih (steady_refresh hnext.factors hnext.penalized twoToOne_uncapped
      swrrConfig none) (fresh_refresh _ twoToOne swrrConfig none) (by
        rw [shares_refresh, upIndices_twoToOne, hnext.factors.linkFactor_eq]
        simp only [linkFactor_new, mul_one, List.map_cons, List.map_nil])
    rw [List.replicate_succ, ← hagain, ← hpicked]
    rfl

/-- However large the bound, enough picks with a refresh after each exceed it: of `n` picks
the first link has all instead of two thirds. -/
theorem refresh_split_unbounded :
    (new : Scheduler ℚ).penalized = [] ∧ (∀ l ∈ twoToOne, l.bandwidthCapMbps = none) ∧
      (∀ l ∈ upIndices twoToOne, 0 < (new : Scheduler ℚ).linkFactor l.1) ∧
      ∀ bound : ℚ, ∃ moves : List (Move ℚ), (∀ m ∈ moves, m.Repeats twoToOne) ∧
        ∃ pos < twoToOneTable.entries.length, bound < |twoToOneTable.deviation moves pos| := by
  refine ⟨rfl, twoToOne_uncapped, linkFactor_twoToOne, fun bound => ?_⟩
  have hrepeats : ∀ n, ∀ m ∈ refreshEachTime n, m.Repeats twoToOne := by
    intro n
    induction n with
    | zero => exact fun _ h => nomatch h
    | succ n ih =>
        intro m hm
        rcases List.mem_cons.mp hm with rfl | hm
        · trivial
        rcases List.mem_cons.mp hm with rfl | hm
        · exact ⟨rfl, twoToOne_uncapped⟩
        · exact ih m hm
  obtain ⟨n, hn⟩ := exists_nat_gt (3 * bound)
  have htable : shares twoToOneTable.entries = [(0, 1 / 5), (1, 1 / 10)] := by
    rw [shares_refresh, upIndices_twoToOne]
    simp only [linkFactor_new, mul_one, List.map_cons, List.map_nil]
  have hpicked := picked_refreshEachTime n
    (steady_refresh ⟨rfl, rfl⟩ rfl twoToOne_uncapped swrrConfig none)
    (fresh_refresh new twoToOne swrrConfig none) htable
  have hat := (shares_getD twoToOneTable.entries 0).symm.trans
    (congrArg (fun t => t.getD 0 (0, 0)) htable)
  have htotal : (twoToOneTable.entries.map (·.effectiveWeight)).sum = 3 / 10 := by
    decide +kernel
  refine ⟨refreshEachTime n, hrepeats n, 0, by decide +kernel, ?_⟩
  have hdeviation : twoToOneTable.deviation (refreshEachTime n) 0 = n / 3 := by
    rw [deviation, hpicked, (Prod.mk.inj hat).1, (Prod.mk.inj hat).2, htotal]
    show ((List.count 0 (List.replicate n 0) : ℕ) : ℚ) - _ * (1 / 5) / _ = _
    rw [List.count_replicate_self, List.length_replicate]
    ring
  rw [hdeviation]
  refine lt_of_lt_of_le ?_ (le_abs_self _)
  linarith

end Scheduler

end Mlvpn.Ports.Scheduling
